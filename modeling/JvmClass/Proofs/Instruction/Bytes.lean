import JvmClass.Instruction.Branch
import JvmClass.Proofs.Binary.Codec

/-!
# Bytes of code

What numbers in code are read as, and what overwriting bytes and opening a gap
do to each byte. Every number is read back as it was written, and reading
depends on no other bytes than those of the number.
-/

namespace JvmClass

/-- The larger of two numbers of 16 bits. -/
theorem toNat_max (a b : UInt16) : (max a b).toNat = max a.toNat b.toNat := by
  show (if a ≤ b then b else a).toNat = _
  split
  · next hle =>
    have hle := UInt16.le_iff_toNat_le.mp hle
    omega
  · next hnot =>
    have hlt := UInt16.le_iff_toNat_le.not.mp hnot
    omega

namespace Bytecode

variable {a b code : Bytecode} {p q : Nat}

/-! ## Reading -/

/-- Reading two bytes depends on these bytes only. -/
theorem u16At?_congr (h : ∀ i < 2, b[q + i]? = a[p + i]?) : b.u16At? q = a.u16At? p := by
  have h0 := h 0 (by omega)
  have h1 := h 1 (by omega)
  rw [Nat.add_zero, Nat.add_zero] at h0
  unfold u16At?
  rw [h0, h1]

/-- Reading four bytes depends on these bytes only. -/
theorem i32At?_congr (h : ∀ i < 4, b[q + i]? = a[p + i]?) : b.i32At? q = a.i32At? p := by
  have hhigh : b.u16At? q = a.u16At? p := u16At?_congr fun i hi => h i (by omega)
  have hlow : b.u16At? (q + 2) = a.u16At? (p + 2) := by
    apply u16At?_congr
    intro i hi
    rw [Nat.add_assoc, Nat.add_assoc]
    exact h (2 + i) (by omega)
  unfold i32At?
  rw [hhigh, hlow]

/-- A number of two bytes is read back as it was written. -/
theorem u16At?_of_bytes {n : UInt16} (h : ∀ i < 2, code[p + i]? = (Codec.bytesOfU16 n)[i]?) :
    code.u16At? p = some n := by
  have h0 := h 0 (by omega)
  have h1 := h 1 (by omega)
  rw [Nat.add_zero] at h0
  unfold u16At?
  rw [h0, h1]
  exact congrArg some (Codec.ofNat_bytesOfU16 n)

/-- A number of four bytes is read back as it was written. -/
theorem i32At?_of_bytes {n : UInt32} (h : ∀ i < 4, code[p + i]? = (Codec.bytesOfU32 n)[i]?) :
    code.i32At? p = some n.toInt32.toInt := by
  have hhigh : code.u16At? p = some (UInt16.ofNat (n.toNat / 65536)) :=
    u16At?_of_bytes fun i hi => by
      rw [h i (by omega), Codec.bytesOfU32, List.getElem?_append_left (by simpa using hi)]
  have hlow : code.u16At? (p + 2) = some (UInt16.ofNat (n.toNat % 65536)) :=
    u16At?_of_bytes fun i hi => by
      rw [Nat.add_assoc, h (2 + i) (by omega), Codec.bytesOfU32,
        List.getElem?_append_right (by simp)]
      simp
  unfold i32At?
  rw [hhigh, hlow]
  exact congrArg (fun n : UInt32 => some n.toInt32.toInt) (Codec.ofNat_halves n)

/-- Two bytes that lie in the code are there. -/
theorem exists_u16At? (h : p + 2 ≤ code.size) : ∃ n, code.u16At? p = some n := by
  unfold u16At?
  rw [Array.getElem?_eq_getElem (show p < code.size by omega),
    Array.getElem?_eq_getElem (show p + 1 < code.size by omega)]
  exact ⟨_, rfl⟩

/-- Four bytes that lie in the code are there. -/
theorem exists_i32At? (h : p + 4 ≤ code.size) : ∃ n, code.i32At? p = some n := by
  obtain ⟨a, ha⟩ := exists_u16At? (show p + 2 ≤ code.size by omega)
  obtain ⟨b, hb⟩ := exists_u16At? (show p + 2 + 2 ≤ code.size by omega)
  unfold i32At?
  rw [ha, hb]
  exact ⟨_, rfl⟩

/-! ## Overwriting -/

/-- Overwriting does not change the length of code. -/
@[simp]
theorem size_overwrite (code : Bytecode) (position : Nat) (bytes : List UInt8) :
    (code.overwrite position bytes).size = code.size := by
  induction bytes generalizing code position with
  | nil => rfl
  | cons byte bytes ih => rw [overwrite, ih, Array.size_setIfInBounds]

/-- Overwriting leaves the bytes before and behind as they are. -/
theorem getElem?_overwrite_of_outside {position i : Nat} {bytes : List UInt8}
    (h : i < position ∨ position + bytes.length ≤ i) :
    (code.overwrite position bytes)[i]? = code[i]? := by
  induction bytes generalizing code position with
  | nil => rfl
  | cons byte bytes ih =>
    rw [List.length_cons] at h
    rw [overwrite, ih (by omega), Array.getElem?_setIfInBounds_ne (by omega)]

/-- Overwriting puts the given bytes into their place. -/
theorem getElem?_overwrite_of_inside {position i : Nat} {bytes : List UInt8}
    (hi : i < bytes.length) (hs : position + bytes.length ≤ code.size) :
    (code.overwrite position bytes)[position + i]? = bytes[i]? := by
  induction bytes generalizing code position i with
  | nil => cases hi
  | cons byte bytes ih =>
    rw [List.length_cons] at hi hs
    rw [overwrite]
    cases i with
    | zero =>
      rw [getElem?_overwrite_of_outside (by omega), Nat.add_zero,
        Array.getElem?_setIfInBounds_self_of_lt (by omega)]
      rfl
    | succ i =>
      have hplace : position + (i + 1) = position + 1 + i := by omega
      rw [hplace, ih (by omega) (by rw [Array.size_setIfInBounds]; omega)]
      rfl

/-- The bytes of code in which some bytes are overwritten. -/
theorem getElem?_overwrite {bytes : List UInt8} (hroom : p + bytes.length ≤ code.size) (i : Nat) :
    (code.overwrite p bytes)[i]? =
      if p ≤ i ∧ i < p + bytes.length then bytes[i - p]? else code[i]? := by
  by_cases hi : p ≤ i ∧ i < p + bytes.length
  · rw [if_pos hi]
    have hinside : (code.overwrite p bytes)[p + (i - p)]? = bytes[i - p]? :=
      getElem?_overwrite_of_inside (by omega) hroom
    rwa [Nat.add_sub_cancel' hi.1] at hinside
  · rw [if_neg hi]
    exact getElem?_overwrite_of_outside (by omega)

/-- Bytes that are apart are overwritten in any order. -/
theorem overwrite_comm {bytes bytes' : List UInt8} (hroom : p + bytes.length ≤ code.size)
    (hroom' : q + bytes'.length ≤ code.size)
    (hapart : p + bytes.length ≤ q ∨ q + bytes'.length ≤ p) :
    (code.overwrite p bytes).overwrite q bytes' = (code.overwrite q bytes').overwrite p bytes := by
  refine Array.ext_getElem? fun i => ?_
  rw [getElem?_overwrite (by rwa [size_overwrite]), getElem?_overwrite hroom,
    getElem?_overwrite (by rwa [size_overwrite]), getElem?_overwrite hroom']
  split_ifs <;> first | rfl | omega

end Bytecode

end JvmClass
