import JvmClass.Proofs.Binary.Codec

/-!
# Lengths of binary forms

How many bytes a value takes can often be told without writing it. Where a
function tells it for the parts of a value, it is known for rows and tables of
these parts as well.
-/

namespace JvmClass.Codec

variable {α β : Type} {c : Codec α} {length : α → Nat}

/-- A function tells how many bytes are written of a value. -/
def Sized (c : Codec α) (length : α → Nat) : Prop :=
  ∀ a bytes, c.encode a = .ok bytes → bytes.length = length a

/-- A 16-bit number takes two bytes. -/
theorem sized_u16 : u16.Sized fun _ => 2 := by
  intro n bytes h
  cases h
  rfl

/-- A converted value takes as many bytes as the value that it comes from. -/
theorem Sized.convert (h : c.Sized length) (into : α → β) (back : β → α) :
    (c.convert into back).Sized fun b => length (back b) :=
  fun b bytes hbytes => h (back b) bytes hbytes

/-- Two values in a row take the bytes of both. -/
theorem Sized.pair {second : Codec β} {length' : β → Nat} (h : c.Sized length)
    (h' : second.Sized length') :
    (c.pair second).Sized fun (a, b) => length a + length' b := by
  rintro ⟨a, b⟩ bytes hbytes
  obtain ⟨start, stop, hstart, hstop, rfl⟩ := encode_pair_eq_ok_iff.mp hbytes
  rw [List.length_append, h a start hstart, h' b stop hstop]

/-- Several values in a row take the bytes of all of them. -/
theorem Sized.length_encodeAll (h : c.Sized length) {as : List α} {bytes : List UInt8}
    (hbytes : encodeAll c.encode as = .ok bytes) : bytes.length = lengthAll length as := by
  induction as generalizing bytes with
  | nil =>
    cases hbytes
    rfl
  | cons a as ih =>
    obtain ⟨start, stop, hstart, hstop, rfl⟩ := encodeAll_cons_eq_ok_iff.mp hbytes
    rw [List.length_append, h a start hstart, ih hstop, lengthAll]

/-- A table takes two bytes more than its entries. -/
theorem Sized.table (h : c.Sized length) :
    (Codec.table c).Sized fun as => 2 + lengthAll length as := by
  intro as bytes hbytes
  obtain ⟨entries, -, hentries, rfl⟩ := encode_counted_eq_ok_iff.mp hbytes
  rw [List.length_append, length_bytesOfU16, h.length_encodeAll hentries]

/-- Entries of the same length are counted. -/
theorem lengthAll_const (n : Nat) (as : List α) : lengthAll (fun _ => n) as = n * as.length := by
  induction as with
  | nil => rfl
  | cons a as ih => rw [lengthAll, ih, List.length_cons, Nat.mul_succ, Nat.add_comm]

/-- A table of entries of the same length takes two bytes more than these. -/
theorem Sized.table_const {n : Nat} (h : c.Sized fun _ => n) :
    (Codec.table c).Sized fun as => 2 + n * as.length := by
  intro as bytes hbytes
  exact (h.table as bytes hbytes).trans (congrArg (2 + ·) (lengthAll_const n as))

end JvmClass.Codec
