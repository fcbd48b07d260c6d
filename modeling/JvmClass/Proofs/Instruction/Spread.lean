import JvmClass.Proofs.Instruction.Relocation

/-!
# Spread instructions

Code whose instructions are spread over other code: each of them has its place there,
its branches lead elsewhere, and all bytes between them do nothing. The places and the
ways of the branches leave nothing open, so that two ways to spread the same
instructions lead to the same code.
-/

namespace JvmClass.Bytecode

variable {code old mid new new' : Bytecode} {route route' : Int → Int} {place place' : Nat → Nat}
  {starts : List Nat} {p q n : Nat}

/-! ## Bytes of numbers -/

/-- Numbers of two bytes are equal only if their bytes are. -/
theorem bytes_eq_of_u16At? (h : (new.u16At? q).getD 0 = (new'.u16At? q).getD 0)
    (hsize : q + 2 ≤ new.size) (hsize' : q + 2 ≤ new'.size) :
    ∀ i < 2, new[q + i]? = new'[q + i]? := by
  have h0 := Array.getElem?_eq_getElem (show q < new.size by omega)
  have h1 := Array.getElem?_eq_getElem (show q + 1 < new.size by omega)
  have h0' := Array.getElem?_eq_getElem (show q < new'.size by omega)
  have h1' := Array.getElem?_eq_getElem (show q + 1 < new'.size by omega)
  unfold u16At? at h
  rw [h0, h1, h0', h1'] at h
  have hnat := congrArg UInt16.toNat h
  simp only [Option.getD_some, UInt16.toNat_ofNat'] at hnat
  have hbounds := And.intro new[q].toNat_lt new[q + 1].toNat_lt
  have hbounds' := And.intro new'[q].toNat_lt new'[q + 1].toNat_lt
  have hhigh : new[q] = new'[q] := UInt8.toNat_inj.mp (by omega)
  have hlow : new[q + 1] = new'[q + 1] := UInt8.toNat_inj.mp (by omega)
  intro i hi
  obtain rfl | rfl : i = 0 ∨ i = 1 := by omega
  · rw [Nat.add_zero, h0, h0', hhigh]
  · rw [h1, h1', hlow]

/-- Numbers of four bytes are equal only if their bytes are. -/
theorem bytes_eq_of_i32At? (h : (new.i32At? q).getD 0 = (new'.i32At? q).getD 0)
    (hsize : q + 4 ≤ new.size) (hsize' : q + 4 ≤ new'.size) :
    ∀ i < 4, new[q + i]? = new'[q + i]? := by
  obtain ⟨a, ha⟩ := exists_u16At? (show q + 2 ≤ new.size by omega)
  obtain ⟨b, hb⟩ := exists_u16At? (show q + 2 + 2 ≤ new.size by omega)
  obtain ⟨a', ha'⟩ := exists_u16At? (show q + 2 ≤ new'.size by omega)
  obtain ⟨b', hb'⟩ := exists_u16At? (show q + 2 + 2 ≤ new'.size by omega)
  unfold i32At? at h
  rw [ha, hb, ha', hb'] at h
  have hnat := congrArg (fun word : Int32 => word.toUInt32.toNat) (Int32.toInt_inj.mp h)
  simp only [UInt32.toUInt32_toInt32, UInt32.toNat_ofNat'] at hnat
  have hbounds := And.intro a.toNat_lt b.toNat_lt
  have hbounds' := And.intro a'.toNat_lt b'.toNat_lt
  have hhigh : a = a' := UInt16.toNat_inj.mp (by omega)
  have hlow : b = b' := UInt16.toNat_inj.mp (by omega)
  have hfirst : ∀ i < 2, new[q + i]? = new'[q + i]? :=
    bytes_eq_of_u16At? (by rw [ha, ha', hhigh]) (by omega) (by omega)
  have hlast : ∀ i < 2, new[q + 2 + i]? = new'[q + 2 + i]? :=
    bytes_eq_of_u16At? (by rw [hb, hb', hlow]) (by omega) (by omega)
  intro i hi
  by_cases hi' : i < 2
  · exact hfirst i hi'
  · have hplace : q + i = q + 2 + (i - 2) := by omega
    rw [hplace]
    exact hlast (i - 2) (by omega)

/-- Fields hold equal distances only if their bytes are equal. -/
theorem bytes_eq_of_branchOffset {field : BranchField}
    (h : new.branchOffset field = new'.branchOffset field)
    (hsize : field.position + field.width ≤ new.size)
    (hsize' : field.position + field.width ≤ new'.size) :
    ∀ i < field.width, new[field.position + i]? = new'[field.position + i]? := by
  unfold branchOffset at h
  unfold BranchField.width at hsize hsize' ⊢
  split at h
  · next hlong =>
    rw [if_pos hlong] at hsize hsize' ⊢
    exact bytes_eq_of_i32At? h hsize hsize'
  · next hshort =>
    rw [if_neg hshort] at hsize hsize' ⊢
    have hword := congrArg Int16.toUInt16 (Int16.toInt_inj.mp h)
    exact bytes_eq_of_u16At? hword hsize hsize'

/-! ## What determines a moved instruction -/

/-- The fields of a moved instruction have moved along. -/
theorem Moved.branchFieldsAt_eq (moved : Moved route old new p q) :
    new.branchFieldsAt q = (old.branchFieldsAt p).map (·.moveTo q) := by
  obtain ⟨n, hl, -⟩ := moved.length
  exact ((moved.same n hl).shape_and_fields (instructionLength_eq_ok_iff.mp hl).1).2

/-- Each field of a moved instruction leads to where its target has gone. -/
theorem Moved.branchTarget_eq (moved : Moved route old new p q) {field : BranchField}
    (hfield : field ∈ old.branchFieldsAt p) :
    new.branchTarget (field.moveTo q) = route (old.branchTarget field) := by
  have htargets := moved.targets
  unfold branchTargets at htargets
  rw [moved.branchFieldsAt_eq, List.map_map, List.map_map] at htargets
  exact List.map_inj_left.mp htargets field hfield

/-- What an instruction was, its place and the ways of its branches determine its bytes. -/
theorem Moved.bytes_eq (moved : Moved route old new p q) (moved' : Moved route old new' p q)
    (hl : old.instructionLength p = .ok n) : ∀ i < n, new[q + i]? = new'[q + i]? := by
  intro i hi
  by_cases hoffset : old.IsOffsetByte p (p + i)
  · obtain ⟨field, hfield, hcovers, hcovers'⟩ := hoffset
    have hsize {new : Bytecode} (moved : Moved route old new p q) :
        (field.moveTo q).position + (field.moveTo q).width ≤ new.size := by
      obtain ⟨m, hm, hm'⟩ := moved.length
      have hend := (instructionLength_eq_ok_iff.mp hm').1.add_width_le
        (moved.branchFieldsAt_eq ▸ List.mem_map_of_mem hfield)
      exact Nat.le_trans hend (add_instructionLength_le hm')
    have hsource := source_lt_position hfield
    have htarget := (moved.branchTarget_eq hfield).trans (moved'.branchTarget_eq hfield).symm
    unfold branchTarget at htarget
    have hbytes := bytes_eq_of_branchOffset (by omega) (hsize moved) (hsize moved')
      (p + i - field.position) (show _ < field.width by omega)
    have hplace : (field.moveTo q).position + (p + i - field.position) = q + i := by
      show q + (field.position - field.source) + _ = _
      omega
    rwa [hplace] at hbytes
  · exact ((moved.same n hl).bytes i hi hoffset).trans ((moved'.same n hl).bytes i hi hoffset).symm

/-! ## Places of instructions -/

/-- Every byte on a walk belongs to an instruction. -/
theorem Walk.exists_around {first last i : Nat} (walk : Walk code first starts last)
    (hfirst : first ≤ i) (hlast : i < last) :
    ∃ p ∈ starts, ∃ n, code.instructionLength p = .ok n ∧ p ≤ i ∧ i < p + n := by
  induction walk with
  | stop => omega
  | @step position length last starts hl rest ih =>
    by_cases hi : i < position + length
    · exact ⟨position, List.mem_cons_self, length, hl, hfirst, hi⟩
    · obtain ⟨p, hp, hfound⟩ := ih (by omega) hlast
      exact ⟨p, List.mem_cons_of_mem _ hp, hfound⟩

/-- An instruction that does nothing is one byte long, and no branch. -/
theorem instruction_of_nop (h : code[p]? = some Opcode.nop) :
    code.instructionLength p = .ok 1 ∧ code.branchFieldsAt p = [] := by
  have hlt := (Array.getElem?_eq_some_iff.mp h).1
  have layout : Layout.ofOpcode Opcode.nop = .fixed 0 := by decide
  refine ⟨instructionLength_eq_ok_iff.mpr ⟨.fixed h layout, hlt⟩, ?_⟩
  rw [branchFieldsAt_of_fixed h layout, if_neg (by decide), if_neg (by decide)]

/-- Whether a byte belongs to one of some instructions, which are at their places. -/
def Occupied (place : Nat → Nat) (starts : List Nat) (old : Bytecode) (i : Nat) : Prop :=
  ∃ p ∈ starts, ∃ n, old.instructionLength p = .ok n ∧ place p ≤ i ∧ i < place p + n

/-- The instructions of old code are spread over new code. -/
structure Spread (place : Nat → Nat) (route : Int → Int) (starts : List Nat)
    (old new : Bytecode) : Prop where
  /-- Each of them is at its place, and its branches lead elsewhere. -/
  moved : ∀ p ∈ starts, Moved route old new p (place p)
  /-- All other bytes do nothing. -/
  rest : ∀ i < new.size, ¬ Occupied place starts old i → new[i]? = some Opcode.nop

/-- The places and the ways of the branches determine the code. -/
theorem Spread.unique (spread : Spread place route starts old new)
    (spread' : Spread place route starts old new') (hsize : new'.size = new.size) :
    new' = new := by
  refine Array.ext_getElem? fun i => ?_
  by_cases hi : i < new.size
  · by_cases hoccupied : Occupied place starts old i
    · obtain ⟨p, hp, n, hl, hle, hlt⟩ := hoccupied
      have hbytes := (spread'.moved p hp).bytes_eq (spread.moved p hp) hl (i - place p) (by omega)
      rwa [Nat.add_sub_cancel' hle] at hbytes
    · rw [spread.rest i hi hoccupied, spread'.rest i (hsize ▸ hi) hoccupied]
  · rw [Array.getElem?_eq_none (by omega), Array.getElem?_eq_none (by omega)]

/-- Spread instructions are spread once more. The code in between is walked over the
instructions and what does nothing. -/
theorem Spread.trans {between : List Nat} (first : Spread place route starts old mid)
    (walk : Walk mid 0 between mid.size) (hplaces : ∀ p ∈ starts, place p ∈ between)
    (second : Spread place' route' between mid new) :
    Spread (place' ∘ place) (route' ∘ route) starts old new := by
  refine ⟨fun p hp => (first.moved p hp).trans (second.moved _ (hplaces p hp)), fun i hi hfree => ?_⟩
  by_cases hoccupied : Occupied place' between mid i
  · obtain ⟨q, hq, n, hl, hle, hlt⟩ := hoccupied
    have hfirst : ¬ Occupied place starts old q := by
      rintro ⟨p, hp, m, hm, hle', hlt'⟩
      obtain ⟨k, hk, hmid⟩ := (first.moved p hp).length
      cases hm.symm.trans hk
      -- the instruction around the byte is the one that starts there
      have hsame : place p = q := by
        by_contra hne
        have hend := walk.add_length_le (hplaces p hp) hmid (.inl hq) (by omega)
        omega
      subst hsame
      cases hl.symm.trans hmid
      exact hfree ⟨p, hp, _, hm, hle, hlt⟩
    have hnop := first.rest q (walk.mem_bounds hq).2 hfirst
    cases hl.symm.trans (instruction_of_nop hnop).1
    have hplace : i = place' q := by omega
    rw [hplace, (second.moved q hq).opcode_eq, hnop]
  · exact second.rest i hi hoccupied

end JvmClass.Bytecode
