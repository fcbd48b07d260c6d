import JvmClass.CallSite.Replace
import JvmClass.Proofs.Code.Cursor
import JvmClass.Proofs.Code.GapInsertion
import JvmClass.Proofs.Instruction.Placement

/-!
# Spliced bodies

Code is put in the place of a dynamic call. The call is blanked, a gap is opened
before it, and the code is written from the start of the gap on. What is left of
the gap and of the call does nothing, and all other instructions are relocated.
-/

namespace JvmClass

variable {code new : Code} {starts : List Nat} {position : Nat}

/-- The shift of everything around a call that is replaced by code of some
length. -/
def CallSite.shift (position length : Nat) : Shift :=
  ⟨position, Code.gapLength (length - 5), false⟩

/-! ## Dynamic calls -/

/-- A dynamic call is an instruction of five bytes. -/
theorem Bytecode.instructionLength_of_invokeDynamic {code : Bytecode} {n : Nat}
    (hcall : code[position]? = some Opcode.invokeDynamic)
    (hl : code.instructionLength position = .ok n) : n = 5 := by
  obtain ⟨op, byte, hclaimed⟩ := (instructionLength_eq_ok_iff.mp hl).1.claimedLength
  cases hcall.symm.trans byte
  cases hclaimed
  rfl

/-! ## Blanked calls -/

/-- A body with instructions that do nothing in place of the call at a
position. -/
def Code.blanked (code : Code) (position : Nat) : Code :=
  { code with bytes := Bytecode.overwrite code.bytes position (List.replicate 5 Opcode.nop) }

/-- The instructions of a body with a blanked call. -/
def blankedStarts (position : Nat) (starts : List Nat) : List Nat :=
  starts.filter (· < position) ++ List.range' position 5 ++ starts.filter (position < ·)

/-- Every byte of a blanked call is an instruction. -/
theorem mem_blankedStarts_of_call {i : Nat} (hi : i < 5) :
    position + i ∈ blankedStarts position starts :=
  List.mem_append_left _ (List.mem_append_right _ (List.mem_range'_1.mpr (by omega)))

/-- All other instructions are still there. -/
theorem mem_blankedStarts_of_ne {p : Nat} (hp : p ∈ starts) (hne : p ≠ position) :
    p ∈ blankedStarts position starts := by
  rcases Nat.lt_or_gt_of_ne hne with hlt | hgt
  · have hbefore : p ∈ starts.filter (· < position) :=
      List.mem_filter.mpr ⟨hp, decide_eq_true hlt⟩
    exact List.mem_append_left _ (List.mem_append_left _ hbefore)
  · exact List.mem_append_right _ (List.mem_filter.mpr ⟨hp, decide_eq_true hgt⟩)

namespace Code

/-- Blanking a call leaves the length of a body. -/
@[simp]
theorem size_blanked (code : Code) (position : Nat) :
    (code.blanked position).bytes.size = code.bytes.size := by
  unfold blanked
  rw [Bytecode.size_overwrite]

/-- The bytes of a blanked call do nothing. -/
theorem getElem?_blanked_of_inside (hsize : position + 5 ≤ code.bytes.size) {i : Nat}
    (hi : i < 5) : (code.blanked position).bytes[position + i]? = some Opcode.nop := by
  unfold blanked
  rw [Bytecode.getElem?_overwrite_of_inside (by rw [List.length_replicate]; exact hi)
    (by rw [List.length_replicate]; exact hsize), List.getElem?_replicate, if_pos hi]

section Walk

variable (walk : Bytecode.Walk code.bytes 0 starts code.bytes.size) (hmem : position ∈ starts)
  (hcall : code.bytes[position]? = some Opcode.invokeDynamic)
include walk hmem hcall

/-- A call on a walk is complete. -/
theorem instructionLength_of_call :
    Bytecode.instructionLength code.bytes position = .ok 5 ∧ position + 5 ≤ code.bytes.size := by
  obtain ⟨n, hl⟩ := walk.exists_length hmem
  cases Bytecode.instructionLength_of_invokeDynamic hcall hl
  exact ⟨hl, Bytecode.add_instructionLength_le hl⟩

/-- Other instructions end before the call or start behind it. -/
theorem outside_call {p n : Nat} (hp : p ∈ starts) (hne : p ≠ position)
    (hl : Bytecode.instructionLength code.bytes p = .ok n) :
    p + n ≤ position ∨ position + 5 ≤ p := by
  rcases Nat.lt_or_gt_of_ne hne with hlt | hgt
  · exact .inl (walk.add_length_le hp hl (.inl hmem) hlt)
  · have hfive := (instructionLength_of_call walk hmem hcall).1
    exact .inr (walk.add_length_le hmem hfive (.inl hp) hgt)

/-- Blanking a call leaves the bytes of all other instructions. -/
theorem getElem?_blanked_of_ne {p n : Nat} (hp : p ∈ starts) (hne : p ≠ position)
    (hl : Bytecode.instructionLength code.bytes p = .ok n) {i : Nat} (hi : i < n) :
    (code.blanked position).bytes[p + i]? = code.bytes[p + i]? := by
  have houtside := outside_call walk hmem hcall hp hne hl
  unfold blanked
  rw [Bytecode.getElem?_overwrite_of_outside (by rw [List.length_replicate]; omega)]

/-- A body with a blanked call can be walked. -/
theorem walk_blanked : Bytecode.Walk (code.blanked position).bytes 0
    (blankedStarts position starts) (code.blanked position).bytes.size := by
  obtain ⟨hfive, hsize⟩ := instructionLength_of_call walk hmem hcall
  have hsame : ∀ p ∈ starts, p ≠ position →
      Bytecode.instructionLength (code.blanked position).bytes p =
        Bytecode.instructionLength code.bytes p := by
    intro p hp hne
    obtain ⟨n, hl⟩ := walk.exists_length hp
    rw [hl]
    exact (Bytecode.eq_of_bytes hl fun i hi =>
      getElem?_blanked_of_ne walk hmem hcall hp hne hl hi).1
  have before := (walk.cut (.inl hmem)).1.congr fun p hp =>
    hsame p (List.mem_filter.mp hp).1 (Nat.ne_of_lt (of_decide_eq_true (List.mem_filter.mp hp).2))
  have behind := (walk.behind hmem hfive).congr fun p hp =>
    hsame p (List.mem_filter.mp hp).1 (Nat.ne_of_gt (of_decide_eq_true (List.mem_filter.mp hp).2))
  have blank : Bytecode.Walk (code.blanked position).bytes position
      (List.range' position 5) (position + 5) :=
    .nops fun i hi => getElem?_blanked_of_inside hsize hi
  rw [size_blanked]
  exact (before.trans blank).trans behind

end Walk

/-! ## Code in the place of a call -/

/-- The bytes of a blanked call do nothing behind a gap either. -/
theorem getElem?_opened_of_call {s : Shift} (hsize : position + 5 ≤ code.bytes.size)
    (opened : (code.blanked position).Opened s (blankedStarts position starts) new)
    (hs : s.position = position) {i : Nat} (hi : i < 5) :
    new.bytes[position + s.gap + i]? = some Opcode.nop := by
  have hrelocated := opened.instructions _ (mem_blankedStarts_of_call hi)
  obtain ⟨n, hl, -⟩ := hrelocated.length
  have hbyte := hrelocated.bytes n hl 0 (Bytecode.one_le_instructionLength hl)
    (Bytecode.not_isOffsetByte_self _ _)
  have hstart : s.start (position + i) = position + s.gap + i := by
    unfold Shift.start
    rw [if_pos (by omega)]
    omega
  rw [hstart] at hbyte
  exact hbyte.trans (getElem?_blanked_of_inside hsize hi)

/-- A body in which other code has taken the place of the call at a position. -/
structure Spliced (position : Nat) (body : List UInt8) (starts : List Nat) (old new : Code) :
    Prop where
  /-- It is longer by the gap. -/
  size : new.bytes.size = old.bytes.size + (CallSite.shift position body.length).gap
  /-- The code stands where the call was. -/
  placed : Bytecode.HasBytes new.bytes position body
  /-- What is left of the call and of the gap does nothing. -/
  padding : Bytecode.HasBytes new.bytes (position + body.length)
    (List.replicate (5 + (CallSite.shift position body.length).gap - body.length) Opcode.nop)
  /-- All other instructions are relocated. -/
  others : ∀ p ∈ starts, p ≠ position →
    Bytecode.Relocated (CallSite.shift position body.length) old.bytes new.bytes p
  /-- The handlers are shifted. -/
  handlers : new.handlers = old.handlers.map (Handler.shift (CallSite.shift position body.length))
  /-- The attributes are shifted if a gap was needed. -/
  attributes : new.attributes = if body.length ≤ 5 then old.attributes
    else old.attributes.map (Attribute.shift (CallSite.shift position body.length))
  /-- The limits stay. -/
  limits : (new.maxStack, new.maxLocals) = (old.maxStack, old.maxLocals)
  /-- All positions fit 16 bits if a gap was needed. -/
  room : (CallSite.shift position body.length).gap = 0 ∨
    old.bytes.size + (CallSite.shift position body.length).gap ≤ 65535

end Code

/-- The gap has room for what the code has more than the call. -/
theorem CallSite.length_le_gap (position length : Nat) :
    length ≤ 5 + (shift position length).gap := by
  have h := (Code.le_gapLength (length - 5)).1
  show length ≤ 5 + Code.gapLength (length - 5)
  omega

/-- A gap is needed exactly if the code is longer than the call. -/
theorem CallSite.gap_eq_zero_iff (position length : Nat) :
    (shift position length).gap = 0 ↔ length ≤ 5 := by
  show (length - 5 + 3) / 4 * 4 = 0 ↔ _
  omega

/-- Splicing puts code in the place of a call. -/
theorem CallSite.spliced_of_splice {call : CallSite} {body : List UInt8}
    (walk : Bytecode.Walk code.bytes 0 starts code.bytes.size) (hmem : call.position ∈ starts)
    (hcall : code.bytes[call.position]? = some Opcode.invokeDynamic)
    (h : call.splice code body = .ok new) : code.Spliced call.position body starts new := by
  obtain ⟨-, hsize⟩ := Code.instructionLength_of_call walk hmem hcall
  have hwrite : code.write call.position (List.replicate 5 Opcode.nop) =
      .ok (code.blanked call.position) :=
    Code.write_eq_ok_iff.mpr ⟨by rw [List.length_replicate]; exact hsize, rfl⟩
  unfold splice at h
  obtain ⟨blanked, hblanked, h⟩ := bind_eq_ok_iff.mp h
  cases hblanked.symm.trans hwrite
  obtain ⟨⟨inserted, mid⟩, hinserted, h⟩ := bind_eq_ok_iff.mp h
  obtain ⟨hroom, rfl⟩ := Code.write_eq_ok_iff.mp h
  have opened : (code.blanked call.position).Opened (shift call.position body.length)
      (blankedStarts call.position starts) mid :=
    Code.opened_of_insertGap (Code.walk_blanked walk hmem hcall)
      (.inl (mem_blankedStarts_of_call (Nat.succ_pos _))) hinserted
  have hgap := length_le_gap call.position body.length
  have hopened := opened.size
  rw [Code.size_blanked] at hopened
  refine ⟨by rw [Bytecode.size_overwrite, hopened], ?_, ?_, ?_, opened.handlers, ?_,
    opened.limits, by simpa using opened.room⟩
  · exact fun i hi => Bytecode.getElem?_overwrite_of_inside hi hroom
  · intro i hi
    rw [List.length_replicate] at hi
    rw [Bytecode.getElem?_overwrite_of_outside (by omega), List.getElem?_replicate, if_pos hi]
    by_cases hin : body.length + i < (shift call.position body.length).gap
    · exact opened.gap _ (by show call.position ≤ _; omega) (by show _ < call.position + _; omega)
    · have hbyte := Code.getElem?_opened_of_call hsize opened rfl
        (i := body.length + i - (shift call.position body.length).gap) (by omega)
      rw [← hbyte]
      congr 1
      omega
  · intro p hp hne
    obtain ⟨n, hl⟩ := walk.exists_length hp
    have houtside := Code.outside_call walk hmem hcall hp hne hl
    have hblanked : ∀ i < n, (code.blanked call.position).bytes[p + i]? = code.bytes[p + i]? :=
      fun i hi => Code.getElem?_blanked_of_ne walk hmem hcall hp hne hl hi
    refine (opened.instructions p (mem_blankedStarts_of_ne hp hne)).congr
      (Bytecode.eq_of_bytes hl hblanked).1 (fun i hi => (hblanked i hi).symm) fun i hi => ?_
    -- the instruction lies before the gap or behind the call that has moved
    have hstart : (shift call.position body.length).start p =
        if call.position ≤ p then p + (shift call.position body.length).gap else p := rfl
    refine Bytecode.getElem?_overwrite_of_outside ?_
    rw [hstart]
    split <;> omega
  · rw [opened.attributes]
    simp only [gap_eq_zero_iff]
    rfl

/-! ## Walks around the code -/

namespace Code.Spliced

variable {body : List UInt8} (spliced : code.Spliced position body starts new)
include spliced

/-- What is left of the call and of the gap is walked byte by byte. -/
theorem walk_padding : Bytecode.Walk new.bytes (position + body.length)
    (List.range' (position + body.length)
      (5 + (CallSite.shift position body.length).gap - body.length))
    (position + 5 + (CallSite.shift position body.length).gap) := by
  have hgap := CallSite.length_le_gap position body.length
  have hend : position + body.length +
      (5 + (CallSite.shift position body.length).gap - body.length) =
        position + 5 + (CallSite.shift position body.length).gap := by omega
  have hnops : ∀ i < 5 + (CallSite.shift position body.length).gap - body.length,
      new.bytes[position + body.length + i]? = some Opcode.nop := by
    intro i hi
    rw [spliced.padding i (by rw [List.length_replicate]; exact hi), List.getElem?_replicate,
      if_pos hi]
  have h := Bytecode.Walk.nops hnops
  rw [hend] at h
  exact h

variable (walk : Bytecode.Walk code.bytes 0 starts code.bytes.size) (hmem : position ∈ starts)
include walk hmem

/-- The instructions before the call are walked as before. -/
theorem walk_before :
    Bytecode.Walk new.bytes 0 (starts.filter (· < position)) position := by
  have hbound : ∀ p ∈ starts.filter (· < position), p < position := fun p hp =>
    of_decide_eq_true (List.mem_filter.mp hp).2
  have h := (walk.cut (.inl hmem)).1.before_gap (s := CallSite.shift position body.length)
    fun p hp => spliced.others p (List.mem_filter.mp hp).1 (Nat.ne_of_lt (hbound p hp))
  have hmap : (starts.filter (· < position)).map (CallSite.shift position body.length).start =
      starts.filter (· < position) :=
    (List.map_congr_left fun p hp => if_neg (Nat.not_le_of_lt (hbound p hp))).trans
      (List.map_id _)
  rw [hmap] at h
  exact h

/-- The instructions behind the call are walked behind the code. -/
theorem walk_behind (hcall : code.bytes[position]? = some Opcode.invokeDynamic) :
    Bytecode.Walk new.bytes (position + 5 + (CallSite.shift position body.length).gap)
      ((starts.filter (position < ·)).map (· + (CallSite.shift position body.length).gap))
      new.bytes.size := by
  have hfive := (instructionLength_of_call walk hmem hcall).1
  have hbound : ∀ p ∈ starts.filter (position < ·), position < p := fun p hp =>
    of_decide_eq_true (List.mem_filter.mp hp).2
  have h := (walk.behind hmem hfive).behind_gap (s := CallSite.shift position body.length)
    (Nat.le_add_right ..) fun p hp =>
      spliced.others p (List.mem_filter.mp hp).1 (Nat.ne_of_gt (hbound p hp))
  have hmap : (starts.filter (position < ·)).map (CallSite.shift position body.length).start =
      (starts.filter (position < ·)).map (· + (CallSite.shift position body.length).gap) :=
    List.map_congr_left fun p hp => if_pos (Nat.le_of_lt (hbound p hp))
  rw [hmap, ← spliced.size] at h
  exact h

end Code.Spliced

end JvmClass
