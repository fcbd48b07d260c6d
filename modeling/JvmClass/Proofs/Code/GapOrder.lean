import JvmClass.Proofs.Code.ShiftOrder
import JvmClass.Proofs.Instruction.Spread
import Mathlib.Data.List.Nodup

/-!
# Gaps in any order

Of two gaps in a body, the one that comes later has to be inserted where the earlier one
has moved its instruction. Then both orders lead to the same body, with the same tables,
and if one of them fails then so does the other: no distance is further in between than
it is in the end. Hence any number of gaps can be inserted in any order. From back to
front no place has to be adjusted.
-/

namespace JvmClass

/-! ## Bodies -/

/-- Where instructions start after a gap is inserted. -/
theorem Shift.mem_insertedStarts {s : Shift} {starts : List Nat} {q : Nat} :
    q ∈ s.insertedStarts starts ↔
      (∃ p ∈ starts, s.start p = q) ∨ s.position ≤ q ∧ q < s.position + s.gap := by
  unfold insertedStarts
  simp only [List.mem_append, List.mem_map, List.mem_filter, List.mem_range'_1, decide_eq_true_eq]
  constructor
  · rintro ((⟨p, ⟨hp, -⟩, h⟩ | h) | ⟨p, ⟨hp, -⟩, h⟩)
    · exact .inl ⟨p, hp, h⟩
    · exact .inr h
    · exact .inl ⟨p, hp, h⟩
  · rintro (⟨p, hp, h⟩ | h)
    · by_cases hlt : p < s.position
      · exact .inl (.inl ⟨p, ⟨hp, hlt⟩, h⟩)
      · exact .inr ⟨p, ⟨hp, Nat.le_of_not_lt hlt⟩, h⟩
    · exact .inl (.inr h)

/-- An instruction is found where the gap has moved it. -/
theorem Shift.start_mem_insertedStarts (s : Shift) {starts : List Nat} {p : Nat}
    (hp : p ∈ starts) : s.start p ∈ s.insertedStarts starts :=
  mem_insertedStarts.mpr (.inl ⟨p, hp, rfl⟩)

/-- A distance fits a field if one further in the same direction does. -/
theorem BranchField.Fits.of_further {field : BranchField} {near far : Int} (h : field.Fits far)
    (hfar : 0 < near ∧ near ≤ far ∨ near ≤ 0 ∧ far ≤ near) : field.Fits near := by
  unfold Fits at h ⊢
  split at h
  · next hlong =>
    rw [if_pos hlong]
    omega
  · next hshort =>
    rw [if_neg hshort]
    omega

namespace Code

open Bytecode (Walk Spread Moved)

variable {code mid new : Code} {starts : List Nat} {s : Shift}

/-- A gap spreads the instructions of a body. -/
theorem Opened.spread (opened : Opened s starts code new)
    (walk : Walk code.bytes 0 starts code.bytes.size) (hposition : s.position ∈ starts)
    (hgap : s.gap % 4 = 0) :
    Spread s.start s.branchTarget starts code.bytes new.bytes := by
  refine ⟨fun p hp => (opened.instructions p hp).moved hgap, fun i hi hfree => ?_⟩
  have hwalk := Bytecode.starts_eq_ok_iff.mp (opened.starts_eq walk (.inl hposition))
  obtain ⟨q, hq, n, hl, hle, hlt⟩ := hwalk.exists_around (Nat.zero_le i) hi
  rcases Shift.mem_insertedStarts.mp hq with ⟨p, hp, rfl⟩ | ⟨hbehind, hbefore⟩
  · obtain ⟨m, hm, hm'⟩ := (opened.instructions p hp).length
    cases hl.symm.trans hm'
    exact absurd ⟨p, hp, _, hm, hle, hlt⟩ hfree
  · have hnop := opened.gap q hbehind hbefore
    cases hl.symm.trans (Bytecode.instruction_of_nop hnop).1
    obtain rfl : i = q := by omega
    exact hnop

/-- A gap can be inserted exactly if the code does not become too long and every new
distance fits its field. -/
theorem exists_insertGap_iff (walk : Walk code.bytes 0 starts code.bytes.size) {position length : Nat}
    (hposition : position ∈ starts) (hlength : 0 < length) (exclusive : Bool) :
    (∃ next, code.insertGap position length exclusive =
        .ok (⟨position, gapLength length, exclusive⟩, next)) ↔
      code.bytes.size + gapLength length ≤ 65535 ∧
        ∀ p ∈ starts, ∀ field ∈ Bytecode.branchFieldsAt code.bytes p, field.Fits
          (Bytecode.relocatedOffset code.bytes ⟨position, gapLength length, exclusive⟩ field) := by
  rw [insertGap_eq walk (Nat.le_of_lt (walk.mem_bounds hposition).2) hlength]
  by_cases hroom : code.bytes.size + gapLength length ≤ 65535
  · rw [if_neg (by omega), and_iff_right hroom, ← List.forall_mem_flatMap]
    split
    · next hfits => exact iff_of_true ⟨_, rfl⟩ hfits
    · next hnot => exact iff_of_false (fun ⟨_, h⟩ => by cases h) hnot
  · rw [if_pos (by omega)]
    exact iff_of_false (fun ⟨_, h⟩ => by cases h) fun h => hroom h.1

/-- The distances in a body with a gap can be adjusted to one more gap exactly if those of
the body without a gap can be adjusted to both. -/
theorem Opened.forall_fits_iff (opened : Opened s starts code mid) (hgap : s.gap % 4 = 0)
    (later : Shift) :
    (∀ r ∈ s.insertedStarts starts, ∀ field ∈ Bytecode.branchFieldsAt mid.bytes r,
        field.Fits (Bytecode.relocatedOffset mid.bytes later field)) ↔
      ∀ r ∈ starts, ∀ field ∈ Bytecode.branchFieldsAt code.bytes r, field.Fits
        (later.branchTarget (s.branchTarget (Bytecode.branchTarget code.bytes field)) -
          later.start (s.start r)) := by
  have hoffset {r : Nat} (hr : r ∈ starts) {field : BranchField}
      (hfield : field ∈ Bytecode.branchFieldsAt code.bytes r) :
      Bytecode.relocatedOffset mid.bytes later (field.moveTo (s.start r)) =
        later.branchTarget (s.branchTarget (Bytecode.branchTarget code.bytes field)) -
          later.start (s.start r) := by
    unfold Bytecode.relocatedOffset
    rw [((opened.instructions r hr).moved hgap).branchTarget_eq hfield]
    rfl
  constructor
  · intro h r hr field hfield
    have moved := (opened.instructions r hr).moved hgap
    have hfits := h (s.start r) (s.start_mem_insertedStarts hr)
      (field.moveTo (s.start r)) (moved.branchFieldsAt_eq ▸ List.mem_map_of_mem hfield)
    rwa [hoffset hr hfield] at hfits
  · intro h q hq field hfield
    rcases Shift.mem_insertedStarts.mp hq with ⟨r, hr, rfl⟩ | ⟨hbehind, hbefore⟩
    · rw [((opened.instructions r hr).moved hgap).branchFieldsAt_eq] at hfield
      obtain ⟨before, hbefore, rfl⟩ := List.mem_map.mp hfield
      rw [hoffset hr hbefore]
      exact h r hr before hbefore
    · rw [(Bytecode.instruction_of_nop (opened.gap q hbehind hbefore)).2] at hfield
      cases hfield

/-- One more gap can be inserted exactly if the code does not become too long and every
distance fits its field once both gaps are there. -/
theorem Opened.exists_insertGap_iff (opened : Opened s starts code mid)
    (walk : Walk code.bytes 0 starts code.bytes.size) (hposition : s.position ∈ starts)
    (hgap : s.gap % 4 = 0) {q n : Nat} (hq : q ∈ starts) (hn : 0 < n) (exclusive : Bool) :
    let later : Shift := ⟨s.start q, gapLength n, exclusive⟩
    (∃ new, mid.insertGap (s.start q) n exclusive = .ok (later, new)) ↔
      code.bytes.size + s.gap + later.gap ≤ 65535 ∧
        ∀ r ∈ starts, ∀ field ∈ Bytecode.branchFieldsAt code.bytes r, field.Fits
          (later.branchTarget (s.branchTarget (Bytecode.branchTarget code.bytes field)) -
            later.start (s.start r)) := by
  intro later
  have hwalk := Bytecode.starts_eq_ok_iff.mp (opened.starts_eq walk (.inl hposition))
  rw [← opened.forall_fits_iff hgap later, ← opened.size]
  exact Code.exists_insertGap_iff hwalk (s.start_mem_insertedStarts hq) hn exclusive

section Twice

variable {p q m n : Nat} {exclusive : Bool} (walk : Walk code.bytes 0 starts code.bytes.size)
  (hp : p ∈ starts) (hq : q ∈ starts) (hm : 0 < m) (hn : 0 < n)

include walk hp hq hm hn

/-- Two gaps can be inserted exactly if the code does not become too long and every
distance that is left in the end fits its field. -/
theorem exists_insertGap_twice_iff :
    let a : Shift := ⟨p, gapLength m, exclusive⟩
    let b : Shift := ⟨q, gapLength n, exclusive⟩
    (∃ mid new, code.insertGap p m exclusive = .ok (a, mid) ∧
        mid.insertGap (a.start q) n exclusive = .ok (b.after a, new)) ↔
      code.bytes.size + a.gap + b.gap ≤ 65535 ∧
        ∀ r ∈ starts, ∀ field ∈ Bytecode.branchFieldsAt code.bytes r, field.Fits
          ((b.after a).branchTarget (a.branchTarget (Bytecode.branchTarget code.bytes field)) -
            (b.after a).start (a.start r)) := by
  intro a b
  have hgap : a.gap % 4 = 0 := gapLength_mod_four m
  constructor
  · rintro ⟨mid, new, hfirst, hsecond⟩
    have opened := opened_of_insertGap walk (.inl hp) hfirst
    exact (opened.exists_insertGap_iff walk hp hgap hq hn exclusive).mp ⟨new, hsecond⟩
  · rintro ⟨hroom, hfits⟩
    have hroom' : code.bytes.size + a.gap ≤ 65535 := by omega
    -- a distance in between is no further than the one in the end
    have hfits' : ∀ r ∈ starts, ∀ field ∈ Bytecode.branchFieldsAt code.bytes r,
        field.Fits (Bytecode.relocatedOffset code.bytes a field) := fun r hr field hfield => by
      unfold Bytecode.relocatedOffset
      rw [(Bytecode.source_lt_position hfield).1]
      exact (hfits r hr field hfield).of_further ((b.after a).distance_bounds _ _)
    obtain ⟨mid, hfirst⟩ := (exists_insertGap_iff walk hp hm exclusive).mpr ⟨hroom', hfits'⟩
    have opened := opened_of_insertGap walk (.inl hp) hfirst
    obtain ⟨new, hsecond⟩ :=
      (opened.exists_insertGap_iff walk hp hgap hq hn exclusive).mpr ⟨hroom, hfits⟩
    exact ⟨mid, new, hfirst, hsecond⟩

end Twice

section Opened

variable {mid' new' : Code} {a b : Shift} (walk : Walk code.bytes 0 starts code.bytes.size)
  (ha : a.position ∈ starts) (hb : b.position ∈ starts) (hgap : a.gap % 4 = 0 ∧ b.gap % 4 = 0)

include walk ha hb hgap

/-- Two gaps spread the instructions of a body. -/
theorem Opened.spread_twice (first : Opened a starts code mid)
    (second : Opened (b.after a) (a.insertedStarts starts) mid new) :
    Spread ((b.after a).start ∘ a.start) ((b.after a).branchTarget ∘ a.branchTarget) starts
      code.bytes new.bytes := by
  have hwalk := Bytecode.starts_eq_ok_iff.mp (first.starts_eq walk (.inl ha))
  have hplace : (b.after a).position ∈ a.insertedStarts starts := a.start_mem_insertedStarts hb
  exact (first.spread walk ha hgap.1).trans hwalk (fun p hp => a.start_mem_insertedStarts hp)
    (second.spread hwalk hplace hgap.2)

/-- Two gaps open a body in both orders to the same body. -/
theorem Opened.eq_of_twice (hne : a.position ≠ b.position) (hsome : a.gap ≠ 0 ∧ b.gap ≠ 0)
    (hroom : code.bytes.size + a.gap + b.gap ≤ 65535)
    (hwithin : code.Within) (first : Opened a starts code mid)
    (second : Opened (b.after a) (a.insertedStarts starts) mid new)
    (first' : Opened b starts code mid')
    (second' : Opened (a.after b) (b.insertedStarts starts) mid' new') : new' = new := by
  have hstart : (b.after a).start ∘ a.start = (a.after b).start ∘ b.start :=
    funext (Shift.start_after a b)
  have hroute : (b.after a).branchTarget ∘ a.branchTarget =
      (a.after b).branchTarget ∘ b.branchTarget := funext (Shift.branchTarget_after hne)
  have hlater : (b.after a).gap = b.gap ∧ (a.after b).gap = a.gap := ⟨rfl, rfl⟩
  have hsize : new'.bytes.size = new.bytes.size := by
    rw [second'.size, first'.size, second.size, first.size]
    omega
  have hbytes : new'.bytes = new.bytes := by
    have spread := first.spread_twice walk ha hb hgap second
    rw [hstart, hroute] at spread
    exact spread.unique (first'.spread_twice walk hb ha hgap.symm second') hsize
  have hhandlers : new'.handlers = new.handlers := by
    rw [second'.handlers, first'.handlers, second.handlers, first.handlers]
    exact (shift_handlers_after hne hroom hwithin.positions).symm
  have hattributes : new'.attributes = new.attributes := by
    have h := second.attributes
    have h' := second'.attributes
    rw [if_neg (hlater.1 ▸ hsome.2), first.attributes, if_neg hsome.1] at h
    rw [if_neg (hlater.2 ▸ hsome.1), first'.attributes, if_neg hsome.2] at h'
    rw [h, h']
    exact (shift_attributes_after hne hroom hwithin.positions hwithin.created).symm
  have hlimits := (second'.limits.trans first'.limits).trans (second.limits.trans first.limits).symm
  obtain ⟨maxStack, maxLocals, bytes, handlers, attributes⟩ := new
  obtain ⟨maxStack', maxLocals', bytes', handlers', attributes'⟩ := new'
  cases hbytes
  cases hhandlers
  cases hattributes
  cases hlimits
  rfl

end Opened

/-- After two gaps the body is the same in the other order. -/
theorem insertGap_twice {p q m n : Nat} {exclusive : Bool}
    (walk : Walk code.bytes 0 starts code.bytes.size) (hwithin : code.Within)
    (hp : p ∈ starts) (hq : q ∈ starts) (hne : p ≠ q) (hm : 0 < m) (hn : 0 < n) :
    let a : Shift := ⟨p, gapLength m, exclusive⟩
    let b : Shift := ⟨q, gapLength n, exclusive⟩
    code.insertGap p m exclusive = .ok (a, mid) →
      mid.insertGap (a.start q) n exclusive = .ok (b.after a, new) →
        ∃ mid', code.insertGap q n exclusive = .ok (b, mid') ∧
          mid'.insertGap (b.start p) m exclusive = .ok (a.after b, new) := by
  intro a b hfirst hsecond
  have hne' : a.position ≠ b.position := hne
  have hgap : a.gap % 4 = 0 ∧ b.gap % 4 = 0 := ⟨gapLength_mod_four m, gapLength_mod_four n⟩
  have hsome : a.gap ≠ 0 ∧ b.gap ≠ 0 := by
    have hm' : m ≤ a.gap := (le_gapLength m).1
    have hn' : n ≤ b.gap := (le_gapLength n).1
    omega
  obtain ⟨hroom, hfits⟩ :=
    (exists_insertGap_twice_iff walk hp hq hm hn).mp ⟨mid, new, hfirst, hsecond⟩
  obtain ⟨mid', new', hfirst', hsecond'⟩ : ∃ mid' new', code.insertGap q n exclusive = .ok (b, mid') ∧
      mid'.insertGap (b.start p) m exclusive = .ok (a.after b, new') := by
    refine (exists_insertGap_twice_iff walk hq hp hn hm).mpr ⟨by omega, fun r hr field hfield => ?_⟩
    have hfits := hfits r hr field hfield
    rwa [Shift.branchTarget_after hne', Shift.start_after a b] at hfits
  have opened {s : Shift} {position length : Nat} {next : Code} (hposition : position ∈ starts)
      (h : code.insertGap position length exclusive = .ok (s, next)) :=
    opened_of_insertGap walk (.inl hposition) h
  have hwalk := Bytecode.starts_eq_ok_iff.mp ((opened hp hfirst).starts_eq walk (.inl hp))
  have hwalk' := Bytecode.starts_eq_ok_iff.mp ((opened hq hfirst').starts_eq walk (.inl hq))
  have second := opened_of_insertGap hwalk (.inl (a.start_mem_insertedStarts hq)) hsecond
  have second' := opened_of_insertGap hwalk' (.inl (b.start_mem_insertedStarts hp)) hsecond'
  have hsame := Opened.eq_of_twice (a := a) (b := b) walk hp hq hgap hne' hsome hroom hwithin
    (opened hp hfirst) second (opened hq hfirst') second'
  exact ⟨mid', hfirst', hsame ▸ hsecond'⟩

/-! ## Changes in turn -/

section InTurn

variable {α : Type} {gap : α → Nat} {change : Nat → α → Code → Except Error Code}

/-- Change a body at several places, one after the other. Each change makes room for some
bytes at its place, and the places that are left move along. -/
def inTurn (gap : α → Nat) (change : Nat → α → Code → Except Error Code) (place : Nat → Nat) :
    List (Nat × α) → Code → Except Error Code
  | [], code => .ok code
  | (p, a) :: later, code => do
    let next ← change (place p) a code
    inTurn gap change (Shift.start ⟨place p, gap a, false⟩ ∘ place) later next

/-- Changes in turn have succeeded if the first one has, and then the others. -/
theorem inTurn_cons_eq_ok_iff {place : Nat → Nat} {p : Nat} {a : α} {later : List (Nat × α)} :
    inTurn gap change place ((p, a) :: later) code = .ok new ↔
      ∃ mid, change (place p) a code = .ok mid ∧
        inTurn gap change (Shift.start ⟨place p, gap a, false⟩ ∘ place) later mid = .ok new :=
  bind_eq_ok_iff

/-- If two changes can change their order, and leave the others possible, then any number
of changes can be made in any order. -/
theorem inTurn_of_perm (Ready : (Nat → Nat) → List (Nat × α) → Code → Prop)
    (hperm : ∀ {place changes changes' code}, changes.Perm changes' →
      Ready place changes code → Ready place changes' code)
    (hstep : ∀ {place p a later code next}, Ready place ((p, a) :: later) code →
      change (place p) a code = .ok next →
        Ready (Shift.start ⟨place p, gap a, false⟩ ∘ place) later next)
    (hswap : ∀ {place p a q b later code mid new}, Ready place ((p, a) :: (q, b) :: later) code →
      change (place p) a code = .ok mid →
        change (Shift.start ⟨place p, gap a, false⟩ (place q)) b mid = .ok new →
          ∃ mid', change (place q) b code = .ok mid' ∧
            change (Shift.start ⟨place q, gap b, false⟩ (place p)) a mid' = .ok new)
    {changes changes' : List (Nat × α)} (h : changes.Perm changes') {place : Nat → Nat}
    (hready : Ready place changes code) (hrun : inTurn gap change place changes code = .ok new) :
    inTurn gap change place changes' code = .ok new := by
  induction h generalizing place code with
  | nil => exact hrun
  | cons x _ ih =>
    obtain ⟨mid, hfirst, hrest⟩ := inTurn_cons_eq_ok_iff.mp hrun
    exact inTurn_cons_eq_ok_iff.mpr ⟨mid, hfirst, ih (hstep hready hfirst) hrest⟩
  | swap x y later =>
    obtain ⟨mid, hfirst, hrest⟩ := inTurn_cons_eq_ok_iff.mp hrun
    obtain ⟨last, hsecond, hrest⟩ := inTurn_cons_eq_ok_iff.mp hrest
    obtain ⟨mid', hfirst', hsecond'⟩ := hswap hready hfirst hsecond
    refine inTurn_cons_eq_ok_iff.mpr ⟨mid', hfirst', inTurn_cons_eq_ok_iff.mpr ⟨last, hsecond', ?_⟩⟩
    have hplaces := Shift.start_after ⟨place y.1, gap y.2, false⟩ ⟨place x.1, gap x.2, false⟩
    have hsame := funext fun p => hplaces (place p)
    exact (congrArg (inTurn gap change · later last) hsame).symm.trans hrest
  | trans h _ ih ih' => exact ih' (hperm h hready) (ih hready hrun)

/-- From back to front, no place has moved when its turn comes. -/
theorem inTurn_eq_foldlM {place : Nat → Nat} {changes : List (Nat × α)}
    (horder : changes.Pairwise fun x y => y.1 < x.1) (hplace : ∀ x ∈ changes, place x.1 = x.1) :
    inTurn gap change place changes code =
      changes.foldlM (fun code x => change x.1 x.2 code) code := by
  induction changes generalizing place code with
  | nil => rfl
  | cons x changes ih =>
    obtain ⟨hlater, horder⟩ := List.pairwise_cons.mp horder
    obtain ⟨hfirst, hrest⟩ := List.forall_mem_cons.mp hplace
    rw [List.foldlM_cons, inTurn, hfirst]
    refine bind_congr fun next => ih horder fun y hy => ?_
    rw [Function.comp_apply, hrest y hy]
    exact if_neg (Nat.not_le_of_lt (hlater y hy))

end InTurn

/-! ## Gaps in turn -/

/-- Insert a gap, and keep the body only. -/
def withGap (exclusive : Bool) (position length : Nat) (code : Code) : Except Error Code :=
  Prod.snd <$> code.insertGap position length exclusive

/-- A body has a gap if the gap has been inserted. -/
theorem withGap_eq_ok_iff {exclusive : Bool} {position length : Nat} :
    code.withGap exclusive position length = .ok new ↔
      code.insertGap position length exclusive =
        .ok (⟨position, gapLength length, exclusive⟩, new) := by
  unfold withGap
  cases hrun : code.insertGap position length exclusive with
  | error e => exact iff_of_false (fun h => by cases h) fun h => by cases h
  | ok result =>
    obtain ⟨inserted, next⟩ := result
    cases (insertGap_cases hrun).1
    simp

/-- Gaps that are to be inserted at different instructions of a body. -/
structure Gaps (place : Nat → Nat) (gaps : List (Nat × Nat)) (code : Code) (starts : List Nat) :
    Prop where
  /-- The body consists of complete instructions. -/
  walk : Walk code.bytes 0 starts code.bytes.size
  /-- The tables refer to nothing behind the end. -/
  within : code.Within
  /-- The gaps have some length, and their places are instructions. -/
  starts : ∀ x ∈ gaps, place x.1 ∈ starts ∧ 0 < x.2
  /-- No two gaps have the same place. -/
  nodup : (gaps.map fun x => place x.1).Nodup

/-- Gaps can be inserted in any order. -/
theorem Gaps.inTurn_of_perm {exclusive : Bool} {gaps gaps' : List (Nat × Nat)}
    (h : gaps.Perm gaps') {place : Nat → Nat} (hgaps : Gaps place gaps code starts)
    (hrun : inTurn gapLength (fun p n code => code.withGap exclusive p n) place gaps code =
      .ok new) :
    inTurn gapLength (fun p n code => code.withGap exclusive p n) place gaps' code = .ok new := by
  refine Code.inTurn_of_perm (fun place gaps code => ∃ starts, Gaps place gaps code starts)
    ?_ ?_ ?_ h ⟨starts, hgaps⟩ hrun
  · rintro place gaps gaps' code hperm ⟨starts, walk, within, hstarts, hnodup⟩
    exact ⟨starts, walk, within, fun x hx => hstarts x (hperm.mem_iff.mpr hx),
      (hperm.map _).nodup_iff.mp hnodup⟩
  · rintro place p n later code next ⟨starts, walk, within, hstarts, hnodup⟩ hchange
    have hinserted := withGap_eq_ok_iff.mp hchange
    obtain ⟨⟨hp, hn⟩, hlater⟩ := List.forall_mem_cons.mp hstarts
    obtain ⟨hnew, hnodup⟩ := List.nodup_cons.mp hnodup
    have opened := opened_of_insertGap walk (.inl hp) hinserted
    have hsome : gapLength n ≠ 0 := by
      have h := le_gapLength n
      omega
    refine ⟨_, Bytecode.starts_eq_ok_iff.mp (opened.starts_eq walk (.inl hp)),
      opened.within hsome within, fun x hx => ?_, ?_⟩
    · exact ⟨Shift.start_mem_insertedStarts _ (hlater x hx).1, (hlater x hx).2⟩
    · have hmoved := List.Nodup.map (Shift.start_injective ⟨place p, gapLength n, false⟩) hnodup
      rwa [List.map_map] at hmoved
  · rintro place p m q n later code mid new ⟨starts, walk, within, hstarts, hnodup⟩ hfirst hsecond
    obtain ⟨⟨hp, hm⟩, hlater⟩ := List.forall_mem_cons.mp hstarts
    obtain ⟨hq, hn⟩ := (List.forall_mem_cons.mp hlater).1
    have hne : place p ≠ place q := fun h =>
      (List.nodup_cons.mp hnodup).1 (List.mem_cons.mpr (.inl h))
    obtain ⟨mid', hfirst', hsecond'⟩ := insertGap_twice walk within hp hq hne hm hn
      (withGap_eq_ok_iff.mp hfirst) (withGap_eq_ok_iff.mp hsecond)
    exact ⟨mid', withGap_eq_ok_iff.mpr hfirst', withGap_eq_ok_iff.mpr hsecond'⟩

end Code

end JvmClass
