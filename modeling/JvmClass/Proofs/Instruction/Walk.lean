import JvmClass.Instruction.Length
import JvmClass.Proofs.Edit

/-!
# Walks over code

A walk goes from instruction to instruction and collects where they start. Code
that is a sequence of complete instructions has a walk from its first byte to
its end, and the starts on it are those that the library computes. Walks can be
joined and cut at every start, and the instructions on them do not overlap.
-/

namespace JvmClass.Bytecode

/-- Instructions lead from one position to another. They start at the listed
positions, in order. -/
inductive Walk (code : Bytecode) : Nat → List Nat → Nat → Prop where
  /-- A walk that has arrived. -/
  | stop (position : Nat) : Walk code position [] position
  /-- A walk that passes an instruction first. -/
  | step {position length last : Nat} {starts : List Nat}
      (first : code.instructionLength position = .ok length)
      (rest : Walk code (position + length) starts last) :
      Walk code position (position :: starts) last

namespace Walk

variable {code : Bytecode} {first last middle : Nat} {starts : List Nat}

/-- A walk goes forward. -/
theorem le (walk : Walk code first starts last) : first ≤ last := by
  induction walk with
  | stop => exact Nat.le_refl _
  | step _ _ ih => omega

/-- The starts on a walk lie between its ends. -/
theorem mem_bounds (walk : Walk code first starts last) {p : Nat} (hp : p ∈ starts) :
    first ≤ p ∧ p < last := by
  induction walk with
  | stop => cases hp
  | step hl rest ih =>
    have hone := one_le_instructionLength hl
    have hle := rest.le
    cases hp with
    | head => exact ⟨Nat.le_refl _, by omega⟩
    | tail _ hp =>
      have hb := ih hp
      exact ⟨by omega, hb.2⟩

/-- The starts on a walk are in order. -/
theorem pairwise_lt (walk : Walk code first starts last) : starts.Pairwise (· < ·) := by
  induction walk with
  | stop => exact .nil
  | step hl rest ih =>
    have hone := one_le_instructionLength hl
    refine .cons (fun q hq => ?_) ih
    have hbehind := (rest.mem_bounds hq).1
    omega

/-- A walk begins at its first start. -/
theorem first_eq {p : Nat} (walk : Walk code first (p :: starts) last) : first = p := by
  cases walk
  rfl

/-- A walk that passes an instruction goes on behind it. -/
theorem exists_rest {p : Nat} (walk : Walk code first (p :: starts) last) :
    ∃ length, code.instructionLength p = .ok length ∧ Walk code (p + length) starts last := by
  cases walk with
  | step hl rest => exact ⟨_, hl, rest⟩

/-- A walk takes a byte or more for every start. -/
theorem add_length_starts_le (walk : Walk code first starts last) :
    first + starts.length ≤ last := by
  induction walk with
  | stop => exact Nat.le_refl _
  | step hl _ ih =>
    have hone := one_le_instructionLength hl
    rw [List.length_cons]
    omega

/-- Walks follow one another. -/
theorem trans {later : List Nat} (walk : Walk code first starts middle)
    (next : Walk code middle later last) : Walk code first (starts ++ later) last := by
  induction walk with
  | stop => exact next
  | step hl _ ih => exact .step hl (ih next)

/-- Every start on a walk is the start of a complete instruction. -/
theorem exists_length (walk : Walk code first starts last) {p : Nat} (hp : p ∈ starts) :
    ∃ length, code.instructionLength p = .ok length := by
  induction walk with
  | stop => cases hp
  | step hl _ ih =>
    cases hp with
    | head => exact ⟨_, hl⟩
    | tail _ hp => exact ih hp

/-- An instruction on a walk ends before or at every later start and before or
at the end of the walk. -/
theorem add_length_le (walk : Walk code first starts last) {p q length : Nat} (hp : p ∈ starts)
    (hl : code.instructionLength p = .ok length) (hq : q ∈ starts ∨ q = last) (hpq : p < q) :
    p + length ≤ q := by
  induction walk with
  | stop => cases hp
  | step hstep rest ih =>
    cases hp with
    | head =>
      cases hl.symm.trans hstep
      rcases hq with hq | rfl
      · cases hq with
        | head => omega
        | tail _ hq => exact (rest.mem_bounds hq).1
      · exact rest.le
    | tail _ hp =>
      have hb := rest.mem_bounds hp
      have hone := one_le_instructionLength hstep
      refine ih hp ?_
      rcases hq with hq | rfl
      · cases hq with
        | head => omega
        | tail _ hq => exact .inl hq
      · exact .inr rfl

/-- A walk can be cut at a start or at its end. The parts have the starts before
the cut and those from it on. -/
theorem cut (walk : Walk code first starts last) (hm : middle ∈ starts ∨ middle = last) :
    Walk code first (starts.filter (· < middle)) middle ∧
      Walk code middle (starts.filter (middle ≤ ·)) last := by
  induction walk with
  | stop =>
    rcases hm with hm | rfl
    · cases hm
    · exact ⟨.stop _, .stop _⟩
  | @step position length last starts hl rest ih =>
    have hone := one_le_instructionLength hl
    by_cases heq : middle = position
    · subst heq
      have hlater : ∀ q ∈ starts, middle < q := fun q hq => by
        have hb := rest.mem_bounds hq
        omega
      rw [List.filter_cons_of_neg (by simp),
        List.filter_eq_nil_iff.mpr fun q hq => by have h := hlater q hq; simp; omega,
        List.filter_cons_of_pos (by simp),
        List.filter_eq_self.mpr fun q hq => by have h := hlater q hq; simp; omega]
      exact ⟨.stop _, .step hl rest⟩
    · have hm' : middle ∈ starts ∨ middle = last := by
        rcases hm with hm | rfl
        · exact .inl ((List.mem_cons.mp hm).resolve_left heq)
        · exact .inr rfl
      have hpos : position + length ≤ middle := by
        rcases hm' with hm' | rfl
        · exact (rest.mem_bounds hm').1
        · exact rest.le
      have hcut := ih hm'
      rw [List.filter_cons_of_pos (by simp; omega), List.filter_cons_of_neg (by simp; omega)]
      exact ⟨.step hl hcut.1, hcut.2⟩

/-- The same instructions at a distance make the same walk at that distance. -/
theorem moved {other : Bytecode} {distance : Nat} (walk : Walk code first starts last)
    (h : ∀ p ∈ starts, other.instructionLength (p + distance) = code.instructionLength p) :
    Walk other (first + distance) (starts.map (· + distance)) (last + distance) := by
  induction walk with
  | stop => exact .stop _
  | @step position length last starts hl rest ih =>
    have hmoved := (h position List.mem_cons_self).trans hl
    have hrest := ih fun p hp => h p (List.mem_cons_of_mem _ hp)
    rw [Nat.add_right_comm] at hrest
    exact .step hmoved hrest

/-- Instructions of the same lengths make the same walk. -/
theorem congr {other : Bytecode} (walk : Walk code first starts last)
    (h : ∀ p ∈ starts, other.instructionLength p = code.instructionLength p) :
    Walk other first starts last := by
  induction walk with
  | stop => exact .stop _
  | @step position length last starts hl rest ih =>
    exact .step ((h position List.mem_cons_self).trans hl)
      (ih fun p hp => h p (List.mem_cons_of_mem _ hp))

/-- Instructions that do nothing are walked byte by byte. -/
theorem nops {count : Nat} (h : ∀ i < count, code[first + i]? = some Opcode.nop) :
    Walk code first (List.range' first count) (first + count) := by
  induction count generalizing first with
  | zero => exact .stop _
  | succ count ih =>
    have hnop := h 0 (by omega)
    have hlt := (Array.getElem?_eq_some_iff.mp hnop).1
    have hlength : code.instructionLength first = .ok 1 := by
      unfold instructionLength
      simp only [Nat.add_zero] at hnop hlt
      rw [hnop]
      exact if_pos hlt
    have hrest := @ih (first + 1) fun i hi => by
      rw [Nat.add_assoc, Nat.add_comm 1]
      exact h (i + 1) (by omega)
    rw [List.range'_succ, Nat.add_comm count, ← Nat.add_assoc]
    exact .step hlength hrest

/-- Behind an instruction on a walk, the walk goes on over the later starts. -/
theorem behind (walk : Walk code first starts last) {p length : Nat} (hp : p ∈ starts)
    (hl : code.instructionLength p = .ok length) :
    Walk code (p + length) (starts.filter (p < ·)) last := by
  have hlast := (walk.mem_bounds hp).2
  have hfilter : starts.filter (p < ·) = (starts.filter (p ≤ ·)).filter (p < ·) := by
    rw [List.filter_filter]
    exact List.filter_congr fun q _ => by simp; omega
  have hrest := (walk.cut (.inl hp)).2
  rw [hfilter]
  generalize starts.filter (p ≤ ·) = later at hrest
  cases hrest with
  | stop => omega
  | step hstep rest =>
    cases hl.symm.trans hstep
    have hone := one_le_instructionLength hl
    rw [List.filter_cons_of_neg (by simp), List.filter_eq_self.mpr fun q hq => by
      have hq := (rest.mem_bounds hq).1
      simp
      omega]
    exact rest

/-- A walk consists of two parts, one for each part of its starts. -/
theorem exists_of_append {later : List Nat} (walk : Walk code first (starts ++ later) last) :
    ∃ middle, Walk code first starts middle ∧ Walk code middle later last := by
  induction starts generalizing first with
  | nil => exact ⟨first, .stop _, walk⟩
  | cons p starts ih =>
    cases walk with
    | step hl rest =>
      obtain ⟨middle, before, behind⟩ := ih rest
      exact ⟨middle, .step hl before, behind⟩

/-- A walk from some position over some starts ends at one position only. -/
theorem last_unique (walk : Walk code first starts last) {other : Nat}
    (walk' : Walk code first starts other) : last = other := by
  induction walk with
  | stop =>
    cases walk'
    rfl
  | step hl _ ih =>
    cases walk' with
    | step hl' rest' =>
      cases hl.symm.trans hl'
      exact ih rest'

/-- A walk over some starts to some position begins at one position only. -/
theorem first_unique (walk : Walk code first starts last) {other : Nat}
    (walk' : Walk code other starts last) : first = other := by
  cases walk <;> cases walk' <;> rfl

/-- Whether a walk goes on over some starts does not depend on what it has
passed. -/
theorem append_iff {later : List Nat} (walk : Walk code first starts middle) :
    Walk code first (starts ++ later) last ↔ Walk code middle later last := by
  constructor
  · intro joined
    obtain ⟨found, before, behind⟩ := joined.exists_of_append
    cases walk.last_unique before
    exact behind
  · exact walk.trans

/-- Whether a walk comes over some starts does not depend on how it goes on. -/
theorem iff_append {later : List Nat} (walk : Walk code middle later last) :
    Walk code first (starts ++ later) last ↔ Walk code first starts middle := by
  constructor
  · intro joined
    obtain ⟨found, before, behind⟩ := joined.exists_of_append
    cases walk.first_unique behind
    exact before
  · exact fun before => before.trans walk

/-- A walk can be made at a distance exactly if every instruction has the same
length there. -/
theorem moved_iff {other : Bytecode} {distance : Nat} (walk : Walk code first starts last) :
    Walk other (first + distance) (starts.map (· + distance)) (last + distance) ↔
      ∀ p ∈ starts, other.instructionLength (p + distance) = code.instructionLength p := by
  constructor
  · intro walk' p hp
    induction walk with
    | stop => cases hp
    | @step position length last starts hl rest ih =>
      cases walk' with
      | @step _ length' _ _ hl' rest' =>
        -- both instructions end where the rest of their walk begins
        have hlength : length' = length := by
          cases rest with
          | stop =>
            have h := rest'.last_unique (.stop _)
            omega
          | step =>
            have h : position + distance + length' = position + length + distance :=
              rest'.first_eq
            omega
        subst hlength
        cases hp with
        | head => exact hl'.trans hl.symm
        | tail _ hp =>
          rw [Nat.add_right_comm] at rest'
          exact ih rest' hp
  · exact walk.moved

end Walk

/-! ## Visiting instructions -/

/-- Visiting the instructions of code is visiting the starts of a walk in
order. -/
theorem foldInstructions_eq_foldlM {m : Type → Type} {β : Type} [Monad m] [MonadExceptOf Error m]
    {code : Bytecode} (visit : β → Nat → UInt8 → m β) (acc : β) {position : Nat}
    {starts : List Nat} (walk : Walk code position starts code.size) :
    code.foldInstructions visit acc position =
      starts.foldlM (fun acc p => visit acc p (code[p]?.getD 0)) acc := by
  generalize hlast : code.size = last at walk
  induction walk generalizing acc with
  | stop =>
    rw [foldInstructions, dif_neg (by omega)]
    rfl
  | @step position length last starts hl rest ih =>
    have hone := one_le_instructionLength hl
    have hle := add_instructionLength_le hl
    rw [foldInstructions, dif_pos (by omega), List.foldlM_cons]
    split
    · next heq => cases heq.symm.trans hl
    · next n heq =>
      cases heq.symm.trans hl
      rw [Array.getElem?_eq_getElem (by omega), Option.getD_some]
      exact bind_congr fun acc => ih acc hlast

/-- A successful visit of all instructions of code has walked to its end. -/
theorem exists_walk_of_foldInstructions {β : Type} {code : Bytecode}
    {visit : β → Nat → UInt8 → Except Error β} {acc result : β} {position : Nat}
    (hp : position ≤ code.size)
    (h : code.foldInstructions (m := Except Error) visit acc position = .ok result) :
    ∃ starts, Walk code position starts code.size := by
  fun_induction foldInstructions with
  | case1 acc position hlt e he => cases h
  | case2 acc position hlt length hl ih =>
    obtain ⟨next, -, h⟩ := bind_eq_ok_iff.mp h
    obtain ⟨starts, walk⟩ := ih next (add_instructionLength_le hl) h
    exact ⟨position :: starts, .step hl walk⟩
  | case3 acc position hge =>
    have heq : position = code.size := by omega
    exact ⟨[], heq ▸ .stop _⟩

/-- Collecting positions in an array appends them to it. -/
theorem foldlM_push (positions : List Nat) (acc : Array Nat) :
    positions.foldlM (m := Except Error) (fun acc p => pure (acc.push p)) acc =
      .ok (acc ++ positions) := by
  induction positions generalizing acc with
  | nil => simp [pure, Except.pure]
  | cons p positions ih =>
    rw [List.foldlM_cons]
    exact (ih (acc.push p)).trans (by simp)

/-- Code has starts exactly if a walk over them leads to its end. -/
theorem startsFrom_eq_ok_iff {code : Bytecode} {position : Nat} {starts : List Nat}
    (hp : position ≤ code.size) :
    code.startsFrom position = .ok starts ↔ Walk code position starts code.size := by
  have hwalk : ∀ {found : List Nat}, Walk code position found code.size →
      code.startsFrom position = .ok found := by
    intro found walk
    unfold startsFrom
    rw [foldInstructions_eq_foldlM _ _ walk, foldlM_push]
    simp [bind, Except.bind, pure, Except.pure]
  constructor
  · intro h
    obtain ⟨visited, hvisited, -⟩ := bind_eq_ok_iff.mp h
    obtain ⟨found, walk⟩ := exists_walk_of_foldInstructions hp hvisited
    have heq := (hwalk walk).symm.trans h
    injection heq with heq
    exact heq ▸ walk
  · exact hwalk

/-- The starts of code are those of the walk over all of it. -/
theorem starts_eq_ok_iff {code : Bytecode} {starts : List Nat} :
    code.starts = .ok starts ↔ Walk code 0 starts code.size :=
  startsFrom_eq_ok_iff (Nat.zero_le _)

end JvmClass.Bytecode
