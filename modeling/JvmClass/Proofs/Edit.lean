import JvmClass.Error
import Mathlib.Control.Monad.Basic

/-!
# Runs of edits

What the steps of an edit do to its state. An edit is run step by step with
these equations; a step that fails ends the run and keeps the state it has
reached. Steps without a state are taken apart one by one as well.
-/

namespace JvmClass

/-- Of two steps that may fail, both have succeeded if there is a result. -/
theorem bind_eq_ok_iff {α β : Type} {step : Except Error α} {next : α → Except Error β} {b : β} :
    step >>= next = .ok b ↔ ∃ a, step = .ok a ∧ next a = .ok b := by
  cases step with
  | error e => exact iff_of_false (fun h => by cases h) fun ⟨a, ha, _⟩ => by cases ha
  | ok a =>
    constructor
    · exact fun h => ⟨a, rfl, h⟩
    · rintro ⟨a', ha, h⟩
      cases ha
      exact h

/-- A step behind one that has succeeded. -/
theorem ok_bind {α β : Type} (a : α) (next : α → Except Error β) :
    (Except.ok a >>= next) = next a := rfl

/-- A step behind one that has failed. -/
theorem error_bind {α β : Type} (e : Error) (next : α → Except Error β) :
    (Except.error e >>= next) = .error e := rfl

/-- A value that is given at once. -/
theorem pure_eq_ok {α : Type} (a : α) : (pure a : Except Error α) = .ok a := rfl

/-- A step that fails. -/
theorem throw_eq_error {α : Type} (e : Error) : (throw e : Except Error α) = .error e := rfl

namespace Edit

variable {σ α β : Type} (state : σ)

/-- A run with a known outcome, and the state that it leaves. -/
theorem runOn_eq_of_fst {edit : Edit σ α} {outcome : Except Error α}
    (h : (edit.runOn state).1 = outcome) : edit.runOn state = (outcome, (edit.runOn state).2) :=
  Prod.ext h rfl

/-- A run that gives a value at once. -/
@[simp]
theorem runOn_pure (a : α) : (pure a : Edit σ α).runOn state = (.ok a, state) := rfl

/-- A run of one edit after another. -/
@[simp]
theorem runOn_bind (edit : Edit σ α) (next : α → Edit σ β) :
    (edit >>= next).runOn state =
      match edit.runOn state with
      | (.ok a, state) => (next a).runOn state
      | (.error e, state) => (.error e, state) := by
  have hrun : edit.runOn state = edit state := rfl
  rw [hrun]
  show ExceptT.bind edit next state = _
  unfold ExceptT.bind
  show ExceptT.bindCont next (edit state).1 (edit state).2 = _
  cases edit state with
  | mk result state => cases result <;> rfl

/-- A run of edits for the items of a list, one after the other. -/
theorem runOn_forM_cons {ι : Type} (edit : ι → Edit σ Unit) (item : ι) (items : List ι) :
    ((item :: items).forM edit).runOn state =
      match (edit item).runOn state with
      | (.ok _, state) => (items.forM edit).runOn state
      | (.error e, state) => (.error e, state) := by
  show (edit item >>= fun _ => items.forM edit).runOn state = _
  rw [runOn_bind]
  rcases (edit item).runOn state with ⟨outcome, next⟩
  cases outcome <;> rfl

/-- Of two edits in a row, both have succeeded if there is a result. -/
theorem runOn_bind_eq_ok_iff {edit : Edit σ α} {next : α → Edit σ β} {b : β} {final : σ} :
    (edit >>= next).runOn state = (.ok b, final) ↔
      ∃ a between, edit.runOn state = (.ok a, between) ∧
        (next a).runOn between = (.ok b, final) := by
  rw [runOn_bind]
  rcases edit.runOn state with ⟨outcome, between⟩
  cases outcome with
  | error e => exact iff_of_false (fun h => by cases h) fun ⟨_, _, h, _⟩ => by cases h
  | ok a =>
    constructor
    · exact fun h => ⟨a, between, rfl, h⟩
    · rintro ⟨a', between', hrun, h⟩
      cases hrun
      exact h

/-- A step that does not touch the state, and an edit behind it, have succeeded if
there is a result. -/
theorem runOn_lift_bind_eq_ok_iff {step : Except Error α} {next : α → Edit σ β} {b : β}
    {final : σ} :
    (liftM step >>= next : Edit σ β).runOn state = (.ok b, final) ↔
      ∃ a, step = .ok a ∧ (next a).runOn state = (.ok b, final) := by
  rw [runOn_bind_eq_ok_iff]
  constructor
  · rintro ⟨a, between, hstep, h⟩
    cases hstep
    exact ⟨a, rfl, h⟩
  · rintro ⟨a, rfl, h⟩
    exact ⟨a, state, rfl, h⟩

/-- Reading the state. -/
@[simp]
theorem runOn_get : (get : Edit σ σ).runOn state = (.ok state, state) := rfl

/-- Replacing the state. -/
@[simp]
theorem runOn_set (next : σ) : (set next : Edit σ PUnit).runOn state = (.ok ⟨⟩, next) := rfl

/-- Changing the state. -/
@[simp]
theorem runOn_modify (f : σ → σ) : (modify f : Edit σ PUnit).runOn state = (.ok ⟨⟩, f state) := rfl

/-- A step that does not touch the state. -/
@[simp]
theorem runOn_lift (result : Except Error α) :
    (liftM result : Edit σ α).runOn state = (result, state) := rfl

/-- A step that has succeeded leaves the edit behind it. -/
theorem lift_ok_bind (a : α) (next : α → Edit σ β) :
    ((liftM (Except.ok a : Except Error α) : Edit σ α) >>= next) = next a := rfl

/-- A step that fails. -/
@[simp]
theorem runOn_throw (e : Error) : (throw e : Edit σ α).runOn state = (.error e, state) := rfl

/-- An edit is done as a whole or not at all, as far as a view of the state shows: if
it fails, the view is what it was. -/
def AllOrNothing {τ : Type} (view : σ → τ) (edit : Edit σ α) : Prop :=
  ∀ state e left, edit.runOn state = (.error e, left) → view left = view state

/-- Whatever an edit gives has a property. -/
def Yields (edit : Edit σ α) (p : α → Prop) : Prop :=
  ∀ state a, (edit.runOn state).1 = .ok a → p a

/-- A value that is given at once. -/
theorem yields_pure {p : α → Prop} {a : α} (h : p a) : Yields (pure a : Edit σ α) p := by
  intro state b hb
  cases hb
  exact h

/-- A step that fails gives nothing. -/
theorem yields_throw (e : Error) (p : α → Prop) : Yields (throw e : Edit σ α) p :=
  fun _ _ h => by cases h

/-- Of two edits in a row, the second one gives the value. -/
theorem yields_bind {edit : Edit σ α} {next : α → Edit σ β} {q : α → Prop} {p : β → Prop}
    (hedit : Yields edit q) (hnext : ∀ a, q a → Yields (next a) p) : Yields (edit >>= next) p := by
  intro state b hb
  have hgives := hedit state
  rw [runOn_bind] at hb
  rcases hrun : edit.runOn state with ⟨outcome, between⟩
  rw [hrun] at hb hgives
  cases outcome with
  | error e => cases hb
  | ok a => exact hnext a (hgives a rfl) between b hb

/-- An edit gives something. -/
theorem yields_true (edit : Edit σ α) : Yields edit fun _ => True := fun _ _ _ => trivial

end Edit

end JvmClass
