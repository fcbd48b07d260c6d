import JvmClass.Proofs.Edit

/-!
# Watched edits

An edit has a result or an error, whatever it does. A watched edit can also crash: it then
has neither. It crashes where it takes a byte that is not there, where it subtracts more
than there is, and where it has not ended after as many steps as it was given. An edit that
is watched in all these places, and is equal to the edit as it is, never crashes.
-/

namespace JvmClass

/-- An edit that may crash. -/
abbrev Watched (σ : Type) := ExceptT Error (StateT σ Option)

namespace Watched

variable {σ α β : Type}

/-- Neither a result nor an error. -/
def crash : Watched σ α := ExceptT.mk fun _ => none

/-- An edit that does not crash. -/
def ofEdit (edit : Edit σ α) : Watched σ α := ExceptT.mk fun state => some (edit.runOn state)

/-- A step without a state that does not crash. -/
def ofStep (step : Except Error α) : Watched σ α := ofEdit (liftM step)

/-- Something that has to be there. -/
def demand : Option α → Watched σ α
  | some a => pure a
  | none => crash

/-- What is left of a number without another, which must not be larger. -/
def sub (m n : Nat) : Watched σ Nat := if n ≤ m then pure (m - n) else crash

/-- What is there is given at once. -/
theorem demand_some_bind (a : α) (next : α → Watched σ β) : demand (some a) >>= next = next a := rfl

/-- What follows a step that has succeeded goes on with its result. -/
theorem ofStep_ok_bind (a : α) (next : α → Watched σ β) : ofStep (.ok a) >>= next = next a := rfl

/-- What follows a watched edit goes on with its result. -/
theorem bind_apply (watched : Watched σ α) (next : α → Watched σ β) (state : σ) :
    (watched >>= next) state =
      match watched state with
      | some (.ok a, state) => next a state
      | some (.error e, state) => some (.error e, state)
      | none => none := by
  have hbind : (watched >>= next) state =
      (watched state).bind fun x => ExceptT.bindCont next x.1 x.2 := rfl
  rw [hbind]
  rcases watched state with _ | ⟨⟨e⟩ | ⟨a⟩, state⟩ <;> rfl

/-- What follows an edit only matters for what the edit gives. -/
theorem bind_congr_of_yields {edit : Edit σ α} {p : α → Prop} {next next' : α → Watched σ β}
    (hedit : edit.Yields p) (h : ∀ a, p a → next a = next' a) :
    ofEdit edit >>= next = ofEdit edit >>= next' := by
  funext state
  have hrun : ofEdit edit state = some (edit.runOn state) := rfl
  have hgives := hedit state
  rw [bind_apply, bind_apply, hrun]
  rcases hresult : edit.runOn state with ⟨⟨e⟩ | ⟨a⟩, between⟩
  · rfl
  · rw [hresult] at hgives
    show next a between = next' a between
    rw [h a (hgives a rfl)]

/-- Two edits in a row do not crash. -/
theorem ofEdit_bind (edit : Edit σ α) (next : α → Edit σ β) :
    (ofEdit edit >>= fun a => ofEdit (next a)) = ofEdit (edit >>= next) := by
  funext state
  have hrun {α : Type} (edit : Edit σ α) : ofEdit edit state = some (edit.runOn state) := rfl
  rw [bind_apply, hrun, hrun, Edit.runOn_bind]
  rcases edit.runOn state with ⟨⟨e⟩ | ⟨a⟩, between⟩ <;> rfl

/-- What follows an edit does not crash if it is itself an edit. -/
theorem bind_eq {edit : Edit σ α} {next : α → Watched σ β} {next' : α → Edit σ β}
    (h : ∀ a, next a = ofEdit (next' a)) : ofEdit edit >>= next = ofEdit (edit >>= next') := by
  rw [← ofEdit_bind]
  exact bind_congr h

/-- Two steps in a row do not crash. -/
theorem ofStep_bind (step : Except Error α) (next : α → Except Error β) :
    (ofStep step >>= fun a => (ofStep (next a) : Watched σ β)) = ofStep (step >>= next) := by
  cases step <;> rfl

/-- A loop over a list does not crash if no round does. -/
theorem foldlM_eq {ι : Type} {items : List ι} {visit : β → ι → Watched σ β}
    {visit' : β → ι → Except Error β}
    (h : ∀ acc, ∀ item ∈ items, visit acc item = ofStep (visit' acc item)) (acc : β) :
    items.foldlM visit acc = ofStep (items.foldlM visit' acc) := by
  induction items generalizing acc with
  | nil => rfl
  | cons item items ih =>
    rw [List.foldlM_cons, List.foldlM_cons, h acc item List.mem_cons_self, ← ofStep_bind]
    exact bind_congr (ih fun acc item hitem => h acc item (List.mem_cons_of_mem _ hitem))

/-- Edits for the items of a list do not crash if none of them does. -/
theorem forM_eq {ι : Type} {edit : ι → Watched σ Unit} {edit' : ι → Edit σ Unit}
    (h : ∀ item, edit item = ofEdit (edit' item)) (items : List ι) :
    items.forM edit = ofEdit (items.forM edit') := by
  induction items with
  | nil => rfl
  | cons item items ih =>
    show edit item >>= (fun _ => items.forM edit) = _
    rw [h item]
    exact bind_eq fun _ => ih

end Watched

end JvmClass
