import Mathlib.Data.List.Forall2

/-!
# Related lists

Lists whose items are related one by one. Tables before and after an edit are
related in this way, and so are the stages of a chain before and after a run.
-/

namespace JvmClass

/-- Relations between the items of lists follow one another. -/
theorem forall₂_trans {α β γ : Type} {R : α → β → Prop} {S : β → γ → Prop} {T : α → γ → Prop}
    {as : List α} {bs : List β} {cs : List γ} (first : List.Forall₂ R as bs)
    (second : List.Forall₂ S bs cs) (h : ∀ a b c, R a b → S b c → T a c) :
    List.Forall₂ T as cs := by
  induction first generalizing cs with
  | nil =>
    cases second
    exact .nil
  | cons hab _ ih =>
    cases second with
    | cons hbc hrest => exact .cons (h _ _ _ hab hbc) (ih hrest)

/-- Lists that consist of parts of equal length are related part by part. -/
theorem forall₂_append_iff {α β : Type} {R : α → β → Prop} {as as' : List α} {bs bs' : List β}
    (h : bs.length = as.length) :
    List.Forall₂ R (as ++ as') (bs ++ bs') ↔ List.Forall₂ R as bs ∧ List.Forall₂ R as' bs' := by
  induction as generalizing bs with
  | nil =>
    cases List.length_eq_zero_iff.mp h
    exact (and_iff_right .nil).symm
  | cons a as ih =>
    cases bs with
    | nil => cases h
    | cons b bs =>
      rw [List.cons_append, List.cons_append, List.forall₂_cons, List.forall₂_cons,
        ih (Nat.succ.inj h), and_assoc]

/-- If there is a related item for every item of a list, there is a related list. -/
theorem exists_forall₂ {α β : Type} {R : α → β → Prop} {as : List α}
    (h : ∀ a ∈ as, ∃ b, R a b) : ∃ bs, List.Forall₂ R as bs := by
  induction as with
  | nil => exact ⟨[], .nil⟩
  | cons a as ih =>
    obtain ⟨b, hb⟩ := h a List.mem_cons_self
    obtain ⟨bs, hbs⟩ := ih fun a ha => h a (List.mem_cons_of_mem _ ha)
    exact ⟨b :: bs, .cons hb hbs⟩

/-- Every item has a related one. -/
theorem exists_mem_of_forall₂ {α β : Type} {R : α → β → Prop} {as : List α} {bs : List β}
    (related : List.Forall₂ R as bs) {a : α} (ha : a ∈ as) : ∃ b ∈ bs, R a b := by
  induction related with
  | nil => cases ha
  | @cons _ b _ _ hab _ ih =>
    cases ha with
    | head => exact ⟨b, List.mem_cons_self, hab⟩
    | tail _ ha =>
      obtain ⟨b', hb', h⟩ := ih ha
      exact ⟨b', List.mem_cons_of_mem _ hb', h⟩

/-- A relation to the items of a list carries over to changed items. -/
theorem forall₂_map_of_mem {α β γ : Type} {R : α → β → Prop} {T : α → γ → Prop} {g : β → γ}
    {as : List α} {bs : List β} (first : List.Forall₂ R as bs)
    (h : ∀ a ∈ as, ∀ b, R a b → T a (g b)) : List.Forall₂ T as (bs.map g) := by
  have hmem := (List.forall₂_and_left as bs).mpr ⟨fun a ha => ha, first⟩
  exact List.forall₂_map_right_iff.mpr (hmem.imp fun a b hab => h a hab.1 b hab.2)

/-- What items have in common with related items, they have in common in a row. -/
theorem flatMap_eq_of_forall₂ {α β γ : Type} {R : α → β → Prop} {f : α → List γ} {g : β → List γ}
    {as : List α} {bs : List β} (related : List.Forall₂ R as bs)
    (h : ∀ a b, R a b → g b = f a) : bs.flatMap g = as.flatMap f := by
  induction related with
  | nil => rfl
  | cons hab _ ih => rw [List.flatMap_cons, List.flatMap_cons, h _ _ hab, ih]

/-- Related lists have related items at each place, or none. -/
theorem rel_getElem?_of_forall₂ {α β : Type} {R : α → β → Prop} {as : List α} {bs : List β}
    (related : List.Forall₂ R as bs) (place : Nat) : Option.Rel R as[place]? bs[place]? := by
  induction related generalizing place with
  | nil => exact .none
  | cons h _ ih =>
    cases place with
    | zero => exact .some h
    | succ place => exact ih place

end JvmClass
