import JvmClass.Proofs.ConstantPool.Copying
import JvmClass.Proofs.RelatedLists

/-!
# What edits of pools give for good

The indices that an edit gives keep their meaning while the pool grows. So what a
step gives can be stated for the pool at the end of all steps, however many more
entries the steps behind it add. A copied constant is found at one index only,
which depends on that pool and not on when the constant was copied.
-/

namespace JvmClass.ConstantPool

/-- What an index may become when the constant at it is copied: zero stays zero,
and every other index resolves to the constant with its classes renamed. -/
def Renumbered (source : ConstantPool) (names : Renaming) (pool : ConstantPool)
    (i j : UInt16) : Prop :=
  if i = 0 then j = 0
  else ∃ r, source.resolve i = .ok r ∧ pool.resolve j = .ok (r.rename names)

/-- A text stays what it is. -/
theorem Renumbered.text {source pool : ConstantPool} {names : Renaming} {i j : UInt16}
    (h : Renumbered source names pool i j) (hi : i ≠ 0) {s : String} (hs : source.text i = .ok s) :
    pool.text j = .ok s := by
  unfold Renumbered at h
  rw [if_neg hi] at h
  obtain ⟨r, hresolved, hcopied⟩ := h
  cases (resolve_eq_text_iff.mpr hs).symm.trans hresolved
  exact resolve_eq_text_iff.mp hcopied

/-- A constant or call site still names the same place of the table of bootstrap
methods. -/
theorem Renumbered.dynamic {source pool : ConstantPool} {names : Renaming} {i j place n : UInt16}
    {kind : DynamicKind} (h : Renumbered source names pool i j) (hi : i ≠ 0)
    (hplace : source.dynamic kind i = .ok (place, n)) :
    ∃ n', pool.dynamic kind j = .ok (place, n') := by
  unfold Renumbered at h
  rw [if_neg hi] at h
  obtain ⟨r, hresolved, hcopied⟩ := h
  obtain ⟨c, hentry, hresolved⟩ := bind_eq_ok_iff.mp hresolved
  cases hentry.symm.trans (dynamic_eq_ok_iff.mp hplace)
  obtain ⟨name, -, hresolved⟩ := bind_eq_ok_iff.mp hresolved
  obtain ⟨descriptor, -, hresolved⟩ := bind_eq_ok_iff.mp hresolved
  cases hresolved
  exact exists_dynamic_of_resolve hcopied

/-- The index at which a pool has the copy of a constant. -/
def copiedIndex (source : ConstantPool) (names : Renaming) (pool : ConstantPool)
    (i : UInt16) : UInt16 :=
  ((source.copy names i).runOn pool).1.toOption.getD 0

/-- An edit that only adds entries, and what it gives has a property in the pool
that it leaves and in every later one. -/
structure Lasting {α : Type} (edit : Edit ConstantPool α) (p : ConstantPool → α → Prop) :
    Prop where
  /-- Entries are added. -/
  adds : OnlyAdds edit
  /-- The property holds from then on. -/
  holds : ∀ {pool next later : ConstantPool} {a : α}, Consistent pool →
    edit.runOn pool = (.ok a, next) → Grows next later → p later a

section Lasting

variable {α β : Type} {edit : Edit ConstantPool α} {p q : ConstantPool → α → Prop}
  {r : ConstantPool → β → Prop}

/-- A value that is given at once. -/
theorem lasting_pure {a : α} (h : ∀ pool, p pool a) : Lasting (pure a) p := by
  refine ⟨onlyAdds_pure a, fun _ hrun _ => ?_⟩
  cases hrun
  exact h _

/-- Nothing is said of what is given. -/
theorem OnlyAdds.lasting (h : OnlyAdds edit) : Lasting edit fun _ _ => True :=
  ⟨h, fun _ _ _ => trivial⟩

/-- A weaker property. -/
theorem Lasting.imp (h : Lasting edit p) (himp : ∀ pool a, p pool a → q pool a) :
    Lasting edit q :=
  ⟨h.adds, fun hpool hrun hlater => himp _ _ (h.holds hpool hrun hlater)⟩

/-- One edit after another. -/
theorem Lasting.bind {next : α → Edit ConstantPool β} (h : Lasting edit p)
    (hnext : ∀ a, Lasting (next a) fun pool b => p pool a → r pool b) :
    Lasting (edit >>= next) r := by
  refine ⟨onlyAdds_bind h.adds fun a => (hnext a).adds, fun {pool _ _ _} hpool hrun hlater => ?_⟩
  obtain ⟨a, between, hfirst, hsecond⟩ := (Edit.runOn_bind_eq_ok_iff pool).mp hrun
  have hgrows := (hnext a).adds.grows_of_eq hsecond
  have hbetween := (h.adds.grows_of_eq hfirst).consistent hpool
  exact (hnext a).holds hbetween hsecond hlater (h.holds hpool hfirst (hgrows.trans hlater))

/-- A step that does not touch the pool. -/
theorem lasting_lift (step : Except Error α) :
    Lasting (liftM step) fun _ a => step = .ok a := by
  refine ⟨onlyAdds_lift step, fun _ hrun _ => ?_⟩
  cases hrun
  rfl

/-- An edit whose value is put into something. -/
theorem Lasting.map {f : α → β} (h : Lasting edit p) (hmap : ∀ pool a, p pool a → r pool (f a)) :
    Lasting (f <$> edit) r := by
  rw [map_eq_pure_bind]
  exact h.bind fun a => lasting_pure fun pool => hmap pool a

/-- An edit for each item of a list. -/
theorem lasting_mapM {f : α → Edit ConstantPool β} {s : ConstantPool → α → β → Prop}
    {list : List α} (h : ∀ a ∈ list, Lasting (f a) fun pool b => s pool a b) :
    Lasting (list.mapM f) fun pool out => List.Forall₂ (s pool) list out := by
  induction list with
  | nil => exact lasting_pure fun _ => .nil
  | cons a list ih =>
    rw [List.mapM_cons]
    have hrest := ih fun b hb => h b (List.mem_cons_of_mem _ hb)
    refine (h a List.mem_cons_self).bind fun b => (hrest.bind fun out => ?_)
    exact lasting_pure fun _ hout hb => .cons hb hout

/-- A text is found at its index for good. -/
theorem lasting_internText (s : String) :
    Lasting (internText s) fun pool j => pool.text j = .ok s :=
  ⟨onlyAdds_internText s, fun hpool hrun hlater => hlater.text (text_of_internText hpool hrun)⟩

/-- A copied constant is found at its index for good, and at no other. -/
theorem lasting_copy (source : ConstantPool) (names : Renaming) (i : UInt16) :
    Lasting (source.copy names i) fun pool j =>
      source.Renumbered names pool i j ∧ source.copiedIndex names pool i = j := by
  refine ⟨onlyAdds_copy source names i, fun {pool next later j} hpool hrun hlater => ?_⟩
  have hagain := ((interns_copy source names i).again hrun hlater).1
  refine ⟨?_, by unfold copiedIndex; rw [hagain]; rfl⟩
  unfold Renumbered
  by_cases hi : i = 0
  · rw [if_pos hi]
    unfold copy at hrun
    rw [if_pos hi] at hrun
    cases hrun
    rfl
  · rw [if_neg hi]
    obtain ⟨r, hresolved, hcopied⟩ := resolve_of_copy hpool hi hrun
    exact ⟨r, hresolved, hlater.resolve hcopied⟩

end Lasting

end JvmClass.ConstantPool
