import JvmClass.Proofs.Code.Readable
import JvmClass.Proofs.ConstantPool.Growth
import JvmClass.Proofs.Member.Format

/-!
# Edited methods are read back

A method is read back after its pool has grown, after its body was replaced by
one whose attributes are read back, and after it lost attributes. Edits of a
method may fail when the pool is full; what they have added stays there.
-/

namespace JvmClass

/-- Attributes are read back in a pool that has grown. -/
theorem Attribute.Readable.grows {old pool : ConstantPool} {a : Attribute}
    (h : a.Readable old) (grows : old.Grows pool) : a.Readable pool :=
  h.mono fun _ _ hname => grows.expect hname

/-- An attribute of a changed list is one of the list before, or the changed one
of its kind. -/
theorem Attribute.mem_modifyFirst {kind : AttributeKind} {f : Attribute → Attribute}
    {list : List Attribute} {a : Attribute} (h : a ∈ modifyFirst kind f list) :
    a ∈ list ∨ ∃ b ∈ list, b.kind = kind ∧ a = f b := by
  induction list with
  | nil => cases h
  | cons first list ih =>
    unfold modifyFirst at h
    by_cases hkind : first.kind = kind
    · rw [if_pos hkind] at h
      rcases List.mem_cons.mp h with rfl | hlater
      · exact .inr ⟨first, List.mem_cons_self, hkind, rfl⟩
      · exact .inl (List.mem_cons_of_mem _ hlater)
    · rw [if_neg hkind] at h
      rcases List.mem_cons.mp h with rfl | hlater
      · exact .inl List.mem_cons_self
      · rcases ih hlater with hold | ⟨b, hb, hnew⟩
        · exact .inl (List.mem_cons_of_mem _ hold)
        · exact .inr ⟨b, List.mem_cons_of_mem _ hb, hnew⟩

namespace Method

variable {pool next : ConstantPool} {m : Method}

/-- A method is read back in a pool that has grown. -/
theorem Readable.grows (h : m.Readable pool) (grows : pool.Grows next) : m.Readable next :=
  h.mono fun _ _ hname => grows.expect hname

/-- The attributes of the body of a method are read back. -/
theorem Readable.attributes_code (h : m.Readable pool) {code : Code}
    (hcode : m.code? = some code) : ∀ a ∈ code.attributes, a.Readable pool := by
  obtain ⟨list, hlist, hattributes⟩ := h
  unfold code? attribute? attributeList at hcode
  rw [hlist, Option.getD_some] at hcode
  cases hfound : Attribute.findByKind? .code list with
  | none =>
    rw [hfound] at hcode
    cases hcode
  | some a =>
    obtain ⟨nameIndex, body⟩ := a
    rw [hfound] at hcode
    cases body with
    | data payload => cases hcode
    | code found =>
      cases hcode
      obtain ⟨-, -, hbody⟩ := hattributes _ (List.mem_of_find?_eq_some hfound)
      cases hbody with
      | code hall => exact hall

/-- A method with another body is read back if the attributes of the body are. -/
theorem Readable.withCode (h : m.Readable pool) {code : Code}
    (hcode : ∀ a ∈ code.attributes, a.Readable pool) : (m.withCode code).Readable pool := by
  obtain ⟨list, hlist, hattributes⟩ := h
  refine ⟨_, congrArg (Option.map _) hlist, fun a ha => ?_⟩
  rcases Attribute.mem_modifyFirst ha with hold | ⟨b, hb, hkind, rfl⟩
  · exact hattributes a hold
  · obtain ⟨hname, hof, -⟩ := hattributes b hb
    exact .intro hname (hof.trans hkind) (.code hcode)

/-- A method whose body is edited is read back if the edit keeps attributes
readable. -/
theorem Readable.editCode (h : m.Readable pool) {old new : Code} (hold : m.code? = some old)
    (hnew : old.KeepsReadable new) : (m.withCode new).Readable pool :=
  h.withCode (hnew pool (h.attributes_code hold))

/-- A method without its attributes of a kind is read back. -/
theorem Readable.removeKind (h : m.Readable pool) (kind : AttributeKind) :
    (m.removeKind kind).Readable pool := by
  obtain ⟨list, hlist, hattributes⟩ := h
  refine ⟨_, congrArg (Option.map _) hlist, fun a ha => ?_⟩
  exact hattributes a (List.mem_filter.mp ha).1

/-! ## Edits with a pool -/

/-- A method has the attributes of another one, or its body was edited so that
the attributes stay readable. -/
def EditedFrom (old new : Method) : Prop :=
  new.attributes = old.attributes ∨
    ∃ before after : Code, old.code? = some before ∧ before.KeepsReadable after ∧
      new = old.withCode after

/-- An edited method is read back. -/
theorem Readable.editedFrom {new : Method} (h : m.Readable pool) (hnew : m.EditedFrom new) :
    new.Readable pool := by
  rcases hnew with hsame | ⟨before, after, hbefore, hafter, rfl⟩
  · obtain ⟨list, hlist, hattributes⟩ := h
    exact ⟨list, hsame.trans hlist, hattributes⟩
  · exact h.editCode hbefore hafter

/-- An edit only adds to the pool, and gives an edited method. -/
structure Keeps (m : Method) (edit : Edit ConstantPool Method) : Prop where
  /-- The pool only gets more entries. -/
  onlyAdds : ConstantPool.OnlyAdds edit
  /-- The method is edited so that its attributes stay readable. -/
  yields : edit.Yields m.EditedFrom

section Keeps

variable {α : Type}

/-- An edited method that is given at once. -/
theorem keeps_pure {new : Method} (h : m.EditedFrom new) : m.Keeps (pure new) :=
  ⟨ConstantPool.onlyAdds_pure new, Edit.yields_pure h⟩

/-- A step that fails. -/
theorem keeps_throw (m : Method) (e : Error) : m.Keeps (throw e) :=
  ⟨ConstantPool.onlyAdds_throw e, Edit.yields_throw e _⟩

/-- An edit behind a step that only adds to the pool. -/
theorem keeps_bind {step : Edit ConstantPool α} {next : α → Edit ConstantPool Method}
    (hstep : ConstantPool.OnlyAdds step) (hnext : ∀ a, m.Keeps (next a)) :
    m.Keeps (step >>= next) :=
  ⟨ConstantPool.onlyAdds_bind hstep fun a => (hnext a).onlyAdds,
    Edit.yields_bind (Edit.yields_true step) fun a _ => (hnext a).yields⟩

/-- An edit behind a step that may fail and does not touch the pool. -/
theorem keeps_lift_bind {result : Except Error α} {next : α → Edit ConstantPool Method}
    (hnext : ∀ a, result = .ok a → m.Keeps (next a)) : m.Keeps (liftM result >>= next) := by
  cases result with
  | error e => exact m.keeps_throw e
  | ok a => exact hnext a rfl

end Keeps

/-- Giving a method another name keeps its attributes. -/
theorem keeps_rename (m : Method) (name : String) : m.Keeps (m.rename name) :=
  keeps_bind (ConstantPool.onlyAdds_internText name) fun _ => keeps_pure (.inl rfl)

/-- Giving a method another descriptor keeps its attributes. -/
theorem keeps_withDescriptor (m : Method) (descriptor : String) :
    m.Keeps (m.withDescriptor descriptor) := by
  refine keeps_bind ConstantPool.onlyAdds_get fun pool => keeps_lift_bind fun found _ => ?_
  split
  · exact keeps_pure (.inl rfl)
  · exact keeps_bind (ConstantPool.onlyAdds_internText descriptor) fun _ => keeps_pure (.inl rfl)

/-- Making a constructor call another one keeps the attributes of its body. -/
theorem keeps_withSuperclass (m : Method) (superclass : String) :
    m.Keeps (m.withSuperclass superclass) := by
  refine keeps_bind ConstantPool.onlyAdds_get fun pool => keeps_lift_bind fun isConstructor _ => ?_
  split
  · exact keeps_pure (.inl rfl)
  split
  · exact keeps_pure (.inl rfl)
  next code hcode =>
  split
  · exact m.keeps_throw _
  · exact keeps_pure (.inl rfl)
  · refine keeps_lift_bind fun old _ => keeps_lift_bind fun reference _ => ?_
    obtain ⟨kind, owner, nameAndType⟩ := reference
    refine keeps_bind (ConstantPool.onlyAdds_internSymbol ..) fun owner => ?_
    refine keeps_bind (ConstantPool.onlyAdds_intern _) fun new => ?_
    refine keeps_lift_bind fun edited hedited => keeps_pure (.inr ⟨code, edited, hcode, ?_, rfl⟩)
    exact Code.keepsReadable_write hedited

end Method

end JvmClass
