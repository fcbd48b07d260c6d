import JvmClass.Proofs.CallSite.Replacement
import JvmClass.Proofs.Transform.Names

/-!
# Classes that agree

Two classes agree if their bodies differ in operands of accesses to fields only, and these
operands lead to the same names. The pools may differ, and with them the indices, so that
two operands are compared by the fields that they lead to, each in its own pool.
-/

namespace JvmClass

/-! ## Other bodies in methods -/

/-- Of two changes to the first attribute of a kind, the later one is left. -/
theorem Attribute.modifyFirst_modifyFirst (kind : AttributeKind) (f g : Attribute → Attribute)
    (hkind : ∀ a, a.kind = kind → (f a).kind = kind) (hlast : ∀ a, g (f a) = g a)
    (list : List Attribute) : modifyFirst kind g (modifyFirst kind f list) =
      modifyFirst kind g list := by
  induction list with
  | nil => rfl
  | cons a list ih =>
    by_cases ha : a.kind = kind
    · rw [modifyFirst, if_pos ha, modifyFirst, if_pos (hkind a ha), modifyFirst, if_pos ha, hlast]
    · rw [modifyFirst, if_neg ha, modifyFirst, if_neg ha, ih, modifyFirst, if_neg ha]

/-- The first attribute of a kind stays if it is not changed. -/
theorem Attribute.modifyFirst_of_findByKind? {kind : AttributeKind} {f : Attribute → Attribute}
    {list : List Attribute} (h : ∀ a, findByKind? kind list = some a → f a = a) :
    modifyFirst kind f list = list := by
  induction list with
  | nil => rfl
  | cons a list ih =>
    unfold findByKind? at h ih
    by_cases ha : a.kind = kind
    · rw [List.find?_cons_of_pos (by simp [ha])] at h
      rw [modifyFirst, if_pos ha, h a rfl]
    · rw [List.find?_cons_of_neg (by simp [ha])] at h
      rw [modifyFirst, if_neg ha, ih h]

namespace Method

/-- Of two bodies, a method keeps the later one. -/
theorem withCode_withCode (m : Method) (a b : Code) : (m.withCode a).withCode b = m.withCode b := by
  have hlast := Attribute.modifyFirst_modifyFirst .code
    (fun found => { found with body := .code a }) (fun found => { found with body := .code b })
    (fun _ _ => rfl) fun _ => rfl
  unfold withCode
  simp only [Option.map_map]
  congr 2
  funext list
  exact hlast list

/-- A method that gets its own body stays as it is. -/
theorem withCode_of_code? {m : Method} {code : Code} (h : m.code? = some code) :
    m.withCode code = m := by
  unfold code? attribute? attributeList at h
  unfold withCode
  cases hattributes : m.attributes with
  | none =>
    rw [hattributes] at h
    cases h
  | some list =>
    rw [hattributes, Option.getD_some] at h
    have hsame : ∀ a, Attribute.findByKind? .code list = some a →
        { a with body := .code code } = a := fun a ha => by
      rw [ha] at h
      obtain ⟨nameIndex, body⟩ := a
      cases body with
      | code found =>
        cases h
        rfl
      | data => cases h
    rw [Option.map_some, Attribute.modifyFirst_of_findByKind? hsame, ← hattributes]

/-- Two methods are equal but for the operands of the accesses to fields in their bodies. -/
inductive SameButFields (m : Method) : Method → Prop where
  /-- They are the same. -/
  | refl : SameButFields m m
  /-- The other method has another body. -/
  | body {code new : Code} {starts : List Nat} (hcode : m.code? = some code)
      (hstarts : Bytecode.starts code.bytes = .ok starts) (same : code.SameButFields new starts) :
      SameButFields m (m.withCode new)

namespace SameButFields

open Bytecode

variable {m m₁ m₂ : Method}

/-- What differs in two steps. -/
theorem trans (first : m.SameButFields m₁) (second : m₁.SameButFields m₂) :
    m.SameButFields m₂ := by
  cases first with
  | refl => exact second
  | @body code new starts hcode hstarts same =>
    cases second with
    | refl => exact .body hcode hstarts same
    | @body code' last starts' hcode' hstarts' same' =>
      cases (code?_withCode new hcode).symm.trans hcode'
      have walk := starts_eq_ok_iff.mp hstarts
      cases (starts_eq_ok_iff.mpr (same.walk walk)).symm.trans hstarts'
      rw [withCode_withCode]
      exact .body hcode hstarts (same.trans same' fun p hp => same.accessesField_eq walk hp)

/-- Two directions. -/
theorem symm (h : m.SameButFields m₁) : m₁.SameButFields m := by
  cases h with
  | refl => exact .refl
  | @body code new starts hcode hstarts same =>
    have walk := starts_eq_ok_iff.mp hstarts
    have hback : (m.withCode new).SameButFields ((m.withCode new).withCode code) :=
      .body (code?_withCode new hcode) (starts_eq_ok_iff.mpr (same.walk walk)) (same.symm walk)
    rwa [withCode_withCode, withCode_of_code? hcode] at hback

/-- The bodies of the methods differ in operands only. -/
theorem code {code new : Code} {starts : List Nat} (h : m.SameButFields m₁)
    (hcode : m.code? = some code) (hnew : m₁.code? = some new)
    (hstarts : Bytecode.starts code.bytes = .ok starts) : code.SameButFields new starts := by
  cases h with
  | refl =>
    cases hcode.symm.trans hnew
    exact .refl _ _
  | body hcode' hstarts' same =>
    cases hcode.symm.trans hcode'
    cases hstarts.symm.trans hstarts'
    cases (code?_withCode _ hcode).symm.trans hnew
    exact same

end SameButFields

/-- The accesses in the body of a method refer to fields with these names, in order. -/
def Shows (m : Method) (pool : ConstantPool) (names : List FieldNames) : Prop :=
  match m.code? with
  | none => names = []
  | some code => ∃ starts, Bytecode.starts code.bytes = .ok starts ∧
      Bytecode.Shows code.bytes pool starts names

/-- A method shows the same names when the pool has grown. -/
theorem Shows.grows {m : Method} {pool pool' : ConstantPool} {names : List FieldNames}
    (shows : m.Shows pool names) (grows : pool.Grows pool') : m.Shows pool' names := by
  unfold Shows at shows ⊢
  cases hcode : m.code? with
  | none =>
    rw [hcode] at shows
    exact shows
  | some code =>
    rw [hcode] at shows
    obtain ⟨starts, hstarts, shows⟩ := shows
    exact ⟨starts, hstarts, shows.congr grows fun _ _ _ _ => rfl⟩

end Method

/-! ## Classes -/

namespace ClassFile

open Bytecode

/-- Two classes are equal but for their pools and for the operands of the accesses to
fields. -/
structure SameButFields (c d : ClassFile) : Prop where
  /-- All but the pool and the methods is the same. -/
  rest : d = { c with pool := d.pool, methods := d.methods }
  /-- The methods differ in operands of accesses only. -/
  methods : List.Forall₂ Method.SameButFields c.methods d.methods

/-- The methods of a class show names, one row for each. -/
def Shows (c : ClassFile) (rows : List (List FieldNames)) : Prop :=
  List.Forall₂ (fun m names => m.Shows c.pool names) c.methods rows

/-- Every access in a body that is a row of instructions refers to a field. -/
def ResolvesFields (c : ClassFile) : Prop :=
  ∀ m ∈ c.methods, ∀ code starts, m.code? = some code → Bytecode.starts code.bytes = .ok starts →
    ∀ p ∈ starts, accessesField code.bytes p = true → ∃ field, RefersTo code.bytes c.pool p field

/-- Every access in a method refers, in its own pool, to a field with the same names as in
the other method. -/
def SameNames (c d : ClassFile) (m m' : Method) : Prop :=
  ∀ code code' starts, m.code? = some code → m'.code? = some code' →
    Bytecode.starts code.bytes = .ok starts → ∀ p ∈ starts, accessesField code.bytes p = true →
      ∃ field field', RefersTo code.bytes c.pool p field ∧ RefersTo code'.bytes d.pool p field' ∧
        field.names = field'.names

/-- Two classes have the same bodies but for the operands of accesses, and these refer to
fields with the same names. All else but the pools is equal. -/
structure AgreesWith (c d : ClassFile) : Prop where
  /-- Nothing differs but operands and pools. -/
  same : c.SameButFields d
  /-- The operands refer to fields with the same names. -/
  names : List.Forall₂ (c.SameNames d) c.methods d.methods

section Runs

variable {c d e : ClassFile} {rows : List (List FieldNames)}

theorem SameButFields.refl (c : ClassFile) : c.SameButFields c :=
  ⟨rfl, List.forall₂_same.mpr fun _ _ => .refl⟩

/-- What differs in two steps. -/
theorem SameButFields.trans (first : c.SameButFields d) (second : d.SameButFields e) :
    c.SameButFields e := by
  refine ⟨?_, forall₂_trans first.methods second.methods fun _ _ _ => .trans⟩
  rw [second.rest, first.rest]

/-- Two directions. -/
theorem SameButFields.symm (h : c.SameButFields d) : d.SameButFields c := by
  refine ⟨?_, (h.methods.imp fun _ _ same => same.symm).flip⟩
  rw [h.rest]

/-- Two classes that differ in operands only and show the same names agree. -/
theorem SameButFields.agreesWith (same : c.SameButFields d) (shows : c.Shows rows)
    (shows' : d.Shows rows) : c.AgreesWith d := by
  have hboth := forall₂_trans shows (shows'.flip) fun m names m' h h' =>
    (⟨names, h, h'⟩ : ∃ names, m.Shows c.pool names ∧ m'.Shows d.pool names)
  refine ⟨same, same.methods.mp ?_ hboth⟩
  rintro m m' hsame ⟨names, h, h'⟩ code code' starts hcode hcode' hstarts p hp haccess
  have hbodies := hsame.code hcode hcode' hstarts
  have walk := starts_eq_ok_iff.mp hstarts
  unfold Method.Shows at h h'
  rw [hcode] at h
  rw [hcode'] at h'
  obtain ⟨starts₁, hstarts₁, h⟩ := h
  obtain ⟨starts₂, hstarts₂, h'⟩ := h'
  cases hstarts.symm.trans hstarts₁
  cases (starts_eq_ok_iff.mpr (hbodies.walk walk)).symm.trans hstarts₂
  exact FieldRedirect.exists_names_eq h h' (fun q hq => hbodies.accessesField_eq walk hq) hp haccess

/-- A class whose accesses refer to fields, and whose bodies are rows of instructions, shows
names. -/
theorem ResolvesFields.exists_shows (hfields : c.ResolvesFields)
    (hbodies : ∀ m ∈ c.methods, ∀ code, m.code? = some code →
      ∃ starts, Bytecode.starts code.bytes = .ok starts) : ∃ rows, c.Shows rows := by
  refine exists_forall₂ fun m hm => ?_
  cases hcode : m.code? with
  | none => exact ⟨[], by unfold Method.Shows; rw [hcode]⟩
  | some code =>
    obtain ⟨starts, hstarts⟩ := hbodies m hm code hcode
    obtain ⟨names, hnames⟩ : ∃ names, Bytecode.Shows code.bytes c.pool starts names :=
      exists_forall₂ fun p hp => by
        obtain ⟨hp, haccess⟩ := List.mem_filter.mp hp
        obtain ⟨field, refers⟩ := hfields m hm code starts hcode hstarts p hp haccess
        exact ⟨field.names, field, refers, rfl⟩
    exact ⟨names, by unfold Method.Shows; rw [hcode]; exact ⟨starts, hstarts, hnames⟩⟩

/-- A class and a copy of it agree. -/
theorem ResolvesFields.agreesWith_withPoolId (hfields : c.ResolvesFields) (id : Nat) :
    c.AgreesWith (c.withPoolId id) := by
  refine ⟨⟨rfl, List.forall₂_same.mpr fun _ _ => .refl⟩, List.forall₂_same.mpr ?_⟩
  intro m hm code code' starts hcode hcode' hstarts p hp haccess
  cases hcode.symm.trans hcode'
  obtain ⟨field, refers⟩ := hfields m hm code starts hcode hstarts p hp haccess
  obtain ⟨i, hi, hfield⟩ := refers.operand
  exact ⟨field, field, refers, ⟨haccess, i, hi, hfield⟩, rfl⟩

/-- The pool that a class has under another identity shows the same names. -/
theorem Shows.withPoolId (shows : c.Shows rows) (id : Nat) : (c.withPoolId id).Shows rows := by
  refine List.Forall₂.imp (fun m names h => ?_) shows
  unfold Method.Shows at h ⊢
  cases hcode : m.code? with
  | none => rwa [hcode] at h
  | some code =>
    rw [hcode] at h
    obtain ⟨starts, hstarts, h⟩ := h
    refine ⟨starts, hstarts, List.Forall₂.imp ?_ h⟩
    rintro p f ⟨field, refers, hf⟩
    obtain ⟨i, hi, hfield⟩ := refers.operand
    exact ⟨field, ⟨refers.access, i, hi, hfield⟩, hf⟩

end Runs

end ClassFile

end JvmClass
