import JvmClass.ConstantPool.Loadable
import JvmClass.Proofs.ConstantPool.Interning

/-!
# Resolved constants

A constant with all that it refers to in place of the indices. What an index
resolves to does not depend on where a pool keeps its entries, so that constants
of different pools can be compared. Renaming a resolved constant renames classes
and the descriptors of members and method types, and no other text.
-/

namespace JvmClass

/-- A constant with the names that its indices lead to. -/
inductive ResolvedConstant where
  /-- A text. -/
  | text (value : String)
  /-- A 32-bit integer. -/
  | integer (value : Int32)
  /-- A single precision number, by its bits. -/
  | float (bits : UInt32)
  /-- A 64-bit integer. -/
  | long (value : Int64)
  /-- A double precision number, by its bits. -/
  | double (bits : UInt64)
  /-- What an entry names that names one text. -/
  | symbol (kind : SymbolKind) (text : String)
  /-- A field or method of a class. -/
  | member (kind : MemberKind) (className name descriptor : String)
  /-- A name with a descriptor. -/
  | nameAndType (name descriptor : String)
  /-- A method handle: the number of its kind and its member. -/
  | methodHandle (code : UInt8) (kind : MemberKind) (className name descriptor : String)
  /-- A constant or call site: the place of its bootstrap method, its name and
  its descriptor. -/
  | dynamic (kind : DynamicKind) (bootstrap : UInt16) (name descriptor : String)
  deriving DecidableEq

namespace ResolvedConstant

/-- The constant after classes are renamed. -/
def rename (names : Renaming) : ResolvedConstant → ResolvedConstant
  | .symbol .classInfo name => .symbol .classInfo (names.className name)
  | .symbol .methodType descriptor => .symbol .methodType (names.descriptor descriptor)
  | .member kind className name descriptor =>
    .member kind (names.className className) name (names.descriptor descriptor)
  | .nameAndType name descriptor => .nameAndType name (names.descriptor descriptor)
  | .methodHandle code kind className name descriptor =>
    .methodHandle code kind (names.className className) name (names.descriptor descriptor)
  | .dynamic kind bootstrap name descriptor =>
    .dynamic kind bootstrap name (names.descriptor descriptor)
  | other => other

/-- The constant as a bootstrap method may receive it, if it may. -/
def loadable? : ResolvedConstant → Option LoadableConstant
  | .symbol .string value => some (.string value)
  | .integer value => some (.integer value)
  | .long value => some (.long value)
  | .float bits => some (.float bits)
  | .double bits => some (.double bits)
  | .symbol .classInfo name => some (.classInfo name)
  | .symbol .methodType descriptor => some (.methodType descriptor)
  | .methodHandle code memberKind className name descriptor =>
    match HandleKind.ofCode? code with
    | some kind =>
      if kind.accepts memberKind then some (.methodHandle ⟨kind, className, name, descriptor⟩)
      else none
    | none => none
  | .dynamic .constant bootstrap name descriptor => some (.dynamic bootstrap name descriptor)
  | _ => none

end ResolvedConstant

/-- A loadable constant after classes are renamed. -/
def LoadableConstant.rename (names : Renaming) : LoadableConstant → LoadableConstant
  | .classInfo name => .classInfo (names.className name)
  | .methodType descriptor => .methodType (names.descriptor descriptor)
  | .methodHandle ⟨kind, className, name, descriptor⟩ =>
    .methodHandle ⟨kind, names.className className, name, names.descriptor descriptor⟩
  | .dynamic bootstrap name descriptor => .dynamic bootstrap name (names.descriptor descriptor)
  | other => other

/-- Renaming a constant renames what a bootstrap method receives. -/
theorem ResolvedConstant.loadable?_rename (names : Renaming) (c : ResolvedConstant) :
    (c.rename names).loadable? = c.loadable?.map (LoadableConstant.rename names) := by
  cases c with
  | symbol kind text => cases kind <;> rfl
  | methodHandle code memberKind className name descriptor =>
    simp only [rename, loadable?]
    cases HandleKind.ofCode? code with
    | none => rfl
    | some kind => by_cases h : kind.accepts memberKind <;> simp [h, LoadableConstant.rename]
  | dynamic kind bootstrap name descriptor => cases kind <;> rfl
  | _ => rfl

namespace ConstantPool

/-! ## Resolving -/

section Resolve

variable (pool : ConstantPool)

/-- The constant at an index, resolved. -/
def resolve (i : UInt16) : Except Error ResolvedConstant := do
  match ← pool.entry i with
  | .text value => pure (.text value)
  | .integer value => pure (.integer value)
  | .float bits => pure (.float bits)
  | .long value => pure (.long value)
  | .double bits => pure (.double bits)
  | .symbol kind t => .symbol kind <$> pool.text t
  | .member _ _ _ => do
    let m ← pool.member i
    pure (.member m.kind m.className m.name m.descriptor)
  | .nameAndType _ _ => do
    let name ← pool.nameOf i
    let descriptor ← pool.descriptorOf i
    pure (.nameAndType name descriptor)
  | .methodHandle code reference => do
    let m ← pool.member reference
    pure (.methodHandle code m.kind m.className m.name m.descriptor)
  | .dynamic kind bootstrap nameAndType => do
    let name ← pool.nameOf nameAndType
    let descriptor ← pool.descriptorOf nameAndType
    pure (.dynamic kind bootstrap name descriptor)

end Resolve

variable {old pool : ConstantPool} {i : UInt16}

/-- What an index resolves to stays the same when the pool grows. -/
theorem Grows.resolve (grows : Grows old pool) {r : ResolvedConstant}
    (h : old.resolve i = .ok r) : pool.resolve i = .ok r := by
  obtain ⟨c, hentry, h⟩ := bind_eq_ok_iff.mp h
  refine bind_eq_ok_iff.mpr ⟨c, grows.entry hentry, ?_⟩
  cases c with
  | symbol kind t =>
    obtain ⟨s, htext, h⟩ := bind_eq_ok_iff.mp h
    exact bind_eq_ok_iff.mpr ⟨s, grows.text htext, h⟩
  | member kind c n =>
    obtain ⟨m, hmember, h⟩ := bind_eq_ok_iff.mp h
    exact bind_eq_ok_iff.mpr ⟨m, grows.memberOf hmember, h⟩
  | nameAndType n d =>
    obtain ⟨name, hname, h⟩ := bind_eq_ok_iff.mp h
    obtain ⟨descriptor, hdescriptor, h⟩ := bind_eq_ok_iff.mp h
    exact bind_eq_ok_iff.mpr ⟨name, grows.nameOf hname,
      bind_eq_ok_iff.mpr ⟨descriptor, grows.descriptorOf hdescriptor, h⟩⟩
  | methodHandle code reference =>
    obtain ⟨m, hmember, h⟩ := bind_eq_ok_iff.mp h
    exact bind_eq_ok_iff.mpr ⟨m, grows.memberOf hmember, h⟩
  | dynamic kind bootstrap n =>
    obtain ⟨name, hname, h⟩ := bind_eq_ok_iff.mp h
    obtain ⟨descriptor, hdescriptor, h⟩ := bind_eq_ok_iff.mp h
    exact bind_eq_ok_iff.mpr ⟨name, grows.nameOf hname,
      bind_eq_ok_iff.mpr ⟨descriptor, grows.descriptorOf hdescriptor, h⟩⟩
  | _ => exact h

/-- A member of some kind is a member. -/
theorem member_of_memberOf {kind : MemberKind} {m : MemberRef}
    (h : pool.memberOf (some kind) i = .ok m) : pool.member i = .ok m := by
  obtain ⟨found, hindices, h⟩ := bind_eq_ok_iff.mp h
  obtain ⟨c, hentry, hindices⟩ := bind_eq_ok_iff.mp hindices
  refine bind_eq_ok_iff.mpr ⟨found, bind_eq_ok_iff.mpr ⟨c, hentry, ?_⟩, h⟩
  cases c with
  | member found' c n =>
    simp only at hindices ⊢
    split at hindices
    · exact hindices
    · cases hindices
  | _ => cases hindices

/-- What a view shows of an entry of its kind. -/
theorem expect_of_entry {α : Type} {c : Constant} {kind : ConstantKind}
    {view : Constant → Option α} {a : α} (h : pool.entry i = .ok c) (hview : view c = some a) :
    pool.expect kind view i = .ok a :=
  bind_eq_ok_iff.mpr ⟨c, h, by simp only [hview]; rfl⟩

/-- What resolves to a text is one. -/
theorem resolve_eq_text_iff {s : String} :
    pool.resolve i = .ok (.text s) ↔ pool.text i = .ok s := by
  constructor
  · intro h
    obtain ⟨c, hentry, h⟩ := bind_eq_ok_iff.mp h
    cases c with
    | text value =>
      cases h
      exact expect_of_entry hentry rfl
    | symbol | member | methodHandle =>
      obtain ⟨_, _, h⟩ := bind_eq_ok_iff.mp h
      cases h
    | nameAndType | dynamic =>
      obtain ⟨_, _, h⟩ := bind_eq_ok_iff.mp h
      obtain ⟨_, _, h⟩ := bind_eq_ok_iff.mp h
      cases h
    | _ => cases h
  · intro h
    obtain ⟨c, hentry, hview⟩ := bind_eq_ok_iff.mp h
    refine bind_eq_ok_iff.mpr ⟨c, hentry, ?_⟩
    cases c with
    | text value =>
      cases hview
      rfl
    | _ => cases hview

/-- The view of dynamic entries of a kind shows what they hold. -/
theorem dynamic_eq_ok_iff {kind : DynamicKind} {place n : UInt16} :
    pool.dynamic kind i = .ok (place, n) ↔ pool.entry i = .ok (.dynamic kind place n) := by
  constructor
  · intro h
    obtain ⟨c, hentry, hview⟩ := bind_eq_ok_iff.mp h
    rw [hentry]
    cases c with
    | dynamic kind' place' n' =>
      by_cases hkind : kind' = kind
      · simp only [if_pos hkind] at hview
        cases hview
        rw [hkind]
      · simp only [if_neg hkind] at hview
        cases hview
    | _ => cases hview
  · exact fun h => expect_of_entry h (if_pos rfl)

/-- What resolves to a constant or call site is dynamic, with the same place. -/
theorem exists_dynamic_of_resolve {kind : DynamicKind} {place : UInt16} {name descriptor : String}
    (h : pool.resolve i = .ok (.dynamic kind place name descriptor)) :
    ∃ n, pool.dynamic kind i = .ok (place, n) := by
  obtain ⟨c, hentry, h⟩ := bind_eq_ok_iff.mp h
  cases c with
  | dynamic kind' place' n =>
    obtain ⟨_, _, h⟩ := bind_eq_ok_iff.mp h
    obtain ⟨_, _, h⟩ := bind_eq_ok_iff.mp h
    cases h
    exact ⟨n, dynamic_eq_ok_iff.mpr hentry⟩
  | symbol | member | methodHandle =>
    obtain ⟨_, _, h⟩ := bind_eq_ok_iff.mp h
    cases h
  | nameAndType =>
    obtain ⟨_, _, h⟩ := bind_eq_ok_iff.mp h
    obtain ⟨_, _, h⟩ := bind_eq_ok_iff.mp h
    cases h
  | _ => cases h

/-- The loadable constant at an index is what the index resolves to, if a
bootstrap method may receive it. -/
theorem loadable_eq_ok_iff {c : LoadableConstant} :
    pool.loadable i = .ok c ↔ ∃ r, pool.resolve i = .ok r ∧ r.loadable? = some c := by
  unfold loadable resolve
  cases hentry : pool.entry i with
  | error e => simp [error_bind]
  | ok found =>
    rw [ok_bind, ok_bind]
    cases found with
    | symbol kind t =>
      cases htext : pool.text t <;> cases kind <;>
        simp [htext, throw_eq_error, ResolvedConstant.loadable?]
    | member kind c n =>
      cases pool.member i <;>
        simp [ok_bind, error_bind, pure_eq_ok, throw_eq_error, ResolvedConstant.loadable?]
    | nameAndType n d =>
      cases pool.nameOf i <;> cases pool.descriptorOf i <;>
        simp [ok_bind, error_bind, pure_eq_ok, throw_eq_error, ResolvedConstant.loadable?]
    | methodHandle code reference =>
      have hhandle : pool.methodHandle i = .ok (code, reference) := expect_of_entry hentry rfl
      simp only [resolveHandle, handleKind, handleReference, hhandle, ok_bind, pure_eq_ok]
      cases hmember : pool.member reference with
      | error e =>
        cases HandleKind.ofCode? code <;> simp [ok_bind, error_bind, throw_eq_error]
      | ok m =>
        cases hkind : HandleKind.ofCode? code with
        | none => simp [error_bind, ok_bind, throw_eq_error, hkind, ResolvedConstant.loadable?]
        | some kind =>
          by_cases haccepts : kind.accepts m.kind <;>
            simp [haccepts, hkind, ok_bind, throw_eq_error, ResolvedConstant.loadable?]
    | dynamic kind bootstrap n =>
      cases kind with
      | callSite =>
        cases hname : pool.nameOf n <;> cases hdescriptor : pool.descriptorOf n <;>
          simp [hname, hdescriptor, ok_bind, error_bind, pure_eq_ok, throw_eq_error,
            ResolvedConstant.loadable?]
      | constant =>
        have hdynamic : pool.dynamic .constant i = .ok (bootstrap, n) :=
          expect_of_entry hentry (if_pos rfl)
        simp only [dynamicName, dynamicDescriptor, hdynamic, ok_bind]
        cases pool.nameOf n <;> cases pool.descriptorOf n <;>
          simp [ok_bind, error_bind, pure_eq_ok, ResolvedConstant.loadable?]
    | _ => simp [pure_eq_ok, throw_eq_error, ResolvedConstant.loadable?]

end ConstantPool

end JvmClass
