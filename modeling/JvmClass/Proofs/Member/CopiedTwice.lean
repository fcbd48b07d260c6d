import JvmClass.Member.Method
import JvmClass.Proofs.Attribute.Copying
import JvmClass.Proofs.Descriptor.Composition

/-!
# Copies of copies

A copy only uses what its source resolves to: it stores the renamed constant, with the
few entries that it refers to. So copying a copy stores the constant renamed twice, and
if two renamings can be joined to one, it does to any pool what copying the original
does, to the last entry. Only the joined renaming remembers the pool in between.
-/

namespace JvmClass

open ConstantPool

/-! ## Copies as stored constants -/

namespace ConstantPool

/-- Store a constant with all that it refers to, and give its index. -/
def store : ResolvedConstant → Edit ConstantPool UInt16
  | .text value => internText value
  | .integer value => intern (.integer value)
  | .float bits => intern (.float bits)
  | .long value => intern (.long value)
  | .double bits => intern (.double bits)
  | .symbol kind text => internSymbol kind text
  | .member kind className name descriptor => internMember kind className name descriptor
  | .nameAndType name descriptor => internNameAndType name descriptor
  | .methodHandle code kind className name descriptor => do
    intern (.methodHandle code (← internMember kind className name descriptor))
  | .dynamic kind bootstrap name descriptor => do
    intern (.dynamic kind bootstrap (← internNameAndType name descriptor))

section Store

variable {source : ConstantPool} (names : Renaming) {i : UInt16}

/-- Copying a class stores its new name. -/
theorem copyClass_eq {name : String} (h : source.className i = .ok name) :
    source.copyClass names i = internClass (names.className name) := by
  unfold copyClass
  rw [h]
  exact Edit.lift_ok_bind ..

/-- Copying a name with descriptor stores the name with the renamed descriptor. -/
theorem copyNameAndType_eq {name descriptor : String} (hname : source.nameOf i = .ok name)
    (hdescriptor : source.descriptorOf i = .ok descriptor) :
    source.copyNameAndType names i = internNameAndType name (names.descriptor descriptor) := by
  obtain ⟨⟨n, d⟩, hpair, hname⟩ := bind_eq_ok_iff.mp hname
  obtain ⟨pair, hpair', hdescriptor⟩ := bind_eq_ok_iff.mp hdescriptor
  cases hpair.symm.trans hpair'
  unfold copyNameAndType
  rw [hpair, Edit.lift_ok_bind]
  dsimp only at hname hdescriptor ⊢
  rw [hname, Edit.lift_ok_bind, hdescriptor, Edit.lift_ok_bind]

/-- Copying a member stores it with its names renamed. -/
theorem copyMember_eq {m : MemberRef} (h : source.member i = .ok m) :
    source.copyMember names i =
      internMember m.kind (names.className m.className) m.name (names.descriptor m.descriptor) := by
  obtain ⟨⟨kind, c, n⟩, hindices, h⟩ := bind_eq_ok_iff.mp h
  obtain ⟨className, hclass, h⟩ := bind_eq_ok_iff.mp h
  obtain ⟨name, hname, h⟩ := bind_eq_ok_iff.mp h
  obtain ⟨descriptor, hdescriptor, h⟩ := bind_eq_ok_iff.mp h
  cases h
  unfold copyMember internMember
  rw [hindices, Edit.lift_ok_bind]
  dsimp only at hclass hname hdescriptor ⊢
  rw [copyClass_eq names hclass, copyNameAndType_eq names hname hdescriptor]

/-- Copying an entry stores what it resolves to, renamed. -/
theorem copy_eq_store (hi : i ≠ 0) {r : ResolvedConstant} (h : source.resolve i = .ok r) :
    source.copy names i = store (r.rename names) := by
  obtain ⟨c, hentry, h⟩ := bind_eq_ok_iff.mp h
  unfold copy
  rw [if_neg hi, hentry, Edit.lift_ok_bind]
  cases c with
  | symbol kind t =>
    obtain ⟨s, htext, h⟩ := bind_eq_ok_iff.mp h
    cases h
    rw [rename_symbol]
    dsimp only
    rw [htext, Edit.lift_ok_bind]
    rfl
  | member kind c n =>
    obtain ⟨m, hmember, h⟩ := bind_eq_ok_iff.mp h
    cases h
    exact copyMember_eq names hmember
  | nameAndType n d =>
    obtain ⟨name, hname, h⟩ := bind_eq_ok_iff.mp h
    obtain ⟨descriptor, hdescriptor, h⟩ := bind_eq_ok_iff.mp h
    cases h
    exact copyNameAndType_eq names hname hdescriptor
  | methodHandle code reference =>
    obtain ⟨m, hmember, h⟩ := bind_eq_ok_iff.mp h
    cases h
    dsimp only
    rw [copyMember_eq names hmember]
    rfl
  | dynamic kind bootstrap n =>
    obtain ⟨name, hname, h⟩ := bind_eq_ok_iff.mp h
    obtain ⟨descriptor, hdescriptor, h⟩ := bind_eq_ok_iff.mp h
    cases h
    dsimp only
    rw [copyNameAndType_eq names hname hdescriptor]
    rfl
  | _ =>
    cases h
    rfl

end Store

/-- No constant is at index zero. -/
theorem Consistent.ne_zero_of_resolve {pool : ConstantPool} (hpool : Consistent pool) {i : UInt16}
    {r : ResolvedConstant} (h : pool.resolve i = .ok r) : i ≠ 0 := by
  rintro rfl
  obtain ⟨c, hentry, -⟩ := bind_eq_ok_iff.mp h
  obtain ⟨stored, hslots⟩ := hpool.slots
  have hfirst := entry_eq_ok_iff.mp hentry
  rw [← Array.getElem?_toList, hslots] at hfirst
  cases hfirst

end ConstantPool

/-! ## Renamings that can be joined -/

namespace Renaming

/-- Whether two renamings, one after the other, rename texts and class entries as a
third one does. -/
structure JoinTo (f g h : Renaming) : Prop where
  /-- Texts are renamed as by the third. -/
  descriptor : ∀ text, g.descriptor (f.descriptor text) = h.descriptor text
  /-- Class entries are renamed as by the third. -/
  className : ∀ name, g.className (f.className name) = h.className name

variable {f g h : Renaming}

/-- A resolved constant that is renamed twice is renamed as by the third renaming. -/
theorem JoinTo.rename (joins : JoinTo f g h) (r : ResolvedConstant) :
    (r.rename f).rename g = r.rename h := by
  cases r with
  | symbol kind text =>
    cases kind with
    | classInfo => exact congrArg _ (joins.className text)
    | methodType => exact congrArg _ (joins.descriptor text)
    | _ => rfl
  | member kind className name descriptor =>
    simp only [ResolvedConstant.rename, joins.className, joins.descriptor]
  | nameAndType name descriptor => simp only [ResolvedConstant.rename, joins.descriptor]
  | methodHandle code kind className name descriptor =>
    simp only [ResolvedConstant.rename, joins.className, joins.descriptor]
  | dynamic kind bootstrap name descriptor =>
    simp only [ResolvedConstant.rename, joins.descriptor]
  | _ => rfl

variable {source dest between later : ConstantPool}

/-- Copying the copy of an entry does what copying the entry does. -/
theorem JoinTo.copy_eq (joins : JoinTo f g h) (hdest : Consistent dest) {i j : UInt16}
    (hcopy : (source.copy f i).runOn dest = (.ok j, between)) (hlater : Grows between later) :
    later.copy g j = source.copy h i := by
  have hgrows := ((onlyAdds_copy source f i).grows_of_eq hcopy).trans hlater
  have hrenumbered := ((lasting_copy source f i).holds hdest hcopy hlater).1
  unfold Renumbered at hrenumbered
  by_cases hi : i = 0
  · rw [if_pos hi] at hrenumbered
    unfold copy
    rw [if_pos hrenumbered, if_pos hi]
  · rw [if_neg hi] at hrenumbered
    obtain ⟨r, hresolved, hcopied⟩ := hrenumbered
    have hj : j ≠ 0 := (hgrows.consistent hdest).ne_zero_of_resolve hcopied
    rw [copy_eq_store g hj hcopied, copy_eq_store h hi hresolved, joins.rename]

/-- An index that is renumbered twice is renumbered as by the third renaming. -/
theorem JoinTo.renumbered (joins : JoinTo f g h) (hbetween : Consistent between)
    {i j k : UInt16} (first : source.Renumbered f between i j)
    (second : between.Renumbered g later j k) : source.Renumbered h later i k := by
  unfold Renumbered at first second ⊢
  by_cases hi : i = 0
  · rw [if_pos hi] at first ⊢
    exact (if_pos first).mp second
  · rw [if_neg hi] at first ⊢
    obtain ⟨r, hresolved, hcopied⟩ := first
    rw [if_neg (hbetween.ne_zero_of_resolve hcopied)] at second
    obtain ⟨r', hresolved', hcopied'⟩ := second
    cases hcopied.symm.trans hresolved'
    exact ⟨r, hresolved, joins.rename r ▸ hcopied'⟩

end Renaming

/-! ## Copied methods -/

section Exceptions

variable {source : ConstantPool} {names : Renaming} {pool : ConstantPool}

/-- A copied attribute is of the same kind. -/
theorem Attribute.kind_of_copyOf {a b : Attribute} (copied : CopyOf source names pool a b) :
    b.kind = a.kind := by
  have hbody := copied.body
  unfold kind
  cases ha : a.body with
  | code body =>
    rw [ha] at hbody
    exact hbody
  | data old =>
    cases hb : b.body with
    | code body =>
      rw [ha, hb] at hbody
      exact hbody
    | data new =>
      rw [ha, hb] at hbody
      exact AttributeData.kind_of_copyOf hbody

/-- An attribute of the kind of exceptions holds exceptions. -/
theorem Attribute.exists_exceptions {a : Attribute} (h : a.kind = .exceptions) :
    ∃ classes, a.body = .data (.exceptions classes) := by
  obtain ⟨nameIndex, body⟩ := a
  cases body with
  | code body => cases h
  | data payload =>
    cases payload with
    | exceptions classes => exact ⟨classes, rfl⟩
    | _ => cases h

end Exceptions

namespace Method

/-- A copied method has the flags of the original, its own name, the renamed
descriptor and the renamed exceptions. Nothing is said here of its body. -/
structure CopyOf (source : ConstantPool) (names : Renaming) (name : String) (pool : ConstantPool)
    (old new : Method) : Prop where
  /-- The flags are the same. -/
  flags : new.flags = old.flags
  /-- The name is the one that was asked for. -/
  name : new.name pool = .ok name
  /-- The descriptor is renamed. -/
  descriptor : ∃ d, old.descriptor source = .ok d ∧ new.descriptor pool = .ok (names.descriptor d)
  /-- The exceptions are renumbered, if there is a list of them. -/
  exceptions : Option.Rel (List.Forall₂ (source.Renumbered names pool)) old.exceptions?
    new.exceptions?

variable {source : ConstantPool} {names : Renaming}

/-- The exceptions of a method with copied attributes are those that were copied. -/
theorem exceptions_of_copyOf {pool : ConstantPool} {m : Method} {exceptions code : List Attribute}
    {copy : Method} (hcopy : copy.attributes = some (exceptions ++ code))
    (hexceptions : List.Forall₂ (Attribute.CopyOf source names pool)
      (m.attribute? .exceptions).toList exceptions)
    (hcode : List.Forall₂ (Attribute.CopyOf source names pool) (m.attribute? .code).toList code) :
    Option.Rel (List.Forall₂ (source.Renumbered names pool)) m.exceptions? copy.exceptions? := by
  have hlist : copy.attributeList = exceptions ++ code := by
    rw [attributeList, hcopy, Option.getD_some]
  unfold exceptions?
  cases hfound : m.attribute? .exceptions with
  | none =>
    rw [hfound] at hexceptions
    cases hexceptions
    have horiginals : List.Forall₂ (flip (Attribute.CopyOf source names pool)) code
        (m.attribute? .code).toList := hcode.flip
    have hnone : copy.attribute? .exceptions = none := by
      rw [attribute?, hlist, List.nil_append]
      refine List.find?_eq_none.mpr fun b hb => ?_
      obtain ⟨a, ha, hcopied⟩ := exists_mem_of_forall₂ horiginals hb
      have hkind : a.kind = .code := by simpa using List.find?_some (Option.mem_toList.mp ha)
      rw [Attribute.kind_of_copyOf hcopied, hkind]
      decide
    rw [hnone]
    exact .none
  | some a =>
    rw [hfound] at hexceptions
    obtain ⟨b, rest, hcopied, hrest, rfl⟩ := List.forall₂_cons_left_iff.mp hexceptions
    have hkind : a.kind = .exceptions := by simpa using List.find?_some hfound
    have hkind' := (Attribute.kind_of_copyOf hcopied).trans hkind
    have hfound' : copy.attribute? .exceptions = some b := by
      rw [attribute?, hlist, Attribute.findByKind?, List.cons_append, List.find?_cons_of_pos]
      exact decide_eq_true hkind'
    obtain ⟨old, hold⟩ := Attribute.exists_exceptions hkind
    obtain ⟨new, hnew⟩ := Attribute.exists_exceptions hkind'
    have hbody := hcopied.body
    rw [hold, hnew] at hbody
    rw [hfound']
    simp only [Option.map_some, hold, hnew]
    exact .some hbody

/-- A method is copied for good. -/
theorem lasting_copy (source : ConstantPool) (names : Renaming) (m : Method) (name : String) :
    Lasting (m.copy source names name) (CopyOf source names name · m) := by
  have hall (list : List Attribute) :=
    lasting_mapM fun a (_ : a ∈ list) => lasting_copyAttribute source names a
  refine (lasting_lift _).bind fun descriptor => ?_
  refine (hall _).bind fun exceptions => (hall _).bind fun code => ?_
  refine (lasting_internText name).bind fun nameIndex => ?_
  refine (lasting_internText _).bind fun descriptorIndex => lasting_pure fun pool => ?_
  intro hdescriptorIndex hnameIndex hcode hexceptions hdescriptor
  exact ⟨rfl, hnameIndex, ⟨descriptor, hdescriptor, hdescriptorIndex⟩,
    exceptions_of_copyOf rfl hexceptions hcode⟩

/-- A method without attributes is copied by storing its new name and its renamed
descriptor. -/
theorem runOn_copy_of_bare {m : Method} {name d : String} {dest between last : ConstantPool}
    {i j : UInt16} (hbare : m.attributeList = []) (hd : m.descriptor source = .ok d)
    (hname : (internText name).runOn dest = (.ok i, between))
    (hdescriptor : (internText (names.descriptor d)).runOn between = (.ok j, last)) :
    (m.copy source names name).runOn dest =
      (.ok { flags := m.flags, nameIndex := i, descriptorIndex := j, attributes := some [] },
        last) := by
  have hnone : ∀ kind, (m.attribute? kind).toList = [] := by
    intro kind
    rw [attribute?, hbare]
    rfl
  unfold copy
  rw [hnone, hnone]
  refine (Edit.runOn_lift_bind_eq_ok_iff _).mpr ⟨d, hd, ?_⟩
  refine (Edit.runOn_bind_eq_ok_iff _).mpr ⟨[], dest, rfl, ?_⟩
  refine (Edit.runOn_bind_eq_ok_iff _).mpr ⟨[], dest, rfl, ?_⟩
  refine (Edit.runOn_bind_eq_ok_iff _).mpr ⟨i, between, hname, ?_⟩
  exact (Edit.runOn_bind_eq_ok_iff _).mpr ⟨j, last, hdescriptor, rfl⟩

/-- A copy of a copy is a copy under the joined renaming. -/
theorem CopyOf.trans {f g h : Renaming} (joins : Renaming.JoinTo f g h)
    {between later : ConstantPool} (hbetween : Consistent between) {old middle new : Method}
    {name name' : String} (first : CopyOf source f name between old middle)
    (second : CopyOf between g name' later middle new) : CopyOf source h name' later old new := by
  refine ⟨second.flags.trans first.flags, second.name, ?_, ?_⟩
  · obtain ⟨d, hold, hmiddle⟩ := first.descriptor
    obtain ⟨d', hmiddle', hnew⟩ := second.descriptor
    cases hmiddle.symm.trans hmiddle'
    exact ⟨d, hold, joins.descriptor d ▸ hnew⟩
  · have hfirst := first.exceptions
    have hsecond := second.exceptions
    revert hfirst hsecond
    generalize old.exceptions? = a, middle.exceptions? = b, new.exceptions? = c
    intro hfirst hsecond
    cases hfirst with
    | none =>
      cases hsecond
      exact .none
    | some hab =>
      cases hsecond with
      | some hbc =>
        exact .some (forall₂_trans hab hbc fun _ _ _ hij hjk => joins.renumbered hbetween hij hjk)

end Method

/-! ## Maps of class names -/

namespace Renaming

/-- Maps whose renamings follow one another join to every map that renames as both,
unless a new name of the first one has an end in it or is an array descriptor. -/
theorem joinTo_ofMap {f g h : Std.HashMap String String}
    (hjoined : ∀ name, ofMap h name = ofMap g (ofMap f name))
    (hends : ∀ old new : String, f[old]? = some new → ';' ∉ new.toList)
    (harrays : ∀ old new : String, f[old]? = some new → new.toList.head? ≠ some '[') :
    JoinTo (ofMap f) (ofMap g) (ofMap h) := by
  have hcomp : ofMap g ∘ ofMap f = ofMap h := funext fun name => (hjoined name).symm
  refine ⟨fun text => ?_, fun name => ?_⟩
  · rw [← hcomp]
    exact descriptor_descriptor (fun _ => ofMap_keeps hends) text
  · rw [← hcomp]
    exact className_className (fun _ => ofMap_keeps hends) (fun _ => ofMap_keeps harrays) name

/-- Renaming by one map and then by another is renaming by a map that has the new
names of the new names. For texts of any form it is enough that no new name of the
first map has an end of a name in it. If moreover none of them is an array descriptor,
the same holds for class entries, whether they name an array or not. Then copying the
copy of an entry does to every pool what copying the entry does, whatever else the pool
in between has been given since, and the copy of a copied method is a copy of the
method. -/
theorem renamed_twice {f g h : Std.HashMap String String}
    (hjoined : ∀ name, ofMap h name = ofMap g (ofMap f name))
    (hends : ∀ old new : String, f[old]? = some new → ';' ∉ new.toList) :
    (∀ text, (ofMap g).descriptor ((ofMap f).descriptor text) = (ofMap h).descriptor text) ∧
      ((∀ old new : String, f[old]? = some new → new.toList.head? ≠ some '[') →
        (∀ name, (ofMap g).className ((ofMap f).className name) = (ofMap h).className name) ∧
        ∀ (wasRead : Bool) (source dest between later : ConstantPool), Reachable wasRead dest →
          Grows between later →
          (∀ i j, (source.copy (ofMap f) i).runOn dest = (.ok j, between) →
            later.copy (ofMap g) j = source.copy (ofMap h) i) ∧
          ∀ (m copied copiedTwice : Method) (name name' : String) (anyRead : Bool)
            (other last : ConstantPool), Reachable anyRead other →
            (m.copy source (ofMap f) name).runOn dest = (.ok copied, between) →
            (copied.copy later (ofMap g) name').runOn other = (.ok copiedTwice, last) →
            Method.CopyOf source (ofMap h) name' last m copiedTwice) := by
  have hcomp : ofMap g ∘ ofMap f = ofMap h := funext fun name => (hjoined name).symm
  refine ⟨fun text => ?_, fun harrays => ?_⟩
  · rw [← hcomp]
    exact descriptor_descriptor (fun _ => ofMap_keeps hends) text
  have joins := joinTo_ofMap hjoined hends harrays
  refine ⟨joins.className, fun wasRead source dest between later hdest hlater => ⟨?_, ?_⟩⟩
  · exact fun i j hcopy => joins.copy_eq hdest.consistent hcopy hlater
  · intro m copied copiedTwice name name' anyRead other last hother hfirst hsecond
    have hgrows := (Method.lasting_copy source (ofMap f) m name).adds.grows_of_eq hfirst
    have first := (Method.lasting_copy source (ofMap f) m name).holds hdest.consistent hfirst hlater
    have second := (Method.lasting_copy later (ofMap g) copied name').holds hother.consistent
      hsecond .refl
    exact first.trans joins ((hgrows.trans hlater).consistent hdest.consistent) second

/-- A map with one class. -/
def ofOne (old new : String) : Std.HashMap String String :=
  (∅ : Std.HashMap String String).insert old new

/-- A map with one class renames that class only. -/
theorem ofMap_ofOne (old new : String) :
    ofMap (ofOne old new) = fun name => if name = old then new else name := by
  funext name
  by_cases hname : name = old
  · simp [ofMap, ofOne, hname]
  · simp [ofMap, ofOne, Std.HashMap.getD_insert, hname, Ne.symm hname]

/-- The new name in a map with one class. -/
theorem eq_of_getElem?_ofOne {old new name found : String}
    (h : (ofOne old new)[name]? = some found) : found = new := by
  rw [ofOne, Std.HashMap.getElem?_insert] at h
  split at h
  · cases h
    rfl
  · simp at h

/-- A method with the name and the descriptor of the field of the class `C`. -/
def bareMethod : Method :=
  { flags := .none, nameIndex := 3, descriptorIndex := 4, attributes := none }

/-- Copied along with the class, the method has the name and the descriptor of the
field of `D`. -/
theorem runOn_copy_bareMethod :
    (bareMethod.copy handlePool (ofMap (ofOne "C" "D")) "f").runOn fieldPool =
      (.ok { flags := .none, nameIndex := 2, descriptorIndex := 3, attributes := some [] },
        fieldPool) := by
  have hplaces : IsFirst fieldPool.slots (.text "f") (2 : UInt16).toNat ∧
      IsFirst fieldPool.slots (.text "LD;") (3 : UInt16).toNat := by
    unfold IsFirst
    decide +kernel
  have hpool := reachable_fieldPool.consistent
  have hrenamed : (ofMap (ofOne "C" "D")).descriptor "LC;" = "LD;" := by
    rw [ofMap_ofOne]
    decide +kernel
  have hdescriptor : bareMethod.descriptor handlePool = .ok "LC;" := by decide +kernel
  refine Method.runOn_copy_of_bare rfl hdescriptor (runOn_intern_of_isFirst hpool hplaces.1) ?_
  rw [hrenamed]
  exact runOn_intern_of_isFirst hpool hplaces.2

/-- Copied on, the method has a new descriptor. -/
theorem runOn_copy_copiedMethod :
    (Method.copy { flags := .none, nameIndex := 2, descriptorIndex := 3, attributes := some [] }
      fieldPool (ofMap (ofOne "D" "x/L")) "f").runOn fieldPool =
      (.ok { flags := .none, nameIndex := 2, descriptorIndex := 8, attributes := some [] },
        fieldPool.push (.text "Lx/L;")) := by
  have hname : IsFirst fieldPool.slots (.text "f") (2 : UInt16).toNat := by
    unfold IsFirst
    decide +kernel
  have hnew : some (Constant.text "Lx/L;") ∉ fieldPool.slots := by decide +kernel
  have hroom : fieldPool.size + (Constant.text "Lx/L;").slots ≤ 65535 := by decide +kernel
  have hpool := reachable_fieldPool.consistent
  have hrenamed : (ofMap (ofOne "D" "x/L")).descriptor "LD;" = "Lx/L;" := by
    rw [ofMap_ofOne]
    decide +kernel
  have hdescriptor : fieldPool.text 3 = .ok "LD;" := by decide +kernel
  refine Method.runOn_copy_of_bare rfl hdescriptor (runOn_intern_of_isFirst hpool hname) ?_
  rw [hrenamed]
  exact runOn_intern_of_not_mem hpool hnew hroom

/-- A class `C` becomes `D` on the way and `x/L` in the end, in a text whose last name
is cut short and in the type of an array. The field in between is copied as the original
field is, and a method that went the same way is a copy of the method. -/
theorem renamed_twice_field :
    let f := ofOne "C" "D"
    let g := ofOne "D" "x/L"
    ((∀ name, ofMap (joined f g) name = ofMap g (ofMap f name)) ∧
      (∀ old new : String, f[old]? = some new → ';' ∉ new.toList) ∧
      (∀ old new : String, f[old]? = some new → new.toList.head? ≠ some '[') ∧
      Reachable true fieldPool ∧
      (handlePool.copy (ofMap f) 6).runOn fieldPool = (.ok 7, fieldPool)) ∧
      (ofMap f).descriptor "LC;LC" = "LD;LC" ∧
      (ofMap (joined f g)).descriptor "LC;LC" = "Lx/L;LC" ∧
      (ofMap (joined f g)).className "[LC;" = "[Lx/L;" ∧
      fieldPool.copy (ofMap g) 7 = handlePool.copy (ofMap (joined f g)) 6 ∧
      Method.CopyOf handlePool (ofMap (joined f g)) "f" (fieldPool.push (.text "Lx/L;"))
        bareMethod
        { flags := .none, nameIndex := 2, descriptorIndex := 8, attributes := some [] } := by
  intro f g
  have hjoined : ∀ name, ofMap (joined f g) name = ofMap g (ofMap f name) :=
    congrFun (ofMap_joined f g)
  have hends : ∀ old new : String, f[old]? = some new → ';' ∉ new.toList := by
    intro old new hnew
    rw [eq_of_getElem?_ofOne hnew]
    decide
  have harrays : ∀ old new : String, f[old]? = some new → new.toList.head? ≠ some '[' := by
    intro old new hnew
    rw [eq_of_getElem?_ofOne hnew]
    decide
  have hf : ofMap f = renameC := ofMap_ofOne "C" "D"
  have hg : ofMap g = fun name => if name = "D" then "x/L" else name := ofMap_ofOne "D" "x/L"
  have hcopy : (handlePool.copy (ofMap f) 6).runOn fieldPool = (.ok 7, fieldPool) := by
    rw [hf]
    exact (Edit.runOn_lift_bind_eq_ok_iff _).mpr
      ⟨.member .field 2 5, by decide +kernel, copyMember_handlePool⟩
  obtain ⟨htexts, hrest⟩ := renamed_twice hjoined hends
  obtain ⟨hclasses, hcopies⟩ := hrest harrays
  obtain ⟨hentries, hmethods⟩ := hcopies true handlePool fieldPool fieldPool fieldPool
    reachable_fieldPool .refl
  have hmethod := hmethods bareMethod _ _ "f" "f" true fieldPool _ reachable_fieldPool
    runOn_copy_bareMethod runOn_copy_copiedMethod
  refine ⟨⟨hjoined, hends, harrays, reachable_fieldPool, hcopy⟩, ?_, ?_, ?_, hentries 6 7 hcopy,
    hmethod⟩
  · rw [hf]
    decide +kernel
  · rw [← htexts, hf, hg]
    decide +kernel
  · rw [← hclasses, hf, hg]
    decide +kernel

end Renaming

end JvmClass
