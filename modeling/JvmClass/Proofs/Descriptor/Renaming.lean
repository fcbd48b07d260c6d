import JvmClass.Descriptor.Renaming
import JvmClass.Proofs.Descriptor.Text
import Mathlib.Data.List.Forall2
import Std.Data.HashMap.Lemmas

/-!
# Renaming the text of a type

Renaming a text looks for class names without parsing it. On the text of a type it
finds exactly the names of the type: the letters of primitive types, the marks of
arrays and methods and the result that is none never open a name, and a name ends at
the first `;` because it has none in it. So the renamed text is that of the renamed
type. If all new names are class names, it is parsed again, to a type of the same
shape.
-/

namespace JvmClass

/-! ## Renamed types -/

namespace Descriptor

variable (names : Renaming) {d : Descriptor}

/-- Several types are renamed one by one. -/
theorem renameAll_eq_map (ds : List Descriptor) : renameAll names ds = ds.map (rename names) := by
  induction ds with
  | nil => rfl
  | cons d ds ih => rw [renameAll, ih, List.map_cons]

/-- A result is renamed if there is one. -/
theorem renameResult_eq_map (result : Option Descriptor) :
    renameResult names result = result.map (rename names) := by
  cases result <;> rfl

@[simp] theorem rename_method (parameters : List Descriptor) (result : Option Descriptor) :
    (method parameters result).rename names =
      method (parameters.map (rename names)) (result.map (rename names)) := by
  rw [rename, renameAll_eq_map, renameResult_eq_map]

end Descriptor

/-! ## Scanning -/

namespace Renaming

variable (names : Renaming) {d : Descriptor}

/-- Characters outside a class name that open none are kept. -/
theorem scan_outside {cs : List Char} (h : 'L' ∉ cs) (done : String) (rest : List Char) :
    scan names done none (cs ++ rest) = scan names (done ++ String.ofList cs) none rest := by
  induction cs generalizing done with
  | nil => simp
  | cons c cs ih =>
    rw [List.mem_cons, not_or] at h
    have hkept : done.push c ++ String.ofList cs = done ++ String.ofList (c :: cs) := by
      simp [String.ext_iff]
    rw [List.cons_append, scan, if_neg (Ne.symm h.1), ih h.2, hkept]

/-- A class name is collected up to the mark that ends it, and looked up once. -/
theorem scan_within {cs : List Char} (h : ';' ∉ cs) (done : String) (before rest : List Char) :
    scan names done (some before) (cs ++ ';' :: rest) =
      scan names ((done ++ names (String.ofList (before.reverse ++ cs))).push ';') none rest := by
  induction cs generalizing before with
  | nil => simp [scan]
  | cons c cs ih =>
    rw [List.mem_cons, not_or] at h
    rw [List.cons_append, scan, if_neg (Ne.symm h.1), ih h.2]
    simp

/-- The name of a component is replaced, if it has one. -/
theorem scan_component (h : d.IsComponent) (done : String) (rest : List Char) :
    scan names done none (d.chars ++ rest) =
      scan names (done ++ String.ofList (d.rename names).chars) none rest := by
  cases d with
  | primitive p =>
    refine scan_outside names ?_ done rest
    rw [Descriptor.chars_primitive]
    cases p <;> decide
  | reference name =>
    have hname : (done.push 'L' ++ names name).push ';' =
        done ++ String.ofList ('L' :: ((names name).toList ++ [';'])) := by
      simp [String.ext_iff]
    rw [Descriptor.chars_reference, List.cons_append, List.append_assoc, scan, if_pos rfl,
      List.singleton_append, scan_within names h.2, List.reverse_nil, List.nil_append,
      String.ofList_toList, hname, Descriptor.rename, Descriptor.chars_reference]
  | array _ _ => exact h.elim
  | method _ _ => exact h.elim

/-- The marks of dimensions are kept. -/
theorem scan_field (h : d.IsField) (done : String) (rest : List Char) :
    scan names done none (d.chars ++ rest) =
      scan names (done ++ String.ofList (d.rename names).chars) none rest := by
  obtain hd | ⟨dimensions, component, rfl, -, hd⟩ := Descriptor.isField_iff.mp h
  · exact scan_component names hd done rest
  · have hmarks : 'L' ∉ List.replicate dimensions.toNat '[' := fun hmem =>
      absurd (List.eq_of_mem_replicate hmem) (by decide)
    rw [Descriptor.chars_array, List.append_assoc, scan_outside names hmarks,
      scan_component names hd, Descriptor.rename, Descriptor.chars_array, String.ofList_append,
      String.append_assoc]

/-- Field types are renamed one after the other. -/
theorem scan_fields {ds : List Descriptor} (h : ∀ d ∈ ds, d.IsField) (done : String)
    (rest : List Char) :
    scan names done none (ds.flatMap Descriptor.chars ++ rest) =
      scan names (done ++ String.ofList ((ds.map (Descriptor.rename names)).flatMap
        Descriptor.chars)) none rest := by
  induction ds generalizing done with
  | nil => simp
  | cons d ds ih =>
    obtain ⟨hd, hds⟩ := List.forall_mem_cons.mp h
    rw [List.flatMap_cons, List.append_assoc, scan_field names hd, ih hds, List.map_cons,
      List.flatMap_cons, String.ofList_append, String.append_assoc]

/-- A result is renamed, and none is kept. -/
theorem scan_result {result : Option Descriptor} (h : ∀ d ∈ result, d.IsField) (done : String)
    (rest : List Char) :
    scan names done none (Descriptor.resultChars result ++ rest) =
      scan names (done ++ String.ofList (Descriptor.resultChars
        (result.map (Descriptor.rename names)))) none rest := by
  cases result with
  | none => exact scan_outside names (by decide) done rest
  | some d => exact scan_field names (h d rfl) done rest

/-- The characters of a type are renamed to those of the renamed type. -/
theorem scan_canonical (h : d.IsCanonical) (done : String) (rest : List Char) :
    scan names done none (d.chars ++ rest) =
      scan names (done ++ String.ofList (d.rename names).chars) none rest := by
  obtain hd | ⟨parameters, result, rfl, hp, hr⟩ := Descriptor.isCanonical_iff.mp h
  · exact scan_field names hd done rest
  · have hopen := scan_outside names (show 'L' ∉ ['('] by decide) done
    have hclose := scan_outside names (show 'L' ∉ [')'] by decide)
    rw [Descriptor.rename_method, Descriptor.chars_method, Descriptor.chars_method]
    show scan names done none (['('] ++ (parameters.flatMap Descriptor.chars ++
      ([')'] ++ Descriptor.resultChars result)) ++ rest) = _
    rw [List.append_assoc, hopen, List.append_assoc, scan_fields names hp, List.append_assoc,
      hclose, scan_result names hr]
    congr 1
    simp [String.ext_iff]

/-- The text of a type is renamed to that of the renamed type. -/
theorem descriptor_text (h : d.IsCanonical) : names.descriptor d.text = (d.rename names).text := by
  have hscan := scan_canonical names h "" []
  rw [List.append_nil, scan, String.empty_append, Descriptor.chars, Descriptor.chars,
    String.ofList_toList] at hscan
  exact hscan

/-- Scanning changes nothing if every name is kept. -/
theorem scan_id (done : String) (name? : Option (List Char)) (rest : List Char) :
    scan id done name? rest = done ++ String.ofList ((name?.getD []).reverse ++ rest) := by
  induction rest generalizing done name? with
  | nil => cases name? <;> simp [scan]
  | cons c rest ih =>
    cases name? with
    | none =>
      rw [scan, ih]
      split <;> simp [String.ext_iff]
    | some name =>
      rw [scan]
      split
      · next hend => simp [ih, hend, String.ext_iff]
      · simp [ih]

/-- No text changes if every name is kept. -/
theorem descriptor_id (text : String) : descriptor id text = text := by
  unfold descriptor
  rw [scan_id]
  simp

end Renaming

/-! ## Parsing again -/

namespace Descriptor

variable {names : Renaming} {d : Descriptor}

/-- A renamed component is one if class names get class names. -/
theorem IsComponent.rename (hnames : ∀ name, IsClassName name → IsClassName (names name))
    (h : d.IsComponent) : (d.rename names).IsComponent := by
  cases d with
  | primitive p => exact trivial
  | reference name => exact hnames name h
  | array _ _ => exact h.elim
  | method _ _ => exact h.elim

/-- A renamed field type is one if class names get class names. -/
theorem IsField.rename (hnames : ∀ name, IsClassName name → IsClassName (names name))
    (h : d.IsField) : (d.rename names).IsField := by
  obtain hd | ⟨dimensions, component, rfl, hpos, hd⟩ := isField_iff.mp h
  · exact isField_iff.mpr (.inl (hd.rename hnames))
  · exact ⟨hpos, hd.rename hnames⟩

/-- A renamed type is canonical if class names get class names. -/
theorem IsCanonical.rename (hnames : ∀ name, IsClassName name → IsClassName (names name))
    (h : d.IsCanonical) : (d.rename names).IsCanonical := by
  obtain hd | ⟨parameters, result, rfl, hp, hr⟩ := isCanonical_iff.mp h
  · exact isCanonical_iff.mpr (.inl (hd.rename hnames))
  · rw [rename_method]
    refine ⟨List.forall_mem_map.mpr fun p hmem => (hp p hmem).rename hnames, fun r hmem => ?_⟩
    obtain ⟨r, hold, rfl⟩ := Option.map_eq_some_iff.mp hmem
    exact (hr r hold).rename hnames

/-- A text is parsed to a type exactly if it is that of the type and the type is
canonical. -/
theorem parse_eq_ok_iff {s : String} : parse s = .ok d ↔ d.IsCanonical ∧ d.text = s := by
  rw [← parse?_eq_some_iff, parse]
  cases parse? s <;> simp

/-- The dimensions of an array. Other types have none. -/
def dimensions : Descriptor → Nat
  | .array n _ => n.toNat
  | _ => 0

/-- Whether values of two types take as many slots and have as many dimensions. -/
def SameValue (d e : Descriptor) : Prop := d.slots = e.slots ∧ d.dimensions = e.dimensions

/-- The types of the parameters of a method. Other types have none. -/
def parameters (d : Descriptor) : List Descriptor := (d.method?.map Prod.fst).getD []

/-- The type of the result of a method, if it has one. -/
def result? (d : Descriptor) : Option Descriptor := d.method?.bind Prod.snd

/-- Whether two types are the same as far as slots and dimensions of their values can
tell. -/
structure SameShape (d e : Descriptor) : Prop where
  /-- Values of the types themselves are alike. -/
  value : SameValue d e
  /-- If one is that of a method, so is the other. -/
  isMethod : d.isMethod = e.isMethod
  /-- There are as many parameters. -/
  count : d.parameters.length = e.parameters.length
  /-- The parameters are alike, one by one. -/
  parameters : List.Forall₂ SameValue d.parameters e.parameters
  /-- The results are alike. -/
  result : Option.Rel SameValue d.result? e.result?

/-- Values of a renamed type are like those of the type. -/
theorem sameValue_rename (names : Renaming) (d : Descriptor) : SameValue d (d.rename names) := by
  cases d with
  | method parameters result =>
    rw [rename_method]
    exact ⟨rfl, rfl⟩
  | _ => exact ⟨rfl, rfl⟩

/-- A renamed type has the shape of the type. -/
theorem sameShape_rename (names : Renaming) (d : Descriptor) : SameShape d (d.rename names) := by
  cases d with
  | method ps r =>
    have hvalue := sameValue_rename names (method ps r)
    rw [rename_method] at hvalue ⊢
    refine ⟨hvalue, rfl, (List.length_map _).symm, ?_, ?_⟩
    · exact List.forall₂_map_right_iff.mpr (List.forall₂_same.mpr fun p _ => sameValue_rename names p)
    · cases r with
      | none => exact .none
      | some r => exact .some (sameValue_rename names r)
  | _ => exact ⟨sameValue_rename names _, rfl, rfl, .nil, .none⟩

end Descriptor

/-! ## Maps of class names -/

namespace Renaming

/-- The renaming that a map of new names by old name stands for. A name that is not in
the map is kept. -/
def ofMap (map : Std.HashMap String String) : Renaming := fun name => map.getD name name

variable {map : Std.HashMap String String}

/-- The renaming of an empty map keeps every name. -/
theorem ofMap_eq_id (h : map.isEmpty = true) : ofMap map = id := by
  funext name
  exact Std.HashMap.getD_of_isEmpty h

/-- A property of old and new names is kept by the renaming of a map if all new names
in the map have it. -/
theorem ofMap_keeps {p : String → Prop}
    (h : ∀ old new : String, map[old]? = some new → p new) {name : String} (hname : p name) :
    p (ofMap map name) := by
  unfold ofMap
  rw [Std.HashMap.getD_eq_getD_getElem?]
  cases hnew : map[name]? with
  | none => exact hname
  | some new => exact h name new hnew

/-- Class names get class names if all new names in the map are class names. -/
theorem isClassName_ofMap
    (h : ∀ old new : String, map[old]? = some new → Descriptor.IsClassName new) (name : String)
    (hname : Descriptor.IsClassName name) : Descriptor.IsClassName (ofMap map name) :=
  ofMap_keeps h hname

/-- The text of a type is renamed to the text of the renamed type, in which every
class name is looked up once; an empty map changes nothing. If all new names are
class names, the text is parsed again, to the renamed type, which has the shape of
the type. -/
theorem descriptor_of_parse {s : String} {d : Descriptor} (map : Std.HashMap String String)
    (h : Descriptor.parse s = .ok d) :
    (ofMap map).descriptor s = (d.rename (ofMap map)).text ∧
      (map.isEmpty = true → (ofMap map).descriptor s = s) ∧
      ((∀ old new : String, map[old]? = some new → new ≠ "" ∧ ';' ∉ new.toList) →
        Descriptor.parse ((ofMap map).descriptor s) = .ok (d.rename (ofMap map)) ∧
          d.SameShape (d.rename (ofMap map))) := by
  obtain ⟨hd, rfl⟩ := Descriptor.parse_eq_ok_iff.mp h
  have htext := descriptor_text (ofMap map) hd
  refine ⟨htext, fun hempty => ?_, fun hnew => ?_⟩
  · rw [ofMap_eq_id hempty, descriptor_id]
  · have hrenamed := hd.rename (isClassName_ofMap hnew)
    rw [htext]
    exact ⟨Descriptor.parse_eq_ok_iff.mpr ⟨hrenamed, rfl⟩,
      Descriptor.sameShape_rename (ofMap map) d⟩

/-- A map with one class. -/
def longMap : Std.HashMap String String := (∅ : Std.HashMap String String).insert "a/Long" "b/L"

/-- A method that takes and returns values of a class. -/
def longMethod (name : String) : Descriptor :=
  .method [.array 2 (.reference "LL"), .reference name, .primitive .long] (some (.reference name))

/-- A name that begins with an `L` is kept, and one that has an `L` within it is found
as a whole. -/
theorem descriptor_of_parse_long :
    (Descriptor.parse "([[LLL;La/Long;J)La/Long;" = .ok (longMethod "a/Long") ∧
      ∀ old new : String, longMap[old]? = some new → new ≠ "" ∧ ';' ∉ new.toList) ∧
      (ofMap longMap).descriptor "([[LLL;La/Long;J)La/Long;" = "([[LLL;Lb/L;J)Lb/L;" ∧
      Descriptor.parse "([[LLL;Lb/L;J)Lb/L;" = .ok (longMethod "b/L") := by
  have hparse : Descriptor.parse "([[LLL;La/Long;J)La/Long;" = .ok (longMethod "a/Long") := by rfl
  have hmap : ∀ old new : String, longMap[old]? = some new → new ≠ "" ∧ ';' ∉ new.toList := by
    intro old new hnew
    rw [longMap, Std.HashMap.getElem?_insert] at hnew
    split at hnew
    · cases hnew
      decide
    · simp at hnew
  have hkept : ofMap longMap "LL" = "LL" := by simp [ofMap, longMap, Std.HashMap.getD_insert]
  have hreplaced : ofMap longMap "a/Long" = "b/L" := by simp [ofMap, longMap]
  have hrenamed : (longMethod "a/Long").rename (ofMap longMap) = longMethod "b/L" := by
    simp [longMethod, Descriptor.rename, hkept, hreplaced]
  obtain ⟨htext, -, hagain⟩ := descriptor_of_parse longMap hparse
  obtain ⟨hparsed, -⟩ := hagain hmap
  rw [hrenamed] at htext hparsed
  have hresult : (longMethod "b/L").text = "([[LLL;Lb/L;J)Lb/L;" := by rfl
  rw [htext, hresult] at hparsed
  exact ⟨⟨hparse, hmap⟩, htext.trans hresult, hparsed⟩

end Renaming

end JvmClass
