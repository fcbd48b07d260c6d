import JvmClass.Descriptor.Text
import Mathlib.Data.List.TakeDrop

/-!
# Parsing inverts printing

Not every type has a text that is parsed. Those that do are the canonical ones,
and on them parsing and printing are inverse to one another. Each parser of the
grammar is described in one way: it takes a type from the front of the
characters exactly if the type is of its kind and its text stands there. That a
parser takes as much as it can never leads it astray, because the characters
that may follow a type begin no other one.
-/

namespace JvmClass.Descriptor

/-! ## The texts of types -/

/-- The characters of the text of a type. -/
def chars (d : Descriptor) : List Char := d.text.toList

/-- The characters of the text of a result. -/
def resultChars : Option Descriptor → List Char
  | none => ['V']
  | some d => d.chars

mutual

/-- The text of a type is appended to what there is. -/
theorem appendTo_eq (text : String) (d : Descriptor) :
    appendTo text d = text ++ appendTo "" d := by
  cases d with
  | primitive p => simp [appendTo]
  | reference name => simp [appendTo, String.ext_iff]
  | array dimensions component =>
    rw [appendTo, appendTo, appendTo_eq _ component, appendTo_eq ("" ++ _) component]
    simp [String.append_assoc]
  | method parameters result =>
    rw [appendTo, appendTo, appendResultTo_eq _ result, appendAllTo_eq _ parameters,
      appendResultTo_eq (String.push _ _) result, appendAllTo_eq (String.push "" _) parameters]
    simp [String.ext_iff]

/-- The texts of types are appended to what there is. -/
theorem appendAllTo_eq (text : String) (ds : List Descriptor) :
    appendAllTo text ds = text ++ appendAllTo "" ds := by
  cases ds with
  | nil => simp [appendAllTo]
  | cons d ds =>
    rw [appendAllTo, appendAllTo, appendAllTo_eq _ ds, appendTo_eq _ d,
      appendAllTo_eq (appendTo "" d) ds, String.append_assoc]

/-- The text of a result is appended to what there is. -/
theorem appendResultTo_eq (text : String) (result : Option Descriptor) :
    appendResultTo text result = text ++ appendResultTo "" result := by
  cases result with
  | none => simp [appendResultTo, String.ext_iff]
  | some d =>
    rw [appendResultTo, appendResultTo]
    exact appendTo_eq text d

end

@[simp] theorem chars_primitive (p : Primitive) : (primitive p).chars = [p.letter] := by
  simp [chars, text, appendTo]

@[simp] theorem chars_reference (name : String) :
    (reference name).chars = 'L' :: (name.toList ++ [';']) := by
  simp [chars, text, appendTo]

@[simp] theorem chars_array (dimensions : UInt8) (component : Descriptor) :
    (array dimensions component).chars =
      List.replicate dimensions.toNat '[' ++ component.chars := by
  unfold chars text
  rw [appendTo, appendTo_eq]
  simp

/-- The texts of types stand one behind the other. -/
theorem toList_appendAllTo (ds : List Descriptor) :
    (appendAllTo "" ds).toList = ds.flatMap chars := by
  induction ds with
  | nil => simp [appendAllTo]
  | cons d ds ih =>
    rw [appendAllTo, appendAllTo_eq, String.toList_append, ih, List.flatMap_cons]
    rfl

theorem toList_appendResultTo (result : Option Descriptor) :
    (appendResultTo "" result).toList = resultChars result := by
  cases result with
  | none => simp [appendResultTo, resultChars]
  | some d => rw [appendResultTo]; rfl

@[simp] theorem chars_method (parameters : List Descriptor) (result : Option Descriptor) :
    (method parameters result).chars =
      '(' :: (parameters.flatMap chars ++ ')' :: resultChars result) := by
  show (appendTo "" (method parameters result)).toList = _
  rw [appendTo, appendResultTo_eq, appendAllTo_eq]
  simp [toList_appendAllTo, toList_appendResultTo]

/-! ## Canonical types -/

/-- A class name that can be told from the marks around it. -/
def IsClassName (name : String) : Prop := name ≠ "" ∧ ';' ∉ name.toList

/-- Whether a type is primitive or a class, and so can have dimensions. -/
def IsComponent : Descriptor → Prop
  | .primitive _ => True
  | .reference name => IsClassName name
  | .array _ _ | .method _ _ => False

/-- Whether a type is one that a field can have. -/
def IsField : Descriptor → Prop
  | .array dimensions component => dimensions ≠ 0 ∧ component.IsComponent
  | d => d.IsComponent

/-- Whether a type is one that a field can have, or a method whose parameters and
result are such types. -/
def IsCanonical : Descriptor → Prop
  | .method parameters result => (∀ d ∈ parameters, d.IsField) ∧ ∀ d ∈ result, d.IsField
  | d => d.IsField

instance (name : String) : Decidable (IsClassName name) :=
  inferInstanceAs (Decidable (_ ∧ _))

instance : DecidablePred IsComponent
  | .primitive _ => .isTrue trivial
  | .reference name => inferInstanceAs (Decidable (IsClassName name))
  | .array _ _ | .method _ _ => .isFalse id

instance : DecidablePred IsField
  | .array dimensions component =>
    inferInstanceAs (Decidable (dimensions ≠ 0 ∧ component.IsComponent))
  | .primitive p => inferInstanceAs (Decidable (primitive p).IsComponent)
  | .reference name => inferInstanceAs (Decidable (reference name).IsComponent)
  | .method _ _ => .isFalse id

instance : DecidablePred IsCanonical
  | .method parameters result =>
    inferInstanceAs (Decidable ((∀ d ∈ parameters, d.IsField) ∧ ∀ d ∈ result, d.IsField))
  | .primitive p => inferInstanceAs (Decidable (primitive p).IsField)
  | .reference name => inferInstanceAs (Decidable (reference name).IsField)
  | .array dimensions component => inferInstanceAs (Decidable (array dimensions component).IsField)

/-- A field type is a component, or an array of components. -/
theorem isField_iff {d : Descriptor} :
    d.IsField ↔ d.IsComponent ∨
      ∃ dimensions component, d = .array dimensions component ∧ dimensions ≠ 0 ∧
        component.IsComponent := by
  cases d with
  | array dimensions component =>
    constructor
    · exact fun h => .inr ⟨dimensions, component, rfl, h⟩
    · rintro (h | ⟨_, _, heq, h⟩)
      · exact h.elim
      · cases heq
        exact h
  | _ => simp [IsField]

/-- A canonical type is a field type, or a method of field types. -/
theorem isCanonical_iff {d : Descriptor} :
    d.IsCanonical ↔ d.IsField ∨
      ∃ parameters result, d = .method parameters result ∧ (∀ p ∈ parameters, p.IsField) ∧
        ∀ r ∈ result, r.IsField := by
  cases d with
  | method parameters result =>
    constructor
    · exact fun h => .inr ⟨parameters, result, rfl, h⟩
    · rintro (h | ⟨_, _, heq, h⟩)
      · exact h.elim
      · cases heq
        exact h
  | _ => simp [IsCanonical]

/-- The first character of a component opens no array. -/
theorem IsComponent.exists_chars_eq {d : Descriptor} (h : d.IsComponent) :
    ∃ c later, d.chars = c :: later ∧ c ≠ '[' := by
  cases d with
  | primitive p => exact ⟨_, _, chars_primitive p, by cases p <;> decide⟩
  | reference name => exact ⟨_, _, chars_reference name, by decide⟩
  | array _ _ => exact h.elim
  | method _ _ => exact h.elim

/-! ## What the parsers take -/

/-- A run is as long as its characters allow exactly if the next one, if any, is
none of them. -/
theorem span_eq_iff {p : Char → Bool} {cs run rest : List Char} :
    cs.span p = (run, rest) ↔
      cs = run ++ rest ∧ (∀ c ∈ run, p c = true) ∧ ∀ c ∈ rest.head?, p c = false := by
  rw [List.span_eq_takeWhile_dropWhile, Prod.mk.injEq]
  constructor
  · rintro ⟨rfl, rfl⟩
    refine ⟨List.takeWhile_append_dropWhile.symm, ?_, fun c hc => ?_⟩
    · exact List.all_eq_true.mp List.all_takeWhile
    · have hfirst := List.head?_dropWhile_not p cs
      rw [hc] at hfirst
      exact hfirst
  · rintro ⟨rfl, hrun, hrest⟩
    rw [List.takeWhile_append_of_pos hrun, List.dropWhile_append_of_pos hrun]
    cases rest with
    | nil => simp
    | cons c rest => simp [hrest c rfl]

/-- A letter is that of its primitive type. -/
theorem eq_letter_of_ofLetter? {c : Char} {p : Primitive} (h : Primitive.ofLetter? c = some p) :
    c = p.letter := by
  unfold Primitive.ofLetter? at h
  split at h <;> cases h <;> rfl

/-- A component is taken from the front exactly if its text stands there. -/
theorem parseComponent?_eq_some_iff {cs rest : List Char} {d : Descriptor} :
    parseComponent? cs = some (d, rest) ↔ d.IsComponent ∧ cs = d.chars ++ rest := by
  constructor
  · intro h
    unfold parseComponent? at h
    split at h
    · cases h
    · next later =>
      split at h
      · next c name rest hspan =>
        cases h
        obtain ⟨hlater, hname, -⟩ := span_eq_iff.mp hspan
        refine ⟨⟨by simp, fun hmark => ?_⟩, by simp [hlater]⟩
        rw [String.toList_ofList] at hmark
        exact absurd (hname _ hmark) (by decide)
      · cases h
    · next c later _ =>
      obtain ⟨p, hp, hd⟩ := Option.map_eq_some_iff.mp h
      cases hd
      exact ⟨trivial, by rw [chars_primitive, eq_letter_of_ofLetter? hp]; rfl⟩
  · rintro ⟨hd, rfl⟩
    cases d with
    | primitive p => cases p <;> simp <;> rfl
    | reference name =>
      obtain ⟨hne, hmark⟩ := hd
      have hname : name.toList ≠ [] := by simpa using hne
      obtain ⟨c, later, hcons⟩ := List.exists_cons_of_ne_nil hname
      have hspan : (c :: (later ++ ';' :: rest)).span (· != ';') = (c :: later, ';' :: rest) := by
        refine span_eq_iff.mpr ⟨rfl, fun letter hletter => ?_, fun letter hletter => ?_⟩
        · exact bne_iff_ne.mpr fun heq => hmark (by rw [hcons, ← heq]; exact hletter)
        · cases hletter
          rfl
      simp only [chars_reference, hcons, List.cons_append, List.append_assoc, List.nil_append]
      unfold parseComponent?
      simp only [hspan]
      rw [← hcons, String.ofList_toList]
    | array _ _ => exact hd.elim
    | method _ _ => exact hd.elim

/-- Dimensions are put around a component. -/
theorem arrayOf_of_isComponent {d : Descriptor} (h : d.IsComponent) (dimensions : UInt8) :
    arrayOf dimensions d = .array dimensions d := by
  cases d with
  | primitive _ => rfl
  | reference _ => rfl
  | array _ _ => exact h.elim
  | method _ _ => exact h.elim

/-- The marks of dimensions are all there are before a component. -/
theorem span_replicate_append {component : Descriptor} (h : component.IsComponent)
    (dimensions : Nat) (rest : List Char) :
    (List.replicate dimensions '[' ++ (component.chars ++ rest)).span (· == '[') =
      (List.replicate dimensions '[', component.chars ++ rest) := by
  obtain ⟨c, later, hchars, hc⟩ := h.exists_chars_eq
  refine span_eq_iff.mpr ⟨rfl, fun mark hmark => ?_, fun mark hmark => ?_⟩
  · exact beq_iff_eq.mpr (List.eq_of_mem_replicate hmark)
  · rw [hchars] at hmark
    cases hmark
    exact beq_eq_false_iff_ne.mpr hc

/-- A component is taken with all marks of dimensions before it, if these are not
too many. -/
theorem parseField?_replicate_append {component : Descriptor} (h : component.IsComponent)
    (dimensions : Nat) (rest : List Char) :
    parseField? (List.replicate dimensions '[' ++ (component.chars ++ rest)) =
      if dimensions = 0 then some (component, rest)
      else if dimensions ≤ 255 then some (.array (UInt8.ofNat dimensions) component, rest)
      else none := by
  unfold parseField?
  rw [span_replicate_append h]
  simp only [List.length_replicate]
  rw [parseComponent?_eq_some_iff.mpr ⟨h, rfl⟩]
  cases dimensions with
  | zero => rfl
  | succ dimensions =>
    rw [if_neg (Nat.succ_ne_zero dimensions)]
    simp only [Option.map_some, arrayOf_of_isComponent h, Nat.succ_le_iff]

/-- Whatever is taken starts with marks of dimensions and a component. -/
theorem exists_of_parseField? {cs : List Char} {taken : Descriptor × List Char}
    (h : parseField? cs = some taken) :
    ∃ dimensions component rest, IsComponent component ∧
      cs = List.replicate dimensions '[' ++ (component.chars ++ rest) := by
  unfold parseField? at h
  cases hspan : cs.span (· == '[') with
  | mk marks later =>
    rw [hspan] at h
    obtain ⟨rfl, hmarks, -⟩ := span_eq_iff.mp hspan
    have hmarks : marks = List.replicate marks.length '[' :=
      List.eq_replicate_of_mem fun c hc => beq_iff_eq.mp (hmarks c hc)
    have hlater : ∃ component rest, parseComponent? later = some (component, rest) := by
      cases hcomponent : parseComponent? later with
      | some found => exact ⟨found.1, found.2, rfl⟩
      | none =>
        simp only [hcomponent] at h
        split at h
        · cases h
        · split at h <;> cases h
    obtain ⟨component, rest, hcomponent⟩ := hlater
    obtain ⟨hc, rfl⟩ := parseComponent?_eq_some_iff.mp hcomponent
    exact ⟨marks.length, component, rest, hc, by rw [← hmarks]⟩

/-- A field type is taken from the front exactly if its text stands there. -/
theorem parseField?_eq_some_iff {cs rest : List Char} {d : Descriptor} :
    parseField? cs = some (d, rest) ↔ d.IsField ∧ cs = d.chars ++ rest := by
  constructor
  · intro h
    obtain ⟨dimensions, component, later, hc, rfl⟩ := exists_of_parseField? h
    rw [parseField?_replicate_append hc] at h
    split at h
    · next hzero =>
      cases h
      exact ⟨isField_iff.mpr (.inl hc), by rw [hzero]; rfl⟩
    split at h
    · next hne hle =>
      cases h
      have hnumber : (UInt8.ofNat dimensions).toNat = dimensions :=
        UInt8.toNat_ofNat_of_lt' (Nat.lt_succ_of_le hle)
      refine ⟨⟨fun hzero => ?_, hc⟩, by rw [chars_array, hnumber, List.append_assoc]⟩
      rw [hzero] at hnumber
      exact hne hnumber.symm
    · cases h
  · rintro ⟨hd, rfl⟩
    obtain hd | ⟨dimensions, component, rfl, hpos, hc⟩ := isField_iff.mp hd
    · exact parseField?_replicate_append hd 0 rest
    · have hlt := dimensions.toNat_lt
      have hne : dimensions.toNat ≠ 0 := fun h => hpos (UInt8.toNat.inj h)
      rw [chars_array, List.append_assoc, parseField?_replicate_append hc, if_neg hne,
        if_pos (by omega), UInt8.ofNat_toNat]

/-- No field type is taken where a character stands that begins none. -/
theorem parseField?_cons_eq_none {c : Char} (hmark : c ≠ '[') (hclass : c ≠ 'L')
    (hletter : Primitive.ofLetter? c = none) (rest : List Char) :
    parseField? (c :: rest) = none := by
  have hspan : (c :: rest).span (· == '[') = ([], c :: rest) := by
    refine span_eq_iff.mpr ⟨rfl, fun _ h => (List.not_mem_nil h).elim, fun _ h => ?_⟩
    cases h
    exact beq_eq_false_iff_ne.mpr hmark
  unfold parseField?
  rw [hspan]
  show parseComponent? (c :: rest) = none
  unfold parseComponent?
  split
  · rfl
  · next heq =>
    cases heq
    exact absurd rfl hclass
  · next heq =>
    cases heq
    rw [hletter]
    rfl

/-- What the parser of several field types takes are field types, whose texts
stand one behind the other. -/
theorem exists_of_parseFields {done ds : List Descriptor} {steps : Nat} {cs rest : List Char}
    (h : parseFields done steps cs = (ds, rest)) :
    ∃ later, ds = done.reverse ++ later ∧ (∀ d ∈ later, d.IsField) ∧
      cs = later.flatMap chars ++ rest := by
  fun_induction parseFields done steps cs with
  | case1 done cs =>
    cases h
    exact ⟨[], by simp, by simp, rfl⟩
  | case2 done steps cs d tail htaken ih =>
    obtain ⟨hd, rfl⟩ := parseField?_eq_some_iff.mp htaken
    obtain ⟨later, rfl, hlater, rfl⟩ := ih h
    exact ⟨d :: later, by simp, List.forall_mem_cons.mpr ⟨hd, hlater⟩, by simp⟩
  | case3 done steps cs hnone =>
    cases h
    exact ⟨[], by simp, by simp, rfl⟩

/-- All field types are taken whose texts stand before something that begins no
further one. -/
theorem parseFields_flatMap_chars {ds : List Descriptor} (hds : ∀ d ∈ ds, d.IsField)
    {rest : List Char} (hrest : parseField? rest = none) (done : List Descriptor) {steps : Nat}
    (hsteps : ds.length ≤ steps) :
    parseFields done steps (ds.flatMap chars ++ rest) = (done.reverse ++ ds, rest) := by
  induction ds generalizing done steps with
  | nil =>
    cases steps with
    | zero => simp [parseFields]
    | succ steps => simp [parseFields, hrest]
  | cons d ds ih =>
    obtain ⟨hd, hds⟩ := List.forall_mem_cons.mp hds
    cases steps with
    | zero => exact absurd hsteps (Nat.not_succ_le_zero _)
    | succ steps =>
      rw [List.flatMap_cons, List.append_assoc, parseFields,
        parseField?_eq_some_iff.mpr ⟨hd, rfl⟩]
      simp only
      rw [ih hds (d :: done) (Nat.le_of_succ_le_succ hsteps)]
      simp

/-- A field type has at least one character. -/
theorem IsField.chars_ne_nil {d : Descriptor} (h : d.IsField) : d.chars ≠ [] := by
  obtain hd | ⟨dimensions, component, rfl, -, hd⟩ := isField_iff.mp h
  all_goals obtain ⟨c, later, hchars, -⟩ := hd.exists_chars_eq
  · simp [hchars]
  · simp [hchars]

/-- There are no more field types than characters in their texts. -/
theorem length_le_length_flatMap_chars {ds : List Descriptor} (hds : ∀ d ∈ ds, d.IsField) :
    ds.length ≤ (ds.flatMap chars).length := by
  induction ds with
  | nil => exact Nat.le_refl 0
  | cons d ds ih =>
    obtain ⟨hd, hds⟩ := List.forall_mem_cons.mp hds
    have hpos := List.length_pos_iff.mpr hd.chars_ne_nil
    have hle := ih hds
    rw [List.flatMap_cons, List.length_append, List.length_cons]
    omega

/-- A result is taken from the front exactly if its text stands there. -/
theorem parseResult?_eq_some_iff {cs rest : List Char} {result : Option Descriptor} :
    parseResult? cs = some (result, rest) ↔
      (∀ d ∈ result, d.IsField) ∧ cs = resultChars result ++ rest := by
  constructor
  · intro h
    unfold parseResult? at h
    split at h
    · cases h
      exact ⟨by simp, rfl⟩
    · obtain ⟨⟨d, later⟩, htaken, heq⟩ := Option.map_eq_some_iff.mp h
      cases heq
      obtain ⟨hd, rfl⟩ := parseField?_eq_some_iff.mp htaken
      exact ⟨by simpa using hd, rfl⟩
  · rintro ⟨hresult, rfl⟩
    cases result with
    | none => rfl
    | some d =>
      have htaken : parseField? (d.chars ++ rest) = some (d, rest) :=
        parseField?_eq_some_iff.mpr ⟨hresult d rfl, rfl⟩
      unfold parseResult? resultChars
      split
      -- The text of a field type would begin like the result that is none.
      · next heq =>
        rw [heq, parseField?_cons_eq_none (by decide) (by decide) rfl] at htaken
        cases htaken
      · rw [htaken]
        rfl

/-- A type is taken from the front exactly if its text stands there. -/
theorem parsePrefix?_eq_some_iff {cs rest : List Char} {d : Descriptor} :
    parsePrefix? cs = some (d, rest) ↔ d.IsCanonical ∧ cs = d.chars ++ rest := by
  constructor
  · intro h
    unfold parsePrefix? at h
    split at h
    · next later =>
      split at h
      · next parameters tail hparameters =>
        obtain ⟨⟨result, _⟩, hresult, heq⟩ := Option.map_eq_some_iff.mp h
        cases heq
        obtain ⟨hr, rfl⟩ := parseResult?_eq_some_iff.mp hresult
        obtain ⟨_, rfl, hp, rfl⟩ := exists_of_parseFields hparameters
        exact ⟨⟨hp, hr⟩, by simp⟩
      · cases h
    · obtain ⟨hd, rfl⟩ := parseField?_eq_some_iff.mp h
      exact ⟨isCanonical_iff.mpr (.inl hd), rfl⟩
  · rintro ⟨hd, rfl⟩
    obtain hd | ⟨parameters, result, rfl, hp, hr⟩ := isCanonical_iff.mp hd
    · have htaken : parseField? (d.chars ++ rest) = some (d, rest) :=
        parseField?_eq_some_iff.mpr ⟨hd, rfl⟩
      unfold parsePrefix?
      split
      -- The text of a field type would begin like that of a method.
      · next heq =>
        rw [heq, parseField?_cons_eq_none (by decide) (by decide) rfl] at htaken
        cases htaken
      · exact htaken
    · -- The parameters end at the parenthesis, which begins no further one.
      have hsteps := length_le_length_flatMap_chars hp
      have hstop : parseField? (')' :: (resultChars result ++ rest)) = none :=
        parseField?_cons_eq_none (by decide) (by decide) rfl _
      rw [chars_method, List.cons_append, List.append_assoc]
      unfold parsePrefix?
      simp only [List.cons_append]
      rw [parseFields_flatMap_chars hp hstop [] (by rw [List.length_append]; omega)]
      simp only [List.reverse_nil, List.nil_append]
      rw [parseResult?_eq_some_iff.mpr ⟨hr, rfl⟩]
      rfl

/-! ## Whole texts -/

/-- A text names exactly the canonical type that it is the text of. -/
theorem parse?_eq_some_iff {s : String} {d : Descriptor} :
    parse? s = some d ↔ d.IsCanonical ∧ d.text = s := by
  unfold parse?
  constructor
  · intro h
    split at h
    · next taken htaken =>
      cases h
      obtain ⟨hd, hs⟩ := parsePrefix?_eq_some_iff.mp htaken
      rw [List.append_nil] at hs
      exact ⟨hd, String.toList_inj.mp hs.symm⟩
    · cases h
  · rintro ⟨hd, rfl⟩
    have htaken : parsePrefix? d.text.toList = some (d, []) :=
      parsePrefix?_eq_some_iff.mpr ⟨hd, (List.append_nil _).symm⟩
    rw [htaken]

/-- A text is parsed to a type exactly if it is the text of this type and the
type is canonical. Every text that is that of no canonical type is reported as
no descriptor. -/
theorem parse_inverts_text (s : String) :
    (∀ d, parse s = .ok d ↔ d.IsCanonical ∧ d.text = s) ∧
      (parse s = .error (.malformed (.descriptor s)) ↔ ¬∃ d, IsCanonical d ∧ d.text = s) := by
  unfold parse
  cases hparse : parse? s with
  | some found =>
    obtain ⟨hfound, htext⟩ := parse?_eq_some_iff.mp hparse
    refine ⟨fun d => ?_, iff_of_false nofun fun h => h ⟨found, hfound, htext⟩⟩
    rw [← parse?_eq_some_iff, hparse]
    simp
  | none =>
    have hnone : ∀ d, ¬(IsCanonical d ∧ d.text = s) := by
      intro d hd
      rw [← parse?_eq_some_iff, hparse] at hd
      cases hd
    exact ⟨fun d => iff_of_false nofun (hnone d), iff_of_true rfl fun ⟨d, hd⟩ => hnone d hd⟩

example : parse "(J[[La(b;)V" =
    .ok (.method [.primitive .long, .array 2 (.reference "a(b")] none) := by rfl

example : ¬IsCanonical (.array 1 (.array 1 (.primitive .int))) := by decide

end JvmClass.Descriptor
