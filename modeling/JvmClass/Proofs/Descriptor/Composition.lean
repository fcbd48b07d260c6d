import JvmClass.Proofs.Descriptor.Renaming

/-!
# Renaming twice

A text that is renamed twice has been scanned twice, the second time after all
positions in it have changed. The second scan still finds the same names, now with
their new names: a new name that has no mark in it ends where the old one ended,
whatever else it holds, and a name that nothing ends is kept by both scans. So the
two renamings can be joined to one. Class entries need one thing more, since names
and array descriptors are told apart by their first character.
-/

namespace JvmClass.Renaming

/-! ## What a scan adds -/

section Scanned

variable (names : Renaming)

/-- What scanning adds to the text before. The first component collects a name, last
character first. -/
def scanned : Option (List Char) → List Char → List Char
  | none, [] => []
  | some name, [] => name.reverse
  | none, c :: rest => c :: scanned (if c = 'L' then some [] else none) rest
  | some name, c :: rest =>
    if c = ';' then (names (String.ofList name.reverse)).toList ++ ';' :: scanned none rest
    else scanned (some (c :: name)) rest

/-- Scanning appends to the text before. -/
theorem scan_eq (done : String) (name? : Option (List Char)) (rest : List Char) :
    scan names done name? rest = done ++ String.ofList (scanned names name? rest) := by
  induction rest generalizing done name? with
  | nil => cases name? <;> simp [scan, scanned]
  | cons c rest ih =>
    cases name? with
    | none => simp [scan, scanned, ih, String.ext_iff]
    | some name =>
      rw [scan, scanned]
      split
      · simp [ih, String.ext_iff]
      · exact ih ..

/-- A renamed text is what scanning makes of its characters. -/
theorem toList_descriptor (text : String) :
    (names.descriptor text).toList = scanned names none text.toList := by
  rw [descriptor, scan_eq, String.empty_append, String.toList_ofList]

/-- A name that nothing ends is kept. -/
theorem scanned_unterminated {cs : List Char} (h : ';' ∉ cs) (before : List Char) :
    scanned names (some before) cs = before.reverse ++ cs := by
  induction cs generalizing before with
  | nil => simp [scanned]
  | cons c cs ih =>
    rw [List.mem_cons, not_or] at h
    rw [scanned, if_neg (Ne.symm h.1), ih h.2]
    simp

/-- A name that is ended is replaced. -/
theorem scanned_within {cs : List Char} (h : ';' ∉ cs) (rest : List Char) :
    scanned names (some []) (cs ++ ';' :: rest) =
      (names (String.ofList cs)).toList ++ ';' :: scanned names none rest := by
  have hscan := scan_within names h "" [] rest
  rw [scan_eq, scan_eq] at hscan
  simpa [String.ext_iff] using hscan

/-- The first character of a text is kept. -/
theorem head?_descriptor (text : String) :
    (names.descriptor text).toList.head? = text.toList.head? := by
  rw [toList_descriptor]
  cases text.toList <;> rfl

end Scanned

/-! ## Two scans -/

section Twice

variable {f g : Renaming}

/-- Scanning what a scan has added is one scan, from within a name as well as from
outside. No name that is being collected has an end in it, and neither has a new
name, so both scans leave a name at the same place. -/
theorem scanned_scanned (hf : ∀ name, ';' ∉ name.toList → ';' ∉ (f name).toList)
    (name? : Option (List Char)) (hname : ∀ name ∈ name?, ';' ∉ name) (rest : List Char) :
    scanned g (name?.map fun _ => []) (scanned f name? rest) = scanned (g ∘ f) name? rest := by
  induction rest generalizing name? with
  | nil =>
    cases name? with
    | none => rfl
    | some name =>
      have hkept : ';' ∉ name.reverse := by simpa using hname name rfl
      exact scanned_unterminated g hkept []
  | cons c rest ih =>
    cases name? with
    | none =>
      have hnext : ∀ name ∈ (if c = 'L' then some [] else none : Option (List Char)),
          ';' ∉ name := by
        intro name hmem
        split at hmem <;> cases hmem
        exact List.not_mem_nil
      have hrest := ih _ hnext
      simp only [scanned, Option.map_none]
      rw [← hrest]
      split <;> rfl
    | some name =>
      have hname := hname name rfl
      by_cases hend : c = ';'
      · have hnew : ';' ∉ (f (String.ofList name.reverse)).toList := hf _ (by simpa using hname)
        have hrest := ih none (by simp)
        rw [scanned, if_pos hend, scanned, if_pos hend, Option.map_some, scanned_within g hnew,
          String.ofList_toList, ← hrest]
        rfl
      · have hlonger : ∀ longer ∈ some (c :: name), ';' ∉ longer := by
          intro longer hmem
          cases hmem
          exact List.not_mem_cons_of_ne_of_not_mem (Ne.symm hend) hname
        rw [scanned, if_neg hend, scanned, if_neg hend]
        exact ih (some (c :: name)) hlonger

/-- Renaming a text twice is renaming it once, if new names have no end in them. -/
theorem descriptor_descriptor (hf : ∀ name, ';' ∉ name.toList → ';' ∉ (f name).toList)
    (text : String) : descriptor g (descriptor f text) = descriptor (g ∘ f) text := by
  apply String.toList_inj.mp
  rw [toList_descriptor, toList_descriptor, toList_descriptor]
  exact scanned_scanned hf none (by simp) text.toList

/-- Renaming a class entry twice is renaming it once, if moreover no name becomes an
array descriptor. -/
theorem className_className (hf : ∀ name, ';' ∉ name.toList → ';' ∉ (f name).toList)
    (harray : ∀ name, name.toList.head? ≠ some '[' → (f name).toList.head? ≠ some '[')
    (name : String) : className g (className f name) = className (g ∘ f) name := by
  unfold className
  by_cases hname : name.toList.head? = some '['
  · rw [if_pos hname, if_pos hname, if_pos ((head?_descriptor f name).trans hname),
      descriptor_descriptor hf]
  · rw [if_neg hname, if_neg hname, if_neg (harray name hname)]
    rfl

end Twice

/-! ## Maps of class names, one after the other -/

/-- The map that renames as two maps do one after the other. -/
def joined (f g : Std.HashMap String String) : Std.HashMap String String :=
  g ∪ f.map fun _ new => ofMap g new

/-- A joined map stands for the one renaming after the other. -/
theorem ofMap_joined (f g : Std.HashMap String String) : ofMap (joined f g) = ofMap g ∘ ofMap f := by
  funext name
  simp only [ofMap, joined, Function.comp, Std.HashMap.getD_eq_getD_getElem?,
    Std.HashMap.getElem?_union, Std.HashMap.getElem?_map]
  cases f[name]? <;> rfl

end JvmClass.Renaming
