import JvmClass.Descriptor.Text

/-!
# Renaming classes

A renaming gives every class its new name; a class that is not renamed keeps
its own. Renaming a text replaces whatever stands between an `L` and the next
`;`, so that signatures and malformed texts can be renamed too. Names are
looked up once and their replacements are not renamed again.
-/

namespace JvmClass

/-- The new name of every class. -/
abbrev Renaming := String → String

namespace Renaming

/-- The characters outside a class name are kept. `done` is the text before
them; after an `L` the second component collects the name, last first. -/
def scan (names : Renaming) (done : String) : Option (List Char) → List Char → String
  | none, [] => done
  | some name, [] => done ++ String.ofList name.reverse
  | none, c :: rest =>
    scan names (done.push c) (if c = 'L' then some [] else none) rest
  | some name, c :: rest =>
    if c = ';' then
      scan names ((done ++ names (String.ofList name.reverse)).push ';') none rest
    else scan names done (some (c :: name)) rest

/-- Rename the classes in a descriptor, a signature or any other text. -/
def descriptor (names : Renaming) (text : String) : String := scan names "" none text.toList

/-- Rename a class entry, which holds a name or an array descriptor. -/
def className (names : Renaming) (name : String) : String :=
  if name.toList.head? = some '[' then names.descriptor name else names name

end Renaming

mutual

/-- Rename the classes of a type. -/
def Descriptor.rename (names : Renaming) : Descriptor → Descriptor
  | .primitive p => .primitive p
  | .reference name => .reference (names name)
  | .array dimensions component => .array dimensions (component.rename names)
  | .method parameters result =>
    .method (renameAll names parameters) (renameResult names result)

/-- Rename the classes of several types. -/
def Descriptor.renameAll (names : Renaming) : List Descriptor → List Descriptor
  | [] => []
  | d :: ds => d.rename names :: renameAll names ds

/-- Rename the classes of a result. -/
def Descriptor.renameResult (names : Renaming) : Option Descriptor → Option Descriptor
  | none => none
  | some d => some (d.rename names)

end

end JvmClass
