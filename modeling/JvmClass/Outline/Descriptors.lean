import JvmClass.Descriptor.Renaming
import JvmClass.Outline.Bytes

/-!
# Outlines of descriptors

A primitive type is shown by its name, any other type as a record of its shape.
A draft may use the shape `array`, which adds dimensions to those of an array.
-/

namespace JvmClass

/-- The name of a primitive type in outlines. -/
def Primitive.label : Primitive → String
  | .byte => "Byte"
  | .char => "Char"
  | .double => "Double"
  | .float => "Float"
  | .int => "Int"
  | .long => "Long"
  | .boolean => "Boolean"
  | .short => "Short"

/-- The primitive type with a name. -/
def Primitive.ofLabel? (label : String) : Option Primitive :=
  [byte, char, double, float, int, long, boolean, short].find? (·.label = label)

namespace Descriptor

mutual

/-- The outline of a type. -/
def toOutline : Descriptor → Tree
  | .primitive type => .text type.label
  | .reference name => .record [("Ref", outlineText name)]
  | .array dimensions component =>
    .record [("Array", .list [outline dimensions, toOutline component])]
  | .method parameters result =>
    .record [("Method", .list [.list (toOutlines parameters), optionToOutline result])]

/-- The outlines of several types. -/
def toOutlines : List Descriptor → List Tree
  | [] => []
  | d :: list => toOutline d :: toOutlines list

/-- The outline of a type that may be missing. -/
def optionToOutline : Option Descriptor → Tree
  | none => .null
  | some d => toOutline d

end

instance : Outlined Descriptor := ⟨toOutline⟩

mutual

/-- The type that a draft stands for. -/
def ofDraft : Tree → Option Descriptor
  | .text label => .primitive <$> Primitive.ofLabel? label
  | .record [(shape, value)] => ofShape shape value
  | _ => none

/-- The type of a shape. -/
def ofShape (shape : String) : Tree → Option Descriptor
  | .text name => if shape = "Ref" then some (.reference name) else none
  | .record fields =>
    if shape = "Ref" then .reference <$> ofDraft? (.record fields) else none
  | .list [.list parameters, result] => do
    if shape = "Method" then
      let parameters ← ofDrafts parameters
      match result with
      | .null => pure (.method parameters none)
      | result => pure (.method parameters (some (← ofDraft result)))
    else none
  | .list [.integer dimensions, component] => do
    let n : UInt8 ← ofDraft? (.integer dimensions)
    let component ← ofDraft component
    match shape with
    | "Array" => pure (.array n component)
    | "array" => pure (arrayOf n component)
    | _ => none
  | _ => none

/-- The types that drafts stand for. -/
def ofDrafts : List Tree → Option (List Descriptor)
  | [] => some []
  | tree :: list => do pure ((← ofDraft tree) :: (← ofDrafts list))

end

instance : Drafted Descriptor := ⟨ofDraft⟩

/-- A type with its properties. -/
def outlineInfo (d : Descriptor) : Tree :=
  let family := d.family
  .record
    [("type", outline d), ("text", outlineText d.text), ("wide", outline d.isWide),
      ("method", outline d.isMethod), ("slots", outline d.slots),
      ("ops", outline
        [family.loadOpcode, family.storeOpcode, family.shortLoadOpcode, family.shortStoreOpcode]),
      ("as_method", outline (d.method?.map fun (parameters, result) =>
        (parameters.length, result.map text)))]

end Descriptor

/-- A renaming is drafted as a record of new names by old name. All other
names stay. -/
def Renaming.ofFields? (fields : List (String × Tree)) : Option Renaming := do
  let table ← fields.mapM fun (name, tree) => do
    pure (name, (← ofDraft? tree : String))
  pure fun name => (table.lookup name).getD name

instance : Drafted Renaming := ⟨fun
  | .record fields => Renaming.ofFields? fields
  | _ => none⟩

end JvmClass
