/-!
# Outlines

An outline shows a part of a class file as a tree of named values, for people
to read and for other tools to exchange. A value that can be shown is
`Outlined`. One that can be read back is `Drafted`: a draft is an outline
written by hand, which may take shorter forms.
-/

namespace JvmClass

/-- A tree of named values. -/
inductive Tree where
  /-- Nothing. -/
  | null
  /-- A truth value. -/
  | bool (value : Bool)
  /-- A number. -/
  | integer (value : Int)
  /-- A text. -/
  | text (value : String)
  /-- Values in order. -/
  | list (items : List Tree)
  /-- Values by name. -/
  | record (fields : List (String × Tree))
  deriving Inhabited

/-- The types whose values have an outline. -/
class Outlined (α : Type) where
  /-- The outline of a value. -/
  outline : α → Tree

export Outlined (outline)

/-- The types whose values can be read from a draft. -/
class Drafted (α : Type) where
  /-- The value that a draft stands for. -/
  ofDraft? : Tree → Option α

export Drafted (ofDraft?)

namespace Tree

/-- The value under a name. One that is null counts as missing. -/
def field? : Tree → String → Option Tree
  | .record fields, name =>
    match fields.lookup name with
    | some .null => none
    | found => found
  | _, _ => none

/-- The items of a list. -/
def items? : Tree → Option (List Tree)
  | .list items => some items
  | _ => none

/-- A word, which unlike a text is always written out. -/
def word? : Tree → Option String
  | .text word => some word
  | _ => none

/-- A number in a range. -/
def integerIn? (low high : Int) : Tree → Option Int
  | .integer n => if low ≤ n ∧ n ≤ high then some n else none
  | _ => none

/-- The value under a name, read from its draft. -/
def get? {α : Type} [Drafted α] (tree : Tree) (name : String) : Option α :=
  (tree.field? name).bind ofDraft?

/-- The value under a name, or another one if it is missing. -/
def getD? {α : Type} [Drafted α] (tree : Tree) (name : String) (default : α) : Option α :=
  match tree.field? name with
  | some field => ofDraft? field
  | none => some default

end Tree

/-! ## Outlines of simple values -/

instance : Outlined Tree := ⟨id⟩

instance : Outlined Bool := ⟨.bool⟩

instance : Outlined Nat := ⟨fun n => .integer n⟩

instance : Outlined Int := ⟨.integer⟩

instance : Outlined UInt8 := ⟨fun n => .integer n.toNat⟩

instance : Outlined UInt16 := ⟨fun n => .integer n.toNat⟩

instance : Outlined String := ⟨.text⟩

instance {α : Type} [Outlined α] : Outlined (List α) := ⟨fun l => .list (l.map outline)⟩

instance {α : Type} [Outlined α] : Outlined (Option α) := ⟨fun
  | some a => outline a
  | none => .null⟩

instance {α β : Type} [Outlined α] [Outlined β] : Outlined (α × β) :=
  ⟨fun (a, b) => .list [outline a, outline b]⟩

/-! ## Drafts of simple values -/

instance : Drafted Tree := ⟨some⟩

instance : Drafted Bool := ⟨fun
  | .bool value => some value
  | _ => none⟩

instance : Drafted Int := ⟨fun
  | .integer value => some value
  | _ => none⟩

instance : Drafted Nat := ⟨fun
  | .integer (.ofNat n) => some n
  | _ => none⟩

instance : Drafted UInt8 := ⟨fun tree =>
  (tree.integerIn? 0 255).map fun n => UInt8.ofNat n.toNat⟩

instance : Drafted UInt16 := ⟨fun tree =>
  (tree.integerIn? 0 65535).map fun n => UInt16.ofNat n.toNat⟩

instance : Drafted Int32 := ⟨fun tree =>
  (tree.integerIn? (-2147483648) 2147483647).map Int32.ofInt⟩

/-- A text is written out, or as a piece to repeat a number of times. -/
instance : Drafted String := ⟨fun
  | .text value => some value
  | .record [("repeat", .list [.text piece, .integer (.ofNat count)])] =>
    some (String.join (List.replicate count piece))
  | _ => none⟩

instance {α : Type} [Drafted α] : Drafted (List α) := ⟨fun tree => do
  (← tree.items?).mapM ofDraft?⟩

/-- A missing value is drafted as null. -/
instance {α : Type} [Drafted α] : Drafted (Option α) := ⟨fun
  | .null => some none
  | tree => some <$> ofDraft? tree⟩

end JvmClass
