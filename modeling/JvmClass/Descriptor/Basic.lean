import JvmClass.Error

/-!
# Descriptors

The types that descriptors name: the primitive types, classes, arrays and
methods. A type also fixes how many slots its values take and which family of
load and store instructions moves them.
-/

namespace JvmClass

/-- A primitive type. -/
inductive Primitive where
  /-- A signed 8-bit integer. -/
  | byte
  /-- A UTF-16 unit. -/
  | char
  /-- A double precision number. -/
  | double
  /-- A single precision number. -/
  | float
  /-- A signed 32-bit integer. -/
  | int
  /-- A signed 64-bit integer. -/
  | long
  /-- A truth value. -/
  | boolean
  /-- A signed 16-bit integer. -/
  | short
  deriving DecidableEq, Repr

/-- The letter of a primitive type in descriptors. -/
def Primitive.letter : Primitive → Char
  | .byte => 'B'
  | .char => 'C'
  | .double => 'D'
  | .float => 'F'
  | .int => 'I'
  | .long => 'J'
  | .boolean => 'Z'
  | .short => 'S'

/-- The primitive type of a letter. -/
def Primitive.ofLetter? : Char → Option Primitive
  | 'B' => some .byte
  | 'C' => some .char
  | 'D' => some .double
  | 'F' => some .float
  | 'I' => some .int
  | 'J' => some .long
  | 'Z' => some .boolean
  | 'S' => some .short
  | _ => none

/-- Every primitive type has its own letter. -/
theorem Primitive.ofLetter?_letter (p : Primitive) : ofLetter? p.letter = some p := by
  cases p <;> rfl

/-- The type that a field or method descriptor names. -/
inductive Descriptor where
  /-- A primitive type. -/
  | primitive (type : Primitive)
  /-- A class, by internal name. -/
  | reference (name : String)
  /-- An array with so many dimensions over its component. -/
  | array (dimensions : UInt8) (component : Descriptor)
  /-- A method. One that returns nothing has no result. -/
  | method (parameters : List Descriptor) (result : Option Descriptor)
  deriving Repr

namespace Descriptor

mutual

/-- Whether two types are the same. -/
def decEq : (a b : Descriptor) → Decidable (a = b)
  | .primitive p, .primitive q =>
    if h : p = q then .isTrue (by rw [h]) else .isFalse (by simp [h])
  | .reference a, .reference b =>
    if h : a = b then .isTrue (by rw [h]) else .isFalse (by simp [h])
  | .array m a, .array n b =>
    if hn : m = n then
      match decEq a b with
      | .isTrue h => .isTrue (by rw [hn, h])
      | .isFalse h => .isFalse (by simp [h])
    else .isFalse (by simp [hn])
  | .method ps r, .method qs s =>
    match decEqList ps qs, decEqOption r s with
    | .isTrue h, .isTrue h' => .isTrue (by rw [h, h'])
    | .isFalse h, _ => .isFalse (by simp [h])
    | _, .isFalse h => .isFalse (by simp [h])
  | .primitive _, .reference _ | .primitive _, .array _ _ | .primitive _, .method _ _
  | .reference _, .primitive _ | .reference _, .array _ _ | .reference _, .method _ _
  | .array _ _, .primitive _ | .array _ _, .reference _ | .array _ _, .method _ _
  | .method _ _, .primitive _ | .method _ _, .reference _ | .method _ _, .array _ _ =>
    .isFalse nofun
termination_by structural a => a

/-- Whether two lists of types are the same. -/
def decEqList : (a b : List Descriptor) → Decidable (a = b)
  | [], [] => .isTrue rfl
  | [], _ :: _ => .isFalse nofun
  | _ :: _, [] => .isFalse nofun
  | a :: as, b :: bs =>
    match decEq a b with
    | .isFalse h => .isFalse (by simp [h])
    | .isTrue h =>
      match decEqList as bs with
      | .isTrue h' => .isTrue (by rw [h, h'])
      | .isFalse h' => .isFalse (by simp [h'])

/-- Whether two optional types are the same. -/
def decEqOption : (a b : Option Descriptor) → Decidable (a = b)
  | none, none => .isTrue rfl
  | none, some _ => .isFalse nofun
  | some _, none => .isFalse nofun
  | some a, some b =>
    match decEq a b with
    | .isTrue h => .isTrue (by rw [h])
    | .isFalse h => .isFalse (by simp [h])

end

instance : DecidableEq Descriptor := decEq

/-- Long and double values are wide. -/
def isWide : Descriptor → Bool
  | .primitive .long | .primitive .double => true
  | _ => false

/-- Whether the type is that of a method. -/
def isMethod : Descriptor → Bool
  | .method _ _ => true
  | _ => false

/-- The parameters and the result of a method type. -/
def method? : Descriptor → Option (List Descriptor × Option Descriptor)
  | .method parameters result => some (parameters, result)
  | _ => none

/-- Put dimensions around a type. Those of an array of arrays add up, and stop
at 255. -/
def arrayOf (dimensions : UInt8) : Descriptor → Descriptor
  | .array inner component =>
    .array (UInt8.ofNat (min 255 (inner.toNat + dimensions.toNat))) component
  | component => .array dimensions component

/-- The local variable slots, or stack words, of a value. -/
def slots (d : Descriptor) : Nat := if d.isWide then 2 else 1

end Descriptor

/-- The families of typed instructions, in the order of their opcodes. -/
inductive Family where
  /-- Integers of up to 32 bits, characters and truth values. -/
  | int
  /-- 64-bit integers. -/
  | long
  /-- Single precision numbers. -/
  | float
  /-- Double precision numbers. -/
  | double
  /-- References. -/
  | reference
  deriving DecidableEq, Repr

namespace Family

/-- The place of a family among the opcodes of one operation. -/
def offset : Family → UInt8
  | .int => 0
  | .long => 1
  | .float => 2
  | .double => 3
  | .reference => 4

/-- The load instruction that takes a slot operand. -/
def loadOpcode (family : Family) : UInt8 := 0x15 + family.offset

/-- The store instruction that takes a slot operand. -/
def storeOpcode (family : Family) : UInt8 := 0x36 + family.offset

/-- The load instruction for slot zero; those for slots up to three follow. -/
def shortLoadOpcode (family : Family) : UInt8 := 0x1a + 4 * family.offset

/-- The store instruction for slot zero; those for slots up to three follow. -/
def shortStoreOpcode (family : Family) : UInt8 := 0x3b + 4 * family.offset

end Family

/-- The family of instructions that moves values of a type. -/
def Descriptor.family : Descriptor → Family
  | .primitive .long => .long
  | .primitive .float => .float
  | .primitive .double => .double
  | .primitive _ => .int
  | .reference _ | .array _ _ | .method _ _ => .reference

end JvmClass
