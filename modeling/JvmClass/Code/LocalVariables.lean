import JvmClass.ConstantPool.View
import JvmClass.Code.Shift

/-!
# Local variables

Two tables tell the names of local variables, one with their descriptors and
one with their generic signatures. Both have the same layout: a variable is
live in a range of the body and sits in a slot.
-/

namespace JvmClass

/-- An entry of a local variable table. -/
structure LocalVariable where
  /-- The first position at which the variable is live. -/
  start : UInt16
  /-- The length of the range in which it is live. -/
  length : UInt16
  /-- The index of the name. -/
  nameIndex : UInt16
  /-- The index of the descriptor or signature. -/
  typeIndex : UInt16
  /-- The slot of the variable. -/
  slot : UInt16
  deriving DecidableEq, Repr

namespace LocalVariable

/-- An entry is its five fields in a row. -/
def codec : Codec LocalVariable :=
  ((Codec.u16.pair Codec.u16).pair (Codec.u16.pair (Codec.u16.pair Codec.u16))).convert
    (fun ((start, length), (nameIndex, typeIndex, slot)) =>
      { start, length, nameIndex, typeIndex, slot })
    (fun v => ((v.start, v.length), (v.nameIndex, v.typeIndex, v.slot)))

/-- The first position at which the variable is live no more. -/
def stop (v : LocalVariable) : Nat := v.start.toNat + v.length.toNat

/-- Whether the variable sits in a slot at a position. -/
def isLiveAt (position : Nat) (slot : UInt16) (v : LocalVariable) : Bool :=
  v.slot == slot && v.start.toNat ≤ position && position < v.stop

/-- The variables that sit in a slot at a position. -/
def liveAt (table : List LocalVariable) (position : Nat) (slot : UInt16) : List LocalVariable :=
  table.filter (isLiveAt position slot)

/-- The name of the variable at a place of the table, if there is one. -/
def nameAt (table : List LocalVariable) (pool : ConstantPool) (i : Nat) :
    Except Error (Option String) :=
  match table[i]? with
  | some v => some <$> pool.text v.nameIndex
  | none => .ok none

/-- The entry after bytes are inserted into the body: a range behind the gap
moves, and a range around it grows. -/
def shift (s : Shift) (v : LocalVariable) : LocalVariable :=
  if s.moves v.start.toNat then { v with start := UInt16.ofNat (v.start.toNat + s.gap) }
  else if s.moves v.stop then { v with length := UInt16.ofNat (v.length.toNat + s.gap) }
  else v

end LocalVariable

end JvmClass
