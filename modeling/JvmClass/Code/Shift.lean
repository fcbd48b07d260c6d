/-!
# Shifting positions past a gap

Bytes that are inserted into a body move everything behind them. An
instruction at the gap moves with the rest. A position that some other place
refers to, such as the target of a branch, moves if it lies behind the gap; one
that lies exactly at the gap moves only if the gap is exclusive, that is, if
control that went to the instruction is to skip the inserted bytes.
-/

namespace JvmClass

/-- A gap as seen by the positions around it. -/
structure Shift where
  /-- Where the bytes are inserted. -/
  position : Nat
  /-- How many bytes are inserted. -/
  gap : Nat
  /-- Whether references to the position skip the inserted bytes. -/
  exclusive : Bool
  deriving DecidableEq, Repr

namespace Shift

variable (shift : Shift)

/-- Where the instruction at a position goes. -/
def start (position : Nat) : Nat :=
  if shift.position ≤ position then position + shift.gap else position

/-- Whether a reference to a position moves. -/
def moves (position : Nat) : Bool :=
  shift.position < position || shift.exclusive && position == shift.position

/-- Where a reference to a position goes. -/
def target (position : Nat) : Nat :=
  if shift.moves position then position + shift.gap else position

/-- Where a reference goes that may lie before the code. -/
def branchTarget (target : Int) : Int :=
  if shift.position < target || shift.exclusive && target == shift.position then
    target + shift.gap
  else target

/-- Where a reference of 16 bits goes. -/
def target16 (position : UInt16) : UInt16 := UInt16.ofNat (shift.target position.toNat)

end Shift

end JvmClass
