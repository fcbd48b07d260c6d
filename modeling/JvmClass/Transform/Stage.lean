import JvmClass.Code.Cursor

/-!
# Stages of a transformation

A stage changes method bodies one instruction at a time. It sees the body
through a cursor, may add to the pool, and keeps a state of its own between
instructions and between bodies.
-/

namespace JvmClass

/-- A body that is being changed, with the pool that its operands refer to. -/
structure Workbench where
  /-- The pool. -/
  pool : ConstantPool
  /-- The body, and the place of the walk in it. -/
  cursor : Cursor

/-- Knows for a class and the name of a field which class declares the field,
if it can be resolved. -/
abbrev TypeHierarchy := String → String → Option String

/-- The hierarchy that knows no class. -/
def TypeHierarchy.unknown : TypeHierarchy := fun _ _ => none

/-- A type whose values are stages. -/
class Stage (τ : Type) where
  /-- Prepare for a body. What is remembered of another pool has to be
  forgotten here. -/
  reset : ConstantPool → Code → τ → τ
  /-- Inspect, and possibly change, the instruction at a position, and give
  the position to which the instruction has moved. -/
  visit : TypeHierarchy → Nat → Edit (τ × Workbench) Nat
  /-- Finish a body. -/
  clean : τ → τ
  /-- The local variable slots that a stage needs for itself. -/
  extraLocals : τ → UInt16
  /-- The operand stack that a stage needs for itself. -/
  extraStack : τ → UInt16

end JvmClass
