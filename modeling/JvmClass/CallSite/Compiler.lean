import JvmClass.Attribute.Basic
import JvmClass.CallSite.Emit

/-!
# Statement compilers

Source statements are not compiled here. A compiler is told which local
variables a statement may use and what its calls of `$proceed` stand for, and
gives back the instructions of the statement.
-/

namespace JvmClass

/-- What `$proceed` stands for: the call site that is replaced. -/
structure Proceed where
  /-- The type of the value that the call leaves, if it leaves one. -/
  result : Option Descriptor
  /-- The place of its bootstrap method in the table. -/
  bootstrapIndex : UInt16
  /-- The index of the call site. -/
  callSiteIndex : UInt16
  deriving DecidableEq

/-- The instructions that perform the call. Its arguments are on the stack. -/
def Proceed.emit (proceed : Proceed) : List UInt8 := emitDynamicCall proceed.callSiteIndex

/-- A compiled statement. Its handlers are relative to its own start. -/
structure CompiledStatement where
  /-- Its instructions. -/
  code : List UInt8
  /-- Its exception table. -/
  handlers : List Handler
  /-- The operand stack that it needs. -/
  maxStack : UInt16
  /-- The local variable slots that it needs. -/
  maxLocals : UInt16
  deriving DecidableEq

/-- A compiler of statements with a state of type `σ`. -/
structure StatementCompiler (σ : Type) where
  /-- Declare the parameters: the class around the statement, the types of
  `$1`, `$2` and so on, whether `$0` is null, and the slot of `$0`, which the
  parameters follow. -/
  recordParameters : String → List Descriptor → Bool → UInt16 → ExceptT CompileError (StateM σ) Unit
  /-- Declare the type of `$_`, if there is one, and its slot. -/
  recordResult : Option Descriptor → UInt16 → ExceptT CompileError (StateM σ) Unit
  /-- Declare what `$proceed` stands for. -/
  recordProceed : Proceed → StateM σ Unit
  /-- Make the local variables visible that are live at a position of a body. -/
  recordLocals : ConstantPool → Code → Nat → ExceptT CompileError (StateM σ) Unit
  /-- Compile a statement. -/
  compile : String → ExceptT CompileError (StateM σ) CompiledStatement

end JvmClass
