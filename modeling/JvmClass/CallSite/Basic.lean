import JvmClass.ClassFile
import JvmClass.ConstantPool.Loadable

/-!
# Dynamic call sites

A dynamic call names a call site entry of the pool, which names a method to be
linked and, by its place in a table of the class, the bootstrap method that
links it. A call site is inspected through the class that holds it.
-/

namespace JvmClass

/-- A dynamic call in a method of a class. -/
structure CallSite where
  /-- The place of the method in the class. -/
  method : Nat
  /-- The position of the instruction. -/
  position : Nat
  /-- The position behind the instruction, or behind the code that replaced
  it. -/
  stop : Nat
  /-- The index of the call site entry. -/
  callSiteIndex : UInt16
  /-- The place of its bootstrap method in the table. -/
  bootstrapIndex : UInt16
  deriving DecidableEq, Repr

/-- The body of the method at a place of the class. -/
def ClassFile.codeAt? (c : ClassFile) (method : Nat) : Option Code :=
  c.methods[method]?.bind Method.code?

/-- The index that the dynamic call at a position names. -/
def Bytecode.dynamicCallAt? (code : Bytecode) (position : Nat) : Option UInt16 :=
  if position + 5 ≤ code.size ∧ code[position]? = some Opcode.invokeDynamic then
    code.u16At? (position + 1)
  else none

/-- The position of the next dynamic call, from a position on. -/
def Bytecode.nextDynamicCall? (code : Bytecode) (position : Nat) : Except Error (Option Nat) :=
  if h : position < code.size then
    if code[position] = Opcode.invokeDynamic then .ok (some position)
    else
      match hl : code.instructionLength position with
      | .error e => .error e
      | .ok length => code.nextDynamicCall? (position + length)
  else .ok none
termination_by code.size - position
decreasing_by
  have := Bytecode.one_le_instructionLength hl
  omega

namespace CallSite

/-- The dynamic call at a position of a method. -/
def ofInstruction (c : ClassFile) (method position : Nat) : Except Error CallSite := do
  let some code := c.codeAt? method | throw (.malformed (.methodWithoutCode method))
  let some callSiteIndex := Bytecode.dynamicCallAt? code.bytes position
    | throw (.malformed (.callSite position))
  let (bootstrapIndex, _) ← c.pool.dynamic .callSite callSiteIndex
  pure { method, position, stop := position + 5, callSiteIndex, bootstrapIndex }

section Inspection

variable (call : CallSite) (c : ClassFile)

/-- The name of the method to be linked. -/
def name : Except Error String := c.pool.dynamicName .callSite call.callSiteIndex

/-- The descriptor of the method to be linked. -/
def descriptor : Except Error String := c.pool.dynamicDescriptor .callSite call.callSiteIndex

/-- The bootstrap method. -/
def bootstrapMethod : Except Error BootstrapMethod :=
  match c.bootstrapMethods? with
  | none => .error .missingBootstrapMethods
  | some table =>
    match table[call.bootstrapIndex.toNat]? with
    | some m => .ok m
    | none => .error (.malformed (.bootstrapIndex call.bootstrapIndex table.length))

/-- The method handle of the bootstrap method. -/
def bootstrapHandle : Except Error MethodHandle := do
  c.pool.resolveHandle (← call.bootstrapMethod c).handle

/-- The member that the method handle of the bootstrap method refers to. -/
def bootstrapMember : Except Error MemberRef := do
  let m ← call.bootstrapMethod c
  c.pool.member (← c.pool.handleReference m.handle)

/-- The number of static arguments of the bootstrap method. -/
def bootstrapArgumentCount : Except Error Nat := do
  pure (← call.bootstrapMethod c).arguments.length

/-- The static arguments of the bootstrap method. -/
def bootstrapArguments : Except Error (List LoadableConstant) := do
  (← call.bootstrapMethod c).arguments.mapM c.pool.loadable

end Inspection

end CallSite

end JvmClass
