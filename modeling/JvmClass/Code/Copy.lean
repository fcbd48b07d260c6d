import JvmClass.Code.Gap

/-!
# Copying attributes and method bodies

An attribute is copied to another pool with every index resolved again there.
In a body this concerns the operands of instructions as well. An instruction
with an index of one byte becomes its wide form when the new index needs two;
the gap that this takes leaves three instructions before it that do nothing.
-/

namespace JvmClass

/-- What copying does to the operands of a body. -/
structure OperandChanges where
  /-- The operands to be written. -/
  patches : List Patch
  /-- The positions of the instructions that need their wide form and the
  indices for them, last first. -/
  widened : List (Nat × UInt16)

namespace Bytecode

/-- Copy the constant that the instruction at a position refers to. -/
def copyOperand (code : Bytecode) (source : ConstantPool) (names : Renaming)
    (changes : OperandChanges) (position : Nat) (op : UInt8) :
    Edit ConstantPool OperandChanges :=
  if op = Opcode.ldc then do
    let i ← source.copy names ((code[position + 1]?.getD 0).toUInt16)
    if i ≤ 255 then
      pure { changes with patches := ⟨position + 1, [i.toUInt8]⟩ :: changes.patches }
    else pure { changes with widened := (position, i) :: changes.widened }
  else if Opcode.hasPoolIndex op then do
    let i ← source.copy names ((code.u16At? (position + 1)).getD 0)
    pure { changes with patches := ⟨position + 1, Codec.bytesOfU16 i⟩ :: changes.patches }
  else pure changes

/-- Copy the constants that the instructions of a body refer to. -/
def copyOperands (code : Bytecode) (source : ConstantPool) (names : Renaming) :
    Edit ConstantPool OperandChanges :=
  code.foldInstructions (m := Edit ConstantPool) (code.copyOperand source names) ⟨[], []⟩ 0

end Bytecode

namespace Code

/-- Give the load of a constant at a position its wide form with an index. -/
def widenLoad (code : Code) (position : Nat) (i : UInt16) : Except Error Code := do
  let (s, code) ← code.insertGap position 1 false
  code.write (position + s.gap - 1) (Opcode.ldcWide :: Codec.bytesOfU16 i)

/-- Write the operands that copying has found. Instructions are widened from
back to front, so that the positions of the others stay valid. -/
def changeOperands (code : Code) (changes : OperandChanges) : Except Error Code :=
  changes.widened.foldlM (fun code (position, i) => code.widenLoad position i)
    { code with bytes := Bytecode.applyPatches code.bytes changes.patches }

/-- Copy the class that a handler catches. -/
def copyHandler (source : ConstantPool) (names : Renaming) (h : Handler) :
    Edit ConstantPool Handler := do
  let catchType ← source.copy names h.catchType
  pure { h with catchType }

end Code

section

variable (source : ConstantPool) (names : Renaming)

mutual

/-- Copy an attribute to the pool under edit. -/
def Attribute.copy : Attribute → Edit ConstantPool Attribute
  | ⟨nameIndex, body⟩ => do
    let name ← source.text nameIndex
    let nameIndex ← ConstantPool.internText name
    let body ← AttributeBody.copy body
    pure { nameIndex, body }

/-- Copy a payload to the pool under edit. -/
def AttributeBody.copy : AttributeBody → Edit ConstantPool AttributeBody
  | .code body => do
    let body ← Code.copy body
    pure (.code body)
  | .data payload => do
    let payload ← payload.copy source names
    pure (.data payload)

/-- Copy a body to the pool under edit: its attributes first, then its
exception table, then its instructions. -/
def Code.copy : Code → Edit ConstantPool Code
  | ⟨maxStack, maxLocals, bytes, handlers, attributes⟩ => do
    let attributes ← Attribute.copyList [] attributes
    let handlers ← handlers.mapM (Code.copyHandler source names)
    let changes ← Bytecode.copyOperands bytes source names
    Code.changeOperands { maxStack, maxLocals, bytes, handlers, attributes } changes

/-- Copy several attributes in order. `done` holds those before them, last
first. -/
def Attribute.copyList (done : List Attribute) : List Attribute → Edit ConstantPool (List Attribute)
  | [] => pure done.reverse
  | a :: list => do
    let a ← Attribute.copy a
    Attribute.copyList (a :: done) list

end

end

end JvmClass
