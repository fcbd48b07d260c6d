import JvmClass.Binary.Codec
import JvmClass.Code.Shift
import JvmClass.Instruction.Length

/-!
# Branches

Jumps and switches hold the distance from their own position to each of their
targets. When bytes are inserted into a body, the distances are computed anew,
so that every branch leads to the same place as before.
-/

namespace JvmClass

/-- Bytes to be written at a position of the code. -/
structure Patch where
  /-- Where the bytes go. -/
  position : Nat
  /-- The bytes. -/
  bytes : List UInt8
  deriving DecidableEq

/-- A field of an instruction that holds the distance to a target. -/
structure BranchField where
  /-- The position of the instruction. -/
  source : Nat
  /-- The position of the field. -/
  position : Nat
  /-- Whether the field has four bytes rather than two. -/
  isLong : Bool
  deriving DecidableEq, Repr

namespace Bytecode

/-- Write several patches. -/
def applyPatches (code : Bytecode) (patches : List Patch) : Bytecode :=
  patches.foldl (fun code p => code.overwrite p.position p.bytes) code

/-- The branch fields of the complete instruction at a position. -/
def branchFields (code : Bytecode) (position : Nat) (op : UInt8) : List BranchField :=
  let operands := switchOperands position
  if Opcode.isShortBranch op then [⟨position, position + 1, false⟩]
  else if Opcode.isLongBranch op then [⟨position, position + 1, true⟩]
  else if op = Opcode.tableSwitch then
    let low := (code.i32At? (operands + 4)).getD 0
    let high := (code.i32At? (operands + 8)).getD 0
    ⟨position, operands, true⟩ ::
      (List.range (high - low + 1).toNat).map fun i => ⟨position, operands + 12 + 4 * i, true⟩
  else if op = Opcode.lookupSwitch then
    let pairs := (code.i32At? (operands + 4)).getD 0
    ⟨position, operands, true⟩ ::
      (List.range pairs.toNat).map fun i => ⟨position, operands + 12 + 8 * i, true⟩
  else []

/-- The distance that a branch field holds. -/
def branchOffset (code : Bytecode) (field : BranchField) : Int :=
  if field.isLong then (code.i32At? field.position).getD 0
  else ((code.u16At? field.position).getD 0).toInt16.toInt

/-- The position that a branch field leads to. -/
def branchTarget (code : Bytecode) (field : BranchField) : Int :=
  field.source + code.branchOffset field

end Bytecode

/-- The bytes of a distance, if it fits a field. -/
def BranchField.encodeOffset (field : BranchField) (offset : Int) : Except Error (List UInt8) :=
  if field.isLong then
    if -2147483648 ≤ offset ∧ offset ≤ 2147483647 then
      .ok (Codec.bytesOfU32 (Int32.ofInt offset).toUInt32)
    else .error (.overflow .branchOffset)
  else
    if -32768 ≤ offset ∧ offset ≤ 32767 then
      .ok (Codec.bytesOfU16 (Int16.ofInt offset).toUInt16)
    else .error (.overflow .branchOffset)

namespace Bytecode

/-- The patch that makes a branch field lead to the same place after bytes are
inserted. -/
def relocateField (code : Bytecode) (s : Shift) (field : BranchField) : Except Error Patch := do
  let offset := s.branchTarget (code.branchTarget field) - s.start field.source
  let bytes ← field.encodeOffset offset
  pure ⟨field.position, bytes⟩

/-- The code with every branch adjusted to bytes that are about to be inserted.
Nothing is written unless every distance fits. -/
def relocateBranches (code : Bytecode) (s : Shift) : Except Error Bytecode := do
  let patches ← code.foldInstructions (m := Except Error)
    (fun (patches : Array Patch) position op =>
      (code.branchFields position op).foldlM
        (fun patches field => do
          let patch ← code.relocateField s field
          pure (patches.push patch))
        patches)
    #[] 0
  pure (code.applyPatches patches.toList)

end Bytecode

end JvmClass
