import JvmClass.Attribute.Basic
import JvmClass.Instruction.Branch

/-!
# Gaps in method bodies

Room is made in a body by a gap of instructions that do nothing. Its length is
rounded up to a multiple of four, which keeps the operands of every switch in
place. Branches, the exception table, line numbers, local variables and stack
maps are adjusted, so that each stays with the instructions it belonged to.
-/

namespace JvmClass

/-- An attribute of a body after bytes are inserted. -/
def Attribute.shift (s : Shift) (a : Attribute) : Attribute :=
  match a.body with
  | .code _ => a
  | .data payload => { a with body := .data (payload.shift s) }

namespace Code

/-- Make room for the bytes that a shift inserts. -/
def makeRoom (code : Code) (s : Shift) : Except Error Code := do
  let bytes ← Bytecode.relocateBranches code.bytes s
  pure
    { code with
      bytes := bytes.extract 0 s.position ++ Array.replicate s.gap Opcode.nop ++
        bytes.extract s.position bytes.size
      handlers := code.handlers.map (Handler.shift s)
      attributes := code.attributes.map (Attribute.shift s) }

/-- The length of a gap for so many bytes: the next multiple of four. -/
def gapLength (length : Nat) : Nat := (length + 3) / 4 * 4

/-- Insert a gap for `length` bytes before the instruction at a position. With
`exclusive`, branches to that instruction skip the gap. A gap for no bytes
changes nothing. -/
def insertGap (code : Code) (position length : Nat) (exclusive : Bool) :
    Except Error (Shift × Code) :=
  if length = 0 then .ok (⟨position, 0, exclusive⟩, code)
  else if code.bytes.size < position then .error (.malformed (.gapPosition position))
  else
    let s : Shift := ⟨position, gapLength length, exclusive⟩
    if 65535 < code.bytes.size + s.gap then .error (.overflow .codeLength)
    else do
      let code ← code.makeRoom s
      pure (s, code)

/-- Replace bytes at a position. They have to lie within the code. -/
def write (code : Code) (position : Nat) (bytes : List UInt8) : Except Error Code :=
  if position + bytes.length ≤ code.bytes.size then
    .ok { code with bytes := Bytecode.overwrite code.bytes position bytes }
  else .error (.malformed (.codeIndex position))

/-- Insert bytes before the instruction at a position. Branches to it reach the
inserted bytes; what rounding adds to the gap does nothing. -/
def insertBytes (code : Code) (position : Nat) (bytes : List UInt8) :
    Except Error (Shift × Code) := do
  let (s, code) ← code.insertGap position bytes.length false
  let code ← code.write position bytes
  pure (s, code)

/-- Put handlers in front of the exception table, moved by an offset. -/
def insertHandlers (code : Code) (handlers : List Handler) (offset : Nat) :
    Except Error Code := do
  let moved ← handlers.mapM (Handler.move offset)
  pure { code with handlers := moved ++ code.handlers }

end Code

end JvmClass
