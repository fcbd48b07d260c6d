import JvmClass.Error
import JvmClass.Instruction.Opcode

/-!
# The length of instructions

The opcode fixes how long an instruction is, except for the two switches, whose
operands start at the next multiple of four, and for the instruction that
widens the one after it. A body can be walked from instruction to instruction
without knowing what they do. Every instruction takes at least one byte, so a
walk ends.
-/

namespace JvmClass

/-- How the length of an instruction is found. -/
inductive Layout where
  /-- The opcode is followed by so many bytes. -/
  | fixed (operands : Nat)
  /-- A switch with bounds and one offset per key between them. -/
  | tableSwitch
  /-- A switch with a count of pairs of key and offset. -/
  | lookupSwitch
  /-- A longer form of the instruction after it. -/
  | wide
  /-- No instruction has this opcode. -/
  | undefined
  deriving DecidableEq, Repr

/-- The layout of the instructions with an opcode. -/
def Layout.ofOpcode (op : UInt8) : Layout :=
  if op ≤ 0x0f then .fixed 0
  else if op = 0x10 then .fixed 1
  else if op = 0x11 then .fixed 2
  else if op = 0x12 then .fixed 1
  else if op ≤ 0x14 then .fixed 2
  else if op ≤ 0x19 then .fixed 1
  else if op ≤ 0x35 then .fixed 0
  else if op ≤ 0x3a then .fixed 1
  else if op ≤ 0x83 then .fixed 0
  else if op = 0x84 then .fixed 2
  else if op ≤ 0x98 then .fixed 0
  else if op ≤ 0xa8 then .fixed 2
  else if op = 0xa9 then .fixed 1
  else if op = 0xaa then .tableSwitch
  else if op = 0xab then .lookupSwitch
  else if op ≤ 0xb1 then .fixed 0
  else if op ≤ 0xb8 then .fixed 2
  else if op ≤ 0xba then .fixed 4
  else if op = 0xbb then .fixed 2
  else if op = 0xbc then .fixed 1
  else if op = 0xbd then .fixed 2
  else if op ≤ 0xbf then .fixed 0
  else if op ≤ 0xc1 then .fixed 2
  else if op ≤ 0xc3 then .fixed 0
  else if op = 0xc4 then .wide
  else if op = 0xc5 then .fixed 3
  else if op ≤ 0xc7 then .fixed 2
  else if op ≤ 0xc9 then .fixed 4
  else .undefined

/-- The instructions of a method body. -/
abbrev Bytecode := Array UInt8

namespace Bytecode

/-- The unsigned number of two bytes at a position, if they lie in the code. -/
def u16At? (code : Bytecode) (position : Nat) : Option UInt16 :=
  match code[position]?, code[position + 1]? with
  | some a, some b => some (UInt16.ofNat (a.toNat * 256 + b.toNat))
  | _, _ => none

/-- The signed number of four bytes at a position, if they lie in the code. -/
def i32At? (code : Bytecode) (position : Nat) : Option Int :=
  match code.u16At? position, code.u16At? (position + 2) with
  | some a, some b => some (UInt32.ofNat (a.toNat * 65536 + b.toNat)).toInt32.toInt
  | _, _ => none

/-- Where the operands of a switch at a position start: at the next multiple of
four, counted from the start of the body. -/
def switchOperands (position : Nat) : Nat := position / 4 * 4 + 4

/-- A four-byte operand of a switch. -/
def switchWord (code : Bytecode) (position : Nat) : Except Error Int :=
  match code.i32At? position with
  | some n => .ok n
  | none => .error (.malformed (.truncatedSwitch position))

/-- The bytes that the instruction at a position claims, given its opcode. -/
def claimedLength (code : Bytecode) (position : Nat) (op : UInt8) : Except Error Nat :=
  match Layout.ofOpcode op with
  | .fixed operands => .ok (1 + operands)
  | .tableSwitch => do
    let operands := switchOperands position
    let low ← code.switchWord (operands + 4)
    let high ← code.switchWord (operands + 8)
    if high - low + 1 < 0 then throw (.malformed (.tableSwitch low high))
    else pure (operands - position + 12 + 4 * (high - low + 1).toNat)
  | .lookupSwitch => do
    let operands := switchOperands position
    let pairs ← code.switchWord (operands + 4)
    if pairs < 0 then throw (.malformed .lookupSwitch)
    else pure (operands - position + 8 + 8 * pairs.toNat)
  | .wide =>
    match code[position + 1]? with
    | some next => .ok (if next = Opcode.iinc then 6 else 4)
    | none => .ok 2
  | .undefined => .error (.malformed (.opcode op position))

/-- The length of the instruction at a position, which has to lie within the
code. -/
def instructionLength (code : Bytecode) (position : Nat) : Except Error Nat :=
  match code[position]? with
  | none => .error (.malformed (.codeIndex position))
  | some op =>
    match code.claimedLength position op with
    | .error e => .error e
    | .ok length =>
      if position + length ≤ code.size then .ok length
      else .error (.malformed (.instruction op position))

/-- An instruction claims at least one byte. -/
theorem one_le_claimedLength {code : Bytecode} {position length : Nat} {op : UInt8}
    (h : code.claimedLength position op = .ok length) : 1 ≤ length := by
  unfold claimedLength at h
  split at h
  · cases h; omega
  · simp only [bind, Except.bind] at h
    split at h
    · cases h
    split at h
    · cases h
    split at h
    · cases h
    · cases h; omega
  · simp only [bind, Except.bind] at h
    split at h
    · cases h
    split at h
    · cases h
    · cases h; omega
  · split at h
    · cases h; split <;> omega
    · cases h; omega
  · cases h

/-- An instruction takes at least one byte. -/
theorem one_le_instructionLength {code : Bytecode} {position length : Nat}
    (h : code.instructionLength position = .ok length) : 1 ≤ length := by
  unfold instructionLength at h
  split at h
  · cases h
  split at h
  · cases h
  next hc =>
    split at h
    · cases h; exact one_le_claimedLength hc
    · cases h

/-- An instruction lies within the code. -/
theorem add_instructionLength_le {code : Bytecode} {position length : Nat}
    (h : code.instructionLength position = .ok length) : position + length ≤ code.size := by
  unfold instructionLength at h
  split at h
  · cases h
  split at h
  · cases h
  next hc =>
    split at h
    · next hle => cases h; exact hle
    · cases h

/-- Visit the instructions from a position to the end of the code, each with
its position and opcode. -/
@[specialize]
def foldInstructions {m : Type → Type} {β : Type} [Monad m] [MonadExceptOf Error m]
    (code : Bytecode) (visit : β → Nat → UInt8 → m β) (acc : β) (position : Nat) : m β :=
  if h : position < code.size then
    match hl : code.instructionLength position with
    | .error e => throw e
    | .ok length => do
      let acc ← visit acc position code[position]
      foldInstructions code visit acc (position + length)
  else pure acc
termination_by code.size - position
decreasing_by
  have := one_le_instructionLength hl
  omega

/-- The positions of the instructions, from a position to the end. -/
def startsFrom (code : Bytecode) (position : Nat) : Except Error (List Nat) := do
  let starts ← code.foldInstructions (m := Except Error)
    (fun (starts : Array Nat) p _ => pure (starts.push p)) #[] position
  pure starts.toList

/-- The positions of all instructions. -/
def starts (code : Bytecode) : Except Error (List Nat) := code.startsFrom 0

/-- Replace bytes at a position. What would lie past the end is dropped. -/
def overwrite (code : Bytecode) (position : Nat) : List UInt8 → Bytecode
  | [] => code
  | b :: bytes => overwrite (code.setIfInBounds position b) (position + 1) bytes

end Bytecode

end JvmClass
