import JvmClass.CallSite.Emit
import JvmClass.Proofs.Instruction.Bytes
import JvmClass.Proofs.Instruction.Placement

/-!
# Running moves

Some instructions only move values: those that store the top of the operand stack into
local variables, and the one that pushes the null reference. They are run on a frame, by
the bytes of the code. A store has one of three forms, with its slot in the opcode, in one
byte or in two, and there are five families of them. Each takes only values of its own
family. A value of 64 bits takes two slots.
-/

namespace JvmClass

/-! ## Values -/

/-- The slots that a value of a family takes. -/
def Family.slots : Family → Nat
  | .int | .float | .reference => 1
  | .long | .double => 2

/-- A value of a type takes the slots of its family. -/
theorem Descriptor.slots_family (d : Descriptor) : d.family.slots = d.slots := by
  cases d with
  | primitive type => cases type <;> rfl
  | reference name | array dimensions component | method parameters result => rfl

/-- A value on the operand stack or in a local variable. -/
inductive Operand (α : Type) where
  /-- The null reference. -/
  | null
  /-- Any other value of a family. -/
  | value (family : Family) (content : α)

/-- The family of a value. -/
def Operand.family {α : Type} : Operand α → Family
  | .null => .reference
  | .value family _ => family

/-! ## Moves -/

/-- What the instructions do that only move values. -/
inductive Move where
  /-- The null reference is pushed. -/
  | pushNull
  /-- A value of a family is popped and stored from a slot on. -/
  | store (family : Family) (slot : Nat)

/-- The families in the order of their opcodes. -/
def Family.inOrder : List Family := [.int, .long, .float, .double, .reference]

/-- The family of a store instruction with a slot operand. -/
def Opcode.storeFamily? (op : UInt8) : Option Family :=
  if op < 0x36 then none else Family.inOrder[op.toNat - 0x36]?

/-- The family and the slot of a store instruction without an operand. There are four of
each family. -/
def Opcode.storeWithSlot? (op : UInt8) : Option (Family × Nat) :=
  if op < 0x3b then none
  else Family.inOrder[(op.toNat - 0x3b) / 4]?.map fun family => (family, (op.toNat - 0x3b) % 4)

/-- What the instruction at a position does, if it only moves a value. -/
def Bytecode.moveAt? (code : Bytecode) (position : Nat) : Option Move := do
  let op ← code[position]?
  if op = Opcode.aconstNull then return .pushNull
  if op = Opcode.wide then
    let family ← Opcode.storeFamily? (← code[position + 1]?)
    return .store family (← code.u16At? (position + 2)).toNat
  match Opcode.storeWithSlot? op with
  | some (family, slot) => return .store family slot
  | none => return .store (← Opcode.storeFamily? op) (← code[position + 1]?).toNat

/-! ## Frames -/

/-- A frame of a method that runs. -/
structure Frame (α : Type) where
  /-- The position of the next instruction. -/
  position : Nat
  /-- The operand stack, from its top on. -/
  stack : List (Operand α)
  /-- What a slot holds: a value, and which of its words this is. -/
  words : Nat → Option (Operand α × Nat)

namespace Frame

variable {α : Type}

/-- Put a value into the slots from one on. -/
def put (frame : Frame α) (slot : Nat) (v : Operand α) : Frame α :=
  { frame with
    words := fun i =>
      if slot ≤ i ∧ i < slot + v.family.slots then some (v, i - slot) else frame.words i }

/-- Whether a frame holds a value in the slots from one on. -/
def Holds (frame : Frame α) (slot : Nat) (v : Operand α) : Prop :=
  ∀ i < v.family.slots, frame.words (slot + i) = some (v, i)

/-- Make a move. A value is only stored by an instruction of its own family. -/
def make (frame : Frame α) : Move → Option (Frame α)
  | .pushNull => some { frame with stack := .null :: frame.stack }
  | .store family slot =>
    match frame.stack with
    | [] => none
    | v :: stack => if v.family = family then some ({ frame with stack }.put slot v) else none

/-- Run the next instruction. -/
def step (code : Bytecode) (frame : Frame α) : Option (Frame α) := do
  let move ← code.moveAt? frame.position
  let length ← (code.instructionLength frame.position).toOption
  let next ← frame.make move
  return { next with position := frame.position + length }

/-- Run so many instructions. -/
def run (code : Bytecode) : Nat → Frame α → Option (Frame α)
  | 0, frame => some frame
  | n + 1, frame => frame.step code >>= run code n

variable {frame : Frame α} {slot : Nat} {v : Operand α}

/-- More instructions are run after the first ones. -/
theorem run_add (code : Bytecode) (m n : Nat) (frame : Frame α) :
    frame.run code (m + n) = frame.run code m >>= run code n := by
  induction m generalizing frame with
  | zero => rw [Nat.zero_add]; rfl
  | succ m ih =>
    rw [Nat.succ_add, run, run]
    cases frame.step code with
    | none => rfl
    | some next => exact ih next

/-- What is put into a slot is there. -/
theorem holds_put (frame : Frame α) (slot : Nat) (v : Operand α) :
    (frame.put slot v).Holds slot v := by
  intro i hi
  have hinside : slot ≤ slot + i ∧ slot + i < slot + v.family.slots := by omega
  simp only [put, if_pos hinside, Nat.add_sub_cancel_left]

/-- Other slots keep what they have. -/
theorem words_put {i : Nat} (hi : i < slot ∨ slot + v.family.slots ≤ i) :
    (frame.put slot v).words i = frame.words i :=
  if_neg (by omega)

/-- A value is still held when the slots have not changed. -/
theorem Holds.of_words {next : Frame α} (h : frame.Holds slot v)
    (hwords : ∀ i, slot ≤ i → i < slot + v.family.slots → next.words i = frame.words i) :
    next.Holds slot v := by
  intro i hi
  rw [hwords (slot + i) (by omega) (by omega)]
  exact h i hi

end Frame

/-! ## Emitted moves -/

section Emitted

variable {code : Bytecode} {p : Nat} {family : Family} {slot : UInt16}

/-- The opcodes of the short stores are those of the family and the slot. -/
theorem Opcode.storeWithSlot?_short (family : Family) {k : Nat} (hk : k < 4) :
    let op := family.shortStoreOpcode + UInt8.ofNat k
    op ≠ aconstNull ∧ op ≠ wide ∧ storeWithSlot? op = some (family, k) := by
  revert k
  cases family <;> decide

/-- The opcodes of the stores with an operand are those of the family. -/
theorem Opcode.storeFamily?_store (family : Family) :
    family.storeOpcode ≠ aconstNull ∧ family.storeOpcode ≠ wide ∧
      storeWithSlot? family.storeOpcode = none ∧
        storeFamily? family.storeOpcode = some family := by
  cases family <;> decide

/-- Where an access to a slot is emitted, the slot is in the opcode, or it is an operand of
one byte, or an operand of two bytes behind a prefix. -/
theorem Bytecode.HasBytes.emitSlot_cases {short normal : UInt8}
    (h : code.HasBytes p (emitSlot short normal slot)) :
    slot.toNat < 4 ∧ code[p]? = some (short + UInt8.ofNat slot.toNat) ∨
      slot.toUInt8.toNat = slot.toNat ∧ code[p]? = some normal ∧
        code[p + 1]? = some slot.toUInt8 ∨
      code[p]? = some Opcode.wide ∧ code[p + 1]? = some normal ∧
        code.u16At? (p + 2) = some slot := by
  unfold emitSlot at h
  split at h
  · next hslot => exact .inl ⟨UInt16.lt_iff_toNat_lt.mp hslot, h 0 Nat.one_pos⟩
  split at h
  · next hle =>
    have hbyte : slot.toUInt8.toNat = slot.toNat := by
      rw [UInt16.toNat_toUInt8]
      exact Nat.mod_eq_of_lt (Nat.lt_succ_of_le (UInt16.le_iff_toNat_le.mp hle))
    exact .inr (.inl ⟨hbyte, h 0 (Nat.succ_pos _), h 1 (Nat.lt_succ_self 1)⟩)
  · have operand : code.u16At? (p + 2) = some slot := u16At?_of_bytes fun i hi => by
      rw [Nat.add_assoc,
        h (2 + i) (by simp only [List.length_cons, Codec.length_bytesOfU16]; omega),
        Nat.add_comm 2 i]
      rfl
    exact .inr (.inr ⟨h 0 (Nat.succ_pos _), h 1 (Nat.succ_lt_succ (Nat.succ_pos _)), operand⟩)

/-- What is emitted as a store is one. -/
theorem Bytecode.HasBytes.moveAt?_store (h : code.HasBytes p (family.store slot)) :
    code.moveAt? p = some (.store family slot.toNat) := by
  obtain ⟨hnull, hwide, hlong, hfamily⟩ := Opcode.storeFamily?_store family
  unfold moveAt?
  rcases emitSlot_cases h with ⟨hslot, byte⟩ | ⟨hbyte, byte, operand⟩ | ⟨byte, next, operand⟩
  · obtain ⟨hnull, hwide, hshort⟩ := Opcode.storeWithSlot?_short family hslot
    simp only [byte, Option.bind_eq_bind, Option.bind_some, if_neg hnull, if_neg hwide, hshort]
    rfl
  · simp only [byte, operand, Option.bind_eq_bind, Option.bind_some, if_neg hnull, if_neg hwide,
      hlong, hfamily, hbyte]
    rfl
  · simp only [byte, next, operand, Option.bind_eq_bind, Option.bind_some, hfamily]
    rfl

end Emitted

end JvmClass
