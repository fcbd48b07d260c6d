import JvmClass.CallSite.Compiler
import JvmClass.Proofs.CallSite.Alignment
import JvmClass.Proofs.Instruction.Moves

/-!
# Emitted instructions

Loads, stores and calls of a call site are emitted one behind the other. What such an
instruction does is read from its bytes, by tables of opcodes: the opcode tells the family
and, in the shortest form, the slot, which is otherwise an operand of one byte or, behind a
prefix, of two. Every instruction that is emitted does what was asked for, wherever it
stands in the buffer, and no shorter instruction does the same.
-/

namespace JvmClass

/-! ## Operations -/

/-- How an instruction uses a local variable. -/
inductive SlotAccess where
  /-- Its value is pushed. -/
  | load
  /-- The top of the stack becomes its value. -/
  | store
  deriving DecidableEq

/-- What loads, stores and dynamic calls do. -/
inductive Operation where
  /-- A value of a family is loaded from a slot, or stored into it. -/
  | access (access : SlotAccess) (family : Family) (slot : Nat)
  /-- A call site is called. -/
  | call (site : UInt16)
  deriving DecidableEq

namespace Opcode

/-- The loads and stores with an operand. -/
def withSlotOperand : List (UInt8 × SlotAccess × Family) :=
  [(0x15, .load, .int), (0x16, .load, .long), (0x17, .load, .float), (0x18, .load, .double),
    (0x19, .load, .reference), (0x36, .store, .int), (0x37, .store, .long),
    (0x38, .store, .float), (0x39, .store, .double), (0x3a, .store, .reference)]

/-- The loads and stores of slot zero. Those of the slots up to three follow each of them. -/
def ofSlotZero : List (UInt8 × SlotAccess × Family) :=
  [(0x1a, .load, .int), (0x1e, .load, .long), (0x22, .load, .float), (0x26, .load, .double),
    (0x2a, .load, .reference), (0x3b, .store, .int), (0x3f, .store, .long),
    (0x43, .store, .float), (0x47, .store, .double), (0x4b, .store, .reference)]

/-- What a load or store does that has its slot in the opcode. -/
def operationWithoutOperand? (op : UInt8) : Option Operation :=
  ofSlotZero.findSome? fun (zero, access, family) =>
    if zero ≤ op ∧ op < zero + 4 then some (.access access family (op - zero).toNat) else none

end Opcode

/-- What the instruction at a position does, if it is a load, a store or a dynamic call. -/
def Bytecode.operationAt? (code : Bytecode) (position : Nat) : Option Operation := do
  let op ← code[position]?
  if op = Opcode.wide then
    let (access, family) ← Opcode.withSlotOperand.lookup (← code[position + 1]?)
    return .access access family (← code.u16At? (position + 2)).toNat
  else if op = Opcode.invokeDynamic then
    let site ← code.u16At? (position + 1)
    if code.u16At? (position + 3) = some 0 then return .call site else none
  else
    match Opcode.withSlotOperand.lookup op with
    | some (access, family) => return .access access family (← code[position + 1]?).toNat
    | none => Opcode.operationWithoutOperand? op

/-- Whether every instruction that performs an operation has so many bytes. -/
def Operation.TakesAtLeast (operation : Operation) (length : Nat) : Prop :=
  ∀ (code : Bytecode) (p n : Nat), code.instructionLength p = .ok n →
    code.operationAt? p = some operation → length ≤ n

/-! ## Emissions -/

/-- The types whose values are moved by a family of instructions. -/
inductive Family.Moves : Family → Descriptor → Prop where
  /-- Truth values, characters and numbers of up to 32 bits. -/
  | int {type : Primitive} (h : type ∈ [.boolean, .byte, .char, .short, .int]) :
      Moves .int (.primitive type)
  /-- Numbers of 64 bits. -/
  | long : Moves .long (.primitive .long)
  /-- Single precision numbers. -/
  | float : Moves .float (.primitive .float)
  /-- Double precision numbers. -/
  | double : Moves .double (.primitive .double)
  /-- Objects. -/
  | reference (name : String) : Moves .reference (.reference name)
  /-- Arrays. -/
  | array (dimensions : UInt8) (component : Descriptor) :
      Moves .reference (.array dimensions component)
  /-- What has a method type is referred to. -/
  | method (parameters : List Descriptor) (result : Option Descriptor) :
      Moves .reference (.method parameters result)

/-- An instruction that is asked for. -/
inductive Emission where
  /-- A value of a type is to be loaded from a slot, or stored into it. -/
  | access (access : SlotAccess) (type : Descriptor) (slot : UInt16)
  /-- What `$proceed` stands for is to be performed. -/
  | proceed (handler : Proceed)

namespace Emission

/-- The bytes that are appended. -/
def bytes : Emission → List UInt8
  | .access .load type slot => type.load slot
  | .access .store type slot => type.store slot
  | .proceed handler => handler.emit

/-- A buffer to which instructions were appended one after the other. -/
def buffer (emissions : List Emission) : List UInt8 :=
  emissions.foldl (fun buffer emission => buffer ++ emission.bytes) []

/-- Whether an operation is what was asked for. -/
inductive Asks : Emission → Operation → Prop where
  /-- The slot is accessed by an instruction for values of the type. -/
  | access {access : SlotAccess} {type : Descriptor} {slot : UInt16} {family : Family}
      (moves : family.Moves type) :
      Asks (.access access type slot) (.access access family slot.toNat)
  /-- The call site is called. -/
  | proceed (handler : Proceed) : Asks (.proceed handler) (.call handler.callSiteIndex)

end Emission

/-! ## Single instructions -/

/-- A type is moved by its family. -/
theorem Descriptor.moves_family (d : Descriptor) : d.family.Moves d := by
  cases d with
  | primitive type =>
    cases type with
    | long => exact .long
    | float => exact .float
    | double => exact .double
    | boolean | byte | char | short | int => exact .int (by decide)
  | reference name => exact .reference name
  | array dimensions component => exact .array dimensions component
  | method parameters result => exact .method parameters result

namespace SlotAccess

/-- The instruction of a family that takes a slot operand. -/
def opcode : SlotAccess → Family → UInt8
  | load, family => family.loadOpcode
  | store, family => family.storeOpcode

/-- The instruction of a family for slot zero. -/
def shortOpcode : SlotAccess → Family → UInt8
  | load, family => family.shortLoadOpcode
  | store, family => family.shortStoreOpcode

end SlotAccess

/-- An access is emitted in the shortest form for its family. -/
theorem Emission.bytes_access (access : SlotAccess) (type : Descriptor) (slot : UInt16) :
    (Emission.access access type slot).bytes =
      emitSlot (access.shortOpcode type.family) (access.opcode type.family) slot := by
  cases access <;> rfl

/-- What is appended is one instruction. -/
theorem Emission.isInstruction_bytes (emission : Emission) :
    Bytecode.IsInstruction emission.bytes := by
  cases emission with
  | access access type slot =>
    cases access with
    | load => exact type.family.isInstruction_load slot
    | store => exact type.family.isInstruction_store slot
  | proceed handler =>
    have layout : Layout.ofOpcode Opcode.invokeDynamic = .fixed 4 := by decide
    exact Bytecode.isInstruction_of_fixed layout

namespace Opcode

/-- The opcodes with an operand are those of their access and family. -/
theorem lookup_opcode (access : SlotAccess) (family : Family) :
    access.opcode family ≠ wide ∧ access.opcode family ≠ invokeDynamic ∧
      withSlotOperand.lookup (access.opcode family) = some (access, family) := by
  cases access <;> cases family <;> decide

/-- The opcodes without an operand are those of their access, family and slot. -/
theorem operationWithoutOperand?_shortOpcode (access : SlotAccess) (family : Family) {k : Nat}
    (hk : k < 4) :
    let op := access.shortOpcode family + UInt8.ofNat k
    op ≠ wide ∧ op ≠ invokeDynamic ∧ withSlotOperand.lookup op = none ∧
      operationWithoutOperand? op = some (.access access family k) := by
  revert k
  cases access <;> cases family <;> decide

end Opcode

section Decoding

variable {code : Bytecode} {p n : Nat}

/-- What is emitted as an access is one. -/
theorem Bytecode.HasBytes.operationAt?_emitSlot {access : SlotAccess} {family : Family}
    {slot : UInt16}
    (h : code.HasBytes p (emitSlot (access.shortOpcode family) (access.opcode family) slot)) :
    code.operationAt? p = some (.access access family slot.toNat) := by
  obtain ⟨hwide, hcall, hlookup⟩ := Opcode.lookup_opcode access family
  unfold operationAt?
  rcases h.emitSlot_cases with ⟨hslot, byte⟩ | ⟨hbyte, byte, operand⟩ | ⟨byte, next, operand⟩
  · obtain ⟨hwide, hcall, hnone, hshort⟩ :=
      Opcode.operationWithoutOperand?_shortOpcode access family hslot
    simp only [byte, Option.bind_eq_bind, Option.bind_some, if_neg hwide, if_neg hcall, hnone,
      hshort]
  · simp only [byte, operand, Option.bind_eq_bind, Option.bind_some, if_neg hwide, if_neg hcall,
      hlookup, hbyte]
    rfl
  · simp only [byte, next, operand, Option.bind_eq_bind, Option.bind_some, hlookup]
    rfl

/-- What is emitted as a call is one. -/
theorem Bytecode.HasBytes.operationAt?_emitDynamicCall {site : UInt16}
    (h : code.HasBytes p (emitDynamicCall site)) : code.operationAt? p = some (.call site) := by
  obtain ⟨hfront, hzeros⟩ := hasBytes_append.mp h
  have hparts : code.HasBytes p ([Opcode.invokeDynamic] ++ Codec.bytesOfU16 site) := hfront
  obtain ⟨hop, hindex⟩ := hasBytes_append.mp hparts
  have byte : code[p]? = some Opcode.invokeDynamic := hop 0 Nat.one_pos
  have index : code.u16At? (p + 1) = some site := u16At?_of_bytes hindex
  have zeros : code.u16At? (p + 3) = some 0 := u16At?_of_bytes (n := 0) hzeros
  have hwide : Opcode.invokeDynamic ≠ Opcode.wide := by decide
  unfold operationAt?
  simp only [byte, index, zeros, Option.bind_eq_bind, Option.bind_some, if_neg hwide, if_pos]
  rfl

/-- Where something is emitted, what was asked for is done. -/
theorem Emission.exists_operationAt? (emission : Emission) (h : code.HasBytes p emission.bytes) :
    ∃ operation, code.operationAt? p = some operation ∧ emission.Asks operation := by
  cases emission with
  | access access type slot =>
    rw [bytes_access] at h
    exact ⟨_, h.operationAt?_emitSlot, .access type.moves_family⟩
  | proceed handler => exact ⟨_, h.operationAt?_emitDynamicCall, .proceed handler⟩

/-! ## Shortest forms -/

/-- An instruction with a slot operand has one operand byte. -/
theorem Opcode.layout_of_lookup {op : UInt8} {use : SlotAccess × Family}
    (h : withSlotOperand.lookup op = some use) : Layout.ofOpcode op = .fixed 1 := by
  have hsome : (withSlotOperand.lookup op).isSome := by rw [h]; rfl
  revert hsome
  exact Layout.forall_opcode (P := fun op => (withSlotOperand.lookup op).isSome →
    Layout.ofOpcode op = .fixed 1) (by decide +kernel) op

/-- Only four slots have opcodes of their own. -/
theorem Opcode.exists_of_operationWithoutOperand? {op : UInt8} {operation : Operation}
    (h : operationWithoutOperand? op = some operation) :
    ∃ access family, ∃ slot < 4, operation = .access access family slot := by
  obtain ⟨⟨zero, access, family⟩, -, hshown⟩ := List.exists_of_findSome?_eq_some h
  obtain ⟨⟨hle, hlt⟩, hshown⟩ := Option.ite_none_right_eq_some.mp hshown
  cases hshown
  have hslot : (op - zero).toNat < 4 := by
    rw [UInt8.toNat_sub_of_le _ _ hle]
    have hlt := UInt8.lt_iff_toNat_lt.mp hlt
    rw [UInt8.toNat_add] at hlt
    change op.toNat < (zero.toNat + 4) % 256 at hlt
    omega
  exact ⟨access, family, _, hslot, rfl⟩

/-- A call takes five bytes. An access is behind the prefix, or has an operand of one byte, or
is to one of the slots that have opcodes of their own. -/
theorem Bytecode.forms_of_operationAt? {operation : Operation}
    (hlength : code.instructionLength p = .ok n)
    (hoperation : code.operationAt? p = some operation) :
    (∃ site, operation = .call site ∧ n = 5) ∨
      ∃ access family slot, operation = .access access family slot ∧
        (n = 4 ∨ n = 2 ∧ slot < 256 ∨ 1 ≤ n ∧ slot < 4) := by
  have hone := one_le_instructionLength hlength
  obtain ⟨op, byte, hclaimed⟩ := (instructionLength_eq_ok_iff.mp hlength).1.claimedLength
  simp only [operationAt?, byte, Option.bind_eq_bind, Option.bind_some] at hoperation
  unfold claimedLength at hclaimed
  split at hoperation
  · next hwide =>
    obtain ⟨next, hnext, hoperation⟩ := Option.bind_eq_some_iff.mp hoperation
    obtain ⟨⟨access, family⟩, hlookup, hoperation⟩ := Option.bind_eq_some_iff.mp hoperation
    obtain ⟨slot, -, hslot⟩ := Option.bind_eq_some_iff.mp hoperation
    have hiinc : next ≠ Opcode.iinc := by
      rintro rfl
      cases hlookup
    rw [(Layout.eq_wide_iff op).mpr hwide] at hclaimed
    simp only [hnext, if_neg hiinc] at hclaimed
    cases hclaimed
    cases hslot
    exact .inr ⟨_, _, _, rfl, .inl rfl⟩
  split at hoperation
  · next hcall =>
    obtain ⟨site, -, hoperation⟩ := Option.bind_eq_some_iff.mp hoperation
    obtain ⟨-, hsite⟩ := Option.ite_none_right_eq_some.mp hoperation
    cases hsite
    exact .inl ⟨site, rfl, instructionLength_of_invokeDynamic (hcall ▸ byte) hlength⟩
  split at hoperation
  · next access family hlookup =>
    obtain ⟨slot, -, hslot⟩ := Option.bind_eq_some_iff.mp hoperation
    rw [Opcode.layout_of_lookup hlookup] at hclaimed
    cases hclaimed
    cases hslot
    exact .inr ⟨_, _, _, rfl, .inr (.inl ⟨rfl, slot.toNat_lt⟩)⟩
  · obtain ⟨access, family, slot, hslot, rfl⟩ :=
      Opcode.exists_of_operationWithoutOperand? hoperation
    exact .inr ⟨access, family, slot, rfl, .inr (.inr ⟨hone, hslot⟩)⟩

/-- The length of the shortest form for a slot. -/
theorem length_emitSlot (short normal : UInt8) (slot : UInt16) :
    (emitSlot short normal slot).length =
      if slot.toNat < 4 then 1 else if slot.toNat < 256 then 2 else 4 := by
  have hfour : slot < 4 ↔ slot.toNat < 4 := UInt16.lt_iff_toNat_lt
  have hbyte : slot ≤ 255 ↔ slot.toNat < 256 :=
    UInt16.le_iff_toNat_le.trans Nat.lt_succ_iff.symm
  unfold emitSlot
  simp only [hfour, hbyte]
  split_ifs <;> rfl

/-- No instruction for what was asked for is shorter than the one that is emitted. -/
theorem Emission.Asks.takesAtLeast {emission : Emission} {operation : Operation}
    (h : emission.Asks operation) : operation.TakesAtLeast emission.bytes.length := by
  intro code p n hlength hoperation
  have hforms := Bytecode.forms_of_operationAt? hlength hoperation
  cases h with
  | proceed handler =>
    obtain ⟨site, -, rfl⟩ | ⟨access, family, slot, hcall, -⟩ := hforms
    · exact Nat.le_refl _
    · cases hcall
  | access moves =>
    obtain ⟨site, haccess, -⟩ | ⟨access, family, slot, haccess, hforms⟩ := hforms
    · cases haccess
    · cases haccess
      rw [bytes_access, length_emitSlot]
      split_ifs <;> omega

end Decoding

/-! ## Buffers -/

namespace Emission

/-- A buffer holds what was appended, one behind the other. -/
theorem buffer_eq_flatMap (emissions : List Emission) :
    buffer emissions = emissions.flatMap bytes :=
  (List.flatMap_eq_foldl ..).symm

/-- What was appended first stands before what was appended later. -/
theorem buffer_append (first later : List Emission) :
    buffer (first ++ later) = buffer first ++ buffer later := by
  rw [buffer_eq_flatMap, buffer_eq_flatMap, buffer_eq_flatMap, List.flatMap_append]

/-- Behind what was there before, instructions start where the buffer ended when they were
appended. -/
theorem placedStarts_map_bytes (position : Nat) (emissions : List Emission) :
    Bytecode.placedStarts position (emissions.map bytes) =
      (List.range emissions.length).map fun k =>
        position + (buffer (emissions.take k)).length := by
  induction emissions generalizing position with
  | nil => rfl
  | cons first later ih =>
    rw [List.length_cons, List.range_succ_eq_map, List.map_cons, List.map_cons, List.map_map,
      Bytecode.placedStarts, ih]
    refine congrArg _ (List.map_congr_left fun k _ => ?_)
    have hbuffer : buffer (first :: later.take k) = first.bytes ++ buffer (later.take k) :=
      buffer_append [first] (later.take k)
    show _ = position + (buffer (first :: later.take k)).length
    rw [hbuffer, List.length_append, Nat.add_assoc]

/-- An emission stands where the buffer ended when it was appended. -/
theorem hasBytes_buffer {emissions : List Emission} {k : Nat} {emission : Emission}
    (h : emissions[k]? = some emission) :
    Bytecode.HasBytes (buffer emissions).toArray (buffer (emissions.take k)).length
      emission.bytes := by
  obtain ⟨hk, rfl⟩ := List.getElem?_eq_some_iff.mp h
  have hsplit : buffer emissions = buffer (emissions.take k) ++
      (emissions[k].bytes ++ buffer (emissions.drop (k + 1))) := by
    conv_lhs => rw [← List.take_append_drop k emissions, List.drop_eq_getElem_cons hk]
    rw [buffer_append]
    exact congrArg _ (buffer_append [emissions[k]] (emissions.drop (k + 1)))
  intro i hi
  rw [List.getElem?_toArray, hsplit, List.getElem?_append_right (Nat.le_add_right ..),
    Nat.add_sub_cancel_left, List.getElem?_append_left hi]

/-- Instructions that were appended one after the other are walked one after the other: each
starts where the buffer ended when it was appended, and takes the bytes that were appended
then. Read from there, it does what was asked for, and no instruction that does so is
shorter. -/
theorem buffer_decodes (emissions : List Emission) :
    Bytecode.starts (buffer emissions).toArray =
        .ok ((List.range emissions.length).map fun k => (buffer (emissions.take k)).length) ∧
      ∀ k emission, emissions[k]? = some emission →
        let code : Bytecode := (buffer emissions).toArray
        let start := (buffer (emissions.take k)).length
        code.instructionLength start = .ok emission.bytes.length ∧
          ∃ operation, code.operationAt? start = some operation ∧ emission.Asks operation ∧
            operation.TakesAtLeast emission.bytes.length := by
  refine ⟨?_, fun k emission hemission => ?_⟩
  · have hrow : ∀ first ∈ emissions.map bytes, Bytecode.IsInstruction first := by
      intro _ hmem
      obtain ⟨emission, -, rfl⟩ := List.mem_map.mp hmem
      exact emission.isInstruction_bytes
    have hwhole : Bytecode.HasBytes (buffer emissions).toArray 0 (buffer emissions) :=
      fun i _ => by rw [Nat.zero_add, List.getElem?_toArray]
    have hwalk := Bytecode.walk_row hrow (buffer_eq_flatMap emissions).symm hwhole
    rw [placedStarts_map_bytes] at hwalk
    simp only [Nat.zero_add] at hwalk
    exact Bytecode.starts_eq_ok_iff.mpr hwalk
  · have hplaced := hasBytes_buffer hemission
    obtain ⟨operation, hoperation, hasks⟩ := emission.exists_operationAt? hplaced
    exact ⟨emission.isInstruction_bytes _ _ hplaced, operation, hoperation, hasks,
      hasks.takesAtLeast⟩

/-- One instruction of each form, and a call. -/
def fiveEmissions : List Emission :=
  [.access .load (.primitive .int) 3, .access .store (.primitive .long) 4,
    .access .load (.reference "X") 255, .access .store (.primitive .double) 256,
    .proceed { result := none, bootstrapIndex := 0, callSiteIndex := 258 }]

/-- The five instructions start at the numbers of bytes before them. The fourth one, behind
the prefix, is a store into slot 256. -/
theorem buffer_decodes_five :
    Bytecode.starts (buffer fiveEmissions).toArray = .ok [0, 1, 3, 5, 9] ∧
      fiveEmissions[3]? = some (.access .store (.primitive .double) 256) ∧
      Bytecode.instructionLength (buffer fiveEmissions).toArray 5 = .ok 4 ∧
      ∃ operation, Bytecode.operationAt? (buffer fiveEmissions).toArray 5 = some operation ∧
        (Emission.access .store (.primitive .double) 256).Asks operation ∧
        operation.TakesAtLeast 4 := by
  obtain ⟨hstarts, hdecoded⟩ := buffer_decodes fiveEmissions
  have hfourth : fiveEmissions[3]? = some (.access .store (.primitive .double) 256) := rfl
  exact ⟨hstarts, hfourth, hdecoded 3 _ hfourth⟩

end Emission

end JvmClass
