import JvmClass.Proofs.CallSite.Alignment
import JvmClass.Proofs.Instruction.Moves

/-!
# Prologues of replaced calls

The arguments of a replaced call are moved from the operand stack into fresh slots. The
slots are allotted from the first parameter to the last, and the arguments are stored from
the last to the first, because the last one is on top of the stack.
-/

namespace JvmClass

/-! ## Ranges of slots -/

/-- So many slots from one on. -/
structure SlotRange where
  /-- The first slot. -/
  start : Nat
  /-- The number of slots. -/
  size : Nat

/-- Whether a slot is in a range. -/
def SlotRange.Contains (range : SlotRange) (slot : Nat) : Prop :=
  range.start ≤ slot ∧ slot < range.start + range.size

/-- Whether no slot is in both of two ranges. -/
def SlotRange.Disjoint (a b : SlotRange) : Prop := ∀ slot, ¬ (a.Contains slot ∧ b.Contains slot)

namespace ReplacementSlots

variable {slot first : Nat} {types parameters : List Descriptor} {result : Option Descriptor}

/-- The slots of values with these first slots. -/
def rangesAt (slots : List Nat) (types : List Descriptor) : List SlotRange :=
  List.zipWith (fun slot d => ⟨slot, d.slots⟩) slots types

/-- The slots of `$0`, of the arguments in order, and of `$_`. -/
def ranges (slots : ReplacementSlots) (parameters : List Descriptor) (result : Option Descriptor) :
    List SlotRange :=
  ⟨slots.first, 1⟩ :: (rangesAt slots.arguments parameters ++
    [⟨slots.result, (result.map Descriptor.slots).getD 0⟩])

/-- Values in consecutive slots begin behind those before them. -/
theorem getElem?_consecutive {k : Nat} (hk : k < types.length) :
    (consecutive slot types)[k]? = some (slot + total (types.take k)) := by
  induction types generalizing slot k with
  | nil => cases hk
  | cons d types ih =>
    cases k with
    | zero => rfl
    | succ k =>
      rw [consecutive, List.getElem?_cons_succ, ih (Nat.lt_of_succ_lt_succ hk), List.take_succ_cons,
        total, Nat.add_assoc]

/-- Consecutive ranges lie in the slots of all values. -/
theorem mem_rangesAt_consecutive {range : SlotRange}
    (h : range ∈ rangesAt (consecutive slot types) types) :
    slot ≤ range.start ∧ range.start + range.size ≤ slot + total types := by
  induction types generalizing slot with
  | nil => cases h
  | cons d types ih =>
    rw [total]
    rcases List.mem_cons.mp h with rfl | h
    · dsimp only
      omega
    · have hrest := ih h
      omega

/-- Of consecutive ranges, each ends before the next one starts. -/
theorem pairwise_rangesAt_consecutive (slot : Nat) (types : List Descriptor) :
    (rangesAt (consecutive slot types) types).Pairwise fun a b => a.start + a.size ≤ b.start := by
  induction types generalizing slot with
  | nil => exact .nil
  | cons d types ih =>
    exact .cons (fun range h => (mem_rangesAt_consecutive h).1) (ih (slot + d.slots))

/-- The slots that are allotted lie behind those in use and before the end. -/
theorem bounds_of_mem_ranges {range : SlotRange}
    (h : range ∈ (allot first parameters result).ranges parameters result) :
    first ≤ range.start ∧ range.start + range.size ≤ (allot first parameters result).stop := by
  unfold ranges allot at *
  rcases List.mem_cons.mp h with rfl | h
  · dsimp only
    omega
  rcases List.mem_append.mp h with h | h
  · have hbounds := mem_rangesAt_consecutive h
    dsimp only
    omega
  · cases List.mem_singleton.mp h
    dsimp only
    omega

/-- The slots that are allotted are disjoint. -/
theorem pairwise_disjoint_ranges (first : Nat) (parameters : List Descriptor)
    (result : Option Descriptor) :
    ((allot first parameters result).ranges parameters result).Pairwise SlotRange.Disjoint := by
  have horder : ((allot first parameters result).ranges parameters result).Pairwise
      fun a b => a.start + a.size ≤ b.start := by
    refine .cons (fun range h => ?_) (List.pairwise_append.mpr
      ⟨pairwise_rangesAt_consecutive .., List.pairwise_singleton .., fun range h last hlast => ?_⟩)
    · rcases List.mem_append.mp h with h | h
      · exact (mem_rangesAt_consecutive h).1
      · cases List.mem_singleton.mp h
        exact Nat.le_add_right ..
    · cases List.mem_singleton.mp hlast
      exact (mem_rangesAt_consecutive h).2
  refine horder.imp fun hle slot hboth => ?_
  obtain ⟨⟨-, hlt⟩, hge, -⟩ := hboth
  omega

/-! ## Stored arguments -/

/-- The code that stores values of these types in consecutive slots. The last one is on top
of the stack. -/
def stores (slot : Nat) (types : List Descriptor) : List UInt8 :=
  (types.zip (consecutive slot types)).reverse.flatMap fun (d, slot) =>
    d.store (UInt16.ofNat slot)

/-- The first value is stored last. -/
theorem stores_cons (slot : Nat) (d : Descriptor) (types : List Descriptor) :
    stores slot (d :: types) = stores (slot + d.slots) types ++ d.store (UInt16.ofNat slot) := by
  unfold stores
  rw [consecutive, List.zip_cons_cons, List.reverse_cons, List.flatMap_append,
    List.flatMap_singleton]

/-- A prologue stores the arguments, and then the null reference. -/
theorem prologue_allot (first : Nat) (parameters : List Descriptor) (result : Option Descriptor) :
    (allot first parameters result).prologue parameters = stores (first + 1) parameters ++
      ([Opcode.aconstNull] ++ Family.reference.store (UInt16.ofNat first)) := rfl

section Run

variable {α : Type} {code : Bytecode} {frame : Frame α} {v : Operand α} {rest : List (Operand α)}
  {arguments : List (Operand α)}

/-- A store moves the top of the stack into its slots. -/
theorem step_store {family : Family} {slot : UInt16}
    (hbytes : code.HasBytes frame.position (family.store slot)) (hstack : frame.stack = v :: rest)
    (hfamily : v.family = family) :
    frame.step code = some ({ frame with
      position := frame.position + (family.store slot).length
      stack := rest }.put slot.toNat v) := by
  have hlength := family.isInstruction_store slot code frame.position hbytes
  have hmade : frame.make (.store family slot.toNat) =
      some ({ frame with stack := rest }.put slot.toNat v) := by
    simp only [Frame.make, hstack, if_pos hfamily]
  simp only [Frame.step, hbytes.moveAt?_store, hlength, Except.toOption, hmade,
    Option.bind_eq_bind, Option.bind_some]
  rfl

/-- The null reference is pushed. -/
theorem step_pushNull (hbytes : code.HasBytes frame.position [Opcode.aconstNull]) :
    frame.step code =
      some { frame with position := frame.position + 1, stack := .null :: frame.stack } := by
  have hinstruction : Bytecode.IsInstruction [Opcode.aconstNull] :=
    Bytecode.isInstruction_of_fixed (by decide)
  have hlength := hinstruction code frame.position hbytes
  have hbyte : code[frame.position]? = some Opcode.aconstNull := hbytes 0 Nat.one_pos
  have hmove : code.moveAt? frame.position = some .pushNull := by
    unfold Bytecode.moveAt?
    rw [hbyte]
    rfl
  simp only [Frame.step, hmove, hlength, Except.toOption, Frame.make, Option.bind_eq_bind,
    Option.bind_some]
  rfl

/-- What a frame is like when values of these types are stored in consecutive slots. -/
structure Stored (slot : Nat) (types : List Descriptor) (arguments : List (Operand α))
    (frame final : Frame α) : Prop where
  /-- Each value is held behind those before it. -/
  held : ∀ k v, arguments[k]? = some v → final.Holds (slot + total (types.take k)) v
  /-- All other slots keep what they have. -/
  kept : ∀ i, i < slot ∨ slot + total types ≤ i → final.words i = frame.words i

/-- One more value is stored in front of the others. -/
theorem Stored.cons {d : Descriptor} {mid : Frame α} (hv : v.family = d.family)
    (stored : Stored (slot + d.slots) types arguments frame mid) :
    Stored slot (d :: types) (v :: arguments) frame (mid.put slot v) := by
  have hsize : v.family.slots = d.slots := by rw [hv, d.slots_family]
  constructor
  · intro k a ha
    cases k with
    | zero =>
      cases ha
      exact mid.holds_put slot v
    | succ k =>
      have hheld := stored.held k a ha
      rw [List.take_succ_cons, total, ← Nat.add_assoc]
      exact hheld.of_words fun i hi _ => Frame.words_put (.inr (by omega))
  · intro i hi
    rw [total] at hi
    rw [Frame.words_put (by omega)]
    exact stored.kept i (by omega)

/-- Values on the stack are stored one after the other. -/
theorem run_stores (typed : List.Forall₂ (fun d v => v.family = d.family) types arguments)
    (hroom : slot + total types ≤ 65536)
    (hbytes : code.HasBytes frame.position (stores slot types))
    (hstack : frame.stack = arguments.reverse ++ rest) :
    ∃ final, frame.run code types.length = some final ∧
      final.position = frame.position + (stores slot types).length ∧ final.stack = rest ∧
      Stored slot types arguments frame final := by
  induction typed generalizing slot rest with
  | nil =>
    refine ⟨frame, rfl, rfl, hstack, ?_, fun i _ => rfl⟩
    intro k v hv
    cases hv
  | @cons d v types arguments hv typed ih =>
    rw [stores_cons] at hbytes ⊢
    rw [total] at hroom
    obtain ⟨hothers, hfirst⟩ := Bytecode.hasBytes_append.mp hbytes
    rw [List.reverse_cons, List.append_assoc, List.singleton_append] at hstack
    obtain ⟨mid, hrun, hposition, hrest, stored⟩ := ih (by omega) hothers hstack
    rw [← hposition] at hfirst
    have hstep := step_store hfirst hrest hv
    have hsize : 0 < d.slots := by
      unfold Descriptor.slots
      split <;> decide
    have hslot : (UInt16.ofNat slot).toNat = slot := by
      rw [UInt16.toNat_ofNat', Nat.mod_eq_of_lt (by omega)]
    rw [hslot] at hstep
    have popped : Stored (slot + d.slots) types arguments frame
        { mid with
          position := mid.position + (d.store (UInt16.ofNat slot)).length
          stack := rest } := ⟨stored.held, stored.kept⟩
    refine ⟨_, ?_, ?_, ?_, popped.cons hv⟩
    · rw [List.length_cons, Frame.run_add, hrun]
      show mid.step code >>= Frame.run code 0 = _
      rw [hstep]
      rfl
    · show mid.position + _ = _
      rw [hposition, List.length_append, Nat.add_assoc]
    · rfl

/-- A prologue moves the arguments from the stack into their slots, behind an object that is
null. -/
theorem run_prologue
    (typed : List.Forall₂ (fun d v => v.family = d.family) parameters arguments)
    (hroom : (allot first parameters result).stop ≤ 65535)
    (hbytes : code.HasBytes frame.position ((allot first parameters result).prologue parameters))
    (hstack : frame.stack = arguments.reverse ++ rest) :
    ∃ final, frame.run code (parameters.length + 2) = some final ∧
      final.position =
        frame.position + ((allot first parameters result).prologue parameters).length ∧
      final.stack = rest ∧
      Stored first (.reference "java/lang/Object" :: parameters) (.null :: arguments) frame
        final := by
  have hstop : first + 1 + total parameters ≤ 65535 := Nat.le_trans (Nat.le_add_right ..) hroom
  rw [prologue_allot] at hbytes ⊢
  obtain ⟨hstores, hnull⟩ := Bytecode.hasBytes_append.mp hbytes
  obtain ⟨hpush, hfirst⟩ := Bytecode.hasBytes_append.mp hnull
  obtain ⟨mid, hrun, hposition, hrest, stored⟩ :=
    run_stores typed (Nat.le_succ_of_le hstop) hstores hstack
  rw [← hposition] at hpush hfirst
  have hslot : (UInt16.ofNat first).toNat = first := by
    rw [UInt16.toNat_ofNat', Nat.mod_eq_of_lt (by omega)]
  have hpushed := step_pushNull hpush
  have hstored : Frame.step code
      { mid with position := mid.position + 1, stack := .null :: mid.stack } = some _ :=
    step_store hfirst rfl rfl
  rw [hslot] at hstored
  have popped : Stored (first + 1) parameters arguments frame
      { mid with
        position := mid.position + 1 + (Family.reference.store (UInt16.ofNat first)).length } :=
    ⟨stored.held, stored.kept⟩
  refine ⟨_, ?_, ?_, ?_, popped.cons rfl⟩
  · rw [Frame.run_add, hrun]
    show mid.step code >>= Frame.run code 1 = _
    rw [hpushed]
    show Frame.step code _ >>= Frame.run code 0 = _
    rw [hstored]
    rfl
  · show mid.position + 1 + _ = _
    rw [hposition, List.length_append, List.length_append, List.length_singleton]
    omega
  · exact hrest

end Run

end ReplacementSlots

namespace CallSite

open ReplacementSlots (total)

variable {σ : Type} {compiler : StatementCompiler σ} {statement : String} {state : σ}
  {call : CallSite} {c : ClassFile}

/-! ## Replacements -/

/-- The code that is spliced in stands where the call was. -/
theorem hasBytes_of_splice {old new : Code} {body : List UInt8}
    (h : call.splice old body = .ok new) : Bytecode.HasBytes new.bytes call.position body := by
  unfold splice at h
  obtain ⟨blanked, -, h⟩ := bind_eq_ok_iff.mp h
  obtain ⟨⟨inserted, opened⟩, -, h⟩ := bind_eq_ok_iff.mp h
  obtain ⟨hroom, rfl⟩ := Code.write_eq_ok_iff.mp h
  exact fun i hi => Bytecode.getElem?_overwrite_of_inside hi hroom

/-- A step of a compiler has succeeded if the run of it has. -/
theorem runOn_runCompiler_eq_ok_iff {α : Type} {step : ExceptT CompileError (StateM σ) α} {a : α}
    {next : σ} :
    (runCompiler step).runOn state = (.ok a, next) ↔ step.run state = (.ok a, next) := by
  unfold runCompiler Edit.runOn
  simp only [ExceptT.mk, ExceptT.run]
  split
  · next b after hrun =>
    rw [hrun]
    constructor <;> intro h <;> cases h <;> rfl
  · next e after hrun =>
    rw [hrun]
    exact iff_of_false (fun h => by cases h) fun h => by cases h

namespace Replacement

/-- Whether the slots of a replacement are fresh. -/
structure Fresh (r : Replacement) : Prop where
  /-- No two of `$0`, the arguments and `$_` share a slot. -/
  disjoint : (r.slots.ranges r.parameters r.result).Pairwise SlotRange.Disjoint
  /-- They lie behind the slots of the old body. -/
  above : ∀ range ∈ r.slots.ranges r.parameters r.result, r.old.maxLocals.toNat ≤ range.start
  /-- They lie within the slots of the new body. -/
  below : ∀ range ∈ r.slots.ranges r.parameters r.result,
    range.start + range.size ≤ r.new.maxLocals.toNat
  /-- Each argument has the slot that follows from the slot of `$0` and the parameters
  before it. -/
  derived : ∀ k < r.parameters.length, r.slots.arguments[k]? =
    some (r.old.maxLocals.toNat + 1 + total (r.parameters.take k))

/-- Whether a compiler was told of the slots: the slot of `$0`, from which it derives those
of the arguments, and the slot of `$_`. -/
def Declared (r : Replacement) (compiler : StatementCompiler σ) (owner : String) (state : σ) :
    Prop :=
  ∃ recorded final slot,
    (compiler.recordParameters owner r.parameters true r.old.maxLocals).run state =
        (.ok (), recorded) ∧
      slot.toNat = r.old.maxLocals.toNat + 1 + total r.parameters ∧
      (compiler.recordResult r.result slot).run recorded = (.ok (), final)

/-- Whether the prologue at a position, run on any frame with arguments on top of its
stack, moves these into their slots. It runs to its end and takes nothing else from the
stack. Each argument is stored by an instruction of its own family, in the slot that the
compiler derives for it, and null is stored in the slot of `$0`. No other slot changes. -/
def MovesArguments (r : Replacement) (position : Nat) : Prop :=
  ∀ (α : Type) (frame : Frame α) (arguments rest : List (Operand α)),
    List.Forall₂ (fun d v => v.family = d.family) r.parameters arguments →
      frame.position = position → frame.stack = arguments.reverse ++ rest →
        ∃ final, frame.run r.new.bytes (r.parameters.length + 2) = some final ∧
          final.position = position + r.prologue.length ∧ final.stack = rest ∧
          final.Holds r.old.maxLocals.toNat .null ∧
          (∀ k v, arguments[k]? = some v →
            final.Holds (r.old.maxLocals.toNat + 1 + total (r.parameters.take k)) v) ∧
          ∀ i, i < r.old.maxLocals.toNat ∨ r.old.maxLocals.toNat + 1 + total r.parameters ≤ i →
            final.words i = frame.words i

namespace Performed

variable {r : Replacement} {before after : σ × ClassFile}
  (performed : r.Performed compiler statement call before after)

include performed

/-- The slots of a replacement are fresh. -/
theorem fresh : r.Fresh := by
  refine ⟨ReplacementSlots.pairwise_disjoint_ranges .., fun range h =>
    (ReplacementSlots.bounds_of_mem_ranges h).1, fun range h => ?_,
    fun k hk => ReplacementSlots.getElem?_consecutive hk⟩
  have hbounds : range.start + range.size ≤ r.slots.stop :=
    (ReplacementSlots.bounds_of_mem_ranges h).2
  have hstop := performed.slots
  obtain ⟨spliced, moved, -, -, -, hnew, -⟩ := replacedCode_eq_ok performed.new
  rw [hnew]
  show _ ≤ (max (max spliced.maxLocals _) _).toNat
  rw [toNat_max, toNat_max, UInt16.toNat_ofNat', Nat.mod_eq_of_lt (by omega)]
  omega

/-- The compiler was told of the slots. -/
theorem declared : ∃ owner, before.2.name = .ok owner ∧ r.Declared compiler owner before.1 := by
  obtain ⟨owner, howner, hcompiled⟩ := performed.compiled
  have hstop := performed.slots
  have hresult : r.slots.result ≤ r.slots.stop := Nat.le_add_right ..
  unfold compileStatement at hcompiled
  obtain ⟨⟨⟩, recorded, hparameters, hcompiled⟩ := (Edit.runOn_bind_eq_ok_iff _).mp hcompiled
  obtain ⟨⟨⟩, final, hresult, -⟩ := (Edit.runOn_bind_eq_ok_iff _).mp hcompiled
  have hfirst : UInt16.ofNat r.slots.first = r.old.maxLocals := UInt16.ofNat_toNat
  refine ⟨owner, howner, recorded, final, UInt16.ofNat r.slots.result, ?_, ?_,
    runOn_runCompiler_eq_ok_iff.mp hresult⟩
  · rw [← hfirst]
    exact runOn_runCompiler_eq_ok_iff.mp hparameters
  · rw [UInt16.toNat_ofNat', Nat.mod_eq_of_lt (by omega)]
    rfl

/-- The prologue moves the arguments of the call. -/
theorem movesArguments : r.MovesArguments call.position := by
  intro α frame arguments rest typed hposition hstack
  obtain ⟨spliced, moved, hspliced, -, -, hnew, -⟩ := replacedCode_eq_ok performed.new
  have hbody : Bytecode.HasBytes r.new.bytes call.position
      (r.prologue ++ r.compiled.code ++ r.epilogue) := by
    have hplaced := hasBytes_of_splice hspliced
    rw [hnew]
    exact hplaced
  have hprologue := (Bytecode.hasBytes_append.mp (Bytecode.hasBytes_append.mp hbody).1).1
  rw [← hposition] at hprologue ⊢
  obtain ⟨final, hrun, hend, hrest, stored⟩ :=
    ReplacementSlots.run_prologue typed performed.slots hprologue hstack
  refine ⟨final, hrun, hend, hrest, stored.held 0 .null rfl, fun k v hv => ?_, fun i hi => ?_⟩
  · have hheld := stored.held (k + 1) v hv
    rw [List.take_succ_cons, total, ← Nat.add_assoc] at hheld
    exact hheld
  · refine stored.kept i ?_
    rw [total, ← Nat.add_assoc]
    exact hi

end Performed

end Replacement

/-- A replacement whose slots would not fit 16 bits fails and changes nothing. The name of
the class is read before the slots are allotted. -/
theorem replace_eq_overflow {descriptor owner : String} {parameters : List Descriptor}
    {result : Option Descriptor} {code : Code} (hdescriptor : call.descriptor c = .ok descriptor)
    (hsignature : signature descriptor = .ok (parameters, result)) (howner : c.name = .ok owner)
    (hcode : c.codeAt? call.method = some code)
    (hstop : 65535 < (ReplacementSlots.allot code.maxLocals.toNat parameters result).stop) :
    (replace compiler statement).runOn (state, call, c) =
      (.error (.overflow .maxLocals), state, call, c) := by
  unfold replace Edit.runOn
  simp only [ExceptT.mk, ExceptT.run, hdescriptor, hsignature, howner, hcode, ok_bind,
    if_pos hstop]
  rfl

/-- A replacement that succeeds moves the arguments of the call into fresh slots. The slots
of `$0`, of the arguments and of `$_` are disjoint, and lie behind those of the old body and
within those of the new one. The compiler is told the slot of `$0`, and each argument is
found where it is expected from that. If the slots would not fit 16 bits, and the class can
tell its name, then the replacement fails, and says so. -/
theorem replace_moves_arguments (compiler : StatementCompiler σ) (statement : String) (state : σ)
    (call : CallSite) (c : ClassFile) :
    (∀ state' call' c',
      (replace compiler statement).runOn (state, call, c) = (.ok (), state', call', c') →
        ∃ r : Replacement, r.Performed compiler statement call (state, c) (state', c') ∧
          c'.codeAt? call.method = some r.new ∧ r.Fresh ∧
          (∃ owner, c.name = .ok owner ∧ r.Declared compiler owner state) ∧
          r.MovesArguments call.position) ∧
      ∀ descriptor parameters result owner code, call.descriptor c = .ok descriptor →
        signature descriptor = .ok (parameters, result) → c.name = .ok owner →
          c.codeAt? call.method = some code →
            65535 < code.maxLocals.toNat + 1 + total parameters +
                (result.map Descriptor.slots).getD 0 →
              (replace compiler statement).runOn (state, call, c) =
                (.error (.overflow .maxLocals), state, call, c) := by
  refine ⟨fun state' call' c' h => ?_,
    fun descriptor parameters result owner code hdescriptor hsignature howner hcode hstop =>
      replace_eq_overflow hdescriptor hsignature howner hcode hstop⟩
  obtain ⟨r, performed, -⟩ := exists_performed h
  have hchanged : c' = c.withCodeAt call.method r.new := performed.changed
  refine ⟨r, performed, ?_, performed.fresh, performed.declared, performed.movesArguments⟩
  rw [hchanged]
  exact ClassFile.codeAt?_withCodeAt r.new performed.old

/-- A body that returns the result of a call with a long, an int and a double. A float is left
below them on the stack. -/
def mixedCode : Code where
  maxStack := 6
  maxLocals := 253
  bytes := #[0x0b, 0x1e, 0x1c, 0x29, 0xba, 0, 6, 0, 0, 0xaf]
  handlers := []
  attributes := []

/-- A class with a method that has this body. -/
def mixedClass : ClassFile :=
  let slots := retryClass.pool.slots.setIfInBounds 4 (some (.text "(JID)D"))
  { retryClass with pool := { retryClass.pool with slots } }.withCodeAt 0 mixedCode

/-- The call in this body. -/
def mixedCall : CallSite := { retryCall with position := 4, stop := 9 }

/-- The types of its arguments. -/
def mixedParameters : List Descriptor := [.primitive .long, .primitive .int, .primitive .double]

/-- A statement that makes the third argument the result. -/
def thirdArgument : CompiledStatement :=
  { code := [0xc4, 0x18, 1, 1, 0xc4, 0x39, 1, 3], handlers := [], maxStack := 2, maxLocals := 261 }

/-- A frame at the call. -/
def mixedFrame : Frame String where
  position := 4
  stack := [.value .double "d", .value .int "i", .value .long "j", .value .float "f"]
  words _ := none

/-- A body whose call needs more slots than there are. -/
def fullCode : Code := { retryCode with maxLocals := 65535 }

/-- A class with a method that has this body. -/
def fullClass : ClassFile := retryClass.withCodeAt 0 fullCode

/-- The call of the one body is replaced, and that of the other one is not. The arguments of
the first call are stored from the last to the first: the double in slots 257 and 258, the int
in slot 256 and the long in slots 254 and 255. -/
theorem replace_moves_arguments_mixed :
    (ofInstruction mixedClass 0 4 = .ok mixedCall ∧
      ∃ state' call' c', (replace (constantCompiler thirdArgument) "$_ = $3;").runOn
          ((), mixedCall, mixedClass) = (.ok (), state', call', c') ∧
        ∃ r : Replacement, c'.codeAt? 0 = some r.new ∧ r.Fresh ∧ r.MovesArguments 4 ∧
          r.slots.ranges r.parameters r.result =
            [⟨253, 1⟩, ⟨254, 2⟩, ⟨256, 1⟩, ⟨257, 2⟩, ⟨259, 2⟩] ∧
          r.prologue = [0xc4, 0x39, 1, 1, 0xc4, 0x36, 1, 0, 0x37, 254, 0x01, 0x3a, 253] ∧
          ∃ final, mixedFrame.run r.new.bytes 5 = some final ∧ final.position = 17 ∧
            final.stack = [.value .float "f"] ∧ final.Holds 253 .null ∧
            final.Holds 254 (.value .long "j") ∧ final.Holds 256 (.value .int "i") ∧
            final.Holds 257 (.value .double "d")) ∧
      (retryCall.descriptor fullClass = .ok "(I)I" ∧ fullClass.name = .ok "A" ∧
        fullClass.codeAt? 0 = some fullCode) ∧
        (replace (constantCompiler firstArgument) "$_ = $1;").runOn ((), retryCall, fullClass) =
          (.error (.overflow .maxLocals), (), retryCall, fullClass) := by
  constructor
  · have hcall : ofInstruction mixedClass 0 4 = .ok mixedCall := by decide +kernel
    have hreplaced : ((replace (constantCompiler thirdArgument) "$_ = $3;").runOn
        ((), mixedCall, mixedClass)).1 = .ok () := by decide +kernel
    have houtcome := Edit.runOn_eq_of_fst _ hreplaced
    obtain ⟨⟨old, new, parameters, result, compiled⟩, performed, hnew, hfresh, -, hmoves⟩ :=
      (replace_moves_arguments (constantCompiler thirdArgument) "$_ = $3;" () mixedCall
        mixedClass).1 _ _ _ houtcome
    have hcode : mixedClass.codeAt? 0 = some mixedCode := by decide +kernel
    have hdescriptor : mixedCall.descriptor mixedClass = .ok "(JID)D" := by decide +kernel
    have hsignature : signature "(JID)D" =
        .ok (mixedParameters, some (.primitive .double)) := by decide +kernel
    -- the descriptor fixes the types of the replacement, and the class its old body
    obtain ⟨descriptor, hfound, htypes⟩ := performed.signature
    cases hdescriptor.symm.trans hfound
    cases hsignature.symm.trans htypes
    cases hcode.symm.trans performed.old
    have hprologue :
        (ReplacementSlots.allot 253 mixedParameters (some (.primitive .double))).prologue
          mixedParameters =
            [0xc4, 0x39, 1, 1, 0xc4, 0x36, 1, 0, 0x37, 254, 0x01, 0x3a, 253] := by decide +kernel
    have typed : List.Forall₂ (fun (d : Descriptor) (v : Operand String) => v.family = d.family)
        mixedParameters [.value .long "j", .value .int "i", .value .double "d"] :=
      .cons rfl (.cons rfl (.cons rfl .nil))
    obtain ⟨final, hrun, hposition, hstack, hnull, hheld, -⟩ :=
      hmoves String mixedFrame _ [.value .float "f"] typed rfl rfl
    have hend : final.position = 17 := hposition.trans (congrArg (4 + List.length ·) hprologue)
    exact ⟨hcall, _, _, _, houtcome, _, hnew, hfresh, hmoves, rfl, hprologue, final, hrun, hend,
      hstack, hnull, hheld 0 _ rfl, hheld 1 _ rfl, hheld 2 _ rfl⟩
  · have hdescriptor : retryCall.descriptor fullClass = .ok "(I)I" := by decide +kernel
    have hsignature : signature "(I)I" =
        .ok ([.primitive .int], some (.primitive .int)) := by decide +kernel
    have hname : fullClass.name = .ok "A" := by decide +kernel
    have hcode : fullClass.codeAt? 0 = some fullCode := by decide +kernel
    exact ⟨⟨hdescriptor, hname, hcode⟩,
      (replace_moves_arguments (constantCompiler firstArgument) "$_ = $1;" () retryCall
        fullClass).2 _ _ _ _ _ hdescriptor hsignature hname hcode (by decide)⟩

/-- A class whose name cannot be read says so first, even if there are not enough slots. -/
theorem not_overflow_of_unnamed :
    ¬ ∀ (compiler : StatementCompiler Unit) (statement : String) (call : CallSite) (c : ClassFile)
        (descriptor : String) (parameters : List Descriptor) (result : Option Descriptor)
        (code : Code), call.descriptor c = .ok descriptor →
          signature descriptor = .ok (parameters, result) → c.codeAt? call.method = some code →
            65535 < code.maxLocals.toNat + 1 + total parameters +
                (result.map Descriptor.slots).getD 0 →
              ((replace compiler statement).runOn ((), call, c)).1 =
                .error (.overflow .maxLocals) := by
  intro hclaim
  have hfailed : ((replace (constantCompiler firstArgument) "$_ = $1;").runOn
      ((), retryCall, { fullClass with thisClass := 0 })).1 =
        .error (.malformed (.poolIndex 0)) := by decide +kernel
  have hoverflow := hclaim (constantCompiler firstArgument) "$_ = $1;" retryCall
    { fullClass with thisClass := 0 } "(I)I" [.primitive .int] (some (.primitive .int)) fullCode
    (by decide +kernel) (by decide +kernel) (by decide +kernel) (by decide)
  cases hfailed.symm.trans hoverflow

end CallSite

end JvmClass
