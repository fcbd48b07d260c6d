import JvmClass.Proofs.CallSite.Replaced

/-!
# Alignment of compiled statements

Whether a body can be walked after a call was replaced. The prologue, the
epilogue and everything around them can always be walked. The compiled statement
is walked as it was compiled exactly if it stands at a multiple of four or
contains no switch, because a replacement does not align it.
-/

namespace JvmClass

open Bytecode (IsInstruction placedStarts)

/-! ## Loads and stores -/

/-- Moving a value from or to a slot is one instruction. -/
theorem isInstruction_emitSlot {short normal : UInt8}
    (hshort : ∀ k < 4, Layout.ofOpcode (short + UInt8.ofNat k) = .fixed 0)
    (hnormal : Layout.ofOpcode normal = .fixed 1) (slot : UInt16) :
    IsInstruction (emitSlot short normal slot) := by
  unfold emitSlot
  split
  · next hslot =>
    have hlt : slot.toNat < 4 := UInt16.lt_iff_toNat_lt.mp hslot
    exact Bytecode.isInstruction_of_fixed (hshort slot.toNat hlt)
  · split
    · exact Bytecode.isInstruction_of_fixed hnormal
    · refine Bytecode.isInstruction_of_wide fun hiinc => ?_
      rw [hiinc] at hnormal
      cases hnormal

/-- A load is one instruction. -/
theorem Family.isInstruction_load (family : Family) (slot : UInt16) :
    IsInstruction (family.load slot) := by
  cases family <;> exact isInstruction_emitSlot (by decide) (by decide) slot

/-- A store is one instruction. -/
theorem Family.isInstruction_store (family : Family) (slot : UInt16) :
    IsInstruction (family.store slot) := by
  cases family <;> exact isInstruction_emitSlot (by decide) (by decide) slot

/-! ## Prologues and epilogues -/

namespace ReplacementSlots

variable (slots : ReplacementSlots) (parameters : List Descriptor) (result : Option Descriptor)

/-- The instructions of a prologue: a store for each argument, from the last one
to the first, and the null reference with its store. -/
def prologueRow : List (List UInt8) :=
  ((parameters.zip slots.arguments).reverse.map fun (d, slot) => d.store (UInt16.ofNat slot)) ++
    [[Opcode.aconstNull], Family.reference.store (UInt16.ofNat slots.first)]

/-- The instructions of an epilogue: the load of the result, if there is one. -/
def epilogueRow : List (List UInt8) :=
  result.toList.map fun d => d.load (UInt16.ofNat slots.result)

/-- A prologue consists of its instructions. -/
theorem flatten_prologueRow :
    (slots.prologueRow parameters).flatten = slots.prologue parameters := by
  unfold prologueRow prologue
  rw [List.flatten_append, List.flatMap_def]
  simp

/-- An epilogue consists of its instructions. -/
theorem flatten_epilogueRow : (slots.epilogueRow result).flatten = slots.epilogue result := by
  cases result <;> simp [epilogueRow, epilogue]

/-- The instructions of a prologue are instructions everywhere. -/
theorem isInstruction_of_mem_prologueRow {bytes : List UInt8}
    (h : bytes ∈ slots.prologueRow parameters) : IsInstruction bytes := by
  rcases List.mem_append.mp h with h | h
  · obtain ⟨⟨d, slot⟩, -, rfl⟩ := List.mem_map.mp h
    exact d.family.isInstruction_store _
  · rcases List.mem_pair.mp h with rfl | rfl
    · exact Bytecode.isInstruction_of_fixed (by decide)
    · exact Family.isInstruction_store _ _

/-- The instructions of an epilogue are instructions everywhere. -/
theorem isInstruction_of_mem_epilogueRow {bytes : List UInt8}
    (h : bytes ∈ slots.epilogueRow result) : IsInstruction bytes := by
  obtain ⟨d, -, rfl⟩ := List.mem_map.mp h
  exact d.family.isInstruction_load _

end ReplacementSlots

/-! ## The replaced body -/

namespace CallSite

variable {σ : Type} {compiler : StatementCompiler σ} {statement : String} {state state' : σ}
  {call call' : CallSite} {c c' : ClassFile} {method position : Nat} {code : Code}
  {starts compiledStarts : List Nat}

namespace Replacement

/-- Where instructions start after a replacement, if the statement is walked as
it was compiled: those before the call, the stores of the prologue, those of the
statement, the load of the epilogue, those that do nothing, and those behind the
call. -/
def newStarts (r : Replacement) (position : Nat) (old compiledStarts : List Nat) : List Nat :=
  let gap := (shift position r.body.length).gap
  let statement := position + r.prologue.length
  old.filter (· < position) ++
    placedStarts position (r.slots.prologueRow r.parameters) ++
    compiledStarts.map (· + statement) ++
    placedStarts (statement + r.compiled.code.length) (r.slots.epilogueRow r.result) ++
    List.range' (position + r.body.length) (5 + gap - r.body.length) ++
    (old.filter (position < ·)).map (· + gap)

section Parts

variable {r : Replacement} {new : Code} (spliced : r.old.Spliced position r.body starts new)
include spliced

/-- The stores of the prologue are walked up to the statement. -/
theorem walk_prologue : Bytecode.Walk new.bytes position
    (placedStarts position (r.slots.prologueRow r.parameters))
    (position + r.prologue.length) :=
  Bytecode.walk_row (fun _ => r.slots.isInstruction_of_mem_prologueRow r.parameters)
    (r.slots.flatten_prologueRow r.parameters)
    (Bytecode.hasBytes_append.mp (Bytecode.hasBytes_append.mp spliced.placed).1).1

/-- The load of the epilogue is walked from the end of the statement on. -/
theorem walk_epilogue : Bytecode.Walk new.bytes
    (position + r.prologue.length + r.compiled.code.length)
    (placedStarts (position + r.prologue.length + r.compiled.code.length)
      (r.slots.epilogueRow r.result)) (position + r.body.length) := by
  have hend : position + r.body.length =
      position + r.prologue.length + r.compiled.code.length + r.epilogue.length := by
    unfold body
    rw [List.length_append, List.length_append]
    omega
  have hplaced := (Bytecode.hasBytes_append.mp spliced.placed).2
  rw [List.length_append, ← Nat.add_assoc] at hplaced
  rw [hend]
  exact Bytecode.walk_row (fun _ => r.slots.isInstruction_of_mem_epilogueRow r.result)
    (r.slots.flatten_epilogueRow r.result) hplaced

/-- The statement stands between them. -/
theorem hasBytes_statement :
    Bytecode.HasBytes new.bytes (position + r.prologue.length) r.compiled.code :=
  (Bytecode.hasBytes_append.mp (Bytecode.hasBytes_append.mp spliced.placed).1).2

/-- If the statement contains no switch, the code of a replacement is walked from
its first byte to its last. -/
theorem exists_walk_body (hplain : Bytecode.IsPlain r.compiled.code) :
    ∃ passed, Bytecode.Walk new.bytes position passed (position + r.body.length) := by
  obtain ⟨_, statement⟩ := hplain.exists_walk (hasBytes_statement spliced)
  exact ⟨_, ((walk_prologue spliced).trans statement).trans (walk_epilogue spliced)⟩

end Parts

/-- A body with the code of a replacement can be walked from start to start
exactly if the statement can be walked where it stands. -/
theorem walk_iff {r : Replacement} {new : Code}
    (walk : Bytecode.Walk r.old.bytes 0 starts r.old.bytes.size) (hmem : position ∈ starts)
    (hcall : r.old.bytes[position]? = some Opcode.invokeDynamic)
    (spliced : r.old.Spliced position r.body starts new) :
    Bytecode.starts new.bytes = .ok (r.newStarts position starts compiledStarts) ↔
      Bytecode.Walk new.bytes (position + r.prologue.length)
        (compiledStarts.map (· + (position + r.prologue.length)))
        (position + r.prologue.length + r.compiled.code.length) := by
  have later := (walk_epilogue spliced).trans
    (spliced.walk_padding.trans (spliced.walk_behind walk hmem hcall))
  unfold newStarts
  simp only [List.append_assoc]
  rw [Bytecode.starts_eq_ok_iff, (spliced.walk_before walk hmem).append_iff,
    (walk_prologue spliced).append_iff, later.iff_append]

end Replacement

/-- For a statement that can be walked on its own, a replacement that succeeds
leaves a body that can be walked over the instructions of all of its parts
exactly if the statement stands at a multiple of four or contains no switch. -/
theorem replace_starts_iff (hcall : ofInstruction c method position = .ok call)
    (hcode : c.codeAt? method = some code) (hstarts : Bytecode.starts code.bytes = .ok starts)
    (hmem : position ∈ starts)
    (h : (replace compiler statement).runOn (state, call, c) = (.ok (), state', call', c')) :
    ∃ r : Replacement, r.old = code ∧ r.Performed compiler statement call (state, c) (state', c') ∧
      c'.codeAt? method = some r.new ∧
      ∀ compiledStarts, Bytecode.starts r.compiled.code.toArray = .ok compiledStarts →
        (Bytecode.starts r.new.bytes = .ok (r.newStarts position starts compiledStarts) ↔
          (position + r.prologue.length) % 4 = 0 ∨
            ∀ q ∈ compiledStarts, ¬ Bytecode.IsSwitch r.compiled.code.toArray q) := by
  obtain ⟨rfl, hbyte, r, rfl, performed, hnew, -⟩ := exists_replacement hcall hcode h
  have walk := Bytecode.starts_eq_ok_iff.mp hstarts
  refine ⟨r, rfl, performed, hnew, fun compiledStarts hcompiled => ?_⟩
  obtain ⟨spliced, moved, hparts, -, -, hbody⟩ := performed.exists_spliced walk hmem hbyte
  have hbytes : r.new.bytes = spliced.bytes := by rw [hbody]
  rw [hbytes, Replacement.walk_iff walk hmem hbyte hparts]
  exact Bytecode.walk_placed_iff (Bytecode.starts_eq_ok_iff.mp hcompiled)
    (Replacement.hasBytes_statement hparts)

/-- A statement that switches to its own end. -/
def switchStatement : CompiledStatement :=
  { code := [0x03, 0xaa, 0, 0, 0, 0, 0, 19, 0, 0, 0, 0, 0, 0, 0, 0, 0, 0, 0, 19]
    handlers := []
    maxStack := 1
    maxLocals := 0 }

/-- Behind one load and a prologue of three bytes, the statement stands at a
multiple of four. -/
theorem replace_starts_iff_retry :
    (ofInstruction retryClass 0 1 = .ok retryCall ∧ retryClass.codeAt? 0 = some retryCode ∧
      Bytecode.starts retryCode.bytes = .ok [0, 1, 6, 7, 8] ∧ 1 ∈ [0, 1, 6, 7, 8]) ∧
      ∃ call' c', (replace (constantCompiler switchStatement) "$_").runOn
          ((), retryCall, retryClass) = (.ok (), (), call', c') ∧
        ∃ r : Replacement, r.old = retryCode ∧ c'.codeAt? 0 = some r.new ∧
          ∀ compiledStarts, Bytecode.starts r.compiled.code.toArray = .ok compiledStarts →
            (Bytecode.starts r.new.bytes = .ok (r.newStarts 1 [0, 1, 6, 7, 8] compiledStarts) ↔
              (1 + r.prologue.length) % 4 = 0 ∨
                ∀ q ∈ compiledStarts, ¬ Bytecode.IsSwitch r.compiled.code.toArray q) := by
  have hcall : ofInstruction retryClass 0 1 = .ok retryCall := by decide +kernel
  have hcode : retryClass.codeAt? 0 = some retryCode := by decide +kernel
  have hstarts : Bytecode.starts retryCode.bytes = .ok [0, 1, 6, 7, 8] := by decide +kernel
  have hreplaced : ((replace (constantCompiler switchStatement) "$_").runOn
      ((), retryCall, retryClass)).1 = .ok () := by decide +kernel
  have houtcome := Edit.runOn_eq_of_fst _ hreplaced
  obtain ⟨r, hold, -, hnew, hiff⟩ := replace_starts_iff hcall hcode hstarts (by decide) houtcome
  exact ⟨⟨hcall, hcode, hstarts, by decide⟩, _, _, houtcome, r, hold, hnew, hiff⟩

/-- The class with one more instruction before the call. -/
def delayedClass : ClassFile :=
  retryClass.withCodeAt 0
    { retryCode with bytes := #[0, 0x1a, 0xba, 0, 6, 0, 0, 0xac], handlers := [] }

/-- The call behind the two instructions. -/
def delayedCall : CallSite := { retryCall with position := 2, stop := 7 }

/-- One instruction later, the same statement is put into the body all the same,
which then cannot be walked. -/
theorem replace_not_walkable :
    ofInstruction delayedClass 0 2 = .ok delayedCall ∧
      ((delayedClass.codeAt? 0).map fun code => Bytecode.starts code.bytes) =
        some (.ok [0, 1, 2, 7]) ∧
      Bytecode.starts switchStatement.code.toArray = .ok [0, 1] ∧
      ∃ call' c', (replace (constantCompiler switchStatement) "$_").runOn
          ((), delayedCall, delayedClass) = (.ok (), (), call', c') ∧
        ((c'.codeAt? 0).map fun code => Bytecode.starts code.bytes) =
          some (.error (.malformed (.tableSwitch 0x13000000 0))) := by
  have hreplaced : ((replace (constantCompiler switchStatement) "$_").runOn
      ((), delayedCall, delayedClass)).1 = .ok () := by decide +kernel
  have houtcome := Edit.runOn_eq_of_fst _ hreplaced
  refine ⟨by decide +kernel, by decide +kernel, by decide +kernel, _, _, houtcome, ?_⟩
  decide +kernel

end CallSite

end JvmClass
