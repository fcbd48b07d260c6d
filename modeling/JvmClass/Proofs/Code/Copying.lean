import JvmClass.Proofs.Code.WidenedTables

/-!
# Copied bodies

A copied body does what the original does, with renamed constants. Its
instructions are those of the original in the same order, except that a load
whose new index does not fit a byte has become a wide load behind three
instructions that do nothing. All that leads to an instruction, by a branch or
by a table, leads to what the instruction has become.
-/

namespace JvmClass

variable (source : ConstantPool) (names : Renaming) (pool : ConstantPool)

/-! ## Instructions -/

namespace Bytecode

/-- What copying makes of an instruction that keeps its length. -/
structure Simulated (widened : List Nat) (old new : Bytecode) (p : Nat) : Prop where
  /-- It is complete, and as long as it was. -/
  length : ∃ n, old.instructionLength p = .ok n ∧
    new.instructionLength (Widening.home widened p) = .ok n
  /-- Its bytes are those it had, except for distances and pool indices. -/
  bytes : ∀ n, old.instructionLength p = .ok n → ∀ i < n, ¬ old.IsOffsetByte p (p + i) →
    ¬ old.IsPoolByte p (p + i) → new[Widening.home widened p + i]? = old[p + i]?
  /-- Its pool index leads to the renamed constant. -/
  operand : ∀ k, old.poolOperand? p = some k → ∃ i,
    new.poolOperand? (Widening.home widened p) = some i ∧ source.Renumbered names pool k i
  /-- Its branches lead to where references to their targets go. -/
  targets : new.branchTargets (Widening.home widened p) =
    (old.branchTargets p).map (Widening.branchTarget widened)

/-- What copying makes of a load that needs its wide form. -/
structure SimulatedWide (widened : List Nat) (old new : Bytecode) (p : Nat) : Prop where
  /-- It was a load with an index of one byte. -/
  load : old.instructionLength p = .ok 2 ∧ old[p]? = some Opcode.ldc
  /-- Three instructions that do nothing come first. -/
  nops : ∀ i < 3, new[Widening.target widened p + i]? = some Opcode.nop
  /-- A load with an index of two bytes follows. -/
  wide : new.instructionLength (Widening.target widened p + 3) = .ok 3 ∧
    new[Widening.target widened p + 3]? = some Opcode.ldcWide
  /-- Its index does not fit a byte, and leads to the renamed constant. -/
  operand : ∃ k i, old.poolOperand? p = some k ∧
    new.poolOperand? (Widening.target widened p + 3) = some i ∧ 255 < i ∧
      source.Renumbered names pool k i

end Bytecode

/-! ## Tables -/

/-- What copying makes of a handler. -/
structure Handler.Simulated (widened : List Nat) (old new : Handler) : Prop where
  /-- Its positions are where references to them go. -/
  positions : new.positions = old.positions.map (Widening.target widened)
  /-- It covers all that an instruction has become if it covered the instruction,
  and else nothing of it. -/
  covers : ∀ p, ∀ q ∈ Widening.places widened p, (new.Covers q ↔ old.Covers p)
  /-- It catches the renamed class. -/
  catchType : source.Renumbered names pool old.catchType new.catchType

/-- What copying makes of a line number table. -/
structure LineNumber.TableSimulated (widened : List Nat) (old new : List LineNumber) : Prop where
  /-- Its entries are where references to them go. -/
  entries : List.Forall₂ (LineNumber.CarriedBy (Widening.target widened)) old new
  /-- All that an instruction has become has the line of the instruction. -/
  lines : ∀ p, ∀ q ∈ Widening.places widened p, lineAt? new q = lineAt? old p

/-- What copying makes of a local variable. -/
structure LocalVariable.Simulated (rename : String → String) (widened : List Nat)
    (old new : LocalVariable) : Prop where
  /-- Its range is where references to its ends go. -/
  range : new.start.toNat = Widening.target widened old.start.toNat ∧
    new.stop = Widening.target widened old.stop
  /-- It is live at all that an instruction has become if it was live at the
  instruction, and else at nothing of it. -/
  live : ∀ p, ∀ q ∈ Widening.places widened p, ∀ slot, new.isLiveAt q slot = old.isLiveAt p slot
  /-- The name is the same. -/
  name : ∃ name, source.text old.nameIndex = .ok name ∧ pool.text new.nameIndex = .ok name
  /-- The type is renamed. -/
  type : ∃ type, source.text old.typeIndex = .ok type ∧ pool.text new.typeIndex = .ok (rename type)

/-- What copying makes of a verification type: classes are renamed, and an object not
yet initialized is named by where the instruction that created it is. Nothing is said
of positions at which no instruction starts, and of widened loads. -/
def VerificationType.Simulated (starts widened : List Nat) :
    VerificationType → VerificationType → Prop
  | .object i, .object j => source.Renumbered names pool i j
  | .uninitialized old, .uninitialized new =>
    old.toNat ∈ starts → old.toNat ∉ widened → new.toNat = Widening.home widened old.toNat
  | old, new => new = old

/-- What copying makes of a payload. Payloads that are not about positions keep their
kind. -/
def AttributeData.Simulated (starts widened : List Nat) : AttributeData → AttributeData → Prop
  | .lineNumbers old, .lineNumbers new => LineNumber.TableSimulated widened old new
  | .localVariables old, .localVariables new =>
    List.Forall₂ (LocalVariable.Simulated source pool names.descriptor widened) old new
  | .localVariableTypes old, .localVariableTypes new =>
    List.Forall₂ (LocalVariable.Simulated source pool id widened) old new
  | .stackMap old, .stackMap new =>
    StackMap.CarriedBy (Widening.target widened)
      (VerificationType.Simulated source names pool starts widened) old new
  | old, new => new.kind = old.kind

/-- What copying makes of the payload of an attribute. -/
def AttributeBody.Simulated (starts widened : List Nat) : AttributeBody → AttributeBody → Prop
  | .data old, .data new => AttributeData.Simulated source names pool starts widened old new
  | old, new => new.kind = old.kind

/-- What copying makes of an attribute. -/
structure Attribute.Simulated (starts widened : List Nat) (old new : Attribute) : Prop where
  /-- The name is the same. -/
  name : ∃ name, source.text old.nameIndex = .ok name ∧ pool.text new.nameIndex = .ok name
  /-- The payload is about the same instructions. -/
  body : AttributeBody.Simulated source names pool starts widened old.body new.body

/-! ## Bodies -/

/-- What copying makes of a body, some of whose loads need their wide form. -/
structure Code.Simulated (starts widened : List Nat) (old new : Code) : Prop where
  /-- Those loads are among the instructions. -/
  order : widened.Sublist starts
  /-- The code ends where references to its end go. -/
  size : new.bytes.size = Widening.target widened old.bytes.size
  /-- It is walked over what every instruction has become, in the same order. -/
  walk : Bytecode.starts new.bytes = .ok (starts.flatMap (Widening.places widened))
  /-- Most instructions keep their length. -/
  instructions : ∀ p ∈ starts, p ∉ widened →
    Bytecode.Simulated source names pool widened old.bytes new.bytes p
  /-- Some loads get their wide form. -/
  loads : ∀ p ∈ widened, Bytecode.SimulatedWide source names pool widened old.bytes new.bytes p
  /-- The handlers are about the same instructions. -/
  handlers : List.Forall₂ (Handler.Simulated source names pool widened) old.handlers new.handlers
  /-- The attributes are about the same instructions. -/
  attributes : List.Forall₂ (Attribute.Simulated source names pool starts widened)
    old.attributes new.attributes
  /-- The limits are the same. -/
  limits : (new.maxStack, new.maxLocals) = (old.maxStack, old.maxLocals)

/-! ## Tables with copied constants and moved positions -/

section Tables

variable {source names pool} {starts widened : List Nat}

/-- A handler is copied, and then its positions are moved. -/
theorem Handler.simulated_of_carriedBy {old mid new : Handler}
    (copied : Handler.CopyOf source names pool old mid)
    (moved : Handler.CarriedBy (Widening.target widened) mid new) :
    Handler.Simulated source names pool widened old new := by
  have hpositions := moved.positions
  rw [copied.positions_eq] at hpositions
  refine ⟨hpositions, fun p q hq => ?_, ?_⟩
  · obtain ⟨hstart, hrest⟩ := List.cons_eq_cons.mp hpositions
    obtain ⟨hstop, -⟩ := List.cons_eq_cons.mp hrest
    unfold Handler.Covers
    rw [hstart, hstop, Widening.target_le_iff hq, Widening.lt_target_iff hq]
  · rw [moved.catchType]
    exact copied.catchType

/-- The line of an instruction, found in the lines of the table. -/
theorem LineNumber.lineAt?_eq (table : List LineNumber) (p : Nat) :
    lineAt? table p = (((table.takeWhile fun e => e.start.toNat ≤ p).map line).getLast? <|>
      (table.map line).head?) := by
  unfold lineAt?
  simp only [List.getLast?_map, List.head?_map]
  cases (table.takeWhile fun e => e.start.toNat ≤ p).getLast? with
  | some e => rfl
  | none => cases table.head? <;> rfl

/-- The lines of a table with its positions moved. -/
theorem LineNumber.tableSimulated_of_carriedBy {old new : List LineNumber}
    (moved : List.Forall₂ (LineNumber.CarriedBy (Widening.target widened)) old new) :
    LineNumber.TableSimulated widened old new := by
  refine ⟨moved, fun p q hq => ?_⟩
  have hlines {old new : List LineNumber}
      (h : List.Forall₂ (LineNumber.CarriedBy (Widening.target widened)) old new) :
      new.map line = old.map line := by
    induction h with
    | nil => rfl
    | cons h _ ih => rw [List.map_cons, List.map_cons, h.line, ih]
  have hstarted : List.Forall₂ (LineNumber.CarriedBy (Widening.target widened))
      (old.takeWhile fun e => e.start.toNat ≤ p) (new.takeWhile fun e => e.start.toNat ≤ q) := by
    induction moved with
    | nil => exact .nil
    | @cons e e' old new h hrest ih =>
      have hiff : e'.start.toNat ≤ q ↔ e.start.toNat ≤ p := by
        rw [h.start]
        exact Widening.target_le_iff hq
      rw [List.takeWhile_cons, List.takeWhile_cons]
      by_cases hle : e.start.toNat ≤ p
      · rw [if_pos (decide_eq_true hle), if_pos (decide_eq_true (hiff.mpr hle))]
        exact .cons h ih
      · rw [if_neg (by simpa using hle), if_neg (by simpa using fun h => hle (hiff.mp h))]
        exact .nil
  rw [lineAt?_eq, lineAt?_eq, hlines hstarted, hlines moved]

/-- A variable is copied, and then its range is moved. -/
theorem LocalVariable.simulated_of_carriedBy {rename : String → String}
    {old mid new : LocalVariable}
    (copied : LocalVariable.CopyOf source rename pool old mid)
    (moved : LocalVariable.CarriedBy (Widening.target widened) mid new) :
    LocalVariable.Simulated source pool rename widened old new := by
  obtain ⟨hstart, hstop, hslot⟩ := copied.range_eq
  have hfields := moved.fields
  simp only [Prod.mk.injEq] at hfields
  have hstart : new.start.toNat = Widening.target widened old.start.toNat := by
    rw [moved.start, hstart]
  have hstop : new.stop = Widening.target widened old.stop := by
    rw [moved.stop, hstop]
  refine ⟨⟨hstart, hstop⟩, fun p q hq slot => ?_, ?_, ?_⟩
  · unfold isLiveAt
    rw [hstart, hstop, hfields.2.2, hslot,
      decide_eq_decide.mpr (Widening.target_le_iff hq),
      decide_eq_decide.mpr (Widening.lt_target_iff hq)]
  · rw [hfields.1]
    exact copied.name
  · rw [hfields.2.1]
    exact copied.type

/-- A type is copied, and then named by the new position. -/
theorem VerificationType.simulated_of_widenedBy {old mid new : VerificationType}
    (copied : VerificationType.CopyOf source names pool old mid)
    (moved : VerificationType.WidenedBy starts widened mid new) :
    VerificationType.Simulated source names pool starts widened old new := by
  cases old with
  | object i =>
    cases mid with
    | object j =>
      obtain rfl : new = _ := moved
      exact copied
    | _ => cases copied
  | uninitialized position =>
    obtain rfl : mid = _ := copied
    cases new <;> exact moved
  | _ =>
    obtain rfl : mid = _ := copied
    exact moved

/-- Copied frames are where the frames were. -/
theorem StackMap.offsets_of_copyOf {old new : StackMap}
    (copied : List.Forall₂ (StackFrame.CopyOf source names pool) old new) :
    StackMap.offsets new = StackMap.offsets old := by
  rw [offsets_eq, offsets_eq]
  generalize (none : Option Nat) = before
  induction copied generalizing before with
  | nil => rfl
  | cons h _ ih =>
    unfold offsetsFrom
    rw [h.delta, ih]

/-- A stack map is copied, and then its frames are moved. -/
theorem StackMap.carriedBy_of_copyOf {old mid new : StackMap}
    (copied : List.Forall₂ (StackFrame.CopyOf source names pool) old mid)
    (moved : StackMap.CarriedBy (Widening.target widened)
      (VerificationType.WidenedBy starts widened) mid new) :
    StackMap.CarriedBy (Widening.target widened)
      (VerificationType.Simulated source names pool starts widened) old new := by
  refine ⟨?_, ?_⟩
  · rw [moved.offsets, offsets_of_copyOf copied]
  · refine forall₂_trans copied moved.contents fun _ _ _ hcopied hmoved => ⟨?_, ?_, ?_⟩
    · rw [hmoved.gone, hcopied.content.gone]
    · exact forall₂_trans hcopied.content.locals hmoved.locals fun _ _ _ =>
        VerificationType.simulated_of_widenedBy
    · exact forall₂_trans hcopied.content.operands hmoved.operands fun _ _ _ =>
        VerificationType.simulated_of_widenedBy

/-- A payload is copied, and then its positions are moved. -/
theorem AttributeData.simulated_of_carriedBy {old mid new : AttributeData}
    (copied : AttributeData.CopyOf source names pool old mid)
    (moved : AttributeData.CarriedBy (Widening.target widened)
      (VerificationType.WidenedBy starts widened) mid new) :
    AttributeData.Simulated source names pool starts widened old new := by
  have hvariables {rename : String → String} {old mid new : List LocalVariable}
      (hcopied : List.Forall₂ (LocalVariable.CopyOf source rename pool) old mid)
      (hmoved : List.Forall₂ (LocalVariable.CarriedBy (Widening.target widened)) mid new) :
      List.Forall₂ (LocalVariable.Simulated source pool rename widened) old new :=
    forall₂_trans hcopied hmoved fun _ _ _ => LocalVariable.simulated_of_carriedBy
  have hkind : new.kind = mid.kind := AttributeData.kind_of_carriedBy moved
  cases old with
  | lineNumbers old =>
    cases mid with
    | lineNumbers mid =>
      obtain rfl : mid = old := copied
      cases new with
      | lineNumbers new => exact LineNumber.tableSimulated_of_carriedBy moved
      | _ => cases moved
    | _ => cases copied
  | localVariables old =>
    cases mid with
    | localVariables mid =>
      cases new with
      | localVariables new => exact hvariables copied moved
      | _ => cases moved
    | _ => cases copied
  | localVariableTypes old =>
    cases mid with
    | localVariableTypes mid =>
      cases new with
      | localVariableTypes new => exact hvariables copied moved
      | _ => cases moved
    | _ => cases copied
  | stackMap old =>
    cases mid with
    | stackMap mid =>
      cases new with
      | stackMap new => exact StackMap.carriedBy_of_copyOf copied moved
      | _ => cases moved
    | _ => cases copied
  | _ => exact hkind.trans (AttributeData.kind_of_copyOf copied)

/-- The payload of an attribute is copied, and then its positions are moved. -/
theorem AttributeBody.simulated_of_carriedBy {old mid new : AttributeBody}
    (copied : AttributeBody.CopyOf source names pool old mid)
    (moved : AttributeBody.CarriedBy (Widening.target widened)
      (VerificationType.WidenedBy starts widened) mid new) :
    AttributeBody.Simulated source names pool starts widened old new := by
  have hkind : new.kind = mid.kind := AttributeBody.kind_of_carriedBy moved
  cases old with
  | code body => exact hkind.trans copied
  | data payload =>
    cases mid with
    | code body =>
      obtain rfl : new = _ := moved
      exact copied
    | data payload' =>
      cases new with
      | code body => cases moved
      | data payload'' => exact AttributeData.simulated_of_carriedBy copied moved

/-- An attribute is copied, and then its positions are moved. -/
theorem Attribute.simulated_of_carriedBy {old mid new : Attribute}
    (copied : Attribute.CopyOf source names pool old mid)
    (moved : Attribute.CarriedBy (Widening.target widened)
      (VerificationType.WidenedBy starts widened) mid new) :
    Attribute.Simulated source names pool starts widened old new := by
  refine ⟨?_, AttributeBody.simulated_of_carriedBy copied.body moved.body⟩
  rw [moved.nameIndex]
  exact copied.name

/-! ## Positions of copied tables -/

/-- A copied payload refers to the same positions. -/
theorem AttributeData.positions_of_copyOf {old new : AttributeData}
    (copied : AttributeData.CopyOf source names pool old new) : new.positions = old.positions := by
  have hvariables {rename : String → String} {old new : List LocalVariable}
      (h : List.Forall₂ (LocalVariable.CopyOf source rename pool) old new) :
      (new.flatMap fun v => [v.start.toNat, v.stop]) =
        old.flatMap fun v => [v.start.toNat, v.stop] := by
    refine flatMap_eq_of_forall₂ h fun v w hcopied => ?_
    obtain ⟨hstart, hstop, -⟩ := hcopied.range_eq
    rw [hstart, hstop]
  cases old with
  | lineNumbers old =>
    cases new with
    | lineNumbers new =>
      obtain rfl : new = old := copied
      rfl
    | _ => cases copied
  | localVariables old =>
    cases new with
    | localVariables new => exact hvariables copied
    | _ => cases copied
  | localVariableTypes old =>
    cases new with
    | localVariableTypes new => exact hvariables copied
    | _ => cases copied
  | stackMap old =>
    cases new with
    | stackMap new => exact StackMap.offsets_of_copyOf copied
    | _ => cases copied
  | _ => cases new <;> first | rfl | cases copied

/-- The tables of a copied body refer to the same positions. -/
theorem Code.positions_of_copyOf {old new : Code}
    (hhandlers : List.Forall₂ (Handler.CopyOf source names pool) old.handlers new.handlers)
    (hattributes : List.Forall₂ (Attribute.CopyOf source names pool)
      old.attributes new.attributes) : new.positions = old.positions := by
  have hkind (payload : AttributeData) : payload.kind ≠ .code := by cases payload <;> nofun
  unfold positions
  congr 1
  · exact flatMap_eq_of_forall₂ hhandlers fun _ _ hcopied => hcopied.positions_eq
  · refine flatMap_eq_of_forall₂ hattributes fun a a' hcopied => ?_
    obtain ⟨i, body⟩ := a
    obtain ⟨i', body'⟩ := a'
    have hbody := hcopied.body
    cases body with
    | code nested =>
      cases body' with
      | code nested' => rfl
      | data payload => exact absurd hbody (hkind payload)
    | data payload =>
      cases body' with
      | code nested => exact absurd hbody.symm (hkind payload)
      | data payload' => exact AttributeData.positions_of_copyOf hbody

end Tables

/-! ## Copying bodies -/

section Copying

variable {source names pool} {starts widened : List Nat}

/-- An instruction gets its new index, and then is moved. -/
theorem Bytecode.simulated_of_moved {index : UInt16 → UInt16} {old mid new : Bytecode} {p : Nat}
    (replaced : OperandReplaced index old mid p)
    (moved : Moved (Widening.branchTarget widened) mid new p (Widening.home widened p))
    (hnarrow : ¬ old.NeedsWide index p)
    (hrenumbered : ∀ k, old.poolOperand? p = some k →
      source.Renumbered names pool k (old.newIndex index p)) :
    Bytecode.Simulated source names pool widened old new p := by
  obtain ⟨n, hl, hmid⟩ := replaced.length
  obtain ⟨m, hm, hnew⟩ := moved.length
  cases hmid.symm.trans hm
  refine ⟨⟨n, hl, hnew⟩, fun m hm i hi hfree hother => ?_, fun k hk => ?_, ?_⟩
  · cases hl.symm.trans hm
    have hfree' : ¬ mid.IsOffsetByte p (p + i) := by
      unfold IsOffsetByte
      rw [replaced.fields]
      exact hfree
    exact ((moved.same n hmid).bytes i hi hfree').trans (replaced.bytes n hl i hi hother)
  · refine ⟨index k, moved.poolOperand?_eq.trans (replaced.operand hnarrow k hk), ?_⟩
    have hindex := hrenumbered k hk
    unfold newIndex at hindex
    rw [hk, Option.getD_some] at hindex
    exact hindex
  · rw [moved.targets, replaced.targets]

/-- A load gets its wide form. -/
theorem Bytecode.simulatedWide_of_widened {index : UInt16 → UInt16} {old mid new : Bytecode}
    {p n : Nat} (widens : Widened (old.newIndex index) starts widened mid new)
    (hp : p ∈ widened) (hl : old.instructionLength p = .ok n) (hwide : old.NeedsWide index p)
    (hrenumbered : ∀ k, old.poolOperand? p = some k →
      source.Renumbered names pool k (old.newIndex index p)) :
    Bytecode.SimulatedWide source names pool widened old new p := by
  have hload := widens.loads p hp
  rw [Widening.home_of_mem widened hp] at hload
  obtain ⟨hlength, -, hoperand⟩ := instruction_of_wideLoad hload
  have hwidth : 0 < Opcode.poolWidth (old.opcodeAt p) := by
    rw [hwide.1]
    decide
  obtain ⟨k, hk⟩ := exists_poolOperand hl hwidth
  exact ⟨instructionLength_of_ldc hl hwide.1, widens.nops p hp, ⟨hlength, hload 0 (by omega)⟩,
    k, _, hk, hoperand, hwide.2, hrenumbered k hk⟩

namespace Code

open Bytecode (Walk Loads NeedsWide operandChanges)

variable {old new : Code}

/-- What is given to a body before its loads are widened. -/
structure CopyOf (source : ConstantPool) (names : Renaming) (starts : List Nat)
    (pool : ConstantPool) (old new : Code) (handlersCopied : List Handler)
    (attributesCopied : List Attribute) : Prop where
  /-- The attributes are copied. -/
  attributes : List.Forall₂ (Attribute.CopyOf source names pool) old.attributes
    attributesCopied
  /-- The handlers are copied. -/
  handlers : List.Forall₂ (Handler.CopyOf source names pool) old.handlers handlersCopied
  /-- The constants of the instructions are copied. -/
  renumbered : ∀ p ∈ starts, ∀ k, Bytecode.poolOperand? old.bytes p = some k →
    source.Renumbered names pool k
      (Bytecode.newIndex (source.copiedIndex names pool) old.bytes p)
  /-- The new body results from changing the operands. -/
  changed : changeOperands
    { old with handlers := handlersCopied, attributes := attributesCopied }
    (operandChanges (source.copiedIndex names pool) old.bytes starts) = .ok new

/-- A body that can be walked is copied for good. -/
theorem lasting_copy (source : ConstantPool) (names : Renaming)
    (walk : Walk old.bytes 0 starts old.bytes.size) :
    ConstantPool.Lasting (Code.copy source names old) fun pool new =>
      ∃ handlers attributes, CopyOf source names starts pool old new handlers attributes := by
  obtain ⟨maxStack, maxLocals, bytes, handlers, attributes⟩ := old
  rw [Code.copy]
  refine (lasting_copyList source names attributes []).bind fun attributes' => ?_
  refine (ConstantPool.lasting_mapM fun h _ => lasting_copyHandler source names h).bind
    fun handlers' => ?_
  refine (Bytecode.lasting_copyOperands source names walk).bind fun changes => ?_
  refine (ConstantPool.lasting_lift _).imp
    fun pool new hchanged hoperands hhandlers hattributes => ?_
  obtain ⟨copies, hout, hcopies⟩ := hattributes
  rw [List.reverse_nil, List.nil_append] at hout
  subst hout
  have hchanges := hoperands.changes
  simp only [List.append_nil] at hchanges
  rw [hchanges] at hchanged
  exact ⟨handlers', attributes', hcopies, hhandlers, hoperands.renumbered, hchanged⟩

/-- The loads that need their wide form are loads of the body with its new indices. -/
theorem loads_filter_needsWide (index : UInt16 → UInt16)
    (walk : Walk old.bytes 0 starts old.bytes.size) :
    Loads (Bytecode.applyPatches old.bytes (operandChanges index old.bytes starts).patches) starts
      (starts.filter (NeedsWide index old.bytes)) where
  order := walk.pairwise_lt.filter _
  starts _ hp := (List.mem_filter.mp hp).1
  length p hp := by
    obtain ⟨hstart, hwide⟩ := List.mem_filter.mp hp
    have hwide : NeedsWide index old.bytes p := of_decide_eq_true hwide
    obtain ⟨n, hl, hpatched⟩ := (walk.operandReplaced index hstart).length
    cases hl.symm.trans (Bytecode.instructionLength_of_ldc hl hwide.1).1
    exact hpatched

/-- New indices leave the instructions where they are. -/
theorem walk_patched (index : UInt16 → UInt16) {bytes : Bytecode}
    (walk : Walk bytes 0 starts bytes.size) :
    Walk (Bytecode.applyPatches bytes (operandChanges index bytes starts).patches) 0 starts
      (Bytecode.applyPatches bytes (operandChanges index bytes starts).patches).size := by
  rw [Bytecode.size_applyPatches]
  refine walk.congr fun p hp => ?_
  obtain ⟨n, hl, hpatched⟩ := (walk.operandReplaced index hp).length
  rw [hl, hpatched]

/-- When operands are changed, the body with its new indices gets its loads widened
that need it. -/
theorem widened_of_changeOperands {index : UInt16 → UInt16} (body : Code)
    (walk : Walk body.bytes 0 starts body.bytes.size)
    (hwithin : ∀ p ∈ body.positions, p ≤ body.bytes.size)
    (h : changeOperands body (operandChanges index body.bytes starts) = .ok new) :
    Code.Widened (Bytecode.newIndex index body.bytes) starts
      (starts.filter (NeedsWide index body.bytes))
      { body with
        bytes := Bytecode.applyPatches body.bytes
          (operandChanges index body.bytes starts).patches }
      new := by
  have hwalk := walk_patched index walk
  -- the loads are listed from back to front, in the order in which they get widened
  have hlater : (starts.reverse.filter (NeedsWide index body.bytes)).reverse ++ [] =
      starts.filter (NeedsWide index body.bytes) := by
    rw [List.filter_reverse, List.reverse_reverse, List.append_nil]
  rw [← hlater]
  refine widened_of_foldlM hwalk ?_ ?_ (widened_nil hwalk) h
  · rw [Bytecode.size_applyPatches]
    exact hwithin
  · rw [hlater]
    exact loads_filter_needsWide index walk

/-- What has been copied and had its operands changed simulates the original. -/
theorem CopyOf.simulated {handlers : List Handler} {attributes : List Attribute}
    (walk : Walk old.bytes 0 starts old.bytes.size)
    (hwithin : ∀ p ∈ old.positions, p ≤ old.bytes.size)
    (copied : CopyOf source names starts pool old new handlers attributes) :
    ∃ widened, Code.Simulated source names pool starts widened old new := by
  have hrenumbered := copied.renumbered
  have hpositions : Code.positions { old with handlers, attributes } = old.positions :=
    positions_of_copyOf copied.handlers copied.attributes
  have widens := widened_of_changeOperands { old with handlers, attributes } walk
    (hpositions ▸ hwithin) copied.changed
  have hloads := loads_filter_needsWide (source.copiedIndex names pool) walk
  have hwalk := walk_patched (source.copiedIndex names pool) walk
  generalize source.copiedIndex names pool = index at *
  refine ⟨starts.filter (NeedsWide index old.bytes), List.filter_sublist, ?_,
    Bytecode.starts_eq_ok_iff.mpr (widens.bytes.walk hwalk hloads), fun p hp hnot => ?_,
    fun p hp => ?_, ?_, ?_, widens.limits⟩
  · rw [widens.bytes.size, Bytecode.size_applyPatches]
  · have hnarrow : ¬ NeedsWide index old.bytes p := fun h =>
      hnot (List.mem_filter.mpr ⟨hp, decide_eq_true h⟩)
    exact Bytecode.simulated_of_moved (walk.operandReplaced index hp)
      (widens.bytes.kept p hp hnot) hnarrow (hrenumbered p hp)
  · obtain ⟨hstart, hwide⟩ := List.mem_filter.mp hp
    obtain ⟨n, hl⟩ := walk.exists_length hstart
    exact Bytecode.simulatedWide_of_widened widens.bytes hp hl (of_decide_eq_true hwide)
      (hrenumbered p hstart)
  · exact forall₂_trans copied.handlers widens.handlers fun _ _ _ => Handler.simulated_of_carriedBy
  · exact forall₂_trans copied.attributes widens.attributes fun _ _ _ =>
      Attribute.simulated_of_carriedBy

/-- A body that can be walked, and whose tables refer to nothing behind its end, is
simulated by its copy. From whatever pool it is copied to any pool that can be made,
and however classes are renamed: if there is a copy, then its code is walked over
what the instructions have become, in the same order. An instruction is unchanged but
for the distances of its branches and its pool index, which leads to the renamed
constant. A load whose new index does not fit a byte has become three instructions
that do nothing and a wide load. Every target of a branch or switch, every position of
a handler, every line, variable and frame of a stack map leads to what the instruction
has become that it led to. -/
theorem copy_simulates {wasRead : Bool} {dest next : ConstantPool}
    (hdest : ConstantPool.Reachable wasRead dest)
    (hstarts : Bytecode.starts old.bytes = .ok starts)
    (hwithin : ∀ p ∈ old.positions, p ≤ old.bytes.size)
    (h : (Code.copy source names old).runOn dest = (.ok new, next)) :
    ∃ widened, Code.Simulated source names next starts widened old new := by
  have walk := Bytecode.starts_eq_ok_iff.mp hstarts
  obtain ⟨handlers, attributes, copied⟩ :=
    (lasting_copy source names walk).holds hdest.consistent h .refl
  exact copied.simulated walk hwithin

/-- A pool with a number and a name. -/
def numberPool : ConstantPool :=
  ((ConstantPool.decode 0 [0, 3, 3, 0, 0, 0, 7, 1, 0, 1, 76]).toOption.map Prod.fst).getD
    (.empty 0)

/-- The bytes of a pool in which no index of one byte is free. -/
def crowdedBytes : List UInt8 :=
  [1, 1] ++ (List.replicate 128 [5, 0, 0, 0, 0, 0, 0, 0, 1]).flatten

/-- A pool in which no index of one byte is free. -/
def crowdedPool : ConstantPool :=
  ((ConstantPool.decode 1 crowdedBytes).toOption.map Prod.fst).getD (.empty 1)

/-- A loop that loads the number. -/
def numberLoop : Code where
  maxStack := 1
  maxLocals := 0
  bytes := #[0x12, 1, 0x57, 0xa7, 0xff, 0xfd]
  handlers := [{ start := 0, stop := 2, target := 2, catchType := 0 }]
  attributes := [{ nameIndex := 2, body := .data (.lineNumbers [⟨0, 10⟩, ⟨2, 11⟩]) }]

/-- The loop for the other pool. -/
def crowdedLoop : Code where
  maxStack := 1
  maxLocals := 0
  bytes := #[0, 0, 0, 0x13, 1, 2, 0x57, 0xa7, 0xff, 0xf9]
  handlers := [{ start := 0, stop := 6, target := 6, catchType := 0 }]
  attributes := [{ nameIndex := 257, body := .data (.lineNumbers [⟨0, 10⟩, ⟨6, 11⟩]) }]

/-- The pool is read. -/
theorem reachable_crowdedPool : ConstantPool.Reachable true crowdedPool := by
  have hread : (ConstantPool.decode 1 crowdedBytes).toOption.isSome = true := by decide +kernel
  unfold crowdedPool
  cases hdecode : ConstantPool.decode 1 crowdedBytes with
  | error e =>
    rw [hdecode] at hread
    cases hread
  | ok result =>
    obtain ⟨pool, rest⟩ := result
    exact .decode hdecode

/-- The pool has no entry of one slot. -/
theorem not_mem_crowdedPool {c : Constant} (hc : c.isWide = false) :
    some c ∉ crowdedPool.slots := by
  have hwide : crowdedPool.slots.toList.all (Option.all Constant.isWide) = true := by
    decide +kernel
  intro hmem
  have h := List.all_eq_true.mp hwide _ (Array.mem_toList_iff.mpr hmem)
  exact Bool.false_ne_true (hc.symm.trans h)

/-- The pool with the name behind everything else. -/
def namedPool : ConstantPool := crowdedPool.push (.text "L")

/-- The pool with the number behind the name. -/
def numberedPool : ConstantPool := namedPool.push (.integer 7)

/-- The name and the number get indices of two bytes. -/
theorem runOn_crowdedPool :
    (ConstantPool.internText "L").runOn crowdedPool = (.ok 257, namedPool) ∧
      (numberPool.copy id 1).runOn namedPool = (.ok 258, numberedPool) := by
  have hpool := reachable_crowdedPool.consistent
  have hsize : crowdedPool.size = 257 := by decide +kernel
  have hname := ConstantPool.runOn_intern_of_not_mem hpool
    (not_mem_crowdedPool (c := .text "L") rfl) (by rw [hsize]; decide)
  have hnamed := ((ConstantPool.onlyAdds_internText "L").grows_of_eq hname).consistent hpool
  have hnew : some (Constant.integer 7) ∉ (crowdedPool.push (.text "L")).slots := by
    rw [← Array.mem_toList_iff, ConstantPool.toList_slots_push, List.mem_append, not_or,
      Array.mem_toList_iff]
    exact ⟨not_mem_crowdedPool rfl, by decide⟩
  have hnumber := ConstantPool.runOn_intern_of_not_mem hnamed hnew
    (by rw [ConstantPool.size_push, hsize]; decide)
  rw [hsize] at hname
  rw [ConstantPool.size_push, hsize] at hnumber
  exact ⟨hname, (Edit.runOn_lift_bind_eq_ok_iff _).mpr ⟨.integer 7, by decide +kernel, hnumber⟩⟩

/-- The loop is copied, with a wide load. -/
theorem runOn_copy_numberLoop :
    (Code.copy numberPool id numberLoop).runOn crowdedPool = (.ok crowdedLoop, numberedPool) := by
  obtain ⟨hname, hnumber⟩ := runOn_crowdedPool
  have walk : Walk numberLoop.bytes 0 [0, 2, 3] numberLoop.bytes.size :=
    Bytecode.starts_eq_ok_iff.mp (by decide +kernel)
  have hattributes : (Attribute.copyList numberPool id [] numberLoop.attributes).runOn
      crowdedPool = (.ok [⟨257, .data (.lineNumbers [⟨0, 10⟩, ⟨2, 11⟩])⟩], namedPool) := by
    unfold numberLoop
    rw [Attribute.copyList, Attribute.copy, AttributeBody.copy]
    refine (Edit.runOn_bind_eq_ok_iff _).mpr ⟨_, namedPool, ?_, rfl⟩
    refine (Edit.runOn_lift_bind_eq_ok_iff _).mpr ⟨"L", by decide +kernel, ?_⟩
    exact (Edit.runOn_bind_eq_ok_iff _).mpr ⟨257, namedPool, hname, rfl⟩
  have hoperands : (Bytecode.copyOperands numberLoop.bytes numberPool id).runOn namedPool =
      (.ok ⟨[], [(0, 258)]⟩, numberedPool) := by
    unfold Bytecode.copyOperands
    rw [Bytecode.foldInstructions_eq_foldlM _ _ walk, List.foldlM_cons]
    refine (Edit.runOn_bind_eq_ok_iff _).mpr ⟨⟨[], [(0, 258)]⟩, numberedPool, ?_, rfl⟩
    exact (Edit.runOn_bind_eq_ok_iff _).mpr ⟨258, numberedPool, hnumber, rfl⟩
  have hchanged : changeOperands { numberLoop with
      attributes := [⟨257, .data (.lineNumbers [⟨0, 10⟩, ⟨2, 11⟩])⟩] } ⟨[], [(0, 258)]⟩ =
        .ok crowdedLoop := by decide +kernel
  unfold numberLoop at hattributes hoperands hchanged ⊢
  rw [Code.copy]
  refine (Edit.runOn_bind_eq_ok_iff _).mpr ⟨_, namedPool, hattributes, ?_⟩
  refine (Edit.runOn_bind_eq_ok_iff _).mpr ⟨_, namedPool, rfl, ?_⟩
  refine (Edit.runOn_bind_eq_ok_iff _).mpr ⟨_, numberedPool, hoperands, ?_⟩
  exact congrArg (fun outcome => (outcome, numberedPool)) hchanged

/-- The loop is simulated by its copy. -/
theorem copy_simulates_numberLoop :
    (ConstantPool.Reachable true crowdedPool ∧ Bytecode.starts numberLoop.bytes = .ok [0, 2, 3] ∧
      (∀ p ∈ numberLoop.positions, p ≤ numberLoop.bytes.size)) ∧
      (Code.copy numberPool id numberLoop).runOn crowdedPool = (.ok crowdedLoop, numberedPool) ∧
        ∃ widened, Code.Simulated numberPool id numberedPool [0, 2, 3] widened numberLoop
          crowdedLoop := by
  have hstarts : Bytecode.starts numberLoop.bytes = .ok [0, 2, 3] := by decide +kernel
  have hwithin : ∀ p ∈ numberLoop.positions, p ≤ numberLoop.bytes.size := by decide
  exact ⟨⟨reachable_crowdedPool, hstarts, hwithin⟩, runOn_copy_numberLoop,
    copy_simulates reachable_crowdedPool hstarts hwithin runOn_copy_numberLoop⟩

end Code

end Copying

end JvmClass
