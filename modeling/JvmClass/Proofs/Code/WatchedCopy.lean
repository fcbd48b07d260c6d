import JvmClass.Proofs.Code.Operands
import JvmClass.Proofs.Code.WatchedGap
import JvmClass.Proofs.Code.WidenedLoads

/-!
# Watched copies

The copy of a body, watched in every place where it would crash. Operands are renumbered in
the code that is being walked, and loads are widened at positions that were found in the
code as it was. Neither takes a byte that is not there.
-/

namespace JvmClass

open Watched (ofEdit ofStep demand crash)

namespace Bytecode

variable {code new : Bytecode} {p n : Nat}

/-! ## Operands -/

/-- The length of an instruction depends on no bytes before it. -/
theorem instructionLength_congr (hsize : new.size = code.size)
    (h : ∀ i, p ≤ i → new[i]? = code[i]?) : new.instructionLength p = code.instructionLength p := by
  have hword : ∀ q, p ≤ q → new.switchWord q = code.switchWord q := fun q hq => by
    unfold switchWord
    rw [i32At?_congr fun i _ => h (q + i) (by omega)]
  have hoperands := lt_switchOperands p
  unfold instructionLength claimedLength
  dsimp only
  rw [h p (Nat.le_refl p), h (p + 1) (Nat.le_succ p), hsize, hword _ (by omega : p ≤ _ + 4),
    hword _ (by omega : p ≤ _ + 8)]

section Copying

variable (source : ConstantPool) (names : Renaming)

/-- Copy the constant that the instruction at a position refers to, and renumber its operand
in the code. A load that needs its wide form is put in front of those before it. -/
def watchedCopyOperand : Bytecode × List (Nat × UInt16) → Nat → UInt8 →
    Watched ConstantPool (Bytecode × List (Nat × UInt16))
  | (code, widened), position, op =>
    if op = Opcode.ldc then do
      let old ← demand code[position + 1]?
      let i ← ofEdit (source.copy names old.toUInt16)
      if i ≤ 255 then do
        let code ← code.watchedOverwrite (position + 1) [i.toUInt8]
        pure (code, widened)
      else pure (code, (position, i) :: widened)
    else if Opcode.hasPoolIndex op then do
      let old ← demand (code.u16At? (position + 1))
      let i ← ofEdit (source.copy names old)
      let code ← code.watchedOverwrite (position + 1) (Codec.bytesOfU16 i)
      pure (code, widened)
    else pure (code, widened)

/-- Renumber the operands of code in place, and give the loads that need their wide form. -/
def watchedCopyOperands (code : Bytecode) :
    Watched ConstantPool (Bytecode × List (Nat × UInt16)) :=
  watchedWalk Prod.fst (watchedCopyOperand source names) (code.size + 1) (code, []) 0

end Copying

/-- The code with the operands that are known, and the loads that need their wide form. -/
def renumbered (code : Bytecode) (changes : OperandChanges) : Bytecode × List (Nat × UInt16) :=
  (code.applyPatches changes.patches, changes.widened)

/-- What is known while the operands of code are copied, up to a position. -/
structure Copying (code : Bytecode) (changes : OperandChanges) (p : Nat) : Prop where
  /-- No operand behind the position was renumbered. -/
  before : ∀ patch ∈ changes.patches, patch.position + patch.bytes.length ≤ p
  /-- The position lies in the code or at its end. -/
  inside : p ≤ code.size
  /-- Loads lie in the code. -/
  loads : ∀ load ∈ changes.widened, load.1 + 2 ≤ code.size

namespace Copying

variable {changes : OperandChanges} (copying : Copying code changes p)

include copying

/-- The code is as it was from the position on. -/
theorem getElem?_eq {i : Nat} (hi : p ≤ i) :
    (code.applyPatches changes.patches)[i]? = code[i]? :=
  getElem?_applyPatches_of_outside fun patch hpatch =>
    .inr (Nat.le_trans (copying.before patch hpatch) hi)

/-- The instruction at the position is as it was. -/
theorem same : (code.renumbered changes).1.size = code.size ∧
    (code.renumbered changes).1.instructionLength p = code.instructionLength p ∧
      (code.renumbered changes).1[p]? = code[p]? := by
  have hsize : (code.renumbered changes).1.size = code.size := size_applyPatches ..
  exact ⟨hsize, instructionLength_congr hsize fun i hi => copying.getElem?_eq hi,
    copying.getElem?_eq (Nat.le_refl p)⟩

/-- An operand behind the position can be renumbered. -/
theorem watchedOverwrite_eq {bytes : List UInt8} (hroom : p + 1 + bytes.length ≤ code.size) :
    ((code.applyPatches changes.patches).watchedOverwrite (p + 1) bytes : Watched ConstantPool _) =
      pure (code.applyPatches (⟨p + 1, bytes⟩ :: changes.patches)) := by
  have hbefore := copying.before
  have hinside := copying.inside
  have hpatches : ∀ patch ∈ changes.patches, patch.position + patch.bytes.length ≤ code.size :=
    fun patch hpatch => Nat.le_trans (hbefore patch hpatch) hinside
  have hapart : ∀ patch ∈ changes.patches, patch.position + patch.bytes.length ≤ p + 1 ∨
      p + 1 + bytes.length ≤ patch.position :=
    fun patch hpatch => .inl (Nat.le_succ_of_le (hbefore patch hpatch))
  rw [watchedOverwrite, if_pos (by rwa [size_applyPatches]),
    ← applyPatches_overwrite hroom hpatches hapart]
  rfl

/-- One more operand is renumbered. -/
theorem patched (hle : p + n ≤ code.size) {bytes : List UInt8} (hroom : 1 + bytes.length ≤ n) :
    Copying code ⟨⟨p + 1, bytes⟩ :: changes.patches, changes.widened⟩ (p + n) where
  before := List.forall_mem_cons.mpr ⟨by dsimp only; omega, fun patch hpatch =>
    Nat.le_trans (copying.before patch hpatch) (Nat.le_add_right p n)⟩
  inside := hle
  loads := copying.loads

/-- One more load needs its wide form. -/
theorem widened (hle : p + n ≤ code.size) (hroom : 2 ≤ n) (i : UInt16) :
    Copying code ⟨changes.patches, (p, i) :: changes.widened⟩ (p + n) where
  before := fun patch hpatch => Nat.le_trans (copying.before patch hpatch) (Nat.le_add_right p n)
  inside := hle
  loads := List.forall_mem_cons.mpr ⟨by dsimp only; omega, copying.loads⟩

/-- One more instruction is passed. -/
theorem passed (hle : p + n ≤ code.size) : Copying code changes (p + n) where
  before := fun patch hpatch => Nat.le_trans (copying.before patch hpatch) (Nat.le_add_right p n)
  inside := hle
  loads := copying.loads

end Copying

section Operands

variable {source : ConstantPool} {names : Renaming} {changes : OperandChanges} {op : UInt8}

/-- The operand of a complete instruction is renumbered without a crash. -/
theorem watchedCopyOperand_eq (copying : Copying code changes p)
    (hl : code.instructionLength p = .ok n) (hop : code[p]? = some op) :
    watchedCopyOperand source names (code.renumbered changes) p op =
      code.renumbered <$> ofEdit (code.copyOperand source names changes p op) := by
  have hle := add_instructionLength_le hl
  have hwidth := poolWidth_lt hl
  rw [opcodeAt_eq hop] at hwidth
  unfold Opcode.poolWidth at hwidth
  unfold watchedCopyOperand copyOperand
  dsimp only [renumbered]
  by_cases hldc : op = Opcode.ldc
  · rw [if_pos hldc] at hwidth
    have hbyte : code[p + 1]? = some code[p + 1] := Array.getElem?_eq_getElem (by omega)
    rw [if_pos hldc, if_pos hldc, copying.getElem?_eq (Nat.le_succ p), hbyte,
      Watched.demand_some_bind, Option.getD_some, ← Watched.ofEdit_bind, map_bind]
    refine bind_congr fun i => ?_
    by_cases hi : i ≤ 255
    · rw [if_pos hi, if_pos hi, copying.watchedOverwrite_eq (by rw [List.length_singleton]; omega)]
      rfl
    · rw [if_neg hi, if_neg hi]
      rfl
  rw [if_neg hldc] at hwidth
  rw [if_neg hldc, if_neg hldc]
  by_cases hpool : Opcode.hasPoolIndex op = true
  · rw [if_pos hpool] at hwidth
    obtain ⟨old, hold⟩ := exists_u16At? (show p + 1 + 2 ≤ code.size by omega)
    have hsame : (code.applyPatches changes.patches).u16At? (p + 1) = code.u16At? (p + 1) :=
      u16At?_congr fun i _ => copying.getElem?_eq (by omega)
    rw [if_pos hpool, if_pos hpool, hsame, hold, Watched.demand_some_bind, Option.getD_some,
      ← Watched.ofEdit_bind, map_bind]
    refine bind_congr fun i => ?_
    rw [copying.watchedOverwrite_eq (by rw [Codec.length_bytesOfU16]; omega)]
    rfl
  · rw [if_neg hpool, if_neg hpool]
    rfl

/-- What is known stays known when the operand of a complete instruction is copied. -/
theorem Copying.yields_copyOperand (copying : Copying code changes p)
    (hl : code.instructionLength p = .ok n) (hop : code[p]? = some op) :
    (code.copyOperand source names changes p op).Yields (Copying code · (p + n)) := by
  have hle := add_instructionLength_le hl
  have hwidth := poolWidth_lt hl
  rw [opcodeAt_eq hop] at hwidth
  unfold Opcode.poolWidth at hwidth
  unfold copyOperand
  by_cases hldc : op = Opcode.ldc
  · rw [if_pos hldc] at hwidth ⊢
    refine Edit.yields_bind (Edit.yields_true _) fun i _ => ?_
    split
    · exact Edit.yields_pure (copying.patched hle (by rw [List.length_singleton]; omega))
    · exact Edit.yields_pure (copying.widened hle hwidth i)
  rw [if_neg hldc] at hwidth ⊢
  by_cases hpool : Opcode.hasPoolIndex op = true
  · rw [if_pos hpool] at hwidth ⊢
    refine Edit.yields_bind (Edit.yields_true _) fun i _ => ?_
    exact Edit.yields_pure (copying.patched hle (by rw [Codec.length_bytesOfU16]; omega))
  · rw [if_neg hpool]
    exact Edit.yields_pure (copying.passed hle)

/-- Nothing is known of the operands of code before they are copied. -/
theorem copying_zero (code : Bytecode) : Copying code ⟨[], []⟩ 0 where
  before := fun patch hpatch => by cases hpatch
  inside := Nat.zero_le _
  loads := fun load hload => by cases hload

/-- The operands of code are renumbered without a crash, whatever the code. -/
theorem watchedCopyOperands_eq (source : ConstantPool) (names : Renaming) (code : Bytecode) :
    code.watchedCopyOperands source names =
      code.renumbered <$> ofEdit (code.copyOperands source names) :=
  watchedWalk_eq code.renumbered (fun _ _ copying => copying.same)
    (fun _ _ _ _ copying hl hop => watchedCopyOperand_eq copying hl hop)
    (fun _ _ _ _ copying hl hop => copying.yields_copyOperand hl hop)
    (copying_zero code) (Nat.lt_succ_self _)

/-- The loads that need their wide form lie in the code. -/
theorem yields_copyOperands (source : ConstantPool) (names : Renaming) (code : Bytecode) :
    (code.copyOperands source names).Yields fun changes =>
      ∀ load ∈ changes.widened, load.1 + 2 ≤ code.size := by
  intro pool changes h
  obtain ⟨last, copying⟩ := yields_foldInstructions
    (fun _ _ _ _ copying hl hop => copying.yields_copyOperand hl hop) (copying_zero code)
    pool changes h
  exact copying.loads

end Operands

end Bytecode

/-! ## Bodies -/

namespace Code

variable {σ : Type}

/-- Give the load of a constant at a position its wide form with an index. -/
def watchedWidenLoad (code : Code) (position : Nat) (i : UInt16) : Watched σ Code := do
  let (s, code) ← code.watchedInsertGap position 1 false
  let last ← Watched.sub (s.position + s.gap) 1
  let bytes ← Bytecode.watchedOverwrite code.bytes last [Opcode.ldcWide]
  let bytes ← Bytecode.watchedOverwrite bytes (last + 1) (Codec.bytesOfU16 i)
  pure { code with bytes }

/-- A load that lies in the code is widened without a crash. -/
theorem watchedWidenLoad_eq {code : Code} {position : Nat} (hload : position + 2 ≤ code.bytes.size)
    (i : UInt16) :
    (code.watchedWidenLoad position i : Watched σ Code) = ofStep (code.widenLoad position i) := by
  unfold watchedWidenLoad widenLoad
  rw [watchedInsertGap_eq]
  cases hinserted : code.insertGap position 1 false with
  | error e => rfl
  | ok inserted =>
    obtain ⟨s, opened⟩ := inserted
    obtain ⟨rfl, ⟨hzero, -⟩ | ⟨-, -, hmade⟩⟩ := insertGap_cases hinserted
    · cases hzero
    -- the gap has four bytes, so that the wide load ends where the load ended
    have hsize : opened.bytes.size = code.bytes.size + 4 :=
      size_of_makeRoom (Nat.le_of_add_right_le hload) hmade
    have hgap : gapLength 1 = 4 := rfl
    rw [Watched.ofStep_ok_bind, ok_bind]
    dsimp only
    rw [hgap, Watched.sub, if_pos (Nat.le_add_left 1 _), pure_bind, Bytecode.watchedOverwrite,
      if_pos (by rw [List.length_singleton]; omega), pure_bind, Bytecode.watchedOverwrite,
      if_pos (by rw [Bytecode.size_overwrite, Codec.length_bytesOfU16]; omega), pure_bind, write,
      if_pos (by rw [List.length_cons, Codec.length_bytesOfU16]; omega)]
    rfl

/-- Widening a load only makes a body longer. -/
theorem size_le_of_widenLoad {code new : Code} {position : Nat} {i : UInt16}
    (hload : position + 2 ≤ code.bytes.size) (h : code.widenLoad position i = .ok new) :
    code.bytes.size ≤ new.bytes.size := by
  obtain ⟨opened, hinserted, -, -, rfl⟩ := exists_of_widenLoad h
  obtain ⟨-, ⟨hzero, -⟩ | ⟨-, -, hmade⟩⟩ := insertGap_cases hinserted
  · cases hzero
  have hsize := size_of_makeRoom (Nat.le_of_add_right_le hload) hmade
  show _ ≤ (Bytecode.overwrite opened.bytes ..).size
  rw [Bytecode.size_overwrite, hsize]
  exact Nat.le_add_right ..

/-- Loads that lie in the code are widened without a crash. -/
theorem foldlM_watchedWidenLoad {loads : List (Nat × UInt16)} {code : Code}
    (h : ∀ load ∈ loads, load.1 + 2 ≤ code.bytes.size) :
    (loads.foldlM (fun code (position, i) => code.watchedWidenLoad position i) code :
      Watched σ Code) = ofStep (loads.foldlM (fun code (position, i) => code.widenLoad position i)
        code) := by
  induction loads generalizing code with
  | nil => rfl
  | cons load loads ih =>
    obtain ⟨hfirst, hlater⟩ := List.forall_mem_cons.mp h
    obtain ⟨position, i⟩ := load
    rw [List.foldlM_cons, List.foldlM_cons]
    show code.watchedWidenLoad position i >>= _ = ofStep (code.widenLoad position i >>= _)
    rw [watchedWidenLoad_eq hfirst]
    cases hwidened : code.widenLoad position i with
    | error e => rfl
    | ok new =>
      have hsize := size_le_of_widenLoad hfirst hwidened
      exact ih fun load hload => Nat.le_trans (hlater load hload) hsize

end Code

section

variable (source : ConstantPool) (names : Renaming)

mutual

/-- Copy an attribute to the pool under edit. -/
def Attribute.watchedCopy : Attribute → Watched ConstantPool Attribute
  | ⟨nameIndex, body⟩ => do
    let name ← (ofStep (source.text nameIndex) : Watched ConstantPool String)
    let nameIndex ← ofEdit (ConstantPool.internText name)
    let body ← AttributeBody.watchedCopy body
    pure { nameIndex, body }

/-- Copy a payload to the pool under edit. -/
def AttributeBody.watchedCopy : AttributeBody → Watched ConstantPool AttributeBody
  | .code body => do
    let body ← Code.watchedCopy body
    pure (.code body)
  | .data payload => do
    let payload ← ofEdit (payload.copy source names)
    pure (.data payload)

/-- Copy a body to the pool under edit. -/
def Code.watchedCopy : Code → Watched ConstantPool Code
  | ⟨maxStack, maxLocals, bytes, handlers, attributes⟩ => do
    let attributes ← Attribute.watchedCopyList [] attributes
    let handlers ← ofEdit (handlers.mapM (Code.copyHandler source names))
    let (bytes, loads) ← Bytecode.watchedCopyOperands source names bytes
    loads.foldlM (fun code (position, i) => code.watchedWidenLoad position i)
      { maxStack, maxLocals, bytes, handlers, attributes }

/-- Copy several attributes in order. `done` holds those before them, last first. -/
def Attribute.watchedCopyList (done : List Attribute) :
    List Attribute → Watched ConstantPool (List Attribute)
  | [] => pure done.reverse
  | a :: list => do
    let a ← Attribute.watchedCopy a
    Attribute.watchedCopyList (a :: done) list

end

end

section

variable {source : ConstantPool} {names : Renaming}

mutual

/-- An attribute is copied without a crash. -/
theorem Attribute.watchedCopy_eq : ∀ a : Attribute,
    a.watchedCopy source names = ofEdit (a.copy source names)
  | ⟨nameIndex, body⟩ => by
    rw [Attribute.watchedCopy, Attribute.copy]
    refine Watched.bind_eq fun name => Watched.bind_eq fun nameIndex => ?_
    rw [AttributeBody.watchedCopy_eq body]
    exact Watched.bind_eq fun body => rfl

/-- A payload is copied without a crash. -/
theorem AttributeBody.watchedCopy_eq : ∀ body : AttributeBody,
    body.watchedCopy source names = ofEdit (body.copy source names)
  | .code body => by
    rw [AttributeBody.watchedCopy, AttributeBody.copy, Code.watchedCopy_eq body]
    exact Watched.bind_eq fun body => rfl
  | .data payload => by
    rw [AttributeBody.watchedCopy, AttributeBody.copy]
    exact Watched.bind_eq fun payload => rfl

/-- A body is copied without a crash. -/
theorem Code.watchedCopy_eq : ∀ code : Code,
    code.watchedCopy source names = ofEdit (code.copy source names)
  | ⟨maxStack, maxLocals, bytes, handlers, attributes⟩ => by
    rw [Code.watchedCopy, Code.copy, Attribute.watchedCopyList_eq attributes []]
    refine Watched.bind_eq fun attributes => Watched.bind_eq fun handlers => ?_
    rw [Bytecode.watchedCopyOperands_eq, bind_map_left, ← Watched.ofEdit_bind]
    refine Watched.bind_congr_of_yields (Bytecode.yields_copyOperands source names bytes)
      fun changes hloads => Code.foldlM_watchedWidenLoad fun load hload => ?_
    rw [Bytecode.size_applyPatches]
    exact hloads load hload

/-- Attributes are copied one by one without a crash. -/
theorem Attribute.watchedCopyList_eq : ∀ list done : List Attribute,
    Attribute.watchedCopyList source names done list =
      ofEdit (Attribute.copyList source names done list)
  | [], done => by
    rw [Attribute.watchedCopyList, Attribute.copyList]
    rfl
  | a :: list, done => by
    rw [Attribute.watchedCopyList, Attribute.copyList, Attribute.watchedCopy_eq a]
    exact Watched.bind_eq fun b => Attribute.watchedCopyList_eq list (b :: done)

end

end

end JvmClass
