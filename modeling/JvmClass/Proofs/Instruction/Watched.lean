import JvmClass.Proofs.Instruction.Patches
import JvmClass.Proofs.Watched

/-!
# Watched walks

A loop that goes from instruction to instruction takes the opcode and the operands from the
code without asking whether they are there, also where the code is changed while it is
walked. Here each of these accesses is watched, as is the number of steps. None of them
fails, as the length of an instruction is only known once all of it is known to be there.
-/

namespace JvmClass.Bytecode

open Watched (ofEdit ofStep demand crash)

variable {σ β γ : Type} {code : Bytecode} {p n : Nat}

/-! ## Lengths -/

section Length

variable (code) (position : Nat)

/-- The bytes that the instruction at a position claims. The operands of a switch cannot
start before its opcode. -/
def watchedClaim (op : UInt8) : Watched σ Nat :=
  match Layout.ofOpcode op with
  | .tableSwitch => do
    let operands := switchOperands position
    let low ← ofStep (code.switchWord (operands + 4))
    let high ← ofStep (code.switchWord (operands + 8))
    if high - low + 1 < 0 then throw (.malformed (.tableSwitch low high))
    else do
      let padded ← Watched.sub operands position
      pure (padded + 12 + 4 * (high - low + 1).toNat)
  | .lookupSwitch => do
    let operands := switchOperands position
    let pairs ← ofStep (code.switchWord (operands + 4))
    if pairs < 0 then throw (.malformed .lookupSwitch)
    else do
      let padded ← Watched.sub operands position
      pure (padded + 8 + 8 * pairs.toNat)
  | _ => ofStep (code.claimedLength position op)

/-- The length of the instruction at a position, which has to lie within the code. -/
def watchedLength : Watched σ Nat :=
  match code[position]? with
  | none => throw (.malformed (.codeIndex position))
  | some op => do
    let length ← code.watchedClaim position op
    if position + length ≤ code.size then pure length
    else throw (.malformed (.instruction op position))

/-- What an instruction claims is known without a crash. -/
theorem watchedClaim_eq (op : UInt8) :
    (code.watchedClaim position op : Watched σ Nat) = ofStep (code.claimedLength position op) := by
  have hsub : (Watched.sub (switchOperands position) position : Watched σ Nat) =
      pure (switchOperands position - position) :=
    if_pos (Nat.le_of_lt (lt_switchOperands position))
  unfold watchedClaim claimedLength
  cases Layout.ofOpcode op with
  | fixed | wide | undefined => rfl
  | tableSwitch =>
    dsimp only
    rw [hsub]
    cases code.switchWord (switchOperands position + 4) with
    | error e => rfl
    | ok low =>
      cases code.switchWord (switchOperands position + 8) with
      | error e => rfl
      | ok high =>
        rw [Watched.ofStep_ok_bind, Watched.ofStep_ok_bind, ok_bind, ok_bind]
        split <;> rfl
  | lookupSwitch =>
    dsimp only
    rw [hsub]
    cases code.switchWord (switchOperands position + 4) with
    | error e => rfl
    | ok pairs =>
      rw [Watched.ofStep_ok_bind, ok_bind]
      split <;> rfl

/-- The length of an instruction is known without a crash, whatever the code. -/
theorem watchedLength_eq :
    (code.watchedLength position : Watched σ Nat) = ofStep (code.instructionLength position) := by
  unfold watchedLength instructionLength
  cases code[position]? with
  | none => rfl
  | some op =>
    dsimp only
    rw [watchedClaim_eq]
    cases code.claimedLength position op with
    | error e => rfl
    | ok length =>
      rw [Watched.ofStep_ok_bind]
      dsimp only
      split <;> rfl

end Length

/-! ## Loops -/

/-- Visit the instructions of the code that a value holds, in at most so many steps. -/
def watchedWalk (codeOf : β → Bytecode) (visit : β → Nat → UInt8 → Watched σ β) :
    (steps : Nat) → β → (position : Nat) → Watched σ β
  | 0, _, _ => crash
  | steps + 1, acc, position =>
    if position < (codeOf acc).size then do
      let length ← (codeOf acc).watchedLength position
      let op ← demand (codeOf acc)[position]?
      let acc ← visit acc position op
      watchedWalk codeOf visit steps acc (position + length)
    else pure acc

section Walk

variable {visit' : γ → Nat → UInt8 → Edit σ γ} {Inv : γ → Nat → Prop}

/-- What every visit of an instruction keeps is kept by a walk. -/
theorem yields_foldInstructions
    (hvisit : ∀ acc p n op, Inv acc p → code.instructionLength p = .ok n →
      code[p]? = some op → (visit' acc p op).Yields (Inv · (p + n)))
    {acc : γ} {p : Nat} (hacc : Inv acc p) :
    (code.foldInstructions (m := Edit σ) visit' acc p).Yields fun acc => ∃ last, Inv acc last := by
  fun_induction foldInstructions (m := Edit σ) code visit' acc p with
  | case1 acc p hp e hl => exact Edit.yields_throw e _
  | case2 acc p hp n hl ih =>
    have hbyte : code[p]? = some code[p] := Array.getElem?_eq_getElem hp
    exact Edit.yields_bind (hvisit acc p n code[p] hacc hl hbyte) fun next hnext => ih next hnext
  | case3 acc p hp => exact Edit.yields_pure ⟨p, hacc⟩

/-- A walk over code that is not changed from the next instruction on visits the same
instructions, and ends, as each step takes a byte or more. -/
theorem watchedWalk_eq {codeOf : β → Bytecode} {visit : β → Nat → UInt8 → Watched σ β}
    (g : γ → β)
    (hsame : ∀ acc p, Inv acc p → (codeOf (g acc)).size = code.size ∧
      (codeOf (g acc)).instructionLength p = code.instructionLength p ∧
        (codeOf (g acc))[p]? = code[p]?)
    (hvisit : ∀ acc p n op, Inv acc p → code.instructionLength p = .ok n →
      code[p]? = some op → visit (g acc) p op = g <$> ofEdit (visit' acc p op))
    (hkeeps : ∀ acc p n op, Inv acc p → code.instructionLength p = .ok n →
      code[p]? = some op → (visit' acc p op).Yields (Inv · (p + n)))
    {steps : Nat} {acc : γ} {p : Nat} (hacc : Inv acc p) (hsteps : code.size - p < steps) :
    watchedWalk codeOf visit steps (g acc) p =
      g <$> ofEdit (code.foldInstructions (m := Edit σ) visit' acc p) := by
  induction steps generalizing acc p with
  | zero => cases hsteps
  | succ steps ih =>
    obtain ⟨hsize, hlength, hbyte⟩ := hsame acc p hacc
    rw [watchedWalk, foldInstructions, watchedLength_eq, hsize, hlength, hbyte]
    by_cases hp : p < code.size
    · have hop : code[p]? = some code[p] := Array.getElem?_eq_getElem hp
      rw [if_pos hp, dif_pos hp, hop]
      split
      · next e hl =>
        rw [hl]
        rfl
      · next n hl =>
        have hone := one_le_instructionLength hl
        rw [hl]
        show visit (g acc) p code[p] >>= (fun acc => watchedWalk codeOf visit steps acc (p + n)) = _
        rw [hvisit acc p n _ hacc hl hop, bind_map_left, ← Watched.ofEdit_bind, map_bind]
        exact Watched.bind_congr_of_yields (hkeeps acc p n _ hacc hl hop)
          fun next hnext => ih hnext (by omega)
    · rw [if_neg hp, dif_neg hp]
      rfl

end Walk

/-- A walk without a state is one with a state that it does not touch. -/
theorem lift_foldInstructions (code : Bytecode) (visit : γ → Nat → UInt8 → Except Error γ)
    (acc : γ) (p : Nat) :
    (liftM (code.foldInstructions (m := Except Error) visit acc p) : Edit σ γ) =
      code.foldInstructions (m := Edit σ) (fun acc p op => liftM (visit acc p op)) acc p := by
  fun_induction foldInstructions (m := Except Error) code visit acc p with
  | case1 acc p hp e hl =>
    rw [foldInstructions, dif_pos hp]
    split
    · next found hfound =>
      cases hl.symm.trans hfound
      rfl
    · next n hn => cases hl.symm.trans hn
  | case2 acc p hp n hl ih =>
    rw [foldInstructions, dif_pos hp]
    split
    · next e he => cases hl.symm.trans he
    · next found hfound =>
      cases hl.symm.trans hfound
      rw [liftM_bind]
      exact bind_congr ih
  | case3 acc p hp =>
    rw [foldInstructions, dif_neg hp]
    rfl

/-! ## Relocation -/

section Relocation

variable (code)

/-- The branch fields of the instruction at a position. The bounds and the number of pairs
of a switch have to be there, and the number of its cases cannot be below zero. -/
def watchedFields (position : Nat) (op : UInt8) : Watched σ (List BranchField) :=
  let operands := switchOperands position
  if Opcode.isShortBranch op then pure [⟨position, position + 1, false⟩]
  else if Opcode.isLongBranch op then pure [⟨position, position + 1, true⟩]
  else if op = Opcode.tableSwitch then do
    let low ← demand (code.i32At? (operands + 4))
    let high ← demand (code.i32At? (operands + 8))
    let cases ← demand (high - low + 1).toNat?
    pure (⟨position, operands, true⟩ ::
      (List.range cases).map fun i => ⟨position, operands + 12 + 4 * i, true⟩)
  else if op = Opcode.lookupSwitch then do
    let pairs ← demand (code.i32At? (operands + 4))
    let cases ← demand pairs.toNat?
    pure (⟨position, operands, true⟩ ::
      (List.range cases).map fun i => ⟨position, operands + 12 + 8 * i, true⟩)
  else pure []

/-- The distance that a branch field holds, which has to be there. -/
def watchedOffset (field : BranchField) : Watched σ Int :=
  if field.isLong then demand (code.i32At? field.position)
  else demand ((code.u16At? field.position).map fun n => n.toInt16.toInt)

/-- The patch that makes a branch field lead to the same place after bytes are inserted. -/
def watchedRelocate (s : Shift) (field : BranchField) : Watched σ Patch := do
  let offset ← code.watchedOffset field
  let bytes ← ofStep
    (field.encodeOffset (s.branchTarget (field.source + offset) - s.start field.source))
  pure ⟨field.position, bytes⟩

/-- Replace bytes at a position, which have to be there. -/
def watchedOverwrite (position : Nat) (bytes : List UInt8) : Watched σ Bytecode :=
  if position + bytes.length ≤ code.size then pure (code.overwrite position bytes) else crash

/-- Collect the patches of the instruction at a position. -/
def watchedCollect (s : Shift) (patches : Array Patch) (position : Nat) (op : UInt8) :
    Watched σ (Array Patch) := do
  let fields ← code.watchedFields position op
  fields.foldlM
    (fun patches field => do
      let patch ← code.watchedRelocate s field
      pure (patches.push patch))
    patches

/-- The code with every branch adjusted to bytes that are about to be inserted. -/
def watchedRelocateBranches (s : Shift) : Watched σ Bytecode := do
  let patches ← watchedWalk (fun _ => code) (code.watchedCollect s) (code.size + 1) #[] 0
  patches.toList.foldlM
    (fun (code : Bytecode) patch => code.watchedOverwrite patch.position patch.bytes) code

variable {code}

/-- The operands that tell how many branch fields a complete instruction has are there. -/
theorem watchedFields_eq {op : UInt8} (hl : code.instructionLength p = .ok n)
    (hop : code[p]? = some op) :
    (code.watchedFields p op : Watched σ _) = ofEdit (pure (code.branchFields p op)) := by
  unfold watchedFields branchFields
  dsimp only
  by_cases hshort : Opcode.isShortBranch op = true
  · rw [if_pos hshort, if_pos hshort]
    rfl
  rw [if_neg hshort, if_neg hshort]
  by_cases hlong : Opcode.isLongBranch op = true
  · rw [if_pos hlong, if_pos hlong]
    rfl
  rw [if_neg hlong, if_neg hlong]
  by_cases htable : op = Opcode.tableSwitch
  · rw [if_pos htable, if_pos htable]
    cases (instructionLength_eq_ok_iff.mp hl).1 with
    | tableSwitch byte hlow hhigh hcount =>
      rw [hlow, hhigh, Option.getD_some, Option.getD_some, Watched.demand_some_bind,
        Watched.demand_some_bind, Int.mem_toNat?.mpr (Int.toNat_of_nonneg hcount).symm]
      rfl
    | fixed byte layout =>
      cases hop.symm.trans byte
      cases htable
      cases layout
    | lookupSwitch byte hpairs hcount | wide byte hnext =>
      cases hop.symm.trans byte
      cases htable
  rw [if_neg htable, if_neg htable]
  by_cases hlookup : op = Opcode.lookupSwitch
  · rw [if_pos hlookup, if_pos hlookup]
    cases (instructionLength_eq_ok_iff.mp hl).1 with
    | lookupSwitch byte hpairs hcount =>
      rw [hpairs, Option.getD_some, Watched.demand_some_bind,
        Int.mem_toNat?.mpr (Int.toNat_of_nonneg hcount).symm]
      rfl
    | fixed byte layout =>
      cases hop.symm.trans byte
      cases hlookup
      cases layout
    | tableSwitch byte hlow hhigh hcount | wide byte hnext =>
      cases hop.symm.trans byte
      cases hlookup
  rw [if_neg hlookup, if_neg hlookup]
  rfl

/-- A branch field that lies in the code is there. -/
theorem watchedOffset_eq {field : BranchField} (h : field.position + field.width ≤ code.size) :
    (code.watchedOffset field : Watched σ Int) = pure (code.branchOffset field) := by
  unfold BranchField.width at h
  unfold watchedOffset branchOffset
  by_cases hlong : field.isLong = true
  · rw [if_pos hlong] at h
    obtain ⟨m, hm⟩ := exists_i32At? h
    rw [if_pos hlong, if_pos hlong, hm]
    rfl
  · rw [if_neg hlong] at h
    obtain ⟨m, hm⟩ := exists_u16At? h
    rw [if_neg hlong, if_neg hlong, hm]
    rfl

/-- One that does not is not there. -/
example : (watchedOffset #[0xa7, 0] ⟨0, 1, false⟩ : Watched Unit Int) () = none := rfl

/-- The patches of the instruction at a position, behind those of others. -/
def collect (code : Bytecode) (s : Shift) (patches : Array Patch) (position : Nat) (op : UInt8) :
    Except Error (Array Patch) :=
  (code.branchFields position op).foldlM
    (fun patches field => do
      let patch ← code.relocateField s field
      pure (patches.push patch))
    patches

/-- Whether all patches lie in code of some size. -/
def Inside (size : Nat) (patches : List Patch) : Prop :=
  ∀ patch ∈ patches, patch.position + patch.bytes.length ≤ size

/-- The patches of a complete instruction are collected. -/
theorem watchedCollect_eq {op : UInt8} (s : Shift) (patches : Array Patch)
    (hl : code.instructionLength p = .ok n) (hop : code[p]? = some op) :
    (code.watchedCollect s patches p op : Watched σ (Array Patch)) =
      ofStep (code.collect s patches p op) := by
  unfold watchedCollect
  rw [watchedFields_eq hl hop]
  refine Watched.foldlM_eq (fun patches field hfield => ?_) patches
  rw [← branchFieldsAt_eq hop] at hfield
  obtain ⟨shape, hsize⟩ := instructionLength_eq_ok_iff.mp hl
  unfold watchedRelocate
  rw [watchedOffset_eq (Nat.le_trans (shape.add_width_le hfield) hsize), pure_bind,
    ← Watched.ofStep_bind]
  unfold relocateField branchTarget
  dsimp only
  rw [← Watched.ofStep_bind, bind_assoc, bind_assoc]
  rfl

/-- The patches of a complete instruction lie in the code. -/
theorem inside_of_collect {op : UInt8} {s : Shift} {patches next : Array Patch}
    (hl : code.instructionLength p = .ok n) (hop : code[p]? = some op)
    (hinside : Inside code.size patches.toList) (h : code.collect s patches p op = .ok next) :
    Inside code.size next.toList := by
  obtain ⟨shape, hsize⟩ := instructionLength_eq_ok_iff.mp hl
  rw [show code.collect s patches p op = _ from foldlM_relocateField ..] at h
  split at h
  · cases h
    intro patch hpatch
    rw [Array.toList_append, List.mem_append, List.mem_map] at hpatch
    rcases hpatch with hpatch | ⟨field, hfield, rfl⟩
    · exact hinside patch hpatch
    · rw [← branchFieldsAt_eq hop] at hfield
      unfold relocatedPatch
      rw [BranchField.length_offsetBytes]
      exact Nat.le_trans (shape.add_width_le hfield) hsize
  · cases h

/-- Patches that lie in the code are written. -/
theorem foldlM_watchedOverwrite {patches : List Patch} {code : Bytecode}
    (h : ∀ patch ∈ patches, patch.position + patch.bytes.length ≤ code.size) :
    patches.foldlM (fun code patch => code.watchedOverwrite patch.position patch.bytes) code =
      (pure (code.applyPatches patches) : Watched σ Bytecode) := by
  induction patches generalizing code with
  | nil => rfl
  | cons patch patches ih =>
    obtain ⟨hfirst, hlater⟩ := List.forall_mem_cons.mp h
    rw [List.foldlM_cons, watchedOverwrite, if_pos hfirst, pure_bind]
    exact ih (by rwa [size_overwrite])

/-- Branches are relocated without a crash, whatever the code. -/
theorem watchedRelocateBranches_eq (code : Bytecode) (s : Shift) :
    (code.watchedRelocateBranches s : Watched σ Bytecode) = ofStep (code.relocateBranches s) := by
  have hkeeps : ∀ (acc : Array Patch) (p n : Nat) (op : UInt8), Inside code.size acc.toList →
      code.instructionLength p = .ok n → code[p]? = some op →
        (liftM (code.collect s acc p op) : Edit σ (Array Patch)).Yields
          fun next => Inside code.size next.toList :=
    fun acc p n op hacc hl hop _ _ h => inside_of_collect hl hop hacc h
  have hnone : Inside code.size (#[] : Array Patch).toList := fun patch h => by cases h
  have hwalk : watchedWalk (fun _ => code) (code.watchedCollect s) (code.size + 1) #[] 0 =
      ofEdit (code.foldInstructions (m := Edit σ)
        (fun acc p op => liftM (code.collect s acc p op)) #[] 0) :=
    (watchedWalk_eq id (fun _ _ _ => ⟨rfl, rfl, rfl⟩)
      (fun acc p n op _ hl hop => (watchedCollect_eq s acc hl hop).trans (id_map _).symm)
      hkeeps hnone (Nat.lt_succ_of_le (Nat.sub_le ..))).trans (id_map _)
  have hwrite : (code.watchedRelocateBranches s : Watched σ Bytecode) =
      ofEdit (code.foldInstructions (m := Edit σ)
          (fun acc p op => liftM (code.collect s acc p op)) #[] 0) >>=
        fun patches => pure (code.applyPatches patches.toList) := by
    unfold watchedRelocateBranches
    rw [hwalk]
    exact Watched.bind_congr_of_yields (yields_foldInstructions hkeeps hnone)
      fun patches ⟨_, hinside⟩ => foldlM_watchedOverwrite hinside
  rw [hwrite, ← lift_foldInstructions]
  exact Watched.ofStep_bind (code.foldInstructions (code.collect s) #[] 0)
    fun patches => pure (code.applyPatches patches.toList)

end Relocation

end JvmClass.Bytecode
