import JvmClass.Proofs.Instruction.Fields
import JvmClass.Proofs.Instruction.Walk

/-!
# Patches of branch fields

Relocation computes a patch for every branch field of some code before it
writes any of them. It succeeds exactly if every new distance fits its field.
The fields on a walk do not overlap, so every patch is found in the code
afterwards, and all other bytes are as they were.
-/

namespace JvmClass

/-! ## Distances -/

namespace BranchField

variable {field : BranchField} {offset : Int}

/-- Whether a distance fits a field. -/
def Fits (field : BranchField) (offset : Int) : Prop :=
  if field.isLong then -2147483648 ≤ offset ∧ offset ≤ 2147483647
  else -32768 ≤ offset ∧ offset ≤ 32767

instance (field : BranchField) (offset : Int) : Decidable (field.Fits offset) := by
  unfold Fits
  exact inferInstance

/-- The bytes of a distance. -/
def offsetBytes (field : BranchField) (offset : Int) : List UInt8 :=
  if field.isLong then Codec.bytesOfU32 (Int32.ofInt offset).toUInt32
  else Codec.bytesOfU16 (Int16.ofInt offset).toUInt16

/-- The bytes of a distance fill its field. -/
@[simp]
theorem length_offsetBytes (field : BranchField) (offset : Int) :
    (field.offsetBytes offset).length = field.width := by
  unfold offsetBytes width
  split <;> rfl

/-- A distance can be written exactly if it fits. -/
theorem encodeOffset_eq (field : BranchField) (offset : Int) :
    field.encodeOffset offset =
      if field.Fits offset then .ok (field.offsetBytes offset)
      else .error (.overflow .branchOffset) := by
  unfold encodeOffset Fits offsetBytes
  split <;> rfl

end BranchField

namespace Bytecode

variable {code : Bytecode} {field : BranchField} {offset : Int} {s : Shift} {starts : List Nat}

/-- A distance that fits is read back as it was written. -/
theorem branchOffset_of_bytes (hfits : field.Fits offset)
    (h : ∀ i < field.width, code[field.position + i]? = (field.offsetBytes offset)[i]?) :
    code.branchOffset field = offset := by
  unfold BranchField.Fits at hfits
  unfold BranchField.width BranchField.offsetBytes at h
  unfold branchOffset
  split at hfits
  · next hlong =>
    rw [if_pos hlong] at h ⊢
    simp only [hlong, if_true] at h
    rw [i32At?_of_bytes h, Option.getD_some, Int32.toInt32_toUInt32]
    exact Int32.toInt_ofInt_of_le (by omega) (by omega)
  · next hshort =>
    rw [if_neg hshort] at h ⊢
    simp only [hshort] at h
    rw [u16At?_of_bytes h, Option.getD_some, Int16.toInt16_toUInt16]
    exact Int16.toInt_ofInt_of_le (by omega) (by omega)

/-! ## Applying patches -/

/-- Patches do not change the length of code. -/
@[simp]
theorem size_applyPatches (code : Bytecode) (patches : List Patch) :
    (code.applyPatches patches).size = code.size := by
  unfold applyPatches
  induction patches generalizing code with
  | nil => rfl
  | cons patch patches ih => rw [List.foldl_cons, ih, size_overwrite]

/-- A byte that no patch covers stays as it is. -/
theorem getElem?_applyPatches_of_outside {patches : List Patch} {i : Nat}
    (h : ∀ patch ∈ patches, i < patch.position ∨ patch.position + patch.bytes.length ≤ i) :
    (code.applyPatches patches)[i]? = code[i]? := by
  unfold applyPatches
  induction patches generalizing code with
  | nil => rfl
  | cons patch patches ih =>
    rw [List.foldl_cons, ih fun later hlater => h later (List.mem_cons_of_mem _ hlater)]
    exact getElem?_overwrite_of_outside (h patch List.mem_cons_self)

/-- Of patches in order that do not overlap, each is found in the code. -/
theorem getElem?_applyPatches_of_mem {patches : List Patch}
    (horder : patches.Pairwise fun a b => a.position + a.bytes.length ≤ b.position)
    {patch : Patch} (hmem : patch ∈ patches)
    (hsize : patch.position + patch.bytes.length ≤ code.size) {i : Nat}
    (hi : i < patch.bytes.length) :
    (code.applyPatches patches)[patch.position + i]? = patch.bytes[i]? := by
  induction patches generalizing code with
  | nil => cases hmem
  | cons first patches ih =>
    obtain ⟨hbefore, hrest⟩ := List.pairwise_cons.mp horder
    cases hmem with
    | head =>
      refine Eq.trans ?_ (getElem?_overwrite_of_inside hi hsize)
      have houtside : ∀ later ∈ patches, patch.position + i < later.position ∨
          later.position + later.bytes.length ≤ patch.position + i := by
        intro later hlater
        have hbefore := hbefore later hlater
        omega
      exact getElem?_applyPatches_of_outside houtside
    | tail _ hmem => exact ih hrest hmem (by rw [size_overwrite]; exact hsize)

/-- Of patches that are the same or do not overlap, each is found in the code. -/
theorem getElem?_applyPatches_of_apart {patches : List Patch} {patch : Patch}
    (hmem : patch ∈ patches)
    (hapart : ∀ other ∈ patches, other = patch ∨
      other.position + other.bytes.length ≤ patch.position ∨
        patch.position + patch.bytes.length ≤ other.position)
    (hsize : patch.position + patch.bytes.length ≤ code.size) {i : Nat}
    (hi : i < patch.bytes.length) :
    (code.applyPatches patches)[patch.position + i]? = patch.bytes[i]? := by
  induction patches generalizing code with
  | nil => cases hmem
  | cons first patches ih =>
    have hlater := fun other hother => hapart other (List.mem_cons_of_mem _ hother)
    by_cases hagain : patch ∈ patches
    · exact ih hagain hlater (by rw [size_overwrite]; exact hsize)
    · obtain rfl := (List.mem_cons.mp hmem).resolve_right hagain
      refine Eq.trans ?_ (getElem?_overwrite_of_inside hi hsize)
      have houtside : ∀ later ∈ patches, patch.position + i < later.position ∨
          later.position + later.bytes.length ≤ patch.position + i := by
        intro later hin
        rcases hlater later hin with rfl | hapart
        · exact absurd hin hagain
        · omega
      exact getElem?_applyPatches_of_outside houtside

/-- Patches that are apart from overwritten bytes do not depend on these. -/
theorem applyPatches_overwrite {patches : List Patch} {p : Nat} {bytes : List UInt8}
    (hroom : p + bytes.length ≤ code.size)
    (hpatches : ∀ patch ∈ patches, patch.position + patch.bytes.length ≤ code.size)
    (hapart : ∀ patch ∈ patches, patch.position + patch.bytes.length ≤ p ∨
      p + bytes.length ≤ patch.position) :
    (code.overwrite p bytes).applyPatches patches =
      (code.applyPatches patches).overwrite p bytes := by
  unfold applyPatches
  induction patches generalizing code with
  | nil => rfl
  | cons patch patches ih =>
    obtain ⟨hfirst, hrest⟩ := List.forall_mem_cons.mp hpatches
    obtain ⟨hapart, hlater⟩ := List.forall_mem_cons.mp hapart
    rw [List.foldl_cons, List.foldl_cons, overwrite_comm hroom hfirst hapart.symm]
    exact ih (by rwa [size_overwrite]) (by simpa only [size_overwrite] using hrest) hlater

/-! ## The patches of a relocation -/

/-- The distance that a branch field needs after bytes are inserted. -/
def relocatedOffset (code : Bytecode) (s : Shift) (field : BranchField) : Int :=
  s.branchTarget (code.branchTarget field) - s.start field.source

/-- The patch of a branch field for bytes that are inserted. -/
def relocatedPatch (code : Bytecode) (s : Shift) (field : BranchField) : Patch :=
  ⟨field.position, field.offsetBytes (code.relocatedOffset s field)⟩

/-- A field can be relocated exactly if its new distance fits. -/
theorem relocateField_eq (code : Bytecode) (s : Shift) (field : BranchField) :
    code.relocateField s field =
      if field.Fits (code.relocatedOffset s field) then .ok (code.relocatedPatch s field)
      else .error (.overflow .branchOffset) := by
  unfold relocateField
  simp only
  rw [BranchField.encodeOffset_eq]
  unfold relocatedPatch relocatedOffset
  split <;> rfl

/-- Relocating fields in a row collects their patches, unless one of them cannot
be relocated. -/
theorem foldlM_relocateField (code : Bytecode) (s : Shift) (fields : List BranchField)
    (acc : Array Patch) :
    fields.foldlM (fun patches field => do
        let patch ← code.relocateField s field
        pure (patches.push patch)) acc =
      if ∀ field ∈ fields, field.Fits (code.relocatedOffset s field) then
        .ok (acc ++ (fields.map (code.relocatedPatch s)).toArray)
      else .error (.overflow .branchOffset) := by
  induction fields generalizing acc with
  | nil => simp [pure, Except.pure]
  | cons field fields ih =>
    rw [List.foldlM_cons, relocateField_eq]
    by_cases hfits : field.Fits (code.relocatedOffset s field)
    · rw [if_pos hfits]
      refine (ih _).trans ?_
      simp [hfits]
    · rw [if_neg hfits, if_neg fun hall => hfits (hall field List.mem_cons_self)]
      rfl

/-- Visiting the fields of several instructions is visiting those of one after
those of the other. -/
theorem foldlM_flatMap {α β γ : Type} (f : α → List β) (visit : γ → β → Except Error γ)
    (list : List α) (acc : γ) :
    (list.flatMap f).foldlM visit acc = list.foldlM (fun acc a => (f a).foldlM visit acc) acc := by
  induction list generalizing acc with
  | nil => rfl
  | cons a list ih =>
    rw [List.flatMap_cons, List.foldlM_append, List.foldlM_cons]
    exact bind_congr ih

/-- The branches of code that can be walked are relocated exactly if every new
distance fits its field. -/
theorem relocateBranches_eq (walk : Walk code 0 starts code.size) (s : Shift) :
    code.relocateBranches s =
      if ∀ field ∈ starts.flatMap code.branchFieldsAt, field.Fits (code.relocatedOffset s field)
      then .ok (code.applyPatches
        ((starts.flatMap code.branchFieldsAt).map (code.relocatedPatch s)))
      else .error (.overflow .branchOffset) := by
  have hpatches := (foldlM_flatMap code.branchFieldsAt _ starts #[]).symm.trans
    (foldlM_relocateField code s (starts.flatMap code.branchFieldsAt) #[])
  unfold relocateBranches
  rw [foldInstructions_eq_foldlM _ _ walk]
  refine (congrArg (fun found => found >>= fun patches : Array Patch =>
    pure (code.applyPatches patches.toList)) hpatches).trans ?_
  split
  · simp [bind, Except.bind, pure, Except.pure]
  · rfl

end Bytecode

end JvmClass
