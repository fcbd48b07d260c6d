import JvmClass.Proofs.Instruction.Fields
import JvmClass.Proofs.Instruction.Walk

/-!
# Placed code

Code is placed at a position of other code if its bytes are found there. Single
instructions other than switches are the same everywhere, so a row of them can
be walked wherever it is placed. Placed code with switches can be walked exactly
at multiples of four, because the operands of a switch start at one.
-/

namespace JvmClass.Bytecode

variable {code small : Bytecode} {p n : Nat} {bytes more : List UInt8}

/-- Whether code holds some bytes from a position on. -/
def HasBytes (code : Bytecode) (position : Nat) (bytes : List UInt8) : Prop :=
  ∀ i < bytes.length, code[position + i]? = bytes[i]?

/-- Bytes that follow one another are placed one behind the other. -/
theorem hasBytes_append :
    code.HasBytes p (bytes ++ more) ↔
      code.HasBytes p bytes ∧ code.HasBytes (p + bytes.length) more := by
  constructor
  · intro h
    refine ⟨fun i hi => ?_, fun i hi => ?_⟩
    · rw [h i (by rw [List.length_append]; omega), List.getElem?_append_left hi]
    · rw [Nat.add_assoc, h _ (by rw [List.length_append]; omega),
        List.getElem?_append_right (Nat.le_add_right ..), Nat.add_sub_cancel_left]
  · rintro ⟨hbytes, hmore⟩ i hi
    rw [List.length_append] at hi
    by_cases hlt : i < bytes.length
    · rw [hbytes i hlt, List.getElem?_append_left hlt]
    · have h := hmore (i - bytes.length) (by omega)
      have hplace : p + bytes.length + (i - bytes.length) = p + i := by omega
      rw [List.getElem?_append_right (by omega), ← h, hplace]

/-- Placed bytes lie within the code. -/
theorem HasBytes.add_length_le (h : code.HasBytes p bytes) (hbytes : bytes ≠ []) :
    p + bytes.length ≤ code.size := by
  have hlength := List.length_pos_iff.mpr hbytes
  have hlast := h (bytes.length - 1) (by omega)
  rw [List.getElem?_eq_getElem (by omega)] at hlast
  have hlt := (Array.getElem?_eq_some_iff.mp hlast).1
  omega

/-! ## Rows of instructions -/

/-- Whether some bytes are a complete instruction wherever they are placed. -/
def IsInstruction (bytes : List UInt8) : Prop :=
  ∀ (code : Bytecode) (p : Nat), code.HasBytes p bytes →
    code.instructionLength p = .ok bytes.length

/-- An opcode with its fixed number of operand bytes is an instruction. -/
theorem isInstruction_of_fixed {op : UInt8} {operands : List UInt8}
    (layout : Layout.ofOpcode op = .fixed operands.length) : IsInstruction (op :: operands) := by
  intro code p h
  have byte : code[p]? = some op := h 0 (Nat.succ_pos _)
  have hsize := h.add_length_le (by simp)
  have hshape : Shape code p (1 + operands.length) := .fixed byte layout
  rw [Nat.add_comm] at hshape
  exact instructionLength_eq_ok_iff.mpr ⟨hshape, hsize⟩

/-- The longer form of an instruction with a slot operand is an instruction. -/
theorem isInstruction_of_wide {op high low : UInt8} (hop : op ≠ Opcode.iinc) :
    IsInstruction [Opcode.wide, op, high, low] := by
  intro code p h
  have byte : code[p]? = some Opcode.wide := h 0 (Nat.succ_pos _)
  have hnext : code[p + 1]? = some op := h 1 (by simp)
  have hsize := h.add_length_le (by simp)
  have hshape := Shape.wide byte hnext
  rw [if_neg hop] at hshape
  exact instructionLength_eq_ok_iff.mpr ⟨hshape, hsize⟩

/-- Where instructions start that are placed one behind the other. -/
def placedStarts (position : Nat) : List (List UInt8) → List Nat
  | [] => []
  | bytes :: row => position :: placedStarts (position + bytes.length) row

/-- A row of instructions is walked wherever it is placed. -/
theorem walk_row {row : List (List UInt8)} (hrow : ∀ bytes ∈ row, IsInstruction bytes)
    (hbytes : row.flatten = bytes) (h : code.HasBytes p bytes) :
    Walk code p (placedStarts p row) (p + bytes.length) := by
  subst hbytes
  induction row generalizing p with
  | nil => exact .stop p
  | cons first row ih =>
    rw [List.flatten_cons] at h ⊢
    obtain ⟨hfirst, hrest⟩ := hasBytes_append.mp h
    have hlength := hrow first List.mem_cons_self code p hfirst
    have hwalk := ih (fun other hother => hrow other (List.mem_cons_of_mem _ hother)) hrest
    rw [List.length_append, ← Nat.add_assoc]
    exact .step hlength hwalk

/-! ## Code with switches -/

/-- A switch ends at a multiple of four. -/
theorem Shape.add_mod_four_of_isSwitch (shape : Shape code p n) (hswitch : code.IsSwitch p) :
    (p + n) % 4 = 0 := by
  have hlt := lt_switchOperands p
  have hoperands : switchOperands p % 4 = 0 := by
    unfold switchOperands
    omega
  cases shape with
  | fixed byte layout =>
    obtain hop | hop := hswitch <;> cases byte.symm.trans hop
    · cases layout.symm.trans ((Layout.eq_tableSwitch_iff _).mpr rfl)
    · cases layout.symm.trans ((Layout.eq_lookupSwitch_iff _).mpr rfl)
  | tableSwitch => omega
  | lookupSwitch => omega
  | wide byte =>
    obtain hop | hop := hswitch <;> cases byte.symm.trans hop

/-- Placed code can be walked as it can be walked alone exactly if it is placed
at a multiple of four or contains no switch. -/
theorem walk_placed_iff {starts : List Nat} {distance : Nat}
    (walk : Walk small 0 starts small.size) (h : code.HasBytes distance small.toList) :
    Walk code distance (starts.map (· + distance)) (distance + small.size) ↔
      distance % 4 = 0 ∨ ∀ q ∈ starts, ¬ small.IsSwitch q := by
  have hbyte : ∀ i < small.size, code[distance + i]? = small[i]? := fun i hi =>
    (h i (by simpa using hi)).trans (by simp)
  have hmoved : Walk code (0 + distance) (starts.map (· + distance)) (small.size + distance) ↔
      ∀ q ∈ starts, code.instructionLength (q + distance) = small.instructionLength q :=
    walk.moved_iff
  rw [Nat.zero_add, Nat.add_comm] at hmoved
  rw [hmoved]
  constructor
  · intro hlength
    by_cases hswitch : ∀ q ∈ starts, ¬ small.IsSwitch q
    · exact .inr hswitch
    · obtain ⟨q, hq, hswitch⟩ : ∃ q ∈ starts, small.IsSwitch q := by
        simpa using hswitch
      obtain ⟨n, hl⟩ := walk.exists_length hq
      have hin := (walk.mem_bounds hq).2
      have hopcode : code[q + distance]? = small[q]? := by
        rw [Nat.add_comm]
        exact hbyte q hin
      have hswitch' : code.IsSwitch (q + distance) := by
        unfold IsSwitch
        rw [hopcode]
        exact hswitch
      -- the switch ends at a multiple of four here and there
      have hend := (instructionLength_eq_ok_iff.mp hl).1.add_mod_four_of_isSwitch hswitch
      have hend' := (instructionLength_eq_ok_iff.mp
        ((hlength q hq).trans hl)).1.add_mod_four_of_isSwitch hswitch'
      omega
  · intro haligned q hq
    obtain ⟨n, hl⟩ := walk.exists_length hq
    have hsize := add_instructionLength_le hl
    have hone := one_le_instructionLength hl
    have hplaced : distance + small.size ≤ code.size := by
      have hsome : small.toList ≠ [] := by
        intro hnil
        have hzero : small.size = 0 := by
          rw [← Array.length_toList, hnil]
          rfl
        omega
      simpa using h.add_length_le hsome
    have same : SameInstruction small code q (q + distance) n := by
      refine ⟨fun i hi _ => ?_, fun hswitch => ?_⟩
      · have hplace : q + distance + i = distance + (q + i) := by omega
        rw [hplace]
        exact hbyte _ (by omega)
      · have hmultiple := haligned.resolve_right fun hnone => hnone q hq hswitch
        omega
    rw [hl]
    exact same.instructionLength hl (by omega)

/-- Whether some bytes are complete instructions, none of them a switch. -/
def IsPlain (bytes : List UInt8) : Prop :=
  ∃ starts, Bytecode.starts bytes.toArray = .ok starts ∧
    ∀ q ∈ starts, ¬ Bytecode.IsSwitch bytes.toArray q

/-- Complete instructions without a switch are walked wherever they are placed. -/
theorem IsPlain.exists_walk (hplain : IsPlain bytes) (h : code.HasBytes p bytes) :
    ∃ starts, Walk code p starts (p + bytes.length) := by
  obtain ⟨starts, hstarts, hnone⟩ := hplain
  have hplaced : code.HasBytes p bytes.toArray.toList := h
  have hwalk := (walk_placed_iff (starts_eq_ok_iff.mp hstarts) hplaced).mpr (.inr hnone)
  rw [List.size_toArray] at hwalk
  exact ⟨_, hwalk⟩

end JvmClass.Bytecode
