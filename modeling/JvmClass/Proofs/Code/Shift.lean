import JvmClass.Code.Shift

/-!
# Order and shifts

A shift keeps the order of positions, and it keeps on which side of a reference
an instruction lies, whether references to the gap itself move or not.
-/

namespace JvmClass.Shift

variable (s : Shift)

/-- The first reference that moves: the gap itself if it is exclusive, else the
position behind it. -/
def threshold : Nat := if s.exclusive then s.position else s.position + 1

/-- No reference before the gap moves, and every reference behind it does. -/
theorem threshold_bounds : s.position ≤ s.threshold ∧ s.threshold ≤ s.position + 1 := by
  unfold threshold
  split <;> omega

/-- A reference moves exactly if it has reached the threshold. -/
theorem moves_iff (t : Nat) : s.moves t = true ↔ s.threshold ≤ t := by
  unfold moves threshold
  cases s.exclusive with
  | false =>
    simp only [Bool.false_and, Bool.or_false, decide_eq_true_eq, Bool.false_eq_true, if_false]
    omega
  | true =>
    simp only [Bool.true_and, Bool.or_eq_true, decide_eq_true_eq, beq_iff_eq, if_true]
    omega

/-- Where a reference goes, by the threshold. -/
theorem target_eq (t : Nat) : s.target t = if s.threshold ≤ t then t + s.gap else t := by
  unfold target
  simp only [moves_iff]

/-- A reference to a position of the code goes where a branch to it goes. -/
theorem branchTarget_natCast (t : Nat) : s.branchTarget t = s.target t := by
  rw [target_eq]
  unfold branchTarget threshold
  cases s.exclusive with
  | false =>
    simp only [Bool.false_and, Bool.or_false, decide_eq_true_eq, Bool.false_eq_true, if_false]
    split <;> split <;> omega
  | true =>
    simp only [Bool.true_and, Bool.or_eq_true, decide_eq_true_eq, beq_iff_eq, if_true]
    split <;> split <;> omega

/-- A reference moves by the length of the gap at most, and never backward. -/
theorem target_bounds (t : Nat) : t ≤ s.target t ∧ s.target t ≤ t + s.gap := by
  rw [target_eq]
  split <;> omega

/-- An instruction moves by the length of the gap at most, and never backward. -/
theorem start_bounds (p : Nat) : p ≤ s.start p ∧ s.start p ≤ p + s.gap := by
  unfold start
  split <;> omega

/-- A reference at or before an instruction stays there. -/
theorem target_le_start_iff (t p : Nat) : s.target t ≤ s.start p ↔ t ≤ p := by
  have hthreshold := s.threshold_bounds
  rw [target_eq]
  unfold start
  split <;> split <;> omega

/-- A reference behind an instruction stays there. -/
theorem start_lt_target_iff (t p : Nat) : s.start p < s.target t ↔ p < t := by
  have h := s.target_le_start_iff t p
  omega

/-- References stay in order. -/
theorem target_lt_target {t u : Nat} (h : t < u) : s.target t < s.target u := by
  rw [target_eq, target_eq]
  split <;> split <;> omega

/-- A gap of no bytes moves no instruction. -/
theorem start_of_gap_eq_zero (h : s.gap = 0) (p : Nat) : s.start p = p := by
  unfold start
  split <;> omega

/-- A gap of no bytes moves no reference. -/
theorem target_of_gap_eq_zero (h : s.gap = 0) (t : Nat) : s.target t = t := by
  unfold target
  split <;> omega

/-- A gap of no bytes moves no reference of 16 bits. -/
theorem target16_of_gap_eq_zero (h : s.gap = 0) (t : UInt16) : s.target16 t = t := by
  unfold target16
  rw [s.target_of_gap_eq_zero h, UInt16.ofNat_toNat]

/-- A reference of 16 bits goes where it should if nothing is inserted or there
is room for it. -/
theorem toNat_target16 {t : UInt16} {size : Nat} (ht : t.toNat ≤ size)
    (hroom : s.gap = 0 ∨ size + s.gap ≤ 65535) : (s.target16 t).toNat = s.target t.toNat := by
  have hbounds := s.target_bounds t.toNat
  have hlt := t.toNat_lt
  unfold target16
  rw [UInt16.toNat_ofNat']
  omega

end JvmClass.Shift
