import JvmClass.Proofs.Code.Shift
import Mathlib.Data.List.Basic

/-!
# Positions and widened loads

A load of a constant that needs its wide form gets a gap of four bytes before it,
the last of which becomes part of the load. So every reference goes four bytes
further for each widened load before it, and the wide load itself is found three
bytes behind the place where references to it go. Loads are widened from back to
front, and each of them shifts what has been reached so far.
-/

namespace JvmClass.Widening

/-- Where a reference goes when the loads at some positions are widened. -/
def target (widened : List Nat) (t : Nat) : Nat := t + 4 * widened.countP (· < t)

/-- Where a reference goes that may lie before the code. -/
def branchTarget (widened : List Nat) (t : Int) : Int :=
  t + 4 * (widened.countP fun q : Nat => (q : Int) < t : Nat)

/-- Where the instruction at a position goes. -/
def home (widened : List Nat) (p : Nat) : Nat :=
  target widened p + if p ∈ widened then 3 else 0

/-- Where the instructions start that the instruction at a position has become: a
widened load comes behind three instructions that do nothing. -/
def places (widened : List Nat) (p : Nat) : List Nat :=
  List.range' (target widened p) (if p ∈ widened then 4 else 1)

/-- The gap for the load at a position. -/
def gap (w : Nat) : Shift := ⟨w, 4, false⟩

theorem target_gap (w t : Nat) : (gap w).target t = if w < t then t + 4 else t := by
  rw [Shift.target_eq]
  rfl

theorem branchTarget_gap (w : Nat) (t : Int) :
    (gap w).branchTarget t = if (w : Int) < t then t + 4 else t := by
  by_cases h : (w : Int) < t <;> simp [Shift.branchTarget, gap, h]

theorem start_gap (w p : Nat) : (gap w).start p = if w ≤ p then p + 4 else p := rfl

/-- The gap for a load keeps the alignment of what it moves. -/
theorem gap_mod_four (w : Nat) : (gap w).gap % 4 = 0 := Nat.mod_self 4

/-- Without widened loads, branches stay. -/
theorem branchTarget_nil : branchTarget [] = id := by
  funext t
  unfold branchTarget
  simp

section Order

variable (widened : List Nat)

/-- A widened load is found behind the three instructions before it. -/
theorem home_of_mem {p : Nat} (hp : p ∈ widened) : home widened p = target widened p + 3 := by
  unfold home
  rw [if_pos hp]

/-- Any other instruction is found where references to it go. -/
theorem home_of_not_mem {p : Nat} (hp : p ∉ widened) : home widened p = target widened p := by
  unfold home
  rw [if_neg hp]
  rfl

/-- A reference to a position of the code goes where a branch to it goes. -/
theorem branchTarget_natCast (t : Nat) : branchTarget widened t = target widened t := by
  unfold branchTarget target
  simp only [Int.ofNat_lt]
  omega

/-- No fewer loads lie before a later position. -/
theorem countP_mono {p t : Nat} (h : p ≤ t) :
    widened.countP (· < p) ≤ widened.countP (· < t) := by
  refine List.countP_mono_left fun q _ hq => ?_
  have hq := of_decide_eq_true hq
  exact decide_eq_true (by omega)

variable {widened}

/-- The load at a position lies before every later one. -/
theorem countP_lt_countP {p t : Nat} (hp : p ∈ widened) (h : p < t) :
    widened.countP (· < p) < widened.countP (· < t) := by
  induction widened with
  | nil => cases hp
  | cons w widened ih =>
    have hmono := countP_mono widened (Nat.le_of_lt h)
    simp only [List.countP_cons, decide_eq_true_eq]
    rcases List.mem_cons.mp hp with rfl | hp
    · rw [if_neg (Nat.lt_irrefl p), if_pos h]
      omega
    · have hlt := ih hp
      split <;> split <;> omega

/-- One more load lies before the end of an instruction than before its start if
it is a load itself. -/
theorem countP_lt_add (hnodup : widened.Nodup) {p n : Nat} (hn : 0 < n)
    (h : ∀ q ∈ widened, q < p + n → q ≤ p) :
    widened.countP (· < p + n) = widened.countP (· < p) + if p ∈ widened then 1 else 0 := by
  induction widened with
  | nil => rfl
  | cons w widened ih =>
    obtain ⟨hnew, hnodup⟩ := List.nodup_cons.mp hnodup
    have hrest := ih hnodup fun q hq => h q (List.mem_cons_of_mem _ hq)
    have hfirst := h w List.mem_cons_self
    simp only [List.countP_cons, decide_eq_true_eq, List.mem_cons]
    rcases Nat.lt_trichotomy w p with hlt | rfl | hgt
    · have hne : p ≠ w := Nat.ne_of_gt hlt
      rw [if_pos hlt, if_pos (by omega)]
      simp only [hne, false_or]
      omega
    · rw [if_neg hnew] at hrest
      rw [if_neg (Nat.lt_irrefl w), if_pos (by omega), if_pos (.inl rfl)]
      omega
    · have hne : p ≠ w := Nat.ne_of_lt hgt
      rw [if_neg (by omega), if_neg (by omega)]
      simp only [hne, false_or]
      omega

/-- A reference at or before an instruction stays there. -/
theorem target_le_home_iff {t p : Nat} : target widened t ≤ home widened p ↔ t ≤ p := by
  unfold home target
  constructor
  · intro hle
    by_contra hlt
    have hmono := countP_mono widened (Nat.le_of_not_le hlt)
    by_cases hp : p ∈ widened
    · have hone := countP_lt_countP hp (Nat.lt_of_not_le hlt)
      rw [if_pos hp] at hle
      omega
    · rw [if_neg hp] at hle
      omega
  · intro hle
    have hmono := countP_mono widened hle
    omega

/-- An instruction has become whatever stands between where references to it go and
where it is found. -/
theorem mem_places_iff {p q : Nat} :
    q ∈ places widened p ↔ target widened p ≤ q ∧ q ≤ home widened p := by
  unfold places home
  rw [List.mem_range'_1]
  split <;> omega

/-- A reference at or before an instruction is at or before all that it has become. -/
theorem target_le_iff {t p q : Nat} (hq : q ∈ places widened p) :
    target widened t ≤ q ↔ t ≤ p := by
  obtain ⟨hlow, hhigh⟩ := mem_places_iff.mp hq
  constructor
  · exact fun hle => target_le_home_iff.mp (Nat.le_trans hle hhigh)
  · intro hle
    have hmono := countP_mono widened hle
    unfold target at hlow ⊢
    omega

/-- A reference behind an instruction is behind all that it has become. -/
theorem lt_target_iff {t p q : Nat} (hq : q ∈ places widened p) :
    q < target widened t ↔ p < t := by
  have h : target widened t ≤ q ↔ t ≤ p := target_le_iff hq
  omega

/-- References stay in order. -/
theorem target_lt_target {t u : Nat} (h : t < u) : target widened t < target widened u := by
  have hmono := countP_mono widened (Nat.le_of_lt h)
  unfold target
  omega

/-- References stay in order, even if they go to the same place. -/
theorem target_le_target {t u : Nat} (h : t ≤ u) : target widened t ≤ target widened u := by
  rcases Nat.lt_or_eq_of_le h with hlt | rfl
  · exact Nat.le_of_lt (target_lt_target hlt)
  · exact Nat.le_refl _

/-- A reference never goes backward, and no further than by four bytes for every
load. -/
theorem target_bounds (widened : List Nat) (t : Nat) :
    t ≤ target widened t ∧ target widened t ≤ t + 4 * widened.length := by
  have hle : widened.countP (· < t) ≤ widened.length := List.countP_le_length
  unfold target
  omega

/-- A reference before all loads stays where it is. -/
theorem target_eq_self {t : Nat} (h : ∀ q ∈ widened, t ≤ q) : target widened t = t := by
  have hnone : widened.countP (· < t) = 0 := by
    refine List.countP_eq_zero.mpr fun q hq => ?_
    have hle := h q hq
    simpa using hle
  unfold target
  omega

end Order

/-! ## One more load -/

section Step

variable {w : Nat} {widened : List Nat} (hfirst : ∀ q ∈ widened, w < q)

include hfirst

/-- The gap for a load before the others shifts where these take a reference. -/
theorem target_cons (t : Nat) :
    target (w :: widened) t = (gap w).target (target widened t) := by
  have hbounds := target_bounds widened t
  rw [target_gap]
  by_cases hlt : w < t
  · rw [if_pos (by omega)]
    simp only [target, List.countP_cons, hlt, decide_true, if_true]
    omega
  · have hself : target widened t = t := target_eq_self fun q hq => by
      have hq := hfirst q hq
      omega
    rw [hself, if_neg hlt]
    simp only [target, List.countP_cons, hlt, decide_false] at hself ⊢
    simpa using hself

/-- A reference behind the first load goes four bytes further for it. -/
theorem target_cons_of_lt {t : Nat} (h : w < t) :
    target (w :: widened) t = target widened t + 4 := by
  have hbounds := target_bounds widened t
  rw [target_cons hfirst, target_gap, if_pos (by omega)]

/-- A reference to the first load stays. -/
theorem target_cons_self : target (w :: widened) w = w := by
  refine target_eq_self fun q hq => ?_
  rcases List.mem_cons.mp hq with rfl | hq
  · exact Nat.le_refl q
  · exact Nat.le_of_lt (hfirst q hq)

/-- The gap for a load before the others shifts where these take a branch. -/
theorem branchTarget_cons (t : Int) :
    branchTarget (w :: widened) t = (gap w).branchTarget (branchTarget widened t) := by
  rw [branchTarget_gap]
  unfold branchTarget
  simp only [List.countP_cons, decide_eq_true_eq]
  by_cases hlt : (w : Int) < t
  · rw [if_pos hlt, if_pos (by omega)]
    omega
  · have hnone : (widened.countP fun q : Nat => (q : Int) < t) = 0 := by
      refine List.countP_eq_zero.mpr fun q hq => ?_
      have hq := hfirst q hq
      simp only [decide_eq_true_eq]
      omega
    rw [if_neg hlt, hnone, if_neg (by omega)]

/-- The load before the others has not been moved by them. -/
theorem home_eq_self : home widened w = w := by
  have hnot : w ∉ widened := fun hw => Nat.lt_irrefl w (hfirst w hw)
  rw [home_of_not_mem _ hnot, target_eq_self fun q hq => Nat.le_of_lt (hfirst q hq)]

/-- The gap for a load before the others shifts where these take an instruction. -/
theorem home_cons_of_ne {p : Nat} (hp : p ≠ w) :
    home (w :: widened) p = (gap w).start (home widened p) := by
  have htarget := target_cons hfirst p
  have hbounds := target_bounds widened p
  have hmem : p ∈ w :: widened ↔ p ∈ widened := by simp [hp]
  rw [target_gap] at htarget
  rw [start_gap]
  unfold home
  rw [htarget]
  simp only [hmem]
  by_cases hlt : w < p
  · have hbehind : w < target widened p := by omega
    have hreached (n : Nat) : w ≤ target widened p + n := by omega
    rw [if_pos hbehind, if_pos (hreached _)]
    omega
  · have hself : target widened p = p := target_eq_self fun q hq => by
      have hq := hfirst q hq
      omega
    have hnot : p ∉ widened := fun hin => by
      have hq := hfirst p hin
      omega
    rw [if_neg hnot, hself, if_neg hlt, if_neg (by omega)]

/-- The wide load takes the last byte of its gap. -/
theorem home_cons_self : home (w :: widened) w = w + 3 := by
  rw [home_of_mem _ List.mem_cons_self, target_cons_self hfirst]

/-- No other instruction goes to where the load before the others is. -/
theorem target_ne {p : Nat} (hp : p ≠ w) : target widened p ≠ w := by
  have hbounds := target_bounds widened p
  rcases Nat.lt_or_gt_of_ne hp with hlt | hgt
  · rw [target_eq_self fun q hq => by have hq := hfirst q hq; omega]
    exact hp
  · omega

end Step

end JvmClass.Widening
