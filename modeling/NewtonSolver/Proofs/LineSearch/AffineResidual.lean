import Mathlib
import NewtonSolver.Proofs.Arithmetic.Length
import NewtonSolver.Proofs.LineSearch.Backtracking

/-! Backtracking along an exact direction of an affine residual. The merit function is a quadratic with its
minimum at one, so every step is a power of the contraction, whatever the order. -/
namespace NewtonSolver.LineSearch

variable {m n : Nat}

/-- The residual is `A x - b`, and the slope along the direction is minus the squared length of its image,
as it is for Newton and Gauss-Newton directions. -/
structure FollowsModel (F : Residual ℝ m n) (A : Mat ℝ m n) (b : Vec ℝ m) (x direction : Vec ℝ n)
    (slope : ℝ) : Prop where
  value : ∀ y, F.value y = A.mulVec y - b
  slope_eq : slope = Vec.dot (F.value x) (A.mulVec direction)
  slope_eq_neg : slope = -(A.mulVec direction).sumSquares
  slope_neg : slope < 0

/-- The values of the quadratic whose minimum at one is half the slope below its value at zero. -/
structure Merit.IsExactQuadratic (merit : Merit ℝ) : Prop where
  value : ∀ alpha, merit.value alpha =
    merit.valueAtZero + merit.slopeAtZero * (alpha - 1 / 2 * (alpha * alpha))
  slope_neg : merit.slopeAtZero < 0

theorem FollowsModel.along {F : Residual ℝ m n} {A : Mat ℝ m n} {b : Vec ℝ m} {x direction : Vec ℝ n}
    {slope : ℝ} (h : FollowsModel F A b x direction slope) (differentiable : Bool) :
    (Merit.along F differentiable x direction (F.value x) slope).IsExactQuadratic := by
  refine ⟨?_, h.slope_neg⟩
  intro alpha
  have hvalue : F.value (x + alpha * direction) = F.value x + alpha * A.mulVec direction := by
    rw [h.value, h.value, Exact.mulVec_along]
  change halfSquare (F.value (x + alpha * direction)) =
    halfSquare (F.value x) + slope * (alpha - 1 / 2 * (alpha * alpha))
  rw [hvalue, Exact.halfSquare_eq, Exact.halfSquare_eq, Exact.sumSquares_add_scale, ← h.slope_eq]
  have hexact := h.slope_eq_neg
  linear_combination (1 / 2 * (alpha * alpha)) * hexact

namespace Merit.IsExactQuadratic

variable {s : Backtracking ℝ} {merit : Merit ℝ} (h : merit.IsExactQuadratic)

include h

theorem enough_iff {alpha : ℝ} (hpos : 0 < alpha) :
    s.Enough merit alpha ↔ alpha ≤ 2 * (1 - s.decrease) := by
  have hscale : 0 < alpha * -merit.slopeAtZero := mul_pos hpos (neg_pos.mpr h.slope_neg)
  have hbound : merit.value alpha - (merit.valueAtZero + s.decrease * alpha * merit.slopeAtZero) =
      alpha * -merit.slopeAtZero * (1 / 2 * (alpha - 2 * (1 - s.decrease))) := by
    rw [h.value]
    ring
  constructor
  · rintro ⟨-, hle⟩
    have := nonpos_of_mul_nonpos_right (hbound ▸ sub_nonpos.mpr hle) hscale
    linarith
  · intro hle
    refine ⟨rfl, sub_nonpos.mp ?_⟩
    rw [hbound]
    exact mul_nonpos_of_nonneg_of_nonpos hscale.le (by linarith)

/-- The quadratic that is gone by is the merit function itself. -/
theorem interpolate_eq {alpha : ℝ} (hpos : 0 < alpha) :
    Backtracking.interpolate merit alpha (merit.value alpha) = 1 := by
  have hfall : -merit.slopeAtZero * (alpha * alpha) ≠ 0 :=
    mul_ne_zero (neg_ne_zero.mpr h.slope_neg.ne) (mul_pos hpos hpos).ne'
  have hdivisor : ((2 : ℕ) : ℝ) * (merit.value alpha - merit.valueAtZero - merit.slopeAtZero * alpha) =
      -merit.slopeAtZero * (alpha * alpha) := by
    rw [h.value]
    push_cast
    ring
  rw [Backtracking.interpolate, hdivisor]
  exact div_self hfall

/-- The minimum at one lies beyond the contracted step. -/
theorem shorten_eq (hs : s.IsProper) {alpha : ℝ} (hpos : 0 < alpha) (hle : alpha ≤ 1) :
    s.shorten merit alpha (merit.value alpha) = s.contraction * alpha := by
  have hcontracted : s.contraction * alpha < 1 := by
    nlinarith [hs.contraction_lt_one]
  have htenth : ¬ 1 < Scalar.decimal 1 1 * alpha := by
    rw [Exact.decimal_eq]
    norm_num
    linarith
  unfold Backtracking.shorten
  split
  · rw [h.interpolate_eq hpos, Scalar.atLeast, if_neg htenth, Scalar.atMost, if_pos hcontracted]
  · rfl

theorem trial_eq (hs : s.IsProper) (k : Nat) : s.trial merit k = s.contraction ^ k := by
  induction k with
  | zero => exact (pow_zero _).symm
  | succ k ih =>
    have hpos : 0 < s.contraction ^ k := pow_pos hs.contraction_pos k
    have hle : s.contraction ^ k ≤ 1 := pow_le_one₀ hs.contraction_pos.le hs.contraction_lt_one.le
    rw [Backtracking.trial, ih, h.shorten_eq hs hpos hle, pow_succ, mul_comm]

/-- What is found is the first power of the contraction that is small enough, if it is within the
budget. -/
theorem selects_eq (hs : s.IsProper) {budget : Setting ℝ} {selection : Selection ℝ} {k : Nat}
    (hsel : s.Selects merit budget selection)
    (hk : IsLeast {k | s.contraction ^ k ≤ 2 * (1 - s.decrease)} k) :
    selection = if k < s.maxSteps then ⟨.ok (s.contraction ^ k), k + 1, []⟩
      else ⟨.error (.lineSearch (.noDecrease budget)), s.maxSteps, []⟩ := by
  have henough (j : Nat) : s.Enough merit (s.trial merit j) ↔ s.contraction ^ j ≤ 2 * (1 - s.decrease) := by
    rw [h.trial_eq hs, h.enough_iff (pow_pos hs.contraction_pos j)]
  cases hsel with
  | @taken j within before enough =>
    have hj : IsLeast {k | s.contraction ^ k ≤ 2 * (1 - s.decrease)} j := by
      refine ⟨(henough j).mp enough, ?_⟩
      intro i hi
      by_contra hlt
      exact before i (not_le.mp hlt) ((henough i).mpr hi)
    obtain rfl := hj.unique hk
    rw [if_pos within, h.trial_eq hs]
  | exhausted before =>
    have hnot : ¬ k < s.maxSteps := fun hlt => before k hlt ((henough k).mpr hk.1)
    rw [if_neg hnot]

end Merit.IsExactQuadratic

theorem Backtracking.IsProper.exists_least {s : Backtracking ℝ} (hs : s.IsProper) :
    ∃ k, IsLeast {k | s.contraction ^ k ≤ 2 * (1 - s.decrease)} k := by
  have hroom : 0 < 2 * (1 - s.decrease) := by linarith [hs.decrease_lt_one]
  obtain ⟨k, hk⟩ := exists_pow_lt_of_lt_one hroom hs.contraction_lt_one
  classical
  have hex : ∃ k, s.contraction ^ k ≤ 2 * (1 - s.decrease) := ⟨k, hk.le⟩
  exact ⟨Nat.find hex, Nat.find_spec hex, fun j hj => Nat.find_min' hex hj⟩

/-- The selection in closed form: the first power of the contraction that is at most twice what the
decrease leaves of one, within the budget. The order does not matter, and the full step is taken if no more
than half of the predicted decrease is asked for. -/
structure Backtracking.SelectsPower (s : Backtracking ℝ) (fields : BacktrackingFields ℝ)
    (merit : Merit ℝ) (k : Nat) : Prop where
  least : IsLeast {k | s.contraction ^ k ≤ 2 * (1 - s.decrease)} k
  selection : ∀ order, (LineSearchStrategy.backtracking { fields with order }).validate = .ok () →
    select (.backtracking { fields with order }) merit =
      if k < s.maxSteps then ⟨.ok (s.contraction ^ k), k + 1, []⟩
      else ⟨.error (.lineSearch (.noDecrease fields.maxSteps)), s.maxSteps, []⟩
  full : (select (.backtracking fields) merit).step = .ok 1 ↔ s.decrease ≤ 1 / 2

section Power

variable {fields : BacktrackingFields ℝ} {budget : Int}
  (hv : (LineSearchStrategy.backtracking fields).validate = .ok ())
  (hbudget : fields.maxSteps.wholeNumber = .ok budget)

include hv hbudget

theorem Merit.IsExactQuadratic.select_eq {s : Backtracking ℝ} {merit : Merit ℝ} {k : Nat}
    (h : merit.IsExactQuadratic) (hs : Backtracking.ofFields fields = .ok s)
    (hk : IsLeast {k | s.contraction ^ k ≤ 2 * (1 - s.decrease)} k) {order : Setting ℝ}
    (horder : (LineSearchStrategy.backtracking { fields with order }).validate = .ok ()) :
    select (.backtracking { fields with order }) merit =
      if k < s.maxSteps then ⟨.ok (s.contraction ^ k), k + 1, []⟩
      else ⟨.error (.lineSearch (.noDecrease fields.maxSteps)), s.maxSteps, []⟩ := by
  obtain ⟨t, ht⟩ := Backtracking.exists_ofFields horder hbudget
  obtain ⟨hd, hc, -⟩ := Backtracking.ofFields_eq_ok hs
  obtain ⟨hd', hc', -⟩ := Backtracking.ofFields_eq_ok ht
  have hdecrease : t.decrease = s.decrease := Except.ok.inj (hd'.symm.trans hd)
  have hcontraction : t.contraction = s.contraction := Except.ok.inj (hc'.symm.trans hc)
  have hsteps : t.maxSteps = s.maxSteps := by
    have hs' := Backtracking.maxSteps_eq hv hs hbudget
    have ht' := Backtracking.maxSteps_eq horder ht hbudget
    omega
  have hdescent : isDescent merit.slopeAtZero = true :=
    isDescent_iff.mpr ⟨merit.slopeAtZero, rfl, h.slope_neg⟩
  rw [← hdecrease, ← hcontraction] at hk
  rw [← hcontraction, ← hsteps]
  exact h.selects_eq (Backtracking.isProper horder ht) (backtrack_selects ht hdescent) hk

/-- The selection along an exact direction of an affine residual is known in advance. -/
theorem select_affine {F : Residual ℝ m n} {A : Mat ℝ m n} {b : Vec ℝ m} {x direction : Vec ℝ n}
    {slope : ℝ} (hmodel : FollowsModel F A b x direction slope) (differentiable : Bool) :
    ∃ s k, Backtracking.ofFields fields = .ok s ∧ (s.maxSteps : Int) = budget ∧
      s.SelectsPower fields (.along F differentiable x direction (F.value x) slope) k := by
  obtain ⟨s, hs⟩ := Backtracking.exists_ofFields hv hbudget
  have hproper := Backtracking.isProper hv hs
  obtain ⟨k, hk⟩ := hproper.exists_least
  have hquadratic := hmodel.along differentiable
  refine ⟨s, k, hs, Backtracking.maxSteps_eq hv hs hbudget, hk, ?_, ?_⟩
  · intro order horder
    exact hquadratic.select_eq hv hbudget hs hk horder
  · rw [hquadratic.select_eq hv hbudget hs hk hv]
    constructor
    · intro hstep
      split at hstep
      · have hone : s.contraction ^ k = 1 := Except.ok.inj hstep
        have hleast : s.contraction ^ k ≤ 2 * (1 - s.decrease) := hk.1
        linarith
      · cases hstep
    · intro hhalf
      have hzero : k ≤ 0 := hk.2 (show s.contraction ^ 0 ≤ 2 * (1 - s.decrease) by
        rw [pow_zero]
        linarith)
      have hbudget : 0 < s.maxSteps := Backtracking.one_le_maxSteps hv hs
      obtain rfl := Nat.le_zero.mp hzero
      rw [if_pos hbudget, pow_zero]

end Power

/-- Three quarters of the predicted decrease, which the full step does not bring. -/
noncomputable def demanding : BacktrackingFields ℝ :=
  ⟨.real (Scalar.decimal 75 2), .real (Scalar.decimal 5 1), .whole 3, .whole 1⟩

/-- Two equations with one unknown that contradict each other. -/
noncomputable def contradictory : Residual ℝ 2 1 :=
  .affine (.ofFn fun _ _ => 1) (.ofFn fun i => (i.val : ℝ))

/-- The step from zero to their least squares point. -/
theorem contradictory_followsModel :
    FollowsModel contradictory (.ofFn fun _ _ => 1) (.ofFn fun i => (i.val : ℝ)) 0
      (.ofFn fun _ => 1 / 2) (-1 / 2) where
  value _ := rfl
  slope_eq := by
    simp only [contradictory, Residual.affine, Exact.dot_eq_sum, Exact.mulVec_get, Fin.sum_univ_two,
      Vec.get_sub]
    norm_num
  slope_eq_neg := by
    simp only [Vec.sumSquares, Exact.dot_eq_sum, Exact.mulVec_get, Fin.sum_univ_two]
    norm_num
  slope_neg := by norm_num

theorem select_affine_contradictory :
    (LineSearchStrategy.backtracking demanding).validate = .ok () ∧
      demanding.maxSteps.wholeNumber = .ok 3 ∧
      FollowsModel contradictory (.ofFn fun _ _ => 1) (.ofFn fun i => (i.val : ℝ)) 0
        (.ofFn fun _ => 1 / 2) (-1 / 2) ∧
      ∃ s k, Backtracking.ofFields demanding = .ok s ∧ (s.maxSteps : Int) = 3 ∧
        s.SelectsPower demanding (.along contradictory true 0 (.ofFn fun _ => 1 / 2)
          (contradictory.value 0) (-1 / 2)) k := by
  have hv : (LineSearchStrategy.backtracking demanding).validate = .ok () := by
    simp [demanding, LineSearchStrategy.validate, require, Setting.isInsideUnit_decimal,
      Setting.isBelow_one, Setting.same]
  exact ⟨hv, rfl, contradictory_followsModel, select_affine hv rfl contradictory_followsModel true⟩

end NewtonSolver.LineSearch
