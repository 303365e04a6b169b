import Mathlib
import NewtonSolver.LineSearch.Merit
import NewtonSolver.Proofs.Arithmetic.Linear

/-! Inner products, squared lengths and lengths of vectors in exact arithmetic. -/
namespace NewtonSolver.Exact

variable {n : Nat} {u v w : Vec ℝ n}

theorem dot_add_left (u v w : Vec ℝ n) : Vec.dot (u + v) w = Vec.dot u w + Vec.dot v w := by
  simp only [dot_eq_sum, Vec.get_add, add_mul, Finset.sum_add_distrib]

theorem dot_comm (u v : Vec ℝ n) : Vec.dot u v = Vec.dot v u := by
  simp only [dot_eq_sum, mul_comm]

theorem dot_neg_left (u v : Vec ℝ n) : Vec.dot (-u) v = -Vec.dot u v := by
  simp only [dot_eq_sum, Vec.get_neg, neg_mul, Finset.sum_neg_distrib]

theorem dot_scale_right (a : ℝ) (u v : Vec ℝ n) : Vec.dot u (a * v) = a * Vec.dot u v := by
  simp only [dot_eq_sum, Vec.get_scale, mul_left_comm, Finset.mul_sum]

theorem dot_scale_left (a : ℝ) (u v : Vec ℝ n) : Vec.dot (a * u) v = a * Vec.dot u v := by
  rw [dot_comm, dot_scale_right, dot_comm]

theorem dot_sq_le (u v : Vec ℝ n) : Vec.dot u v ^ 2 ≤ u.sumSquares * v.sumSquares := by
  simp only [Vec.sumSquares, dot_eq_sum, ← pow_two]
  exact Finset.sum_mul_sq_le_sq_mul_sq _ _ _

theorem sumSquares_add (u v : Vec ℝ n) :
    (u + v).sumSquares = u.sumSquares + 2 * Vec.dot u v + v.sumSquares := by
  simp only [Vec.sumSquares, dot_add_left, dot_comm _ (u + v)]
  rw [dot_comm v u]
  ring

theorem sumSquares_scale (a : ℝ) (v : Vec ℝ n) :
    Vec.sumSquares (a * v) = a ^ 2 * v.sumSquares := by
  rw [Vec.sumSquares, dot_scale_right, dot_scale_left, pow_two, mul_assoc]
  rfl

theorem sumSquares_add_scale (a : ℝ) (u v : Vec ℝ n) :
    (u + a * v).sumSquares = u.sumSquares + 2 * a * Vec.dot u v + a * a * v.sumSquares := by
  rw [sumSquares_add, dot_scale_right, sumSquares_scale]
  ring

theorem sumSquares_nonneg (v : Vec ℝ n) : 0 ≤ v.sumSquares := by
  rw [Vec.sumSquares, dot_eq_sum]
  exact Finset.sum_nonneg fun i _ => mul_self_nonneg _

theorem sumSquares_eq_zero : v.sumSquares = 0 ↔ v = 0 := by
  rw [Vec.sumSquares, dot_eq_sum, Finset.sum_mul_self_eq_zero_iff]
  constructor
  · intro h
    exact Vec.ext_get fun i => by simpa using h i (Finset.mem_univ i)
  · rintro rfl i -
    simp

theorem scale_eq_zero_iff {a : ℝ} (ha : a ≠ 0) : a * v = 0 ↔ v = 0 := by
  rw [← sumSquares_eq_zero, sumSquares_scale, mul_eq_zero, or_iff_right (pow_ne_zero 2 ha),
    sumSquares_eq_zero]

theorem halfSquare_eq (v : Vec ℝ n) : LineSearch.halfSquare v = 1 / 2 * v.sumSquares := by
  rw [LineSearch.halfSquare, half_eq]

theorem norm_zero : (0 : Vec ℝ n).norm = 0 := by
  rw [Vec.norm, sumSquares_eq_zero.mpr rfl]
  exact Real.sqrt_zero

theorem norm_sq (v : Vec ℝ n) : v.norm ^ 2 = v.sumSquares := Real.sq_sqrt (sumSquares_nonneg v)

theorem norm_pos_iff : 0 < v.norm ↔ v ≠ 0 :=
  Real.sqrt_pos.trans ((sumSquares_nonneg v).lt_iff_ne'.trans sumSquares_eq_zero.not)

theorem norm_scale (a : ℝ) (v : Vec ℝ n) : Vec.norm (a * v) = |a| * v.norm := by
  change √(Vec.sumSquares (a * v)) = |a| * √v.sumSquares
  rw [sumSquares_scale, Real.sqrt_mul (sq_nonneg a), Real.sqrt_sq_eq_abs]

theorem norm_le_norm (h : u.sumSquares ≤ v.sumSquares) : u.norm ≤ v.norm := Real.sqrt_le_sqrt h

theorem sumSquares_le_of_norm_le (h : u.norm ≤ v.norm) : u.sumSquares ≤ v.sumSquares :=
  (Real.sqrt_le_sqrt_iff (sumSquares_nonneg v)).mp h

theorem map_div_eq (v : Vec ℝ n) (a : ℝ) : v.map (· / a) = a⁻¹ * v := by
  refine Vec.ext_get ?_
  intro i
  simp [Vector.get_eq_getElem, div_eq_inv_mul]

/-- Scaling to length one. -/
theorem sumSquares_unit (hv : v ≠ 0) : Vec.sumSquares (v.map (· / v.norm)) = 1 := by
  have hpos := norm_pos_iff.mpr hv
  rw [map_div_eq, sumSquares_scale, ← norm_sq, inv_pow, inv_mul_cancel₀ (by positivity)]

end NewtonSolver.Exact
