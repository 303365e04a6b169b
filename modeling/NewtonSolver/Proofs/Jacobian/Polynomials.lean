import Mathlib
import NewtonSolver.Proofs.Jacobian.Differences

/-! Central differences of functions whose components are polynomials. Along a line such a component is a
polynomial in the step, of no higher degree, and up to degree two the differences are exact. -/
namespace NewtonSolver

variable {m n : Nat}

/-- A quadratic compared with itself on the other side of zero. -/
theorem eval_sub_eval_neg {q : Polynomial ℝ} (hq : q.natDegree ≤ 2) (h : ℝ) :
    q.eval h - q.eval (-h) = 2 * h * q.derivative.eval 0 := by
  have hslope : q.derivative.eval 0 = q.coeff 1 := by
    rw [← Polynomial.coeff_zero_eq_eval_zero, Polynomial.coeff_derivative]
    simp
  rw [hslope, Polynomial.eval_eq_sum_range' (Nat.lt_succ_of_le hq),
    Polynomial.eval_eq_sum_range' (Nat.lt_succ_of_le hq)]
  simp only [Finset.sum_range_succ, Finset.sum_range_zero]
  ring

/-- What a polynomial is along a line, as a polynomial in the step. -/
noncomputable def alongLine (x v : Vec ℝ n) : MvPolynomial (Fin n) ℝ →ₐ[ℝ] Polynomial ℝ :=
  MvPolynomial.aeval fun j => .C (v.get j) * .X + .C (x.get j)

section Line

variable (x v : Vec ℝ n) (p : MvPolynomial (Fin n) ℝ)

@[simp] theorem alongLine_X (j : Fin n) :
    alongLine x v (.X j) = .C (v.get j) * .X + .C (x.get j) := by
  simp [alongLine]

@[simp] theorem alongLine_C (a : ℝ) : alongLine x v (.C a) = .C a := by
  simp [alongLine]

theorem eval_alongLine (h : ℝ) :
    (alongLine x v p).eval h = MvPolynomial.eval (x + h * v).get p := by
  induction p using MvPolynomial.induction_on with
  | C a => simp
  | add p q hp hq => simp [hp, hq]
  | mul_X p j hp =>
    have hj : (alongLine x v (.X j)).eval h = (x + h * v).get j := by
      simp
      ring
    rw [map_mul, Polynomial.eval_mul, hp, hj, map_mul, MvPolynomial.eval_X]

theorem natDegree_alongLine_le : (alongLine x v p).natDegree ≤ p.totalDegree := by
  have hline (j : Fin n) :
      (.C (v.get j) * .X + .C (x.get j) : Polynomial ℝ).natDegree ≤ 1 :=
    Polynomial.natDegree_linear_le
  have h := MvPolynomial.aeval_natDegree_le p le_rfl _ hline
  rwa [mul_one] at h

/-- The chain rule along a line. -/
theorem derivative_alongLine : (alongLine x v p).derivative =
    ∑ j, alongLine x v (MvPolynomial.pderiv j p) * .C (v.get j) := by
  induction p using MvPolynomial.induction_on with
  | C a => simp
  | add p q hp hq => simp only [map_add, hp, hq, add_mul, Finset.sum_add_distrib]
  | mul_X p k hp =>
    have hother : ∑ j, alongLine x v p * alongLine x v (MvPolynomial.pderiv j (.X k)) * .C (v.get j) =
        alongLine x v p * .C (v.get k) := by
      rw [Finset.sum_eq_single k]
      · simp
      · intro j _ hne
        simp [MvPolynomial.pderiv_X_of_ne hne.symm]
      · simp
    have hown : ∑ j, alongLine x v (MvPolynomial.pderiv j p) * alongLine x v (.X k) * .C (v.get j) =
        (alongLine x v p).derivative * alongLine x v (.X k) := by
      rw [hp, Finset.sum_mul]
      exact Finset.sum_congr rfl fun j _ => by ring
    simp only [MvPolynomial.pderiv_mul, map_mul, map_add, add_mul, Finset.sum_add_distrib, hown, hother,
      Polynomial.derivative_mul]
    simp

end Line

/-- The components of the function are these polynomials. -/
def IsPolynomial (F : Vec ℝ n → Vec ℝ m) (p : Fin m → MvPolynomial (Fin n) ℝ) : Prop :=
  ∀ x i, (F x).get i = MvPolynomial.eval x.get (p i)

/-- The partial derivatives at a point. -/
noncomputable def partials (p : Fin m → MvPolynomial (Fin n) ℝ) (x : Vec ℝ n) : Mat ℝ m n :=
  Mat.ofFn fun i j => MvPolynomial.eval x.get (MvPolynomial.pderiv j (p i))

section Differences

variable {F : Vec ℝ n → Vec ℝ m} {p : Fin m → MvPolynomial (Fin n) ℝ} {S : DifferenceScheme ℝ}

/-- The rate at which a component moves from a point along a direction. -/
theorem derivative_alongLine_zero (x v : Vec ℝ n) (i : Fin m) :
    (alongLine x v (p i)).derivative.eval 0 = ((partials p x).mulVec v).get i := by
  rw [derivative_alongLine, Polynomial.eval_finsetSum, Exact.mulVec_get]
  refine Finset.sum_congr rfl ?_
  intro j _
  rw [Polynomial.eval_mul, Polynomial.eval_C, eval_alongLine, Exact.add_zero_scale, partials,
    Mat.entry_ofFn]

namespace IsPolynomial

variable (hF : IsPolynomial F p)

include hF

theorem get_along (x v : Vec ℝ n) (h : ℝ) (i : Fin m) :
    (F (x + h * v)).get i = (alongLine x v (p i)).eval h := by
  rw [hF, eval_alongLine]

theorem central_exactAt (hcentral : S.central = true) (hdegree : ∀ i, (p i).totalDegree ≤ 2)
    (x : Vec ℝ n) : S.ExactAt F x (partials p x) := by
  intro v h hh
  refine Vec.ext_get ?_
  intro i
  have hdiff := eval_sub_eval_neg ((natDegree_alongLine_le x v (p i)).trans (hdegree i)) h
  have hne : 2 * h ≠ 0 := mul_ne_zero two_ne_zero hh
  rw [DifferenceScheme.quotient, if_pos hcentral, Vector.get_map, Vec.get_sub, hF.get_along,
    Exact.sub_scale, hF.get_along, hdiff, derivative_alongLine_zero, Nat.cast_ofNat,
    mul_div_cancel_left₀ _ hne]

end IsPolynomial

end Differences

end NewtonSolver
