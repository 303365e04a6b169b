import Mathlib
import NewtonSolver.Operator
import NewtonSolver.Proofs.Arithmetic.Valued
import NewtonSolver.Proofs.Operator.Quotient
import NewtonSolver.Proofs.Outcome

/-! Power iteration estimates the largest eigenvalue of a positive semidefinite matrix from below, and the
better the more steps it makes. Where a division by zero has no result, every estimate is a number, so
that none is made. -/
namespace NewtonSolver

open ExactScalar

variable {R : Type} [ExactScalar R] {m n : Nat}

/-- The entries are these numbers. -/
def Vec.Reads (u : Vec R n) (w : Vec ℝ n) : Prop := ∀ i, real? (u.get i) = some (w.get i)

/-- The product gives the numbers of `A w` for the numbers `w`. -/
def Product.Computes (apply : Product R n m) (A : Mat ℝ m n) : Prop :=
  ∀ u w, Vec.Reads u w → ∃ image, apply u = .ok image ∧ image.Reads (A.mulVec w)

namespace Vec.Reads

variable {u v : Vec R n} {w z : Vec ℝ n} {a : R} {x : ℝ}

theorem real?_foldl {xs : List R} {ys : List ℝ}
    (h : List.Forall₂ (fun b y => real? b = some y) xs ys) (ha : real? a = some x) :
    real? (xs.foldl (· + ·) a) = some (ys.foldl (· + ·) x) := by
  induction h generalizing a x with
  | nil => exact ha
  | cons hb _ ih => exact ih (real?_add_of ha hb)

theorem sum (hu : u.Reads w) : real? u.sum = some w.sum := by
  have hentries : List.Forall₂ (fun b y => real? b = some y) u.toList w.toList := by
    rw [List.forall₂_iff_get]
    refine ⟨by simp, ?_⟩
    intro i hi hi'
    have hi : i < n := by simpa using hi
    simpa [Vector.get_eq_getElem] using hu ⟨i, hi⟩
  rw [Vec.sum, Vec.sum, ← Vector.foldl_toList, ← Vector.foldl_toList]
  exact real?_foldl hentries real?_zero

theorem dot (hu : u.Reads w) (hv : v.Reads z) : real? (Vec.dot u v) = some (Vec.dot w z) := by
  refine Vec.Reads.sum ?_
  intro i
  rw [Vec.get_zipWith, Vec.get_zipWith]
  exact real?_mul_of (hu i) (hv i)

theorem norm (hu : u.Reads w) : real? u.norm = some w.norm :=
  real?_norm (hu.dot hu) (Exact.sumSquares_nonneg w)

theorem map_div (hu : u.Reads w) (ha : real? a = some x) (hx : x ≠ 0) :
    Reads (u.map (· / a)) (w.map (· / x)) := by
  intro i
  simpa [Vector.get_eq_getElem] using real?_div (hu i) ha hx

theorem add (hu : u.Reads w) (hv : v.Reads z) : Reads (u + v) (w + z) := by
  intro i
  rw [Vec.get_add, Vec.get_add]
  exact real?_add_of (hu i) (hv i)

theorem scale (ha : real? a = some x) (hu : u.Reads w) : Reads (a * u) (x * w) := by
  intro i
  rw [Vec.get_scale, Vec.get_scale]
  exact real?_mul_of ha (hu i)

end Vec.Reads

/-- A stored matrix gives the products of its numbers. -/
theorem Mat.computes {M : Mat R m n} {A : Mat ℝ m n}
    (hM : ∀ i j, real? (M.entry i j) = some (A.entry i j)) :
    Product.Computes (fun v => .ok (M.mulVec v)) A := by
  intro u w hu
  refine ⟨_, rfl, ?_⟩
  intro i
  have hrow : Vec.Reads (M.get i) (A.get i) := hM i
  simpa [Mat.mulVec, Vector.get_eq_getElem] using hrow.dot hu

namespace Operator

section Normal

/-- The matrix `Jᵀ J + damping`. -/
noncomputable def damped (J : Mat ℝ m n) (damping : ℝ) : Mat ℝ n n :=
  .ofFn fun i j => (J.transpose.mul J).entry i j + if i = j then damping else 0

variable {J : Mat ℝ m n} {d : ℝ}

theorem damped_mulVec (w : Vec ℝ n) :
    (damped J d).mulVec w = J.transpose.mulVec (J.mulVec w) + d * w := by
  refine Vec.ext_get ?_
  intro i
  rw [Vec.get_add, Vec.get_scale, ← Exact.mulVec_mul, Exact.mulVec_get, Exact.mulVec_get]
  simp [damped, add_mul, Finset.sum_add_distrib]

theorem damped_posSemidef (hd : 0 ≤ d) : (damped J d).toMatrix.PosSemidef := by
  have hsum : (damped J d).toMatrix = J.toMatrix.conjTranspose * J.toMatrix + d • 1 := by
    ext i j
    simp [damped, Exact.entry_mul, Matrix.mul_apply, Matrix.one_apply]
  rw [hsum]
  exact (Matrix.posSemidef_conjTranspose_mul_self _).add (Matrix.PosSemidef.one.smul hd)

/-- The product of the normal equations is that of their matrix. -/
theorem normal_computes {apply : Product R n m} {applyTranspose : Product R m n} {damping : R}
    (hJ : apply.Computes J) (ht : applyTranspose.Computes J.transpose)
    (hd : real? damping = some d) :
    Product.Computes (normal apply applyTranspose damping) (damped J d) := by
  intro u w hu
  obtain ⟨image, himage, hreads⟩ := hJ u w hu
  obtain ⟨back, hback, hreads⟩ := ht image _ hreads
  refine ⟨back + damping * u, ?_, ?_⟩
  · simp only [normal, himage, Outcome.ok_bind, hback]
    rfl
  · rw [damped_mulVec]
    exact hreads.add (hu.scale hd)

end Normal

variable {apply : Product R n n} {A : Mat ℝ n n} {u start : Vec R n} {w v : Vec ℝ n}

theorem powerStep_eq {image : Vec R n} (himage : apply u = .ok image) :
    powerStep apply u = .ok (if 0 < image.norm then image.map (· / image.norm) else u) := by
  simp only [powerStep, himage]
  rfl

/-- A step divides by the length of the image, unless the image vanishes. -/
theorem powerStep_divides (hA : apply.Computes A) (hu : u.Reads w) :
    ∃ image s, apply u = .ok image ∧ image.Reads (A.mulVec w) ∧ real? image.norm = some s ∧
      (A.mulVec w = 0 → s = 0 ∧ powerStep apply u = .ok u) ∧
        (A.mulVec w ≠ 0 → 0 < s ∧ powerStep apply u = .ok (image.map (· / image.norm))) := by
  obtain ⟨image, himage, hreads⟩ := hA u w hu
  have hsize : (0 : R) < image.norm ↔ A.mulVec w ≠ 0 :=
    (lt_iff real?_zero hreads.norm).trans Exact.norm_pos_iff
  refine ⟨image, _, himage, hreads, hreads.norm, ?_, ?_⟩
  · intro hvanishes
    refine ⟨by rw [hvanishes, Exact.norm_zero], ?_⟩
    rw [powerStep_eq himage, if_neg (hsize.not.mpr (not_not.mpr hvanishes))]
  · intro hne
    refine ⟨Exact.norm_pos_iff.mpr hne, ?_⟩
    rw [powerStep_eq himage, if_pos (hsize.mpr hne)]

theorem powerStep_reads (hA : apply.Computes A) (hu : u.Reads w) :
    ∃ u', powerStep apply u = .ok u' ∧ u'.Reads (A.advance w) := by
  obtain ⟨image, s, -, hreads, -, hkept, hdivided⟩ := powerStep_divides hA hu
  by_cases h : A.mulVec w = 0
  · refine ⟨u, (hkept h).2, ?_⟩
    rw [Mat.advance_of_zero h]
    exact hu
  · have hpos := Exact.norm_pos_iff.mpr h
    refine ⟨_, (hdivided h).2, ?_⟩
    rw [Mat.advance, if_pos hpos]
    exact hreads.map_div hreads.norm hpos.ne'

/-- The induction is on the steps, each of which gives the numbers of the exact one. -/
theorem powerSteps_reads (hA : apply.Computes A) (hu : u.Reads w) (k : Nat) :
    ∃ u', powerSteps apply k u = .ok u' ∧ u'.Reads (A.advance^[k] w) := by
  induction k generalizing u w with
  | zero => exact ⟨u, rfl, hu⟩
  | succ k ih =>
    obtain ⟨next, hnext, hreads⟩ := powerStep_reads hA hu
    obtain ⟨last, hlast, hreads⟩ := ih hreads
    refine ⟨last, ?_, hreads⟩
    rw [powerSteps, hnext]
    exact hlast

theorem estimateMaxEigenvalue_reads (hA : apply.Computes A)
    (hu : Vec.Reads (start.map (· / start.norm)) w) (k : Nat) :
    ∃ e, estimateMaxEigenvalue apply start k = .ok e ∧
      real? e = some (A.quotient (A.advance^[k] w)) := by
  obtain ⟨u, hsteps, hreads⟩ := powerSteps_reads hA hu k
  obtain ⟨image, himage, himageReads⟩ := hA u _ hreads
  refine ⟨Vec.dot u image, ?_, hreads.dot himageReads⟩
  simp only [estimateMaxEigenvalue, hsteps, Outcome.ok_bind, himage]
  rfl

/-- What power iteration gives for a matrix from a start vector of the numbers `v`, after any number of
steps. -/
structure EstimatesFromBelow (apply : Product R n n) (A : Mat ℝ n n) (start : Vec R n) (v : Vec ℝ n)
    (estimate : Nat → ℝ) : Prop where
  estimates : ∀ k, ∃ e, estimateMaxEigenvalue apply start k = .ok e ∧ real? e = some (estimate k)
  monotone : Monotone estimate
  nonneg : ∀ k, 0 ≤ estimate k
  bounded : ∀ bound, (∀ u : Vec ℝ n, A.quotient u ≤ bound * u.sumSquares) →
    ∀ k, estimate k ≤ bound
  largest : ∃ x, IsGreatest A.eigenvalues x ∧ ∀ k, estimate k ≤ x
  zero_iff : ∀ k, estimate k = 0 ↔ A.mulVec v = 0
  /-- The start vector is divided by a positive number. -/
  scaled : ∃ s, real? start.norm = some s ∧ 0 < s
  /-- Every step divides by a positive number, or none divides. -/
  divides : ∀ k, ∃ u image s, powerSteps apply k (start.map (· / start.norm)) = .ok u ∧
    apply u = .ok image ∧ real? image.norm = some s ∧
      (A.mulVec v = 0 → s = 0 ∧ powerStep apply u = .ok u) ∧
        (A.mulVec v ≠ 0 → 0 < s ∧ powerStep apply u = .ok (image.map (· / image.norm)))

theorem estimateMaxEigenvalue_fromBelow (hA : apply.Computes A) (hpsd : A.toMatrix.PosSemidef)
    (hstart : start.Reads v) (hv : v ≠ 0) :
    ∃ estimate, EstimatesFromBelow apply A start v estimate := by
  have hnorm : 0 < v.norm := Exact.norm_pos_iff.mpr hv
  have hunit : Vec.sumSquares (v.map (· / v.norm)) = 1 := Exact.sumSquares_unit hv
  have hscaled : Vec.Reads (start.map (· / start.norm)) (v.map (· / v.norm)) :=
    hstart.map_div hstart.norm hnorm.ne'
  have hzero (k : Nat) : A.mulVec (A.advance^[k] (v.map (· / v.norm))) = 0 ↔ A.mulVec v = 0 := by
    rw [Mat.mulVec_iterate_eq_zero_iff hpsd, Exact.map_div_eq, Exact.mulVec_scale,
      Exact.scale_eq_zero_iff (inv_ne_zero hnorm.ne')]
  refine ⟨fun k => A.quotient (A.advance^[k] (v.map (· / v.norm))), ?_⟩
  constructor
  case estimates => exact estimateMaxEigenvalue_reads hA hscaled
  case monotone => exact Mat.quotient_iterate_monotone hpsd hunit
  case nonneg => exact fun k => Mat.quotient_nonneg hpsd _
  case bounded => exact fun bound hbound k => Mat.quotient_le (Mat.sumSquares_iterate hunit k) hbound
  case largest =>
    have hn : 0 < n := by
      refine Nat.pos_of_ne_zero ?_
      rintro rfl
      exact hv (Vec.ext_get fun i => i.elim0)
    obtain ⟨x, hx, hbound⟩ := Mat.exists_isGreatest_eigenvalue hpsd hn
    exact ⟨x, hx, fun k => Mat.quotient_le (Mat.sumSquares_iterate hunit k) hbound⟩
  case zero_iff => exact fun k => (Mat.quotient_eq_zero_iff hpsd).trans (hzero k)
  case scaled => exact ⟨v.norm, hstart.norm, hnorm⟩
  case divides =>
    intro k
    obtain ⟨u, hu, hreads⟩ := powerSteps_reads hA hscaled k
    obtain ⟨image, s, himage, -, hs, hkept, hdivided⟩ := powerStep_divides hA hreads
    exact ⟨u, image, s, hu, himage, hs, fun h => hkept ((hzero k).mpr h),
      fun h => hdivided ((hzero k).not.mpr h)⟩

/-- One row of ones. -/
def ones (R : Type) [Scalar R] : Mat R 1 2 := .ofFn fun _ _ => 1

/-- The product of its normal equations, with damping. -/
noncomputable def onesNormal : Product PartialReal 2 2 :=
  normal (fun v => .ok ((ones PartialReal).mulVec v)) (fun u => .ok ((ones PartialReal).vecMul u)) 1

theorem onesNormal_computes : onesNormal.Computes (damped (ones ℝ) 1) := by
  have hones (i : Fin 1) (j : Fin 2) :
      real? ((ones PartialReal).entry i j) = some ((ones ℝ).entry i j) := by
    rw [ones, ones, Mat.entry_ofFn, Mat.entry_ofFn, real?_one]
  have htransposed (i : Fin 2) (j : Fin 1) :
      real? ((ones PartialReal).transpose.entry i j) = some ((ones ℝ).transpose.entry i j) := by
    rw [Mat.entry_transpose, Mat.entry_transpose, hones]
  exact normal_computes (Mat.computes hones) (Mat.computes htransposed) real?_one

theorem onesNormal_fromBelow : onesNormal.Computes (damped (ones ℝ) 1) ∧
    (damped (ones ℝ) 1).toMatrix.PosSemidef ∧
      Vec.Reads (#v[1, 0] : Vec PartialReal 2) #v[1, 0] ∧ (#v[1, 0] : Vec ℝ 2) ≠ 0 ∧
        ∃ estimate, EstimatesFromBelow onesNormal (damped (ones ℝ) 1) #v[1, 0] #v[1, 0] estimate := by
  have hpsd : (damped (ones ℝ) 1).toMatrix.PosSemidef := damped_posSemidef zero_le_one
  have hstart : Vec.Reads (#v[1, 0] : Vec PartialReal 2) #v[1, 0] := by
    intro i
    match i with
    | 0 => rfl
    | 1 => rfl
  have hne : (#v[1, 0] : Vec ℝ 2) ≠ 0 := by
    intro h
    exact one_ne_zero (congrArg (·.get 0) h)
  exact ⟨onesNormal_computes, hpsd, hstart, hne,
    estimateMaxEigenvalue_fromBelow onesNormal_computes hpsd hstart hne⟩

end Operator

end NewtonSolver
