import Mathlib
import NewtonSolver.Proofs.LeastSquares

/-! The quotient `wᵀ A w` of a positive semidefinite matrix, along the images of a vector of length one
that are scaled to length one again. It does not go down, and stays below the largest eigenvalue. -/
namespace NewtonSolver

open Matrix

variable {n : Nat}

namespace Mat

variable {A : Mat ℝ n n} {w : Vec ℝ n} {bound : ℝ}

noncomputable def quotient (A : Mat ℝ n n) (w : Vec ℝ n) : ℝ := Vec.dot w (A.mulVec w)

/-- The image scaled to length one; a vector whose image vanishes is kept. -/
noncomputable def advance (A : Mat ℝ n n) (w : Vec ℝ n) : Vec ℝ n :=
  if 0 < (A.mulVec w).norm then (A.mulVec w).map (· / (A.mulVec w).norm) else w

def eigenvalues (A : Mat ℝ n n) : Set ℝ := {x | ∃ w : Vec ℝ n, w ≠ 0 ∧ A.mulVec w = x * w}

theorem advance_of_zero (h : A.mulVec w = 0) : A.advance w = w :=
  if_neg (Exact.norm_pos_iff.not.mpr (not_not.mpr h))

theorem advance_of_ne_zero (h : A.mulVec w ≠ 0) :
    A.advance w = (A.mulVec w).norm⁻¹ * A.mulVec w := by
  rw [advance, if_pos (Exact.norm_pos_iff.mpr h), Exact.map_div_eq]

theorem quotient_scale (A : Mat ℝ n n) (a : ℝ) (w : Vec ℝ n) :
    A.quotient (a * w) = a ^ 2 * A.quotient w := by
  rw [quotient, Exact.mulVec_scale, Exact.dot_scale_right, Exact.dot_comm, Exact.dot_scale_right,
    Exact.dot_comm, quotient]
  ring

theorem quotient_advance (h : A.mulVec w ≠ 0) :
    A.quotient (A.advance w) = A.quotient (A.mulVec w) / (A.mulVec w).sumSquares := by
  rw [advance_of_ne_zero h, quotient_scale, inv_pow, Exact.norm_sq, inv_mul_eq_div]

theorem sumSquares_advance (hw : w.sumSquares = 1) : (A.advance w).sumSquares = 1 := by
  by_cases h : A.mulVec w = 0
  · rw [advance_of_zero h, hw]
  · rw [advance_of_ne_zero h, ← Exact.map_div_eq, Exact.sumSquares_unit h]

theorem sumSquares_iterate (hw : w.sumSquares = 1) (k : Nat) :
    (A.advance^[k] w).sumSquares = 1 := by
  induction k with
  | zero => exact hw
  | succ k ih =>
    rw [Function.iterate_succ_apply']
    exact sumSquares_advance ih

theorem quotient_le (hw : w.sumSquares = 1)
    (hbound : ∀ u : Vec ℝ n, A.quotient u ≤ bound * u.sumSquares) : A.quotient w ≤ bound := by
  simpa [hw] using hbound w

/-- A number above all eigenvalues is above all quotients. -/
theorem quotient_le_of_eigenvalues (hA : A.toMatrix.IsHermitian)
    (hbound : ∀ i, hA.eigenvalues i ≤ bound) (u : Vec ℝ n) :
    A.quotient u ≤ bound * u.sumSquares := by
  have hgap : (algebraMap ℝ (Matrix (Fin n) (Fin n) ℝ) bound - A.toMatrix).IsHermitian :=
    IsHermitian.sub (by simp [IsHermitian, Matrix.algebraMap_eq_diagonal]) hA
  have hpos : (algebraMap ℝ (Matrix (Fin n) (Fin n) ℝ) bound - A.toMatrix).PosSemidef := by
    rw [hgap.posSemidef_iff_eigenvalues_nonneg]
    intro j
    have hmem := hgap.eigenvalues_mem_spectrum_real j
    rw [← spectrum.singleton_sub_eq, hA.spectrum_real_eq_range_eigenvalues] at hmem
    obtain ⟨c, rfl, x, ⟨i, rfl⟩, hgapped⟩ := Set.mem_sub.mp hmem
    rw [Pi.zero_apply, ← hgapped]
    exact sub_nonneg.mpr (hbound i)
  have hform := hpos.dotProduct_mulVec_nonneg u.get
  rw [Matrix.sub_mulVec, dotProduct_sub, Algebra.algebraMap_eq_smul_one, smul_mulVec, one_mulVec,
    dotProduct_smul, star_trivial, ← Exact.get_mulVec, ← Exact.dot_eq, ← Exact.dot_eq] at hform
  exact sub_nonneg.mp hform

theorem eigenvalues_mem (hA : A.toMatrix.IsHermitian) (i : Fin n) :
    hA.eigenvalues i ∈ A.eigenvalues := by
  have hget : (Vector.ofFn (hA.eigenvectorBasis i) : Vec ℝ n).get = hA.eigenvectorBasis i := by
    funext j
    simp [Vector.get_eq_getElem]
  refine ⟨Vector.ofFn (hA.eigenvectorBasis i), ?_, ?_⟩
  · intro hzero
    refine hA.eigenvectorBasis.orthonormal.ne_zero i ?_
    ext j
    rw [← hget, hzero]
    simp
  · refine Vec.ext_get ?_
    intro j
    rw [Exact.get_mulVec, Vec.get_scale, hget, hA.mulVec_eigenvectorBasis]
    rfl

section Semidefinite

variable (hA : A.toMatrix.PosSemidef)

include hA

theorem dot_mulVec_comm (u w : Vec ℝ n) : Vec.dot u (A.mulVec w) = Vec.dot (A.mulVec u) w := by
  have hsymm : A.toMatrixᵀ = A.toMatrix := by simpa using hA.isHermitian.eq
  rw [Exact.dot_mulVec, Exact.dot_eq, Exact.dot_eq, Exact.get_vecMul, hsymm, Exact.get_mulVec]

theorem quotient_nonneg (w : Vec ℝ n) : 0 ≤ A.quotient w := by
  rw [quotient, Exact.dot_eq, Exact.get_mulVec]
  simpa using hA.dotProduct_mulVec_nonneg w.get

/-- The inequality of Cauchy and Schwarz for the form of the matrix. -/
theorem dot_mulVec_sq_le (u w : Vec ℝ n) :
    Vec.dot u (A.mulVec w) ^ 2 ≤ A.quotient u * A.quotient w := by
  have hform (x y : Vec ℝ n) : toBilin' A.toMatrix x.get y.get = Vec.dot x (A.mulVec y) := by
    rw [toBilin'_apply', Exact.dot_eq, Exact.get_mulVec]
  have hpos (x : Fin n → ℝ) : 0 ≤ toBilin' A.toMatrix x x := by
    rw [toBilin'_apply']
    simpa using hA.dotProduct_mulVec_nonneg x
  have hcauchy := LinearMap.BilinForm.apply_mul_apply_le_of_forall_zero_le _ hpos u.get w.get
  rw [hform, hform, hform, hform, dot_mulVec_comm hA w u, Exact.dot_comm (A.mulVec w)] at hcauchy
  rw [pow_two]
  exact hcauchy

theorem quotient_eq_zero_iff : A.quotient w = 0 ↔ A.mulVec w = 0 := by
  constructor
  · intro h
    have hsq := dot_mulVec_sq_le hA (A.mulVec w) w
    rw [h, mul_zero] at hsq
    have hzero : (A.mulVec w).sumSquares = 0 := pow_eq_zero_iff two_ne_zero |>.mp
      (le_antisymm hsq (sq_nonneg _))
    exact Exact.sumSquares_eq_zero.mp hzero
  · intro h
    rw [quotient, h]
    simp [Exact.dot_eq_sum]

theorem sumSquares_mulVec_sq_le (w : Vec ℝ n) :
    (A.mulVec w).sumSquares ^ 2 ≤ A.quotient w * A.quotient (A.mulVec w) := by
  have hsq := dot_mulVec_sq_le hA w (A.mulVec w)
  rw [dot_mulVec_comm hA w] at hsq
  exact hsq

/-- The image of the image vanishes only with the image. -/
theorem mulVec_advance_eq_zero_iff : A.mulVec (A.advance w) = 0 ↔ A.mulVec w = 0 := by
  by_cases h : A.mulVec w = 0
  · rw [advance_of_zero h]
  · refine iff_of_false ?_ h
    have hsize := Exact.sumSquares_eq_zero.not.mpr h
    rw [← quotient_eq_zero_iff hA, quotient_advance h, div_eq_zero_iff, or_iff_left hsize]
    intro hzero
    have hsq := sumSquares_mulVec_sq_le hA w
    rw [hzero, mul_zero] at hsq
    exact hsize (pow_eq_zero_iff two_ne_zero |>.mp (le_antisymm hsq (sq_nonneg _)))

/-- The image vanishes at all steps or at none. -/
theorem mulVec_iterate_eq_zero_iff (k : Nat) :
    A.mulVec (A.advance^[k] w) = 0 ↔ A.mulVec w = 0 := by
  induction k with
  | zero => rfl
  | succ k ih => rw [Function.iterate_succ_apply', mulVec_advance_eq_zero_iff hA, ih]

/-- For the moments `aₖ = wᵀ Aᵏ w`, of which `a₀` is one, the products `a₁²` and `a₂²` are at most `a₂` and
`a₁ a₃`, so that `a₁` is at most `a₃ / a₂`. -/
theorem quotient_le_advance (hw : w.sumSquares = 1) : A.quotient w ≤ A.quotient (A.advance w) := by
  by_cases h : A.mulVec w = 0
  · rw [advance_of_zero h]
  · have hpos : 0 < A.quotient w :=
      lt_of_le_of_ne (quotient_nonneg hA w) (Ne.symm ((quotient_eq_zero_iff hA).not.mpr h))
    have hsize : 0 < (A.mulVec w).sumSquares :=
      lt_of_le_of_ne (Exact.sumSquares_nonneg _) (Ne.symm (Exact.sumSquares_eq_zero.not.mpr h))
    have hfirst : A.quotient w ^ 2 ≤ (A.mulVec w).sumSquares := by
      simpa [hw, quotient] using Exact.dot_sq_le w (A.mulVec w)
    have hsecond := sumSquares_mulVec_sq_le hA w
    rw [quotient_advance h, le_div_iff₀ hsize]
    refine le_of_mul_le_mul_left ?_ hpos
    calc
      A.quotient w * (A.quotient w * (A.mulVec w).sumSquares)
        = A.quotient w ^ 2 * (A.mulVec w).sumSquares := by ring
      _ ≤ (A.mulVec w).sumSquares * (A.mulVec w).sumSquares :=
        mul_le_mul_of_nonneg_right hfirst hsize.le
      _ = (A.mulVec w).sumSquares ^ 2 := by ring
      _ ≤ A.quotient w * A.quotient (A.mulVec w) := hsecond

theorem quotient_iterate_monotone (hw : w.sumSquares = 1) :
    Monotone fun k => A.quotient (A.advance^[k] w) := by
  refine monotone_nat_of_le_succ ?_
  intro k
  rw [Function.iterate_succ_apply']
  exact quotient_le_advance hA (sumSquares_iterate hw k)

/-- There is a largest eigenvalue, and it bounds the quotients of all vectors. -/
theorem exists_isGreatest_eigenvalue (hn : 0 < n) :
    ∃ largest, IsGreatest A.eigenvalues largest ∧
      ∀ u : Vec ℝ n, A.quotient u ≤ largest * u.sumSquares := by
  have hne : Nonempty (Fin n) := ⟨⟨0, hn⟩⟩
  have hh := hA.isHermitian
  obtain ⟨i, hi⟩ := Finite.exists_max hh.eigenvalues
  have hbound := quotient_le_of_eigenvalues hh hi
  refine ⟨hh.eigenvalues i, ⟨eigenvalues_mem hh i, ?_⟩, hbound⟩
  rintro x ⟨u, hu, hx⟩
  have hle := hbound u
  have hpos : 0 < u.sumSquares := lt_of_le_of_ne (Exact.sumSquares_nonneg u)
    (Ne.symm (Exact.sumSquares_eq_zero.not.mpr hu))
  rw [quotient, hx, Exact.dot_scale_right] at hle
  exact le_of_mul_le_mul_right hle hpos

end Semidefinite

end Mat

end NewtonSolver
