import Mathlib
import NewtonSolver.Proofs.Arithmetic.Length
import NewtonSolver.Proofs.Arithmetic.Matrix

/-! Least squares points. They are what the normal equations give, and with independent columns there is
one only. The shortest one is a product with the transposed matrix. -/
namespace NewtonSolver

variable {m n : Nat}

namespace Mat

variable {A : Mat ℝ m n} {b : Vec ℝ m} {x y : Vec ℝ n}

/-- No other point comes closer to the right side. -/
def IsLeastSquares (A : Mat ℝ m n) (b : Vec ℝ m) (x : Vec ℝ n) : Prop :=
  ∀ y, (A.mulVec x - b).norm ≤ (A.mulVec y - b).norm

/-- The normal equations: products with the transposed matrix agree. -/
def SolvesNormal (A : Mat ℝ m n) (b : Vec ℝ m) (x : Vec ℝ n) : Prop :=
  A.vecMul (A.mulVec x) = A.vecMul b

theorem solvesNormal_iff : A.SolvesNormal b x ↔ A.vecMul (A.mulVec x - b) = 0 := by
  rw [SolvesNormal, ← Exact.sub_eq_zero]
  exact Eq.congr_left (Exact.mulVec_sub A.transpose _ _).symm

theorem eq_zero_of_mulVec_sumSquares (hA : Function.Injective A.mulVec)
    (h : (A.mulVec x).sumSquares = 0) : x = 0 := by
  have h0 : A.mulVec x = A.mulVec 0 := by rw [Exact.sumSquares_eq_zero.mp h, Exact.mulVec_zero]
  exact hA h0

namespace SolvesNormal

/-- What the point leaves over is orthogonal to all products. -/
theorem dot_eq_zero (hx : A.SolvesNormal b x) (z : Vec ℝ n) :
    Vec.dot (A.mulVec x - b) (A.mulVec z) = 0 := by
  rw [Exact.dot_mulVec, solvesNormal_iff.mp hx]
  simp [Exact.dot_eq_sum]

/-- The squares of what another point leaves over. -/
theorem sumSquares_eq (hx : A.SolvesNormal b x) (y : Vec ℝ n) :
    (A.mulVec y - b).sumSquares = (A.mulVec x - b).sumSquares + (A.mulVec (y - x)).sumSquares := by
  have hsplit : A.mulVec y - b = (A.mulVec x - b) + A.mulVec (y - x) := by
    refine Vec.ext_get ?_
    intro i
    simp [Exact.mulVec_sub]
  rw [hsplit, Exact.sumSquares_add, hx.dot_eq_zero]
  ring

theorem isLeastSquares (hx : A.SolvesNormal b x) : A.IsLeastSquares b x := by
  intro y
  refine Exact.norm_le_norm ?_
  rw [hx.sumSquares_eq y]
  linarith [Exact.sumSquares_nonneg (A.mulVec (y - x))]

/-- All least squares points have one product. -/
theorem mulVec_eq_of_isLeastSquares (hx : A.SolvesNormal b x) (hy : A.IsLeastSquares b y) :
    A.mulVec y = A.mulVec x := by
  have hle := Exact.sumSquares_le_of_norm_le (hy x)
  rw [hx.sumSquares_eq y] at hle
  have h0 : (A.mulVec (y - x)).sumSquares = 0 := by
    linarith [Exact.sumSquares_nonneg (A.mulVec (y - x))]
  rw [Exact.sumSquares_eq_zero, Exact.mulVec_sub] at h0
  exact Exact.sub_eq_zero.mp h0

theorem unique (hx : A.SolvesNormal b x) (hA : Function.Injective A.mulVec)
    (hy : A.IsLeastSquares b y) : y = x :=
  hA (hx.mulVec_eq_of_isLeastSquares hy)

/-- Right sides that are reached at all are reached at the point. -/
theorem mulVec_eq (hx : A.SolvesNormal b x) (hy : A.mulVec y = b) : A.mulVec x = b := by
  have hs := hx.sumSquares_eq y
  rw [Exact.sub_eq_zero.mpr hy, Exact.sumSquares_eq_zero.mpr rfl] at hs
  have h0 : (A.mulVec x - b).sumSquares = 0 := by
    linarith [Exact.sumSquares_nonneg (A.mulVec x - b), Exact.sumSquares_nonneg (A.mulVec (y - x))]
  exact Exact.sub_eq_zero.mp (Exact.sumSquares_eq_zero.mp h0)

theorem vecMul_direction (hx : A.SolvesNormal (-b) x) : A.vecMul (A.mulVec x) = -A.vecMul b :=
  hx.trans (Exact.mulVec_neg A.transpose b)

/-- The slope of the merit function along a step for the residual `b`, by the length of its product. -/
theorem dot_residual (hx : A.SolvesNormal (-b) x) :
    Vec.dot b (A.mulVec x) = -(A.mulVec x).sumSquares := by
  rw [Vec.sumSquares, Exact.dot_mulVec, Exact.dot_mulVec, hx.vecMul_direction, Exact.dot_neg_left,
    neg_neg]

end SolvesNormal

/-- A combination of the rows. -/
def InRowSpace (A : Mat ℝ m n) (x : Vec ℝ n) : Prop := ∃ w, x = A.vecMul w

/-- The shortest of the least squares points, which no other one of them is as short as. -/
structure IsShortestLeastSquares (A : Mat ℝ m n) (b : Vec ℝ m) (x : Vec ℝ n) : Prop where
  least : A.IsLeastSquares b x
  shortest : ∀ y, A.IsLeastSquares b y → x.norm ≤ y.norm
  unique : ∀ y, A.IsLeastSquares b y → y.norm ≤ x.norm → y = x

namespace InRowSpace

variable (hx : A.InRowSpace x)

include hx

theorem dot_eq_zero {z : Vec ℝ n} (hz : A.mulVec z = 0) : Vec.dot x z = 0 := by
  obtain ⟨w, rfl⟩ := hx
  rw [← Exact.dot_mulVec, hz]
  simp [Exact.dot_eq_sum]

theorem eq_zero (h0 : A.mulVec x = 0) : x = 0 := Exact.sumSquares_eq_zero.mp (hx.dot_eq_zero h0)

/-- What is added to such a point without a change of its product is orthogonal to it. -/
theorem sumSquares_eq (hy : A.mulVec y = A.mulVec x) :
    y.sumSquares = x.sumSquares + (y - x).sumSquares := by
  have hkernel : A.mulVec (y - x) = 0 := by rw [Exact.mulVec_sub, hy, Exact.sub_eq_zero]
  have hsplit : y = x + (y - x) := by
    refine Vec.ext_get ?_
    intro i
    simp
  calc
    y.sumSquares = (x + (y - x)).sumSquares := congrArg Vec.sumSquares hsplit
    _ = x.sumSquares + (y - x).sumSquares := by
      rw [Exact.sumSquares_add, hx.dot_eq_zero hkernel]
      ring

theorem norm_le (hy : A.mulVec y = A.mulVec x) : x.norm ≤ y.norm := by
  refine Exact.norm_le_norm ?_
  rw [hx.sumSquares_eq hy]
  linarith [Exact.sumSquares_nonneg (y - x)]

theorem eq_of_norm_le (hy : A.mulVec y = A.mulVec x) (hle : y.norm ≤ x.norm) : y = x := by
  have hsquares := Exact.sumSquares_le_of_norm_le hle
  rw [hx.sumSquares_eq hy] at hsquares
  have h0 : (y - x).sumSquares = 0 := by linarith [Exact.sumSquares_nonneg (y - x)]
  exact Exact.sub_eq_zero.mp (Exact.sumSquares_eq_zero.mp h0)

end InRowSpace

theorem SolvesNormal.isShortest (hx : A.SolvesNormal b x) (hrow : A.InRowSpace x) :
    A.IsShortestLeastSquares b x where
  least := hx.isLeastSquares
  shortest _ hy := hrow.norm_le (hx.mulVec_eq_of_isLeastSquares hy)
  unique _ hy hle := hrow.eq_of_norm_le (hx.mulVec_eq_of_isLeastSquares hy) hle

section Injective

variable (hA : Function.Injective A.mulVec)

include hA

theorem toMatrix_mulVec_injective : Function.Injective A.toMatrix.mulVec := by
  intro f g hfg
  have hmul : A.mulVec (Vector.ofFn f) = A.mulVec (Vector.ofFn g) := by
    refine Vec.ext_get (congrFun ?_)
    have hf (h : Fin n → ℝ) : (Vector.ofFn h).get = h := funext (Vector.get_ofFn h)
    rw [Exact.get_mulVec, Exact.get_mulVec, hf, hf, hfg]
  funext j
  simpa using congrArg (fun v : Vec ℝ n => v.get j) (hA hmul)

theorem cols_le_rows_of_injective : n ≤ m := by
  simpa using LinearMap.finrank_le_finrank_of_injective
    (f := A.toMatrix.mulVecLin) (toMatrix_mulVec_injective hA)

end Injective

/-- The matrix of the normal equations. -/
theorem gram_mulVec (A : Mat ℝ m n) (x : Vec ℝ n) :
    (A.transpose.mul A).mulVec x = A.vecMul (A.mulVec x) :=
  Exact.mulVec_mul A.transpose A x

theorem gram_injective (hA : Function.Injective A.mulVec) :
    Function.Injective (A.transpose.mul A).mulVec := by
  intro x y hxy
  have hx : A.SolvesNormal (A.mulVec y) x := by
    rw [SolvesNormal, ← gram_mulVec, ← gram_mulVec, hxy]
  exact hA (hx.mulVec_eq rfl)

theorem gram_posDef (hA : Function.Injective A.mulVec) : (A.transpose.mul A).toMatrix.PosDef := by
  rw [Exact.toMatrix_mul, Exact.toMatrix_transpose, ← Matrix.conjTranspose_eq_transpose_of_trivial]
  exact Matrix.PosDef.conjTranspose_mul_self _ (toMatrix_mulVec_injective hA)

theorem mulVec_surjective {A : Mat ℝ n n} (hA : Function.Injective A.mulVec) (b : Vec ℝ n) :
    ∃ x, A.mulVec x = b := by
  have hunit := Matrix.mulVec_injective_iff_isUnit.mp (toMatrix_mulVec_injective hA)
  obtain ⟨f, hf⟩ := Matrix.mulVec_surjective_iff_isUnit.mpr hunit b.get
  refine ⟨Vector.ofFn f, Vec.ext_get (congrFun ?_)⟩
  rw [Exact.get_mulVec, ← hf]
  congr 1
  exact funext (Vector.get_ofFn f)

/-- With independent columns, the normal equations can be solved. -/
theorem exists_solvesNormal (hA : Function.Injective A.mulVec) (b : Vec ℝ m) :
    ∃ x, A.SolvesNormal b x := by
  obtain ⟨x, hx⟩ := mulVec_surjective (gram_injective hA) (A.vecMul b)
  exact ⟨x, (gram_mulVec A x).symm.trans hx⟩

/-- With independent columns, a least squares point of the normal equations solves them. -/
theorem SolvesNormal.of_gram (hA : Function.Injective A.mulVec)
    (hx : (A.transpose.mul A).SolvesNormal (A.vecMul b) x) : A.SolvesNormal b x := by
  obtain ⟨y, hy⟩ := exists_solvesNormal hA b
  rw [SolvesNormal, ← gram_mulVec]
  exact hx.mulVec_eq ((gram_mulVec A y).trans hy)

end Mat

end NewtonSolver
