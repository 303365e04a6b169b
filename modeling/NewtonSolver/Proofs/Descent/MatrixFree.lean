import Mathlib
import NewtonSolver.Descent.Direction
import NewtonSolver.Proofs.LeastSquares
import NewtonSolver.Proofs.Outcome

/-! Iterations know a system by its products only. Without preconditioners the step does not depend on
whether the Jacobian is a matrix, is its products, or is made a matrix again from these. -/
namespace NewtonSolver

variable {m n : Nat}

/-- The products with a matrix and with its transpose. -/
def JacobianOperator.ofMat {R : Type} [Scalar R] (A : Mat R m n) (traceable : Bool) :
    JacobianOperator R m n where
  apply v := .ok (A.mulVec v)
  applyTranspose u := .ok (A.vecMul u)
  traceable := traceable

namespace Exact

theorem ofColumns_mulVec_unit (A : Mat ℝ m n) :
    Mat.ofColumns ((Vector.ofFn Vec.unit).map A.mulVec) = A := by
  refine Mat.ext_entry ?_
  intro i j
  simp [mulVec_unit, Mat.column]

theorem columns_ofMat (A : Mat ℝ m n) (traceable : Bool) :
    (JacobianOperator.ofMat A traceable).columns = .ok A := by
  have hmap : (Vector.ofFn Vec.unit).mapM (JacobianOperator.ofMat A traceable).apply =
      .ok ((Vector.ofFn Vec.unit).map A.mulVec) := Vector.mapM_pure A.mulVec
  rw [JacobianOperator.columns, hmap]
  exact congrArg Except.ok (ofColumns_mulVec_unit A)

/-- The composed products are those of the matrix of the normal equations. -/
theorem normal_ofMat (A : Mat ℝ m n) (traceable : Bool) :
    Operator.normal (JacobianOperator.ofMat A traceable).apply
        (JacobianOperator.ofMat A traceable).applyTranspose 0 =
      fun v => .ok ((A.transpose.mul A).mulVec v) := by
  funext v
  have hsum : A.vecMul (A.mulVec v) + (0 : ℝ) * v = (A.transpose.mul A).mulVec v := by
    refine Vec.ext_get ?_
    intro i
    simp [Mat.gram_mulVec]
  exact congrArg Except.ok hsum

end Exact

namespace Descent

section Products

variable {R : Type} [Scalar R] {K : Kernels R} {method : KrylovMethod R} {fields : KrylovFields R}
  {cache : LinearCache R}

/-- An iteration gives the same answer for systems with the same products. -/
theorem solveWith_krylov_congr {s t : HeldSystem R n} (h : s.system.apply = t.system.apply)
    (b : Vec R n) :
    solveWith K none (.krylov method fields) s b cache =
      solveWith K none (.krylov method fields) t b cache := by
  simp only [solveWith, PreconditionerSpec.build?, solveLinear, Iterative.solve, h]

theorem leastSquares_krylov (spec : Option (PreconditionerSpec R)) (J : JacobianInfo R m n)
    (b : Vec R m) : leastSquares K spec (.krylov method fields) J b cache =
      normalEquations K spec (.krylov method fields) J b cache := by
  cases J <;> rfl

end Products

variable {K : Kernels ℝ} {c : Configuration ℝ} {method : KrylovMethod ℝ} {fields : KrylovFields ℝ}
  {cache : LinearCache ℝ}

theorem root_ofMat (A : Mat ℝ n n) (traceable : Bool) (b : Vec ℝ n) :
    root K none (.krylov method fields) (.operator (.ofMat A traceable)) b cache =
      root K none (.krylov method fields) (.matrix A) b cache :=
  solveWith_krylov_congr rfl b

theorem normalEquations_ofMat (A : Mat ℝ m n) (traceable : Bool) (b : Vec ℝ m) :
    normalEquations K none (.krylov method fields) (.operator (.ofMat A traceable)) b cache =
      normalEquations K none (.krylov method fields) (.matrix A) b cache :=
  solveWith_krylov_congr (s := .operator (Operator.normal _ _ 0))
    (t := .matrix ⟨A.transpose.mul A, none⟩) (Exact.normal_ofMat A traceable) (A.vecMul b)

theorem solveModel_ofMat (hpre : c.preconditioner = none) (A : Mat ℝ m n) (traceable : Bool)
    (b : Vec ℝ m) :
    solveModel K c (.krylov method fields) (.operator (.ofMat A traceable)) b cache =
      solveModel K c (.krylov method fields) (.matrix A) b cache := by
  unfold solveModel
  rw [hpre]
  split
  · next hmn =>
    subst hmn
    split
    · exact root_ofMat A traceable b
    · simp only [leastSquares_krylov, normalEquations_ofMat]
  · simp only [leastSquares_krylov, normalEquations_ofMat]

/-- Direction, failure and counts are those of the matrix, whether the products are called as the
iteration goes or a matrix is made of them first. -/
theorem compute_krylov_ofMat (hpre : c.preconditioner = none) (A : Mat ℝ m n) (traceable : Bool)
    (residual : Vec ℝ m) :
    compute K c (.krylov method fields) (.operator (.ofMat A traceable)) residual cache =
      compute K c (.krylov method fields) (.matrix A) residual cache := by
  cases traceable with
  | true =>
    have hsettle : settle (.operator (.ofMat A true)) = .ok (.operator (.ofMat A true)) := rfl
    have hmatrix : settle (.matrix A) = .ok (.matrix A) := rfl
    simp only [compute, hsettle, hmatrix, solveModel_ofMat hpre]
  | false =>
    have hsettle : settle (.operator (.ofMat A false)) = settle (.matrix A) := by
      simp only [settle, Exact.columns_ofMat]
      rfl
    simp only [compute, hsettle]

/-- Least squares from products alone. -/
noncomputable def byConjugateGradients : Configuration ℝ where
  needsMatrix := some false
  kind := .gaussNewton
  linearSolver := none
  preconditioner := none
  lineSearch := .fullStep (.text "none")
  jacobianBackend := none
  transposedBackend := none
  policy := .fail

/-- Three equations with two unknowns. -/
theorem compute_krylov_ofMat_tall :
    byConjugateGradients.preconditioner = none ∧
      compute .standard byConjugateGradients (.krylov .cg ⟨.real (Scalar.decimal 1 10), .real 0, .none⟩)
          (.operator (.ofMat #v[#v[1, 2], #v[0, 1], #v[3, 0]] false)) #v[1, 2, 3] .empty =
        compute .standard byConjugateGradients (.krylov .cg ⟨.real (Scalar.decimal 1 10), .real 0, .none⟩)
          (.matrix #v[#v[1, 2], #v[0, 1], #v[3, 0]]) #v[1, 2, 3] .empty :=
  ⟨rfl, compute_krylov_ofMat rfl _ false _⟩

end Descent

end NewtonSolver
