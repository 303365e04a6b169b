import Mathlib
import NewtonSolver.LinearSolver.Solve
import NewtonSolver.Proofs.Factor.Threshold
import NewtonSolver.Proofs.Factor.Triangular
import NewtonSolver.Proofs.LeastSquares

/-! Factors that are exact and pass the singularity test give exact solutions. -/
namespace NewtonSolver

variable {m n : Nat}

/-- The rows that were exchanged are those of the product of a unit lower and an upper factor. -/
structure LU.IsExact (f : LU ℝ n) (A : Mat ℝ n n) : Prop where
  permutes : Function.Injective f.rows.get
  lower : f.lower.IsLower
  unit : ∀ i, f.lower.entry i i = 1
  upper : f.upper.IsUpper
  product : ∀ i j, (f.lower.mul f.upper).entry i j = A.entry (f.rows.get i) j

/-- The upper factor of a symmetric matrix. -/
structure Cholesky.IsExact (U A : Mat ℝ n n) : Prop where
  upper : U.IsUpper
  product : U.transpose.mul U = A

/-- Orthonormal columns and an upper factor. -/
structure QR.IsExact (f : QR ℝ m n) (A : Mat ℝ m n) : Prop where
  orthonormal : f.q.transpose.mul f.q = Mat.identity
  upper : f.r.IsUpper
  product : f.q.mul f.r = A

/-- The conditions that single out the pseudo-inverse `X`. -/
structure PseudoInverse.IsExact (X : Mat ℝ n m) (A : Mat ℝ m n) : Prop where
  inner : (A.mul X).mul A = A
  outer : (X.mul A).mul X = X
  imageSymmetric : (A.mul X).transpose = A.mul X
  preimageSymmetric : (X.mul A).transpose = X.mul A

namespace Mat

variable {k : Nat}

theorem identity_mulVec (v : Vec ℝ n) : (identity : Mat ℝ n n).mulVec v = v := by
  refine Vec.ext_get ?_
  intro i
  simp [Exact.mulVec_get, identity]

theorem vecMul_mul (A : Mat ℝ m k) (B : Mat ℝ k n) (u : Vec ℝ m) :
    (A.mul B).vecMul u = B.vecMul (A.vecMul u) := by
  refine Vec.ext_get (congrFun ?_)
  rw [Exact.get_vecMul, Exact.toMatrix_mul, Matrix.transpose_mul, Exact.get_vecMul,
    Exact.get_vecMul, Matrix.mulVec_mulVec]

end Mat

theorem LU.IsExact.mulVec_solve {f : LU ℝ n} {A : Mat ℝ n n} (h : f.IsExact A)
    (hd : ∀ i, f.upper.entry i i ≠ 0) (b : Vec ℝ n) : A.mulVec (f.solve b) = b := by
  have hunit : ∀ i, f.lower.entry i i ≠ 0 := fun i => by simp [h.unit i]
  have hrows : (f.lower.mul f.upper).mulVec (f.solve b) = f.rows.map b.get := by
    rw [Exact.mulVec_mul, solve, Mat.mulVec_solveUpper h.upper hd,
      Mat.mulVec_solveLower h.lower hunit]
  refine Vec.ext_get ?_
  intro r
  obtain ⟨i, rfl⟩ := Finite.surjective_of_injective h.permutes r
  have hi : ((f.lower.mul f.upper).mulVec (f.solve b)).get i = b.get (f.rows.get i) := by
    rw [hrows, Vector.get_map]
  rw [← hi, Exact.mulVec_get, Exact.mulVec_get]
  simp only [h.product]

theorem Cholesky.IsExact.mulVec_solve {U A : Mat ℝ n n} (h : IsExact U A)
    (hd : ∀ i, U.entry i i ≠ 0) (b : Vec ℝ n) : A.mulVec (solve U b) = b := by
  have hd' : ∀ i, U.transpose.entry i i ≠ 0 := fun i => by simpa using hd i
  rw [← h.product, Exact.mulVec_mul, solve, Mat.mulVec_solveUpper h.upper hd,
    Mat.mulVec_solveLower h.upper.transpose hd']

theorem QR.IsExact.vecMul_mulVec {f : QR ℝ m n} {A : Mat ℝ m n} (h : f.IsExact A) (y : Vec ℝ n) :
    f.q.vecMul (f.q.mulVec y) = y := by
  rw [Mat.vecMul, ← Exact.mulVec_mul, h.orthonormal, Mat.identity_mulVec]

theorem QR.IsExact.solvesNormal {f : QR ℝ m n} {A : Mat ℝ m n} (h : f.IsExact A)
    (hd : ∀ i, f.r.entry i i ≠ 0) (b : Vec ℝ m) :
    A.SolvesNormal b (f.r.solveUpper (f.q.vecMul b)) := by
  rw [Mat.SolvesNormal, ← h.product, Exact.mulVec_mul, Mat.vecMul_mul, Mat.vecMul_mul,
    Mat.mulVec_solveUpper h.upper hd, h.vecMul_mulVec]

theorem PseudoInverse.IsExact.solvesNormal {X : Mat ℝ n m} {A : Mat ℝ m n} (h : IsExact X A)
    (b : Vec ℝ m) : A.SolvesNormal b (X.mulVec b) := by
  have himage : A.mulVec (X.mulVec b) = (A.mul X).vecMul b := by
    rw [Mat.vecMul, h.imageSymmetric, Exact.mulVec_mul]
  rw [Mat.SolvesNormal, himage, ← Mat.vecMul_mul, h.inner]

/-- The factorization of the matrix is exact and passes the singularity test. -/
inductive Kernels.FactorsExactly (K : Kernels ℝ) :
    {m n : Nat} → Factorization → Mat ℝ m n → Prop
  | lu {n : Nat} {A : Mat ℝ n n} (h : (K.lu n A).IsExact A)
    (ht : Direct.isSingularDiagonal (K.lu n A).upper.diagonal n = false) : FactorsExactly K .lu A
  | cholesky {n : Nat} {A U : Mat ℝ n n} (hU : K.cholesky n A = some U) (h : Cholesky.IsExact U A)
    (ht : Direct.isSingularDiagonal U.diagonal n = false) : FactorsExactly K .cholesky A
  | qr {m n : Nat} {A : Mat ℝ m n} (h : (K.qr m n A).IsExact A)
    (ht : Direct.isSingularDiagonal (K.qr m n A).r.diagonal (max m n) = false) :
    FactorsExactly K .qr A
  | svd {m n : Nat} {A : Mat ℝ m n} (h : PseudoInverse.IsExact (K.pseudoInverse m n A) A) :
    FactorsExactly K .svd A

namespace Kernels.FactorsExactly

variable {K : Kernels ℝ} {f : Factorization}

theorem diagonal_ne_zero {A : Mat ℝ n n} {size : Nat}
    (h : Direct.isSingularDiagonal A.diagonal size = false) (i : Fin n) : A.entry i i ≠ 0 := by
  simpa [Mat.diagonal] using Exact.ne_zero_of_not_singular h i

theorem qr_ok {A : Mat ℝ m n} (h : (K.qr m n A).IsExact A)
    (ht : Direct.isSingularDiagonal (K.qr m n A).r.diagonal (max m n) = false) :
    ∃ solve, Direct.qr K A = .ok solve ∧ ∀ b, A.SolvesNormal b (solve b) := by
  refine ⟨fun b => (K.qr m n A).r.solveUpper ((K.qr m n A).q.vecMul b), ?_, ?_⟩
  · simp only [Direct.qr, ht]
    rfl
  · exact h.solvesNormal (diagonal_ne_zero ht)

/-- A square system is prepared for solutions of its normal equations. -/
theorem square_ok {A : Mat ℝ n n} (h : K.FactorsExactly f A) :
    ∃ solve, Direct.square K f A = .ok solve ∧ ∀ b, A.SolvesNormal b (solve b) := by
  cases h with
  | lu h ht =>
    refine ⟨(K.lu n A).solve, by simp [Direct.square, Direct.lu, ht], ?_⟩
    intro b
    exact congrArg A.vecMul (h.mulVec_solve (diagonal_ne_zero ht) b)
  | @cholesky _ U hU h ht =>
    refine ⟨Cholesky.solve U, by simp [Direct.square, Direct.cholesky, hU, ht], ?_⟩
    intro b
    exact congrArg A.vecMul (h.mulVec_solve (diagonal_ne_zero ht) b)
  | qr h ht => exact qr_ok h ht
  | svd h => exact ⟨_, rfl, h.solvesNormal⟩

/-- Least squares are prepared for by the factorizations that go without the normal equations. -/
theorem leastSquares_ok {A : Mat ℝ m n} (h : K.FactorsExactly f A) (hf : f = .qr ∨ f = .svd)
    (hmn : n ≤ m) :
    ∃ usage factorize solve, Direct.leastSquares? K m n f = some (usage, factorize) ∧
      factorize A = .ok solve ∧ ∀ b, A.SolvesNormal b (solve b) := by
  cases h with
  | lu h ht => simp at hf
  | cholesky hU h ht => simp at hf
  | qr h ht =>
    obtain ⟨solve, hsolve, hnormal⟩ := qr_ok h ht
    exact ⟨.leastSquares, Direct.qr K, solve, by simp [Direct.leastSquares?, hmn], hsolve, hnormal⟩
  | svd h => exact ⟨_, _, _, rfl, rfl, h.solvesNormal⟩

end Kernels.FactorsExactly

end NewtonSolver
