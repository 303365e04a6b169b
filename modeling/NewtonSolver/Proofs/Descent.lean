import Mathlib
import NewtonSolver.Descent.Direction
import NewtonSolver.Proofs.Factor.Exact

/-! Directions from exact factorizations: each solves the normal equations of the linear model, and all
directions with one matrix share one factorization. -/
namespace NewtonSolver

variable {m n : Nat}

/-- Nothing is remembered yet, or one factorization was made and is remembered. -/
inductive LinearCache.Primed (key : FactorKey ℝ) (A : Mat ℝ m n) (solve : Vec ℝ m → Vec ℝ n) :
    LinearCache ℝ → Prop
  | empty (solves : Nat) : Primed key A solve ⟨solves, 0, none⟩
  | filled (solves : Nat) : Primed key A solve ⟨solves, 1, some ⟨key, m, n, ⟨A, none⟩, solve⟩⟩

namespace Exact

theorem same_vec (u : Vec ℝ n) : u.same u = true := by
  rw [Vec.same, Vector.all_eq_true]
  intro i hi
  simp

theorem same_mat (A : Mat ℝ m n) : A.same A = true := by
  rw [Mat.same, Vector.all_eq_true]
  intro i hi
  simpa using same_vec A[i]

theorem checkFinite_eq (x : Vec ℝ n) : checkFinite x = .ok x := by
  simp [checkFinite]

end Exact

theorem Direct.finish_prepared (solve : Vec ℝ m → Vec ℝ n) (b : Vec ℝ m) :
    finish (.ok solve) b = .ok (solve b) :=
  Exact.checkFinite_eq _

theorem FactorKey.same_text (f : Factorization) (name : String) (usage : Usage) :
    FactorKey.same (R := ℝ) ⟨.direct f (.text name), usage⟩ ⟨.direct f (.text name), usage⟩ = true := by
  simp [FactorKey.same, LinearSolver.toSetting, Setting.same, Setting.sameAll]

namespace LinearCache.Primed

variable {key : FactorKey ℝ} {A : Mat ℝ m n} {solve : Vec ℝ m → Vec ℝ n} {c : LinearCache ℝ}
  {factorize : Mat ℝ m n → Direct.Prepared ℝ m n}

theorem factorizations_le (hc : c.Primed key A solve) : c.factorizations ≤ 1 := by
  cases hc <;> simp

theorem countSolve (hc : c.Primed key A solve) : c.countSolve.Primed key A solve := by
  cases hc with
  | empty solves => exact .empty _
  | filled solves => exact .filled _

/-- The matrix is factorized once, and recalled from then on. -/
theorem solve_ok (hkey : key.same key = true) (hf : factorize A = .ok solve)
    (hc : c.Primed key A solve) (b : Vec ℝ m) :
    (c.solve key ⟨A, none⟩ factorize b).1 = .ok (solve b) ∧
      (c.solve key ⟨A, none⟩ factorize b).2.Primed key A solve := by
  cases hc with
  | empty solves =>
    simp only [LinearCache.solve, prepare, Option.bind_none, hf]
    exact ⟨Exact.checkFinite_eq _, .filled _⟩
  | filled solves =>
    have hrec : FactorEntry.recall? ⟨key, m, n, ⟨A, none⟩, solve⟩ key ⟨A, none⟩ = some solve := by
      simp [FactorEntry.recall?, hkey, Held.same, Exact.same_mat]
    simp only [LinearCache.solve, prepare, Option.bind_some, hrec]
    exact ⟨Exact.checkFinite_eq _, .filled _⟩

end LinearCache.Primed

/-- Every preconditioner that is asked for can be built. -/
def Configuration.Preconditions (c : Configuration ℝ) (n : Nat) : Prop :=
  ∀ M : Mat ℝ n n, ∃ P, PreconditionerSpec.build? c.preconditioner (.matrix M) = .ok P

/-- Only a function of the caller can refuse a matrix. -/
theorem Configuration.Preconditions.of_library {c : Configuration ℝ}
    (h : ∀ f, c.preconditioner ≠ some (.custom f)) : c.Preconditions n := by
  intro M
  cases hc : c.preconditioner with
  | none => exact ⟨.absent, rfl⟩
  | some spec =>
    cases spec with
    | jacobi samples seed => exact ⟨_, rfl⟩
    | custom f => exact absurd hc (h f)

/-- Steps factorize exactly: for a root the matrix itself, for a least squares point the matrix or that
of the normal equations. Square solves ask for preconditioners, though they have no use for them. -/
inductive Kernels.SolvesExactly (K : Kernels ℝ) (c : Configuration ℝ) (f : Factorization) :
    {m n : Nat} → Mat ℝ m n → Prop
  | root {n : Nat} {A : Mat ℝ n n} (hk : c.kind = .newton) (hpre : c.Preconditions n)
    (h : K.FactorsExactly f A) : SolvesExactly K c f A
  | direct {m n : Nat} {A : Mat ℝ m n} (hk : c.kind = .gaussNewton ∨ m ≠ n)
    (hf : f = .qr ∨ f = .svd) (h : K.FactorsExactly f A) : SolvesExactly K c f A
  | normal {m n : Nat} {A : Mat ℝ m n} (hk : c.kind = .gaussNewton ∨ m ≠ n)
    (hf : f = .lu ∨ f = .cholesky) (hpre : c.Preconditions n)
    (h : K.FactorsExactly f (A.transpose.mul A)) : SolvesExactly K c f A

/-- Least squares are solved with the matrix itself, or by its normal equations. -/
theorem Factorization.direct_or_normal (f : Factorization) :
    (f = .qr ∨ f = .svd) ∨ f = .lu ∨ f = .cholesky := by
  cases f <;> simp

namespace Descent

theorem not_newton_square {kind : DescentKind} (hk : kind = .gaussNewton ∨ m ≠ n) (hmn : m = n) :
    kind ≠ .newton := by
  rcases hk with rfl | hne
  · nofun
  · exact absurd hmn hne

/-- All solves with the matrix give solutions of its normal equations, and share one factorization as
long as the cache has the property. -/
structure Repeats (K : Kernels ℝ) (c : Configuration ℝ) (solver : LinearSolver ℝ) (A : Mat ℝ m n)
    (solve : Vec ℝ m → Vec ℝ n) (shared : LinearCache ℝ → Prop) : Prop where
  empty : shared .empty
  once : ∀ cache, shared cache → cache.factorizations ≤ 1
  solves : ∀ cache b, shared cache →
    (solveModel K c solver (.matrix A) b cache).1 = .ok (solve b) ∧
      shared (solveModel K c solver (.matrix A) b cache).2
  normal : ∀ b, A.SolvesNormal b (solve b)

variable {K : Kernels ℝ} {c : Configuration ℝ} {f : Factorization} {name : String} {A : Mat ℝ m n}

theorem solveModel_root {A : Mat ℝ n n} (hk : c.kind = .newton) (solver : LinearSolver ℝ)
    (b : Vec ℝ n) (cache : LinearCache ℝ) : solveModel K c solver (.matrix A) b cache =
      solveWith K c.preconditioner solver (.matrix ⟨A, none⟩) b cache := by
  simp [solveModel, hk, root]

theorem solveModel_leastSquares {R : Type} [Scalar R] {K : Kernels R} {c : Configuration R}
    (hk : c.kind = .gaussNewton ∨ m ≠ n) (solver : LinearSolver R) (J : JacobianInfo R m n)
    (b : Vec R m) (cache : LinearCache R) : solveModel K c solver J b cache =
      leastSquares K c.preconditioner solver J b cache := by
  unfold solveModel
  split
  · next hmn => rw [if_neg (not_newton_square hk hmn)]
  · rfl

section Routes

variable {R : Type} [Scalar R] {K : Kernels R} {spec : Option (PreconditionerSpec R)}
  {f : Factorization} {name : Setting R}

/-- Least squares without the normal equations. -/
theorem leastSquares_direct (hf : f = .qr ∨ f = .svd) (A : Mat R m n) (b : Vec R m)
    (cache : LinearCache R) : leastSquares K spec (.direct f name) (.matrix A) b cache =
      solveLeastSquares K (.direct f name) ⟨A, none⟩ b cache := by
  rcases hf with rfl | rfl <;> rfl

theorem leastSquares_normal (hf : f = .lu ∨ f = .cholesky) (A : Mat R m n) (b : Vec R m)
    (cache : LinearCache R) : leastSquares K spec (.direct f name) (.matrix A) b cache =
      solveWith K spec (.direct f name) (.matrix ⟨A.transpose.mul A, none⟩) (A.vecMul b) cache := by
  rcases hf with rfl | rfl <;> rfl

end Routes

/-- A prepared square solve is shared by all right sides. -/
theorem solveWith_primed {M : Mat ℝ n n} {solve : Vec ℝ n → Vec ℝ n} {cache : LinearCache ℝ}
    (hpre : c.Preconditions n) (hsolve : Direct.square K f M = .ok solve)
    (hc : cache.Primed ⟨.direct f (.text name), .square⟩ M solve) (b : Vec ℝ n) :
    let attempt := solveWith K c.preconditioner (.direct f (.text name)) (.matrix ⟨M, none⟩) b cache
    attempt.1 = .ok (solve b) ∧ attempt.2.Primed ⟨.direct f (.text name), .square⟩ M solve := by
  obtain ⟨P, hP⟩ := hpre M
  simp only [solveWith, HeldSystem.system, hP, solveLinear]
  exact hc.countSolve.solve_ok (FactorKey.same_text f name .square) hsolve b

theorem repeats_root {A : Mat ℝ n n} (hpre : c.Preconditions n) (hk : c.kind = .newton)
    (h : K.FactorsExactly f A) :
    ∃ solve shared, Repeats K c (.direct f (.text name)) A solve shared := by
  obtain ⟨solve, hsolve, hnormal⟩ := h.square_ok
  refine ⟨solve, LinearCache.Primed ⟨.direct f (.text name), .square⟩ A solve, .empty 0,
    fun _ hc => hc.factorizations_le, ?_, hnormal⟩
  intro cache b hc
  rw [solveModel_root hk]
  exact solveWith_primed hpre hsolve hc b

theorem repeats_direct (hk : c.kind = .gaussNewton ∨ m ≠ n) (hf : f = .qr ∨ f = .svd) (hmn : n ≤ m)
    (h : K.FactorsExactly f A) :
    ∃ solve shared, Repeats K c (.direct f (.text name)) A solve shared := by
  obtain ⟨usage, factorize, solve, hleast, hsolve, hnormal⟩ := h.leastSquares_ok hf hmn
  refine ⟨solve, LinearCache.Primed ⟨.direct f (.text name), usage⟩ A solve, .empty 0,
    fun _ hc => hc.factorizations_le, ?_, hnormal⟩
  intro cache b hc
  rw [solveModel_leastSquares hk, leastSquares_direct hf]
  simp only [solveLeastSquares, hleast]
  exact hc.countSolve.solve_ok (FactorKey.same_text f name usage) hsolve b

theorem repeats_normal (hpre : c.Preconditions n) (hk : c.kind = .gaussNewton ∨ m ≠ n)
    (hf : f = .lu ∨ f = .cholesky) (hA : Function.Injective A.mulVec)
    (h : K.FactorsExactly f (A.transpose.mul A)) :
    ∃ solve shared, Repeats K c (.direct f (.text name)) A solve shared := by
  obtain ⟨solve, hsolve, hnormal⟩ := h.square_ok
  refine ⟨fun b => solve (A.vecMul b),
    LinearCache.Primed ⟨.direct f (.text name), .square⟩ (A.transpose.mul A) solve, .empty 0,
    fun _ hc => hc.factorizations_le, ?_, ?_⟩
  · intro cache b hc
    rw [solveModel_leastSquares hk, leastSquares_normal hf]
    exact solveWith_primed hpre hsolve hc (A.vecMul b)
  · exact fun b => .of_gram hA (hnormal (A.vecMul b))

/-- Exact solves with a matrix of independent columns. -/
theorem exists_repeats (hA : Function.Injective A.mulVec) (h : K.SolvesExactly c f A) :
    ∃ solve shared, Repeats K c (.direct f (.text name)) A solve shared := by
  cases h with
  | root hk hpre h => exact repeats_root hpre hk h
  | direct hk hf h => exact repeats_direct hk hf (Mat.cols_le_rows_of_injective hA) h
  | normal hk hf hpre h => exact repeats_normal hpre hk hf hA h

namespace Repeats

variable {solver : LinearSolver ℝ} {solve : Vec ℝ m → Vec ℝ n} {shared : LinearCache ℝ → Prop}

theorem compute_ok (h : Repeats K c solver A solve shared) {cache : LinearCache ℝ}
    (hc : shared cache) (residual : Vec ℝ m) :
    ∃ cache', compute K c solver (.matrix A) residual cache =
      (.ok ⟨solve (-residual), none⟩, cache') ∧ shared cache' := by
  obtain ⟨hd, hshared⟩ := h.solves cache (-residual) hc
  refine ⟨_, ?_, hshared⟩
  simp only [compute, settle]
  split
  · next d cache' heq =>
    rw [heq] at hd ⊢
    cases hd
    rfl
  · next heq => rw [heq] at hd; cases hd
  · next heq => rw [heq] at hd; cases hd

end Repeats

end Descent

end NewtonSolver
