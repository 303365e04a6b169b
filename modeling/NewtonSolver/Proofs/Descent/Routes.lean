import Mathlib
import NewtonSolver.Proofs.Descent.Direct
import NewtonSolver.Proofs.Factor.SingleColumn

/-! Directions from direct solvers agree. The matrix is factorized, or that of its normal equations, and
right sides differ accordingly. With independent columns all of them end in one point. -/
namespace NewtonSolver

/-- All steps for a column that is not zero can be made. -/
theorem Kernels.SolvesExactly.standard_column {m : Nat} {c : Configuration ℝ} {A : Mat ℝ m 1}
    (hk : c.kind = .gaussNewton ∨ m ≠ 1) (hpre : c.Preconditions 1)
    (hm : ((10 * max m 1 : Nat) : ℝ) * Scalar.epsilon < 1) (hA : A.squares ≠ 0) (f : Factorization) :
    Kernels.standard.SolvesExactly c f A := by
  cases f with
  | lu => exact .normal hk (.inl rfl) hpre (A.gram_single ▸ .standard_lu_one hA)
  | cholesky =>
    have hpos := lt_of_le_of_ne A.squares_nonneg (Ne.symm hA)
    exact .normal hk (.inr rfl) hpre (A.gram_single ▸ .standard_cholesky_one hpos)
  | qr => exact .direct hk (.inl rfl) (.standard_qr_column hm hA)
  | svd => exact .direct hk (.inr rfl) (.svd (Kernels.standard_svd_column hm A))

namespace Descent

variable {m n : Nat} {A : Mat ℝ m n} {residual : Vec ℝ m} {d : Vec ℝ n}

/-- A direction after which the residual of the linear model is as short as it gets. -/
def IsModelMinimizer (A : Mat ℝ m n) (residual : Vec ℝ m) (d : Vec ℝ n) : Prop :=
  ∀ e, (A.mulVec d + residual).norm ≤ (A.mulVec e + residual).norm

theorem isModelMinimizer_iff : IsModelMinimizer A residual d ↔ A.IsLeastSquares (-residual) d := by
  have hmodel (e : Vec ℝ n) : A.mulVec e - -residual = A.mulVec e + residual := by
    refine Vec.ext_get ?_
    intro i
    simp
  simp only [IsModelMinimizer, Mat.IsLeastSquares, hmodel]

/-- A way to a direction by exact factors, whatever was factorized before. The factors of symmetric
matrices are not for roots, whose matrix may have any form. -/
structure DirectRoute (m n : Nat) where
  kernels : Kernels ℝ
  configuration : Configuration ℝ
  factorization : Factorization
  name : Setting ℝ
  cache : LinearCache ℝ
  isExact : kernels.IsExactFor m n factorization
  sound : ∃ memory, cache.Sound kernels memory
  offered : factorization = .cholesky → configuration.kind = .newton → m ≠ n

namespace DirectRoute

variable (route : DirectRoute m n)

noncomputable def outcome (A : Mat ℝ m n) (residual : Vec ℝ m) :
    Except (Failure ℝ) (Descent ℝ n) :=
  (compute route.kernels route.configuration (.direct route.factorization route.name) (.matrix A)
    residual route.cache).1

/-- All steps of the route give exact results with the matrix. -/
def Completes (A : Mat ℝ m n) : Prop :=
  route.kernels.SolvesExactly route.configuration route.factorization A

theorem normal (h : route.outcome A residual = .ok ⟨d, none⟩) : A.SolvesNormal (-residual) d := by
  obtain ⟨memory, hc⟩ := route.sound
  exact (compute_direct_fits hc route.isExact route.offered h).1.normal

theorem ok_of_completes (hA : Function.Injective A.mulVec) (h : route.Completes A)
    (residual : Vec ℝ m) :
    ∃ d, route.outcome A residual = .ok ⟨d, none⟩ ∧ A.SolvesNormal (-residual) d := by
  obtain ⟨memory, hc⟩ := route.sound
  exact compute_exact hc hA h residual

end DirectRoute

/-- There is one best direction for a matrix of full column rank. It is what every route gives that gives
a direction, and the routes do whose factors pass the singularity test. -/
theorem directRoutes_agree (hA : A.toMatrix.rank = n) (residual : Vec ℝ m) :
    ∃ d, IsModelMinimizer A residual d ∧ (∀ e, IsModelMinimizer A residual e → e = d) ∧
      ∀ route : DirectRoute m n,
        (∀ e, route.outcome A residual = .ok ⟨e, none⟩ → e = d) ∧
          (route.Completes A → route.outcome A residual = .ok ⟨d, none⟩) := by
  have hinj := Mat.mulVec_injective_of_rank hA
  obtain ⟨d, hd⟩ := Mat.exists_solvesNormal hinj (-residual)
  have hunique : ∀ e, A.SolvesNormal (-residual) e → e = d :=
    fun e he => hd.unique hinj he.isLeastSquares
  refine ⟨d, isModelMinimizer_iff.mpr hd.isLeastSquares, ?_, ?_⟩
  · intro e he
    exact hd.unique hinj (isModelMinimizer_iff.mp he)
  · intro route
    refine ⟨fun e he => hunique e (route.normal he), ?_⟩
    intro h
    obtain ⟨e, he, hnormal⟩ := route.ok_of_completes hinj h residual
    rw [he, hunique e hnormal]

/-- The routes of this library to a step of a rectangular problem, from a cache that is empty. -/
noncomputable def standardRoute (f : Factorization) (name : Setting ℝ) : DirectRoute 2 1 where
  kernels := .standard
  configuration :=
    { needsMatrix := none
      kind := .newton
      linearSolver := none
      preconditioner := none
      lineSearch := .fullStep (.text "none")
      jacobianBackend := none
      transposedBackend := none
      policy := .fail }
  factorization := f
  name := name
  cache := .empty
  isExact := by
    by_cases hf : f = .svd
    · subst hf
      exact Kernels.standard_svd_column (by norm_num [Scalar.epsilon])
    · exact Kernels.standard_isExactFor hf 2 1
  sound := ⟨fun _ => .ofMat (#v[] : Mat ℝ 0 0), SolveCall.empty_sound⟩
  offered := by simp

/-- One unknown in two equations. -/
noncomputable def ones : Mat ℝ 2 1 := .ofFn fun _ _ => 1

theorem ones_squares : ones.squares = 2 := by
  norm_num [Mat.squares, ones]

theorem ones_minimizer : IsModelMinimizer ones #v[0, 2] #v[-1] := by
  refine isModelMinimizer_iff.mpr (Mat.SolvesNormal.isLeastSquares ?_)
  rw [Mat.SolvesNormal, ← Mat.gram_mulVec, Mat.gram_single, ones_squares]
  refine Vec.ext_get ?_
  intro i
  simp [Exact.mulVec_get, Mat.vecMul, ones]

theorem ones_agree : ones.toMatrix.rank = 1 ∧
    ∀ f name, (standardRoute f name).outcome ones #v[0, 2] = .ok ⟨#v[-1], none⟩ := by
  have hne : ones.squares ≠ 0 := ones_squares.trans_ne two_ne_zero
  have hrank := Mat.rank_eq_cols (Mat.column_injective hne)
  obtain ⟨d, -, hunique, hroutes⟩ := directRoutes_agree hrank #v[0, 2]
  obtain rfl := hunique _ ones_minimizer
  have hpre (f name) : (standardRoute f name).configuration.Preconditions 1 :=
    .of_library (c := (standardRoute f name).configuration) (by simp [standardRoute])
  refine ⟨hrank, ?_⟩
  intro f name
  exact (hroutes (standardRoute f name)).2
    (.standard_column (.inr (by decide)) (hpre f name) (by norm_num [Scalar.epsilon]) hne f)

end Descent

end NewtonSolver
