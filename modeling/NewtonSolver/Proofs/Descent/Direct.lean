import Mathlib
import NewtonSolver.Proofs.Configuration
import NewtonSolver.Proofs.Descent
import NewtonSolver.Proofs.Factor.Prepared
import NewtonSolver.Proofs.LinearSolver.Acceptance
import NewtonSolver.Proofs.LinearSolver.CacheTransparency

/-! Directions from direct solvers, whatever was factorized before. A direction comes from a prepared
solve, of the Jacobian or of its normal equations. -/
namespace NewtonSolver

theorem Direct.finish_ok {R : Type} [Scalar R] {m n : Nat} {prepared : Prepared R m n} {b : Vec R m}
    {x : Vec R n} (h : finish prepared b = .ok x) : ∃ solve, prepared = .ok solve ∧ x = solve b := by
  unfold finish at h
  split at h
  case h_1 => cases h
  case h_2 solve => exact ⟨solve, rfl, (checkFinite_ok h).1⟩

namespace Descent

section Cache

variable {R : Type} [Scalar R] {m n : Nat} {K : Kernels R} {memory : Nat → Table R}
  {spec : Option (PreconditionerSpec R)} {solver : LinearSolver R} {cache : LinearCache R}
  {f : Factorization} {name : Setting R} (heq : ∀ a b : R, (a == b) = true → a = b)
  (hc : cache.Sound K memory)

omit [Scalar R] in
theorem unmarked_reads (A : Mat R m n) : Held.Reads memory ⟨A, none⟩ := nofun

include heq hc

theorem solveWith_sound {system : HeldSystem R n}
    (hr : ∀ held, system = .matrix held → held.Reads memory) (b : Vec R n) :
    (solveWith K spec solver system b cache).2.Sound K memory := by
  unfold solveWith
  split
  case h_1 => exact hc
  case h_2 P _ =>
    have hreads : (SolveCall.square solver system b P).Reads memory := by
      cases system with
      | matrix held => exact hr held rfl
      | operator apply => trivial
    obtain ⟨answer, ha⟩ := SolveCall.run_sound (K := K) heq hreads
    exact (ha cache hc).2

theorem root_sound (J : JacobianInfo R n n) (b : Vec R n) :
    (root K spec solver J b cache).2.Sound K memory := by
  cases J with
  | matrix J => exact solveWith_sound heq hc (by rintro held ⟨⟩; exact unmarked_reads J) b
  | operator J => exact solveWith_sound heq hc (by rintro held ⟨⟩) b

theorem normalEquations_sound (J : JacobianInfo R m n) (b : Vec R m) :
    (normalEquations K spec solver J b cache).2.Sound K memory := by
  cases J with
  | matrix J => exact solveWith_sound heq hc (by rintro held ⟨⟩; exact unmarked_reads _) _
  | operator J =>
    unfold normalEquations
    dsimp only
    split
    case h_1 => exact hc
    case h_2 => exact solveWith_sound heq hc (by rintro held ⟨⟩) _

theorem leastSquares_sound (J : JacobianInfo R m n) (b : Vec R m) :
    (leastSquares K spec solver J b cache).2.Sound K memory := by
  have hdirect (A : Mat R m n) : (solveLeastSquares K solver ⟨A, none⟩ b cache).2.Sound K memory := by
    have hreads : (SolveCall.leastSquares solver ⟨A, none⟩ b).Reads memory := unmarked_reads A
    obtain ⟨answer, ha⟩ := SolveCall.run_sound (K := K) heq hreads
    exact (ha cache hc).2
  unfold leastSquares
  split
  · exact hdirect _
  · exact hdirect _
  · exact normalEquations_sound heq hc J b

theorem solveModel_sound (c : Configuration R) (J : JacobianInfo R m n) (b : Vec R m) :
    (solveModel K c solver J b cache).2.Sound K memory := by
  unfold solveModel
  split
  · next hmn =>
    subst hmn
    split
    · exact root_sound heq hc J b
    · exact leastSquares_sound heq hc J b
  · exact leastSquares_sound heq hc J b

theorem compute_sound (c : Configuration R) (J : JacobianInfo R m n) (residual : Vec R m) :
    (compute K c solver J residual cache).2.Sound K memory := by
  unfold compute
  split
  case h_1 => exact hc
  case h_2 J' _ =>
    have hs : (solveModel K c solver J' (-residual) cache).2.Sound K memory :=
      solveModel_sound heq hc c J' (-residual)
    split <;>
    · next h =>
      rw [h] at hs
      exact hs

/-- A square matrix that is solved with directly is prepared for that. -/
theorem solveWith_direct_ok {M : Mat R n n} {b d : Vec R n}
    (h : (solveWith K spec (.direct f name) (.matrix ⟨M, none⟩) b cache).1 = .ok d) :
    ∃ solve, Direct.square K f M = .ok solve ∧ d = solve b := by
  unfold solveWith at h
  split at h
  case h_1 => cases h
  case h_2 P _ =>
    have hs := solveLinear_uncached heq hc (unmarked_reads M) f name b P
    exact Direct.finish_ok (hs.symm.trans h)

theorem solveLeastSquares_direct_ok {A : Mat R m n} {b : Vec R m} {d : Vec R n}
    (h : (solveLeastSquares K (.direct f name) ⟨A, none⟩ b cache).1 = .ok d) :
    ∃ usage factorize solve, Direct.leastSquares? K m n f = some (usage, factorize) ∧
      factorize A = .ok solve ∧ d = solve b := by
  cases hf : Direct.leastSquares? K m n f with
  | none => simp [solveLeastSquares, hf] at h
  | some found =>
    obtain ⟨usage, factorize⟩ := found
    have hs := solveLeastSquares_uncached heq hc (unmarked_reads A) name hf b
    obtain ⟨solve, hsolve, hd⟩ := Direct.finish_ok (hs.symm.trans h)
    exact ⟨usage, factorize, solve, rfl, hsolve, hd⟩

end Cache

variable {m n : Nat} {K : Kernels ℝ} {c : Configuration ℝ} {f : Factorization} {name : Setting ℝ}
  {cache : LinearCache ℝ} {memory : Nat → Table ℝ}

/-- A direction that solves the normal equations of the linear model, and is zero if its product is. -/
structure Fits (A : Mat ℝ m n) (residual : Vec ℝ m) (d : Vec ℝ n) : Prop where
  normal : A.SolvesNormal (-residual) d
  eq_zero : A.mulVec d = 0 → d = 0

namespace Fits

variable {A : Mat ℝ m n} {residual : Vec ℝ m} {d : Vec ℝ n}

theorem of_isFittedBy {solve : Vec ℝ m → Vec ℝ n} (h : A.IsFittedBy solve) (residual : Vec ℝ m) :
    Fits A residual (solve (-residual)) :=
  ⟨h.normal _, h.eq_zero _⟩

/-- The merit function goes down along the direction, unless that is zero. -/
theorem dot_neg (h : Fits A residual d) (hd : d ≠ 0) : Vec.dot residual (A.mulVec d) < 0 := by
  have hne : (A.mulVec d).sumSquares ≠ 0 := fun h0 => hd (h.eq_zero (Exact.sumSquares_eq_zero.mp h0))
  have hpos := lt_of_le_of_ne (Exact.sumSquares_nonneg (A.mulVec d)) (Ne.symm hne)
  rw [h.normal.dot_residual]
  linarith

end Fits

section Success

variable {A : Mat ℝ m n} (hc : cache.Sound K memory)

include hc

theorem solveWith_exact {M : Mat ℝ n n} {solve : Vec ℝ n → Vec ℝ n} (hpre : c.Preconditions n)
    (hsolve : Direct.square K f M = .ok solve) (b : Vec ℝ n) :
    (solveWith K c.preconditioner (.direct f name) (.matrix ⟨M, none⟩) b cache).1 =
      .ok (solve b) := by
  obtain ⟨P, hP⟩ := hpre M
  simp only [solveWith, HeldSystem.system, hP]
  rw [solveLinear_uncached Exact.eq_of_beq hc (unmarked_reads M), hsolve,
    Direct.finish_prepared]

theorem solveModel_exact (hA : Function.Injective A.mulVec) (h : K.SolvesExactly c f A)
    (b : Vec ℝ m) :
    ∃ d, (solveModel K c (.direct f name) (.matrix A) b cache).1 = .ok d ∧ A.SolvesNormal b d := by
  cases h with
  | root hk hpre h =>
    obtain ⟨solve, hsolve, hnormal⟩ := h.square_ok
    refine ⟨solve b, ?_, hnormal b⟩
    rw [solveModel_root hk, solveWith_exact hc hpre hsolve]
  | direct hk hf h =>
    obtain ⟨usage, factorize, solve, hleast, hsolve, hnormal⟩ :=
      h.leastSquares_ok hf (Mat.cols_le_rows_of_injective hA)
    refine ⟨solve b, ?_, hnormal b⟩
    rw [solveModel_leastSquares hk, leastSquares_direct hf,
      solveLeastSquares_uncached Exact.eq_of_beq hc (unmarked_reads A) name hleast,
      hsolve, Direct.finish_prepared]
  | normal hk hf hpre h =>
    obtain ⟨solve, hsolve, hnormal⟩ := h.square_ok
    refine ⟨solve (A.vecMul b), ?_, .of_gram hA (hnormal _)⟩
    rw [solveModel_leastSquares hk, leastSquares_normal hf, solveWith_exact hc hpre hsolve]

/-- Exact steps with a matrix of independent columns give a direction. -/
theorem compute_exact (hA : Function.Injective A.mulVec) (h : K.SolvesExactly c f A)
    (residual : Vec ℝ m) :
    ∃ d, (compute K c (.direct f name) (.matrix A) residual cache).1 = .ok ⟨d, none⟩ ∧
      A.SolvesNormal (-residual) d := by
  obtain ⟨d, hd, hnormal⟩ := solveModel_exact hc hA h (-residual)
  exact ⟨d, compute_of_solved hd, hnormal⟩

end Success

section Exact

variable (hc : cache.Sound K memory) (hexact : K.IsExactFor m n f)

include hc hexact

theorem leastSquares_fits {A : Mat ℝ m n} {residual : Vec ℝ m} {d : Vec ℝ n}
    (h : (leastSquares K c.preconditioner (.direct f name) (.matrix A) (-residual) cache).1 = .ok d) :
    Fits A residual d := by
  rcases f.direct_or_normal with hf | hf
  · rw [leastSquares_direct hf] at h
    obtain ⟨usage, factorize, solve, hleast, hs, rfl⟩ :=
      solveLeastSquares_direct_ok Exact.eq_of_beq hc h
    exact .of_isFittedBy (hexact.leastSquares_fits hleast hs) residual
  · rw [leastSquares_normal hf] at h
    obtain ⟨solve, hs, rfl⟩ := solveWith_direct_ok Exact.eq_of_beq hc h
    exact .of_isFittedBy (hexact.gram_fits hf hs) residual

/-- Directions of direct solvers fit the linear model. A square Newton step leads to its root, except by
the pseudo-inverse of a matrix that may have no inverse. -/
theorem compute_direct_fits {A : Mat ℝ m n} {residual : Vec ℝ m} {d : Vec ℝ n}
    (hroute : f = .cholesky → c.kind = .newton → m ≠ n)
    (h : (compute K c (.direct f name) (.matrix A) residual cache).1 = .ok ⟨d, none⟩) :
    Fits A residual d ∧ (c.kind = .newton → m = n → f ≠ .svd → A.mulVec d = -residual) := by
  obtain ⟨J, ⟨⟩, hsolve⟩ := compute_solved h
  by_cases hk : c.kind = .gaussNewton ∨ m ≠ n
  · rw [solveModel_leastSquares hk] at hsolve
    refine ⟨leastSquares_fits hc hexact hsolve, ?_⟩
    intro hnewton hmn
    rcases hk with hk | hk
    · cases hk.symm.trans hnewton
    · exact absurd hmn hk
  · obtain ⟨hkind, hmn⟩ := not_or.mp hk
    obtain rfl := not_not.mp hmn
    have hnewton := DescentKind.eq_newton hkind
    rw [solveModel_root hnewton] at hsolve
    obtain ⟨solve, hs, rfl⟩ := solveWith_direct_ok Exact.eq_of_beq hc hsolve
    obtain ⟨hfit, hinv⟩ := hexact.square_fits (fun hf => hroute hf hnewton rfl) hs
    exact ⟨.of_isFittedBy hfit residual, fun _ _ hsvd => hinv hsvd (-residual)⟩

end Exact

end Descent

end NewtonSolver
