import NewtonSolver.Proofs.Descent.Failures

/-! What a direction costs: one linear solve, unless something gives up before it, and for it at most one
factorization. -/
namespace NewtonSolver

open Outcome (FailsOnly)

variable {R : Type} {m n : Nat}

/-- One more linear solve, for which one more factorization may have been made. -/
structure LinearCache.SolvesOnce (factorizes : Bool) (c c' : LinearCache R) : Prop where
  solves : c'.solves = c.solves + 1
  factorizations : c'.factorizations = c.factorizations ∨
    factorizes = true ∧ c'.factorizations = c.factorizations + 1

theorem LinearCache.countSolve_solvesOnce (factorizes : Bool) (c : LinearCache R) :
    c.SolvesOnce factorizes c.countSolve := ⟨rfl, .inl rfl⟩

namespace Descent

/-- A computation that gives up before it solves, with the cache as it was, or has made one solve. -/
inductive Counted (factorizes : Bool) (c : LinearCache R) {α : Type} :
    Except (Failure R) α × LinearCache R → Prop
  | unsolved {f : Failure R} (hf : ∀ g, f ≠ .linearSolve g) : Counted factorizes c (.error f, c)
  | solved {r : Except (Failure R) α} {c' : LinearCache R} (h : c.SolvesOnce factorizes c') :
    Counted factorizes c (r, c')

namespace Counted

variable {factorizes : Bool} {c c' : LinearCache R} {α : Type}
  {attempt : Except (Failure R) α × LinearCache R}

theorem solvesOnce_of_ok {a : α} (h : Counted factorizes c (.ok a, c')) :
    c.SolvesOnce factorizes c' := by
  cases h with
  | solved h => exact h

theorem solves_bounds (h : Counted factorizes c attempt) :
    c.solves ≤ attempt.2.solves ∧ attempt.2.solves ≤ c.solves + 1 := by
  cases h with
  | unsolved hf => exact ⟨Nat.le_refl _, Nat.le_succ _⟩
  | solved h => exact ⟨h.solves ▸ Nat.le_succ _, Nat.le_of_eq h.solves⟩

theorem factorizations_le (h : Counted factorizes c attempt) (hle : c.factorizations ≤ c.solves) :
    attempt.2.factorizations ≤ attempt.2.solves := by
  cases h with
  | unsolved hf => exact hle
  | solved h =>
    have hsolves := h.solves
    rcases h.factorizations with hf | ⟨-, hf⟩ <;> dsimp only <;> omega

theorem factorizations_eq (h : Counted factorizes c attempt) (hno : factorizes = false) :
    attempt.2.factorizations = c.factorizations := by
  cases h with
  | unsolved hf => rfl
  | solved h =>
    rcases h.factorizations with hf | ⟨hyes, -⟩
    · exact hf
    · rw [hno] at hyes
      cases hyes

end Counted

end Descent

theorem Failure.ofFault_ne_linearSolve (f : Fault) (g : LinearSolveFailure R) :
    ofFault f ≠ .linearSolve g := by
  cases f <;> nofun

variable [Scalar R]

namespace LinearCache

/-- A factorization is recalled, made and kept, or not to be had. -/
theorem prepare_counts (c : LinearCache R) (key : FactorKey R) (held : Held R m n)
    (factorize : Mat R m n → Direct.Prepared R m n) :
    (c.prepare key held factorize).2.solves = c.solves ∧
      ((c.prepare key held factorize).2.factorizations = c.factorizations ∨
        (c.prepare key held factorize).2.factorizations = c.factorizations + 1) := by
  unfold prepare
  split
  · exact ⟨rfl, .inl rfl⟩
  · split
    · exact ⟨rfl, .inl rfl⟩
    · exact ⟨rfl, .inr rfl⟩

theorem solve_solvesOnce (c : LinearCache R) (key : FactorKey R) (held : Held R m n)
    (factorize : Mat R m n → Direct.Prepared R m n) (b : Vec R m) :
    c.SolvesOnce true (c.countSolve.solve key held factorize b).2 := by
  obtain ⟨hsolves, hfactorizations⟩ := c.countSolve.prepare_counts key held factorize
  exact ⟨hsolves, hfactorizations.imp_right fun h => ⟨rfl, h⟩⟩

end LinearCache

variable {K : Kernels R} {spec : Option (PreconditionerSpec R)} {solver : LinearSolver R}
  {cache : LinearCache R}

theorem solveLinear_solvesOnce (system : HeldSystem R n) (b : Vec R n) (P : Preconditioners R n) :
    cache.SolvesOnce solver.requiresMatrix (solveLinear K solver system b P cache).2 := by
  cases solver with
  | krylov method fields => exact cache.countSolve_solvesOnce _
  | direct f name =>
    cases system with
    | operator apply => exact cache.countSolve_solvesOnce _
    | matrix held => exact cache.solve_solvesOnce _ held _ b

theorem solveLeastSquares_solvesOnce (held : Held R m n) (b : Vec R m) :
    cache.SolvesOnce solver.requiresMatrix (solveLeastSquares K solver held b cache).2 := by
  cases solver with
  | krylov method fields => exact cache.countSolve_solvesOnce _
  | direct f name =>
    unfold solveLeastSquares
    dsimp only
    split
    · exact cache.countSolve_solvesOnce _
    · exact cache.solve_solvesOnce _ held _ b

/-- Preconditioners are built before anything is solved. -/
theorem PreconditionerSpec.build?_unsolved (system : System R n) :
    FailsOnly (fun f => ∀ g, f ≠ .linearSolve g) (build? spec system) :=
  build?_failsOnly Failure.ofFault_ne_linearSolve (.inl fun _ _ h => nomatch h) system

namespace Descent

theorem solveWith_counted (system : HeldSystem R n) (b : Vec R n) :
    Counted solver.requiresMatrix cache (solveWith K spec solver system b cache) := by
  unfold solveWith
  split
  · next f hf => exact .unsolved (PreconditionerSpec.build?_unsolved _ f hf)
  · exact .solved (solveLinear_solvesOnce system b _)

theorem root_counted (J : JacobianInfo R n n) (b : Vec R n) :
    Counted solver.requiresMatrix cache (root K spec solver J b cache) := by
  cases J <;> exact solveWith_counted _ b

theorem normalEquations_counted (J : JacobianInfo R m n) (b : Vec R m) :
    Counted solver.requiresMatrix cache (normalEquations K spec solver J b cache) := by
  cases J with
  | matrix J => exact solveWith_counted _ _
  | operator J =>
    unfold normalEquations
    dsimp only
    split
    · next f hf => exact .unsolved (Failure.ofFault_ne_linearSolve f)
    · exact solveWith_counted _ _

theorem leastSquares_counted (J : JacobianInfo R m n) (b : Vec R m) :
    Counted solver.requiresMatrix cache (leastSquares K spec solver J b cache) := by
  unfold leastSquares
  split
  · exact .solved (solveLeastSquares_solvesOnce _ b)
  · exact .solved (solveLeastSquares_solvesOnce _ b)
  · exact normalEquations_counted J b

theorem solveModel_counted (c : Configuration R) (J : JacobianInfo R m n) (b : Vec R m) :
    Counted solver.requiresMatrix cache (solveModel K c solver J b cache) := by
  unfold solveModel
  split
  · next h =>
    split
    · exact root_counted _ _
    · exact leastSquares_counted J b
  · exact leastSquares_counted J b

theorem compute_counted (c : Configuration R) (J : JacobianInfo R m n) (residual : Vec R m) :
    Counted solver.requiresMatrix cache (compute K c solver J residual cache) := by
  unfold compute
  split
  · next f hf => exact .unsolved (Failure.ofFault_ne_linearSolve f)
  · next J hJ =>
    have h : Counted solver.requiresMatrix cache (solveModel K c solver J (-residual) cache) :=
      solveModel_counted c J _
    generalize solveModel K c solver J (-residual) cache = attempt at h ⊢
    cases h with
    | @unsolved f hf =>
      cases f with
      | linearSolve g => exact absurd rfl (hf g)
      | _ => exact .unsolved hf
    | @solved r c' h =>
      cases r with
      | ok d => exact .solved h
      | error f => cases f <;> exact .solved h

end Descent

end NewtonSolver
