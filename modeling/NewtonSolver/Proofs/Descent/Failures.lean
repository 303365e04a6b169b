import NewtonSolver.Descent.Direction
import NewtonSolver.LineSearch.Select
import NewtonSolver.Proofs.Outcome

/-! What a direction and a step length can fail for. The configuration is at fault only if a factorization
is given products, or a function of the caller returns something other than a pair of preconditioners. -/
namespace NewtonSolver

open Outcome (FailsOnly)

variable {R : Type}

/-- The failures of a linear solve: those of the functions that it calls, its own, and for a reason those
of the configuration. -/
inductive Failure.InSolve (reason : Prop) : Failure R → Prop
  | fault (f : Fault) : InSolve reason (.ofFault f)
  | linearSolve (f : LinearSolveFailure R) : InSolve reason (.linearSolve f)
  | configuration (h : reason) (f : ConfigurationFailure R) : InSolve reason (.configuration f)

/-- Two sides that are functions or left out. -/
def Built.IsPair {n : Nat} : Built R n → Prop
  | .pair left right => (∀ text, left ≠ .other text) ∧ ∀ text, right ≠ .other text
  | .other => False

/-- Whatever a preconditioner function returns is a pair. -/
def PreconditionerSpec.BuildsPairs (spec : Option (PreconditionerSpec R)) : Prop :=
  ∀ label build, spec = some (.custom (.preconditioner label build)) →
    ∀ n system b, build n system = .ok b → Built.IsPair (R := R) (n := n) b

variable [Scalar R] {m n : Nat} {reason : Prop} {K : Kernels R} {spec : Option (PreconditionerSpec R)}
  {solver : LinearSolver R} {cache : LinearCache R}

theorem checkFinite_failsOnly (x : Vec R n) : FailsOnly (Failure.InSolve reason) (checkFinite x) := by
  unfold checkFinite
  split
  · exact .ok x
  · exact .error (.linearSolve _)

theorem Iterative.solve_failsOnly (method : KrylovMethod R) (fields : KrylovFields R)
    (system : System R n) (P : Preconditioners R n) (b : Vec R n) :
    FailsOnly (Failure.InSolve reason) (Iterative.solve K method fields system P b) := by
  have hresidual (limits : Krylov.Limits R) (x image : Vec R n) :
      FailsOnly (Failure.InSolve reason) (checkResidual method limits b x image) := by
    unfold checkResidual
    dsimp only
    split
    · exact .error (.linearSolve _)
    · exact .ok x
  refine (liftFault_failsOnly .fault _).bind fun limits => ?_
  refine (liftFault_failsOnly .fault _).bind fun y => ?_
  refine (checkFinite_failsOnly y).bind fun x => ?_
  exact (liftFault_failsOnly .fault _).bind (hresidual limits x)

theorem LinearCache.solve_failsOnly (key : FactorKey R) (held : Held R m n)
    (factorize : Mat R m n → Direct.Prepared R m n) (b : Vec R m) :
    FailsOnly (Failure.InSolve reason) (cache.solve key held factorize b).1 := by
  have hfinish (prepared : Direct.Prepared R m n) :
      FailsOnly (Failure.InSolve reason) (Direct.finish prepared b) := by
    cases prepared with
    | error f => exact .error (.linearSolve f)
    | ok solve => exact checkFinite_failsOnly (solve b)
  exact hfinish _

theorem solveLinear_failsOnly {system : HeldSystem R n}
    (h : reason ∨ (solver.requiresMatrix = true → ∃ held, system = .matrix held)) (b : Vec R n)
    (P : Preconditioners R n) :
    FailsOnly (Failure.InSolve reason) (solveLinear K solver system b P cache).1 := by
  cases solver with
  | krylov method fields => exact Iterative.solve_failsOnly method fields system.system P b
  | direct f name =>
    cases system with
    | matrix held => exact LinearCache.solve_failsOnly _ held _ b
    | operator apply =>
      rcases h with h | h
      · exact .error (.configuration h _)
      · obtain ⟨held, hheld⟩ := h rfl
        cases hheld

/-- Factors of the Jacobian itself are made only for the solvers that can work with them. -/
theorem solveLeastSquares_failsOnly {f : Factorization} {name : Setting R} (hf : f = .qr ∨ f = .svd)
    (held : Held R m n) (b : Vec R m) :
    FailsOnly (Failure.InSolve reason) (solveLeastSquares K (.direct f name) held b cache).1 := by
  rcases hf with rfl | rfl <;> exact LinearCache.solve_failsOnly _ held _ b

namespace PreconditionerSpec

variable {p : Failure R → Prop}

omit [Scalar R] in
theorem side_failsOnly {s : Side R n} (h : (∀ f, p (.configuration f)) ∨ ∀ text, s ≠ .other text) :
    FailsOnly p (side s) := by
  cases s with
  | absent => exact .ok _
  | apply f => exact .ok _
  | other text =>
    rcases h with h | h
    · exact .error (h _)
    · exact absurd rfl (h text)

omit [Scalar R] in
theorem fromBuilt_failsOnly {b : Built R n} (h : (∀ f, p (.configuration f)) ∨ b.IsPair) :
    FailsOnly p (fromBuilt b) := by
  cases b with
  | other =>
    rcases h with h | h
    · exact .error (h _)
    · exact h.elim
  | pair left right =>
    refine (side_failsOnly (h.imp_right (·.1))).bind fun l => ?_
    exact (side_failsOnly (h.imp_right (·.2))).bind fun r => .ok _

/-- Preconditioners fail with the functions that build them, or because these build something else. -/
theorem build?_failsOnly (hfault : ∀ f, p (.ofFault f))
    (h : (∀ f, p (.configuration f)) ∨ BuildsPairs spec) (system : System R n) :
    FailsOnly p (build? spec system) := by
  cases spec with
  | none => exact .ok _
  | some spec =>
    cases spec with
    | jacobi samples seed => exact (liftFault_failsOnly hfault _).bind fun d => .ok _
    | custom f =>
      cases f with
      | lineSearch label run => exact .error (hfault (.unfit _))
      | other label => exact .error (hfault (.unfit _))
      | preconditioner label build =>
        simp only [build?, PreconditionerSpec.build]
        cases hb : build n system with
        | error f => exact .error (hfault f)
        | ok b => exact fromBuilt_failsOnly (h.imp_right fun h => h label build rfl n system b hb)

end PreconditionerSpec

namespace Descent

variable (hpre : reason ∨ PreconditionerSpec.BuildsPairs spec)

include hpre

theorem solveWith_failsOnly {system : HeldSystem R n}
    (h : reason ∨ (solver.requiresMatrix = true → ∃ held, system = .matrix held)) (b : Vec R n) :
    FailsOnly (Failure.InSolve reason) (solveWith K spec solver system b cache).1 := by
  have hbuild : FailsOnly (Failure.InSolve reason) (PreconditionerSpec.build? spec system.system) :=
    PreconditionerSpec.build?_failsOnly .fault (hpre.imp_left fun h => .configuration h) _
  unfold solveWith
  split
  case h_1 f hf => exact .error (hbuild f hf)
  case h_2 P _ => exact solveLinear_failsOnly h b P

theorem root_failsOnly {J : JacobianInfo R n n}
    (h : reason ∨ (solver.requiresMatrix = true → ∃ A, J = .matrix A)) (b : Vec R n) :
    FailsOnly (Failure.InSolve reason) (root K spec solver J b cache).1 := by
  cases J with
  | matrix A => exact solveWith_failsOnly hpre (.inr fun _ => ⟨_, rfl⟩) b
  | operator op =>
    refine solveWith_failsOnly hpre (h.imp_right fun h hsolver => ?_) b
    obtain ⟨A, hA⟩ := h hsolver
    cases hA

theorem normalEquations_failsOnly {J : JacobianInfo R m n}
    (h : reason ∨ (solver.requiresMatrix = true → ∃ A, J = .matrix A)) (b : Vec R m) :
    FailsOnly (Failure.InSolve reason) (normalEquations K spec solver J b cache).1 := by
  cases J with
  | matrix A => exact solveWith_failsOnly hpre (.inr fun _ => ⟨_, rfl⟩) _
  | operator op =>
    simp only [normalEquations]
    split
    case h_1 f _ => exact .error (.fault f)
    case h_2 projected _ =>
      refine solveWith_failsOnly hpre (h.imp_right fun h hsolver => ?_) projected
      obtain ⟨A, hA⟩ := h hsolver
      cases hA

theorem leastSquares_failsOnly {J : JacobianInfo R m n}
    (h : reason ∨ (solver.requiresMatrix = true → ∃ A, J = .matrix A)) (b : Vec R m) :
    FailsOnly (Failure.InSolve reason) (leastSquares K spec solver J b cache).1 := by
  unfold leastSquares
  split
  · exact solveLeastSquares_failsOnly (.inl rfl) _ b
  · exact solveLeastSquares_failsOnly (.inr rfl) _ b
  · exact normalEquations_failsOnly hpre h b

end Descent

namespace Descent

variable {c : Configuration R} (hpre : reason ∨ PreconditionerSpec.BuildsPairs c.preconditioner)

include hpre

theorem solveModel_failsOnly {J : JacobianInfo R m n}
    (h : reason ∨ (solver.requiresMatrix = true → ∃ A, J = .matrix A)) (b : Vec R m) :
    FailsOnly (Failure.InSolve reason) (solveModel K c solver J b cache).1 := by
  unfold solveModel
  split
  · next hmn =>
    subst hmn
    split
    · exact root_failsOnly hpre h b
    · exact leastSquares_failsOnly hpre h b
  · exact leastSquares_failsOnly hpre h b

/-- A linear solve that fails is told in the descent, so it is not among the failures of one. -/
theorem compute_failsOnly {J : JacobianInfo R m n}
    (h : reason ∨ (solver.requiresMatrix = true → ∃ A, J = .matrix A)) (residual : Vec R m) :
    FailsOnly (fun f => Failure.InSolve reason f ∧ ∀ g, f ≠ .linearSolve g)
      (compute K c solver J residual cache).1 := by
  have hsettled {J' : JacobianInfo R m n} (hJ' : settle J = .ok J') :
      reason ∨ (solver.requiresMatrix = true → ∃ A, J' = .matrix A) := by
    refine h.imp_right fun h hsolver => ?_
    obtain ⟨A, rfl⟩ := h hsolver
    cases hJ'
    exact ⟨A, rfl⟩
  unfold compute
  split
  case h_1 f _ =>
    refine .error ⟨.fault f, ?_⟩
    cases f <;> exact nofun
  case h_2 J' hJ' =>
    have hmodel : FailsOnly (Failure.InSolve reason) (solveModel K c solver J' (-residual) cache).1 :=
      solveModel_failsOnly hpre (hsettled hJ') (-residual)
    split
    case h_1 => exact .ok _
    case h_2 => exact .ok _
    case h_3 f _ hf hsolve => exact .error ⟨hmodel f (congrArg Prod.fst hsolve), hf⟩

end Descent

theorem Setting.numberOr_failsOnly (s : Setting R) (otherwise : Misfit) :
    FailsOnly (· = .unfit otherwise) (s.numberOr otherwise) := by
  unfold numberOr
  split
  · exact .ok _
  · exact .error rfl

omit [Scalar R] in
theorem Setting.wholeNumberOr_failsOnly (s : Setting R) (otherwise : Misfit) :
    FailsOnly (· = .unfit otherwise) (s.wholeNumberOr otherwise) := by
  unfold wholeNumberOr
  split
  · exact .ok _
  · exact .ok _
  · exact .error rfl

namespace LineSearch

theorem Backtracking.ofFields_failsOnly (fields : BacktrackingFields R) :
    FailsOnly (∃ misfit, · = .unfit misfit) (Backtracking.ofFields fields) := by
  refine .bind (.mono (fields.maxSteps.wholeNumberOr_failsOnly _) fun _ h => ⟨_, h⟩) fun steps => ?_
  refine .bind (.mono (fields.decrease.numberOr_failsOnly _) fun _ h => ⟨_, h⟩) fun decrease => ?_
  exact .bind (.mono (fields.contraction.numberOr_failsOnly _) fun _ h => ⟨_, h⟩) fun contraction =>
    .ok _

/-- A search fails by itself, or because its fields or its method are of no use at all. -/
theorem select_failsOnly (strategy : LineSearchStrategy R) (merit : Merit R) :
    FailsOnly (fun f => (∃ misfit, f = .unfit misfit) ∨ ∃ g, f = .lineSearch g)
      (select strategy merit).step := by
  cases strategy with
  | fullStep name => exact .ok _
  | backtracking fields =>
    simp only [select, backtrack]
    split
    · split
      · next f hf =>
        obtain ⟨misfit, rfl⟩ := Backtracking.ofFields_failsOnly fields f hf
        exact .error (.inl ⟨misfit, rfl⟩)
      · split
        · exact .ok _
        · exact .error (.inr ⟨_, rfl⟩)
    · exact .error (.inr ⟨_, rfl⟩)
  | external method =>
    simp only [select, consult]
    split
    · simp only [usable]
      split
      · exact .error (.inr ⟨_, rfl⟩)
      · split
        · exact .error (.inr ⟨_, rfl⟩)
        · exact .ok _
    · exact .error (.inl ⟨_, rfl⟩)
    · exact .error (.inl ⟨_, rfl⟩)

end LineSearch

end NewtonSolver
