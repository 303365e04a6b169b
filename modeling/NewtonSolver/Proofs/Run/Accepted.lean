import NewtonSolver.Proofs.Arithmetic.Exact
import NewtonSolver.Proofs.Configuration
import NewtonSolver.Proofs.Descent.Failures
import NewtonSolver.Proofs.Run.Endings

/-! Runs with an accepted configuration never turn out to be misconfigured: what the options were checked
for is all that the stages of a run rely on. -/
namespace NewtonSolver

open Outcome (FailsOnly)

variable {R : Type} [Scalar R] {m n : Nat}

section Transpose

variable {K : Kernels R} {c : Configuration R}

/-- Steps to a root have no use for transposed products. -/
theorem Descent.compute_transpose (hc : c.leastSquares m n = false) (solver : LinearSolver R)
    (op : JacobianOperator R m n) (other : Product R m n) (residual : Vec R m)
    (cache : LinearCache R) :
    compute K c solver (.operator { op with applyTranspose := other }) residual cache =
      compute K c solver (.operator op) residual cache := by
  obtain ⟨hk, rfl⟩ : c.kind ≠ .gaussNewton ∧ m = n := by
    simpa [Configuration.leastSquares] using hc
  obtain ⟨apply, applyTranspose, traceable⟩ := op
  have hmodel : solveModel K c solver (.operator ⟨apply, other, traceable⟩) (-residual) cache =
      solveModel K c solver (.operator ⟨apply, applyTranspose, traceable⟩) (-residual) cache := by
    simp [solveModel, DescentKind.eq_newton hk, root]
  cases traceable with
  | true =>
    have hsettle (T : Product R m m) :
        settle (.operator ⟨apply, T, true⟩) = .ok (.operator ⟨apply, T, true⟩) := rfl
    simp only [compute, hsettle, hmodel]
  | false =>
    have hsettle : settle (.operator ⟨apply, other, false⟩) =
        settle (.operator ⟨apply, applyTranspose, false⟩) := rfl
    simp only [compute, hsettle]

end Transpose

namespace Problem

variable {P : Problem R m n} {c : Configuration R} {path : JacobianPath R m n} {x : Vec R n}
  {fx : Vec R m} {op : JacobianOperator R m n}

theorem resolvePath_needsTranspose (h : P.resolvePath c x = .ok path) :
    path.needsTranspose = c.leastSquares m n := by
  unfold resolvePath at h
  split at h
  · obtain ⟨⟨materialize, source⟩, -, h⟩ := Outcome.bind_eq_ok.mp h
    cases h
    rfl
  · cases h
    rfl

/-- Transposed products are those that the problem has, unless nobody is going to ask for them. -/
theorem operatorAt_transpose {needsTranspose : Bool}
    (h : P.operatorAt c needsTranspose x fx = .ok op) :
    P.transposedProductsAt c x fx = .ok (some op.applyTranspose) ∨ needsTranspose = false := by
  obtain ⟨apply, -, h⟩ := Outcome.bind_eq_ok.mp h
  obtain ⟨known, hknown, h⟩ := Outcome.bind_eq_ok.mp h
  split at h
  · cases h
    exact .inl hknown
  · split at h
    · cases h
    · next hneeds => exact .inr (by simpa using hneeds)

end Problem

namespace Setup

/-- Solvers that need entries get matrices, transposed products that are not known are left alone, and
in no stage the configuration turns out to be at fault. -/
structure NeverMisused (S : Setup R m n) (start : Vec R n) : Prop where
  matrices : ∀ v path J, S.Acquires start v path J → path.linearSolver.requiresMatrix = true →
    ∃ A, J = .matrix A
  transposes : ∀ v path op, S.Acquires start v path (.operator op) →
    S.problem.transposedProductsAt S.configuration v.progress.x v.residual =
        .ok (some op.applyTranspose) ∨
      ∀ other, S.descentWith v path (.operator { op with applyTranspose := other }) =
        S.descentWith v path (.operator op)
  descents : ∀ v path J, S.Acquires start v path J →
    ∀ f, S.descentWith v path J ≠ .error (.configuration f)
  searches : ∀ h slope f, (S.selection h slope).step ≠ .error (.configuration f)
  ending : ∀ f, (S.iterate start).ending ≠ .escaped (.configuration f)

variable {S : Setup R m n} {start : Vec R n} {v : Visit R m n} {path : JacobianPath R m n}
  {J : JacobianInfo R m n}

theorem selection_configuration (h : Heading R m n) (slope : R) (f : ConfigurationFailure R) :
    (S.selection h slope).step ≠ .error (.configuration f) := by
  intro hstep
  rcases LineSearch.select_failsOnly _ _ _ hstep with ⟨misfit, h⟩ | ⟨g, h⟩ <;> cases h

theorem Acquires.transposes {op : JacobianOperator R m n}
    (h : S.Acquires start v path (.operator op)) :
    S.problem.transposedProductsAt S.configuration v.progress.x v.residual =
        .ok (some op.applyTranspose) ∨
      ∀ other, S.descentWith v path (.operator { op with applyTranspose := other }) =
        S.descentWith v path (.operator op) := by
  obtain ⟨hj, hresidual⟩ := h.from
  obtain ⟨hpath, hacquire⟩ := jacobianFrom_ok hj
  rw [hresidual]
  refine (Problem.operatorAt_transpose (acquire_operator hacquire)).imp_right fun hneeds other => ?_
  rw [Problem.resolvePath_needsTranspose hpath] at hneeds
  exact congrArg Prod.fst (if_congr Iff.rfl rfl (Descent.compute_transpose hneeds _ op other _ _))

section Accepted

variable {o : Options R} {kind : Setting R} {notices : List Notice}
  (hbuild : o.build kind = .ok ⟨S.configuration, notices⟩)
  (hpairs : PreconditionerSpec.BuildsPairs S.configuration.preconditioner)

include hbuild

theorem Acquires.matrix (h : S.Acquires start v path J)
    (hneeds : path.linearSolver.requiresMatrix = true) : ∃ A, J = .matrix A := by
  obtain ⟨hj, -⟩ := h.from
  rw [resolvePath_linearSolver (jacobianFrom_ok hj).1] at hneeds
  exact jacobianFrom_matrix (Options.build_concrete hbuild hneeds) hj

include hpairs

theorem Acquires.descent (h : S.Acquires start v path J) (f : ConfigurationFailure R) :
    S.descentWith v path J ≠ .error (.configuration f) := by
  have hfails : FailsOnly (fun f => Failure.InSolve False f ∧ ∀ g, f ≠ .linearSolve g)
      (S.descentWith v path J) :=
    descentWith_failsOnly (.inr hpairs) (.inr (h.matrix hbuild)) v
  intro hd
  obtain ⟨hin, -⟩ := hfails _ hd
  generalize hg : Failure.configuration f = g at hin
  cases hin with
  | fault f => cases f <;> cases hg
  | linearSolve f => cases hg
  | configuration h => exact h

theorem ending_configuration (f : ConfigurationFailure R) :
    (S.iterate start).ending ≠ .escaped (.configuration f) := by
  intro hend
  have hescapes := iterate_escaped hend
  generalize hg : Failure.configuration f = g at hescapes
  cases hescapes with
  | acquiring hj => cases hg
  | directing ha hd hf => exact ha.descent hbuild hpairs f (hg ▸ hd)
  | @sloping _ h f' hi hh hs => cases f' <;> cases hg
  | searching hh hs hstep hf => exact selection_configuration _ _ f (hg ▸ hstep)

/-- No run with a configuration that was accepted finds it to be at fault. -/
theorem accepted_neverMisused : S.NeverMisused start where
  matrices _ _ _ h := h.matrix hbuild
  transposes _ _ _ h := h.transposes
  descents _ _ _ h := h.descent hbuild hpairs
  searches := selection_configuration
  ending := ending_configuration hbuild hpairs

end Accepted

/-- Products and a preconditioner of the caller, where nothing is known of transposed products. -/
noncomputable def productsOptions : Options ℝ :=
  { Options.defaults with
    concrete := .flag false
    preconditioner := .callable (.preconditioner "plain" fun _ _ => .ok (.pair (.apply .ok) .absent))
    autodiff := Tag.autoForward.setting fun _ => none }

/-- Two equations by the general iteration, with the placeholder for transposed products. -/
noncomputable def productsOnly : Setup ℝ 2 2 where
  kernels := .standard
  problem :=
    { residual := .affine (.ofFn fun i j => if i ≤ j then 1 else 0) (.ofFn fun _ => 1)
      jacobian := none
      products := some fun _ v => .ok ((Mat.ofFn fun i j => if i ≤ j then 1 else 0).mulVec v)
      transposedProducts := none
      sparsity := none
      traceable := false }
  configuration :=
    { needsMatrix := some false
      kind := .newton
      linearSolver := none
      preconditioner :=
        some (.custom (.preconditioner "plain" fun _ _ => .ok (.pair (.apply .ok) .absent)))
      lineSearch := .fullStep (.text "no_line_search")
      jacobianBackend := some (.dense (.forward (.text "forward")))
      transposedBackend := none
      policy := .fail }
  limits := ⟨100, 1, 1⟩

theorem productsOptions_build :
    productsOptions.build (.text "newton") = .ok ⟨productsOnly.configuration, []⟩ := rfl

theorem productsOnly_buildsPairs :
    PreconditionerSpec.BuildsPairs productsOnly.configuration.preconditioner := by
  rintro label build ⟨⟩ n system b ⟨⟩
  exact ⟨nofun, nofun⟩

theorem productsOnly_neverMisused :
    productsOptions.build (.text "newton") = .ok ⟨productsOnly.configuration, []⟩ ∧
      PreconditionerSpec.BuildsPairs productsOnly.configuration.preconditioner ∧
      productsOnly.NeverMisused #v[4, 5] :=
  ⟨productsOptions_build, productsOnly_buildsPairs,
    accepted_neverMisused productsOptions_build productsOnly_buildsPairs⟩

end Setup

end NewtonSolver
