import NewtonSolver.Proofs.LinearSolver.Soundness
import NewtonSolver.Proofs.Run.Shape

/-! What a run by Newton steps has found when it ends on a short step instead of a small residual. The
linear solve behind the step is checked by one comparison, which a residual that is no number passes. -/
namespace NewtonSolver

/-- The step with this image solves the linear model of the residual, up to the slack. -/
structure SolvesModel {R : Type} [Scalar R] {n : Nat} (tol atol : R) (residual image : Vec R n) :
    Prop where
  finite : (image + residual).allFinite = true
  small : (image + residual).norm ≤
    Iterative.slack * Scalar.atLeast (tol * residual.norm) atol

theorem Status.hasConverged_iff {R : Type} {s : Status R} :
    s.hasConverged = true ↔ s = .converged := by
  cases s <;> simp [Status.hasConverged]

namespace Double

variable {n : Nat} {limits : Krylov.Limits Float} {residual image : Vec Float n}

theorem solvesModel_iff_solves :
    SolvesModel limits.tol limits.atol residual image ↔ Iterative.Solves limits (-residual) image := by
  have hsub : image - -residual = image + residual := sub_neg_vec image residual
  have htarget : Iterative.target limits (-residual) =
      Scalar.atLeast (limits.tol * residual.norm) limits.atol := by
    rw [Iterative.target, norm_neg]
  constructor
  · rintro ⟨hfinite, hsmall⟩
    exact ⟨by rwa [hsub], by rwa [hsub, htarget]⟩
  · rintro ⟨hfinite, hsmall⟩
    rw [hsub] at hfinite hsmall
    rw [htarget] at hsmall
    exact ⟨hfinite, hsmall⟩

/-- An accepted step solves the linear model exactly where the model with the step is finite and the
bound of the check is a number. -/
theorem solvesModel_iff {A : Product Float n n} {d : Vec Float n}
    (h : Accepted limits A (-residual) d image) (ht : (0 : Float) ≤ limits.tol)
    (hf : limits.tol.isFinite = true) (ha : (0 : Float) ≤ limits.atol)
    (hr : residual.allFinite = true) :
    SolvesModel limits.tol limits.atol residual image ↔ (image + residual).allFinite = true ∧
      ((limits.tol == 0) = true → residual.norm.isFinite = true) := by
  have hnorm : (0 : Float) ≤ (-residual).norm := by
    rw [norm_neg]
    exact norm_nonneg (allNumbers_of_finite hr)
  rw [solvesModel_iff_solves, solves_iff_of_not_lt ht hf ha hnorm h.tested, sub_neg_vec, norm_neg]

end Double

namespace Setup

/-- The direction at the state is short, and it has this image under the Jacobian that the linear solve
works with. -/
structure EndsOnStep {R : Type} [Scalar R] {n : Nat} (S : Setup R n n) (start : Vec R n)
    (s : IterationState R n n) (d image : Vec R n) : Prop where
  descent : (S.descentAt start s.x
    (S.cacheBefore start (S.iterate start).running s.iteration)).1 = .ok ⟨d, none⟩
  short : d.norm ≤ S.limits.stepTolerance
  applied : ∃ path J J', S.jacobianFrom start s.x = .ok (path, J) ∧ Descent.settle J = .ok J' ∧
    J'.apply d = .ok image

variable {R : Type} [Scalar R] {n : Nat} {S : Setup R n n} {start : Vec R n}
  {final : IterationState R n n} {method : KrylovMethod R} {fields : KrylovFields R}

/-- A run of Newton steps by an iteration that converges above the bound on the residual does so on a
short step that the iteration was allowed to return. -/
theorem converged_step (hmax : 1 ≤ S.limits.maxIters) (hk : S.configuration.kind = .newton)
    (hl : S.configuration.linearSolver = some (.krylov method fields))
    (hf : (S.iterate start).ending = .finished final) (hs : final.status = .converged)
    (ht : ¬ (S.problem.residual.value final.x).maxAbs ≤ S.limits.tolerance) :
    (S.problem.residual.value final.x).allFinite = true ∧
      ∃ A limits d image, fields.limits n = .ok limits ∧ S.EndsOnStep start final d image ∧
        Accepted limits A (-S.problem.residual.value final.x) d image := by
  have he := (iterate_completes hmax hf).ends
  cases he with
  | small _ _ hsmall => exact absurd hsmall ht
  | short d _ hfin _ hd hn =>
    refine ⟨hfin, ?_⟩
    cases hj : S.jacobianFrom start final.x with
    | error f => simp [descentAt, hj] at hd
    | ok pair =>
      obtain ⟨path, J⟩ := pair
      have hp := resolvePath_linearSolver (jacobianFrom_ok hj).1
      simp only [Configuration.solverFor, hl, Option.getD_some] at hp
      have hc := hd
      rw [descentAt_ok hj hd, hp] at hc
      obtain ⟨J', limits, image, hsettle, hlim, ha⟩ := Descent.compute_krylov_ok hk hc
      exact ⟨J'.apply, limits, d, image, hlim, ⟨hd, hn, path, J, J', hj, hsettle, ha.applied⟩, ha⟩
  | _ => simp_all

/-- In double precision the step solves the linear model exactly where the model with the step is
finite and no relative bound of zero meets an infinite norm. -/
theorem converged_step_solvesModel_iff {S : Setup Float n n} {start : Vec Float n}
    {final : IterationState Float n n} {method : KrylovMethod Float} {fields : KrylovFields Float}
    {tol atol : Float} (hmax : 1 ≤ S.limits.maxIters) (hk : S.configuration.kind = .newton)
    (hl : S.configuration.linearSolver = some (.krylov method fields))
    (htol : fields.tol.number = .ok tol) (htol0 : (0 : Float) ≤ tol) (htolf : tol.isFinite = true)
    (hatol : fields.atol.number = .ok atol) (hatol0 : (0 : Float) ≤ atol)
    (hf : (S.iterate start).ending = .finished final) (hs : final.status = .converged)
    (ht : ¬ (S.problem.residual.value final.x).maxAbs ≤ S.limits.tolerance) :
    ∃ d image, S.EndsOnStep start final d image ∧
      (SolvesModel tol atol (S.problem.residual.value final.x) image ↔
        (image + S.problem.residual.value final.x).allFinite = true ∧
          ((tol == 0) = true → (S.problem.residual.value final.x).norm.isFinite = true)) := by
  obtain ⟨hfin, A, limits, d, image, hlim, hstep, ha⟩ := converged_step hmax hk hl hf hs ht
  obtain ⟨ht, hat⟩ := KrylovFields.limits_ok hlim
  obtain rfl : tol = limits.tol := by simpa [htol] using ht
  obtain rfl : atol = limits.atol := by simpa [hatol] using hat
  exact ⟨d, image, hstep, Double.solvesModel_iff ha htol0 htolf hatol0 hfin⟩

/-- The method with a bound on the residual that no double precision root of two meets. -/
def rootOfTwoByStep : Setup Float 1 1 :=
  { rootOfTwo with limits := ⟨100, Scalar.decimal 1 300, Scalar.decimal 1 8⟩ }

theorem rootOfTwoByStep_solvesModel_iff :
    ∃ final d image, (rootOfTwoByStep.iterate #v[1]).ending = .finished final ∧
      rootOfTwoByStep.EndsOnStep #v[1] final d image ∧
      (SolvesModel (Scalar.decimal 1 10) 0 (rootOfTwoByStep.problem.residual.value final.x) image ↔
        (image + rootOfTwoByStep.problem.residual.value final.x).allFinite = true ∧
          (((Scalar.decimal 1 10 : Float) == 0) = true →
            (rootOfTwoByStep.problem.residual.value final.x).norm.isFinite = true)) := by
  have hrun : ((rootOfTwoByStep.iterate #v[1]).final.toOption.any fun s =>
      s.status.hasConverged && !decide ((rootOfTwoByStep.problem.residual.value s.x).maxAbs ≤
        rootOfTwoByStep.limits.tolerance)) = true := by
    decide +kernel
  cases he : (rootOfTwoByStep.iterate #v[1]).ending with
  | escaped f => simp [Run.final, he, Except.toOption] at hrun
  | finished final =>
    simp only [Run.final, he, Except.toOption, Option.any_some, Bool.and_eq_true] at hrun
    have hs := Status.hasConverged_iff.mp hrun.1
    obtain ⟨d, image, hstep, hiff⟩ := converged_step_solvesModel_iff (by decide) rfl rfl rfl
      (by decide +kernel) (by decide +kernel) rfl (by decide +kernel) he hs (by simpa using hrun.2)
    exact ⟨final, d, image, rfl, hstep, hiff⟩

/-- The square root less one, whose slope at zero is infinite. -/
def rootLessOne : Setup Float 1 1 :=
  oneEquation (.binary .sub (.unary .sqrt unknown) (.constant 1))
    ⟨100, Scalar.decimal 1 8, Scalar.decimal 1 8⟩

/-- The run from zero converges there at once, on a step of length zero that solves nothing. -/
theorem rootLessOne_converges : ∃ final d image,
    (rootLessOne.iterate #v[0]).ending = .finished final ∧ final.status = .converged ∧
      rootLessOne.limits.tolerance < (rootLessOne.problem.residual.value final.x).maxAbs ∧
      rootLessOne.EndsOnStep #v[0] final d image ∧
      ¬ SolvesModel (Scalar.decimal 1 10) 0 (rootLessOne.problem.residual.value final.x) image := by
  have hrun : (rootLessOne.iterate #v[0]).final.toOption.map (fun s =>
      (s.x, s.iteration, s.status.hasConverged)) = some (#v[0], 0, true) := by
    decide +kernel
  have hd : (rootLessOne.descentAt #v[0] #v[0] .empty).1.toOption.map (fun d =>
      (d.direction, d.failure.isNone)) = some (#v[0], true) := by
    decide +kernel
  cases he : (rootLessOne.iterate #v[0]).ending with
  | escaped f => simp [Run.final, he, Except.toOption] at hrun
  | finished final =>
    simp only [Run.final, he, Except.toOption, Option.map_some, Option.some.injEq, Prod.mk.injEq] at hrun
    obtain ⟨hx, hi, hs⟩ := hrun
    have hdescent : (rootLessOne.descentAt #v[0] #v[0] .empty).1 = .ok ⟨#v[0], none⟩ := by
      cases hc : (rootLessOne.descentAt #v[0] #v[0] .empty).1 with
      | error f => simp [hc, Except.toOption] at hd
      | ok descent =>
        obtain ⟨d, failure⟩ := descent
        simp_all [Except.toOption]
    refine ⟨final, #v[0], rootLessOne.problem.residual.forward #v[0] #v[0], rfl,
      Status.hasConverged_iff.mp hs, ?_, ⟨?_, by decide +kernel, ?_⟩, ?_⟩
    · rw [hx]
      decide +kernel
    · rw [hx, hi]
      exact hdescent
    · rw [hx]
      exact ⟨_, _, _, rfl, rfl, rfl⟩
    · intro h
      have hfin := h.finite
      rw [hx] at hfin
      exact absurd hfin (by decide +kernel)

end Setup

end NewtonSolver
