import NewtonSolver.Run.Trace

/-! What each stage of an update can do, guards included. Later facts about runs go by these cases. -/
namespace NewtonSolver.Setup

variable {R : Type} [Scalar R] {m n : Nat}

/-- The line search of a heading whose slope is known. -/
def selection (S : Setup R m n) (h : Heading R m n) (slope : R) : LineSearch.Selection R :=
  LineSearch.select S.configuration.lineSearch <|
    .along S.problem.residual S.problem.traceable h.progress.x h.direction h.residual slope

/-- The outcomes of evaluating the residual. -/
inductive Visits (S : Setup R m n) (p : Progress R m n) : Stage R m n (Visit R m n) → Prop
  | nonFinite (hf : (S.problem.residual.value p.x).allFinite = false) :
    Visits S p <| (p.countEvaluations 1).finish (S.problem.residual.value p.x)
      (.failed .nonFiniteResidual)
  | small (hf : (S.problem.residual.value p.x).allFinite = true)
    (ht : (S.problem.residual.value p.x).maxAbs ≤ S.limits.tolerance) :
    Visits S p <| (p.countEvaluations 1).finish (S.problem.residual.value p.x) .converged
  | visited (hf : (S.problem.residual.value p.x).allFinite = true)
    (ht : ¬ (S.problem.residual.value p.x).maxAbs ≤ S.limits.tolerance) :
    Visits S p <| .ok ⟨p.countEvaluations 1, S.problem.residual.value p.x⟩

theorem visits (S : Setup R m n) (p : Progress R m n) : S.Visits p (S.visit p) := by
  by_cases hf : (S.problem.residual.value p.x).allFinite = true
  · by_cases ht : (S.problem.residual.value p.x).maxAbs ≤ S.limits.tolerance
    · simpa [visit, hf, Progress.countEvaluations, ht] using Visits.small hf ht
    · simpa [visit, hf, Progress.countEvaluations, ht] using Visits.visited hf ht
  · have hf : (S.problem.residual.value p.x).allFinite = false := by simpa using hf
    simpa [visit, hf] using Visits.nonFinite hf

section Visiting

variable {S : Setup R m n} {p : Progress R m n}
  (hf : (S.problem.residual.value p.x).allFinite = true)

include hf

theorem visit_of_small (ht : (S.problem.residual.value p.x).maxAbs ≤ S.limits.tolerance) :
    S.visit p = (p.countEvaluations 1).finish (S.problem.residual.value p.x) .converged := by
  simp [visit, Progress.countEvaluations, hf, ht]

theorem visit_of_large (ht : ¬ (S.problem.residual.value p.x).maxAbs ≤ S.limits.tolerance) :
    S.visit p = .ok ⟨p.countEvaluations 1, S.problem.residual.value p.x⟩ := by
  simp [visit, Progress.countEvaluations, hf, ht]

end Visiting

section Directing

variable {S : Setup R m n} {path : JacobianPath R m n} {J : JacobianInfo R m n} {residual : Vec R m}
  {cache : LinearCache R}

theorem direct_of_rows (h : path.lacksRows = false) : S.direct path J residual cache =
    Descent.compute S.kernels S.configuration path.linearSolver J residual cache := by
  simp [direct, h]

/-- Only a Jacobian with both axes has a direction. -/
theorem direct_ok {d : Descent R n} (h : (S.direct path J residual cache).1 = .ok d) :
    path.lacksRows = false := by
  cases hrows : path.lacksRows with
  | false => rfl
  | true => simp [direct, hrows] at h

end Directing

/-- The outcomes of acquiring the Jacobian and computing the direction. -/
inductive Aims (S : Setup R m n) (v : Visit R m n) : Stage R m n (Heading R m n) → Prop
  | refused {f : DifferentiationFailure} (hj : S.jacobianAt v = .error (.differentiation f)) :
    Aims S v <| v.progress.finish v.residual (.failed (.differentiation f))
  | unfit {misfit : Misfit} (hj : S.jacobianAt v = .error (.unfit misfit)) :
    Aims S v <| .error (.escaped (.unfit misfit))
  | productRefused {path : JacobianPath R m n} {J : JacobianInfo R m n} {cache : LinearCache R}
    {f : DifferentiationFailure} (hj : S.jacobianAt v = .ok (path, J))
    (hd : S.direct path J v.residual v.progress.cache = (.error (.differentiation f), cache)) :
    Aims S v <| Progress.finish { v.progress.acquired path J with cache } v.residual
      (.failed (.differentiation f))
  | escaped {path : JacobianPath R m n} {J : JacobianInfo R m n} {cache : LinearCache R}
    {f : Failure R} (hj : S.jacobianAt v = .ok (path, J))
    (hd : S.direct path J v.residual v.progress.cache = (.error f, cache))
    (hf : ∀ g, f ≠ .differentiation g) :
    Aims S v <| .error (.escaped f)
  | unsolved {path : JacobianPath R m n} {J : JacobianInfo R m n} {cache : LinearCache R}
    {d : Vec R n} {f : LinearSolveFailure R} (hj : S.jacobianAt v = .ok (path, J))
    (hd : S.direct path J v.residual v.progress.cache = (.ok ⟨d, some f⟩, cache)) :
    Aims S v <| Progress.finish { v.progress.acquired path J with cache } v.residual
      (.failed (.linearSolve f))
  | short {path : JacobianPath R m n} {J : JacobianInfo R m n} {cache : LinearCache R} {d : Vec R n}
    (hj : S.jacobianAt v = .ok (path, J))
    (hd : S.direct path J v.residual v.progress.cache = (.ok ⟨d, none⟩, cache))
    (ht : d.norm ≤ S.limits.stepTolerance) :
    Aims S v <| Progress.finish { v.progress.acquired path J with cache } v.residual .converged
  | aimed {path : JacobianPath R m n} {J : JacobianInfo R m n} {cache : LinearCache R} {d : Vec R n}
    (hj : S.jacobianAt v = .ok (path, J))
    (hd : S.direct path J v.residual v.progress.cache = (.ok ⟨d, none⟩, cache))
    (ht : ¬ d.norm ≤ S.limits.stepTolerance) :
    Aims S v <| .ok ⟨{ v.progress.acquired path J with cache }, v.residual, J, d⟩

theorem aims (S : Setup R m n) (v : Visit R m n) : S.Aims v (S.aim v) := by
  unfold aim
  split
  case h_1 f hj => exact .refused hj
  case h_2 misfit hj => exact .unfit hj
  case h_3 path J hj =>
    simp only [head, Progress.acquired]
    split
    case h_1 f hd => exact .productRefused hj (Prod.ext hd rfl)
    case h_2 f hf hd => exact .escaped hj (Prod.ext hd rfl) hf
    case h_3 d f hd => exact .unsolved hj (Prod.ext hd rfl)
    case h_4 d hd =>
      split
      case isTrue ht => exact .short hj (Prod.ext hd rfl) ht
      case isFalse ht => exact .aimed hj (Prod.ext hd rfl) ht

section Aiming

variable {S : Setup R m n} {v : Visit R m n} {path : JacobianPath R m n} {J : JacobianInfo R m n}
  {cache : LinearCache R} {d : Vec R n} (hj : S.jacobianAt v = .ok (path, J))
  (hd : S.direct path J v.residual v.progress.cache = (.ok ⟨d, none⟩, cache))

include hj hd

theorem aim_of_short (ht : d.norm ≤ S.limits.stepTolerance) :
    S.aim v = Progress.finish { v.progress.acquired path J with cache } v.residual .converged := by
  simp [aim, hj, head, Progress.acquired, hd, ht]

theorem aim_of_long (ht : ¬ d.norm ≤ S.limits.stepTolerance) :
    S.aim v = .ok ⟨{ v.progress.acquired path J with cache }, v.residual, J, d⟩ := by
  simp [aim, hj, head, Progress.acquired, hd, ht]

end Aiming

/-- The outcomes of selecting the step length and making the update. -/
inductive Advances (S : Setup R m n) (h : Heading R m n) : Stage R m n (Progress R m n) → Prop
  | slopeless {f : Fault} (hs : h.slope S.configuration.lineSearch = .error f) :
    Advances S h <| .error (.escaped (.ofFault f))
  | stepped {slope alpha : R} (hs : h.slope S.configuration.lineSearch = .ok slope)
    (ha : (S.selection h slope).step = .ok alpha) :
    Advances S h <| .ok <|
      (h.progress.countEvaluations (S.selection h slope).evaluations).update alpha h.direction
  | stuck {slope : R} {f : LineSearchFailure R} (hs : h.slope S.configuration.lineSearch = .ok slope)
    (ha : (S.selection h slope).step = .error (.lineSearch f)) (hp : S.configuration.policy = .fail) :
    Advances S h <| (h.progress.countEvaluations (S.selection h slope).evaluations).finish h.residual
      (.failed (.lineSearch f))
  | halved {slope : R} {f : LineSearchFailure R} (hs : h.slope S.configuration.lineSearch = .ok slope)
    (ha : (S.selection h slope).step = .error (.lineSearch f))
    (hp : S.configuration.policy = .halve) :
    Advances S h <| .ok <|
      (h.progress.countEvaluations (S.selection h slope).evaluations).update
        (Scalar.half * h.progress.stepLength) h.direction
  | escaped {slope : R} {f : Failure R} (hs : h.slope S.configuration.lineSearch = .ok slope)
    (ha : (S.selection h slope).step = .error f) (hf : ∀ g, f ≠ .lineSearch g) :
    Advances S h <| .error (.escaped f)

theorem advances (S : Setup R m n) (h : Heading R m n) : S.Advances h (S.advance h) := by
  unfold advance
  split
  case h_1 f hs => exact .slopeless hs
  case h_2 slope hs =>
    dsimp only
    split
    case h_1 alpha ha => exact .stepped hs ha
    case h_2 f ha =>
      unfold recover
      split
      case h_1 hp => exact .stuck hs ha hp
      case h_2 hp => exact .halved hs ha hp
    case h_3 f hf ha => exact .escaped hs ha hf

theorem advance_of_step {S : Setup R m n} {h : Heading R m n} {slope alpha : R}
    (hs : h.slope S.configuration.lineSearch = .ok slope)
    (ha : (S.selection h slope).step = .ok alpha) :
    S.advance h = .ok ((h.progress.countEvaluations (S.selection h slope).evaluations).update alpha
      h.direction) := by
  have ha' := ha
  unfold selection at ha'
  simp [advance, hs, ha', selection]

theorem advance_of_unfound {S : Setup R m n} {h : Heading R m n} {slope : R}
    {f : LineSearchFailure R}
    (hs : h.slope S.configuration.lineSearch = .ok slope)
    (ha : (S.selection h slope).step = .error (.lineSearch f)) : S.advance h =
      S.recover h (h.progress.countEvaluations (S.selection h slope).evaluations) f := by
  have ha' := ha
  unfold selection at ha'
  simp [advance, hs, ha', selection]

theorem advance_of_escaped {S : Setup R m n} {h : Heading R m n} {slope : R} {f : Failure R}
    (hs : h.slope S.configuration.lineSearch = .ok slope)
    (ha : (S.selection h slope).step = .error f) (hf : ∀ g, f ≠ .lineSearch g) :
    S.advance h = .error (.escaped f) := by
  unfold selection at ha
  cases f with
  | lineSearch g => exact absurd rfl (hf g)
  | _ => simp [advance, hs, ha]

section Ending

variable {S : Setup R m n} {p q : Progress R m n} {v : Visit R m n} {e : Ending R m n}

theorem trace_ending_of_visit (hv : S.visit p = .error e) (updates : Nat) :
    (S.trace updates p).ending = e := by
  cases updates <;> simp [trace, hv]

/-- The directions are computed before the budget is looked at. -/
theorem trace_ending_of_aim (hv : S.visit p = .ok v) (ha : S.aim v = .error e) (updates : Nat) :
    (S.trace updates p).ending = e := by
  have hn : S.next v = .error e := by
    rw [next, ha]
    rfl
  cases updates <;> simp [trace, hv, ha, hn]

theorem trace_ending_of_next (hv : S.visit p = .ok v) (hn : S.next v = .ok q) (updates : Nat) :
    (S.trace (updates + 1) p).ending = (S.trace updates q).ending := by
  simp [trace, hv, hn, Run.cons]

end Ending

theorem iterate_eq_trace {S : Setup R m n} (hmax : 1 ≤ S.limits.maxIters) (start : Vec R n) :
    S.iterate start = S.trace S.limits.maxIters (.initial start) := by
  have hne : S.limits.maxIters ≠ 0 := by omega
  rw [iterate, if_neg hne]

end NewtonSolver.Setup
