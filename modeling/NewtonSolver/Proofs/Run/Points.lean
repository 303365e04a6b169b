import NewtonSolver.Proofs.Outcome
import NewtonSolver.Proofs.Run.Stages

/-! The points of a run: what is computed there, what is handed on, and how a run can end there. -/
namespace NewtonSolver.Setup

variable {R : Type} [Scalar R] {m n : Nat}

/-- The Jacobian at a point of a run from `start`, where the path is settled. -/
def jacobianFrom (S : Setup R m n) (start x : Vec R n) :
    Except Fault (JacobianPath R m n × JacobianInfo R m n) := do
  let path ← S.problem.resolvePath S.configuration start
  return (path, ← S.problem.acquire S.configuration path x (S.problem.residual.value x))

/-- The descent at a point of a run from `start`, and the cache that it leaves. -/
def descentAt (S : Setup R m n) (start x : Vec R n) (cache : LinearCache R) :
    Except (Failure R) (Descent R n) × LinearCache R :=
  match S.jacobianFrom start x with
  | .error f => (.error (.ofFault f), cache)
  | .ok (path, J) => S.direct path J (S.problem.residual.value x) cache

/-- The cache after the descents at the points, in their order. -/
def cacheAfter (S : Setup R m n) (start : Vec R n) (points : List (Vec R n)) : LinearCache R :=
  points.foldl (fun cache x => (S.descentAt start x cache).2) .empty

/-- A run from `start` has made its updates at the points `earlier`. -/
structure Reached (S : Setup R m n) (start : Vec R n) (earlier : List (Vec R n))
    (p : Progress R m n) : Prop where
  iteration : p.iteration = earlier.length
  cache : p.cache = S.cacheAfter start earlier
  path : match p.path with
    | some path => S.problem.resolvePath S.configuration start = .ok path
    | none => p.x = start

/-- A state that is seen between the evaluation of the residual and the update. -/
structure SeenAt (S : Setup R m n) (p : Progress R m n) (s : IterationState R m n) : Prop where
  x : s.x = p.x
  residual : s.residual = some (S.problem.residual.value p.x)
  iteration : s.iteration = p.iteration
  stepLength : s.stepLength = p.stepLength

/-- A heading keeps its point, and its direction is the one computed there. -/
structure HeadsFrom (S : Setup R m n) (start : Vec R n) (p : Progress R m n)
    (h : Heading R m n) : Prop where
  descent : S.descentAt start p.x p.cache = (.ok ⟨h.direction, none⟩, h.progress.cache)
  long : ¬ h.direction.norm ≤ S.limits.stepTolerance
  x : h.progress.x = p.x
  residual : h.residual = S.problem.residual.value p.x
  iteration : h.progress.iteration = p.iteration
  stepLength : h.progress.stepLength = p.stepLength
  path : ∃ path, h.progress.path = some path ∧
    S.problem.resolvePath S.configuration start = .ok path

/-- The ways in which a run can end at a point, with the tests that decide between them. -/
inductive EndsAt (S : Setup R m n) (start : Vec R n) (cache : LinearCache R)
    (s : IterationState R m n) : Prop
  | nonFinite (hs : s.status = .failed .nonFiniteResidual)
    (hf : (S.problem.residual.value s.x).allFinite = false)
  | small (hs : s.status = .converged) (hf : (S.problem.residual.value s.x).allFinite = true)
    (ht : (S.problem.residual.value s.x).maxAbs ≤ S.limits.tolerance)
  | differentiation (f : DifferentiationFailure) (hs : s.status = .failed (.differentiation f))
    (ht : ¬ (S.problem.residual.value s.x).maxAbs ≤ S.limits.tolerance)
    (hd : (S.descentAt start s.x cache).1 = .error (.differentiation f))
  | linearSolve (d : Vec R n) (f : LinearSolveFailure R) (hs : s.status = .failed (.linearSolve f))
    (ht : ¬ (S.problem.residual.value s.x).maxAbs ≤ S.limits.tolerance)
    (hd : (S.descentAt start s.x cache).1 = .ok ⟨d, some f⟩)
  | short (d : Vec R n) (hs : s.status = .converged)
    (hf : (S.problem.residual.value s.x).allFinite = true)
    (ht : ¬ (S.problem.residual.value s.x).maxAbs ≤ S.limits.tolerance)
    (hd : (S.descentAt start s.x cache).1 = .ok ⟨d, none⟩) (hn : d.norm ≤ S.limits.stepTolerance)
  | exhausted (d : Vec R n) (hs : s.status = .maxItersReached)
    (hi : s.iteration = S.limits.maxIters)
    (ht : ¬ (S.problem.residual.value s.x).maxAbs ≤ S.limits.tolerance)
    (hd : (S.descentAt start s.x cache).1 = .ok ⟨d, none⟩) (hn : ¬ d.norm ≤ S.limits.stepTolerance)
  | lineSearch (d : Vec R n) (f : LineSearchFailure R) (hs : s.status = .failed (.lineSearch f))
    (ht : ¬ (S.problem.residual.value s.x).maxAbs ≤ S.limits.tolerance)
    (hd : (S.descentAt start s.x cache).1 = .ok ⟨d, none⟩) (hn : ¬ d.norm ≤ S.limits.stepTolerance)

variable {S : Setup R m n} {start : Vec R n} {earlier : List (Vec R n)} {p q : Progress R m n}
  {v : Visit R m n} {s : IterationState R m n}

theorem EndsAt.terminal {cache : LinearCache R} (h : S.EndsAt start cache s) :
    s.status.isTerminal = true := by
  cases h <;> simp_all [Status.isTerminal]

theorem jacobianFrom_ok {x : Vec R n} {path : JacobianPath R m n} {J : JacobianInfo R m n}
    (hj : S.jacobianFrom start x = .ok (path, J)) :
    S.problem.resolvePath S.configuration start = .ok path ∧
      S.problem.acquire S.configuration path x (S.problem.residual.value x) = .ok J := by
  obtain ⟨path', hp, hj⟩ := Outcome.bind_eq_ok.mp hj
  obtain ⟨J', hJ, he⟩ := Outcome.bind_eq_ok.mp hj
  cases he
  exact ⟨hp, hJ⟩

theorem resolvePath_linearSolver {P : Problem R m n} {c : Configuration R} {x : Vec R n}
    {path : JacobianPath R m n} (h : P.resolvePath c x = .ok path) :
    path.linearSolver = c.solverFor m n := by
  unfold Problem.resolvePath at h
  split at h
  · obtain ⟨⟨materialize, source⟩, -, h⟩ := Outcome.bind_eq_ok.mp h
    cases h
    rfl
  · cases h
    rfl

/-- Products are acquired where the path has no matrix. -/
theorem acquire_operator {P : Problem R m n} {c : Configuration R} {path : JacobianPath R m n}
    {x : Vec R n} {fx : Vec R m} {op : JacobianOperator R m n}
    (h : P.acquire c path x fx = .ok (.operator op)) :
    P.operatorAt c path.needsTranspose x fx = .ok op := by
  unfold Problem.acquire at h
  split at h
  · obtain ⟨J, -, h⟩ := Outcome.bind_eq_ok.mp h
    split at h <;> cases h
  · obtain ⟨op', hop, h⟩ := Outcome.bind_eq_ok.mp h
    cases h
    exact hop

/-- Where a matrix is asked for, it is what is acquired. -/
theorem jacobianFrom_matrix {x : Vec R n} {path : JacobianPath R m n} {J : JacobianInfo R m n}
    (hconcrete : S.configuration.concrete = true) (hj : S.jacobianFrom start x = .ok (path, J)) :
    ∃ A, J = .matrix A := by
  obtain ⟨hpath, hacquire⟩ := jacobianFrom_ok hj
  rw [Problem.resolvePath, if_pos hconcrete] at hpath
  obtain ⟨⟨materialize, source⟩, -, hp⟩ := Outcome.bind_eq_ok.mp hpath
  cases hp
  obtain ⟨A, -, hA⟩ := Outcome.bind_eq_ok.mp hacquire
  split at hA <;> cases hA
  exact ⟨A, rfl⟩

theorem descentAt_of_jacobian {x : Vec R n} {cache : LinearCache R} {path : JacobianPath R m n}
    {J : JacobianInfo R m n} (hj : S.jacobianFrom start x = .ok (path, J)) :
    S.descentAt start x cache = S.direct path J (S.problem.residual.value x) cache := by
  simp [descentAt, hj]

/-- A direction at a point is the one from the Jacobian there. -/
theorem descentAt_ok {x : Vec R n} {cache : LinearCache R} {path : JacobianPath R m n}
    {J : JacobianInfo R m n} {d : Descent R n} (hj : S.jacobianFrom start x = .ok (path, J))
    (hd : (S.descentAt start x cache).1 = .ok d) : S.descentAt start x cache =
      Descent.compute S.kernels S.configuration path.linearSolver J (S.problem.residual.value x)
        cache := by
  rw [descentAt_of_jacobian hj] at hd ⊢
  exact direct_of_rows (direct_ok hd)

theorem cacheAfter_concat (x : Vec R n) :
    S.cacheAfter start (earlier ++ [x]) = (S.descentAt start x (S.cacheAfter start earlier)).2 := by
  simp [cacheAfter]

theorem reached_initial : S.Reached start [] (.initial start) := ⟨rfl, rfl, rfl⟩

theorem visit_ok (hv : S.visit p = .ok v) :
    v = ⟨p.countEvaluations 1, S.problem.residual.value p.x⟩ ∧
      (S.problem.residual.value p.x).allFinite = true ∧
      ¬ (S.problem.residual.value p.x).maxAbs ≤ S.limits.tolerance := by
  have hs := S.visits p
  rw [hv] at hs
  cases hs with
  | visited hf ht => exact ⟨rfl, hf, ht⟩

theorem visit_state (hv : S.visit p = .ok v) : S.SeenAt p v.state ∧ v.state.status = .running := by
  obtain ⟨rfl, -, -⟩ := visit_ok hv
  exact ⟨⟨rfl, rfl, rfl, rfl⟩, rfl⟩

theorem visit_finished (hv : S.visit p = .error (.finished s)) (cache : LinearCache R) :
    S.SeenAt p s ∧ S.EndsAt start cache s := by
  have hs := S.visits p
  rw [hv] at hs
  cases hs with
  | nonFinite hf => exact ⟨⟨rfl, rfl, rfl, rfl⟩, .nonFinite rfl hf⟩
  | small hf ht => exact ⟨⟨rfl, rfl, rfl, rfl⟩, .small rfl hf ht⟩

theorem jacobianAt_eq (hr : S.Reached start earlier p) (hv : S.visit p = .ok v) :
    S.jacobianAt v = S.jacobianFrom start p.x := by
  obtain ⟨rfl, -, -⟩ := visit_ok hv
  have hp := hr.path
  simp only [jacobianAt, pathAt, jacobianFrom, Progress.countEvaluations]
  cases h : p.path with
  | none => simp only [h] at hp; rw [hp]
  | some path => simp only [h] at hp; rw [hp]

/-- A run that ends while the direction is computed. -/
theorem aim_finished (hr : S.Reached start earlier p) (hv : S.visit p = .ok v)
    (ha : S.aim v = .error (.finished s)) : S.SeenAt p s ∧ S.EndsAt start p.cache s := by
  have hj := jacobianAt_eq hr hv
  obtain ⟨rfl, hf, ht⟩ := visit_ok hv
  have hs := S.aims ⟨p.countEvaluations 1, S.problem.residual.value p.x⟩
  rw [ha] at hs
  cases hs with
  | refused hd =>
    refine ⟨⟨rfl, rfl, rfl, rfl⟩, .differentiation _ rfl ht ?_⟩
    rw [hj] at hd
    simp [Progress.state, Progress.countEvaluations, descentAt, hd, Failure.ofFault]
  | productRefused hd hc =>
    refine ⟨⟨rfl, rfl, rfl, rfl⟩, .differentiation _ rfl ht ?_⟩
    exact congrArg Prod.fst ((descentAt_of_jacobian (hj ▸ hd)).trans hc)
  | @unsolved _ _ _ d _ hd hc =>
    refine ⟨⟨rfl, rfl, rfl, rfl⟩, .linearSolve d _ rfl ht ?_⟩
    exact congrArg Prod.fst ((descentAt_of_jacobian (hj ▸ hd)).trans hc)
  | @short _ _ _ d hd hc hn =>
    refine ⟨⟨rfl, rfl, rfl, rfl⟩, .short d rfl hf ht ?_ hn⟩
    exact congrArg Prod.fst ((descentAt_of_jacobian (hj ▸ hd)).trans hc)

theorem aim_ok {h : Heading R m n} (hr : S.Reached start earlier p) (hv : S.visit p = .ok v)
    (ha : S.aim v = .ok h) : S.HeadsFrom start p h := by
  have hj := jacobianAt_eq hr hv
  obtain ⟨rfl, -, -⟩ := visit_ok hv
  have hs := S.aims ⟨p.countEvaluations 1, S.problem.residual.value p.x⟩
  rw [ha] at hs
  cases hs with
  | aimed hd hc hn =>
    rw [hj] at hd
    exact ⟨(descentAt_of_jacobian hd).trans hc, hn, rfl, rfl, rfl, rfl, _, rfl, (jacobianFrom_ok hd).1⟩

/-- A run that ends with a direction for which there is no budget left. -/
theorem aim_exhausted {h : Heading R m n} (hr : S.Reached start earlier p) (hv : S.visit p = .ok v)
    (ha : S.aim v = .ok h) (hl : earlier.length = S.limits.maxIters) :
    S.SeenAt p (h.progress.state h.residual .maxItersReached) ∧
      S.EndsAt start p.cache (h.progress.state h.residual .maxItersReached) := by
  have hh := aim_ok hr hv ha
  obtain ⟨-, -, ht⟩ := visit_ok hv
  have hi : h.progress.iteration = S.limits.maxIters := by
    rw [hh.iteration, hr.iteration, hl]
  refine ⟨⟨hh.x, congrArg some hh.residual, hh.iteration, hh.stepLength⟩,
    .exhausted h.direction rfl hi ?_ ?_ hh.long⟩
  · simpa [Progress.state, hh.x] using ht
  · simpa [Progress.state, hh.x] using congrArg Prod.fst hh.descent

/-- A run that ends while the step length is selected. -/
theorem next_finished (hr : S.Reached start earlier p) (hv : S.visit p = .ok v)
    (hn : S.next v = .error (.finished s)) : S.SeenAt p s ∧ S.EndsAt start p.cache s := by
  unfold next at hn
  cases ha : S.aim v with
  | error e =>
    rw [ha] at hn
    cases hn
    exact aim_finished hr hv ha
  | ok h =>
    rw [ha] at hn
    have hh := aim_ok hr hv ha
    obtain ⟨-, -, ht⟩ := visit_ok hv
    have hs := S.advances h
    rw [show S.advance h = .error (.finished s) from hn] at hs
    cases hs with
    | stuck _ _ _ =>
      refine ⟨⟨hh.x, congrArg some hh.residual, hh.iteration, hh.stepLength⟩,
        .lineSearch h.direction _ rfl ?_ ?_ hh.long⟩
      · simpa [Progress.state, Progress.countEvaluations, hh.x] using ht
      · simpa [Progress.state, Progress.countEvaluations, hh.x] using congrArg Prod.fst hh.descent

/-- An update goes along the direction at its point by the step length that it records. -/
theorem next_ok (hr : S.Reached start earlier p) (hv : S.visit p = .ok v) (hn : S.next v = .ok q) :
    S.Reached start (earlier ++ [p.x]) q ∧
      ∃ d, (S.descentAt start p.x p.cache).1 = .ok ⟨d, none⟩ ∧ q.x = p.x + q.stepLength * d := by
  unfold next at hn
  cases ha : S.aim v with
  | error e => rw [ha] at hn; cases hn
  | ok h =>
    rw [ha] at hn
    have hh := aim_ok hr hv ha
    obtain ⟨path, hp, hpath⟩ := hh.path
    have hcache : h.progress.cache = S.cacheAfter start (earlier ++ [p.x]) := by
      rw [cacheAfter_concat, ← hr.cache, hh.descent]
    have hcount : h.progress.iteration + 1 = (earlier ++ [p.x]).length := by
      simp [hh.iteration, hr.iteration]
    have hs := S.advances h
    rw [show S.advance h = .ok q from hn] at hs
    cases hs <;>
    · refine ⟨⟨hcount, hcache, ?_⟩, h.direction, congrArg Prod.fst hh.descent, ?_⟩
      · simpa [Progress.update, Progress.countEvaluations, hp] using hpath
      · simp [Progress.update, Progress.countEvaluations, hh.x]

end NewtonSolver.Setup
