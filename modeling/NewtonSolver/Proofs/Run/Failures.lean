import NewtonSolver.Proofs.Configuration
import NewtonSolver.Proofs.Descent.Failures
import NewtonSolver.Proofs.LinearSolver.Acceptance
import NewtonSolver.Proofs.Run.Endings

/-! Failures and the states that tell them. Every failure that comes up in a run is told by its final
state, or recovered from, unless products that were never tried on the direction refuse the slope. -/
namespace NewtonSolver

variable {R : Type} [Scalar R] {m n : Nat}

/-- The kinds of failure that a run has to answer for. -/
def Failure.isOfSolver : Failure R → Bool
  | .differentiation _ | .linearSolve _ | .lineSearch _ => true
  | _ => false

/-- The failure that leaves a run. -/
def Ending.failure? : Ending R m n → Option (Failure R)
  | .escaped f => some f
  | .finished _ => none

/-- The run has failed, with a reason that has the words of the failure in it. -/
def Status.Tells [Written R] (s : Status R) (f : Failure R) : Prop :=
  ∃ reason label text, s = .failed reason ∧ f.message? = some text ∧ reason.message = label ++ text

namespace Status

variable [Written R]

omit [Scalar R] in
theorem tells_differentiation (f : DifferentiationFailure) :
    (failed (.differentiation f) : Status R).Tells (.differentiation f) :=
  ⟨_, _, _, rfl, rfl, rfl⟩

omit [Scalar R] in
theorem tells_linearSolve (f : LinearSolveFailure R) :
    (failed (.linearSolve f)).Tells (.linearSolve f) :=
  ⟨_, _, _, rfl, rfl, rfl⟩

omit [Scalar R] in
theorem tells_lineSearch (f : LineSearchFailure R) :
    (failed (.lineSearch f)).Tells (.lineSearch f) :=
  ⟨_, _, _, rfl, rfl, rfl⟩

end Status

namespace Setup

/-- The failures that come up at the point that a run comes to after `i` updates: when the Jacobian is
acquired, when it is multiplied or solved with for the direction, and on the way to the next point when
it is multiplied for the slope and when a step length is selected. -/
inductive Raises (S : Setup R m n) (start : Vec R n) : Nat → Failure R → Prop
  | acquiring {i : Nat} {p : Progress R m n} {v : Visit R m n} {f : DifferentiationFailure}
    (ha : S.Arrives start i p) (hv : S.visit p = .ok v)
    (hj : S.jacobianAt v = .error (.differentiation f)) : Raises S start i (.differentiation f)
  | directing {i : Nat} {p : Progress R m n} {v : Visit R m n} {path : JacobianPath R m n}
    {J : JacobianInfo R m n} {f : DifferentiationFailure} (ha : S.Arrives start i p)
    (hv : S.visit p = .ok v) (hj : S.jacobianAt v = .ok (path, J))
    (hd : S.descentWith v path J = .error (.differentiation f)) :
    Raises S start i (.differentiation f)
  | solving {i : Nat} {p : Progress R m n} {v : Visit R m n} {path : JacobianPath R m n}
    {J : JacobianInfo R m n} {d : Vec R n} {f : LinearSolveFailure R} (ha : S.Arrives start i p)
    (hv : S.visit p = .ok v) (hj : S.jacobianAt v = .ok (path, J))
    (hd : S.descentWith v path J = .ok ⟨d, some f⟩) : Raises S start i (.linearSolve f)
  | sloping {i : Nat} {h : Heading R m n} {f : DifferentiationFailure} (hi : i < S.limits.maxIters)
    (hh : S.Heads start i h)
    (hs : h.slope S.configuration.lineSearch = .error (.differentiation f)) :
    Raises S start i (.differentiation f)
  | searching {i : Nat} {h : Heading R m n} {slope : R} {f : LineSearchFailure R}
    (hi : i < S.limits.maxIters) (hh : S.Heads start i h)
    (hs : h.slope S.configuration.lineSearch = .ok slope)
    (hstep : (S.selection h slope).step = .error (.lineSearch f)) :
    Raises S start i (.lineSearch f)

/-- The final state tells the failure, or the run goes on from a line search that failed. -/
inductive Answers [Written R] (S : Setup R m n) (start : Vec R n) (i : Nat) : Failure R → Prop
  | told {s : IterationState R m n} {f : Failure R}
    (hend : (S.iterate start).ending = .finished s) (hs : s.status.Tells f) : Answers S start i f
  | halved {q : Progress R m n} (f : LineSearchFailure R) (hp : S.configuration.policy = .halve)
    (hq : S.Arrives start (i + 1) q) : Answers S start i (.lineSearch f)

/-- No failure of the kinds above leaves the run, and each one that comes up is answered for. -/
structure TellsFailures [Written R] (S : Setup R m n) (start : Vec R n) : Prop where
  contained : ∀ f, (S.iterate start).ending = .escaped f → f.isOfSolver = false
  answered : 1 ≤ S.limits.maxIters → ∀ i f, S.Raises start i f → S.Answers start i f

/-- Somewhere the Jacobian cannot be multiplied for the slope. -/
def RefusesSlope (S : Setup R m n) (start : Vec R n) : Prop :=
  ∃ i h f, i < S.limits.maxIters ∧ S.Heads start i h ∧
    h.slope S.configuration.lineSearch = .error (.differentiation f)

variable {S : Setup R m n} {start : Vec R n} {i : Nat} {p : Progress R m n} {v : Visit R m n}
  {path : JacobianPath R m n} {J : JacobianInfo R m n} {h : Heading R m n}

section Stages

theorem aim_of_refused {f : DifferentiationFailure}
    (hj : S.jacobianAt v = .error (.differentiation f)) :
    ∃ s, S.aim v = .error (.finished s) ∧ s.status = .failed (.differentiation f) :=
  ⟨v.progress.state v.residual _, by simp [aim, hj, Progress.finish], rfl⟩

theorem aim_of_productRefused {f : DifferentiationFailure} (hj : S.jacobianAt v = .ok (path, J))
    (hd : S.descentWith v path J = .error (.differentiation f)) :
    ∃ s, S.aim v = .error (.finished s) ∧ s.status = .failed (.differentiation f) := by
  obtain ⟨cache, hc⟩ : ∃ cache, S.direct path J v.residual v.progress.cache =
      (.error (.differentiation f), cache) := ⟨_, Prod.ext hd rfl⟩
  exact ⟨Progress.state { v.progress.acquired path J with cache } v.residual _,
    by simp [aim, hj, head, Progress.acquired, hc, Progress.finish], rfl⟩

theorem aim_of_unsolved {d : Vec R n} {f : LinearSolveFailure R}
    (hj : S.jacobianAt v = .ok (path, J)) (hd : S.descentWith v path J = .ok ⟨d, some f⟩) :
    ∃ s, S.aim v = .error (.finished s) ∧ s.status = .failed (.linearSolve f) := by
  obtain ⟨cache, hc⟩ : ∃ cache, S.direct path J v.residual v.progress.cache =
      (.ok ⟨d, some f⟩, cache) := ⟨_, Prod.ext hd rfl⟩
  exact ⟨Progress.state { v.progress.acquired path J with cache } v.residual _,
    by simp [aim, hj, head, Progress.acquired, hc, Progress.finish], rfl⟩

variable {slope : R} {f : LineSearchFailure R} (hs : h.slope S.configuration.lineSearch = .ok slope)
  (hstep : (S.selection h slope).step = .error (.lineSearch f))

include hs hstep

theorem advance_of_stuck (hp : S.configuration.policy = .fail) :
    ∃ s, S.advance h = .error (.finished s) ∧ s.status = .failed (.lineSearch f) := by
  unfold selection at hstep
  exact ⟨Progress.state (h.progress.countEvaluations (S.selection h slope).evaluations) h.residual _,
    by simp [advance, hs, hstep, recover, hp, Progress.finish, selection], rfl⟩

theorem advance_of_halved (hp : S.configuration.policy = .halve) : ∃ q, S.advance h = .ok q := by
  unfold selection at hstep
  exact ⟨_, by simp only [advance, hs, hstep, recover, hp]; rfl⟩

end Stages

theorem operatorAt_traceable {P : Problem R m n} {c : Configuration R} {needsTranspose : Bool}
    {x : Vec R n} {fx : Vec R m} {op : JacobianOperator R m n}
    (h : P.operatorAt c needsTranspose x fx = .ok op) : op.traceable = P.traceable := by
  obtain ⟨apply, -, h⟩ := Outcome.bind_eq_ok.mp h
  obtain ⟨known, -, h⟩ := Outcome.bind_eq_ok.mp h
  split at h
  · cases h
    rfl
  · split at h <;> cases h
    rfl

/-- Matrices can always be multiplied, and products that may be called have been tried on the direction
by the time it is accepted. -/
theorem Heads.apply_ok (hh : S.Heads start i h)
    (hJ : S.problem.traceable = true ∨ S.configuration.concrete = true) :
    ∃ image, h.jacobian.apply h.direction = .ok image := by
  obtain ⟨p, v, ha, hv, haim⟩ := hh
  obtain ⟨earlier, -, hr⟩ := ha.reached
  have hs := S.aims v
  rw [haim] at hs
  cases hs with
  | @aimed path J cache d hj hd hlong =>
    rw [jacobianAt_eq hr hv] at hj
    rcases hJ with htrace | hconcrete
    · cases J with
      | matrix A => exact ⟨_, rfl⟩
      | operator op =>
        have ht : op.traceable = true :=
          (operatorAt_traceable (acquire_operator (jacobianFrom_ok hj).2)).trans htrace
        have hd' := congrArg Prod.fst hd
        rw [direct_of_rows (direct_ok hd')] at hd'
        exact Descent.compute_operator_ok ht hd'
    · obtain ⟨A, rfl⟩ := jacobianFrom_matrix hconcrete hj
      exact ⟨_, rfl⟩

theorem RefusesSlope.conditions (hslope : S.RefusesSlope start) :
    S.problem.traceable = false ∧ S.configuration.concrete = false ∧
      S.configuration.lineSearch.isFullStep = false := by
  obtain ⟨i, h, f, -, hh, hs⟩ := hslope
  have happly (hJ : S.problem.traceable = true ∨ S.configuration.concrete = true) : False := by
    obtain ⟨image, hi⟩ := hh.apply_ok hJ
    unfold Heading.slope at hs
    split at hs
    · cases hs
    · rw [hi] at hs
      cases hs
  refine ⟨?_, ?_, ?_⟩
  · simpa using fun ht => happly (.inl ht)
  · simpa using fun hc => happly (.inr hc)
  · rw [← Bool.not_eq_true]
    intro hfull
    rw [Heading.slope, if_pos hfull] at hs
    cases hs

theorem RefusesSlope.escapes (hslope : S.RefusesSlope start) :
    ∃ f, (S.iterate start).ending = .escaped (.differentiation f) := by
  obtain ⟨i, h, f, hi, ⟨p, v, ha, hv, haim⟩, hs⟩ := hslope
  have hn : S.advance h = .error (.escaped (.differentiation f)) := by
    simp [advance, hs, Failure.ofFault]
  exact ⟨f, iterate_ending ha (.advancing hi hv haim hn) (by omega)⟩

/-- The only failure that leaves a run is that of the slope. -/
theorem iterate_contained (hslope : ¬ S.RefusesSlope start) (f : Failure R)
    (hend : (S.iterate start).ending = .escaped f) : f.isOfSolver = false := by
  cases iterate_escaped hend with
  | acquiring hj => rfl
  | @directing v path J _ ha hd hne =>
    have hfails : Outcome.FailsOnly (fun f => Failure.InSolve True f ∧ ∀ g, f ≠ .linearSolve g)
        (S.descentWith v path J) :=
      descentWith_failsOnly (.inl trivial) (.inl trivial) v
    obtain ⟨hin, hne'⟩ := hfails f hd
    cases hin with
    | fault f =>
      cases f with
      | differentiation g => exact absurd rfl (hne g)
      | unfit => rfl
    | linearSolve g => exact absurd rfl (hne' g)
    | configuration _ g => rfl
  | @sloping j h f hi hh hs =>
    cases f with
    | differentiation g => exact absurd ⟨j, h, g, hi, hh, hs⟩ hslope
    | unfit => rfl
  | searching hh hs hstep hne =>
    rcases LineSearch.select_failsOnly _ _ f hstep with ⟨misfit, rfl⟩ | ⟨g, rfl⟩
    · rfl
    · exact absurd rfl (hne g)

variable [Written R]

/-- Every failure but that of the slope is answered for. -/
theorem Raises.answered (hslope : ¬ S.RefusesSlope start) (hmax : 1 ≤ S.limits.maxIters)
    {f : Failure R} (hr : S.Raises start i f) : S.Answers start i f := by
  cases hr with
  | acquiring ha hv hj =>
    obtain ⟨s, haim, hs⟩ := aim_of_refused hj
    exact .told (iterate_ending ha (.aiming hv haim) hmax) (hs ▸ Status.tells_differentiation _)
  | directing ha hv hj hd =>
    obtain ⟨s, haim, hs⟩ := aim_of_productRefused hj hd
    exact .told (iterate_ending ha (.aiming hv haim) hmax) (hs ▸ Status.tells_differentiation _)
  | solving ha hv hj hd =>
    obtain ⟨s, haim, hs⟩ := aim_of_unsolved hj hd
    exact .told (iterate_ending ha (.aiming hv haim) hmax) (hs ▸ Status.tells_linearSolve _)
  | sloping hi hh hs => exact absurd ⟨i, _, _, hi, hh, hs⟩ hslope
  | searching hi hh hs hstep =>
    obtain ⟨p, v, ha, hv, haim⟩ := hh
    cases hp : S.configuration.policy with
    | fail =>
      obtain ⟨s, hn, hstatus⟩ := advance_of_stuck hs hstep hp
      exact .told (iterate_ending ha (.advancing hi hv haim hn) hmax)
        (hstatus ▸ Status.tells_lineSearch _)
    | halve =>
      obtain ⟨q, hq⟩ := advance_of_halved hs hstep hp
      exact .halved _ hp (.update ha hi hv ((next_of_aim haim).trans hq))

/-- A run answers for all its failures exactly if no product refuses the slope. Only products that were
made a matrix before can do that, with a search that asks for the slope. -/
theorem tellsFailures_iff : (S.TellsFailures start ↔ ¬ S.RefusesSlope start) ∧
    (S.RefusesSlope start → S.problem.traceable = false ∧ S.configuration.concrete = false ∧
      S.configuration.lineSearch.isFullStep = false) := by
  refine ⟨⟨?_, ?_⟩, RefusesSlope.conditions⟩
  · intro htells hslope
    obtain ⟨f, hend⟩ := hslope.escapes
    cases htells.contained _ hend
  · intro hslope
    exact ⟨iterate_contained hslope, fun hmax i f hr => hr.answered hslope hmax⟩

/-- One equation whose product is known along the unknown only, as it is needed for a matrix. -/
def partialProduct : Setup Float 1 1 where
  kernels := .standard
  problem :=
    { residual := .affine #v[#v[1]] #v[2]
      jacobian := none
      products := some fun _ v =>
        if v.same #v[1] then .ok v else .error (.differentiation (.reported "no product"))
      transposedProducts := none
      sparsity := none
      traceable := false }
  configuration :=
    { needsMatrix := some false
      kind := .newton
      linearSolver := none
      preconditioner := none
      lineSearch :=
        .backtracking ⟨.real (Scalar.decimal 1 4), .real (Scalar.decimal 5 1), .whole 20, .whole 2⟩
      jacobianBackend := none
      transposedBackend := none
      policy := .fail }
  limits := ⟨100, Scalar.decimal 1 8, Scalar.decimal 1 8⟩

/-- The options that ask for products and for a search. -/
def partialProductOptions : Options Float :=
  { Options.defaults with
    concrete := .flag false
    lineSearch := Tag.backtrackingLineSearch.setting fun _ => none }

theorem partialProduct_build : partialProductOptions.build (.text "newton") =
    .ok ⟨partialProduct.configuration, []⟩ := by
  have hsearch : partialProductOptions.strategy =
      .ok (partialProduct.configuration.lineSearch, []) :=
    Outcome.bind_eq_ok.mpr ⟨_, LineSearchStrategy.recognize_defaults
      (congrArg Except.ok (by decide +kernel)) (congrArg Except.ok (by decide +kernel))
      (congrArg Except.ok (by decide +kernel)), rfl⟩
  simp only [Options.build, hsearch]
  rfl

/-- The direction is found from the matrix of products, and then the product along it is refused. -/
theorem partialProduct_escapes :
    partialProductOptions.build (.text "newton") = .ok ⟨partialProduct.configuration, []⟩ ∧
      ¬ partialProduct.TellsFailures #v[0] := by
  refine ⟨partialProduct_build, ?_⟩
  intro htells
  have hrun : (partialProduct.iterate #v[0]).ending.failure?.any Failure.isOfSolver = true := by
    decide +kernel
  cases hend : (partialProduct.iterate #v[0]).ending with
  | finished s => simp [hend, Ending.failure?] at hrun
  | escaped f => simp [hend, Ending.failure?, htells.contained f hend] at hrun

end Setup

end NewtonSolver
