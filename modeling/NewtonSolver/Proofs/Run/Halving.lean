import NewtonSolver.Proofs.Factor.Threshold
import NewtonSolver.Proofs.LineSearch.Backtracking
import NewtonSolver.Proofs.Run.Affine
import NewtonSolver.Proofs.Run.Endings

/-! Runs that go on with half the step where a line search fails. No line search ends them, and a step
length is the one that was selected last, halved once for each search that has failed since. -/
namespace NewtonSolver

open ExactScalar

namespace LineSearch

variable {R : Type} [ExactScalar R] {merit : Merit R} {alpha : R} {phi : ℝ}

/-- With fields that were looked at, backtracking gives positive step lengths only. -/
theorem backtrack_pos {fields : BacktrackingFields R}
    (hv : (LineSearchStrategy.backtracking fields).validate = .ok ())
    (hphi : real? merit.valueAtZero = some phi) (h : (backtrack fields merit).step = .ok alpha) :
    ∃ a, real? alpha = some a ∧ 0 < a := by
  obtain ⟨s, hs, -⟩ := backtrack_finds hv hphi h
  by_cases hdescent : isDescent merit.slopeAtZero = true
  · obtain ⟨fall, hfall, hneg⟩ := isDescent_iff.mp hdescent
    have hproper := Backtracking.isProper hv hs
    obtain ⟨d, c, hvalues⟩ := hproper.exists_values
    have hselects := backtrack_selects hs hdescent
    generalize backtrack fields merit = selection at h hselects
    cases hselects with
    | taken within before enough =>
      cases h
      obtain ⟨a, ha, hpos, -⟩ := Backtracking.real?_trial hvalues
        (hproper.contraction_lt hvalues.contraction) ⟨hphi, hfall, hneg⟩ before
      exact ⟨a, ha, hpos⟩
    | exhausted before => cases h
  · simp [backtrack, hdescent] at h

/-- Whatever a procedure of the caller returns, its step is positive and finite or the search fails. -/
theorem usable_cases (step : Option R) :
    (∃ alpha a, usable step = .ok alpha ∧ real? alpha = some a ∧ 0 < a) ∨
      ∃ f, usable step = .error (.lineSearch f) := by
  cases step with
  | none => exact .inr ⟨_, rfl⟩
  | some alpha =>
    by_cases hfinite : Scalar.isFinite alpha = true
    · obtain ⟨a, ha⟩ := isFinite_iff.mp hfinite
      by_cases hle : alpha ≤ 0
      · exact .inr ⟨_, by simp [usable, hle]; rfl⟩
      · have hpos : 0 < a := not_le.mp ((le_iff ha real?_zero).not.mp hle)
        exact .inl ⟨alpha, a, by simp [usable, hfinite, hle], ha, hpos⟩
    · exact .inr ⟨_, by simp [usable, hfinite]; rfl⟩

/-- Every strategy that was looked at selects positive step lengths only. -/
theorem select_pos {strategy : LineSearchStrategy R} (hv : strategy.validate = .ok ())
    (hphi : real? merit.valueAtZero = some phi) (h : (select strategy merit).step = .ok alpha) :
    ∃ a, real? alpha = some a ∧ 0 < a := by
  cases strategy with
  | fullStep name =>
    cases h
    exact ⟨1, real?_one, one_pos⟩
  | backtracking fields => exact backtrack_pos hv hphi h
  | external method =>
    simp only [select, consult] at h
    split at h
    · rcases usable_cases (R := R) _ with ⟨beta, a, hbeta, ha, hpos⟩ | ⟨f, hf⟩
      · rw [hbeta] at h
        cases h
        exact ⟨a, ha, hpos⟩
      · rw [hf] at h
        cases h
    · cases h
    · cases h

end LineSearch

namespace Setup

section Steps

variable {R : Type} [Scalar R] {m n : Nat}

/-- The line search on the way from the point after so many updates ends so. -/
def Searches (S : Setup R m n) (start : Vec R n) (i : Nat) (outcome : Except (Failure R) R) : Prop :=
  i < S.limits.maxIters ∧ ∃ h slope, S.Heads start i h ∧
    h.slope S.configuration.lineSearch = .ok slope ∧ (S.selection h slope).step = outcome

/-- The line search there finds no step length. -/
def FailsSearch (S : Setup R m n) (start : Vec R n) (i : Nat) : Prop :=
  ∃ f, S.Searches start i (.error (.lineSearch f))

variable {S : Setup R m n} {start : Vec R n} {i : Nat} {p q : Progress R m n}

theorem recover_of_halve (hpolicy : S.configuration.policy = .halve) (h : Heading R m n)
    (p : Progress R m n) (f : LineSearchFailure R) :
    S.recover h p f = .ok (p.update (Scalar.half * p.stepLength) h.direction) := by
  rw [recover, hpolicy]

theorem Searches.arrives {alpha : R} (hs : S.Searches start i (.ok alpha)) :
    ∃ q, S.Arrives start (i + 1) q ∧ q.stepLength = alpha := by
  obtain ⟨hi, h, slope, ⟨p, v, ha, hv, haim⟩, hslope, hstep⟩ := hs
  have hnext := (next_of_aim haim).trans (advance_of_step hslope hstep)
  exact ⟨_, .update ha hi hv hnext, rfl⟩

theorem FailsSearch.arrives (hpolicy : S.configuration.policy = .halve)
    (hs : S.FailsSearch start i) : ∃ p q, S.Arrives start i p ∧ S.Arrives start (i + 1) q ∧
      q.stepLength = Scalar.half * p.stepLength := by
  obtain ⟨f, hi, h, slope, ⟨p, v, ha, hv, haim⟩, hslope, hstep⟩ := hs
  obtain ⟨earlier, -, hr⟩ := ha.reached
  have hadvance := (advance_of_unfound hslope hstep).trans (recover_of_halve hpolicy h _ f)
  refine ⟨p, _, ha, .update ha hi hv ((next_of_aim haim).trans hadvance), ?_⟩
  rw [← (aim_ok hr hv haim).stepLength]
  rfl

/-- Every update is by the step length that was selected, or by half of the one before. -/
theorem Arrives.step_cases (hq : S.Arrives start (i + 1) q) :
    S.Searches start i (.ok q.stepLength) ∨
      ∃ p, S.Arrives start i p ∧ S.FailsSearch start i ∧
        q.stepLength = Scalar.half * p.stepLength := by
  cases hq with
  | @update _ p _ v ha hi hv hn =>
    obtain ⟨h, haim, hadvance⟩ := Outcome.bind_eq_ok.mp hn
    obtain ⟨earlier, -, hr⟩ := ha.reached
    have hs := S.advances h
    rw [hadvance] at hs
    cases hs with
    | stepped hslope hstep => exact .inl ⟨hi, h, _, ⟨p, v, ha, hv, haim⟩, hslope, hstep⟩
    | halved hslope hstep hp =>
      refine .inr ⟨p, ha, ⟨_, hi, h, _, ⟨p, v, ha, hv, haim⟩, hslope, hstep⟩, ?_⟩
      rw [← (aim_ok hr hv haim).stepLength]
      rfl

/-- Only a run whose failures end it fails in a line search. -/
theorem StopsAt.policy {s : IterationState R m n} {f : LineSearchFailure R}
    (hstop : S.StopsAt i p (.finished s)) (hs : s.status = .failed (.lineSearch f)) :
    S.configuration.policy = .fail := by
  cases hstop with
  | visiting hv =>
    have hcases := S.visits p
    rw [hv] at hcases
    cases hcases <;> cases hs
  | @aiming v _ hv haim =>
    have hcases := S.aims v
    rw [haim] at hcases
    cases hcases <;> cases hs
  | exhausted hi hv haim => cases hs
  | @advancing v h _ hi hv haim hn =>
    have hcases := S.advances h
    rw [hn] at hcases
    cases hcases with
    | stuck _ _ hp => exact hp

theorem iterate_policy {s : IterationState R m n} {f : LineSearchFailure R}
    (hend : (S.iterate start).ending = .finished s) (hs : s.status = .failed (.lineSearch f)) :
    S.configuration.policy = .fail := by
  by_cases hmax : S.limits.maxIters = 0
  · rw [iterate, if_pos hmax] at hend
    cases hend
    cases hs
  · obtain ⟨i, p, -, hstop⟩ := iterate_stops (Nat.one_le_iff_ne_zero.mpr hmax) start
    rw [hend] at hstop
    exact hstop.policy hs

/-- What a procedure of the caller returns is looked at, and nothing else. -/
theorem selection_consults {label : String} {run : LineSearch.Outset R → LineSearch.Method R}
    (hmethod : S.configuration.lineSearch = .external (.callable (.lineSearch label run)))
    (h : Heading R m n) (slope : R) :
    ∃ step, (S.selection h slope).step = LineSearch.usable step := by
  rw [selection, hmethod]
  exact ⟨_, rfl⟩

/-- A state shows the step length of its point, in a run without updates as in every other. -/
theorem states_stepLength {s : IterationState R m n} (hs : s ∈ (S.iterate start).states) :
    ∃ p, S.Arrives start s.iteration p ∧ s.stepLength = p.stepLength := by
  by_cases hmax : S.limits.maxIters = 0
  · rw [iterate, if_pos hmax] at hs
    obtain rfl := List.mem_singleton.mp hs
    exact ⟨_, .start, rfl⟩
  · obtain ⟨p, ha, hseen, -⟩ :=
      (iterate_observes (Nat.one_le_iff_ne_zero.mpr hmax)).of_mem hs
    exact ⟨p, ha, hseen.stepLength⟩

end Steps

variable {R : Type} [ExactScalar R] {m n : Nat} {S : Setup R m n} {start : Vec R n} {i k : Nat}
  {p : Progress R m n} {alpha : R} {a : ℝ}

/-- The induction is on the searches that fail, each of which halves the step length. -/
theorem Arrives.halved (hpolicy : S.configuration.policy = .halve) (hp : S.Arrives start i p)
    (ha : real? p.stepLength = some a) (hfails : ∀ j < k, S.FailsSearch start (i + j)) :
    ∃ q, S.Arrives start (i + k) q ∧ real? q.stepLength = some (a / 2 ^ k) := by
  induction k with
  | zero => exact ⟨p, hp, by simpa using ha⟩
  | succ k ih =>
    obtain ⟨r, hr, hlength⟩ := ih fun j hj => hfails j (Nat.lt_succ_of_lt hj)
    obtain ⟨r', q, hr', hq, hhalf⟩ := (hfails k k.lt_succ_self).arrives hpolicy
    obtain rfl := hr.unique hr'
    have hquotient : 1 / 2 * (a / 2 ^ k) = a / 2 ^ (k + 1) := by
      field_simp
      ring
    refine ⟨q, hq, ?_⟩
    rw [hhalf, real?_mul_of real?_half hlength, hquotient]

/-- The merit function has a value at zero, because the residual at the point is finite. -/
theorem Searches.pos (hv : S.configuration.lineSearch.validate = .ok ())
    (hs : S.Searches start i (.ok alpha)) : ∃ a, real? alpha = some a ∧ 0 < a := by
  obtain ⟨-, h, slope, ⟨p, v, ha, hvisit, haim⟩, -, hstep⟩ := hs
  obtain ⟨earlier, -, hr⟩ := ha.reached
  obtain ⟨-, hfinite, -⟩ := visit_ok hvisit
  rw [← (aim_ok hr hvisit haim).residual] at hfinite
  obtain ⟨sq, -, hsq⟩ := real?_sumSquares hfinite
  exact LineSearch.select_pos hv (real?_halfSquare hsq) hstep

theorem Arrives.stepLength_pos (hv : S.configuration.lineSearch.validate = .ok ())
    (hp : S.Arrives start i p) : ∃ a, real? p.stepLength = some a ∧ 0 < a := by
  induction i generalizing p with
  | zero =>
    cases hp
    exact ⟨1, real?_one, one_pos⟩
  | succ i ih =>
    rcases hp.step_cases with hs | ⟨q, hq, -, hhalf⟩
    · exact hs.pos hv
    · obtain ⟨a, ha, hpos⟩ := ih hq
      rw [hhalf]
      exact ⟨1 / 2 * a, real?_mul_of real?_half ha, by positivity⟩

/-- What a run promises that halves the step where a line search fails. -/
structure HalvesSteps (S : Setup R m n) (start : Vec R n) : Prop where
  ending : ∀ s f, (S.iterate start).ending = .finished s → s.status ≠ .failed (.lineSearch f)
  goesOn : ∀ i, S.FailsSearch start i → ∃ q, S.Arrives start (i + 1) q
  searched : ∀ i q, S.Arrives start (i + 1) q →
    (∃ alpha, S.Searches start i (.ok alpha)) ∨ S.FailsSearch start i
  /-- A procedure of the caller may return anything. -/
  consulted : ∀ label run, S.configuration.lineSearch = .external (.callable (.lineSearch label run)) →
    ∀ i h slope, i < S.limits.maxIters → S.Heads start i h →
      h.slope S.configuration.lineSearch = .ok slope →
        (∃ alpha, S.Searches start i (.ok alpha)) ∨ S.FailsSearch start i
  selected : ∀ i alpha, S.Searches start i (.ok alpha) →
    ∃ q, S.Arrives start (i + 1) q ∧ q.stepLength = alpha
  fromStart : ∀ k, (∀ j < k, S.FailsSearch start j) →
    ∃ q, S.Arrives start k q ∧ real? q.stepLength = some (1 / 2 ^ k)
  fromStep : ∀ i k alpha a, S.Searches start i (.ok alpha) → real? alpha = some a →
    (∀ j < k, S.FailsSearch start (i + 1 + j)) →
      ∃ q, S.Arrives start (i + 1 + k) q ∧ real? q.stepLength = some (a / 2 ^ k)
  seen : ∀ s ∈ (S.iterate start).states, ∃ p, S.Arrives start s.iteration p ∧
    s.stepLength = p.stepLength
  /-- The builder looks at the line search, and backtracking needs its parts to be between the bounds. -/
  positive : S.configuration.lineSearch.validate = .ok () →
    (∀ i alpha, S.Searches start i (.ok alpha) → ∃ a, real? alpha = some a ∧ 0 < a) ∧
      ∀ s ∈ (S.iterate start).states, 0 < s.stepLength

theorem iterate_halvesSteps (hpolicy : S.configuration.policy = .halve) (start : Vec R n) :
    S.HalvesSteps start := by
  constructor
  case ending =>
    intro s f hend hs
    exact absurd (hpolicy.symm.trans (iterate_policy hend hs)) (by decide)
  case goesOn =>
    intro i hs
    obtain ⟨-, q, -, hq, -⟩ := hs.arrives hpolicy
    exact ⟨q, hq⟩
  case searched =>
    intro i q hq
    rcases hq.step_cases with hs | ⟨-, -, hs, -⟩
    · exact .inl ⟨_, hs⟩
    · exact .inr hs
  case consulted =>
    intro label run hmethod i h slope hi hh hslope
    obtain ⟨step, hstep⟩ := selection_consults hmethod h slope
    rcases LineSearch.usable_cases step with ⟨alpha, -, halpha, -⟩ | ⟨f, hf⟩
    · exact .inl ⟨alpha, hi, h, slope, hh, hslope, hstep.trans halpha⟩
    · exact .inr ⟨f, hi, h, slope, hh, hslope, hstep.trans hf⟩
  case selected => exact fun i alpha hs => hs.arrives
  case fromStart =>
    intro k hfails
    have hstart : S.Arrives start 0 (.initial start) := .start
    simpa using hstart.halved hpolicy real?_one (by simpa using hfails)
  case fromStep =>
    intro i k alpha a hs ha hfails
    obtain ⟨p, hp, hlength⟩ := hs.arrives
    exact hp.halved hpolicy (hlength ▸ ha) hfails
  case seen => exact fun s hs => states_stepLength hs
  case positive =>
    intro hv
    refine ⟨fun i alpha hs => hs.pos hv, ?_⟩
    intro s hs
    obtain ⟨p, hp, hlength⟩ := states_stepLength hs
    obtain ⟨a, ha, hpos⟩ := hp.stepLength_pos hv
    rw [hlength]
    exact (lt_iff real?_zero ha).mpr hpos

/-- The equations that contradict each other, with a procedure that returns no step. -/
noncomputable def stepless : Setup ℝ 2 1 :=
  { overdetermined with
    configuration :=
      { overdetermined.configuration with
        lineSearch := .external (.callable (.lineSearch "stepless" fun _ => .done none))
        policy := .halve } }

theorem overdetermined_residual (i : Fin 2) :
    (overdetermined.problem.residual.value #v[5]).get i = 5 - (i.val : ℝ) := by
  have hproduct : ((Mat.ofFn fun _ _ => 1 : Mat ℝ 2 1).mulVec #v[5]).get i = 5 := by
    rw [Exact.mulVec_get]
    simp [Vector.get]
  rw [overdetermined_isAffine.value, Vec.get_sub, hproduct, Vector.get_eq_getElem]
  simp

theorem overdetermined_large : ¬ (overdetermined.problem.residual.value #v[5]).maxAbs ≤
    overdetermined.limits.tolerance := by
  intro hle
  have hfirst := (Exact.abs_le_maxAbs _ (0 : Fin 2)).trans hle
  have htolerance : overdetermined.limits.tolerance = ((1 : ℕ) : ℝ) / 10 ^ 2 := rfl
  rw [overdetermined_residual, htolerance] at hfirst
  norm_num at hfirst

theorem overdetermined_long {d : Vec ℝ 1} (hd : (Mat.ofFn fun _ _ => 1 : Mat ℝ 2 1).SolvesNormal
    (-overdetermined.problem.residual.value #v[5]) d) :
    ¬ d.norm ≤ overdetermined.limits.stepTolerance := by
  intro hle
  have hzero : d = 0 := Exact.sumSquares_eq_zero.mp
    (le_antisymm (Real.sqrt_eq_zero'.mp (le_antisymm hle (Real.sqrt_nonneg _)))
      (Exact.sumSquares_nonneg _))
  have hsum := congrArg (·.get 0) hd.vecMul_direction
  norm_num [hzero, Exact.vecMul_get, overdetermined_residual, Exact.mulVec_zero] at hsum

/-- The residual and the direction are both too long for the run to converge. -/
theorem stepless_heads :
    ∃ h, stepless.Heads #v[5] 0 h ∧ h.jacobian = .matrix (.ofFn fun _ _ => 1) := by
  have h := overdetermined_stepsExactly #v[5]
  obtain ⟨f, name, hsolver, hexact⟩ := h.solver
  obtain ⟨solve, shared, hrep⟩ := Descent.exists_repeats h.independent hexact
  obtain ⟨path, hj, hrows⟩ := h.jacobian #v[5]
  have hv := visit_of_large (S := stepless) (p := .initial #v[5]) (Exact.allFinite_vec _)
    overdetermined_large
  obtain ⟨cache, hd, -⟩ :=
    hrep.compute_ok hrep.empty (overdetermined.problem.residual.value #v[5])
  rw [← hsolver, ← resolvePath_linearSolver (jacobianFrom_ok hj).1] at hd
  replace hd := (direct_of_rows (S := overdetermined) hrows).trans hd
  have hjacobian : stepless.jacobianAt _ = _ := (jacobianAt_eq reached_initial hv).trans hj
  have hlong := overdetermined_long (hrep.normal _)
  exact ⟨_, ⟨_, _, .start, hv, aim_of_long hjacobian hd hlong⟩, rfl⟩

theorem stepless_halvesSteps : stepless.configuration.policy = .halve ∧
    stepless.configuration.lineSearch.validate = .ok () ∧ stepless.HalvesSteps #v[5] ∧
      ∃ q, stepless.Arrives #v[5] 1 q ∧ q.stepLength = 1 / 2 := by
  have hsteps := iterate_halvesSteps (S := stepless) rfl #v[5]
  obtain ⟨h, hh, hj⟩ := stepless_heads
  have hslope : h.slope stepless.configuration.lineSearch =
      .ok (Vec.dot h.residual ((Mat.ofFn fun _ _ => 1).mulVec h.direction)) := by
    simp [Heading.slope, hj, JacobianInfo.apply, stepless, LineSearchStrategy.isFullStep]
  have hfails : stepless.FailsSearch #v[5] 0 := ⟨.noStep, one_pos, h, _, hh, hslope, rfl⟩
  obtain ⟨q, hq, hlength⟩ := hsteps.fromStart 1 fun j hj => by
    obtain rfl : j = 0 := by omega
    exact hfails
  exact ⟨rfl, rfl, hsteps, q, hq, by simpa [ExactScalar.real?] using hlength⟩

end Setup

end NewtonSolver
