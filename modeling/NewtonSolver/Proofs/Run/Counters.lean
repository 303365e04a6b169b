import NewtonSolver.Proofs.Descent.Counting
import NewtonSolver.Proofs.LineSearch.Counting
import NewtonSolver.Proofs.Run.Endings
import NewtonSolver.Proofs.Run.Shape

/-! The counters of a run. Each of them is told by the points that the run has come to and the line
searches that it has made, in every state and at every exit. -/
namespace NewtonSolver.Setup

variable {R : Type} [Scalar R] {m n : Nat}

/-- The evaluations of the residual that the line search of a heading makes, counted one by one. -/
def meritEvaluations (S : Setup R m n) (h : Heading R m n) (slope : R) : Nat :=
  ((LineSearch.selectCounted S.configuration.lineSearch
    (.along S.problem.residual S.problem.traceable h.progress.x h.direction h.residual slope)
    (.along S.problem.residual S.problem.traceable h.progress.x h.direction)).run 0).2

/-- The line search from the point after so many updates makes this many evaluations. -/
def SearchTakes (S : Setup R m n) (start : Vec R n) (i count : Nat) : Prop :=
  ∃ h slope, S.Heads start i h ∧ h.slope S.configuration.lineSearch = .ok slope ∧
    S.meritEvaluations h slope = count

/-- The counters after so many evaluations at points of the run, when directions have been computed from
`points` and the line searches have made `searches` evaluations. -/
structure Tallies (S : Setup R m n) (start : Vec R n) (visits : Nat) (points : List (Vec R n))
    (searches : List Nat) (stats : Stats) : Prop where
  point : ∀ i x, points[i]? = some x → ∃ p, S.Arrives start i p ∧ p.x = x
  search : ∀ i count, searches[i]? = some count → S.SearchTakes start i count
  evaluations : stats.evaluations = visits + searches.sum
  jacobians : stats.jacobians = points.length
  solves : stats.solves = (S.cacheAfter start points).solves
  factorizations : stats.factorizations = (S.cacheAfter start points).factorizations

variable {S : Setup R m n} {start : Vec R n} {i visits : Nat} {p q : Progress R m n} {v : Visit R m n}
  {h h' : Heading R m n} {s final : IterationState R m n} {points : List (Vec R n)}
  {searches : List Nat} {stats : Stats}

/-- An entry of a longer list is an old one or the one that was added. -/
theorem getElem?_concat {α : Type} {xs : List α} {a b : α} (hb : (xs ++ [a])[i]? = some b) :
    xs[i]? = some b ∨ i = xs.length ∧ a = b := by
  rcases Nat.lt_trichotomy i xs.length with hi | rfl | hi
  · rw [List.getElem?_append_left hi] at hb
    exact .inl hb
  · rw [List.getElem?_concat_length] at hb
    exact .inr ⟨rfl, Option.some.inj hb⟩
  · have hlong : (xs ++ [a]).length ≤ i := by
      rw [List.length_append, List.length_singleton]
      exact hi
    rw [List.getElem?_eq_none hlong] at hb
    cases hb

theorem meritEvaluations_eq (S : Setup R m n) (h : Heading R m n) (slope : R) :
    S.meritEvaluations h slope = (S.selection h slope).evaluations := by
  rw [meritEvaluations, LineSearch.selectCounted_run (LineSearch.Evaluator.along_counts _ _ _ _ _ _)]
  exact Nat.zero_add _

theorem Heads.unique (hh : S.Heads start i h) (hh' : S.Heads start i h') : h = h' := by
  obtain ⟨p, v, ha, hv, haim⟩ := hh
  obtain ⟨p', v', ha', hv', haim'⟩ := hh'
  obtain rfl := ha.unique ha'
  obtain rfl := Except.ok.inj (hv.symm.trans hv')
  exact Except.ok.inj (haim.symm.trans haim')

theorem SearchTakes.arrives {count : Nat} (hs : S.SearchTakes start i count) :
    ∃ p, S.Arrives start i p := by
  obtain ⟨h, slope, ⟨p, v, ha, -, -⟩, -⟩ := hs
  exact ⟨p, ha⟩

theorem SearchTakes.unique {count count' : Nat} (hs : S.SearchTakes start i count)
    (hs' : S.SearchTakes start i count') : count = count' := by
  obtain ⟨h, slope, hh, hslope, rfl⟩ := hs
  obtain ⟨h', slope', hh', hslope', rfl⟩ := hs'
  obtain rfl := hh.unique hh'
  obtain rfl := Except.ok.inj (hslope.symm.trans hslope')
  rfl

/-- Full steps are taken without an evaluation. -/
theorem SearchTakes.eq_zero {count : Nat} (hs : S.SearchTakes start i count)
    (hfull : S.configuration.lineSearch.isFullStep = true) : count = 0 := by
  obtain ⟨h, slope, -, -, rfl⟩ := hs
  rw [meritEvaluations_eq, selection]
  cases hl : S.configuration.lineSearch with
  | fullStep name => rfl
  | backtracking fields => simp [hl, LineSearchStrategy.isFullStep] at hfull
  | external method => simp [hl, LineSearchStrategy.isFullStep] at hfull

theorem SearchTakes.le_maxSteps {count : Nat} (hs : S.SearchTakes start i count)
    {fields : BacktrackingFields R} (hl : S.configuration.lineSearch = .backtracking fields) {steps : Int}
    (hsteps : fields.maxSteps.wholeNumber = .ok steps) : count ≤ steps.toNat := by
  obtain ⟨h, slope, -, -, rfl⟩ := hs
  rw [meritEvaluations_eq, selection, hl]
  exact LineSearch.backtrack_le hsteps _

/-- A direction takes one linear solve, with the solver of the run. -/
theorem descentAt_counted (S : Setup R m n) (start x : Vec R n) (cache : LinearCache R) :
    Descent.Counted (S.configuration.solverFor m n).requiresMatrix cache
      (S.descentAt start x cache) := by
  unfold descentAt
  split
  · next f hf => exact .unsolved (Failure.ofFault_ne_linearSolve f)
  · next path J hj =>
    rw [← resolvePath_linearSolver (jacobianFrom_ok hj).1]
    unfold direct
    split
    · exact .unsolved nofun
    · exact Descent.compute_counted _ _ _

/-- No more factorizations than solves, and none by a solver that works with products. -/
theorem cacheAfter_counts (S : Setup R m n) (start : Vec R n) (points : List (Vec R n)) :
    (S.cacheAfter start points).solves ≤ points.length ∧
      (S.cacheAfter start points).factorizations ≤ (S.cacheAfter start points).solves ∧
      ((S.configuration.solverFor m n).requiresMatrix = false →
        (S.cacheAfter start points).factorizations = 0) := by
  induction points using List.reverseRecOn with
  | nil => exact ⟨Nat.le_refl 0, Nat.le_refl 0, fun _ => rfl⟩
  | append_singleton points x ih =>
    obtain ⟨hsolves, hle, hzero⟩ := ih
    rw [cacheAfter_concat, List.length_append, List.length_singleton]
    have hcounted := S.descentAt_counted start x (S.cacheAfter start points)
    refine ⟨?_, hcounted.factorizations_le hle, fun hno => ?_⟩
    · exact hcounted.solves_bounds.2.trans (Nat.succ_le_succ hsolves)
    · exact (hcounted.factorizations_eq hno).trans (hzero hno)

namespace Tallies

theorem factorizations_le (ht : S.Tallies start visits points searches stats) :
    stats.factorizations ≤ stats.solves := by
  rw [ht.factorizations, ht.solves]
  exact (S.cacheAfter_counts start points).2.1

theorem factorizations_eq_zero (ht : S.Tallies start visits points searches stats)
    (hno : (S.configuration.solverFor m n).requiresMatrix = false) : stats.factorizations = 0 := by
  rw [ht.factorizations]
  exact (S.cacheAfter_counts start points).2.2 hno

theorem solves_le (ht : S.Tallies start visits points searches stats) :
    stats.solves ≤ stats.jacobians := by
  rw [ht.solves, ht.jacobians]
  exact (S.cacheAfter_counts start points).1

theorem searchTakes_of_mem (ht : S.Tallies start visits points searches stats) {count : Nat}
    (hmem : count ∈ searches) : ∃ i, S.SearchTakes start i count := by
  obtain ⟨i, hi⟩ := List.mem_iff_getElem?.mp hmem
  exact ⟨i, ht.search i count hi⟩

theorem evaluations_of_fullStep (ht : S.Tallies start visits points searches stats)
    (hfull : S.configuration.lineSearch.isFullStep = true) : stats.evaluations = visits := by
  have hzero : searches.sum = 0 := by
    refine List.sum_eq_zero ?_
    intro count hmem
    obtain ⟨i, hi⟩ := ht.searchTakes_of_mem hmem
    exact hi.eq_zero hfull
  rw [ht.evaluations, hzero, Nat.add_zero]

theorem countVisit (ht : S.Tallies start visits points searches stats) :
    S.Tallies start (visits + 1) points searches { stats with evaluations := stats.evaluations + 1 } where
  point := ht.point
  search := ht.search
  evaluations := by
    rw [ht.evaluations]
    exact Nat.add_right_comm _ _ _
  jacobians := ht.jacobians
  solves := ht.solves
  factorizations := ht.factorizations

/-- The Jacobian has been acquired at the point, and the direction computed or given up. -/
theorem countDirection (ht : S.Tallies start visits points searches stats)
    (ha : S.Arrives start points.length p) {cache : LinearCache R}
    (hd : (S.descentAt start p.x (S.cacheAfter start points)).2 = cache) :
    S.Tallies start visits (points ++ [p.x]) searches
      ⟨stats.evaluations, stats.jacobians + 1, cache.solves, cache.factorizations⟩ where
  point := by
    intro i x hx
    rcases getElem?_concat hx with hx | ⟨rfl, rfl⟩
    · exact ht.point i x hx
    · exact ⟨p, ha, rfl⟩
  search := ht.search
  evaluations := ht.evaluations
  jacobians := by rw [ht.jacobians, List.length_append, List.length_singleton]
  solves := by rw [cacheAfter_concat, hd]
  factorizations := by rw [cacheAfter_concat, hd]

/-- The line search from the point has been made. -/
theorem countSearch (ht : S.Tallies start visits points searches stats) {count : Nat}
    (hs : S.SearchTakes start searches.length count) :
    S.Tallies start visits points (searches ++ [count])
      { stats with evaluations := stats.evaluations + count } where
  point := ht.point
  search := by
    intro i found hi
    rcases getElem?_concat hi with hi | ⟨rfl, rfl⟩
    · exact ht.search i found hi
    · exact hs
  evaluations := by
    rw [ht.evaluations, List.sum_append, List.sum_singleton]
    exact Nat.add_assoc _ _ _
  jacobians := ht.jacobians
  solves := ht.solves
  factorizations := ht.factorizations

end Tallies

theorem aim_stats (hv : S.visit p = .ok v) (ha : S.aim v = .ok h) : h.progress.stats =
    ⟨p.evaluations + 1, p.jacobians + 1, h.progress.cache.solves, h.progress.cache.factorizations⟩ := by
  obtain ⟨rfl, -, -⟩ := visit_ok hv
  have hs := S.aims ⟨p.countEvaluations 1, S.problem.residual.value p.x⟩
  rw [ha] at hs
  cases hs with
  | aimed hj hd ht => rfl

theorem aim_acquires (ha : S.aim v = .ok h) : ∃ path J, S.jacobianAt v = .ok (path, J) := by
  have hs := S.aims v
  rw [ha] at hs
  cases hs with
  | aimed hj _ _ => exact ⟨_, _, hj⟩

theorem advance_stats (hn : S.advance h = .ok q) : ∃ slope,
    h.slope S.configuration.lineSearch = .ok slope ∧ q.stats =
      { h.progress.stats with
        evaluations := h.progress.evaluations + S.meritEvaluations h slope } := by
  have hs := S.advances h
  rw [hn] at hs
  cases hs with
  | stepped hslope hstep => exact ⟨_, hslope, by rw [meritEvaluations_eq]; rfl⟩
  | halved hslope hstep hp => exact ⟨_, hslope, by rw [meritEvaluations_eq]; rfl⟩

/-- What has been counted when the run comes to a point: one evaluation, Jacobian, linear solve and line
search for each point before. -/
structure TalliesAt (S : Setup R m n) (start : Vec R n) (i : Nat) (p : Progress R m n)
    (points : List (Vec R n)) (searches : List Nat) : Prop where
  arrives : S.Arrives start i p
  reached : S.Reached start points p
  length_points : points.length = i
  length_searches : searches.length = i
  tallies : S.Tallies start i points searches p.stats
  solves : p.cache.solves = i

namespace TalliesAt

theorem initial : S.TalliesAt start 0 (.initial start) [] [] :=
  ⟨.start, reached_initial, rfl, rfl, ⟨nofun, nofun, rfl, rfl, rfl, rfl⟩, rfl⟩

theorem iteration (ht : S.TalliesAt start i p points searches) : p.iteration = i :=
  ht.arrives.iteration

theorem arrives_iteration (ht : S.TalliesAt start i p points searches) :
    S.Arrives start p.iteration p :=
  ht.iteration.symm ▸ ht.arrives

theorem jacobians (ht : S.TalliesAt start i p points searches) : p.jacobians = i :=
  ht.tallies.jacobians.trans ht.length_points

/-- The Jacobian is acquired, and what is computed with it leaves this cache. -/
theorem directed (ht : S.TalliesAt start i p points searches) {cache : LinearCache R}
    (hd : (S.descentAt start p.x p.cache).2 = cache) :
    S.Tallies start (i + 1) (points ++ [p.x]) searches
      ⟨p.evaluations + 1, p.jacobians + 1, cache.solves, cache.factorizations⟩ :=
  ht.tallies.countVisit.countDirection (ht.length_points ▸ ht.arrives) (ht.reached.cache ▸ hd)

theorem aimed (ht : S.TalliesAt start i p points searches) (hv : S.visit p = .ok v)
    (ha : S.aim v = .ok h) :
    S.Tallies start (i + 1) (points ++ [p.x]) searches h.progress.stats ∧
      h.progress.cache.solves = i + 1 := by
  have hd := (aim_ok ht.reached hv ha).descent
  refine ⟨aim_stats hv ha ▸ ht.directed (congrArg Prod.snd hd), ?_⟩
  have hcounted := S.descentAt_counted start p.x p.cache
  rw [hd] at hcounted
  rw [hcounted.solvesOnce_of_ok.solves, ht.solves]

theorem searched (ht : S.TalliesAt start i p points searches) (hv : S.visit p = .ok v)
    (ha : S.aim v = .ok h) {slope : R} (hs : h.slope S.configuration.lineSearch = .ok slope) :
    S.Tallies start (i + 1) (points ++ [p.x]) (searches ++ [S.meritEvaluations h slope])
      { h.progress.stats with
        evaluations := h.progress.evaluations + S.meritEvaluations h slope } := by
  refine (ht.aimed hv ha).1.countSearch ?_
  rw [ht.length_searches]
  exact ⟨h, slope, ⟨p, v, ht.arrives, hv, ha⟩, hs, rfl⟩

theorem next (ht : S.TalliesAt start i p points searches) (hb : i < S.limits.maxIters)
    (hv : S.visit p = .ok v) (hn : S.next v = .ok q) :
    ∃ count, S.TalliesAt start (i + 1) q (points ++ [p.x]) (searches ++ [count]) := by
  obtain ⟨h, ha, hadvance⟩ := Outcome.bind_eq_ok.mp hn
  obtain ⟨slope, hslope, hstats⟩ := advance_stats hadvance
  refine ⟨S.meritEvaluations h slope, .update ht.arrives hb hv hn, (next_ok ht.reached hv hn).1, ?_, ?_,
    hstats ▸ ht.searched hv ha hslope, ?_⟩
  · simp [ht.length_points]
  · simp [ht.length_searches]
  · exact (congrArg Stats.solves hstats).trans (ht.aimed hv ha).2

end TalliesAt

theorem Arrives.tallies (ha : S.Arrives start i p) :
    ∃ points searches, S.TalliesAt start i p points searches := by
  induction ha with
  | start => exact ⟨[], [], .initial⟩
  | update ha hb hv hn ih =>
    obtain ⟨points, searches, ht⟩ := ih
    obtain ⟨count, hnext⟩ := ht.next hb hv hn
    exact ⟨_, _, hnext⟩

/-- The counters of a state: what they are made of, and what is known of the work for one point. -/
structure Counters (S : Setup R m n) (start : Vec R n) (s : IterationState R m n)
    (points : List (Vec R n)) (searches : List Nat) : Prop
    extends S.Tallies start (s.iteration + 1) points searches s.stats where
  unsearched : S.configuration.lineSearch.isFullStep = true → s.stats.evaluations = s.iteration + 1
  backtracked : ∀ fields steps, S.configuration.lineSearch = .backtracking fields →
    fields.maxSteps.wholeNumber = .ok steps → ∀ count ∈ searches, count ≤ steps.toNat
  factorizations_le : s.stats.factorizations ≤ s.stats.solves
  matrixFree : (S.configuration.solverFor m n).requiresMatrix = false → s.stats.factorizations = 0

theorem Tallies.counters (ht : S.Tallies start (s.iteration + 1) points searches s.stats) :
    S.Counters start s points searches where
  toTallies := ht
  unsearched := ht.evaluations_of_fullStep
  backtracked := by
    intro fields steps hl hsteps count hmem
    obtain ⟨i, hi⟩ := ht.searchTakes_of_mem hmem
    exact hi.le_maxSteps hl hsteps
  factorizations_le := ht.factorizations_le
  matrixFree := ht.factorizations_eq_zero

/-- The run ends at its last point before it has a Jacobian there, by the tests of the residual or because
the Jacobian is refused. -/
inductive EndsUnacquired (S : Setup R m n) (start : Vec R n) (final : IterationState R m n) : Prop
  | tested {p : Progress R m n} (ha : S.Arrives start final.iteration p)
    (hv : S.visit p = .error (.finished final)) : EndsUnacquired S start final
  | refused {p : Progress R m n} {v : Visit R m n} {f : Fault}
    (ha : S.Arrives start final.iteration p) (hv : S.visit p = .ok v)
    (hj : S.jacobianAt v = .error f) : EndsUnacquired S start final

/-- The work for the direction at the last point. Its linear solve is counted unless a product is refused
before. -/
inductive LastDirection (S : Setup R m n) (start : Vec R n) (final : IterationState R m n) : Prop
  | unacquired (h : S.EndsUnacquired start final) (jacobians : final.stats.jacobians = final.iteration)
    (solves : final.stats.solves = final.iteration) : LastDirection S start final
  | acquired (h : ¬ S.EndsUnacquired start final)
    (jacobians : final.stats.jacobians = final.iteration + 1)
    (le_solves : final.iteration ≤ final.stats.solves)
    (solves_le : final.stats.solves ≤ final.iteration + 1)
    (solves : (∀ f, final.status ≠ .failed (.differentiation f)) →
      final.stats.solves = final.iteration + 1) : LastDirection S start final

/-- The last point has a line search of its own if the run ends in it. -/
inductive LastSearch (final : IterationState R m n) (searches : List Nat) : Prop
  | unsearched (h : ∀ f, final.status ≠ .failed (.lineSearch f))
    (length : searches.length = final.iteration) : LastSearch final searches
  | stuck {f : LineSearchFailure R} (h : final.status = .failed (.lineSearch f))
    (length : searches.length = final.iteration + 1) : LastSearch final searches

/-- Nothing that the run has done is left out at its end. -/
structure Closes (S : Setup R m n) (start : Vec R n) (final : IterationState R m n)
    (searches : List Nat) : Prop where
  arrived : ∀ j q, S.Arrives start j q → j ≤ final.iteration
  searched : ∀ i count, i < S.limits.maxIters → S.SearchTakes start i count →
    searches[i]? = some count
  direction : S.LastDirection start final
  search : LastSearch final searches

/-- Searches that are all known up to a point are all there are, if there is none from there on. -/
theorem searched_of_length (hs : ∀ i count, searches[i]? = some count → S.SearchTakes start i count)
    (hnone : ∀ i count, searches.length ≤ i → i < S.limits.maxIters → ¬ S.SearchTakes start i count)
    {count : Nat} (hi : i < S.limits.maxIters) (hcount : S.SearchTakes start i count) :
    searches[i]? = some count := by
  by_cases hlength : i < searches.length
  · have hfound := List.getElem?_eq_getElem hlength
    rw [hfound, (hs i _ hfound).unique hcount]
  · exact absurd hcount (hnone i count (Nat.le_of_not_lt hlength) hi)

/-- What has been counted when a run ends at a point. -/
structure ExitsWith (S : Setup R m n) (start : Vec R n) (i : Nat) (final : IterationState R m n)
    (points : List (Vec R n)) (searches : List Nat) : Prop where
  iteration : final.iteration = i
  tallies : S.Tallies start (i + 1) points searches final.stats
  direction : S.LastDirection start final
  search : LastSearch final searches

namespace TalliesAt

theorem acquired_not_unacquired (ht : S.TalliesAt start i p points searches)
    (hi : final.iteration = i) (hv : S.visit p = .ok v) {path : JacobianPath R m n}
    {J : JacobianInfo R m n} (hj : S.jacobianAt v = .ok (path, J)) :
    ¬ S.EndsUnacquired start final := by
  rintro (⟨ha, hv'⟩ | ⟨ha, hv', hj'⟩)
  · obtain rfl := (hi ▸ ha).unique ht.arrives
    rw [hv] at hv'
    cases hv'
  · obtain rfl := (hi ▸ ha).unique ht.arrives
    obtain rfl := Except.ok.inj (hv.symm.trans hv')
    rw [hj] at hj'
    cases hj'

/-- A Jacobian that is acquired at the last point is counted, and its linear solve if it is made. -/
theorem lastDirection (ht : S.TalliesAt start i p points searches) (hi : final.iteration = i)
    (hv : S.visit p = .ok v) {path : JacobianPath R m n} {J : JacobianInfo R m n}
    (hj : S.jacobianAt v = .ok (path, J)) {searches' : List Nat}
    (htallies : S.Tallies start (i + 1) (points ++ [p.x]) searches' final.stats)
    (hsolved : (∀ f, final.status ≠ .failed (.differentiation f)) → final.stats.solves = i + 1) :
    S.LastDirection start final := by
  have hjacobians : final.stats.jacobians = i + 1 := by
    rw [htallies.jacobians, List.length_append, List.length_singleton, ht.length_points]
  have hsolves : i ≤ final.stats.solves := by
    rw [htallies.solves, cacheAfter_concat, ← ht.reached.cache]
    have hbound := (S.descentAt_counted start p.x p.cache).solves_bounds.1
    rwa [ht.solves] at hbound
  refine .acquired (ht.acquired_not_unacquired hi hv hj) ?_ ?_ ?_ ?_ <;> rw [hi]
  · exact hjacobians
  · exact hsolves
  · exact hjacobians ▸ htallies.solves_le
  · exact hsolved

theorem exits_visit (ht : S.TalliesAt start i p points searches)
    (hv : S.visit p = .error (.finished final)) : S.ExitsWith start i final points searches := by
  have hs := S.visits p
  rw [hv] at hs
  have hstats : final.stats = { p.stats with evaluations := p.stats.evaluations + 1 } := by
    cases hs <;> rfl
  have hi : final.iteration = i := by
    rw [← ht.iteration]
    cases hs <;> rfl
  refine ⟨hi, hstats ▸ ht.tallies.countVisit, .unacquired (.tested (hi ▸ ht.arrives) hv) ?_ ?_,
    .unsearched ?_ (ht.length_searches.trans hi.symm)⟩
  · rw [hstats, hi]
    exact ht.jacobians
  · rw [hstats, hi]
    exact ht.solves
  · cases hs <;> nofun

/-- The direction is given up or is too short, with the Jacobian at hand. -/
theorem exits_direction (ht : S.TalliesAt start i p points searches) (hv : S.visit p = .ok v)
    {path : JacobianPath R m n} {J : JacobianInfo R m n} (hj : S.jacobianAt v = .ok (path, J))
    {outcome : Except (Failure R) (Descent R n)} {cache : LinearCache R}
    (hd : S.direct path J v.residual v.progress.cache = (outcome, cache)) {status : Status R}
    (hstatus : ∀ f, status ≠ .failed (.lineSearch f))
    (houtcome : (∀ f, status ≠ .failed (.differentiation f)) → ∃ d, outcome = .ok d) :
    S.ExitsWith start i
      (Progress.state { v.progress.acquired path J with cache } v.residual status)
      (points ++ [p.x]) searches := by
  have hfrom := jacobianAt_eq ht.reached hv
  have hj' := hj
  rw [hfrom] at hj'
  obtain ⟨rfl, -, -⟩ := visit_ok hv
  have hdescent : S.descentAt start p.x p.cache = (outcome, cache) :=
    (descentAt_of_jacobian hj').trans hd
  have htallies := ht.directed (congrArg Prod.snd hdescent)
  refine ⟨ht.iteration, htallies, ht.lastDirection ht.iteration hv hj htallies ?_,
    .unsearched hstatus (ht.length_searches.trans ht.iteration.symm)⟩
  intro hnot
  obtain ⟨d, rfl⟩ := houtcome hnot
  have hcounted := S.descentAt_counted start p.x p.cache
  rw [hdescent] at hcounted
  exact hcounted.solvesOnce_of_ok.solves.trans (congrArg Nat.succ ht.solves)

theorem exits_aim (ht : S.TalliesAt start i p points searches) (hv : S.visit p = .ok v)
    (ha : S.aim v = .error (.finished final)) :
    ∃ points', S.ExitsWith start i final points' searches := by
  have hs := S.aims v
  rw [ha] at hs
  cases hs with
  | refused hj =>
    obtain ⟨rfl, -, -⟩ := visit_ok hv
    refine ⟨points, ht.iteration, ht.tallies.countVisit,
      .unacquired (.refused ht.arrives_iteration hv hj) ?_ ?_,
      .unsearched nofun (ht.length_searches.trans ht.iteration.symm)⟩
    · exact ht.jacobians.trans ht.iteration.symm
    · exact ht.solves.trans ht.iteration.symm
  | productRefused hj hd =>
    exact ⟨_, ht.exits_direction hv hj hd nofun fun hnot => absurd rfl (hnot _)⟩
  | unsolved hj hd => exact ⟨_, ht.exits_direction hv hj hd nofun fun _ => ⟨_, rfl⟩⟩
  | short hj hd _ => exact ⟨_, ht.exits_direction hv hj hd nofun fun _ => ⟨_, rfl⟩⟩

theorem exits_exhausted (ht : S.TalliesAt start i p points searches) (hv : S.visit p = .ok v)
    (ha : S.aim v = .ok h) : S.ExitsWith start i (h.progress.state h.residual .maxItersReached)
      (points ++ [p.x]) searches := by
  have hi : h.progress.iteration = i := (aim_ok ht.reached hv ha).iteration.trans ht.iteration
  obtain ⟨htallies, hsolves⟩ := ht.aimed hv ha
  obtain ⟨path, J, hj⟩ := aim_acquires ha
  exact ⟨hi, htallies, ht.lastDirection hi hv hj htallies fun _ => hsolves,
    .unsearched nofun (ht.length_searches.trans hi.symm)⟩

theorem exits_advance (ht : S.TalliesAt start i p points searches) (hv : S.visit p = .ok v)
    (ha : S.aim v = .ok h) (hn : S.advance h = .error (.finished final)) :
    ∃ count, S.ExitsWith start i final (points ++ [p.x]) (searches ++ [count]) := by
  have hi : h.progress.iteration = i := (aim_ok ht.reached hv ha).iteration.trans ht.iteration
  obtain ⟨path, J, hj⟩ := aim_acquires ha
  have hs := S.advances h
  rw [hn] at hs
  cases hs with
  | @stuck slope f hslope hstep hp =>
    have htallies := ht.searched hv ha hslope
    rw [meritEvaluations_eq] at htallies
    refine ⟨_, hi, htallies, ht.lastDirection hi hv hj htallies fun _ => (ht.aimed hv ha).2,
      .stuck rfl ?_⟩
    rw [List.length_append, List.length_singleton, ht.length_searches]
    exact congrArg Nat.succ hi.symm

/-- Whichever exit the run takes, the work at its last point is counted. -/
theorem exits (ht : S.TalliesAt start i p points searches) (hs : S.StopsAt i p (.finished final)) :
    ∃ points' searches', S.ExitsWith start i final points' searches' := by
  cases hs with
  | visiting hv => exact ⟨_, _, ht.exits_visit hv⟩
  | aiming hv ha =>
    obtain ⟨points', he⟩ := ht.exits_aim hv ha
    exact ⟨_, _, he⟩
  | exhausted hi hv ha => exact ⟨_, _, ht.exits_exhausted hv ha⟩
  | advancing hi hv ha hn =>
    obtain ⟨count, he⟩ := ht.exits_advance hv ha hn
    exact ⟨_, _, he⟩

end TalliesAt

/-- A search that is made at the last point is the one that ends the run. -/
theorem StopsAt.stuck_of_search (hs : S.StopsAt i p (.finished final)) (ha : S.Arrives start i p)
    (hi : i < S.limits.maxIters) {count : Nat} (hcount : S.SearchTakes start i count) :
    ∃ f, final.status = .failed (.lineSearch f) := by
  obtain ⟨h, slope, ⟨p', v, ha', hv, haim⟩, hslope, -⟩ := hcount
  obtain rfl := ha.unique ha'
  cases hs with
  | visiting hv' =>
    rw [hv] at hv'
    cases hv'
  | aiming hv' haim' =>
    obtain rfl := Except.ok.inj (hv.symm.trans hv')
    rw [haim] at haim'
    cases haim'
  | exhausted he => omega
  | advancing _ hv' haim' hn =>
    obtain rfl := Except.ok.inj (hv.symm.trans hv')
    obtain rfl := Except.ok.inj (haim.symm.trans haim')
    have hsteps := S.advances h
    rw [hn] at hsteps
    cases hsteps with
    | stuck _ _ _ => exact ⟨_, rfl⟩

theorem ExitsWith.closes (he : S.ExitsWith start i final points searches)
    (hs : S.StopsAt i p (.finished final)) (ha : S.Arrives start i p) :
    S.Closes start final searches := by
  have harrived (j : Nat) (q : Progress R m n) (hq : S.Arrives start j q) : j ≤ i :=
    ha.last (fun _ _ => hs.not_next) hq
  refine ⟨he.iteration ▸ harrived, ?_, he.direction, he.search⟩
  intro j count hj hcount
  refine searched_of_length he.tallies.search ?_ hj hcount
  intro j count hlength hj hcount
  obtain ⟨q, hq⟩ := hcount.arrives
  have hji := harrived j q hq
  cases he.search with
  | stuck _ hl =>
    rw [hl, he.iteration] at hlength
    omega
  | unsearched hnot hl =>
    rw [hl, he.iteration] at hlength
    obtain rfl : j = i := by omega
    obtain ⟨f, hf⟩ := hs.stuck_of_search ha hj hcount
    exact absurd hf (hnot f)

/-- In every run that may make updates, each counter of each state is what the work up to there adds up to:
the residual is evaluated once at each point and as often as the line searches do, a Jacobian is acquired
and a linear system solved once for each update, and the last state tells all work of the run. -/
theorem iterate_counters (hmax : 1 ≤ S.limits.maxIters) (start : Vec R n) :
    (∀ s ∈ (S.iterate start).running, ∃ points searches, S.Counters start s points searches ∧
      searches.length = s.iteration ∧ s.stats.jacobians = s.iteration ∧
        s.stats.solves = s.iteration) ∧
    ∀ final, (S.iterate start).ending = .finished final →
      ∃ points searches, S.Counters start final points searches ∧ S.Closes start final searches := by
  constructor
  · intro s hs
    obtain ⟨p, ha, rfl⟩ := (iterate_observes hmax).running s hs
    obtain ⟨points, searches, ht⟩ := ha.tallies
    exact ⟨points, searches, Tallies.counters ht.tallies.countVisit, ht.length_searches, ht.jacobians,
      ht.solves⟩
  · intro final hend
    obtain ⟨i, p, ha, hstops⟩ := iterate_stops hmax start
    rw [hend] at hstops
    obtain ⟨points, searches, ht⟩ := ha.tallies
    obtain ⟨points', searches', he⟩ := ht.exits hstops
    exact ⟨points', searches', (he.iteration ▸ he.tallies).counters, he.closes hstops ha⟩

/-- The method for the square root of two, with backtracking. -/
def rootByBacktracking : Setup Float 1 1 :=
  { rootOfTwo with
    configuration :=
      { rootOfTwo.configuration with
        lineSearch := .backtracking
          ⟨.real (Scalar.decimal 1 4), .real Scalar.half, .whole 20, .whole 2⟩ } }

theorem rootByBacktracking_counters : 1 ≤ rootByBacktracking.limits.maxIters ∧
    (∀ s ∈ (rootByBacktracking.iterate #v[1]).running, ∃ points searches,
      rootByBacktracking.Counters #v[1] s points searches ∧ searches.length = s.iteration ∧
        s.stats.jacobians = s.iteration ∧ s.stats.solves = s.iteration) ∧
    ∃ final, (rootByBacktracking.iterate #v[1]).ending = .finished final ∧
      ∃ points searches, rootByBacktracking.Counters #v[1] final points searches ∧
        rootByBacktracking.Closes #v[1] final searches := by
  obtain ⟨hrunning, hfinal⟩ := iterate_counters (S := rootByBacktracking) (by decide) #v[1]
  have hok : (rootByBacktracking.iterate #v[1]).final.isOk = true := by decide +kernel
  refine ⟨by decide, hrunning, ?_⟩
  cases he : (rootByBacktracking.iterate #v[1]).ending with
  | finished final => exact ⟨final, rfl, hfinal final he⟩
  | escaped f => simp [Run.final, he, Except.isOk, Except.toBool] at hok

end NewtonSolver.Setup
