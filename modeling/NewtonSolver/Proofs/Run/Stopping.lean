import NewtonSolver.Proofs.Arithmetic.Order
import NewtonSolver.Proofs.Run.Arrival
import NewtonSolver.Proofs.Run.Shape

/-! Limits decide only where a run stops: under other limits it goes through the same points. -/
namespace NewtonSolver.Setup

variable {R : Type} [Scalar R] {m n : Nat}

/-- The same method for the same problem, with other limits. -/
def within (S : Setup R m n) (limits : RunLimits R) : Setup R m n := { S with limits }

variable {S : Setup R m n} {L L' : RunLimits R} {start : Vec R n} {i updates updates' : Nat}
  {p q q' : Progress R m n} {v v' : Visit R m n} {h h' : Heading R m n}
  {final : IterationState R m n}

/-- A direction that both limits let through is the same one. -/
theorem within_aim_unique (ha : (S.within L).aim v = .ok h) (ha' : (S.within L').aim v = .ok h') :
    h = h' := by
  have hs := (S.within L).aims v
  have hs' := (S.within L').aims v
  rw [ha] at hs
  rw [ha'] at hs'
  cases hs with
  | aimed hj hd _ =>
    cases hs' with
    | aimed hj' hd' _ =>
      obtain ⟨rfl, rfl⟩ := Prod.mk.inj (Except.ok.inj (hj.symm.trans hj'))
      cases hd.symm.trans hd'
      rfl

/-- What an update leaves of the work for its direction. -/
theorem next_work (hn : S.next v = .ok q) : ∃ h, S.aim v = .ok h ∧
    q.jacobians = h.progress.jacobians ∧ q.cache = h.progress.cache := by
  obtain ⟨h, ha, hadvance⟩ := Outcome.bind_eq_ok.mp hn
  have hs := S.advances h
  rw [hadvance] at hs
  cases hs with
  | stepped hslope hstep => exact ⟨h, ha, rfl, rfl⟩
  | halved hslope hstep hp => exact ⟨h, ha, rfl, rfl⟩

theorem within_next_unique (hn : (S.within L).next v = .ok q) (hn' : (S.within L').next v = .ok q') :
    q = q' := by
  obtain ⟨h, ha, hq⟩ := Outcome.bind_eq_ok.mp hn
  obtain ⟨h', ha', hq'⟩ := Outcome.bind_eq_ok.mp hn'
  obtain rfl := within_aim_unique ha ha'
  exact Except.ok.inj (hq.symm.trans hq')

/-- Points with the same number of updates before them are the same. -/
theorem within_arrives_unique (ha : (S.within L).Arrives start i p)
    (ha' : (S.within L').Arrives start i q) : p = q := by
  induction ha generalizing q with
  | start =>
    cases ha'
    rfl
  | update _ _ hv hn ih =>
    cases ha' with
    | update ha' _ hv' hn' =>
      obtain rfl := ih ha'
      obtain ⟨rfl, -, -⟩ := visit_ok hv
      obtain ⟨rfl, -, -⟩ := visit_ok hv'
      exact within_next_unique hn hn'

section Tolerances

variable (ht : L.tolerance = L'.tolerance) (hs : L.stepTolerance = L'.stepTolerance)

include ht in
theorem within_visit_eq : (S.within L).visit = (S.within L').visit := by
  funext p
  simp only [visit, within, ht]
  rfl

include hs in
theorem within_aim_eq : (S.within L).aim = (S.within L').aim := by
  funext v
  simp only [aim, head, within, hs]
  rfl

include hs in
theorem within_next_eq : (S.within L).next = (S.within L').next := by
  funext v
  simp only [next, within_aim_eq hs]
  rfl

include ht hs

/-- A run that ends before its budget does so with every larger budget. The induction is on the updates
that are left to the shorter run. -/
theorem within_trace_ending (hu : updates ≤ updates')
    (hf : ((S.within L).trace updates p).ending = .finished final)
    (hm : final.status ≠ .maxItersReached) :
    ((S.within L').trace updates' p).ending = .finished final := by
  induction updates generalizing p updates' with
  | zero =>
    rw [trace] at hf
    cases hv : (S.within L).visit p with
    | error e =>
      have hv' : (S.within L').visit p = .error e := by rw [← within_visit_eq ht, hv]
      simp only [hv] at hf
      cases updates' <;> simp [trace, hv', hf]
    | ok v =>
      have hv' : (S.within L').visit p = .ok v := by rw [← within_visit_eq ht, hv]
      simp only [hv] at hf
      cases ha : (S.within L).aim v with
      | error e =>
        have ha' : (S.within L').aim v = .error e := by rw [← within_aim_eq hs, ha]
        simp only [ha] at hf
        cases updates' <;> simp [trace, next, hv', ha', hf]
      | ok h =>
        simp only [ha, Ending.finished.injEq] at hf
        exact absurd (congrArg (·.status) hf).symm hm
  | succ updates ih =>
    obtain ⟨k, rfl⟩ : ∃ k, updates' = k + 1 := ⟨updates' - 1, by omega⟩
    rw [trace] at hf ⊢
    rw [← within_visit_eq ht, ← within_next_eq hs]
    cases hv : (S.within L).visit p with
    | error e => simpa only [hv] using hf
    | ok v =>
      simp only [hv] at hf ⊢
      cases hn : (S.within L).next v with
      | error e => simpa only [hn] using hf
      | ok q =>
        simp only [hn] at hf ⊢
        exact ih (by omega) hf

end Tolerances

section Wider

variable [IsTrans R (· ≤ ·)] (ht : L.tolerance ≤ L'.tolerance)
  (hs : L.stepTolerance ≤ L'.stepTolerance)

include ht in
theorem within_visit_of_wider (hv : (S.within L').visit p = .ok v) : (S.within L).visit p = .ok v := by
  obtain ⟨rfl, hf, hlarge⟩ := visit_ok hv
  refine visit_of_large hf ?_
  intro hsmall
  exact hlarge (trans_of (· ≤ ·) hsmall ht)

include hs in
theorem within_aim_of_wider (ha : (S.within L').aim v = .ok h) : (S.within L).aim v = .ok h := by
  have haims := (S.within L').aims v
  rw [ha] at haims
  cases haims with
  | aimed hj hd hlong =>
    refine aim_of_long hj hd ?_
    intro hshort
    exact hlong (trans_of (· ≤ ·) hshort hs)

include ht hs in
/-- Every update under the wider tolerances is also made under the narrower ones. -/
theorem within_arrives_of_wider (hm : L.maxIters = L'.maxIters)
    (ha : (S.within L').Arrives start i p) : (S.within L).Arrives start i p := by
  induction ha with
  | start => exact .start
  | update _ hb hv hn ih =>
    obtain ⟨h, haim, hq⟩ := Outcome.bind_eq_ok.mp hn
    have hn' := Outcome.bind_eq_ok.mpr ⟨h, within_aim_of_wider hs haim, hq⟩
    exact .update ih (hm ▸ hb) (within_visit_of_wider ht hv) hn'

end Wider

/-- A pass that ends a run for want of budget does the work that the pass of a longer run does before its
line search. -/
theorem within_exhausted_work {s : IterationState R m n} (hL : 1 ≤ L.maxIters)
    (hf : ((S.within L).iterate start).ending = .finished s) (hs : s.status = .maxItersReached)
    (hq : (S.within L').Arrives start (s.iteration + 1) q) :
    s.stats.jacobians = q.jacobians ∧ s.stats.solves = q.cache.solves ∧
      s.stats.factorizations = q.cache.factorizations := by
  obtain ⟨-, ⟨p, hp, -, hcloses⟩, -⟩ := (iterate_observes hL).final s hf
  obtain ⟨v, h, hv, ha, rfl⟩ := hcloses.exhausted hs
  cases hq with
  | update hp' _ hv' hn =>
    obtain rfl := within_arrives_unique hp hp'
    obtain ⟨rfl, -, -⟩ := visit_ok hv
    obtain ⟨rfl, -, -⟩ := visit_ok hv'
    obtain ⟨h', ha', hjacobians, hcache⟩ := next_work hn
    obtain rfl := within_aim_unique ha ha'
    rw [hjacobians, hcache]
    exact ⟨rfl, rfl, rfl⟩

/-- What runs under two limits have in common. They come to the same points, with all counters. Of the
states seen at one point the running ones are equal, and the others count the same evaluations unless a
line search that failed had its own. The pass that lacks the budget counts the same work for its direction
as the pass that makes the update. A larger budget keeps the end of a run that has come to one, and wider
tolerances never take more updates. -/
structure StopsOnly (S : Setup R m n) (L L' : RunLimits R) (start : Vec R n) : Prop where
  points : ∀ i p q, (S.within L).Arrives start i p → (S.within L').Arrives start i q → p = q
  states : ∀ s ∈ ((S.within L).iterate start).states, ∀ t ∈ ((S.within L').iterate start).states,
    s.iteration = t.iteration → s.x = t.x ∧ s.residual = t.residual ∧ s.stepLength = t.stepLength ∧
      ((∀ f, s.status ≠ .failed (.lineSearch f)) → (∀ f, t.status ≠ .failed (.lineSearch f)) →
        s.stats.evaluations = t.stats.evaluations) ∧
      (s.status = .running → t.status = .running → s = t)
  exhausted : ∀ s q, ((S.within L).iterate start).ending = .finished s →
    s.status = .maxItersReached → (S.within L').Arrives start (s.iteration + 1) q →
      s.stats.jacobians = q.jacobians ∧ s.stats.solves = q.cache.solves ∧
        s.stats.factorizations = q.cache.factorizations
  budget : L.tolerance = L'.tolerance → L.stepTolerance = L'.stepTolerance →
    L.maxIters ≤ L'.maxIters → ∀ final, ((S.within L).iterate start).ending = .finished final →
      final.status ≠ .maxItersReached → ((S.within L').iterate start).ending = .finished final
  updates : L.maxIters = L'.maxIters → L.tolerance ≤ L'.tolerance →
    L.stepTolerance ≤ L'.stepTolerance →
      (∀ i p, (S.within L').Arrives start i p → (S.within L).Arrives start i p) ∧
        ∀ final final', ((S.within L).iterate start).ending = .finished final →
          ((S.within L').iterate start).ending = .finished final' →
            final'.iteration ≤ final.iteration

theorem within_states_eq {s t : IterationState R m n} (hL : 1 ≤ L.maxIters) (hL' : 1 ≤ L'.maxIters)
    (hs : s ∈ ((S.within L).iterate start).states) (ht : t ∈ ((S.within L').iterate start).states)
    (hi : s.iteration = t.iteration) :
    s.x = t.x ∧ s.residual = t.residual ∧ s.stepLength = t.stepLength ∧
      ((∀ f, s.status ≠ .failed (.lineSearch f)) → (∀ f, t.status ≠ .failed (.lineSearch f)) →
        s.stats.evaluations = t.stats.evaluations) ∧
      (s.status = .running → t.status = .running → s = t) := by
  obtain ⟨p, hp, hseen, hcount, hrun⟩ := (iterate_observes hL).of_mem hs
  obtain ⟨q, hq, hseen', hcount', hrun'⟩ := (iterate_observes hL').of_mem ht
  obtain rfl := within_arrives_unique (hi ▸ hp) hq
  refine ⟨hseen.x.trans hseen'.x.symm, hseen.residual.trans hseen'.residual.symm,
    hseen.stepLength.trans hseen'.stepLength.symm, ?_, ?_⟩
  · intro hs ht
    exact (hcount hs).trans (hcount' ht).symm
  · intro hs ht
    exact (hrun hs).trans (hrun' ht).symm

theorem within_iterate_ending (hL : 1 ≤ L.maxIters) (ht : L.tolerance = L'.tolerance)
    (hs : L.stepTolerance = L'.stepTolerance) (hm : L.maxIters ≤ L'.maxIters)
    (hf : ((S.within L).iterate start).ending = .finished final)
    (hend : final.status ≠ .maxItersReached) :
    ((S.within L').iterate start).ending = .finished final := by
  have hne : (S.within L).limits.maxIters ≠ 0 := Nat.ne_of_gt hL
  have hne' : (S.within L').limits.maxIters ≠ 0 := Nat.ne_of_gt (hL.trans hm)
  rw [iterate, if_neg hne] at hf
  rw [iterate, if_neg hne']
  exact within_trace_ending ht hs hm hf hend

/-- Whatever the method, the problem and the start, limits decide only where a run stops. -/
theorem limits_stop_only [IsTrans R (· ≤ ·)] (hL : 1 ≤ L.maxIters) (hL' : 1 ≤ L'.maxIters) :
    S.StopsOnly L L' start where
  points _ _ _ := within_arrives_unique
  states _ hs _ ht := within_states_eq hL hL' hs ht
  exhausted _ _ := within_exhausted_work hL
  budget ht hs hm _ := within_iterate_ending hL ht hs hm
  updates hm ht hs := by
    have hwider : ∀ i p, (S.within L').Arrives start i p → (S.within L).Arrives start i p :=
      fun _ _ => within_arrives_of_wider ht hs hm
    refine ⟨hwider, ?_⟩
    intro final final' hf hf'
    obtain ⟨-, -, hlast⟩ := (iterate_observes hL).final final hf
    obtain ⟨-, ⟨p, hp, -, -⟩, -⟩ := (iterate_observes hL').final final' hf'
    exact hlast _ p (hwider _ p hp)

/-- Budgets that are small and large enough for the method to end by itself. -/
def budget (maxIters : Nat) : RunLimits Float := ⟨maxIters, Scalar.decimal 1 8, Scalar.decimal 1 8⟩

theorem rootOfTwo_stopsOnly : 1 ≤ (budget 5).maxIters ∧ 1 ≤ (budget 100).maxIters ∧
    rootOfTwo.StopsOnly (budget 5) (budget 100) #v[1] ∧
      ∃ final, ((rootOfTwo.within (budget 5)).iterate #v[1]).ending = .finished final ∧
        ((rootOfTwo.within (budget 100)).iterate #v[1]).ending = .finished final := by
  have h : rootOfTwo.StopsOnly (budget 5) (budget 100) #v[1] := limits_stop_only (by decide) (by decide)
  have hconv : ((rootOfTwo.within (budget 5)).iterate #v[1]).final.toOption.any
      (·.status.hasConverged) = true := by decide +kernel
  refine ⟨by decide, by decide, h, ?_⟩
  cases he : ((rootOfTwo.within (budget 5)).iterate #v[1]).ending with
  | escaped f => simp [Run.final, he, Except.toOption] at hconv
  | finished final =>
    have hstatus : final.status ≠ .maxItersReached := by
      intro hs
      simp [Run.final, he, Except.toOption, hs, Status.hasConverged] at hconv
    exact ⟨final, rfl, h.budget rfl rfl (by decide) final he hstatus⟩

end NewtonSolver.Setup
