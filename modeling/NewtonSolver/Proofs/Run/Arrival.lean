import NewtonSolver.Proofs.Run.Completion
import NewtonSolver.Run.History

/-! The points that a run comes to, one after the other, and the states that are seen there. -/
namespace NewtonSolver.Setup

variable {R : Type} [Scalar R] {m n : Nat}

/-- The run from `start` comes to the point after so many updates. -/
inductive Arrives (S : Setup R m n) (start : Vec R n) : Nat → Progress R m n → Prop
  | start : Arrives S start 0 (.initial start)
  | update {i : Nat} {p q : Progress R m n} {v : Visit R m n} (ha : Arrives S start i p)
    (hb : i < S.limits.maxIters) (hv : S.visit p = .ok v) (hn : S.next v = .ok q) :
    Arrives S start (i + 1) q

/-- The point as it is seen once its residual is evaluated. -/
def evaluated (S : Setup R m n) (p : Progress R m n) : IterationState R m n :=
  (p.countEvaluations 1).state (S.problem.residual.value p.x) .running

variable {S : Setup R m n} {start : Vec R n} {i j updates : Nat} {p q : Progress R m n}
  {v : Visit R m n} {s final : IterationState R m n}

theorem visit_evaluated (hv : S.visit p = .ok v) : v.state = S.evaluated p := by
  obtain ⟨rfl, -, -⟩ := visit_ok hv
  rfl

namespace Arrives

theorem reached (ha : S.Arrives start i p) :
    ∃ earlier, earlier.length = i ∧ S.Reached start earlier p := by
  induction ha with
  | start => exact ⟨[], rfl, reached_initial⟩
  | @update i p q v _ _ hv hn ih =>
    obtain ⟨earlier, hl, hr⟩ := ih
    exact ⟨earlier ++ [p.x], by simp [hl], (next_ok hr hv hn).1⟩

theorem iteration (ha : S.Arrives start i p) : p.iteration = i := by
  obtain ⟨earlier, hl, hr⟩ := ha.reached
  rw [hr.iteration, hl]

theorem unique (ha : S.Arrives start i p) (hb : S.Arrives start i q) : p = q := by
  induction ha generalizing q with
  | start =>
    cases hb
    rfl
  | update _ _ hv hn ih =>
    cases hb with
    | update hb _ hv' hn' =>
      obtain rfl := ih hb
      obtain rfl : _ = _ := Except.ok.inj (hv.symm.trans hv')
      exact Except.ok.inj (hn.symm.trans hn')

theorem before (ha : S.Arrives start j q) (hi : i ≤ j) : ∃ p, S.Arrives start i p := by
  induction ha with
  | start =>
    obtain rfl : i = 0 := by omega
    exact ⟨_, .start⟩
  | @update j p q v ha hb hv hn ih =>
    by_cases h : i ≤ j
    · exact ih h
    · obtain rfl : i = j + 1 := by omega
      exact ⟨q, .update ha hb hv hn⟩

/-- A point that is not left is the last one. -/
theorem last (ha : S.Arrives start i p)
    (hend : ∀ v q, S.visit p = .ok v → S.next v = .ok q → S.limits.maxIters ≤ i)
    (hb : S.Arrives start j q) : j ≤ i := by
  refine Nat.le_of_not_lt ?_
  intro hij
  obtain ⟨r, hr⟩ := hb.before (show i + 1 ≤ j by omega)
  cases hr with
  | update ha' hlt hv hn =>
    obtain rfl := ha.unique ha'
    have := hend _ _ hv hn
    omega

end Arrives

/-- What is counted when a run ends at a point: one more evaluation, unless a line search had its own,
and all the work for a direction if only the budget is missing. -/
structure ClosesAt (S : Setup R m n) (p : Progress R m n) (s : IterationState R m n) : Prop where
  evaluations : (∀ f, s.status ≠ .failed (.lineSearch f)) → s.stats.evaluations = p.evaluations + 1
  exhausted : s.status = .maxItersReached → ∃ v h, S.visit p = .ok v ∧ S.aim v = .ok h ∧
    s = h.progress.state h.residual .maxItersReached

theorem visit_closes (hv : S.visit p = .error (.finished s)) : S.ClosesAt p s := by
  have hs := S.visits p
  rw [hv] at hs
  cases hs with
  | nonFinite hf => exact ⟨fun _ => rfl, nofun⟩
  | small hf ht => exact ⟨fun _ => rfl, nofun⟩

theorem aim_closes (hv : S.visit p = .ok v) (ha : S.aim v = .error (.finished s)) :
    S.ClosesAt p s := by
  obtain ⟨rfl, -, -⟩ := visit_ok hv
  have hs := S.aims ⟨p.countEvaluations 1, S.problem.residual.value p.x⟩
  rw [ha] at hs
  cases hs with
  | refused hj => exact ⟨fun _ => rfl, nofun⟩
  | productRefused hj hd => exact ⟨fun _ => rfl, nofun⟩
  | unsolved hj hd => exact ⟨fun _ => rfl, nofun⟩
  | short hj hd ht => exact ⟨fun _ => rfl, nofun⟩

theorem aim_evaluations {h : Heading R m n} (hv : S.visit p = .ok v) (ha : S.aim v = .ok h) :
    h.progress.evaluations = p.evaluations + 1 := by
  obtain ⟨rfl, -, -⟩ := visit_ok hv
  have hs := S.aims ⟨p.countEvaluations 1, S.problem.residual.value p.x⟩
  rw [ha] at hs
  cases hs with
  | aimed hj hd ht => rfl

theorem exhausted_closes {h : Heading R m n} (hv : S.visit p = .ok v) (ha : S.aim v = .ok h) :
    S.ClosesAt p (h.progress.state h.residual .maxItersReached) :=
  ⟨fun _ => aim_evaluations hv ha, fun _ => ⟨v, h, hv, ha, rfl⟩⟩

theorem next_closes (hv : S.visit p = .ok v) (hn : S.next v = .error (.finished s)) :
    S.ClosesAt p s := by
  unfold next at hn
  cases ha : S.aim v with
  | error e =>
    rw [ha] at hn
    cases hn
    exact aim_closes hv ha
  | ok h =>
    rw [ha] at hn
    have hs := S.advances h
    rw [show S.advance h = .error (.finished s) from hn] at hs
    cases hs with
    | stuck hs hstep hp => exact ⟨fun hne => absurd rfl (hne _), nofun⟩

/-- What the states of a run tell about the points that it comes to. -/
structure Observes (S : Setup R m n) (start : Vec R n) (run : Run R m n) : Prop where
  running : ∀ s ∈ run.running, ∃ p, S.Arrives start s.iteration p ∧ s = S.evaluated p
  final : ∀ s, run.ending = .finished s → s.status.isTerminal = true ∧
    (∃ p, S.Arrives start s.iteration p ∧ S.SeenAt p s ∧ S.ClosesAt p s) ∧
      ∀ j q, S.Arrives start j q → j ≤ s.iteration

/-- A run that ends at a point, where it may have shown the running state. -/
theorem observes_ending {seen : List (IterationState R m n)} {e : Ending R m n}
    (ha : S.Arrives start i p) (hrun : ∀ s ∈ seen, s = S.evaluated p)
    (hf : ∀ s, e = .finished s → s.status.isTerminal = true ∧ S.SeenAt p s ∧ S.ClosesAt p s)
    (hend : ∀ v q, S.visit p = .ok v → S.next v = .ok q → S.limits.maxIters ≤ i) :
    S.Observes start ⟨seen, e⟩ := by
  constructor
  · intro s hs
    obtain rfl := hrun s hs
    have hi : (S.evaluated p).iteration = i := ha.iteration
    exact ⟨p, hi ▸ ha, rfl⟩
  · intro s hs
    obtain ⟨hterm, hseen, hcloses⟩ := hf s hs
    have hi : s.iteration = i := hseen.iteration.trans ha.iteration
    refine ⟨hterm, ⟨p, hi ▸ ha, hseen, hcloses⟩, ?_⟩
    intro j q hj
    rw [hi]
    exact ha.last hend hj

theorem observes_unvisited {e : Ending R m n} (ha : S.Arrives start i p)
    (hv : S.visit p = .error e) : S.Observes start ⟨[], e⟩ := by
  refine observes_ending ha (by simp) ?_ (by simp [hv])
  rintro s rfl
  have hs : S.SeenAt p s ∧ S.EndsAt start p.cache s := visit_finished hv p.cache
  exact ⟨hs.2.terminal, hs.1, visit_closes hv⟩

/-- The pass without updates left ends the run. -/
theorem last_observes (ha : S.Arrives start i p) (hi : i = S.limits.maxIters) :
    S.Observes start (S.trace 0 p) := by
  obtain ⟨earlier, hl, hr⟩ := ha.reached
  rw [trace]
  cases hv : S.visit p with
  | error e => exact observes_unvisited ha hv
  | ok v =>
    cases haim : S.aim v with
    | error e =>
      simp only [haim]
      refine observes_ending ha (by simp) ?_ (fun _ _ _ _ => by omega)
      rintro s rfl
      obtain ⟨hseen, hends⟩ := aim_finished hr hv haim
      exact ⟨hends.terminal, hseen, aim_closes hv haim⟩
    | ok h =>
      simp only [haim]
      refine observes_ending ha (by simp) ?_ (fun _ _ _ _ => by omega)
      rintro s ⟨⟩
      obtain ⟨hseen, hends⟩ := aim_exhausted hr hv haim (by omega)
      exact ⟨hends.terminal, hseen, exhausted_closes hv haim⟩

/-- The induction is on the updates that are left, which end at the limit. -/
theorem trace_observes (ha : S.Arrives start i p) (hu : i + updates = S.limits.maxIters) :
    S.Observes start (S.trace updates p) := by
  induction updates generalizing i p with
  | zero => exact last_observes ha hu
  | succ updates ih =>
    obtain ⟨earlier, hl, hr⟩ := ha.reached
    rw [trace]
    cases hv : S.visit p with
    | error e => exact observes_unvisited ha hv
    | ok v =>
      cases hn : S.next v with
      | error e =>
        simp only [hn]
        refine observes_ending ha (by simpa using visit_evaluated hv) ?_ ?_
        · rintro s rfl
          obtain ⟨hseen, hends⟩ := next_finished hr hv hn
          exact ⟨hends.terminal, hseen, next_closes hv hn⟩
        · intro v' q hv' hn'
          obtain rfl := Except.ok.inj (hv.symm.trans hv')
          rw [hn] at hn'
          cases hn'
      | ok q =>
        simp only [hn]
        obtain ⟨hrun, hfinal⟩ := ih (.update ha (by omega) hv hn) (by omega)
        refine ⟨?_, hfinal⟩
        intro s hs
        rcases List.mem_cons.mp hs with rfl | hs
        · rw [visit_evaluated hv]
          have hi : (S.evaluated p).iteration = i := ha.iteration
          exact ⟨p, hi ▸ ha, rfl⟩
        · exact hrun s hs

theorem Observes.of_mem {run : Run R m n} (ho : S.Observes start run) (hs : s ∈ run.states) :
    ∃ p, S.Arrives start s.iteration p ∧ S.SeenAt p s ∧
      ((∀ f, s.status ≠ .failed (.lineSearch f)) → s.stats.evaluations = p.evaluations + 1) ∧
        (s.status = .running → s = S.evaluated p) := by
  have hrunning : s ∈ run.running → ∃ p, S.Arrives start s.iteration p ∧ S.SeenAt p s ∧
      ((∀ f, s.status ≠ .failed (.lineSearch f)) → s.stats.evaluations = p.evaluations + 1) ∧
        (s.status = .running → s = S.evaluated p) := by
    intro hr
    obtain ⟨p, ha, he⟩ := ho.running s hr
    have hseen : S.SeenAt p (S.evaluated p) := ⟨rfl, rfl, rfl, rfl⟩
    have hcount : (S.evaluated p).stats.evaluations = p.evaluations + 1 := rfl
    exact ⟨p, ha, he ▸ hseen, fun _ => he ▸ hcount, fun _ => he⟩
  unfold Run.states at hs
  cases he : run.ending with
  | escaped f => exact hrunning (by simpa [he] using hs)
  | finished t =>
    have hst : s ∈ run.running ∨ s = t := by simpa [he] using hs
    rcases hst with hs | rfl
    · exact hrunning hs
    · obtain ⟨hterm, ⟨p, ha, hseen, hcloses⟩, -⟩ := ho.final s he
      refine ⟨p, ha, hseen, hcloses.evaluations, ?_⟩
      intro hrun
      simp [hrun, Status.isTerminal] at hterm

theorem iterate_observes (hmax : 1 ≤ S.limits.maxIters) :
    S.Observes start (S.iterate start) := by
  rw [iterate_eq_trace hmax]
  exact trace_observes .start (by omega)

end NewtonSolver.Setup
