import NewtonSolver.Proofs.Run.Points

/-! Completed runs by what is seen at each point, and what that tells about the states one by one. -/
namespace NewtonSolver.Setup

variable {R : Type} [Scalar R] {m n : Nat}

/-- The completed runs from a point on, by what is seen at the point: the end of the run at once, a
running state and the end, or a running state and an update to the next point. -/
inductive Completes (S : Setup R m n) (start : Vec R n) : List (Vec R n) → Progress R m n →
    List (IterationState R m n) → IterationState R m n → Prop
  | last {earlier : List (Vec R n)} {p : Progress R m n} {final : IterationState R m n}
    (hr : S.Reached start earlier p) (hb : earlier.length ≤ S.limits.maxIters)
    (hf : S.SeenAt p final) (he : S.EndsAt start p.cache final) :
    Completes S start earlier p [] final
  | stopped {earlier : List (Vec R n)} {p : Progress R m n} {s final : IterationState R m n}
    (hr : S.Reached start earlier p) (hb : earlier.length < S.limits.maxIters) (hs : S.SeenAt p s)
    (hrun : s.status = .running) (hf : S.SeenAt p final) (he : S.EndsAt start p.cache final) :
    Completes S start earlier p [s] final
  | updated {earlier : List (Vec R n)} {p q : Progress R m n}
    {running : List (IterationState R m n)} {s final : IterationState R m n} {d : Vec R n}
    (hr : S.Reached start earlier p) (hb : earlier.length < S.limits.maxIters) (hs : S.SeenAt p s)
    (hrun : s.status = .running) (hd : (S.descentAt start p.x p.cache).1 = .ok ⟨d, none⟩)
    (hx : q.x = p.x + q.stepLength * d)
    (hc : Completes S start (earlier ++ [p.x]) q running final) :
    Completes S start earlier p (s :: running) final

variable {S : Setup R m n} {start : Vec R n} {earlier : List (Vec R n)} {p q : Progress R m n}
  {running : List (IterationState R m n)} {final s t : IterationState R m n}

/-- The pass without updates left ends the run, if no failure escapes. -/
theorem last_completes (hr : S.Reached start earlier p) (hl : earlier.length = S.limits.maxIters)
    (hf : (S.trace 0 p).ending = .finished final) :
    S.Completes start earlier p (S.trace 0 p).running final := by
  rw [trace] at hf ⊢
  cases hv : S.visit p with
  | error e =>
    simp only [hv] at hf ⊢
    subst hf
    obtain ⟨hseen, hend⟩ := visit_finished hv p.cache
    exact .last hr (by omega) hseen hend
  | ok v =>
    simp only [hv] at hf ⊢
    cases ha : S.aim v with
    | error e =>
      simp only [ha] at hf ⊢
      subst hf
      obtain ⟨hseen, hend⟩ := aim_finished hr hv ha
      exact .last hr (by omega) hseen hend
    | ok h =>
      simp only [ha, Ending.finished.injEq] at hf ⊢
      subst hf
      obtain ⟨hseen, hend⟩ := aim_exhausted hr hv ha hl
      exact .last hr (by omega) hseen hend

/-- The induction is on the updates that are left; their number and the number of those made add up to
the limit, which is why the last pass stands at the limit. -/
theorem trace_completes {updates : Nat} (hr : S.Reached start earlier p)
    (hu : earlier.length + updates = S.limits.maxIters)
    (hf : (S.trace updates p).ending = .finished final) :
    S.Completes start earlier p (S.trace updates p).running final := by
  induction updates generalizing earlier p with
  | zero => exact last_completes hr hu hf
  | succ updates ih =>
    rw [trace] at hf ⊢
    cases hv : S.visit p with
    | error e =>
      simp only [hv] at hf ⊢
      subst hf
      obtain ⟨hseen, hend⟩ := visit_finished hv p.cache
      exact .last hr (by omega) hseen hend
    | ok v =>
      simp only [hv] at hf ⊢
      obtain ⟨hs, hrun⟩ := visit_state hv
      cases hn : S.next v with
      | error e =>
        simp only [hn] at hf ⊢
        subst hf
        obtain ⟨hseen, hend⟩ := next_finished hr hv hn
        exact .stopped hr (by omega) hs hrun hseen hend
      | ok q =>
        simp only [hn] at hf ⊢
        obtain ⟨hq, d, hd, hx⟩ := next_ok hr hv hn
        have hl : (earlier ++ [p.x]).length + updates = S.limits.maxIters := by
          simp only [List.length_append, List.length_singleton]
          omega
        exact .updated hr (by omega) hs hrun hd hx (ih hq hl hf)

theorem iterate_completes (hmax : 1 ≤ S.limits.maxIters)
    (hf : (S.iterate start).ending = .finished final) :
    S.Completes start [] (.initial start) (S.iterate start).running final := by
  rw [iterate_eq_trace hmax] at hf ⊢
  exact trace_completes reached_initial (by simp) hf

namespace Completes

theorem reached (h : S.Completes start earlier p running final) : S.Reached start earlier p := by
  cases h <;> assumption

/-- The first state that is seen is seen at the point. -/
theorem head (h : S.Completes start earlier p running final) :
    ∀ s ∈ (running ++ [final]).head?, S.SeenAt p s := by
  cases h <;> simp_all

theorem iterations (h : S.Completes start earlier p running final) :
    running.map (·.iteration) = List.range' earlier.length running.length := by
  induction h with
  | last => rfl
  | stopped hr hb hs => simp [hs.iteration, hr.iteration]
  | updated hr hb hs hrun hd hx hc ih =>
    simp [hs.iteration, hr.iteration, ih, List.range'_succ]

theorem running_status (h : S.Completes start earlier p running final) :
    ∀ s ∈ running, s.status = .running := by
  induction h with
  | last => simp
  | stopped hr hb hs hrun => simpa using hrun
  | updated hr hb hs hrun hd hx hc ih => simpa [hrun] using ih

theorem residuals (h : S.Completes start earlier p running final) :
    ∀ s ∈ running ++ [final], s.residual = some (S.problem.residual.value s.x) := by
  have seen {p s} (hs : S.SeenAt p s) : s.residual = some (S.problem.residual.value s.x) := by
    rw [hs.residual, hs.x]
  induction h with
  | last hr hb hf he => simpa using seen hf
  | stopped hr hb hs hrun hf he => simpa using ⟨seen hs, seen hf⟩
  | updated hr hb hs hrun hd hx hc ih => simpa [seen hs] using ih

theorem final_iteration (h : S.Completes start earlier p running final) :
    (final.iteration + 1 = earlier.length + running.length ∨
      final.iteration = earlier.length + running.length) ∧
      earlier.length ≤ final.iteration ∧ final.iteration ≤ S.limits.maxIters := by
  induction h with
  | last hr hb hf he =>
    have hi := hf.iteration.trans hr.iteration
    simp
    omega
  | stopped hr hb hs hrun hf he =>
    have hi := hf.iteration.trans hr.iteration
    simp
    omega
  | updated hr hb hs hrun hd hx hc ih =>
    simp at ih ⊢
    omega

theorem length_le (h : S.Completes start earlier p running final) :
    earlier.length + running.length ≤ S.limits.maxIters := by
  induction h with
  | last hr hb => simpa using hb
  | stopped hr hb => simpa using Nat.succ_le_of_lt hb
  | updated hr hb hs hrun hd hx hc ih =>
    simp at ih ⊢
    omega

theorem terminal (h : S.Completes start earlier p running final) :
    final.status.isTerminal = true := by
  induction h with
  | last hr hb hf he => exact he.terminal
  | stopped hr hb hs hrun hf he => exact he.terminal
  | updated hr hb hs hrun hd hx hc ih => exact ih

end Completes

end NewtonSolver.Setup
