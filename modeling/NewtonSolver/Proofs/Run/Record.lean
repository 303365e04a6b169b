import NewtonSolver.Proofs.Run.Arrival
import NewtonSolver.Proofs.Run.Shape

/-! What is kept of a completed run: the norm of the residual at every point that the run comes to, and the
length of every step from one point to the next. A point may be seen twice and counts once. -/
namespace NewtonSolver

variable {R : Type} [Scalar R] {m n : Nat}

namespace IterationState

variable {s : IterationState R m n} {states : List (IterationState R m n)} {i : Nat}

theorem residualNorms_cons_of_ne {recorded : Option Nat} {residual : Vec R m}
    (hr : s.residual = some residual) (hi : recorded ≠ some s.iteration) :
    residualNorms recorded (s :: states) =
      residual.norm :: residualNorms (some s.iteration) states := by
  simp only [residualNorms, hr, if_neg hi]

/-- A point that was recorded is not recorded again. -/
theorem residualNorms_cons_of_eq (hi : s.iteration = i) :
    residualNorms (some i) (s :: states) = residualNorms (some i) states := by
  cases hr : s.residual with
  | none => simp only [residualNorms, hr]
  | some residual => simp only [residualNorms, hr, hi, if_true]

omit [Scalar R] in
theorem stepLengths_cons_of_lt (hi : i < s.iteration) :
    stepLengths i (s :: states) = s.stepLength :: stepLengths s.iteration states := by
  rw [stepLengths, if_pos hi]

omit [Scalar R] in
theorem stepLengths_cons_of_eq (hi : s.iteration = i) :
    stepLengths i (s :: states) = stepLengths i states := by
  rw [stepLengths, if_neg (by omega)]

end IterationState

namespace Setup

/-- The states that are seen at points one after the other: each point is seen once, and the last one may
be seen a second time. -/
inductive Shows (S : Setup R m n) : List (Progress R m n) → List (IterationState R m n) → Prop
  | once {p : Progress R m n} {s : IterationState R m n} (hs : S.SeenAt p s) : Shows S [p] [s]
  | twice {p : Progress R m n} {s t : IterationState R m n} (hs : S.SeenAt p s) (ht : S.SeenAt p t) :
    Shows S [p] [s, t]
  | next {p q : Progress R m n} {points : List (Progress R m n)} {s : IterationState R m n}
    {states : List (IterationState R m n)} (hs : S.SeenAt p s)
    (hq : q.iteration = p.iteration + 1) (h : Shows S (q :: points) states) :
    Shows S (p :: q :: points) (s :: states)

variable {S : Setup R m n} {start : Vec R n} {i updates : Nat} {p q : Progress R m n}
  {points : List (Progress R m n)} {states : List (IterationState R m n)}
  {s final : IterationState R m n}

namespace Shows

theorem residualNorms_eq {recorded : Option Nat} (h : S.Shows (p :: points) states)
    (hrec : recorded ≠ some p.iteration) : IterationState.residualNorms recorded states =
      (p :: points).map fun q => (S.problem.residual.value q.x).norm := by
  generalize hps : p :: points = ps at h
  induction h generalizing p points recorded with
  | once hs =>
    cases hps
    rw [IterationState.residualNorms_cons_of_ne hs.residual (hs.iteration ▸ hrec)]
    rfl
  | twice hs ht =>
    cases hps
    rw [IterationState.residualNorms_cons_of_ne hs.residual (hs.iteration ▸ hrec),
      IterationState.residualNorms_cons_of_eq (ht.iteration.trans hs.iteration.symm)]
    rfl
  | @next p q points s states hs hq h ih =>
    cases hps
    have hnew : some s.iteration ≠ some q.iteration := by
      rw [hs.iteration, hq]
      simp
    rw [IterationState.residualNorms_cons_of_ne hs.residual (hs.iteration ▸ hrec), ih hnew rfl]
    rfl

omit [Scalar R] in
/-- The step to the first point counts unless the run stood there before. -/
theorem stepLengths_eq (h : S.Shows (p :: points) states) :
    IterationState.stepLengths p.iteration states = points.map (·.stepLength) ∧
      (i < p.iteration → IterationState.stepLengths i states =
        (p :: points).map (·.stepLength)) := by
  generalize hps : p :: points = ps at h
  induction h generalizing p points i with
  | once hs =>
    cases hps
    refine ⟨IterationState.stepLengths_cons_of_eq hs.iteration, ?_⟩
    intro hi
    rw [IterationState.stepLengths_cons_of_lt (hs.iteration ▸ hi), hs.stepLength]
    rfl
  | twice hs ht =>
    cases hps
    refine ⟨?_, ?_⟩
    · rw [IterationState.stepLengths_cons_of_eq hs.iteration,
        IterationState.stepLengths_cons_of_eq ht.iteration]
      rfl
    · intro hi
      rw [IterationState.stepLengths_cons_of_lt (hs.iteration ▸ hi),
        IterationState.stepLengths_cons_of_eq (ht.iteration.trans hs.iteration.symm), hs.stepLength]
      rfl
  | @next p q points s states hs hq h ih =>
    cases hps
    have hrest : IterationState.stepLengths p.iteration states = (q :: points).map (·.stepLength) :=
      (ih rfl).2 (by omega)
    refine ⟨?_, ?_⟩
    · rw [IterationState.stepLengths_cons_of_eq hs.iteration, hrest]
    · intro hi
      rw [IterationState.stepLengths_cons_of_lt (hs.iteration ▸ hi), hs.iteration, hrest,
        hs.stepLength]
      rfl

end Shows

/-- The points that a completed run goes through from `p` on, with the states that are seen there. -/
structure GoesThrough (S : Setup R m n) (start : Vec R n) (p : Progress R m n)
    (points : List (Progress R m n)) (run : Run R m n) (final : IterationState R m n) : Prop where
  states : S.Shows (p :: points) run.states
  arrives : ∀ j q, (p :: points)[j]? = some q → S.Arrives start (p.iteration + j) q
  final : final.iteration = p.iteration + points.length

/-- A run that ends at a point, where it may have shown the running state. -/
theorem goesThrough_ending {seen : List (IterationState R m n)} (ha : S.Arrives start i p)
    (hrun : seen = [] ∨ seen = [S.evaluated p]) (hf : S.SeenAt p final) :
    S.GoesThrough start p [] ⟨seen, .finished final⟩ final := by
  refine ⟨?_, ?_, hf.iteration⟩
  · rcases hrun with rfl | rfl
    · exact .once hf
    · exact .twice ⟨rfl, rfl, rfl, rfl⟩ hf
  · intro j q hq
    obtain ⟨rfl, rfl⟩ : j = 0 ∧ p = q := by
      cases j with
      | zero => exact ⟨rfl, Option.some.inj hq⟩
      | succ j => cases hq
    exact ha.iteration ▸ ha

theorem Arrives.goesThrough_visit (ha : S.Arrives start i p)
    (hv : S.visit p = .error (.finished final)) :
    S.GoesThrough start p [] ⟨[], .finished final⟩ final := by
  have hs : S.SeenAt p final ∧ S.EndsAt start p.cache final := visit_finished hv p.cache
  exact goesThrough_ending ha (.inl rfl) hs.1

/-- An update to a point puts the one that it is made from in front. -/
theorem GoesThrough.cons {run : Run R m n} (h : S.GoesThrough start q points run final)
    (ha : S.Arrives start i p) (hq : S.Arrives start (i + 1) q) :
    S.GoesThrough start p (q :: points) (run.cons (S.evaluated p)) final := by
  have hpi := ha.iteration
  have hqi := hq.iteration
  refine ⟨?_, ?_, ?_⟩
  · have hstates : (run.cons (S.evaluated p)).states = S.evaluated p :: run.states := by
      cases he : run.ending <;> simp [Run.states, Run.cons, he]
    rw [hstates]
    exact .next ⟨rfl, rfl, rfl, rfl⟩ (by omega) h.states
  · intro j r hr
    cases j with
    | zero =>
      obtain rfl := Option.some.inj hr
      exact hpi.symm ▸ ha
    | succ j =>
      have hlater := h.arrives j r hr
      rwa [hqi, Nat.add_right_comm, ← hpi] at hlater
  · rw [h.final, List.length_cons]
    omega

/-- At the limit a run ends where it is. -/
theorem Arrives.goesThrough_limit (ha : S.Arrives start i p) (hi : i = S.limits.maxIters)
    (hf : (S.trace 0 p).ending = .finished final) :
    S.GoesThrough start p [] (S.trace 0 p) final := by
  obtain ⟨earlier, hl, hr⟩ := ha.reached
  rw [trace] at hf ⊢
  cases hv : S.visit p with
  | error e =>
    simp only [hv] at hf ⊢
    subst hf
    exact ha.goesThrough_visit hv
  | ok v =>
    simp only [hv] at hf ⊢
    cases haim : S.aim v with
    | error e =>
      simp only [haim] at hf ⊢
      subst hf
      exact goesThrough_ending ha (.inl rfl) (aim_finished hr hv haim).1
    | ok h =>
      simp only [haim, Ending.finished.injEq] at hf ⊢
      subst hf
      exact goesThrough_ending ha (.inl rfl) (aim_exhausted hr hv haim (hl.trans hi)).1

/-- The induction is on the updates that are left, which end at the limit. -/
theorem trace_goesThrough (ha : S.Arrives start i p) (hu : i + updates = S.limits.maxIters)
    (hf : (S.trace updates p).ending = .finished final) :
    ∃ points, S.GoesThrough start p points (S.trace updates p) final := by
  induction updates generalizing i p with
  | zero => exact ⟨[], ha.goesThrough_limit hu hf⟩
  | succ updates ih =>
    obtain ⟨earlier, -, hr⟩ := ha.reached
    rw [trace] at hf ⊢
    cases hv : S.visit p with
    | error e =>
      simp only [hv] at hf ⊢
      subst hf
      exact ⟨[], ha.goesThrough_visit hv⟩
    | ok v =>
      simp only [hv, visit_evaluated hv] at hf ⊢
      cases hn : S.next v with
      | error e =>
        simp only [hn] at hf ⊢
        subst hf
        exact ⟨[], goesThrough_ending ha (.inr rfl) (next_finished hr hv hn).1⟩
      | ok q =>
        simp only [hn] at hf ⊢
        have hq : S.Arrives start (i + 1) q := .update ha (by omega) hv hn
        obtain ⟨points, hgoes⟩ := ih hq (by omega) hf
        exact ⟨q :: points, hgoes.cons ha hq⟩

/-- The update between two points, in its stages. -/
theorem Arrives.stages (ha : S.Arrives start i p) (hq : S.Arrives start (i + 1) q) :
    ∃ v h, S.visit p = .ok v ∧ S.aim v = .ok h ∧ S.advance h = .ok q ∧
      q.x = p.x + q.stepLength * h.direction := by
  obtain ⟨earlier, -, hr⟩ := ha.reached
  cases hq with
  | @update _ p' _ v ha' _ hv hn =>
    obtain rfl := ha.unique ha'
    obtain ⟨h, haim, hadvance⟩ := Outcome.bind_eq_ok.mp hn
    have hs := S.advances h
    rw [hadvance] at hs
    refine ⟨v, h, hv, haim, hadvance, ?_⟩
    rw [← (aim_ok hr hv haim).x]
    cases hs <;> rfl

/-- What is kept of the points of a run: a norm for each of them, and for each update the length of the
step that was accepted there. -/
structure Records (S : Setup R m n) (start : Vec R n) (H : RunHistory R n) : Prop where
  norms : H.residualNorms.length = H.result.iterations + 1
  steps : H.stepLengths.length = H.result.iterations
  points : ∀ i, i ≤ H.result.iterations ↔ ∃ p, S.Arrives start i p
  norm : ∀ i p, S.Arrives start i p →
    H.residualNorms[i]? = some (S.problem.residual.value p.x).norm
  step : ∀ i p q, S.Arrives start i p → S.Arrives start (i + 1) q → ∃ v h, S.visit p = .ok v ∧
    S.aim v = .ok h ∧ S.advance h = .ok q ∧ q.x = p.x + q.stepLength * h.direction ∧
      H.stepLengths[i]? = some q.stepLength
  last : ∀ p, S.Arrives start H.result.iterations p → H.result.x = p.x

/-- The points that a run goes through are those that it comes to. -/
theorem GoesThrough.getElem?_eq_some {run : Run R m n}
    (h : S.GoesThrough start (.initial start) points run final)
    (hlast : ∀ j q, S.Arrives start j q → j ≤ final.iteration) :
    (Progress.initial start :: points)[i]? = some p ↔ S.Arrives start i p := by
  have harrives (j : Nat) (q : Progress R m n)
      (hq : (Progress.initial start :: points)[j]? = some q) : S.Arrives start j q :=
    Nat.zero_add j ▸ h.arrives j q hq
  refine ⟨harrives i p, ?_⟩
  intro hp
  have hlt : i < (Progress.initial start :: points).length := by
    have hi := hlast i p hp
    rw [h.final] at hi
    simpa [Progress.initial, Nat.lt_succ_iff] using hi
  have hget := List.getElem?_eq_getElem hlt
  rw [hget, (harrives i _ hget).unique hp]

/-- Both arrays are read off the points, of which there is one for each number of updates. -/
theorem GoesThrough.records {run : Run R m n}
    (h : S.GoesThrough start (.initial start) points run final)
    (hlast : ∀ j q, S.Arrives start j q → j ≤ final.iteration)
    (hx : ∀ p, S.Arrives start final.iteration p → final.x = p.x) :
    S.Records start ⟨final.result, IterationState.residualNorms none run.states,
      IterationState.stepLengths 0 run.states, final.stats⟩ := by
  have hpoint {i : Nat} {p : Progress R m n} :
      (Progress.initial start :: points)[i]? = some p ↔ S.Arrives start i p :=
    h.getElem?_eq_some hlast
  have hcount : points.length = final.iteration := (h.final.trans (Nat.zero_add _)).symm
  have hnorms : IterationState.residualNorms none run.states =
      (Progress.initial start :: points).map fun q => (S.problem.residual.value q.x).norm :=
    h.states.residualNorms_eq nofun
  have hsteps : IterationState.stepLengths 0 run.states = points.map (·.stepLength) :=
    (h.states.stepLengths_eq (i := 0)).1
  rw [hnorms, hsteps]
  constructor
  case norms => simp [hcount, IterationState.result]
  case steps => simp [hcount, IterationState.result]
  case points =>
    intro i
    constructor
    · intro hi
      have hlt : i < (Progress.initial start :: points).length := by
        rw [List.length_cons, hcount]
        exact Nat.lt_succ_of_le hi
      exact ⟨_, hpoint.mp (List.getElem?_eq_getElem hlt)⟩
    · rintro ⟨p, hp⟩
      exact hlast i p hp
  case norm =>
    intro i p hp
    rw [List.getElem?_map, hpoint.mpr hp]
    rfl
  case step =>
    intro i p q hp hq
    obtain ⟨v, h, hv, haim, hadvance, hx⟩ := hp.stages hq
    have hnext : points[i]? = some q := hpoint.mpr hq
    refine ⟨v, h, hv, haim, hadvance, hx, ?_⟩
    rw [List.getElem?_map, hnext]
    rfl
  case last => exact hx

theorem iterate_records (hmax : 1 ≤ S.limits.maxIters)
    (hf : (S.iterate start).ending = .finished final) :
    S.Records start ⟨final.result, IterationState.residualNorms none (S.iterate start).states,
      IterationState.stepLengths 0 (S.iterate start).states, final.stats⟩ := by
  obtain ⟨-, ⟨r, hr, hseen, -⟩, hlast⟩ := (iterate_observes hmax).final final hf
  obtain ⟨points, hgoes⟩ : ∃ points, S.GoesThrough start (.initial start) points
      (S.iterate start) final := by
    rw [iterate_eq_trace hmax] at hf ⊢
    exact trace_goesThrough .start (Nat.zero_add _) hf
  refine hgoes.records hlast ?_
  intro p hp
  obtain rfl := hr.unique hp
  exact hseen.x

theorem Run.history_finished {run : Run R m n} (hf : run.ending = .finished final) :
    run.history = .ok ⟨final.result, IterationState.residualNorms none run.states,
      IterationState.stepLengths 0 run.states, final.stats⟩ ∧ run.result = .ok final.result := by
  have hfinal : run.final = .ok final := by simp [Run.final, hf]
  exact ⟨by simp [Run.history, hfinal], by simp [Run.result, hfinal]⟩

/-- A completed run has a record, with the result that the run has without one. -/
theorem iterate_history (hf : (S.iterate start).ending = .finished final) :
    ∃ H, (S.iterate start).history = .ok H ∧ (S.iterate start).result = .ok H.result ∧
      H.result = final.result ∧ H.stats = final.stats ∧
      (1 ≤ S.limits.maxIters → S.Records start H) ∧
      (S.limits.maxIters = 0 → H.residualNorms = [] ∧ H.stepLengths = []) := by
  obtain ⟨hhistory, hresult⟩ := Run.history_finished hf
  refine ⟨_, hhistory, hresult, rfl, rfl, fun hmax => iterate_records hmax hf, ?_⟩
  intro hmax
  have hnone : S.iterate start = .unstarted start := by rw [iterate, if_pos hmax]
  rw [hnone]
  exact ⟨rfl, rfl⟩

/-- The record of the run to the square root of two. -/
theorem rootOfTwo_history : ∃ final H, (rootOfTwo.iterate #v[1]).ending = .finished final ∧
    (rootOfTwo.iterate #v[1]).history = .ok H ∧ rootOfTwo.Records #v[1] H ∧
      H.residualNorms.length = 5 ∧ H.stepLengths.length = 4 := by
  have hfour : (rootOfTwo.iterate #v[1]).final.toOption.any (·.iteration == 4) = true := by
    decide +kernel
  cases he : (rootOfTwo.iterate #v[1]).ending with
  | escaped f => simp [Run.final, he, Except.toOption] at hfour
  | finished final =>
    have hiterations : final.iteration = 4 := by simpa [Run.final, he, Except.toOption] using hfour
    obtain ⟨H, hH, -, hresult, -, hrecords, -⟩ := iterate_history he
    have hrec := hrecords (by decide)
    have hcount : H.result.iterations = 4 := hresult ▸ hiterations
    exact ⟨final, H, rfl, hH, hrec, hrec.norms.trans (congrArg (· + 1) hcount), hrec.steps.trans hcount⟩

end Setup

end NewtonSolver
