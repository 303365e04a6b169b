import NewtonSolver.Proofs.Run.Completion
import NewtonSolver.Run.History

/-! The shape of a run: its states are numbered in order, each follows from the one before by an update
along the direction at its point, and the last one tells how the run ended. -/
namespace NewtonSolver.Setup

variable {R : Type} [Scalar R] {m n : Nat}

/-- One turn of the loop: the states that are seen, and the end or the next point. The budget is tested
before the Jacobian is acquired. -/
def turn (S : Setup R m n) (p : Progress R m n) :
    List (IterationState R m n) × Stage R m n (Progress R m n) :=
  match S.visit p with
  | .error e => ([], .error e)
  | .ok v =>
    if S.limits.maxIters ≤ p.iteration then
      ([], do
        let h ← S.aim v
        h.progress.finish h.residual .maxItersReached)
    else ([v.state], S.next v)

/-- The runs that the loop gives from a point on, after finitely many turns. -/
inductive Loops (S : Setup R m n) : Progress R m n → Run R m n → Prop
  | ends {p : Progress R m n} {seen : List (IterationState R m n)} {e : Ending R m n}
    (h : S.turn p = (seen, .error e)) : Loops S p ⟨seen, e⟩
  | goes {p q : Progress R m n} {seen : List (IterationState R m n)} {r : Run R m n}
    (h : S.turn p = (seen, .ok q)) (hr : Loops S q r) : Loops S p ⟨seen ++ r.running, r.ending⟩

/-- A state follows another: the run ends at the same point, or an update was made along the direction
there by the step length that is recorded. -/
inductive Follows (S : Setup R m n) (start : Vec R n) (cache : LinearCache R)
    (s t : IterationState R m n) : Prop
  | stays (hi : t.iteration = s.iteration) (ht : t.status.isTerminal = true) (hx : t.x = s.x)
    (hr : t.residual = s.residual)
  | moves (d : Vec R n) (hi : t.iteration = s.iteration + 1)
    (hd : (S.descentAt start s.x cache).1 = .ok ⟨d, none⟩) (hx : t.x = s.x + t.stepLength * d)

/-- The cache before the descent of an iteration. -/
def cacheBefore (S : Setup R m n) (start : Vec R n) (running : List (IterationState R m n))
    (iteration : Nat) : LinearCache R :=
  S.cacheAfter start ((running.take iteration).map (·.x))

/-- What the states of a run from `start` promise, where the last of them is `final`. -/
structure Shaped (S : Setup R m n) (start : Vec R n) (running : List (IterationState R m n))
    (final : IterationState R m n) : Prop where
  length : running.length ≤ S.limits.maxIters
  iterations : running.map (·.iteration) = List.range running.length
  before : ∀ s ∈ running, s.status = .running
  terminal : final.status.isTerminal = true
  finalIteration : final.iteration + 1 = running.length ∨ final.iteration = running.length
  budget : final.iteration ≤ S.limits.maxIters
  first : ∀ s ∈ (running ++ [final]).head?, s.x = start ∧ s.stepLength = 1
  residual : ∀ s ∈ running ++ [final], s.residual = some (S.problem.residual.value s.x)
  follows : ∀ i s t, (running ++ [final])[i]? = some s → (running ++ [final])[i + 1]? = some t →
    S.Follows start (S.cacheBefore start running i) s t
  converged : final.status = .converged →
    (S.problem.residual.value final.x).maxAbs ≤ S.limits.tolerance ∨
      ∃ d, (S.descentAt start final.x (S.cacheBefore start running final.iteration)).1 =
        .ok ⟨d, none⟩ ∧ d.norm ≤ S.limits.stepTolerance
  exhausted : final.status = .maxItersReached → final.iteration = S.limits.maxIters ∧
    ¬ (S.problem.residual.value final.x).maxAbs ≤ S.limits.tolerance ∧
      ∃ d, (S.descentAt start final.x (S.cacheBefore start running final.iteration)).1 =
        .ok ⟨d, none⟩ ∧ ¬ d.norm ≤ S.limits.stepTolerance
  failed [Written R] : ∀ f, final.status = .failed f → f.message = "non-finite residual" ∨
    ∃ label ∈ ["differentiation failure: ", "linear solve failure: ", "line search failure: "],
      ∃ detail, f.message = label ++ detail

variable {S : Setup R m n} {start : Vec R n} {earlier : List (Vec R n)} {p : Progress R m n}
  {running : List (IterationState R m n)} {final : IterationState R m n} {cache : LinearCache R}

/-- The run ends with the budget, because its points and the updates that are left add up to it. -/
theorem trace_loops {updates : Nat} (hr : S.Reached start earlier p)
    (hu : earlier.length + updates = S.limits.maxIters) : S.Loops p (S.trace updates p) := by
  have hi := hr.iteration
  induction updates generalizing earlier p with
  | zero =>
    rw [trace]
    cases hv : S.visit p with
    | error e => exact .ends (by simp [turn, hv])
    | ok v =>
      have hm : S.limits.maxIters ≤ p.iteration := by omega
      cases ha : S.aim v with
      | error e => exact .ends (by simp [turn, hv, hm, ha])
      | ok h => exact .ends (by simp [turn, hv, hm, ha, Progress.finish])
  | succ updates ih =>
    rw [trace]
    cases hv : S.visit p with
    | error e => exact .ends (by simp [turn, hv])
    | ok v =>
      have hm : ¬ S.limits.maxIters ≤ p.iteration := by omega
      cases hn : S.next v with
      | error e => exact .ends (by simp [turn, hv, hm, hn])
      | ok q =>
        have hq := (next_ok hr hv hn).1
        have hl : (earlier ++ [p.x]).length + updates = S.limits.maxIters := by
          simp only [List.length_append, List.length_singleton]
          omega
        have ht : S.turn p = ([v.state], .ok q) := by simp [turn, hv, hm, hn]
        simpa [hn, Run.cons] using Loops.goes ht (ih hq hl hq.iteration)

theorem iterate_loops (hmax : 1 ≤ S.limits.maxIters) :
    S.Loops (.initial start) (S.iterate start) := by
  rw [iterate_eq_trace hmax]
  exact trace_loops reached_initial (by simp)

namespace EndsAt

variable {s : IterationState R m n}

theorem of_converged (h : S.EndsAt start cache s) (hs : s.status = .converged) :
    (S.problem.residual.value s.x).maxAbs ≤ S.limits.tolerance ∨
      ∃ d, (S.descentAt start s.x cache).1 = .ok ⟨d, none⟩ ∧ d.norm ≤ S.limits.stepTolerance := by
  cases h with
  | small _ _ ht => exact Or.inl ht
  | short d _ _ _ hd hn => exact Or.inr ⟨d, hd, hn⟩
  | _ => simp_all

theorem of_exhausted (h : S.EndsAt start cache s) (hs : s.status = .maxItersReached) :
    s.iteration = S.limits.maxIters ∧
      ¬ (S.problem.residual.value s.x).maxAbs ≤ S.limits.tolerance ∧
        ∃ d, (S.descentAt start s.x cache).1 = .ok ⟨d, none⟩ ∧
          ¬ d.norm ≤ S.limits.stepTolerance := by
  cases h with
  | exhausted d _ hi ht hd hn => exact ⟨hi, ht, d, hd, hn⟩
  | _ => simp_all

theorem of_nonFinite (h : S.EndsAt start cache s) (hs : s.status = .failed .nonFiniteResidual) :
    (S.problem.residual.value s.x).allFinite = false := by
  cases h with
  | nonFinite _ hf => exact hf
  | _ => simp_all

theorem of_failed [Written R] (h : S.EndsAt start cache s) {f : RunFailure R}
    (hs : s.status = .failed f) : f.message = "non-finite residual" ∨
      ∃ label ∈ ["differentiation failure: ", "linear solve failure: ", "line search failure: "],
        ∃ detail, f.message = label ++ detail := by
  cases f with
  | nonFiniteResidual => exact Or.inl rfl
  | differentiation g => exact Or.inr ⟨_, by simp, g.message, rfl⟩
  | linearSolve g => exact Or.inr ⟨_, by simp, g.message, rfl⟩
  | lineSearch g => exact Or.inr ⟨_, by simp, g.message, rfl⟩
  | reported text => cases h <;> simp_all

end EndsAt

namespace Completes

/-- Neighbours in the run, where the cache is the one after the updates made at the points before. -/
theorem follows (h : S.Completes start earlier p running final) :
    ∀ i s t, (running ++ [final])[i]? = some s → (running ++ [final])[i + 1]? = some t →
      S.Follows start (S.cacheAfter start (earlier ++ (running.take i).map (·.x))) s t := by
  induction h with
  | last hr hb hf he => simp
  | stopped hr hb hs hrun hf he =>
    intro i s t hsi hti
    cases i with
    | zero =>
      simp at hsi hti
      subst hsi hti
      exact .stays (hf.iteration.trans hs.iteration.symm) he.terminal (hf.x.trans hs.x.symm)
        (hf.residual.trans hs.residual.symm)
    | succ i => simp at hti
  | updated hr hb hs hrun hd hx hc ih =>
    intro i s t hsi hti
    cases i with
    | zero =>
      have ht := hc.head t (by simpa [List.head?_eq_getElem?] using hti)
      simp at hsi
      subst hsi
      refine .moves _ ?_ (by simpa [hs.x, ← hr.cache] using hd) ?_
      · rw [ht.iteration, hc.reached.iteration, hs.iteration, hr.iteration]
        simp
      · rw [ht.x, ht.stepLength, hs.x, hx]
    | succ i =>
      have hf := ih i s t (by simpa using hsi) (by simpa using hti)
      simpa [hs.x] using hf

/-- The end of the run is decided at its last point. -/
theorem ends (h : S.Completes start earlier p running final) :
    S.EndsAt start (S.cacheAfter start
      (earlier ++ (running.take (final.iteration - earlier.length)).map (·.x))) final := by
  induction h with
  | last hr hb hf he => simpa [← hr.cache] using he
  | stopped hr hb hs hrun hf he => simpa [hf.iteration, hr.iteration, ← hr.cache] using he
  | @updated earlier p q running s final d hr hb hs hrun hd hx hc ih =>
    have hi := hc.final_iteration.2.1
    obtain ⟨k, hk⟩ : ∃ k, final.iteration - earlier.length = k + 1 :=
      ⟨final.iteration - earlier.length - 1, by simp at hi; omega⟩
    have hk' : final.iteration - (earlier ++ [p.x]).length = k := by
      simp
      omega
    rw [hk'] at ih
    simpa [hk, hs.x] using ih

theorem shaped (h : S.Completes start [] (.initial start) running final) :
    S.Shaped start running final := by
  have he : S.EndsAt start (S.cacheBefore start running final.iteration) final := h.ends
  have hi : final.iteration + 1 = running.length ∨ final.iteration = running.length := by
    simpa using h.final_iteration.1
  refine ⟨by simpa using h.length_le, by simpa [List.range_eq_range'] using h.iterations,
    h.running_status, h.terminal, hi, h.final_iteration.2.2, ?_, h.residuals, h.follows,
    he.of_converged, he.of_exhausted, fun f => he.of_failed⟩
  intro s hs
  have hseen := h.head s hs
  exact ⟨hseen.x, hseen.stepLength⟩

end Completes

/-- A run that may make updates is what finitely many turns of the loop give, and unless a failure
escapes it has the shape. -/
theorem iterate_shape (hmax : 1 ≤ S.limits.maxIters) :
    S.Loops (.initial start) (S.iterate start) ∧
      ∀ final, (S.iterate start).ending = .finished final →
        S.Shaped start (S.iterate start).running final :=
  ⟨iterate_loops hmax, fun _ hf => (iterate_completes hmax hf).shaped⟩

/-- The unknown of an equation in one unknown. -/
def unknown : Expression Float (Fin 1) := .var 0

/-- Newton's method for one equation, where conjugate gradients give the directions. -/
def oneEquation (e : Expression Float (Fin 1)) (limits : RunLimits Float) : Setup Float 1 1 where
  kernels := .standard
  problem :=
    { residual := .ofExpressions #v[e] false
      jacobian := none
      products := none
      transposedProducts := none
      sparsity := none
      traceable := true }
  configuration :=
    { needsMatrix := none
      kind := .newton
      linearSolver := some (.krylov .cg ⟨.real (Scalar.decimal 1 10), .real 0, .none⟩)
      preconditioner := none
      lineSearch := .fullStep (.text "none")
      jacobianBackend := none
      transposedBackend := none
      policy := .fail }
  limits := limits

/-- The method for the square root of two. -/
def rootOfTwo : Setup Float 1 1 :=
  oneEquation (.binary .sub (.binary .mul unknown unknown) (.constant 2))
    ⟨100, Scalar.decimal 1 8, Scalar.decimal 1 8⟩

theorem rootOfTwo_shape : 1 ≤ rootOfTwo.limits.maxIters ∧
    rootOfTwo.Loops (.initial #v[1]) (rootOfTwo.iterate #v[1]) ∧
      ∃ final, (rootOfTwo.iterate #v[1]).ending = .finished final ∧
        rootOfTwo.Shaped #v[1] (rootOfTwo.iterate #v[1]).running final := by
  have h : rootOfTwo.Loops (.initial #v[1]) (rootOfTwo.iterate #v[1]) ∧ _ :=
    iterate_shape (by decide)
  have hok : (rootOfTwo.iterate #v[1]).final.isOk = true := by decide +kernel
  refine ⟨by decide, h.1, ?_⟩
  cases he : (rootOfTwo.iterate #v[1]).ending with
  | finished final => exact ⟨final, rfl, h.2 final he⟩
  | escaped f => simp [Run.final, he, Except.isOk, Except.toBool] at hok

end NewtonSolver.Setup
