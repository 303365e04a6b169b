import NewtonSolver.Proofs.Run.Accepted

/-! Runs without the transposed products that their Jacobians carry. Steps to a root do not ask for them,
and a run that has forgotten them is the run of a problem that never had any. -/
namespace NewtonSolver

variable {R : Type} [Scalar R] {m n : Nat}

/-! What is left of the parts of a run. -/

def JacobianInfo.forget : JacobianInfo R m n → JacobianInfo R m n
  | matrix J => matrix J
  | operator op => operator { op with applyTranspose := Problem.missingTranspose }

def Progress.forget (p : Progress R m n) : Progress R m n :=
  { p with jacobian := p.jacobian.map JacobianInfo.forget }

def IterationState.forget (s : IterationState R m n) : IterationState R m n :=
  { s with jacobian := s.jacobian.map JacobianInfo.forget }

def Visit.forget (v : Visit R m n) : Visit R m n := { v with progress := v.progress.forget }

def Heading.forget (h : Heading R m n) : Heading R m n :=
  { h with progress := h.progress.forget, jacobian := h.jacobian.forget }

def Ending.forget : Ending R m n → Ending R m n
  | finished s => finished s.forget
  | escaped f => escaped f

def Run.forget (r : Run R m n) : Run R m n := ⟨r.running.map IterationState.forget, r.ending.forget⟩

omit [Scalar R] in
theorem Run.forget_states (r : Run R m n) : r.forget.states = r.states.map IterationState.forget := by
  obtain ⟨running, ending⟩ := r
  cases ending with
  | finished s => simp [forget, Ending.forget, states]
  | escaped f => rfl

/-- A stage that forgets in what it hands on and in how it ends. -/
def Stage.forgetBy {α : Type} (f : α → α) : Stage R m n α → Stage R m n α
  | .ok a => .ok (f a)
  | .error e => .error e.forget

theorem JacobianInfo.forget_apply (J : JacobianInfo R m n) : J.forget.apply = J.apply := by
  cases J <;> rfl

/-- The problem with transposed products that are missing at every point. -/
def Problem.forgetful (P : Problem R m n) : Problem R m n :=
  { P with transposedProducts := some fun _ => missingTranspose }

theorem Problem.acquire_forget {P : Problem R m n} {c : Configuration R}
    (hfound : ∀ x fx, ∃ T, P.transposedProductsAt c x fx = .ok (some T)) (path : JacobianPath R m n)
    (x : Vec R n) (fx : Vec R m) :
    P.forgetful.acquire c path x fx = (P.acquire c path x fx).map JacobianInfo.forget := by
  have hproducts : P.forgetful.productsAt c x fx = P.productsAt c x fx := rfl
  unfold acquire
  split
  case h_1 materialize hpath =>
    cases materialize x with
    | error f => rfl
    | ok J =>
      simp only [Outcome.ok_bind]
      split <;> rfl
  case h_2 hpath =>
    obtain ⟨T, hT⟩ := hfound x fx
    have hforgetful : P.forgetful.transposedProductsAt c x fx = .ok (some missingTranspose) := rfl
    simp only [operatorAt, hproducts, hT, hforgetful]
    cases P.productsAt c x fx <;> rfl

theorem Descent.compute_forget {K : Kernels R} {c : Configuration R}
    (hl : c.leastSquares m n = false) (solver : LinearSolver R) (J : JacobianInfo R m n)
    (residual : Vec R m) (cache : LinearCache R) :
    compute K c solver J.forget residual cache = compute K c solver J residual cache := by
  cases J with
  | matrix J => rfl
  | operator op => exact compute_transpose hl solver op _ residual cache

namespace Setup

def forgetful (S : Setup R m n) : Setup R m n := { S with problem := S.problem.forgetful }

variable {S : Setup R m n}

theorem visit_forget (p : Progress R m n) :
    S.forgetful.visit p.forget = (S.visit p).forgetBy Visit.forget := by
  have hvalue : S.forgetful.problem.residual.value p.forget.x = S.problem.residual.value p.x := rfl
  have hlimits : S.forgetful.limits = S.limits := rfl
  unfold visit
  dsimp only
  rw [hvalue, hlimits]
  split
  · split <;> rfl
  · rfl

section Transposes

variable
  (hfound : ∀ x fx, ∃ T, S.problem.transposedProductsAt S.configuration x fx = .ok (some T))
  (hl : S.configuration.leastSquares m n = false)

include hfound

theorem jacobianAt_forget (v : Visit R m n) : S.forgetful.jacobianAt v.forget =
    (S.jacobianAt v).map fun (path, J) => (path, J.forget) := by
  have hpath : S.forgetful.pathAt v.forget = S.pathAt v := rfl
  unfold jacobianAt
  rw [hpath]
  cases S.pathAt v with
  | error f => rfl
  | ok path =>
    have hacquire : S.forgetful.problem.acquire S.forgetful.configuration path v.forget.progress.x
        v.forget.residual = (S.problem.acquire S.configuration path v.progress.x v.residual).map
          JacobianInfo.forget := Problem.acquire_forget hfound path _ _
    simp only [Outcome.ok_bind, hacquire]
    cases S.problem.acquire S.configuration path v.progress.x v.residual <;> rfl

include hl

theorem aim_forget (v : Visit R m n) :
    S.forgetful.aim v.forget = (S.aim v).forgetBy Heading.forget := by
  unfold aim
  rw [jacobianAt_forget hfound]
  cases S.jacobianAt v with
  | error f => cases f <;> rfl
  | ok found =>
    obtain ⟨path, J⟩ := found
    have hdescent : S.forgetful.direct path J.forget v.forget.residual
        (v.forget.progress.acquired path J.forget).cache =
          S.direct path J v.residual (v.progress.acquired path J).cache :=
      if_congr Iff.rfl rfl (Descent.compute_forget hl _ J _ _)
    change S.forgetful.head v.forget path J.forget = (S.head v path J).forgetBy Heading.forget
    unfold head
    dsimp only
    rw [hdescent]
    have hlimits : S.forgetful.limits = S.limits := rfl
    rw [hlimits]
    split
    · rfl
    · rfl
    · rfl
    · split <;> rfl

omit hfound hl in
theorem advance_forget (h : Heading R m n) :
    S.forgetful.advance h.forget = (S.advance h).forgetBy Progress.forget := by
  have hslope : h.forget.slope S.forgetful.configuration.lineSearch =
      h.slope S.configuration.lineSearch := by
    unfold Heading.slope
    rw [show h.forget.jacobian.apply = h.jacobian.apply from h.jacobian.forget_apply]
    rfl
  have hselection (slope : R) : S.forgetful.selection h.forget slope = S.selection h slope := rfl
  have hs := S.advances h
  generalize S.advance h = outcome at hs ⊢
  cases hs with
  | slopeless hs =>
    unfold advance
    rw [hslope, hs]
    rfl
  | stepped hs ha => exact advance_of_step (hslope.trans hs) ha
  | stuck hs ha hp =>
    rw [advance_of_unfound (hslope.trans hs) ha, recover,
      show S.forgetful.configuration.policy = .fail from hp]
    rfl
  | halved hs ha hp =>
    rw [advance_of_unfound (hslope.trans hs) ha, recover,
      show S.forgetful.configuration.policy = .halve from hp]
    rfl
  | escaped hs ha hf => exact advance_of_escaped (hslope.trans hs) ha hf

theorem next_forget (v : Visit R m n) :
    S.forgetful.next v.forget = (S.next v).forgetBy Progress.forget := by
  unfold next
  rw [aim_forget hfound hl]
  cases S.aim v with
  | error e => rfl
  | ok h => exact advance_forget h

/-- The induction is on the updates that are left, as the run makes them. -/
theorem trace_forget (updates : Nat) (p : Progress R m n) :
    (S.trace updates p).forget = S.forgetful.trace updates p.forget := by
  induction updates generalizing p with
  | zero =>
    unfold trace
    rw [visit_forget]
    cases S.visit p with
    | error e => rfl
    | ok v =>
      simp only [Stage.forgetBy]
      rw [aim_forget hfound hl]
      cases S.aim v <;> rfl
  | succ updates ih =>
    unfold trace
    rw [visit_forget]
    cases S.visit p with
    | error e => rfl
    | ok v =>
      simp only [Stage.forgetBy]
      rw [next_forget hfound hl]
      cases S.next v with
      | error e => rfl
      | ok q =>
        simp only [Stage.forgetBy]
        rw [← ih q]
        rfl

theorem iterate_forget (start : Vec R n) :
    (S.iterate start).forget = S.forgetful.iterate start := by
  have hlimits : S.forgetful.limits = S.limits := rfl
  unfold iterate
  rw [hlimits]
  split
  · rfl
  · exact trace_forget hfound hl _ _

end Transposes

end Setup

end NewtonSolver
