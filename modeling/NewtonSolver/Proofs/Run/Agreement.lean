import NewtonSolver.Run.Trace

/-! Runs that cannot be told apart: setups that agree at every stage of an update have the same runs. -/
namespace NewtonSolver.Setup

variable {R : Type} [Scalar R] {m n : Nat}

/-- Two setups that give the same values, the same Jacobians, the same directions and the same steps. -/
structure Agrees (S T : Setup R m n) : Prop where
  limits : S.limits = T.limits
  value : S.problem.residual.value = T.problem.residual.value
  path : S.problem.resolvePath S.configuration = T.problem.resolvePath T.configuration
  acquire : S.problem.acquire S.configuration = T.problem.acquire T.configuration
  descent : Descent.compute (m := m) (n := n) S.kernels S.configuration =
    Descent.compute T.kernels T.configuration
  lineSearch : S.configuration.lineSearch = T.configuration.lineSearch
  merit : LineSearch.Merit.along (k := m) S.problem.residual S.problem.traceable =
    .along T.problem.residual T.problem.traceable
  policy : S.configuration.policy = T.configuration.policy

namespace Agrees

variable {S T : Setup R m n} (h : S.Agrees T)

include h

theorem visit_eq : S.visit = T.visit := by
  funext p
  simp only [visit, h.value, h.limits]

theorem jacobianAt_eq : S.jacobianAt = T.jacobianAt := by
  funext v
  simp only [jacobianAt, pathAt, h.path, h.acquire]

theorem direct_eq : S.direct = T.direct := by
  funext path J residual cache
  simp only [direct, h.descent]

theorem aim_eq : S.aim = T.aim := by
  funext v
  simp only [aim, head, h.jacobianAt_eq, h.direct_eq, h.limits]

theorem advance_eq : S.advance = T.advance := by
  funext H
  simp only [advance, recover, h.lineSearch, h.merit, h.policy]

theorem next_eq : S.next = T.next := by
  funext v
  simp only [next, h.aim_eq, h.advance_eq]

/-- The induction is on the updates that are left, as the run makes them. -/
theorem trace_eq (updates : Nat) : S.trace updates = T.trace updates := by
  induction updates with
  | zero =>
    funext p
    simp only [trace, h.visit_eq, h.aim_eq]
  | succ updates ih =>
    funext p
    simp only [trace, h.visit_eq, h.next_eq, ih]

theorem iterate_eq : S.iterate = T.iterate := by
  funext start
  simp only [iterate, h.limits, h.trace_eq]

end Agrees

end NewtonSolver.Setup
