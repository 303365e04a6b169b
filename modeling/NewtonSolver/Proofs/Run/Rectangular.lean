import NewtonSolver.Configuration.Build
import NewtonSolver.Proofs.Outcome
import NewtonSolver.Proofs.Run.Agreement
import NewtonSolver.Proofs.Run.Shape

/-! Where there are not as many equations as unknowns, steps to a root are steps to a least squares
point, and the kind of step that is asked for makes no difference to any run. -/
namespace NewtonSolver

variable {R : Type} [Scalar R] {m n : Nat} {c : Configuration R}

/-- The same configuration but for the kind of step. -/
def Configuration.withKind (c : Configuration R) (kind : DescentKind) : Configuration R := { c with kind }

def ConfigurationBuild.withKind (b : ConfigurationBuild R) (kind : DescentKind) :
    ConfigurationBuild R := { b with configuration := b.configuration.withKind kind }

/-- The kind of step is looked at before all other options, and they are checked without regard to it. -/
theorem Options.build_gaussNewton (o : Options R) :
    o.build (.text "gauss_newton") =
      (fun b => b.withKind .gaussNewton) <$> o.build (.text "newton") := by
  simp only [Options.build, DescentKind.ofSetting, Outcome.ok_bind, map_bind, map_pure]
  rfl

section Rectangular

variable (hmn : m ≠ n) (kind : DescentKind)

include hmn

/-- A solver is chosen for least squares whatever the kind. -/
theorem LinearSolver.default_rectangular (concrete : Bool) :
    LinearSolver.default (R := R) kind concrete (decide (m = n)) =
      .default .gaussNewton concrete (decide (m = n)) := by
  simp [LinearSolver.default, hmn]

theorem Configuration.solverFor_withKind : (c.withKind kind).solverFor m n = c.solverFor m n := by
  have hdefault := LinearSolver.default_rectangular (R := R) hmn
  rw [solverFor, solverFor, hdefault _ (c.withKind kind).concrete, hdefault c.kind]
  rfl

omit [Scalar R] in
theorem Configuration.leastSquares_withKind :
    (c.withKind kind).leastSquares m n = c.leastSquares m n := by
  simp [leastSquares, hmn]

theorem Problem.resolvePath_withKind (P : Problem R m n) :
    P.resolvePath (c.withKind kind) = P.resolvePath c := by
  funext x
  simp only [resolvePath, c.solverFor_withKind hmn kind, c.leastSquares_withKind hmn kind]
  rfl

/-- A Jacobian that is not square is never solved with for a root. -/
theorem Descent.compute_withKind (K : Kernels R) :
    compute (m := m) (n := n) K (c.withKind kind) = compute K c := by
  funext solver J residual cache
  simp only [compute, solveModel, dif_neg hmn]
  rfl

theorem Setup.agrees_withKind (S : Setup R m n) :
    S.Agrees { S with configuration := S.configuration.withKind kind } where
  limits := rfl
  value := rfl
  path := (S.problem.resolvePath_withKind hmn kind).symm
  acquire := rfl
  descent := (Descent.compute_withKind hmn kind S.kernels).symm
  lineSearch := rfl
  merit := rfl
  policy := rfl

/-- Options are accepted for both kinds of step or refused for both in the same words, and with the
accepted ones every run is the same. -/
theorem Setup.iterate_kinds (o : Options R) :
    o.build (.text "gauss_newton") =
        (fun b => b.withKind .gaussNewton) <$> o.build (.text "newton") ∧
      ∀ built, o.build (.text "newton") = .ok built →
        ∀ (K : Kernels R) (P : Problem R m n) (limits : RunLimits R) (start : Vec R n),
          (Setup.mk K P built.configuration limits).iterate start =
            (Setup.mk K P (built.withKind .gaussNewton).configuration limits).iterate start := by
  refine ⟨o.build_gaussNewton, fun built _ K P limits start => ?_⟩
  have hagrees := (Setup.mk K P built.configuration limits).agrees_withKind hmn .gaussNewton
  exact congrFun hagrees.iterate_eq start

end Rectangular

/-- Two equations in one unknown that have no common solution. -/
def Problem.inconsistent : Problem Float 2 1 where
  residual := .ofExpressions #v[Setup.unknown, .binary .sub Setup.unknown (.constant 1)] false
  jacobian := none
  products := none
  transposedProducts := none
  sparsity := none
  traceable := true

/-- Options that leave the solver to be chosen and the Jacobian without entries. -/
def Options.withoutMatrix : Options Float := { Options.defaults with concrete := .flag false }

theorem Setup.inconsistent_kinds :
    2 ≠ 1 ∧ ∃ built, Options.withoutMatrix.build (.text "newton") = .ok built ∧
      (mk .standard .inconsistent built.configuration ⟨100, Scalar.decimal 1 8, 0⟩).iterate #v[5] =
        (mk .standard .inconsistent (built.withKind .gaussNewton).configuration
          ⟨100, Scalar.decimal 1 8, 0⟩).iterate #v[5] := by
  have hne : 2 ≠ 1 := by decide
  exact ⟨hne, _, rfl, (iterate_kinds hne Options.withoutMatrix).2 _ rfl _ .inconsistent _ _⟩

end NewtonSolver
