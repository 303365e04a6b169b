import NewtonSolver.Problem.Formulation
import NewtonSolver.Run.Step

/-! The states of a run, one for each evaluated residual until it ends. The problem and the first point are
given as they are written down. -/
namespace NewtonSolver

namespace Setup

variable {R : Type} [Scalar R] {m n : Nat}

def next (S : Setup R m n) (v : Visit R m n) : Stage R m n (Progress R m n) := do
  S.advance (← S.aim v)

/-- The run that makes at most so many more updates. -/
def trace (S : Setup R m n) : Nat → Progress R m n → Run R m n
  | 0, p =>
    match S.visit p with
    | .error e => ⟨[], e⟩
    | .ok v =>
      match S.aim v with
      | .error e => ⟨[], e⟩
      | .ok h => ⟨[], .finished (h.progress.state h.residual .maxItersReached)⟩
  | updates + 1, p =>
    match S.visit p with
    | .error e => ⟨[], e⟩
    | .ok v =>
      match S.next v with
      | .error e => ⟨[v.state], e⟩
      | .ok p => (S.trace updates p).cons v.state

def iterate (S : Setup R m n) (x : Vec R n) : Run R m n :=
  if S.limits.maxIters = 0 then .unstarted x else S.trace S.limits.maxIters (.initial x)

end Setup

/-- A run with the numbers of its equations and unknowns. -/
structure SizedRun (R : Type) where
  rows : Nat
  cols : Nat
  run : Run R rows cols

variable {R : Type} [Scalar R]

/-- A number is a vector of length one; lists of lists are refused. -/
def initialPoint (x : Nested R) : Except (Failure R) (List R) :=
  match x.shape with
  | [] | [_] => .ok x.leaves
  | shape => .error (.configuration (.initialShape shape))

/-- A run without updates does not look at the problem. -/
def Formulation.iterate (K : Kernels R) (F : Formulation R) (x : Nested R) (c : Configuration R)
    (limits : LimitOptions R) : Except (Failure R) (SizedRun R) := do
  let limits ← limits.validate
  let x : Vec R _ := ⟨(← initialPoint x).toArray, rfl⟩
  if limits.maxIters = 0 then return ⟨F.size, _, .unstarted x⟩
  else match F.problem? F.size _ with
    | none => .error (.unfit .argument)
    | some P => return ⟨_, _, Setup.iterate ⟨K, P, c, limits⟩ x⟩

end NewtonSolver
