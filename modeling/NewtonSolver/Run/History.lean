import NewtonSolver.Run.State

/-! What is kept of a run: its result, and the residual norms and step lengths on the way. -/
namespace NewtonSolver

structure RunResult (R : Type) (n : Nat) where
  x : Vec R n
  status : Status R
  iterations : Nat

structure RunHistory (R : Type) (n : Nat) where
  result : RunResult R n
  /-- The residual norm at every point that was evaluated. -/
  residualNorms : List R
  /-- The step length of every update. -/
  stepLengths : List R
  stats : Stats

namespace Run

variable {R : Type} [Scalar R] {m n : Nat}

def states (r : Run R m n) : List (IterationState R m n) :=
  match r.ending with
  | .finished s => r.running ++ [s]
  | .escaped _ => r.running

/-- The last state, unless a failure has escaped. -/
def final (r : Run R m n) : Except (Failure R) (IterationState R m n) :=
  match r.ending with
  | .finished s => .ok s
  | .escaped f => .error f

end Run

namespace IterationState

variable {R : Type} [Scalar R] {m n : Nat}

def result (s : IterationState R m n) : RunResult R n := ⟨s.x, s.status, s.iteration⟩

/-- The residual norms of states at other points than the one recorded before. -/
def residualNorms : Option Nat → List (IterationState R m n) → List R
  | _, [] => []
  | recorded, s :: rest =>
    match s.residual with
    | some residual =>
      if recorded = some s.iteration then residualNorms recorded rest
      else residual.norm :: residualNorms (some s.iteration) rest
    | none => residualNorms recorded rest

/-- The step lengths of states after more updates than the ones before. -/
def stepLengths : Nat → List (IterationState R m n) → List R
  | _, [] => []
  | iteration, s :: rest =>
    if iteration < s.iteration then s.stepLength :: stepLengths s.iteration rest
    else stepLengths iteration rest

end IterationState

namespace Run

variable {R : Type} [Scalar R] {m n : Nat}

def result (r : Run R m n) : Except (Failure R) (RunResult R n) := do return (← r.final).result

def history (r : Run R m n) : Except (Failure R) (RunHistory R n) := do
  let final ← r.final
  return ⟨final.result, IterationState.residualNorms none r.states,
    IterationState.stepLengths 0 r.states, final.stats⟩

end Run

end NewtonSolver
