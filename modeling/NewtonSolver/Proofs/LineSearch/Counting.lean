import NewtonSolver.LineSearch.Select
import NewtonSolver.Proofs.LineSearch.Fields

/-! How often a line search evaluates the residual. The searches are written down once more with a
counter that every evaluation moves on, and what they say they took is what is counted. -/
namespace NewtonSolver.LineSearch

variable {R : Type} [Scalar R] {m n k : Nat}

/-- A computation that counts the evaluations of the residual that it makes. -/
abbrev Counting (α : Type) := StateM Nat α

/-- A stage that has been carried out. -/
theorem Counting.run_bind {α β : Type} {x : Counting α} {f : α → Counting β} {a : α} {before after : Nat}
    (h : x.run before = (a, after)) : (x >>= f).run before = (f a).run after := by
  rw [StateT.run_bind, h]
  rfl

def evaluate (F : Residual R m n) (y : Vec R n) : Counting (Vec R m) := do
  modify (· + 1)
  return F.value y

/-- The values and slopes of a merit function with the evaluations that they take. -/
structure Evaluator (R : Type) where
  value : R → Counting R
  slope : R → Counting R

namespace Evaluator

/-- Half the squared residual norm along a direction. An automatic derivative goes through the residual
once, a difference evaluates it on both sides. -/
def along (F : Residual R m n) (differentiable : Bool) (x direction : Vec R n) : Evaluator R where
  value := valueAt
  slope alpha :=
    if differentiable then do
      let y := x + alpha * direction
      return Vec.dot (← evaluate F y) (F.forward y direction)
    else do
      let h := Scalar.decimal 6055454452393343 21 * Scalar.atLeast 1 (Scalar.abs alpha)
      let above ← valueAt (alpha + h)
      let below ← valueAt (alpha - h)
      return (above - below) / (((2 : Nat) : R) * h)
where
  valueAt (alpha : R) : Counting R := do
    return halfSquare (← evaluate F (x + alpha * direction))

/-- The evaluator gives what the merit function does, a value for one evaluation and a slope for as many
as are said to be needed. -/
structure Counts (E : Evaluator R) (merit : Merit R) : Prop where
  value : ∀ alpha count, (E.value alpha).run count = (merit.value alpha, count + 1)
  slope : ∀ alpha count, (E.slope alpha).run count = (merit.slope alpha, count + merit.slopeCost)

theorem along_counts (F : Residual R m n) (differentiable : Bool) (x direction : Vec R n)
    (residual : Vec R k) (slope : R) :
    (along F differentiable x direction).Counts
      (.along F differentiable x direction residual slope) where
  value _ _ := rfl
  slope alpha count := by
    cases differentiable <;> rfl

end Evaluator

/-- The search of `Backtracking.search`, which counts. -/
def Backtracking.searchCounted (s : Backtracking R) (merit : Merit R) (E : Evaluator R) :
    Nat → R → Counting (Option R)
  | 0, _ => return none
  | steps + 1, alpha => do
    let value ← E.value alpha
    if s.accepts merit alpha value then return some alpha
    else s.searchCounted merit E steps (s.shorten merit alpha value)

def backtrackCounted (fields : BacktrackingFields R) (merit : Merit R) (E : Evaluator R) :
    Counting (Except (Failure R) R) :=
  if isDescent merit.slopeAtZero then
    match Backtracking.ofFields fields with
    | .error f => return .error (.ofFault f)
    | .ok s => do
      match ← s.searchCounted merit E s.maxSteps 1 with
      | some alpha => return .ok alpha
      | none => return .error (.lineSearch (.noDecrease fields.maxSteps))
  else return .error (.lineSearch (.notDescent merit.slopeAtZero))

/-- A slope that is asked for; the one at zero is known. -/
def Evaluator.slopeOf (E : Evaluator R) (merit : Merit R) (alpha : R) : Counting R :=
  if alpha == 0 then return merit.slopeAtZero else E.slope alpha

/-- The questions of a procedure with their answers, counted. -/
def Method.runCounted (merit : Merit R) (E : Evaluator R) : Method R → Counting (Option R)
  | done step => return step
  | value alpha next => do
    let v ← E.value alpha
    (next v).runCounted merit E
  | slope alpha next => do
    let d ← E.slopeOf merit alpha
    (next d).runCounted merit E
  | both alpha next => do
    let v ← E.value alpha
    let d ← E.slopeOf merit alpha
    (next v d).runCounted merit E

def consultCounted (method : Setting R) (merit : Merit R) (E : Evaluator R) :
    Counting (Except (Failure R) R) :=
  match method with
  | .callable (.lineSearch _ run) => do
    let step ← (run ⟨1, merit.valueAtZero, merit.slopeAtZero⟩).runCounted merit E
    return usable step
  | .callable _ => return .error (.unfit .argument)
  | method => return .error (.unfit (.noFunction method.kind))

/-- The step length along a direction, with every evaluation of the residual counted. -/
def selectCounted (strategy : LineSearchStrategy R) (merit : Merit R) (E : Evaluator R) :
    Counting (Except (Failure R) R) :=
  match strategy with
  | .fullStep _ => return .ok 1
  | .backtracking fields => backtrackCounted fields merit E
  | .external method => consultCounted method merit E

section Counts

variable {merit : Merit R} {E : Evaluator R} (hE : E.Counts merit)

include hE

/-- The induction is on the steps that may still be tried. -/
theorem searchCounted_run (s : Backtracking R) (steps : Nat) (alpha : R) (count : Nat) :
    (s.searchCounted merit E steps alpha).run count =
      ((s.search merit steps alpha).1, count + (s.search merit steps alpha).2) := by
  induction steps generalizing alpha count with
  | zero => rfl
  | succ steps ih =>
    rw [Backtracking.searchCounted, Backtracking.search, Counting.run_bind (hE.value _ _)]
    split
    · rfl
    · rw [ih, Nat.add_assoc, Nat.add_comm 1]

theorem backtrackCounted_run (fields : BacktrackingFields R) (count : Nat) :
    (backtrackCounted fields merit E).run count =
      ((backtrack fields merit).step, count + (backtrack fields merit).evaluations) := by
  unfold backtrackCounted backtrack
  split
  · cases Backtracking.ofFields fields with
    | error f => rfl
    | ok s =>
      dsimp only
      rw [Counting.run_bind (searchCounted_run hE s s.maxSteps 1 count)]
      rcases s.search merit s.maxSteps 1 with ⟨_ | alpha, tried⟩ <;> rfl
  · rfl

theorem slopeOf_run (alpha : R) (count : Nat) : (E.slopeOf merit alpha).run count =
    (merit.slopeOf alpha, count + merit.costOfSlope alpha) := by
  unfold Evaluator.slopeOf Merit.slopeOf Merit.costOfSlope
  split
  · rfl
  · exact hE.slope alpha count

/-- The induction is on the procedure, question by question. -/
theorem runCounted_run (method : Method R) (count : Nat) : (method.runCounted merit E).run count =
    ((method.run merit).step, count + (method.run merit).evaluations) := by
  induction method generalizing count with
  | done step => rfl
  | value alpha next ih =>
    rw [Method.runCounted, Counting.run_bind (hE.value _ _), ih, Nat.add_assoc]
    rfl
  | slope alpha next ih =>
    rw [Method.runCounted, Counting.run_bind (slopeOf_run hE _ _), ih, Nat.add_assoc]
    rfl
  | both alpha next ih =>
    rw [Method.runCounted, Counting.run_bind (hE.value _ _), Counting.run_bind (slopeOf_run hE _ _), ih,
      Nat.add_assoc, Nat.add_assoc, ← Nat.add_assoc 1]
    rfl

theorem consultCounted_run (method : Setting R) (count : Nat) :
    (consultCounted method merit E).run count =
      ((consult method merit).step, count + (consult method merit).evaluations) := by
  cases method with
  | callable f =>
    cases f with
    | lineSearch label run =>
      rw [consultCounted, Counting.run_bind (runCounted_run hE _ count)]
      rfl
    | preconditioner label build => rfl
    | other label => rfl
  | _ => rfl

/-- What a search says it took is what is counted. -/
theorem selectCounted_run (strategy : LineSearchStrategy R) (count : Nat) :
    (selectCounted strategy merit E).run count =
      ((select strategy merit).step, count + (select strategy merit).evaluations) := by
  cases strategy with
  | fullStep name => rfl
  | backtracking fields => exact backtrackCounted_run hE fields count
  | external method => exact consultCounted_run hE method count

end Counts

/-- The induction is on the steps that may still be tried. -/
theorem search_le (s : Backtracking R) (merit : Merit R) (steps : Nat) (alpha : R) :
    (s.search merit steps alpha).2 ≤ steps := by
  induction steps generalizing alpha with
  | zero => exact Nat.le_refl 0
  | succ steps ih =>
    rw [Backtracking.search]
    dsimp only
    split
    · exact Nat.succ_le_succ (Nat.zero_le steps)
    · exact Nat.succ_le_succ (ih _)

/-- A backtracking search looks at no more values than it may try steps. -/
theorem backtrack_le {fields : BacktrackingFields R} {steps : Int}
    (hsteps : fields.maxSteps.wholeNumber = .ok steps) (merit : Merit R) :
    (backtrack fields merit).evaluations ≤ steps.toNat := by
  unfold backtrack
  split
  · split
    · exact Nat.zero_le _
    · next s hs =>
      obtain ⟨-, -, i, hi, hmax⟩ := Backtracking.ofFields_eq_ok hs
      obtain rfl : i = steps := Except.ok.inj (hi.symm.trans hsteps)
      have hle := search_le s merit s.maxSteps 1
      rw [hmax] at hle ⊢
      rcases hsearch : s.search merit i.toNat 1 with ⟨_ | alpha, tried⟩ <;>
        simpa [hsearch] using hle
  · exact Nat.zero_le _

end NewtonSolver.LineSearch
