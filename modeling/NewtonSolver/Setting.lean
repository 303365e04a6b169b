import NewtonSolver.Text
import NewtonSolver.LineSearch.Merit
import NewtonSolver.Operator

/-! Option values as a caller writes them, before anything is known of their meaning. -/
namespace NewtonSolver

/-- The strategies that can be named in an option. -/
inductive Tag where
  | autoForward
  | autoReverse
  | autoFiniteDiff
  | autoSparse
  | denseLU
  | denseCholesky
  | denseQR
  | denseSVD
  | krylovCG
  | krylovGMRES
  | krylovBiCGStab
  | jacobiPreconditioner
  | noLineSearch
  | backtrackingLineSearch
  | lineSearchAdapter
  deriving DecidableEq

/-- One side of what a preconditioner function returns. -/
inductive Side (R : Type) (n : Nat) where
  | absent
  | apply (f : Product R n n)
  /-- Something that is not a function, with its written form. -/
  | other (text : String)

/-- What a preconditioner function returns. -/
inductive Built (R : Type) (n : Nat) where
  | pair (left right : Side R n)
  | other

/-- A function of the caller. -/
inductive Callable (R : Type) where
  | lineSearch (label : String) (run : LineSearch.Outset R → LineSearch.Method R)
  | preconditioner (label : String) (build : (n : Nat) → System R n → Except Fault (Built R n))
  | other (label : String)

def Callable.label {R : Type} : Callable R → String
  | lineSearch label _ | preconditioner label _ | other label => label

inductive Setting (R : Type) where
  | none
  | flag (b : Bool)
  | whole (i : Int)
  | real (x : R)
  | text (s : String)
  | list (items : List (Setting R))
  | tag (name : Tag) (fields : List (Setting R))
  | callable (f : Callable R)

namespace Tag

def name : Tag → String
  | autoForward => "AutoForward"
  | autoReverse => "AutoReverse"
  | autoFiniteDiff => "AutoFiniteDiff"
  | autoSparse => "AutoSparse"
  | denseLU => "DenseLU"
  | denseCholesky => "DenseCholesky"
  | denseQR => "DenseQR"
  | denseSVD => "DenseSVD"
  | krylovCG => "KrylovCG"
  | krylovGMRES => "KrylovGMRES"
  | krylovBiCGStab => "KrylovBiCGStab"
  | jacobiPreconditioner => "JacobiPreconditioner"
  | noLineSearch => "NoLineSearch"
  | backtrackingLineSearch => "BacktrackingLineSearch"
  | lineSearchAdapter => "LineSearchAdapter"

def all : List Tag := [autoForward, autoReverse, autoFiniteDiff, autoSparse, denseLU, denseCholesky,
  denseQR, denseSVD, krylovCG, krylovGMRES, krylovBiCGStab, jacobiPreconditioner, noLineSearch,
  backtrackingLineSearch, lineSearchAdapter]

def ofName? (s : String) : Option Tag := all.find? (·.name = s)

variable {R : Type} [Scalar R]

/-- The fields in their order, with the values they have when they are left out. -/
def defaults : Tag → List (String × Setting R)
  | autoForward => [("name", .text "forward")]
  | autoReverse => [("name", .text "reverse")]
  | autoFiniteDiff => [("scheme", .text "forward"), ("step", .none)]
  | autoSparse => [("dense_ad", .tag .autoForward [.text "forward"])]
  | denseLU => [("name", .text "dense_lu")]
  | denseCholesky => [("name", .text "dense_cholesky")]
  | denseQR => [("name", .text "dense_qr")]
  | denseSVD => [("name", .text "dense_svd")]
  | krylovCG | krylovBiCGStab =>
    [("tol", .real (Scalar.decimal 1 10)), ("atol", .real 0), ("maxiter", .none)]
  | krylovGMRES =>
    [("tol", .real (Scalar.decimal 1 10)), ("atol", .real 0), ("restart", .whole 20),
      ("maxiter", .none)]
  | jacobiPreconditioner => [("num_samples", .whole 20), ("seed", .whole 0)]
  | noLineSearch => [("name", .text "no_line_search")]
  | backtrackingLineSearch =>
    [("c1", .real (Scalar.decimal 1 4)), ("rho", .real (Scalar.decimal 5 1)),
      ("max_steps", .whole 20), ("order", .whole 2)]
  | lineSearchAdapter => [("method", .none)]

/-- The tag with the given fields, and the others as they are when left out. -/
def setting (t : Tag) (given : String → Option (Setting R)) : Setting R :=
  .tag t (t.defaults.map fun (field, value) => (given field).getD value)

def fieldNames (t : Tag) : List String := (defaults (R := Float) t).map Prod.fst

end Tag

namespace Setting

section Values

variable {R : Type} [Scalar R]

/-- A flag counts as one or zero. -/
def number? : Setting R → Option R
  | flag b => some (if b then 1 else 0)
  | whole i => some (i : R)
  | real x => some x
  | _ => Option.none

/-- The number, or what is wrong about a value that is none. -/
def numberOr (s : Setting R) (otherwise : Misfit) : Except Fault R :=
  match s.number? with
  | some x => .ok x
  | Option.none => .error (.unfit otherwise)

def number (s : Setting R) : Except Fault R := s.numberOr .argument

theorem numberOr_eq_ok {s : Setting R} {otherwise : Misfit} {x : R} :
    s.numberOr otherwise = .ok x ↔ s.number = .ok x := by
  unfold number numberOr
  cases s.number? <;> simp

/-- The whole number; a flag counts as one or zero. -/
def wholeNumberOr (s : Setting R) (otherwise : Misfit) : Except Fault Int :=
  match s with
  | flag b => .ok (if b then 1 else 0)
  | whole i => .ok i
  | _ => .error (.unfit otherwise)

def wholeNumber (s : Setting R) : Except Fault Int := s.wholeNumberOr .argument

omit [Scalar R] in
theorem wholeNumberOr_eq_ok {s : Setting R} {otherwise : Misfit} {i : Int} :
    s.wholeNumberOr otherwise = .ok i ↔ s.wholeNumber = .ok i := by
  cases s <;> simp [wholeNumber, wholeNumberOr]

def kind : Setting R → ValueKind
  | none => .absent
  | flag _ => .flag
  | whole _ => .whole
  | real _ => .real
  | text _ => .text
  | list _ => .list
  | tag t _ => .tag t.name
  | callable _ => .function

/-- What is wrong about a value that no number is read from. -/
def unreadable : Setting R → Misfit
  | text s => .noNumeral s
  | s => .noNumber s.kind

def isCallable : Setting R → Bool
  | callable _ => true
  | _ => false

mutual

/-- Numbers are equal by value whatever their kind, tags by their fields whatever their names, and a
function equals nothing that is written down again. -/
def same : Setting R → Setting R → Bool
  | none, none => true
  | text s, text t => s == t
  | list xs, list ys => sameAll xs ys
  | tag _ xs, tag _ ys => sameAll xs ys
  | whole i, whole j => i == j
  | x, y =>
    match x.number?, y.number? with
    | some a, some b => a == b
    | _, _ => false

def sameAll : List (Setting R) → List (Setting R) → Bool
  | [], [] => true
  | x :: xs, y :: ys => same x y && sameAll xs ys
  | _, _ => false

end

end Values

section Written

variable {R : Type} [Written R]

mutual

def written : Setting R → String
  | none => "None"
  | flag b => if b then "True" else "False"
  | whole i => toString i
  | real x => Written.text x
  | text s => Text.quoted s
  | list items => "[" ++ ", ".intercalate (writtenAll items) ++ "]"
  | tag name fields =>
    name.name ++ "(" ++
      ", ".intercalate (List.zipWith (fun field value => field ++ "=" ++ value) name.fieldNames
        (writtenAll fields)) ++ ")"
  | callable _ => "<callable>"

def writtenAll : List (Setting R) → List String
  | [] => []
  | s :: rest => written s :: writtenAll rest

end

end Written

end Setting

end NewtonSolver
