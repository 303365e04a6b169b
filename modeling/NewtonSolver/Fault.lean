import NewtonSolver.Table
import NewtonSolver.Text

/-! Why a function that a problem supplies gives nothing: a derivative is not available, or a value cannot be
used where it stands, being of another kind or with parts that do not fit. -/
namespace NewtonSolver

inductive ValueKind where
  | absent
  | flag
  | whole
  | real
  | text
  | list
  | tag (label : String)
  | function
  deriving DecidableEq

def ValueKind.name : ValueKind → String
  | absent => "NoneType"
  | flag => "bool"
  | whole => "int"
  | real => "float"
  | .text => "str"
  | list => "list"
  | tag label => label
  | function => "function"

inductive Comparison where
  | less
  | greater
  | atLeast
  deriving DecidableEq

def Comparison.text : Comparison → String
  | less => "<"
  | greater => ">"
  | atLeast => ">="

inductive Misfit where
  /-- Values of the two kinds are in no order. -/
  | unordered (comparison : Comparison) (left right : ValueKind)
  /-- A value of the kind is not read as a number. -/
  | noNumber (kind : ValueKind)
  /-- The text does not spell a number. -/
  | noNumeral (found : String)
  | noInteger (kind : ValueKind)
  | noFunction (kind : ValueKind)
  /-- So many parts were to be taken, of which there are fewer. -/
  | tooFew (expected found : Nat)
  /-- The axis, counted from zero, is none of those of an array of the dimension. -/
  | axis (asked dimension : Nat)
  /-- An argument does not have the type or the shape that is asked for. -/
  | argument
  deriving DecidableEq

/-- What is wrong about a value that does not fit. -/
inductive MisfitClass where
  | type
  | value
  deriving DecidableEq

namespace Misfit

def toClass : Misfit → MisfitClass
  | noNumeral _ | tooFew _ _ | axis _ _ => .value
  | _ => .type

/-- An argument that does not fit is told without words. -/
def message? : Misfit → Option String
  | unordered comparison left right =>
    some ("'" ++ comparison.text ++ "' not supported between instances of '" ++ left.name ++
      "' and '" ++ right.name ++ "'")
  | noNumber kind =>
    some ("float() argument must be a string or a real number, not '" ++ kind.name ++ "'")
  | noNumeral found => some ("could not convert string to float: " ++ Text.quoted found)
  | noInteger kind => some ("'" ++ kind.name ++ "' object cannot be interpreted as an integer")
  | noFunction kind => some ("'" ++ kind.name ++ "' object is not callable")
  | tooFew expected found =>
    some ("not enough values to unpack (expected " ++ toString expected ++ ", got " ++
      toString found ++ ")")
  | axis asked dimension =>
    some ("axis " ++ toString asked ++ " is out of bounds for array of dimension " ++
      toString dimension)
  | argument => none

end Misfit

/-- What was asked of the automatic derivatives of a residual that has none. -/
inductive DerivativeRequest where
  | jacobian
  | forwardProducts
  | reverseProducts
  | transposedProducts
  deriving DecidableEq

inductive DifferentiationFailure where
  /-- A derivative function of the problem gave up, with its own words. -/
  | reported (text : String)
  | notTraceable (request : DerivativeRequest)
  | jacobianShape (found expected : Shape)
  | patternShape (found expected : Shape)
  | noJacobianSource
  | nonFiniteJacobian
  | transposeNeeded
  | transposeMissing
  deriving DecidableEq

def DerivativeRequest.text : DerivativeRequest → String
  | jacobian => "automatic differentiation"
  | forwardProducts => "forward-mode Jacobian-vector products"
  | reverseProducts => "reverse-mode Jacobian-vector products"
  | transposedProducts => "vector-Jacobian products"

def DifferentiationFailure.message : DifferentiationFailure → String
  | reported text => text
  | notTraceable request =>
    request.text ++ " requested for a residual that JAX cannot trace; " ++
      "provide derivative functions on the problem or use AutoFiniteDiff"
  | jacobianShape found expected =>
    "jacobian_fn returned shape " ++ found.text ++ ", expected " ++ expected.text
  | patternShape found expected =>
    "sparsity pattern has shape " ++ found.text ++ ", expected " ++ expected.text
  | noJacobianSource =>
    "a materialized Jacobian of a non-traceable residual needs " ++
      "jacobian_fn or an explicit AutoFiniteDiff backend"
  | nonFiniteJacobian => "Jacobian has non-finite entries"
  | transposeNeeded =>
    "least-squares steps need vector-Jacobian products; provide " ++
      "vjp_fn or a reverse-capable backend"
  | transposeMissing => "no vector-Jacobian product is available for this problem"

/-- How a function that the problem supplies can fail. -/
inductive Fault where
  | differentiation (failure : DifferentiationFailure)
  | unfit (misfit : Misfit)
  deriving DecidableEq

end NewtonSolver
