import NewtonSolver.Configuration.Build
import NewtonSolver.Run.History
import NewtonSolver.Run.Trace
import NewtonSolver.Proofs.Run.Shape
import NewtonSolver.Proofs.Run.Convergence
import NewtonSolver.Proofs.LinearSolver.CacheTransparency
import NewtonSolver.Proofs.Jacobian.Decompression
import NewtonSolver.Proofs.Jacobian.Colored
import NewtonSolver.Proofs.Arithmetic.Order
import NewtonSolver.Proofs.Run.Arrival
import NewtonSolver.Proofs.Run.Stopping
import NewtonSolver.Proofs.Arithmetic.Linear
import NewtonSolver.Proofs.Jacobian.Differences
import NewtonSolver.Proofs.Jacobian.Representation
import NewtonSolver.Proofs.Arithmetic.Matrix
import NewtonSolver.Proofs.Factor.Triangular
import NewtonSolver.Proofs.LeastSquares
import NewtonSolver.Proofs.Factor.Exact
import NewtonSolver.Proofs.Descent
import NewtonSolver.Proofs.LineSearch.Fields
import NewtonSolver.Proofs.Run.Affine
import NewtonSolver.Proofs.Arithmetic.Valued
import NewtonSolver.Proofs.LineSearch.Backtracking
import NewtonSolver.Proofs.Run.Descent
import NewtonSolver.Proofs.Descent.Direct
import NewtonSolver.Proofs.Descent.MatrixFree
import NewtonSolver.Proofs.Factor.Prepared
import NewtonSolver.Proofs.Run.Endings
import NewtonSolver.Proofs.Run.Slope
import NewtonSolver.Proofs.Descent.Failures
import NewtonSolver.Proofs.Run.Accepted
import NewtonSolver.Proofs.Run.Failures
import NewtonSolver.Proofs.Factor.Elimination
import NewtonSolver.Proofs.Factor.Reflections
import NewtonSolver.Proofs.Run.Agreement
import NewtonSolver.Proofs.Run.Rectangular
import NewtonSolver.Proofs.Run.Untraceable
import NewtonSolver.Proofs.Configuration.Backends
import NewtonSolver.Proofs.Configuration.Checks
import NewtonSolver.Proofs.Configuration.Validation
import NewtonSolver.Proofs.Configuration.Ranges
import NewtonSolver.Proofs.Descent.Preconditioning
import NewtonSolver.Proofs.Jacobian.Bare
import NewtonSolver.Proofs.Run.Forgetting
import NewtonSolver.Proofs.Run.Bare
import NewtonSolver.Proofs.Run.Schemes
import NewtonSolver.Proofs.LineSearch.Counting
import NewtonSolver.Proofs.Descent.Counting
import NewtonSolver.Proofs.Run.Counters
import NewtonSolver.Proofs.Sparsity.FirstFit
import NewtonSolver.Proofs.LineSearch.AffineResidual
import NewtonSolver.Proofs.Factor.SingleColumn
import NewtonSolver.Proofs.Jacobian.ColoredDifferences
import NewtonSolver.Proofs.LinearSolver.LeastSquares
import NewtonSolver.Proofs.Descent.Routes
import NewtonSolver.Proofs.Operator.Diagonal
import NewtonSolver.Proofs.Operator.Moments
import NewtonSolver.Proofs.Preconditioner.Jacobi
import NewtonSolver.Proofs.LinearSolver.Singularity
import NewtonSolver.Proofs.LinearSolver.Cholesky
import NewtonSolver.Proofs.Run.Record
import NewtonSolver.Proofs.Run.Halving
import NewtonSolver.Proofs.LinearSolver.Accounting
import NewtonSolver.Proofs.Operator.Quotient
import NewtonSolver.Proofs.Operator.PowerIteration
import NewtonSolver.Proofs.Arithmetic.Length
import NewtonSolver.Proofs.LineSearch.Consultation
import NewtonSolver.Proofs.Jacobian.Polynomials
import NewtonSolver.Proofs.Jacobian.Scaling
import NewtonSolver.Proofs.Jacobian.Divisors
