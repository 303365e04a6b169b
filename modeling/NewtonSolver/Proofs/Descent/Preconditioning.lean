import NewtonSolver.Configuration.Build
import NewtonSolver.Proofs.Descent
import NewtonSolver.Proofs.Descent.Counting

/-! Preconditioners beside a factorization. It has no use for them, but they are built for every square
system, and a direction is lost with them. -/
namespace NewtonSolver

variable {R : Type} [Scalar R] {m n : Nat}

def Configuration.withPreconditioner (c : Configuration R) (spec : Option (PreconditionerSpec R)) :
    Configuration R := { c with preconditioner := spec }

/-- A factorization does not look at preconditioners. -/
theorem solveLinear_direct (K : Kernels R) (f : Factorization) (name : Setting R)
    (system : HeldSystem R n) (b : Vec R n) (P P' : Preconditioners R n) (cache : LinearCache R) :
    solveLinear K (.direct f name) system b P cache =
      solveLinear K (.direct f name) system b P' cache := by
  cases system <;> rfl

/-- The diagonal of a matrix is always to be had. -/
theorem PreconditionerSpec.build?_matrix {spec : Option (PreconditionerSpec R)}
    (h : ∀ f, spec ≠ some (.custom f)) (A : Mat R n n) : ∃ P, build? spec (.matrix A) = .ok P := by
  cases spec with
  | none => exact ⟨_, rfl⟩
  | some spec =>
    cases spec with
    | jacobi samples seed => exact ⟨_, rfl⟩
    | custom f => exact absurd rfl (h f)

namespace Descent

/-- The square system that stands for a linear model where a factorization is asked for a direction: the
model itself, or its normal equations unless the factorization serves for least squares. -/
inductive SquareSystem (kind : DescentKind) (f : Factorization) :
    {m n : Nat} → JacobianInfo R m n → Vec R m → System R n → Prop
  | root {n : Nat} {A : Mat R n n} {b : Vec R n} (hk : kind = .newton) :
    SquareSystem kind f (.matrix A) b (.matrix A)
  | rootOperator {n : Nat} {J : JacobianOperator R n n} {b : Vec R n} (hk : kind = .newton) :
    SquareSystem kind f (.operator J) b (.operator J.apply)
  | normal {m n : Nat} {A : Mat R m n} {b : Vec R m} (hk : kind = .gaussNewton ∨ m ≠ n)
    (hf : f = .lu ∨ f = .cholesky) : SquareSystem kind f (.matrix A) b (.matrix (A.transpose.mul A))
  | normalOperator {m n : Nat} {J : JacobianOperator R m n} {b : Vec R m} {projected : Vec R n}
    (hk : kind = .gaussNewton ∨ m ≠ n) (hb : J.applyTranspose b = .ok projected) :
    SquareSystem kind f (.operator J) b (.operator (Operator.normal J.apply J.applyTranspose 0))

variable {K : Kernels R} {c : Configuration R} {f : Factorization} {name : Setting R}
  {spec : Option (PreconditionerSpec R)} {cache : LinearCache R}

theorem SquareSystem.unique {kind : DescentKind} {J : JacobianInfo R m n} {b : Vec R m}
    {system system' : System R n} (h : SquareSystem kind f J b system)
    (h' : SquareSystem kind f J b system') : system = system' := by
  cases h with
  | root hk =>
    cases h' with
    | root => rfl
    | normal hk' => exact absurd hk (not_newton_square hk' rfl)
  | rootOperator hk =>
    cases h' with
    | rootOperator => rfl
    | normalOperator hk' => exact absurd hk (not_newton_square hk' rfl)
  | normal hk =>
    cases h' with
    | root hk' => exact absurd hk' (not_newton_square hk rfl)
    | normal => rfl
  | normalOperator hk =>
    cases h' with
    | rootOperator hk' => exact absurd hk' (not_newton_square hk rfl)
    | normalOperator => rfl

/-- Either preconditioners are built for the square system, or they do not come up. -/
inductive Routed (K : Kernels R) (c : Configuration R) (f : Factorization) (name : Setting R)
    (J : JacobianInfo R m n) (b : Vec R m) (cache : LinearCache R) : Prop
  | square (system : HeldSystem R n) (b' : Vec R n) (hs : SquareSystem c.kind f J b system.system)
    (h : ∀ spec, solveModel K (c.withPreconditioner spec) (.direct f name) J b cache =
      solveWith K spec (.direct f name) system b' cache)
  | free (hs : ∀ system, ¬ SquareSystem c.kind f J b system)
    (h : ∀ spec, solveModel K (c.withPreconditioner spec) (.direct f name) J b cache =
      solveModel K c (.direct f name) J b cache)

theorem solveModel_withPreconditioner (hk : c.kind = .gaussNewton ∨ m ≠ n)
    (spec : Option (PreconditionerSpec R)) (solver : LinearSolver R) (J : JacobianInfo R m n)
    (b : Vec R m) : solveModel K (c.withPreconditioner spec) solver J b cache =
      leastSquares K spec solver J b cache :=
  solveModel_leastSquares (c := c.withPreconditioner spec) hk solver J b cache

theorem solveModel_routed_root {J : JacobianInfo R n n} (hk : c.kind = .newton) (b : Vec R n) :
    Routed K c f name J b cache := by
  cases J with
  | matrix A =>
    exact .square (.matrix ⟨A, none⟩) b (.root hk) fun spec => by
      simp [solveModel, Configuration.withPreconditioner, hk, root]
  | operator J =>
    exact .square (.operator J.apply) b (.rootOperator hk) fun spec => by
      simp [solveModel, Configuration.withPreconditioner, hk, root]

/-- The factorizations for least squares are the ones that do without the normal equations. -/
theorem solveModel_routed_matrix (hk : c.kind = .gaussNewton ∨ m ≠ n) (A : Mat R m n) (b : Vec R m) :
    Routed K c f name (.matrix A) b cache := by
  by_cases hf : f = .lu ∨ f = .cholesky
  · refine .square (.matrix ⟨A.transpose.mul A, none⟩) (A.vecMul b) (.normal hk hf) fun spec => ?_
    rw [solveModel_withPreconditioner hk]
    rcases hf with rfl | rfl <;> rfl
  · refine .free ?_ fun spec => ?_
    · rintro system (hk' | _ | ⟨-, hf'⟩)
      · exact not_newton_square hk rfl hk'
      · exact hf hf'
    · rw [solveModel_withPreconditioner hk, solveModel_leastSquares hk]
      cases f with
      | lu => exact absurd (.inl rfl) hf
      | cholesky => exact absurd (.inr rfl) hf
      | qr => rfl
      | svd => rfl

/-- Without a matrix the normal equations are the only way, and they need a transposed product first. -/
theorem solveModel_routed_operator (hk : c.kind = .gaussNewton ∨ m ≠ n) (J : JacobianOperator R m n)
    (b : Vec R m) : Routed K c f name (.operator J) b cache := by
  have hnormal (spec : Option (PreconditionerSpec R)) :
      leastSquares K spec (.direct f name) (.operator J) b cache =
        normalEquations K spec (.direct f name) (.operator J) b cache := by
    cases f <;> rfl
  cases hb : J.applyTranspose b with
  | ok projected =>
    refine .square (.operator _) projected (.normalOperator hk hb) fun spec => ?_
    rw [solveModel_withPreconditioner hk, hnormal, normalEquations, hb]
  | error e =>
    refine .free ?_ fun spec => ?_
    · rintro system (_ | hk' | _ | ⟨-, hb'⟩)
      · exact not_newton_square hk rfl hk'
      · rw [hb] at hb'
        cases hb'
    · rw [solveModel_withPreconditioner hk, solveModel_leastSquares hk, hnormal, hnormal,
        normalEquations, normalEquations, hb]

theorem solveModel_routed (J : JacobianInfo R m n) (b : Vec R m) : Routed K c f name J b cache := by
  by_cases hmn : m = n
  · subst hmn
    cases hkind : c.kind with
    | newton => exact solveModel_routed_root hkind b
    | gaussNewton =>
      cases J with
      | matrix A => exact solveModel_routed_matrix (.inl hkind) A b
      | operator J => exact solveModel_routed_operator (.inl hkind) J b
  · cases J with
    | matrix A => exact solveModel_routed_matrix (.inr hmn) A b
    | operator J => exact solveModel_routed_operator (.inr hmn) J b

theorem solveWith_of_built {system : HeldSystem R n} {P : Preconditioners R n} (b : Vec R n)
    (h : PreconditionerSpec.build? spec system.system = .ok P) :
    solveWith K spec (.direct f name) system b cache =
      solveWith K none (.direct f name) system b cache := by
  unfold solveWith
  rw [h]
  exact solveLinear_direct K f name system b P .absent cache

theorem solveWith_of_unbuilt {solver : LinearSolver R} {system : HeldSystem R n} {e : Failure R}
    (b : Vec R n) (h : PreconditionerSpec.build? spec system.system = .error e) :
    solveWith K spec solver system b cache = (.error e, cache) := by
  unfold solveWith
  rw [h]

variable {J J' : JacobianInfo R m n} {residual : Vec R m}

theorem compute_congr {c' : Configuration R} {solver : LinearSolver R}
    (h : ∀ J', settle J = .ok J' →
      solveModel K c solver J' (-residual) cache = solveModel K c' solver J' (-residual) cache) :
    compute K c solver J residual cache = compute K c' solver J residual cache := by
  unfold compute
  split
  · rfl
  · next J' hJ' => rw [h J' hJ']

theorem compute_cache {solver : LinearSolver R} (hJ' : settle J = .ok J') :
    (compute K c solver J residual cache).2 = (solveModel K c solver J' (-residual) cache).2 := by
  unfold compute
  rw [hJ']
  dsimp only
  split <;> simp [*]

/-- A direction is lost with the preconditioners of its system, before anything is solved. -/
theorem compute_of_unbuilt {system : System R n} {e : Failure R} (hJ' : settle J = .ok J')
    (hs : SquareSystem c.kind f J' (-residual) system)
    (he : PreconditionerSpec.build? c.preconditioner system = .error e) :
    compute K c (.direct f name) J residual cache = (.error e, cache) := by
  have hne : ∀ g, e ≠ .linearSolve g := PreconditionerSpec.build?_unsolved system e he
  have hrouted : Routed K c f name J' (-residual) cache := solveModel_routed J' _
  cases hrouted with
  | free hfree h => exact absurd hs (hfree system)
  | square held b hheld h =>
    obtain rfl := hs.unique hheld
    have hmodel : solveModel K c (.direct f name) J' (-residual) cache = (.error e, cache) :=
      (h c.preconditioner).trans (solveWith_of_unbuilt b he)
    unfold compute
    rw [hJ']
    dsimp only
    rw [hmodel]
    cases e with
    | linearSolve g => exact absurd rfl (hne g)
    | _ => rfl

/-- Without preconditioners the square system is solved, and the solve is counted. -/
theorem compute_plain_solves {system : System R n} (hJ' : settle J = .ok J')
    (hs : SquareSystem c.kind f J' (-residual) system) :
    (compute K (c.withPreconditioner none) (.direct f name) J residual cache).2.solves =
      cache.solves + 1 := by
  rw [compute_cache hJ']
  have hrouted : Routed K c f name J' (-residual) cache := solveModel_routed J' _
  cases hrouted with
  | free hfree h => exact absurd hs (hfree system)
  | square held b hheld h =>
    rw [h none]
    exact (solveLinear_solvesOnce held b .absent).solves

theorem compute_of_built
    (h : ∀ J' system, settle J = .ok J' → SquareSystem c.kind f J' (-residual) system →
      ∃ P, PreconditionerSpec.build? c.preconditioner system = .ok P) :
    compute K c (.direct f name) J residual cache =
      compute K (c.withPreconditioner none) (.direct f name) J residual cache := by
  refine compute_congr fun J' hJ' => ?_
  have hrouted : Routed K c f name J' (-residual) cache := solveModel_routed J' _
  cases hrouted with
  | free hfree hmodel => exact (hmodel none).symm
  | square held b hheld hmodel =>
    obtain ⟨P, hP⟩ := h J' held.system hJ' hheld
    exact (hmodel c.preconditioner).trans ((solveWith_of_built b hP).trans (hmodel none).symm)

/-- A preconditioner makes no difference to a factorization exactly if it can be built for the square
system that is solved, if one is. If it cannot, its failure takes the place of the direction and no solve
is counted. A function of the caller apart, it can be built for every matrix. -/
theorem compute_direct_ignores_iff (K : Kernels R) (c : Configuration R) (f : Factorization)
    (name : Setting R) (J : JacobianInfo R m n) (residual : Vec R m) (cache : LinearCache R) :
    (compute K c (.direct f name) J residual cache =
        compute K (c.withPreconditioner none) (.direct f name) J residual cache ↔
      ∀ J' system, settle J = .ok J' → SquareSystem c.kind f J' (-residual) system →
        ∃ P, PreconditionerSpec.build? c.preconditioner system = .ok P) ∧
    (∀ J' system e, settle J = .ok J' → SquareSystem c.kind f J' (-residual) system →
      PreconditionerSpec.build? c.preconditioner system = .error e →
        compute K c (.direct f name) J residual cache = (.error e, cache)) ∧
    ∀ A, settle J = .ok (.matrix A) → (∀ p, c.preconditioner ≠ some (.custom p)) →
      compute K c (.direct f name) J residual cache =
        compute K (c.withPreconditioner none) (.direct f name) J residual cache := by
  refine ⟨⟨?_, compute_of_built⟩, fun J' system e => compute_of_unbuilt, ?_⟩
  · intro heq J' system hJ' hs
    cases he : PreconditionerSpec.build? c.preconditioner system with
    | ok P => exact ⟨P, rfl⟩
    | error e =>
      have hsolves : (compute K (c.withPreconditioner none) (.direct f name) J residual cache).2.solves =
          cache.solves + 1 := compute_plain_solves hJ' hs
      rw [← heq, compute_of_unbuilt hJ' hs he] at hsolves
      dsimp only at hsolves
      omega
  · intro A hA hpre
    refine compute_of_built fun J' system hJ' hs => ?_
    obtain rfl : .matrix A = J' := Except.ok.inj (hA.symm.trans hJ')
    cases hs with
    | root hk => exact PreconditionerSpec.build?_matrix hpre _
    | normal hk hf => exact PreconditionerSpec.build?_matrix hpre _

/-- The diagonal, beside a factorization. -/
def scaled : Options Float :=
  { Options.defaults with
    linearSolver := .tag .denseLU [.text "dense_lu"]
    preconditioner := .tag .jacobiPreconditioner [.whole 20, .whole 0] }

theorem scaled_keepsDirection : ∃ built solver, scaled.build (.text "newton") = .ok built ∧
    built.configuration.linearSolver = some solver ∧ built.configuration.preconditioner ≠ none ∧
    compute .standard built.configuration solver (.matrix #v[#v[2]]) #v[1] .empty =
      compute .standard (built.configuration.withPreconditioner none) solver (.matrix #v[#v[2]]) #v[1]
        .empty := by
  refine ⟨_, .direct .lu (.text "dense_lu"), rfl, rfl, nofun, ?_⟩
  exact (compute_direct_ignores_iff _ _ .lu _ _ _ _).2.2 _ rfl nofun

/-- A function that returns no pair, beside a factorization. -/
def unpaired : Options Float :=
  { Options.defaults with
    linearSolver := .tag .denseLU [.text "dense_lu"]
    preconditioner := .callable (.preconditioner "precond" fun _ _ => .ok .other) }

theorem unpaired_losesDirection : ∃ built solver, unpaired.build (.text "newton") = .ok built ∧
    built.configuration.linearSolver = some solver ∧
    compute .standard built.configuration solver (.matrix #v[#v[2]]) #v[1] .empty ≠
      compute .standard (built.configuration.withPreconditioner none) solver (.matrix #v[#v[2]]) #v[1]
        .empty := by
  refine ⟨_, .direct .lu (.text "dense_lu"), rfl, rfl, ?_⟩
  intro heq
  have hsolves := congrArg (fun attempt => attempt.2.solves) heq
  dsimp only at hsolves
  rw [compute_plain_solves rfl (.root rfl), compute_of_unbuilt rfl (.root rfl) rfl] at hsolves
  cases hsolves

end Descent

end NewtonSolver
