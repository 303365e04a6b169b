import NewtonSolver.Proofs.LinearSolver.CacheTransparency

/-! The counters of linear solves that share a cache, and the factorization that is remembered. The
solves are written down once more with a record of every factorization that is tried, and what the cache
holds is read off the record. -/
namespace NewtonSolver

variable {R : Type} {m n : Nat}

/-- A factorization that a solve needs: its key, its matrix, and how it is made. -/
structure Demand (R : Type) where
  key : FactorKey R
  rows : Nat
  cols : Nat
  held : Held R rows cols
  factorize : Mat R rows cols → Direct.Prepared R rows cols

/-- A factorization that was tried, and what came of it. -/
structure Attempt (R : Type) where
  key : FactorKey R
  rows : Nat
  cols : Nat
  held : Held R rows cols
  prepared : Direct.Prepared R rows cols

/-- What is kept of a factorization that has succeeded. -/
def Attempt.entry? (a : Attempt R) : Option (FactorEntry R) :=
  match a.prepared with
  | .error _ => none
  | .ok solve => some ⟨a.key, a.rows, a.cols, a.held, solve⟩

def Demand.attempt (d : Demand R) : Attempt R :=
  ⟨d.key, d.rows, d.cols, d.held, d.factorize d.held.matrix⟩

/-- The factorizations that have succeeded, in their order. -/
def Attempt.successes (record : List (Attempt R)) : List (FactorEntry R) := record.filterMap entry?

variable [Scalar R]

/-- The factorization is one of this matrix, the same array or equal in every entry, by the same kind of
solver with the same fields and for the same use. -/
inductive FactorEntry.Serves : FactorEntry R → Demand R → Prop
  | intro {key key' : FactorKey R} {rows cols : Nat} {held held' : Held R rows cols}
    {solve : Vec R rows → Vec R cols} {factorize : Mat R rows cols → Direct.Prepared R rows cols}
    (kind : key.solver.tag = key'.solver.tag)
    (fields : key.solver.toSetting.same key'.solver.toSetting = true) (usage : key.usage = key'.usage)
    (matrix : (∃ mark, held.mark = some mark ∧ held'.mark = some mark) ∨
      ∀ i j, (held.matrix.entry i j == held'.matrix.entry i j) = true) :
    Serves ⟨key, rows, cols, held, solve⟩ ⟨key', rows, cols, held', factorize⟩

/-- The fields equal themselves, and so do the entries unless the array is known again. -/
structure Demand.IsRepeatable (d : Demand R) : Prop where
  fields : d.key.solver.toSetting.same d.key.solver.toSetting = true
  matrix : d.held.mark.isSome = true ∨
    ∀ i j, (d.held.matrix.entry i j == d.held.matrix.entry i j) = true

/-- A factorization serves what it was made for. -/
theorem Demand.IsRepeatable.serves {d : Demand R} {e : FactorEntry R} (hd : d.IsRepeatable)
    (he : d.attempt.entry? = some e) : e.Serves d := by
  have hmatrix : (∃ mark, d.held.mark = some mark ∧ d.held.mark = some mark) ∨
      ∀ i j, (d.held.matrix.entry i j == d.held.matrix.entry i j) = true := by
    simpa only [and_self, Option.isSome_iff_exists] using hd.matrix
  cases hf : d.factorize d.held.matrix with
  | error f => simp [Attempt.entry?, Demand.attempt, hf] at he
  | ok solve =>
    obtain rfl : ⟨d.key, d.rows, d.cols, d.held, solve⟩ = e := by
      simpa [Attempt.entry?, Demand.attempt, hf] using he
    exact .intro rfl hd.fields rfl hmatrix

section Recall

theorem Vec.same_iff {u v : Vec R n} :
    u.same v = true ↔ ∀ i, (u.get i == v.get i) = true := by
  rw [Vec.same, Vector.all_eq_true]
  constructor
  · intro h i
    simpa [Vector.get_eq_getElem] using h i i.isLt
  · intro h i hi
    simpa [Vector.get_eq_getElem] using h ⟨i, hi⟩

theorem Mat.same_iff {A B : Mat R m n} :
    A.same B = true ↔ ∀ i j, (A.entry i j == B.entry i j) = true := by
  rw [Mat.same, Vector.all_eq_true]
  constructor
  · intro h i
    have hrow : (A.get i).same (B.get i) = true := by
      simpa [Vector.get_eq_getElem] using h i i.isLt
    exact Vec.same_iff.mp hrow
  · intro h i hi
    have hrow : (A.get ⟨i, hi⟩).same (B.get ⟨i, hi⟩) = true := Vec.same_iff.mpr (h ⟨i, hi⟩)
    simpa [Vector.get_eq_getElem] using hrow

theorem Held.same_iff {held held' : Held R m n} : held.same held' = true ↔
    (∃ mark, held.mark = some mark ∧ held'.mark = some mark) ∨
      ∀ i j, (held.matrix.entry i j == held'.matrix.entry i j) = true := by
  have hmark : (held.mark.isSome = true ∧ held.mark = held'.mark) ↔
      ∃ mark, held.mark = some mark ∧ held'.mark = some mark := by
    rw [Option.isSome_iff_exists]
    constructor
    · rintro ⟨⟨mark, hm⟩, heq⟩
      exact ⟨mark, hm, heq ▸ hm⟩
    · rintro ⟨mark, hm, hm'⟩
      exact ⟨⟨mark, hm⟩, hm.trans hm'.symm⟩
  rw [Held.same, Bool.or_eq_true, Bool.and_eq_true, beq_iff_eq, hmark, Mat.same_iff]

theorem FactorKey.same_iff {key key' : FactorKey R} : key.same key' = true ↔
    key.solver.tag = key'.solver.tag ∧ key.usage = key'.usage ∧
      key.solver.toSetting.same key'.solver.toSetting = true := by
  rw [FactorKey.same, Bool.and_eq_true, Bool.and_eq_true, beq_iff_eq, beq_iff_eq, and_assoc]

/-- A factorization is recalled where it serves. -/
theorem FactorEntry.recall?_isSome_iff {e : FactorEntry R} {d : Demand R} :
    (e.recall? d.key d.held).isSome = true ↔ e.Serves d := by
  obtain ⟨key, rows, cols, held, solve⟩ := e
  obtain ⟨key', rows', cols', held', factorize⟩ := d
  constructor
  · intro h
    unfold FactorEntry.recall? at h
    dsimp only at h
    split at h
    case isFalse => cases h
    case isTrue hr =>
      split at h
      case isFalse => cases h
      case isTrue hc =>
        subst hr hc
        split at h
        case isFalse => cases h
        case isTrue hsame =>
          rw [Bool.and_eq_true, FactorKey.same_iff, Held.same_iff] at hsame
          obtain ⟨⟨kind, usage, fields⟩, matrix⟩ := hsame
          exact .intro kind fields usage matrix
  · intro h
    cases h with
    | intro kind fields usage matrix =>
      have hkey := FactorKey.same_iff.mpr ⟨kind, usage, fields⟩
      have hheld := Held.same_iff.mpr matrix
      simp [FactorEntry.recall?, hkey, hheld]

end Recall

/-- A computation that records the factorizations it tries. -/
abbrev Recording (R α : Type) := StateM (List (Attempt R)) α

omit [Scalar R] in
/-- A stage that has been carried out. -/
theorem Recording.run_bind {α β : Type} {x : Recording R α} {f : α → Recording R β} {a : α}
    {before after : List (Attempt R)} (h : x.run before = (a, after)) :
    (x >>= f).run before = (f a).run after := by
  rw [StateT.run_bind, h]
  rfl

def Demand.factorizeRecorded (d : Demand R) : Recording R (Direct.Prepared R d.rows d.cols) := do
  let prepared := d.factorize d.held.matrix
  modify (· ++ [⟨d.key, d.rows, d.cols, d.held, prepared⟩])
  return prepared

omit [Scalar R] in
theorem Demand.factorizeRecorded_run (d : Demand R) (record : List (Attempt R)) :
    d.factorizeRecorded.run record = (d.factorize d.held.matrix, record ++ [d.attempt]) := rfl

/-- The preparation of `LinearCache.prepare`, recorded. -/
def LinearCache.prepareRecorded (c : LinearCache R) (key : FactorKey R) (held : Held R m n)
    (factorize : Mat R m n → Direct.Prepared R m n) :
    Recording R (Direct.Prepared R m n × LinearCache R) :=
  match c.entry.bind (·.recall? key held) with
  | some solve => return (.ok solve, c)
  | none => do
    match ← Demand.factorizeRecorded ⟨key, m, n, held, factorize⟩ with
    | .error f => return (.error f, c)
    | .ok solve => return (.ok solve, ⟨c.solves, c.factorizations + 1, some ⟨key, m, n, held, solve⟩⟩)

def LinearCache.solveRecorded (c : LinearCache R) (key : FactorKey R) (held : Held R m n)
    (factorize : Mat R m n → Direct.Prepared R m n) (b : Vec R m) :
    Recording R (Except (Failure R) (Vec R n) × LinearCache R) := do
  let (prepared, c) ← c.prepareRecorded key held factorize
  return (Direct.finish prepared b, c)

def solveLinearRecorded (K : Kernels R) (solver : LinearSolver R) (system : HeldSystem R n)
    (b : Vec R n) (P : Preconditioners R n) (cache : LinearCache R) :
    Recording R (Except (Failure R) (Vec R n) × LinearCache R) :=
  match solver, system with
  | .krylov method fields, system =>
    return (Iterative.solve K method fields system.system P b, cache.countSolve)
  | .direct _ _, .operator _ =>
    return (.error (.configuration (.matrixMissing solver)), cache.countSolve)
  | .direct f _, .matrix held =>
    cache.countSolve.solveRecorded ⟨solver, .square⟩ held (Direct.square K f) b

def solveLeastSquaresRecorded (K : Kernels R) (solver : LinearSolver R) (held : Held R m n)
    (b : Vec R m) (cache : LinearCache R) :
    Recording R (Except (Failure R) (Vec R n) × LinearCache R) :=
  let refused := (.error (.configuration (.notLeastSquares solver)), cache.countSolve)
  match solver with
  | .krylov _ _ => return refused
  | .direct f _ =>
    match Direct.leastSquares? K m n f with
    | none => return refused
    | some (usage, factorize) => cache.countSolve.solveRecorded ⟨solver, usage⟩ held factorize b

/-- The outcomes of preparing a solve: what the factorization is, what the cache becomes, and what is
tried. -/
inductive LinearCache.Prepares (c : LinearCache R) (d : Demand R) :
    Direct.Prepared R d.rows d.cols → LinearCache R → List (Attempt R) → Prop
  | recalled {e : FactorEntry R} {solve : Vec R d.rows → Vec R d.cols} (he : c.entry = some e)
    (hs : e.Serves d) : Prepares c d (.ok solve) c []
  | refused {f : LinearSolveFailure R} (hmiss : ∀ e, c.entry = some e → ¬ e.Serves d)
    (hf : d.factorize d.held.matrix = .error f) : Prepares c d (.error f) c [d.attempt]
  | made {solve : Vec R d.rows → Vec R d.cols} (hmiss : ∀ e, c.entry = some e → ¬ e.Serves d)
    (hs : d.factorize d.held.matrix = .ok solve) :
    Prepares c d (.ok solve)
      ⟨c.solves, c.factorizations + 1, some ⟨d.key, d.rows, d.cols, d.held, solve⟩⟩ [d.attempt]

theorem LinearCache.prepareRecorded_prepares (c : LinearCache R) (d : Demand R)
    (record : List (Attempt R)) :
    ∃ tried, (c.prepareRecorded d.key d.held d.factorize).run record =
        (c.prepare d.key d.held d.factorize, record ++ tried) ∧
      c.Prepares d (c.prepare d.key d.held d.factorize).1 (c.prepare d.key d.held d.factorize).2
        tried := by
  unfold prepareRecorded prepare
  cases hrecall : c.entry.bind (·.recall? d.key d.held) with
  | some solve =>
    obtain ⟨e, he, hsolve⟩ := Option.bind_eq_some_iff.mp hrecall
    have hserves : e.Serves d := FactorEntry.recall?_isSome_iff.mp (by simp [hsolve])
    refine ⟨[], ?_, .recalled he hserves⟩
    rw [List.append_nil]
    rfl
  | none =>
    have hmiss (e : FactorEntry R) (he : c.entry = some e) : ¬ e.Serves d := by
      rw [← FactorEntry.recall?_isSome_iff]
      simpa [he] using hrecall
    cases hf : d.factorize d.held.matrix with
    | error f =>
      refine ⟨[d.attempt], ?_, ?_⟩
      · dsimp only
        rw [Recording.run_bind (d.factorizeRecorded_run record), hf]
        rfl
      · simpa only [hf] using .refused hmiss hf
    | ok solve =>
      refine ⟨[d.attempt], ?_, ?_⟩
      · dsimp only
        rw [Recording.run_bind (d.factorizeRecorded_run record), hf]
        rfl
      · simpa only [hf] using .made hmiss hf

theorem LinearCache.solveRecorded_prepares (c : LinearCache R) (d : Demand R) (b : Vec R d.rows)
    (record : List (Attempt R)) :
    ∃ tried, (c.solveRecorded d.key d.held d.factorize b).run record =
        (c.solve d.key d.held d.factorize b, record ++ tried) ∧
      c.Prepares d (c.prepare d.key d.held d.factorize).1 (c.solve d.key d.held d.factorize b).2
        tried := by
  obtain ⟨tried, hrun, hp⟩ := c.prepareRecorded_prepares d record
  refine ⟨tried, ?_, hp⟩
  rw [solveRecorded, Recording.run_bind hrun]
  rfl

namespace Direct

variable {prepared : Prepared R m n}

theorem finish_of_error {f : LinearSolveFailure R} (h : prepared = .error f) (b : Vec R m) :
    finish prepared b = .error (.linearSolve f) := by
  rw [h, finish]

theorem finish_of_ok {solve : Vec R m → Vec R n} (h : prepared = .ok solve) (b : Vec R m) :
    finish prepared b = .error (.linearSolve .nonFiniteSolution) ∨
      ∃ x, finish prepared b = .ok x := by
  rw [h, finish, checkFinite]
  split
  · exact .inr ⟨_, rfl⟩
  · exact .inl rfl

variable {K : Kernels R}

theorem lu_ne_nonFiniteSolution (A : Mat R n n) : lu K A ≠ .error .nonFiniteSolution := by
  unfold lu
  dsimp only
  split <;> simp

theorem cholesky_ne_nonFiniteSolution (A : Mat R n n) :
    cholesky K A ≠ .error .nonFiniteSolution := by
  unfold cholesky
  split
  · simp
  · split
    · split <;> simp
    · simp

theorem qr_ne_nonFiniteSolution (A : Mat R m n) : qr K A ≠ .error .nonFiniteSolution := by
  unfold qr
  dsimp only
  split <;> simp

theorem qrTransposed_ne_nonFiniteSolution (A : Mat R m n) :
    qrTransposed K A ≠ .error .nonFiniteSolution := by
  unfold qrTransposed
  dsimp only
  split <;> simp

end Direct

namespace SolveCall

variable {K : Kernels R} {c : LinearCache R} {call : SolveCall R} {d : Demand R}
  {record : List (Attempt R)}

/-- The factorization that a call needs. Iterations need none, and calls that are rejected come to none. -/
def demand? (K : Kernels R) : SolveCall R → Option (Demand R)
  | square (.direct f name) (.matrix held) _ _ =>
    some ⟨⟨.direct f name, .square⟩, _, _, held, Direct.square K f⟩
  | @leastSquares _ m n (.direct f name) held _ =>
    (Direct.leastSquares? K m n f).map fun (usage, factorize) =>
      ⟨⟨.direct f name, usage⟩, m, n, held, factorize⟩
  | _ => none

/-- The call of `SolveCall.run`, recorded. -/
def runRecorded (K : Kernels R) (c : LinearCache R) :
    (call : SolveCall R) →
      Recording R (Except (Failure R) (Vec R call.unknowns) × LinearCache R)
  | square solver system b P => solveLinearRecorded K solver system b P c
  | leastSquares solver held b => solveLeastSquaresRecorded K solver held b c

/-- The cache after the calls, made one after the other. -/
def session (K : Kernels R) : List (SolveCall R) → LinearCache R → Recording R (LinearCache R)
  | [], c => return c
  | call :: rest, c => do
    let (_, c) ← call.runRecorded K c
    session K rest c

theorem demand?_factorizes (hd : call.demand? K = some d) :
    Factorizes K d.key d.rows d.cols d.factorize := by
  cases call with
  | square solver system b P =>
    cases solver with
    | krylov method fields => cases hd
    | direct f name =>
      cases system with
      | operator apply => cases hd
      | matrix held =>
        cases hd
        exact .square f name
  | leastSquares solver held b =>
    cases solver with
    | krylov method fields => cases hd
    | direct f name =>
      obtain ⟨⟨usage, factorize⟩, hf, rfl⟩ := Option.map_eq_some_iff.mp hd
      exact .leastSquares f name usage factorize hf

/-- The outcomes of a call: its answer, what the cache becomes, and what is tried. -/
inductive Effect (K : Kernels R) (c : LinearCache R) (call : SolveCall R) :
    Except (Failure R) (Vec R call.unknowns) → LinearCache R → List (Attempt R) → Prop
  | idle {answer : Except (Failure R) (Vec R call.unknowns)} (hd : call.demand? K = none) :
    Effect K c call answer c.countSolve []
  | recalled {answer : Except (Failure R) (Vec R call.unknowns)} {d : Demand R} {e : FactorEntry R}
    (hd : call.demand? K = some d) (he : c.entry = some e) (hs : e.Serves d)
    (hanswer : answer = .error (.linearSolve .nonFiniteSolution) ∨ ∃ x, answer = .ok x) :
    Effect K c call answer c.countSolve []
  | refused {d : Demand R} {f : LinearSolveFailure R} (hd : call.demand? K = some d)
    (hmiss : ∀ e, c.entry = some e → ¬ e.Serves d) (hf : d.factorize d.held.matrix = .error f) :
    Effect K c call (.error (.linearSolve f)) c.countSolve [d.attempt]
  | made {answer : Except (Failure R) (Vec R call.unknowns)} {d : Demand R} {e : FactorEntry R}
    (hd : call.demand? K = some d) (hmiss : ∀ e, c.entry = some e → ¬ e.Serves d)
    (he : d.attempt.entry? = some e)
    (hanswer : answer = .error (.linearSolve .nonFiniteSolution) ∨ ∃ x, answer = .ok x) :
    Effect K c call answer ⟨c.solves + 1, c.factorizations + 1, some e⟩ [d.attempt]

/-- What is prepared decides about the answer, and a solution is looked at once it is there. -/
theorem effect_of_prepares {answer : Except (Failure R) (Vec R call.unknowns)}
    {prepared : Direct.Prepared R d.rows d.cols} {c' : LinearCache R} {tried : List (Attempt R)}
    (hd : call.demand? K = some d) (hp : c.countSolve.Prepares d prepared c' tried)
    (hrefused : ∀ f, prepared = .error f → answer = .error (.linearSolve f))
    (hanswer : ∀ solve, prepared = .ok solve →
      answer = .error (.linearSolve .nonFiniteSolution) ∨ ∃ x, answer = .ok x) :
    call.Effect K c answer c' tried := by
  cases hp with
  | @recalled e solve he hs => exact .recalled hd he hs (hanswer solve rfl)
  | @refused f hmiss hf =>
    obtain rfl := hrefused f rfl
    exact .refused hd hmiss hf
  | @made solve hmiss hs =>
    have he : d.attempt.entry? = some ⟨d.key, d.rows, d.cols, d.held, solve⟩ := by
      simp [Attempt.entry?, Demand.attempt, hs]
    exact .made hd hmiss he (hanswer solve rfl)

/-- A call that is recorded does what it does without the record, and what it tries is added to that. -/
def IsRecorded (K : Kernels R) (c : LinearCache R) (call : SolveCall R) (record : List (Attempt R)) :
    Prop :=
  ∃ tried, (call.runRecorded K c).run record = (call.run K c, record ++ tried) ∧
    call.Effect K c (call.run K c).1 (call.run K c).2 tried

theorem isRecorded_of_idle (hd : call.demand? K = none) (hcache : (call.run K c).2 = c.countSolve)
    (hrun : (call.runRecorded K c).run record = (call.run K c, record)) :
    call.IsRecorded K c record := by
  refine ⟨[], ?_, ?_⟩
  · rw [List.append_nil]
    exact hrun
  · rw [hcache]
    exact .idle hd

section LeastSquares

variable {f : Factorization} {name : Setting R} {held : Held R m n} {b : Vec R m}

theorem leastSquares_rejected (hf : Direct.leastSquares? K m n f = none) :
    (leastSquares (.direct f name) held b).IsRecorded K c record := by
  have hplain : solveLeastSquares K (.direct f name) held b c =
      (.error (.configuration (.notLeastSquares (.direct f name))), c.countSolve) := by
    simp only [solveLeastSquares, hf]
  have hrun : (solveLeastSquaresRecorded K (.direct f name) held b c).run record =
      (solveLeastSquares K (.direct f name) held b c, record) := by
    simp only [solveLeastSquaresRecorded, hplain, hf]
    rfl
  exact isRecorded_of_idle (by simp [demand?, hf]) (congrArg Prod.snd hplain) hrun

theorem leastSquares_direct {usage : Usage} {factorize : Mat R m n → Direct.Prepared R m n}
    (hf : Direct.leastSquares? K m n f = some (usage, factorize)) :
    (leastSquares (.direct f name) held b).IsRecorded K c record := by
  obtain ⟨tried, hrecorded, hp⟩ := LinearCache.solveRecorded_prepares c.countSolve
    ⟨⟨.direct f name, usage⟩, m, n, held, factorize⟩ b record
  have hplain : solveLeastSquares K (.direct f name) held b c =
      c.countSolve.solve ⟨.direct f name, usage⟩ held factorize b := by
    simp only [solveLeastSquares, hf]
  have hrun : (solveLeastSquaresRecorded K (.direct f name) held b c).run record =
      (solveLeastSquares K (.direct f name) held b c, record ++ tried) := by
    simp only [solveLeastSquaresRecorded, hplain, hf]
    exact hrecorded
  have hdemand : (leastSquares (.direct f name) held b).demand? K =
      some ⟨⟨.direct f name, usage⟩, m, n, held, factorize⟩ := by simp [demand?, hf]
  refine ⟨tried, hrun, effect_of_prepares hdemand ((congrArg Prod.snd hplain).symm ▸ hp) ?_ ?_⟩
  · exact fun _ h => (congrArg Prod.fst hplain).trans (Direct.finish_of_error h b)
  · exact fun _ h => (congrArg Prod.fst hplain).symm ▸ Direct.finish_of_ok h b

end LeastSquares

theorem isRecorded (K : Kernels R) (c : LinearCache R) (call : SolveCall R)
    (record : List (Attempt R)) : call.IsRecorded K c record := by
  cases call with
  | square solver system b P =>
    cases solver with
    | krylov method fields => exact isRecorded_of_idle rfl rfl rfl
    | direct f name =>
      cases system with
      | operator apply => exact isRecorded_of_idle rfl rfl rfl
      | matrix held =>
        obtain ⟨tried, hrun, hp⟩ := LinearCache.solveRecorded_prepares c.countSolve
          ⟨⟨.direct f name, .square⟩, _, _, held, Direct.square K f⟩ b record
        exact ⟨tried, hrun, effect_of_prepares rfl hp (fun _ h => Direct.finish_of_error h b)
          (fun _ h => Direct.finish_of_ok h b)⟩
  | @leastSquares m n solver held b =>
    cases solver with
    | krylov method fields => exact isRecorded_of_idle rfl rfl rfl
    | direct f name =>
      cases hf : Direct.leastSquares? K m n f with
      | none => exact leastSquares_rejected hf
      | some demanded => exact leastSquares_direct hf

end SolveCall

/-- The counters and the remembered factorization, read off the record of so many calls. -/
structure LinearCache.Accounts (c : LinearCache R) (record : List (Attempt R)) (calls : Nat) :
    Prop where
  solves : c.solves = calls
  factorizations : c.factorizations = (Attempt.successes record).length
  entry : c.entry = (Attempt.successes record).getLast?

/-- A factorization fails for what it says of the matrix, and not for the solution. -/
theorem Factorizes.ne_nonFiniteSolution {K : Kernels R} {key : FactorKey R}
    {factorize : Mat R m n → Direct.Prepared R m n} (h : Factorizes K key m n factorize)
    (A : Mat R m n) : factorize A ≠ .error .nonFiniteSolution := by
  intro hA
  cases h with
  | square f name =>
    cases f <;> simp only [Direct.square] at hA
    case lu => exact Direct.lu_ne_nonFiniteSolution A hA
    case cholesky => exact Direct.cholesky_ne_nonFiniteSolution A hA
    case qr => exact Direct.qr_ne_nonFiniteSolution A hA
    case svd => cases hA
  | leastSquares f name usage _ hf =>
    cases f <;> simp only [Direct.leastSquares?] at hf
    case svd =>
      cases hf
      cases hA
    case qr =>
      split at hf <;> cases hf
      · exact Direct.qr_ne_nonFiniteSolution A hA
      · exact Direct.qrTransposed_ne_nonFiniteSolution A hA
    all_goals cases hf

namespace SolveCall

variable {K : Kernels R} {c c' : LinearCache R} {call : SolveCall R} {d : Demand R}
  {record tried : List (Attempt R)} {count : Nat} {answer : Except (Failure R) (Vec R call.unknowns)}

/-- The calls that come to no factorization: iterations, calls that are rejected, and calls with a matrix
that cannot be factorized. -/
inductive LeavesEntry (K : Kernels R) : SolveCall R → Prop
  | iterates {n : Nat} (method : KrylovMethod R) (fields : KrylovFields R) (system : HeldSystem R n)
    (b : Vec R n) (P : Preconditioners R n) : LeavesEntry K (square (.krylov method fields) system b P)
  | rejected {call : SolveCall R} {c : LinearCache R} {f : ConfigurationFailure R}
    (h : (call.run K c).1 = .error (.configuration f)) : LeavesEntry K call
  | unmade {call : SolveCall R} {d : Demand R} {f : LinearSolveFailure R}
    (hd : call.demand? K = some d) (hf : d.factorize d.held.matrix = .error f) : LeavesEntry K call

theorem LeavesEntry.unmade_of_demand (hl : call.LeavesEntry K) (hd : call.demand? K = some d) :
    ∃ f, d.factorize d.held.matrix = .error f := by
  cases hl with
  | iterates method fields system b P => cases hd
  | @rejected _ c f h =>
    obtain ⟨tried, -, heffect⟩ := call.isRecorded K c []
    rw [h] at heffect
    generalize (call.run K c).2 = c' at heffect
    cases heffect with
    | idle hd' =>
      rw [hd'] at hd
      cases hd
    | recalled _ _ _ hanswer => rcases hanswer with h | ⟨x, h⟩ <;> cases h
    | made _ _ _ hanswer => rcases hanswer with h | ⟨x, h⟩ <;> cases h
  | unmade hd' hf =>
    obtain rfl := Option.some.inj (hd.symm.trans hd')
    exact ⟨_, hf⟩

namespace Effect

theorem accounts (he : call.Effect K c answer c' tried) (hc : c.Accounts record count) :
    c'.Accounts (record ++ tried) (count + 1) := by
  have hsolves : c.solves + 1 = count + 1 := congrArg (· + 1) hc.solves
  cases he with
  | idle hd =>
    rw [List.append_nil]
    exact ⟨hsolves, hc.factorizations, hc.entry⟩
  | recalled hd he hs hanswer =>
    rw [List.append_nil]
    exact ⟨hsolves, hc.factorizations, hc.entry⟩
  | @refused d f hd hmiss hf =>
    have hnone : Attempt.successes (record ++ [d.attempt]) = Attempt.successes record := by
      simp [Attempt.successes, Attempt.entry?, Demand.attempt, hf]
    refine ⟨hsolves, ?_, ?_⟩
    · rw [hnone]
      exact hc.factorizations
    · rw [hnone]
      exact hc.entry
  | @made _ d e hd hmiss he hanswer =>
    have hone : Attempt.successes (record ++ [d.attempt]) = Attempt.successes record ++ [e] := by
      simp [Attempt.successes, he]
    refine ⟨hsolves, ?_, ?_⟩
    · rw [hone, List.length_append, ← hc.factorizations]
      rfl
    · rw [hone, List.getLast?_append]
      rfl

theorem entry_eq (he : call.Effect K c answer c' tried) (hl : call.LeavesEntry K) :
    c'.entry = c.entry := by
  cases he with
  | idle hd => rfl
  | recalled hd he hs hanswer => rfl
  | refused hd hmiss hf => rfl
  | @made _ d e hd hmiss he hanswer =>
    obtain ⟨f, hf⟩ := hl.unmade_of_demand hd
    simp [Attempt.entry?, Demand.attempt, hf] at he

/-- A call tries the factorization that it needs exactly where the remembered one does not serve. -/
theorem tried_iff (he : call.Effect K c answer c' tried) (hd : call.demand? K = some d) :
    (tried = [d.attempt] ↔ ∀ e, c.entry = some e → ¬ e.Serves d) ∧
      (tried = [] ↔ ∃ e, c.entry = some e ∧ e.Serves d) := by
  have hmissed (hmiss : ∀ e, c.entry = some e → ¬ e.Serves d) :
      ([d.attempt] = [d.attempt] ↔ ∀ e, c.entry = some e → ¬ e.Serves d) ∧
        ([d.attempt] = [] ↔ ∃ e, c.entry = some e ∧ e.Serves d) :=
    ⟨⟨fun _ => hmiss, fun _ => rfl⟩, nofun, fun ⟨e, he, hs⟩ => absurd hs (hmiss e he)⟩
  cases he with
  | idle hd' =>
    rw [hd'] at hd
    cases hd
  | recalled hd' he hs hanswer =>
    obtain rfl := Option.some.inj (hd.symm.trans hd')
    exact ⟨⟨nofun, fun hmiss => absurd hs (hmiss _ he)⟩, fun _ => ⟨_, he, hs⟩, fun _ => rfl⟩
  | refused hd' hmiss hf =>
    obtain rfl := Option.some.inj (hd.symm.trans hd')
    exact hmissed hmiss
  | made hd' hmiss he hanswer =>
    obtain rfl := Option.some.inj (hd.symm.trans hd')
    exact hmissed hmiss

/-- The factorization is kept where only the solution is not finite. -/
theorem keeps (he : call.Effect K c answer c' tried) (hd : call.demand? K = some d)
    (hmiss : ∀ e, c.entry = some e → ¬ e.Serves d)
    (hanswer : answer = .error (.linearSolve .nonFiniteSolution)) :
    ∃ e, d.attempt.entry? = some e ∧ c'.entry = some e := by
  cases he with
  | idle hd' =>
    rw [hd'] at hd
    cases hd
  | recalled hd' he hs hanswer =>
    obtain rfl := Option.some.inj (hd.symm.trans hd')
    exact absurd hs (hmiss _ he)
  | refused hd' hmiss hf =>
    cases hanswer
    exact absurd hf ((demand?_factorizes hd').ne_nonFiniteSolution _)
  | made hd' hmiss he hanswer =>
    obtain rfl := Option.some.inj (hd.symm.trans hd')
    exact ⟨_, he, rfl⟩

/-- What a call has factorized, or would have, is remembered after it. -/
theorem remembers {solve : Vec R d.rows → Vec R d.cols} (he : call.Effect K c answer c' tried)
    (hd : call.demand? K = some d) (hrepeat : d.IsRepeatable)
    (hsolve : d.factorize d.held.matrix = .ok solve) : ∃ e, c'.entry = some e ∧ e.Serves d := by
  cases he with
  | idle hd' =>
    rw [hd'] at hd
    cases hd
  | recalled hd' he hs hanswer =>
    obtain rfl := Option.some.inj (hd.symm.trans hd')
    exact ⟨_, he, hs⟩
  | refused hd' hmiss hf =>
    obtain rfl := Option.some.inj (hd.symm.trans hd')
    cases hf.symm.trans hsolve
  | made hd' hmiss he hanswer =>
    obtain rfl := Option.some.inj (hd.symm.trans hd')
    exact ⟨_, rfl, hrepeat.serves he⟩

end Effect

/-- The induction is on the calls, each of which keeps the accounts. -/
theorem session_run (K : Kernels R) (calls : List (SolveCall R)) (hc : c.Accounts record count) :
    ∃ c' tried, (session K calls c).run record = (c', record ++ tried) ∧
      c' = calls.foldl (fun c call => (call.run K c).2) c ∧
        c'.Accounts (record ++ tried) (count + calls.length) := by
  induction calls generalizing c record count with
  | nil => exact ⟨c, [], by rw [List.append_nil]; rfl, rfl, by simpa using hc⟩
  | cons call rest ih =>
    obtain ⟨first, hrun, heffect⟩ := call.isRecorded K c record
    obtain ⟨c', later, hrest, hfold, haccounts⟩ := ih (heffect.accounts hc)
    refine ⟨c', first ++ later, ?_, hfold, ?_⟩
    · rw [session, Recording.run_bind hrun, ← List.append_assoc]
      exact hrest
    · rw [← List.append_assoc, List.length_cons, Nat.add_comm rest.length, ← Nat.add_assoc]
      exact haccounts

/-- Calls that come to no new factorization leave the remembered one as it is. -/
theorem session_entry {between : List (SolveCall R)} (hl : ∀ call ∈ between, call.LeavesEntry K)
    (c : LinearCache R) (record : List (Attempt R)) :
    ((session K between c).run record).1.entry = c.entry := by
  induction between generalizing c record with
  | nil => rfl
  | cons call rest ih =>
    obtain ⟨tried, hrun, heffect⟩ := call.isRecorded K c record
    rw [session, Recording.run_bind hrun]
    have hrest := ih (fun call' h' => hl call' (List.mem_cons_of_mem _ h')) (call.run K c).2
      (record ++ tried)
    exact hrest.trans (heffect.entry_eq (hl call List.mem_cons_self))

/-- What holds of the cache and of the record after some calls, and of what is called next. -/
structure KeepsAccounts (K : Kernels R) (calls : List (SolveCall R)) (c : LinearCache R)
    (record : List (Attempt R)) : Prop where
  plain : c = calls.foldl (fun c call => (call.run K c).2) .empty
  accounts : c.Accounts record calls.length
  next : ∀ call : SolveCall R, call.IsRecorded K c record
  factorizes : ∀ (call : SolveCall R) d tried, call.demand? K = some d →
    ((call.runRecorded K c).run record).2 = record ++ tried →
      (tried = [d.attempt] ↔ ∀ e, (Attempt.successes record).getLast? = some e → ¬ e.Serves d) ∧
        (tried = [] ↔ ∃ e, (Attempt.successes record).getLast? = some e ∧ e.Serves d)
  remembers : ∀ (call : SolveCall R) d solve, call.demand? K = some d → d.IsRepeatable →
    d.factorize d.held.matrix = .ok solve → ∃ e, (call.run K c).2.entry = some e ∧ e.Serves d
  untouched : ∀ call : SolveCall R, call.LeavesEntry K → (call.run K c).2.entry = c.entry
  repeated : ∀ (between : List (SolveCall R)) (call : SolveCall R) d e c' record',
    (∀ other ∈ between, other.LeavesEntry K) → c.entry = some e → call.demand? K = some d →
      e.Serves d → (session K between c).run record = (c', record') →
        (call.runRecorded K c').run record' = (call.run K c', record')
  kept : ∀ (call : SolveCall R) d, call.demand? K = some d →
    (∀ e, c.entry = some e → ¬ e.Serves d) →
      (call.run K c).1 = .error (.linearSolve .nonFiniteSolution) →
        ∃ e, d.attempt.entry? = some e ∧ (call.run K c).2.entry = some e

/-- However calls that share a cache are mixed, the counters and the remembered factorization are what
the record says. -/
theorem session_keepsAccounts (K : Kernels R) (calls : List (SolveCall R)) :
    ∃ c record, (session K calls .empty).run [] = (c, record) ∧ KeepsAccounts K calls c record := by
  have hempty : (LinearCache.empty : LinearCache R).Accounts [] 0 := ⟨rfl, rfl, rfl⟩
  obtain ⟨c, record, hrun, hplain, haccounts⟩ := session_run K calls hempty
  rw [List.nil_append] at hrun haccounts
  rw [Nat.zero_add] at haccounts
  refine ⟨c, record, hrun, ?_⟩
  constructor
  case plain => exact hplain
  case accounts => exact haccounts
  case next => exact fun call => call.isRecorded K c record
  case factorizes =>
    intro call d tried hd htried
    obtain ⟨tried', hcall, heffect⟩ := call.isRecorded K c record
    rw [hcall] at htried
    obtain rfl := List.append_cancel_left htried
    rw [← haccounts.entry]
    exact heffect.tried_iff hd
  case remembers =>
    intro call d solve hd hrepeat hsolve
    obtain ⟨tried, -, heffect⟩ := call.isRecorded K c record
    exact heffect.remembers hd hrepeat hsolve
  case untouched =>
    intro call hl
    obtain ⟨tried, -, heffect⟩ := call.isRecorded K c record
    exact heffect.entry_eq hl
  case repeated =>
    intro between call d e c' record' hl he hd hs hbetween
    have hentry := session_entry hl c record
    rw [hbetween, he] at hentry
    obtain ⟨tried, hcall, heffect⟩ := call.isRecorded K c' record'
    obtain rfl := (heffect.tried_iff hd).2.mpr ⟨e, hentry, hs⟩
    rw [hcall, List.append_nil]
  case kept =>
    intro call d hd hmiss hanswer
    obtain ⟨tried, -, heffect⟩ := call.isRecorded K c record
    exact heffect.keeps hd hmiss hanswer

end SolveCall

end NewtonSolver
