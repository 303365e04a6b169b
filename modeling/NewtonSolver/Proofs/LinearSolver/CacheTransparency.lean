import NewtonSolver.LinearSolver.Solve
import NewtonSolver.Proofs.Arithmetic.Exact
import NewtonSolver.Table

/-! The remembered factorization is never noticed: every solve answers as it would with a fresh cache. -/
namespace NewtonSolver

variable {R : Type} [Scalar R] {m n : Nat} {K : Kernels R}

/-- What is factorized under a key: squares by any factorization, least squares by some of them. -/
inductive Factorizes (K : Kernels R) :
    FactorKey R → (m n : Nat) → (Mat R m n → Direct.Prepared R m n) → Prop
  | square {n : Nat} (f : Factorization) (name : Setting R) :
    Factorizes K ⟨.direct f name, .square⟩ n n (Direct.square K f)
  | leastSquares {m n : Nat} (f : Factorization) (name : Setting R) (usage : Usage)
    (factorize : Mat R m n → Direct.Prepared R m n)
    (h : Direct.leastSquares? K m n f = some (usage, factorize)) :
    Factorizes K ⟨.direct f name, usage⟩ m n factorize

/-- The matrix is the one that its mark stands for. -/
def Held.Reads (memory : Nat → Table R) (held : Held R m n) : Prop :=
  ∀ mark, held.mark = some mark → memory mark = .ofMat held.matrix

/-- The prepared solve that is remembered is the one of the matrix that is remembered. -/
structure FactorEntry.Sound (K : Kernels R) (memory : Nat → Table R) (e : FactorEntry R) : Prop where
  prepared : ∃ factorize, Factorizes K e.key e.rows e.cols factorize ∧
    factorize e.held.matrix = .ok e.solve
  reads : e.held.Reads memory

def LinearCache.Sound (K : Kernels R) (memory : Nat → Table R) (c : LinearCache R) : Prop :=
  ∀ e, c.entry = some e → e.Sound K memory

variable {memory : Nat → Table R} {c : LinearCache R} {key key' : FactorKey R} {held held' : Held R m n}
  {factorize factorize' : Mat R m n → Direct.Prepared R m n}

theorem Factorization.tag_injective {f g : Factorization} (h : f.tag = g.tag) : f = g := by
  cases f <;> cases g <;> first
    | rfl
    | cases h

theorem leastSquares?_usage {f : Factorization} {usage : Usage}
    (h : Direct.leastSquares? K m n f = some (usage, factorize)) : usage ≠ .square := by
  cases f <;> simp only [Direct.leastSquares?] at h
  case qr =>
    split at h <;> cases h <;> simp
  all_goals cases h
  simp

theorem FactorKey.same_direct {f g : Factorization} {a b : Setting R} {u v : Usage}
    (h : FactorKey.same ⟨.direct f a, u⟩ ⟨.direct g b, v⟩ = true) : f = g ∧ u = v := by
  simp only [FactorKey.same, Bool.and_eq_true, beq_iff_eq] at h
  exact ⟨Factorization.tag_injective h.1.1, h.1.2⟩

/-- Keys that are the same stand for the same factorization. -/
theorem Factorizes.unique (h : Factorizes K key m n factorize)
    (h' : Factorizes K key' m n factorize') (hk : key.same key' = true) : factorize = factorize' := by
  cases h with
  | square f name =>
    cases h' with
    | square g name' =>
      obtain ⟨rfl, -⟩ := FactorKey.same_direct hk
      rfl
    | leastSquares g name' usage _ hg =>
      obtain ⟨-, rfl⟩ := FactorKey.same_direct hk
      exact absurd rfl (leastSquares?_usage hg)
  | leastSquares f name usage _ hf =>
    cases h' with
    | square g name' =>
      obtain ⟨-, rfl⟩ := FactorKey.same_direct hk
      exact absurd rfl (leastSquares?_usage hf)
    | leastSquares g name' usage' _ hg =>
      obtain ⟨rfl, rfl⟩ := FactorKey.same_direct hk
      rw [hf] at hg
      cases hg
      rfl

section Equality

variable (heq : ∀ a b : R, (a == b) = true → a = b)

include heq

theorem Vec.eq_of_same {u v : Vec R n} (h : u.same v = true) : u = v := by
  ext i hi
  have hi' := Vector.all_eq_true.mp h i hi
  exact heq _ _ (by simpa using hi')

theorem Mat.eq_of_same {A B : Mat R m n} (h : A.same B = true) : A = B := by
  ext i hi : 1
  have hi' := Vector.all_eq_true.mp h i hi
  exact Vec.eq_of_same heq (by simpa using hi')

/-- Matrices that count as the same are equal. -/
theorem Held.eq_of_same (hr : held.Reads memory) (hr' : held'.Reads memory)
    (h : held.same held' = true) : held.matrix = held'.matrix := by
  simp only [Held.same, Bool.or_eq_true, Bool.and_eq_true, beq_iff_eq] at h
  rcases h with ⟨hsome, hmark⟩ | hsame
  · obtain ⟨mark, hm⟩ := Option.isSome_iff_exists.mp hsome
    have ha := hr mark hm
    have hb := hr' mark (hmark ▸ hm)
    have ht : Table.ofMat held.matrix = .ofMat held'.matrix := ha.symm.trans hb
    simpa [Table.ofMat] using ht
  · exact Mat.eq_of_same heq hsame

/-- A solve that is recalled is the one that would be prepared. -/
theorem FactorEntry.recall?_sound {e : FactorEntry R} {solve : Vec R m → Vec R n}
    (he : e.Sound K memory) (hk : Factorizes K key m n factorize) (hr : held.Reads memory)
    (h : e.recall? key held = some solve) : factorize held.matrix = .ok solve := by
  obtain ⟨key', rows, cols, held', solve'⟩ := e
  obtain ⟨⟨factorize', hf, hp⟩, hr'⟩ := he
  unfold FactorEntry.recall? at h
  dsimp only at h
  split at h
  case isFalse => cases h
  case isTrue hm =>
    split at h
    case isFalse => cases h
    case isTrue hn =>
      subst hm hn
      split at h
      case isFalse => cases h
      case isTrue hsame =>
        simp only [Bool.and_eq_true] at hsame
        cases h
        rw [← Held.eq_of_same heq hr' hr hsame.2, ← hf.unique hk hsame.1]
        exact hp

/-- A prepared solve is the one of the matrix at hand, remembered or not. -/
theorem LinearCache.prepare_sound (hc : c.Sound K memory) (hk : Factorizes K key m n factorize)
    (hr : held.Reads memory) :
    (c.prepare key held factorize).1 = factorize held.matrix ∧
      (c.prepare key held factorize).2.Sound K memory := by
  unfold prepare
  split
  case h_1 solve hsolve =>
    obtain ⟨e, he, hrec⟩ := Option.bind_eq_some_iff.mp hsolve
    exact ⟨(FactorEntry.recall?_sound heq (hc e he) hk hr hrec).symm, hc⟩
  case h_2 =>
    split
    case h_1 f hf => exact ⟨hf.symm, hc⟩
    case h_2 solve hf =>
      refine ⟨hf.symm, ?_⟩
      intro e he
      cases he
      exact ⟨⟨factorize, hk, hf⟩, hr⟩

theorem LinearCache.solve_sound {b : Vec R m} (hc : c.Sound K memory)
    (hk : Factorizes K key m n factorize) (hr : held.Reads memory) :
    (c.solve key held factorize b).1 = Direct.finish (factorize held.matrix) b ∧
      (c.solve key held factorize b).2.Sound K memory := by
  obtain ⟨hp, hs⟩ := prepare_sound heq hc hk hr
  exact ⟨congrArg (Direct.finish · b) hp, hs⟩

theorem solveLinear_uncached (hc : c.Sound K memory) {held : Held R n n} (hr : held.Reads memory)
    (f : Factorization) (name : Setting R) (b : Vec R n) (P : Preconditioners R n) :
    (solveLinear K (.direct f name) (.matrix held) b P c).1 =
      Direct.finish (Direct.square K f held.matrix) b :=
  (LinearCache.solve_sound heq (c := c.countSolve) hc (.square f name) hr).1

theorem solveLeastSquares_uncached (hc : c.Sound K memory) (hr : held.Reads memory)
    {f : Factorization} {usage : Usage} (name : Setting R)
    (hf : Direct.leastSquares? K m n f = some (usage, factorize)) (b : Vec R m) :
    (solveLeastSquares K (.direct f name) held b c).1 =
      Direct.finish (factorize held.matrix) b := by
  simp only [solveLeastSquares, hf]
  exact (LinearCache.solve_sound heq (c := c.countSolve) hc (.leastSquares f name usage _ hf) hr).1

end Equality

/-- A linear solve as it is called. -/
inductive SolveCall (R : Type) where
  | square {n : Nat} (solver : LinearSolver R) (system : HeldSystem R n) (b : Vec R n)
    (P : Preconditioners R n)
  | leastSquares {m n : Nat} (solver : LinearSolver R) (held : Held R m n) (b : Vec R m)

namespace SolveCall

omit [Scalar R] in
/-- The number of unknowns. -/
def unknowns : SolveCall R → Nat
  | @square _ n _ _ _ _ => n
  | @leastSquares _ _ n _ _ _ => n

/-- The vector or the failure, and the cache afterwards. -/
def run (K : Kernels R) (c : LinearCache R) :
    (call : SolveCall R) → Except (Failure R) (Vec R call.unknowns) × LinearCache R
  | square solver system b P => solveLinear K solver system b P c
  | leastSquares solver held b => solveLeastSquares K solver held b c

/-- The matrix of the call, if it has one, is the one that its mark stands for. -/
def Reads (memory : Nat → Table R) : SolveCall R → Prop
  | square _ (.matrix held) _ _ => held.Reads memory
  | square _ (.operator _) _ _ => True
  | leastSquares _ held _ => held.Reads memory

/-- The answers of the calls, made one after the other with one cache. -/
def answers (K : Kernels R) : LinearCache R → List (SolveCall R) →
    List ((n : Nat) × Except (Failure R) (Vec R n))
  | _, [] => []
  | c, call :: rest => ⟨call.unknowns, (call.run K c).1⟩ :: answers K (call.run K c).2 rest

variable {call : SolveCall R} {calls : List (SolveCall R)}

theorem run_sound (heq : ∀ a b : R, (a == b) = true → a = b) (hr : call.Reads memory) :
    ∃ answer, ∀ c : LinearCache R, c.Sound K memory →
      (call.run K c).1 = answer ∧ (call.run K c).2.Sound K memory := by
  cases call with
  | square solver system b P =>
    cases solver with
    | krylov method fields => exact ⟨_, fun c hc => ⟨rfl, hc⟩⟩
    | direct f name =>
      cases system with
      | operator apply => exact ⟨_, fun c hc => ⟨rfl, hc⟩⟩
      | matrix held =>
        exact ⟨_, fun c hc => LinearCache.solve_sound heq (c := c.countSolve) hc (.square f name) hr⟩
  | leastSquares solver held b =>
    cases solver with
    | krylov method fields => exact ⟨_, fun c hc => ⟨rfl, hc⟩⟩
    | direct f name =>
      simp only [run, solveLeastSquares]
      split
      case h_1 => exact ⟨_, fun c hc => ⟨rfl, hc⟩⟩
      case h_2 usage factorize hf =>
        exact ⟨_, fun c hc =>
          LinearCache.solve_sound heq (c := c.countSolve) hc (.leastSquares f name usage _ hf) hr⟩

theorem empty_sound : (LinearCache.empty : LinearCache R).Sound K memory := nofun

/-- Calls that share a cache answer as they would each with a fresh one. -/
theorem answers_eq (heq : ∀ a b : R, (a == b) = true → a = b)
    (hr : ∀ call ∈ calls, call.Reads memory) (hc : c.Sound K memory) :
    answers K c calls = calls.map fun call => ⟨call.unknowns, (call.run K .empty).1⟩ := by
  induction calls generalizing c with
  | nil => rfl
  | cons call rest ih =>
    obtain ⟨answer, ha⟩ := run_sound (K := K) heq (hr call (by simp))
    obtain ⟨hnow, hnext⟩ := ha c hc
    have hfresh := (ha .empty empty_sound).1
    rw [answers, List.map_cons, hnow, hfresh, ih (fun call' h' => hr call' (by simp [h'])) hnext]

/-- Sharing a cache makes no difference, where equal numbers are the same and a mark stands for one
matrix. -/
theorem cache_transparent (heq : ∀ a b : R, (a == b) = true → a = b)
    (hr : ∀ call ∈ calls, call.Reads memory) :
    answers K .empty calls = calls.map fun call => ⟨call.unknowns, (call.run K .empty).1⟩ :=
  answers_eq heq hr empty_sound

/-- Solves with one matrix, with an iteration and a tall least squares solve in between. -/
noncomputable def mixedCalls : List (SolveCall ℝ) :=
  [.square (.direct .lu (.text "dense_lu")) (.matrix ⟨#v[#v[2]], some 0⟩) #v[1] .absent,
    .square (.krylov .cg ⟨.real 1, .real 0, .none⟩) (.operator .ok) #v[1] .absent,
    .square (.direct .lu (.text "dense_lu")) (.matrix ⟨#v[#v[2]], some 0⟩) #v[3] .absent,
    .leastSquares (.direct .qr (.text "dense_qr")) ⟨(#v[#v[1], #v[1]] : Mat ℝ 2 1), none⟩ #v[1, 2],
    .square (.direct .qr (.text "dense_qr")) (.matrix ⟨#v[#v[2]], none⟩) #v[3] .absent]

theorem mixedCalls_transparent : answers .standard .empty mixedCalls =
    mixedCalls.map fun call => ⟨call.unknowns, (call.run .standard .empty).1⟩ := by
  have hr : ∀ call ∈ mixedCalls, call.Reads fun _ => .ofMat #v[#v[2]] := by
    simp [mixedCalls, Reads, Held.Reads]
  exact cache_transparent (fun a b h => Exact.beq_eq.mp h) hr

end SolveCall

end NewtonSolver
