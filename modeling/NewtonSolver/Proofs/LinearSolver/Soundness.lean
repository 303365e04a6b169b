import NewtonSolver.LinearSolver.Solve
import NewtonSolver.Proofs.Arithmetic.Norm
import NewtonSolver.Proofs.LinearSolver.Acceptance

/-! The check after an iteration, whatever vector the iteration hands back. In double precision it does
what it is for exactly where its one comparison can be decided: a residual or a bound that is no number
passes, and so does an infinite residual under an infinite bound. -/
namespace NewtonSolver

namespace Iterative

variable {R : Type} [Scalar R] {n : Nat}

/-- The vector with this image solves the system, up to the slack. -/
structure Solves (limits : Krylov.Limits R) (b image : Vec R n) : Prop where
  finite : (image - b).allFinite = true
  small : (image - b).norm ≤ slack * target limits b

/-- What should come of the vector that an iteration hands back. -/
inductive Sound (limits : Krylov.Limits R) (A : Product R n n) (b x : Vec R n) :
    Except (Failure R) (Vec R n) → Prop
  | solved {image : Vec R n} (finite : x.allFinite = true) (applied : A x = .ok image)
      (solves : Solves limits b image) : Sound limits A b x (.ok x)
  | overflow (infinite : x.allFinite = false) {f : LinearSolveFailure R}
      (reason : f.reason = .numericalOverflow) : Sound limits A b x (.error (.linearSolve f))
  | limit {f : LinearSolveFailure R} (reason : f.reason = .iterationLimit) :
      Sound limits A b x (.error (.linearSolve f))

variable {K : Kernels R} {method : KrylovMethod R} {fields : KrylovFields R}
  {limits : Krylov.Limits R} {A : Product R n n} {system : System R n} {P : Preconditioners R n}
  {b x image : Vec R n}

theorem checkFinite_of_infinite (hx : x.allFinite = false) :
    checkFinite x = .error (.linearSolve .nonFiniteSolution) := by
  simp [checkFinite, hx]

/-- After the iteration the vector is tested, and the system itself is applied to it. -/
theorem solve_of_run (hlimits : fields.limits n = .ok limits)
    (hrun : run K method limits system.apply P b = .ok x) :
    solve K method fields system P b = checkFinite x >>= fun y =>
      liftFault (system.apply y) >>= checkResidual method limits b y := by
  simp [solve, hlimits, hrun, liftFault]

/-- The check is sound where it refuses the vector or the vector solves the system. -/
theorem checkResidual_sound_iff (hx : x.allFinite = true) (happly : A x = .ok image) :
    Sound limits A b x (checkResidual method limits b x image) ↔
      slack * target limits b < (image - b).norm ∨ Solves limits b image := by
  by_cases hlt : slack * target limits b < (image - b).norm
  · have hrefused : checkResidual method limits b x image = .error (.linearSolve
        (.residualAbove method.tag (image - b).norm (target limits b))) := by
      simp [checkResidual, hlt]
    rw [hrefused]
    exact iff_of_true (.limit rfl) (.inl hlt)
  · have hpassed : checkResidual method limits b x image = .ok x := by
      simp [checkResidual, hlt]
    rw [hpassed]
    constructor
    · intro h
      cases h with
      | solved _ happly' hsolves =>
        obtain rfl : image = _ := Except.ok.inj (happly.symm.trans happly')
        exact .inr hsolves
    · intro h
      exact .solved hx happly (h.resolve_left hlt)

/-- The comparison of the check can be decided: the residual and the bound are numbers, and not both
are infinite. -/
structure Decisive (limits : Krylov.Limits Float) (b image : Vec Float n) : Prop where
  numbers : Double.AllNumbers (image - b)
  weighed : (limits.tol == 0) = true → b.norm.isFinite = true
  bounded : (image - b).allFinite = true ∨ (slack * target limits b).isFinite = true

end Iterative

namespace Double

open Iterative

variable {n : Nat} {limits : Krylov.Limits Float} {b image : Vec Float n}

section Bound

variable (ht : (0 : Float) ≤ limits.tol) (hf : limits.tol.isFinite = true)
  (ha : (0 : Float) ≤ limits.atol) (hb : (0 : Float) ≤ b.norm)

include ht hf ha hb in
theorem bound_nonneg (h : (limits.tol == 0) = true → b.norm.isFinite = true) :
    (0 : Float) ≤ slack * target limits b := by
  have hp : (0 : Float) ≤ limits.tol * b.norm := mul_nonneg ht hf hb h
  have hs : ((slack : Float) == 0) ≠ true := by decide +kernel
  exact mul_nonneg (by decide +kernel) (by decide +kernel) (atLeast_nonneg hp ha)
    fun h0 => absurd h0 hs

include hb in
/-- A relative bound of zero times an infinite norm is no number, and it is not below any other. -/
theorem bound_notANumber (h : ¬ ((limits.tol == 0) = true → b.norm.isFinite = true)) :
    parts (slack * target limits b) = .notANumber := by
  obtain ⟨hzero, hinfinite⟩ : (limits.tol == 0) = true ∧ b.norm.isFinite = false := by
    simpa using h
  have hp : parts (limits.tol * b.norm) = .notANumber := zero_mul_infinite hzero hb hinfinite
  have hlt : ¬ limits.tol * b.norm < limits.atol := by
    intro hlt
    exact (number_of_lt hlt).1 hp
  have htarget : target limits b = limits.tol * b.norm := by
    simp [target, Scalar.atLeast, hlt]
  rw [htarget]
  exact mul_notANumber hp

include hb in
theorem weighed_of_number (h : parts (slack * target limits b) ≠ .notANumber) :
    (limits.tol == 0) = true → b.norm.isFinite = true := by
  by_contra hnot
  exact h (bound_notANumber hb hnot)

include ht hf ha hb

/-- What is not found to be above the bound is within it where it is finite and the bound is a
number. -/
theorem solves_iff_of_not_lt (h : ¬ slack * target limits b < (image - b).norm) :
    Solves limits b image ↔ (image - b).allFinite = true ∧
      ((limits.tol == 0) = true → b.norm.isFinite = true) := by
  constructor
  · intro hsolves
    exact ⟨hsolves.finite, weighed_of_number hb (number_of_le hsolves.small).2⟩
  · rintro ⟨hfinite, hweighed⟩
    have hnorm := number_of_nonneg (norm_nonneg (allNumbers_of_finite hfinite))
    have hbound := number_of_nonneg (bound_nonneg ht hf ha hb hweighed)
    exact ⟨hfinite, (le_iff_not_lt hnorm hbound).mpr h⟩

theorem refused_or_solves_iff :
    (slack * target limits b < (image - b).norm ∨ Solves limits b image) ↔
      Decisive limits b image := by
  constructor
  · rintro (hlt | hsolves)
    · obtain ⟨hbound, hnorm⟩ := number_of_lt hlt
      have hnumbers : AllNumbers (image - b) := by
        by_contra hnot
        exact hnorm (norm_notANumber hnot)
      have hweighed := weighed_of_number hb hbound
      refine ⟨hnumbers, hweighed, ?_⟩
      cases hfinite : (image - b).allFinite with
      | true => exact .inl rfl
      | false =>
        have hinfinite := norm_infinite hnumbers hfinite
        exact .inr ((lt_infinite hinfinite (bound_nonneg ht hf ha hb hweighed)).mp hlt)
    · exact ⟨allNumbers_of_finite hsolves.finite,
        weighed_of_number hb (number_of_le hsolves.small).2, .inl hsolves.finite⟩
  · rintro ⟨hnumbers, hweighed, hbounded⟩
    by_cases hlt : slack * target limits b < (image - b).norm
    · exact .inl hlt
    · cases hfinite : (image - b).allFinite with
      | true => exact .inr ((solves_iff_of_not_lt ht hf ha hb hlt).mpr ⟨hfinite, hweighed⟩)
      | false =>
        -- An infinite residual is above every finite bound.
        have hbound : (slack * target limits b).isFinite = true := by
          simpa [hfinite] using hbounded
        have hinfinite := norm_infinite hnumbers hfinite
        exact absurd ((lt_infinite hinfinite (bound_nonneg ht hf ha hb hweighed)).mpr hbound) hlt

end Bound

end Double

section Solve

variable {n : Nat} {K : Kernels Float} {method : KrylovMethod Float} {fields : KrylovFields Float}
  {limits : Krylov.Limits Float} {system : HeldSystem Float n} {P : Preconditioners Float n}
  {b x image : Vec Float n} {cache : LinearCache Float}

/-- Whatever vector an iteration hands back, in double precision the solve either returns a finite
solution of the system that was asked for or fails for the right reason, exactly if the vector is not
finite or its residual can be compared with the bound. -/
theorem solveLinear_sound_iff (hlimits : fields.limits n = .ok limits)
    (ht : (0 : Float) ≤ limits.tol) (hf : limits.tol.isFinite = true)
    (ha : (0 : Float) ≤ limits.atol) (hb : b.allFinite = true)
    (hrun : Iterative.run K method limits system.system.apply P b = .ok x)
    (happly : x.allFinite = true → system.system.apply x = .ok image) :
    Iterative.Sound limits system.system.apply b x
        (solveLinear K (.krylov method fields) system b P cache).1 ↔
      (x.allFinite = true → Iterative.Decisive limits b image) := by
  have hsolve : (solveLinear K (.krylov method fields) system b P cache).1 = checkFinite x >>= fun y =>
      liftFault (system.system.apply y) >>= Iterative.checkResidual method limits b y :=
    Iterative.solve_of_run hlimits hrun
  rw [hsolve]
  cases hx : x.allFinite with
  | false =>
    rw [Iterative.checkFinite_of_infinite hx]
    exact iff_of_true (.overflow hx rfl) nofun
  | true =>
    have hnorm : (0 : Float) ≤ b.norm := Double.norm_nonneg (Double.allNumbers_of_finite hb)
    have hcheck : (checkFinite x >>= fun y => liftFault (system.system.apply y) >>=
        Iterative.checkResidual method limits b y) =
          Iterative.checkResidual method limits b x image := by
      simp [checkFinite, hx, happly hx, liftFault]
    rw [hcheck, Iterative.checkResidual_sound_iff hx (happly hx),
      Double.refused_or_solves_iff ht hf ha hnorm]
    exact ⟨fun h _ => h, fun h => h rfl⟩

end Solve

/-- The bounds of an iteration that no other bounds were asked for. -/
def KrylovFields.standard : KrylovFields Float := ⟨.real (Scalar.decimal 1 10), .real 0, .none⟩

def KrylovFields.standardLimits : Krylov.Limits Float := ⟨Scalar.decimal 1 10, 0, 20⟩

namespace HeldSystem

/-- Twice the identity. -/
def doubling : HeldSystem Float 2 := .matrix ⟨#v[#v[2, 0], #v[0, 2]], none⟩

/-- The iteration works with the halves of the unknowns. -/
def halves : Preconditioners Float 2 := ⟨none, some fun y => .ok (y + y)⟩

theorem doubling_sound :
    Iterative.Sound KrylovFields.standardLimits doubling.system.apply #v[4, 6] #v[2, 3]
      (solveLinear .standard (.krylov .cg .standard) doubling #v[4, 6] halves .empty).1 := by
  have hrun : Iterative.run .standard .cg KrylovFields.standardLimits doubling.system.apply halves
      #v[4, 6] = .ok #v[2, 3] := by
    apply Outcome.eq_ok_of_toOption
    decide +kernel
  refine (solveLinear_sound_iff rfl (by decide +kernel) (by decide +kernel) (by decide +kernel)
    (by decide +kernel) hrun fun _ => rfl).mpr ?_
  intro _
  have hfinite : ((Mat.mulVec #v[#v[2, 0], #v[0, 2]] #v[2, 3] : Vec Float 2) - #v[4, 6]).allFinite =
      true := by
    decide +kernel
  exact ⟨Double.allNumbers_of_finite hfinite, by decide +kernel, .inl hfinite⟩

/-- A matrix with an infinite entry. -/
def unbounded : HeldSystem Float 2 := .matrix ⟨#v[#v[1 / 0, 0], #v[0, 1]], none⟩

/-- The iteration does not start on it, and the vector that it starts from is returned as a solution. -/
theorem unbounded_unsound :
    (solveLinear .standard (.krylov (.gmres (.whole 20)) .standard) unbounded #v[1, 1] .absent
      .empty).1 = .ok #v[0, 0] ∧
    ∀ x, ¬ Iterative.Sound KrylovFields.standardLimits unbounded.system.apply #v[1, 1] x
      (solveLinear .standard (.krylov (.gmres (.whole 20)) .standard) unbounded #v[1, 1] .absent
        .empty).1 := by
  have hreturned : (solveLinear .standard (.krylov (.gmres (.whole 20)) .standard) unbounded #v[1, 1]
      .absent .empty).1 = .ok #v[0, 0] := by
    apply Outcome.eq_ok_of_toOption
    decide +kernel
  refine ⟨hreturned, ?_⟩
  intro x h
  rw [hreturned] at h
  cases h with
  | solved _ happly hsolves =>
    obtain rfl := Except.ok.inj happly
    exact absurd hsolves.finite (by decide +kernel)

end HeldSystem

end NewtonSolver
