import Mathlib
import NewtonSolver.Proofs.LineSearch.AffineResidual

/-! What a procedure of the caller is told. Along a direction of an affine residual these are the values and
slopes of one quadratic at every step length, whatever the procedure asks and however slopes are found. -/
namespace NewtonSolver.LineSearch

section Answers

variable {R : Type} {phi dphi : R → R}

/-- The questions of a procedure up to its end, each answered with the value or the slope of one
function. -/
inductive Answers (phi dphi : R → R) : Method R → List (Exchange R) → Option R → Prop
  | done (step : Option R) : Answers phi dphi (.done step) [] step
  | value {alpha : R} {next : R → Method R} {exchanges : List (Exchange R)} {step : Option R}
    (rest : Answers phi dphi (next (phi alpha)) exchanges step) :
    Answers phi dphi (.value alpha next) (.value alpha (phi alpha) :: exchanges) step
  | slope {alpha : R} {next : R → Method R} {exchanges : List (Exchange R)} {step : Option R}
    (rest : Answers phi dphi (next (dphi alpha)) exchanges step) :
    Answers phi dphi (.slope alpha next) (.slope alpha (dphi alpha) :: exchanges) step
  | both {alpha : R} {next : R → R → Method R} {exchanges : List (Exchange R)} {step : Option R}
    (rest : Answers phi dphi (next (phi alpha) (dphi alpha)) exchanges step) :
    Answers phi dphi (.both alpha next) (.both alpha (phi alpha) (dphi alpha) :: exchanges) step

/-- What a procedure asks, and how it ends, is settled by the function it asks about. -/
theorem Answers.unique {method : Method R} {es es' : List (Exchange R)} {step step' : Option R}
    (h : Answers phi dphi method es step) (h' : Answers phi dphi method es' step') :
    es = es' ∧ step = step' := by
  induction h generalizing es' with
  | done step =>
    cases h'
    exact ⟨rfl, rfl⟩
  | value rest ih =>
    cases h' with
    | value rest' =>
      obtain ⟨rfl, hstep⟩ := ih rest'
      exact ⟨rfl, hstep⟩
  | slope rest ih =>
    cases h' with
    | slope rest' =>
      obtain ⟨rfl, hstep⟩ := ih rest'
      exact ⟨rfl, hstep⟩
  | both rest ih =>
    cases h' with
    | both rest' =>
      obtain ⟨rfl, hstep⟩ := ih rest'
      exact ⟨rfl, hstep⟩

variable [Scalar R] {merit : Merit R}

/-- A merit function whose values and slopes, those known at zero among them, are those of one
function. -/
structure Merit.Tells (merit : Merit R) (phi dphi : R → R) : Prop where
  value : ∀ alpha, merit.value alpha = phi alpha
  slopeOf : ∀ alpha, merit.slopeOf alpha = dphi alpha
  valueAtZero : merit.valueAtZero = phi 0
  slopeAtZero : merit.slopeAtZero = dphi 0

/-- The induction is on the procedure, question by question. -/
theorem Merit.Tells.run (h : merit.Tells phi dphi) (method : Method R) :
    Answers phi dphi method (method.run merit).exchanges (method.run merit).step := by
  induction method with
  | done step => exact .done step
  | value alpha next ih =>
    simp only [Method.run, h.value]
    exact .value (ih _)
  | slope alpha next ih =>
    simp only [Method.run, h.slopeOf]
    exact .slope (ih _)
  | both alpha next ih =>
    simp only [Method.run, h.value, h.slopeOf]
    exact .both (ih _ _)

/-- A procedure that is consulted starts from what is known at zero, and is told the truth. -/
theorem Merit.Tells.consult (h : merit.Tells phi dphi) (label : String)
    (run : Outset R → Method R) : ∃ exchanges step evaluations,
      Answers phi dphi (run ⟨1, phi 0, dphi 0⟩) exchanges step ∧
        consult (.callable (.lineSearch label run)) merit = ⟨usable step, evaluations, exchanges⟩ := by
  refine ⟨_, _, _, ?_, rfl⟩
  rw [h.valueAtZero, h.slopeAtZero]
  exact h.run _

end Answers

/-- A procedure is told of one function and its derivative, at the start and at whatever step lengths it
asks, and the same in both selections. -/
structure ToldOf (phi dphi : ℝ → ℝ) (run : Outset ℝ → Method ℝ) (selections : Bool → Selection ℝ) :
    Prop where
  derivative : ∀ alpha, HasDerivAt phi (dphi alpha) alpha
  answered : ∃ exchanges step, Answers phi dphi (run ⟨1, phi 0, dphi 0⟩) exchanges step ∧
    ∀ differentiable, ∃ evaluations, selections differentiable = ⟨usable step, evaluations, exchanges⟩

variable {m n : Nat} {r g : Vec ℝ m}

/-- Half the squared length of a vector that moves along another one. -/
noncomputable def lineValue (r g : Vec ℝ m) (alpha : ℝ) : ℝ := Scalar.half * (r + alpha * g).norm ^ 2

noncomputable def lineSlope (r g : Vec ℝ m) (alpha : ℝ) : ℝ := Vec.dot (r + alpha * g) g

theorem halfSquare_line (alpha : ℝ) : halfSquare (r + alpha * g) = lineValue r g alpha := by
  rw [halfSquare, lineValue, Exact.norm_sq]

theorem lineValue_eq (alpha : ℝ) : lineValue r g alpha =
    1 / 2 * r.sumSquares + alpha * Vec.dot r g + 1 / 2 * alpha ^ 2 * g.sumSquares := by
  rw [lineValue, Exact.half_eq, Exact.norm_sq, Exact.sumSquares_add_scale]
  ring

theorem lineSlope_eq (alpha : ℝ) : lineSlope r g alpha = Vec.dot r g + alpha * g.sumSquares := by
  rw [lineSlope, Exact.dot_add_left, Exact.dot_scale_left]
  rfl

theorem lineValue_hasDerivAt (alpha : ℝ) :
    HasDerivAt (lineValue r g) (lineSlope r g alpha) alpha := by
  have hlinear : HasDerivAt (fun a => a * Vec.dot r g) (Vec.dot r g) alpha := by
    simpa using (hasDerivAt_id alpha).mul_const (Vec.dot r g)
  have hsquare : HasDerivAt (fun a => 1 / 2 * a ^ 2 * g.sumSquares) (alpha * g.sumSquares) alpha := by
    refine (((hasDerivAt_pow 2 alpha).const_mul (1 / 2)).mul_const g.sumSquares).congr_deriv ?_
    simp
  have hsum := (hlinear.const_add (1 / 2 * r.sumSquares)).add hsquare
  rw [lineSlope_eq, funext fun a => lineValue_eq (r := r) (g := g) a]
  exact hsum

/-- A central difference of a quadratic is its slope, by whatever step. -/
theorem differenceSlope_line (alpha : ℝ) :
    differenceSlope (lineValue r g) alpha = lineSlope r g alpha := by
  have hscale : (0 : ℝ) < Scalar.atLeast 1 (Scalar.abs alpha) := by
    rw [Exact.atLeast_eq]
    exact lt_max_of_lt_left one_pos
  have hstep : (0 : ℝ) < Scalar.decimal 6055454452393343 21 := Exact.decimal_pos (by norm_num) 21
  have hh := (mul_pos hstep hscale).ne'
  rw [differenceSlope]
  generalize (Scalar.decimal 6055454452393343 21 : ℝ) * Scalar.atLeast 1 (Scalar.abs alpha) = h at hh ⊢
  rw [lineValue_eq, lineValue_eq, lineSlope_eq, Nat.cast_ofNat]
  field_simp
  ring

section Affine

variable {F : Residual ℝ m n} {A : Mat ℝ m n} {b : Vec ℝ m}
  (hvalue : ∀ y, F.value y = A.mulVec y - b) (hforward : ∀ y v, F.forward y v = A.mulVec v)

include hvalue hforward

/-- Slopes by automatic derivatives, by differences and the one that is known at zero are those of the same
quadratic. -/
theorem along_tells (x direction : Vec ℝ n) (differentiable : Bool) :
    (Merit.along F differentiable x direction (F.value x)
      (Vec.dot (F.value x) (A.mulVec direction))).Tells
        (lineValue (F.value x) (A.mulVec direction)) (lineSlope (F.value x) (A.mulVec direction)) := by
  have hline (alpha : ℝ) : F.value (x + alpha * direction) =
      F.value x + alpha * A.mulVec direction := by
    rw [hvalue, hvalue, Exact.mulVec_along]
  have hvalues : (fun alpha : ℝ => halfSquare (F.value (x + alpha * direction))) =
      lineValue (F.value x) (A.mulVec direction) := by
    funext alpha
    rw [hline, halfSquare_line]
  have hzero : lineSlope (F.value x) (A.mulVec direction) 0 =
      Vec.dot (F.value x) (A.mulVec direction) := by
    rw [lineSlope_eq, zero_mul, add_zero]
  refine ⟨congrFun hvalues, ?_, ?_, hzero.symm⟩
  · intro alpha
    unfold Merit.slopeOf
    split
    · next h =>
      rw [Exact.beq_eq.mp h]
      exact hzero.symm
    · cases differentiable with
      | true =>
        change exactSlope F x direction alpha = _
        rw [exactSlope, hline, hforward, lineSlope]
      | false =>
        change differenceSlope (fun alpha => halfSquare (F.value (x + alpha * direction))) alpha = _
        rw [hvalues, differenceSlope_line]
  · change halfSquare (F.value x) = _
    rw [Exact.halfSquare_eq, lineValue_eq]
    ring

/-- Whatever a procedure asks along a direction of an affine residual, it is told the values of half the
squared residual norm and their derivatives, from the start on and at every step length, and it makes no
difference whether the residual has automatic derivatives. -/
theorem select_external_consistent (x direction : Vec ℝ n) {slope : ℝ}
    (hslope : slope = Vec.dot (F.value x) (A.mulVec direction)) (label : String)
    (run : Outset ℝ → Method ℝ) :
    ToldOf (lineValue (F.value x) (A.mulVec direction)) (lineSlope (F.value x) (A.mulVec direction)) run
      fun differentiable => select (.external (.callable (.lineSearch label run)))
        (.along F differentiable x direction (F.value x) slope) := by
  subst hslope
  have htells := along_tells hvalue hforward x direction
  obtain ⟨exchanges, step, -, hanswers, -⟩ := (htells true).consult label run
  refine ⟨lineValue_hasDerivAt, exchanges, step, hanswers, ?_⟩
  intro differentiable
  obtain ⟨exchanges', step', evaluations, hanswers', hconsult⟩ :=
    (htells differentiable).consult label run
  obtain ⟨rfl, rfl⟩ := hanswers.unique hanswers'
  exact ⟨evaluations, hconsult⟩

end Affine

/-- Asks at zero and at two other step lengths, and lets the answers decide. -/
noncomputable def probing (behind ahead : ℝ) (start : Outset ℝ) : Method ℝ :=
  .slope 0 fun atZero => .both behind fun before _ => .value ahead fun after =>
    .done (if after < before then some (start.alpha - atZero) else none)

theorem probing_consistent :
    (∀ y, contradictory.value y = Mat.mulVec (.ofFn fun _ _ => 1) y - .ofFn fun i => (i.val : ℝ)) ∧
      (∀ y v, contradictory.forward y v = Mat.mulVec (.ofFn fun _ _ => 1) v) ∧
      ToldOf (lineValue (contradictory.value #v[5]) (Mat.mulVec (.ofFn fun _ _ => 1) #v[2]))
        (lineSlope (contradictory.value #v[5]) (Mat.mulVec (.ofFn fun _ _ => 1) #v[2]))
        (probing (-3) 1000000)
        fun differentiable =>
          select (.external (.callable (.lineSearch "probing" (probing (-3) 1000000))))
            (.along contradictory differentiable #v[5] #v[2] (contradictory.value #v[5])
              (Vec.dot (contradictory.value #v[5]) (Mat.mulVec (.ofFn fun _ _ => 1) #v[2]))) :=
  ⟨fun _ => rfl, fun _ _ => rfl, select_external_consistent (fun _ => rfl) (fun _ _ => rfl) #v[5] #v[2]
    rfl "probing" (probing (-3) 1000000)⟩

end NewtonSolver.LineSearch
