import Mathlib
import NewtonSolver.Derivative.FiniteDifference
import NewtonSolver.Proofs.Arithmetic.Linear
import NewtonSolver.Proofs.Outcome

/-! Steps of difference schemes, and what follows for products and entries where every difference quotient
is exact. Those of affine functions are, whatever the scheme and its step. -/
namespace NewtonSolver

variable {m n : Nat}

/-- The step is a number other than zero, or left to the scheme. -/
def DenseBackend.HasStep : DenseBackend ℝ → Prop
  | .finite _ step => step = .none ∨ ∃ h, step.number = .ok h ∧ h ≠ 0
  | _ => True

namespace DifferenceScheme

variable {S : DifferenceScheme ℝ} {F : Vec ℝ n → Vec ℝ m} {A : Mat ℝ m n} {b : Vec ℝ m}

theorem defaultStep_ne_zero (central : Bool) : (defaultStep central : ℝ) ≠ 0 := by
  have hcentral : (Scalar.decimal 6055454452393343 21 : ℝ) ≠ 0 :=
    (Exact.decimal_pos (by norm_num) 21).ne'
  have hforward : (1 / ((Nat.pow 2 26 : Nat) : ℝ)) ≠ 0 := by
    have : ((Nat.pow 2 26 : Nat) : ℝ) ≠ 0 := by norm_num
    exact one_div_ne_zero this
  cases central
  · exact hforward
  · exact hcentral

theorem ofFields_ok {scheme step : Setting ℝ} (hs : DenseBackend.HasStep (.finite scheme step)) :
    ∃ S, ofFields scheme step = .ok S ∧ S.step ≠ 0 := by
  rcases hs with rfl | ⟨h, hnumber, hne⟩
  · exact ⟨_, rfl, defaultStep_ne_zero _⟩
  · cases step with
    | none => cases hnumber
    | _ =>
      exact ⟨⟨isCentral scheme, h⟩, by simp [ofFields, Setting.numberOr_eq_ok.mpr hnumber], hne⟩

theorem length_ne_zero (hs : S.step ≠ 0) (x v : Vec ℝ n) : S.length x v ≠ 0 := by
  have hx : (1 : ℝ) + x.norm ≠ 0 := by
    have := Exact.norm_nonneg x
    positivity
  unfold length
  split
  · next hv => exact div_ne_zero (mul_ne_zero hs hx) (ne_of_gt hv)
  · exact div_ne_zero (mul_ne_zero hs hx) one_ne_zero

theorem coordinateLength_ne_zero (hs : S.step ≠ 0) (x : Vec ℝ n) (j : Fin n) :
    S.coordinateLength x j ≠ 0 := by
  have hpos : (0 : ℝ) < Scalar.atLeast 1 (Scalar.abs (x.get j)) := by
    rw [Exact.atLeast_eq]
    exact lt_max_of_lt_left one_pos
  exact mul_ne_zero hs (ne_of_gt hpos)

theorem column_eq_quotient (S : DifferenceScheme ℝ) (F : Vec ℝ n → Vec ℝ m) (fx : Vec ℝ m) (x : Vec ℝ n)
    (j : Fin n) : S.column F fx x j =
      S.quotient F fx x (S.coordinateLength x j * (Vec.unit j : Vec ℝ n)) (S.coordinateLength x j) := by
  have hd : (Vector.ofFn fun i => if i = j then S.coordinateLength x j else 0) =
      S.coordinateLength x j * (Vec.unit j : Vec ℝ n) := by
    refine Vec.ext_get ?_
    intro i
    simp
  rw [column, hd]

/-- Every difference over a multiple of a vector is the product with the matrix. -/
def ExactAt (S : DifferenceScheme ℝ) (F : Vec ℝ n → Vec ℝ m) (x : Vec ℝ n) (A : Mat ℝ m n) : Prop :=
  ∀ (v : Vec ℝ n) (h : ℝ), h ≠ 0 → S.quotient F (F x) x (h * v) h = A.mulVec v

namespace ExactAt

variable {x : Vec ℝ n} (h : S.ExactAt F x A) (hs : S.step ≠ 0)

include h hs

theorem product_eq (v : Vec ℝ n) : S.product F (F x) x v = A.mulVec v :=
  h v _ (length_ne_zero hs x v)

theorem jacobian_eq : S.jacobian F (F x) x = A := by
  refine Mat.ext_entry ?_
  intro i j
  have hcolumn : S.column F (F x) x j = A.column j := by
    rw [column_eq_quotient, h _ _ (coordinateLength_ne_zero hs x j), Exact.mulVec_unit]
  simp [jacobian, hcolumn, Mat.column]

end ExactAt

theorem affine_exactAt (hF : ∀ x, F x = A.mulVec x - b) (x : Vec ℝ n) : S.ExactAt F x A := by
  intro v h hh
  unfold quotient
  split
  · refine Vec.ext_get ?_
    intro i
    simp only [hF, Exact.mulVec_add, Exact.mulVec_sub, Exact.mulVec_scale, Vector.get_map,
      Vec.get_sub, Vec.get_add, Vec.get_scale, Nat.cast_ofNat]
    field_simp
    ring
  · refine Vec.ext_get ?_
    intro i
    simp only [hF, Exact.mulVec_add, Exact.mulVec_scale, Vector.get_map, Vec.get_sub, Vec.get_add,
      Vec.get_scale]
    field_simp
    ring

end DifferenceScheme

namespace Residual

variable {F : Residual ℝ m n} {S : DifferenceScheme ℝ} {fx : Option (Vec ℝ m)} {x : Vec ℝ n}
  {A : Mat ℝ m n}

/-- Products, entries and transposed products by differences at a point are those of the matrix. -/
structure DifferencesAre (F : Residual ℝ m n) (S : DifferenceScheme ℝ) (fx : Option (Vec ℝ m))
    (x : Vec ℝ n) (A : Mat ℝ m n) : Prop where
  product : ∀ v, F.differenceProduct S fx x v = .ok (A.mulVec v)
  jacobian : F.differenceJacobian S fx x = .ok A
  transposed : ∀ u, F.differenceTransposedProduct S fx x u = .ok (A.vecMul u)

theorem compared_ok (hvector : F.isBare = false) (S : DifferenceScheme ℝ)
    (hfx : fx.getD (F.value x) = F.value x) (otherwise : Misfit) :
    F.compared S fx x otherwise = .ok (F.value x) := by
  unfold compared
  rw [requireVector_ok hvector, hfx]
  split <;> rfl

theorem differencesAre_of_exactAt (hvector : F.isBare = false) (hs : S.step ≠ 0)
    (hfx : fx.getD (F.value x) = F.value x) (h : S.ExactAt F.value x A) :
    F.DifferencesAre S fx x A := by
  have hcompared := compared_ok hvector S hfx
  have hjacobian : F.differenceJacobian S fx x = .ok A := by
    simp [differenceJacobian, hcompared, h.jacobian_eq hs]
  refine ⟨?_, hjacobian, ?_⟩
  · intro v
    simp [differenceProduct, hcompared, h.product_eq hs]
  · intro u
    simp [differenceTransposedProduct, hjacobian]

end Residual

end NewtonSolver
