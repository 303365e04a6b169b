import Mathlib
import NewtonSolver.Proofs.Arithmetic.Length
import NewtonSolver.Proofs.Jacobian.ColoredDifferences
import NewtonSolver.Proofs.Jacobian.Polynomials

/-! Products by differences scale with the vector that they are taken along, as the step gets shorter where
the vector gets longer. Besides that they are exact where the degree is low. -/
namespace NewtonSolver

variable {m n : Nat}

namespace DifferenceScheme

variable {S : DifferenceScheme ℝ} {F : Vec ℝ n → Vec ℝ m} {x : Vec ℝ n} {c h : ℝ}

theorem quotient_zero (S : DifferenceScheme ℝ) (F : Vec ℝ n → Vec ℝ m) (x : Vec ℝ n) (h : ℝ) :
    S.quotient F (F x) x 0 h = 0 := by
  have hadd : x + 0 = x := Vec.ext_get fun i => by simp
  have hsub : x - 0 = x := Vec.ext_get fun i => by simp
  unfold quotient
  split
  · refine Vec.ext_get ?_
    intro i
    rw [hadd, hsub, Vector.get_map, Vec.get_sub, Vec.get_zero, sub_self, zero_div]
  · refine Vec.ext_get ?_
    intro i
    rw [hadd, Vector.get_map, Vec.get_sub, Vec.get_zero, sub_self, zero_div]

theorem quotient_div (S : DifferenceScheme ℝ) (F : Vec ℝ n → Vec ℝ m) (fx : Vec ℝ m) (x d : Vec ℝ n)
    (h c : ℝ) : S.quotient F fx x d (h / c) = c * S.quotient F fx x d h := by
  unfold quotient
  split
  · refine Vec.ext_get ?_
    intro i
    rw [Vector.get_map, Vec.get_scale, Vector.get_map, ← mul_div_assoc, div_div_eq_mul_div]
    ring
  · refine Vec.ext_get ?_
    intro i
    rw [Vector.get_map, Vec.get_scale, Vector.get_map, div_div_eq_mul_div]
    ring

/-- A central difference backward. -/
theorem quotient_neg (hcentral : S.central = true) (fx : Vec ℝ m) (x d : Vec ℝ n) (h : ℝ) :
    S.quotient F fx x (-d) h = -S.quotient F fx x d h := by
  have hadd : x + -d = x - d := Vec.ext_get fun i => by simp [sub_eq_add_neg]
  have hsub : x - -d = x + d := Vec.ext_get fun i => by simp
  rw [quotient, if_pos hcentral, quotient, if_pos hcentral, hadd, hsub]
  refine Vec.ext_get ?_
  intro i
  simp only [Vector.get_map, Vec.get_sub, Vec.get_neg]
  ring

theorem length_of_ne_zero (S : DifferenceScheme ℝ) (x : Vec ℝ n) {v : Vec ℝ n} (hv : v ≠ 0) :
    S.length x v = S.step * (1 + x.norm) / v.norm := by
  rw [length, if_pos (Exact.norm_pos_iff.mpr hv)]

theorem length_scale (S : DifferenceScheme ℝ) (x : Vec ℝ n) {v : Vec ℝ n} (hv : v ≠ 0) (hc : c ≠ 0) :
    S.length x (c * v) = S.length x v / |c| := by
  have hcv : c * v ≠ 0 := (Exact.scale_eq_zero_iff hc).not.mpr hv
  rw [S.length_of_ne_zero x hcv, S.length_of_ne_zero x hv, Exact.norm_scale, mul_comm |c|, div_div]

theorem product_zero (S : DifferenceScheme ℝ) (F : Vec ℝ n → Vec ℝ m) (x : Vec ℝ n) :
    S.product F (F x) x 0 = 0 := by
  rw [product, Exact.scale_zero, quotient_zero]

/-- The displacement is the same as before, or the opposite one. -/
theorem product_scale_of_ne_zero (hc : 0 < c ∨ c < 0 ∧ S.central = true) (fx : Vec ℝ m) {v : Vec ℝ n}
    (hv : v ≠ 0) : S.product F fx x (c * v) = c * S.product F fx x v := by
  rw [product, product]
  rcases hc with hpos | ⟨hneg, hcentral⟩
  · have hmove : S.length x v / |c| * (c * v : Vec ℝ n) = S.length x v * v := by
      refine Vec.ext_get ?_
      intro i
      rw [abs_of_pos hpos, Vec.get_scale, Vec.get_scale, Vec.get_scale]
      field_simp
    rw [S.length_scale x hv hpos.ne', hmove, abs_of_pos hpos, quotient_div]
  · have hmove : S.length x v / |c| * (c * v : Vec ℝ n) = -(S.length x v * v) := by
      refine Vec.ext_get ?_
      intro i
      rw [abs_of_neg hneg, Vec.get_neg, Vec.get_scale, Vec.get_scale, Vec.get_scale]
      field_simp [hneg.ne]
    rw [S.length_scale x hv hneg.ne, hmove, abs_of_neg hneg, quotient_neg hcentral, quotient_div]
    refine Vec.ext_get ?_
    intro i
    simp only [Vec.get_neg, Vec.get_scale]
    ring

theorem product_scale (hc : 0 ≤ c ∨ S.central = true) (v : Vec ℝ n) :
    S.product F (F x) x (c * v) = c * S.product F (F x) x v := by
  by_cases hv : v = 0
  · rw [hv, Exact.scale_zero, product_zero, Exact.scale_zero]
  · rcases lt_trichotomy c 0 with hneg | rfl | hpos
    · exact product_scale_of_ne_zero (.inr ⟨hneg, hc.resolve_left (not_le.mpr hneg)⟩) _ hv
    · rw [Exact.zero_scale, product_zero, Exact.zero_scale]
    · exact product_scale_of_ne_zero (.inl hpos) _ hv

end DifferenceScheme

namespace Residual

variable {F : Residual ℝ m n} {S : DifferenceScheme ℝ} {fx : Option (Vec ℝ m)} {x : Vec ℝ n}

/-- Products by differences scale with the vector, and the product with zero is zero. -/
structure ProductsScale (F : Residual ℝ m n) (S : DifferenceScheme ℝ) (fx : Option (Vec ℝ m))
    (x : Vec ℝ n) : Prop where
  scale : ∀ (v : Vec ℝ n) (c : ℝ), 0 ≤ c ∨ S.central = true →
    F.differenceProduct S fx x (c * v) = (F.differenceProduct S fx x v).map fun w : Vec ℝ m => c * w
  zero : F.isBare = false → ∀ (v : Vec ℝ n) (c : ℝ), v = 0 ∨ c = 0 →
    F.differenceProduct S fx x (c * v) = .ok 0

/-- Either there is no value to compare with, or it is the one at the point. -/
theorem compared_cases (F : Residual ℝ m n) (S : DifferenceScheme ℝ)
    (hfx : fx.getD (F.value x) = F.value x) (otherwise : Misfit) :
    (∃ e, F.compared S fx x otherwise = .error e) ∨
      F.compared S fx x otherwise = .ok (F.value x) := by
  cases hvector : F.isBare with
  | false => exact .inr (compared_ok hvector S hfx otherwise)
  | true =>
    unfold compared
    rw [requireVector_bare hvector, hfx]
    split
    · exact .inl ⟨_, rfl⟩
    · exact .inr rfl

theorem productsScale (F : Residual ℝ m n) (S : DifferenceScheme ℝ)
    (hfx : fx.getD (F.value x) = F.value x) : F.ProductsScale S fx x where
  scale v c hc := by
    rcases compared_cases F S hfx .argument with ⟨e, he⟩ | hcompared
    · simp [differenceProduct, he, Except.map]
    · simp [differenceProduct, hcompared, DifferenceScheme.product_scale hc, Except.map]
  zero hvector v c hvc := by
    have hcv : c * v = 0 := by
      rcases hvc with rfl | rfl
      · exact Exact.scale_zero c
      · exact Exact.zero_scale v
    simp [differenceProduct, compared_ok hvector S hfx, hcv, DifferenceScheme.product_zero]

/-- With any step but zero, differences are exact where the residual is affine, and central ones where it is
quadratic. Their products scale with the vector whatever the residual: by central differences with every
factor, by others with those that do not turn the vector around. -/
theorem differences_exact_and_scale (F : Residual ℝ m n) {S : DifferenceScheme ℝ} (hs : S.step ≠ 0)
    (x : Vec ℝ n) (hfx : fx = none ∨ fx = some (F.value x)) :
    (F.isBare = false → ∀ A b, (∀ y, F.value y = Mat.mulVec A y - b) → F.DifferencesAre S fx x A) ∧
      (F.isBare = false → S.central = true → ∀ p, IsPolynomial F.value p →
        (∀ i, (p i).totalDegree ≤ 2) → F.DifferencesAre S fx x (partials p x)) ∧
      F.ProductsScale S fx x := by
  have hvalue : fx.getD (F.value x) = F.value x := by
    rcases hfx with rfl | rfl <;> rfl
  refine ⟨?_, ?_, productsScale F S hvalue⟩
  · intro hvector A b hF
    exact differencesAre_of_exactAt hvector hs hvalue (DifferenceScheme.affine_exactAt hF x)
  · intro hvector hcentral p hp hdegree
    exact differencesAre_of_exactAt hvector hs hvalue (hp.central_exactAt hcentral hdegree x)

/-- By central differences backward, with the value at hand. -/
theorem squares_exact_and_scale :
    (-3 : ℝ) ≠ 0 ∧ some (squares.value #v[3, 4]) = some (squares.value #v[3, 4]) ∧
      squares.DifferencesAre ⟨true, -3⟩ (some (squares.value #v[3, 4])) #v[3, 4]
        (partials (fun i => .X i * .X i) #v[3, 4]) ∧
      squares.ProductsScale ⟨true, -3⟩ (some (squares.value #v[3, 4])) #v[3, 4] := by
  have hp : IsPolynomial squares.value fun i => .X i * .X i := by
    intro x i
    simp [squares]
  have hdegree (i : Fin 2) : (.X i * .X i : MvPolynomial (Fin 2) ℝ).totalDegree ≤ 2 := by
    refine (MvPolynomial.totalDegree_mul _ _).trans ?_
    rw [MvPolynomial.totalDegree_X]
  obtain ⟨-, hquadratic, hscale⟩ :=
    differences_exact_and_scale squares (S := ⟨true, -3⟩) (by norm_num) #v[3, 4] (.inr rfl)
  exact ⟨by norm_num, rfl, hquadratic rfl rfl _ hp hdegree, hscale⟩

end Residual

end NewtonSolver
