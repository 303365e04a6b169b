import Mathlib
import NewtonSolver.Proofs.Jacobian.Decompression
import NewtonSolver.Proofs.Jacobian.Differences

/-! Differences along all unknowns of one color. Where each component of a residual depends on the
unknowns of its row of the pattern only, it sees a single one of them move. -/
namespace NewtonSolver

variable {m n : Nat} {P : Pattern m n} {i : Fin m} {j k : Fin n} {x : Vec ℝ n}

/-- Every component is the same at points that agree in the unknowns of its row. -/
def Pattern.Governs (P : Pattern m n) (F : Vec ℝ n → Vec ℝ m) : Prop :=
  ∀ i x y, (∀ j, P.entry i j = true → x.get j = y.get j) → (F x).get i = (F y).get i

namespace Coloring

variable {c : Coloring n}

/-- The columns of the color of a column. -/
def group (c : Coloring n) (j : Fin n) : Finset (Fin n) := {k | c.colors.get k = c.colors.get j}

theorem mem_group (c : Coloring n) (j : Fin n) : j ∈ c.group j := by simp [group]

theorem norm_seed (c : Coloring n) (j : Fin n) :
    (c.seed (c.colors.get j) : Vec ℝ n).norm = √(c.group j).card := by
  have hsquares : (c.seed (c.colors.get j) : Vec ℝ n).sumSquares = (c.group j).card := by
    rw [Vec.sumSquares, Exact.dot_eq_sum, group, ← Finset.sum_boole]
    refine Finset.sum_congr rfl ?_
    intro k _
    rw [Compression.seed_get]
    split_ifs <;> simp
  exact congrArg Real.sqrt hsquares

theorem norm_seed_pos (c : Coloring n) (j : Fin n) :
    0 < (c.seed (c.colors.get j) : Vec ℝ n).norm := by
  rw [norm_seed, Real.sqrt_pos, Nat.cast_pos]
  exact Finset.card_pos.mpr ⟨j, c.mem_group j⟩

/-- In a row that has `j`, no other column of its color is there to be seen. -/
theorem Valid.seed_get (hc : c.Valid P) (hj : P.entry i j = true) (hk : P.entry i k = true) :
    (c.seed (c.colors.get j) : Vec ℝ n).get k = (Vec.unit j : Vec ℝ n).get k := by
  rw [Compression.seed_get, Vec.get_unit]
  by_cases hkj : k = j
  · rw [if_pos (congrArg c.colors.get hkj), if_pos hkj]
  · rw [if_neg (hc i k j hkj hk hj), if_neg hkj]

end Coloring

namespace DifferenceScheme

variable {S : DifferenceScheme ℝ} {F : Vec ℝ n → Vec ℝ m} {c : Coloring n}

/-- The step along the unknowns of the color of `j`. -/
noncomputable def groupLength (S : DifferenceScheme ℝ) (c : Coloring n) (x : Vec ℝ n) (j : Fin n) : ℝ :=
  S.step * (1 + x.norm) / √(c.group j).card

/-- The difference quotient of component `i` along unknown `j` alone. -/
noncomputable def partialQuotient (S : DifferenceScheme ℝ) (F : Vec ℝ n → Vec ℝ m) (x : Vec ℝ n)
    (i : Fin m) (j : Fin n) (h : ℝ) : ℝ :=
  if S.central then
    ((F (x + h * (Vec.unit j : Vec ℝ n))).get i - (F (x - h * (Vec.unit j : Vec ℝ n))).get i) /
      (((2 : Nat) : ℝ) * h)
  else ((F (x + h * (Vec.unit j : Vec ℝ n))).get i - (F x).get i) / h

theorem length_seed (S : DifferenceScheme ℝ) (c : Coloring n) (x : Vec ℝ n) (j : Fin n) :
    S.length x (c.seed (c.colors.get j)) = S.groupLength c x j := by
  rw [length, if_pos (c.norm_seed_pos j), groupLength, Coloring.norm_seed]

theorem groupLength_ne_zero (hs : S.step ≠ 0) (c : Coloring n) (x : Vec ℝ n) (j : Fin n) :
    S.groupLength c x j ≠ 0 := by
  rw [← length_seed]
  exact length_ne_zero hs x _

/-- A component is moved by the unknowns of a color as by the one that its row has. -/
theorem get_move (hF : P.Governs F) (hc : c.Valid P) (hP : P.entry i j = true) (h : ℝ) :
    (F (x + h * (c.seed (c.colors.get j) : Vec ℝ n))).get i =
        (F (x + h * (Vec.unit j : Vec ℝ n))).get i ∧
      (F (x - h * (c.seed (c.colors.get j) : Vec ℝ n))).get i =
        (F (x - h * (Vec.unit j : Vec ℝ n))).get i := by
  constructor
  · refine hF i _ _ ?_
    intro k hk
    rw [Vec.get_add, Vec.get_add, Vec.get_scale, Vec.get_scale, hc.seed_get hP hk]
  · refine hF i _ _ ?_
    intro k hk
    rw [Vec.get_sub, Vec.get_sub, Vec.get_scale, Vec.get_scale, hc.seed_get hP hk]

theorem product_seed_get (hF : P.Governs F) (hc : c.Valid P) (hP : P.entry i j = true) :
    (S.product F (F x) x (c.seed (c.colors.get j))).get i =
      S.partialQuotient F x i j (S.groupLength c x j) := by
  obtain ⟨hup, hdown⟩ := get_move (x := x) hF hc hP (S.groupLength c x j)
  simp only [product, quotient, length_seed, partialQuotient]
  split
  · simp only [Vector.get_map, Vec.get_sub, hup, hdown]
  · simp only [Vector.get_map, Vec.get_sub, hup]

end DifferenceScheme

namespace Residual

variable {F : Residual ℝ m n} {scheme step : Setting ℝ} {S : DifferenceScheme ℝ}

theorem coloredJacobian_finite {c : Coloring n} {count : Nat} (hvector : F.isBare = false)
    (hS : DifferenceScheme.ofFields scheme step = .ok S) (hcount : ∀ j, c.colors.get j < count) :
    F.coloredJacobian (.finite scheme step) P (.columns c) count x = .ok (Mat.ofFn fun i j =>
      (S.product F.value (F.value x) x (c.seed (c.colors.get j))).get i *
        if P.entry i j = true then 1 else 0) := by
  simp only [coloredJacobian, requireVector_ok hvector, hS, Outcome.ok_bind]
  exact Compression.expandColumns_eq hcount

/-- Differences along the colors of a first-fit coloring are, at each place of the pattern, difference
quotients along one unknown, by a step that is shorter the more unknowns have its color. -/
theorem coloredDifferences_eq_partial (hvector : F.isBare = false) (hF : P.Governs F.value)
    (hS : DifferenceScheme.ofFields scheme step = .ok S) (hstep : S.step ≠ 0) (x : Vec ℝ n) (i : Fin m)
    (j : Fin n) :
    ∃ J, F.compressedJacobian (.finite scheme step) P (.columns (.greedy P)) x = .ok J ∧
      (P.entry i j = false → J.entry i j = 0) ∧
      (P.entry i j = true → S.groupLength (.greedy P) x j ≠ 0 ∧
        J.entry i j = S.partialQuotient F.value x i j (S.groupLength (.greedy P) x j)) := by
  refine ⟨_, coloredJacobian_finite hvector hS (Coloring.greedy P).lt_count, ?_, ?_⟩
  · intro hP
    simp [hP]
  · intro hP
    refine ⟨DifferenceScheme.groupLength_ne_zero hstep _ x j, ?_⟩
    rw [Mat.entry_ofFn, if_pos hP, mul_one,
      DifferenceScheme.product_seed_get hF (Coloring.greedy_valid P) hP]

/-- Two squares without common unknowns. -/
def squares : Residual ℝ 2 2 where
  value x := Vector.ofFn fun i => x.get i * x.get i
  forward x v := Vector.ofFn fun i => (x.get i + x.get i) * v.get i
  backward x u := Vector.ofFn fun i => (x.get i + x.get i) * u.get i
  isBare := false

/-- Its columns share no row, and so have one color. -/
def apart : Pattern 2 2 := #v[#v[true, false], #v[false, true]]

theorem apart_governs : apart.Governs squares.value := by
  intro i x y h
  have hi : x.get i = y.get i := by
    refine h i ?_
    fin_cases i <;> rfl
  simp [squares, hi]

theorem squares_coloredDifferences :
    squares.isBare = false ∧ apart.Governs squares.value ∧
      DifferenceScheme.ofFields (.text "central") (.real 2) = .ok (⟨true, 2⟩ : DifferenceScheme ℝ) ∧
      (2 : ℝ) ≠ 0 ∧
      ∃ J, squares.compressedJacobian (.finite (.text "central") (.real 2)) apart
          (.columns (.greedy apart)) #v[3, 4] = .ok J ∧
        (apart.entry 1 1 = false → J.entry 1 1 = 0) ∧
        (apart.entry 1 1 = true →
          DifferenceScheme.groupLength ⟨true, 2⟩ (.greedy apart) #v[3, 4] 1 ≠ 0 ∧
            J.entry 1 1 = DifferenceScheme.partialQuotient ⟨true, 2⟩ squares.value #v[3, 4] 1 1
              (DifferenceScheme.groupLength ⟨true, 2⟩ (.greedy apart) #v[3, 4] 1)) :=
  ⟨rfl, apart_governs, rfl, two_ne_zero,
    coloredDifferences_eq_partial rfl apart_governs rfl two_ne_zero _ 1 1⟩

end Residual

end NewtonSolver
