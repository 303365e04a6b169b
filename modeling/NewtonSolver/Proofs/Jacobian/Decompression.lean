import Mathlib
import NewtonSolver.Sparsity.Compression
import NewtonSolver.Proofs.Arithmetic.Linear
import NewtonSolver.Proofs.Sparsity.Compression

/-! Jacobians from colored products, whatever the pattern and the colors are. Exactly the valid colorings
bring back every Jacobian that has the pattern. -/
namespace NewtonSolver

variable {m n count : Nat} {P : Pattern m n} {J : Mat ℝ m n} {x : Vec ℝ n} {d : DenseBackend ℝ}
  {c : Compression m n}

/-- The residual is a vector function, and its products at the point are those with the matrix. -/
structure Residual.HasJacobianAt (F : Residual ℝ m n) (J : Mat ℝ m n) (x : Vec ℝ n) : Prop where
  vector : F.isBare = false
  forward : ∀ v, F.forward x v = J.mulVec v
  backward : ∀ u, F.backward x u = J.vecMul u

namespace Compression

/-- Columns are colored for forward products, and rows for transposed ones. -/
inductive Suits : Compression m n → DenseBackend ℝ → Prop
  | columns (c : Coloring n) (name : Setting ℝ) : Suits (.columns c) (.forward name)
  | rows (c : Coloring m) (name : Setting ℝ) : Suits (.rows c) (.reverse name)

theorem get_lt {k : Nat} {c : Coloring k} (h : ∀ color ∈ c.colors.toList, color < count)
    (j : Fin k) : c.colors.get j < count :=
  h _ (by simp [Vector.get_eq_getElem])

theorem lt_count (c : Compression m n) {color : Nat} (h : color ∈ c.colors) : color < c.count := by
  cases c with
  | columns c => exact c.lt_count_of_mem h
  | rows c => exact c.lt_count_of_mem h

theorem greedy_valid (mode : DerivativeMode) (P : Pattern m n) : (greedy mode P).Valid P := by
  cases mode
  · exact Coloring.greedy_valid P
  · exact Coloring.greedy_valid P.transpose
  · exact Coloring.greedy_valid P

theorem greedy_suits (hd : d.mode ≠ .finite) (P : Pattern m n) : (greedy d.mode P).Suits d := by
  cases d with
  | forward name => exact .columns _ name
  | reverse name => exact .rows _ name
  | finite scheme step => exact absurd rfl hd

end Compression

namespace Residual

variable {F : Residual ℝ m n}

/-- Every matrix is a Jacobian. -/
theorem affine_hasJacobianAt (J : Mat ℝ m n) (x : Vec ℝ n) : (affine J 0).HasJacobianAt J x :=
  ⟨rfl, fun _ => rfl, fun _ => rfl⟩

theorem HasJacobianAt.coloredJacobian_ok (hF : F.HasJacobianAt J x) (hd : c.Suits d)
    (hcount : ∀ color ∈ c.colors, color < count) :
    F.coloredJacobian d P c count x = .ok (c.gathered P J) := by
  cases hd with
  | columns c name =>
    have hp : F.forward x = J.mulVec := funext hF.forward
    simp only [coloredJacobian, requireVector_ok hF.vector, hp, Outcome.ok_bind]
    exact Compression.expandColumns_ok (Compression.get_lt hcount)
  | rows c name =>
    have hp : F.backward x = J.vecMul := funext hF.backward
    simp only [coloredJacobian, requireVector_ok hF.vector, hp, Outcome.ok_bind]
    exact Compression.expandRows_ok (Compression.get_lt hcount)

/-- The colored products give sums of entries of one color. They give every Jacobian that has the
pattern as it is if, and only if, no color meets a row or a column of the pattern twice. -/
theorem coloredJacobian_exact_iff (hd : c.Suits d) (hcount : ∀ color ∈ c.colors, color < count)
    (P : Pattern m n) (x : Vec ℝ n) :
    (∀ (F : Residual ℝ m n) J, F.HasJacobianAt J x →
      F.coloredJacobian d P c count x = .ok (c.gathered P J)) ∧
    ((∀ (F : Residual ℝ m n) J, F.HasJacobianAt J x → P.Covers J →
      F.coloredJacobian d P c count x = .ok J) ↔ c.Valid P) := by
  have hgathered (F : Residual ℝ m n) (J : Mat ℝ m n) (hF : F.HasJacobianAt J x) :
      F.coloredJacobian d P c count x = .ok (c.gathered P J) := hF.coloredJacobian_ok hd hcount
  refine ⟨hgathered, ?_⟩
  rw [← Compression.gathered_eq_iff]
  constructor
  · intro h J hJ
    have hF := affine_hasJacobianAt J x
    exact Except.ok.inj ((hgathered _ J hF).symm.trans (h _ J hF hJ))
  · intro h F J hF hJ
    rw [hgathered F J hF, h J hJ]

/-- Two columns of one color that meet a row, with a product to spare. -/
theorem clashing_exact_iff :
    (Compression.columns ⟨#v[1, 1]⟩ : Compression 1 2).Suits (.forward (.text "forward")) ∧
      (∀ color ∈ (Compression.columns ⟨#v[1, 1]⟩ : Compression 1 2).colors, color < 3) ∧
        (∀ (F : Residual ℝ 1 2) J, F.HasJacobianAt J 0 →
          F.coloredJacobian (.forward (.text "forward")) #v[#v[true, true]] (.columns ⟨#v[1, 1]⟩) 3 0 =
            .ok (Compression.gathered #v[#v[true, true]] (.columns ⟨#v[1, 1]⟩) J)) ∧
        ((∀ (F : Residual ℝ 1 2) J, F.HasJacobianAt J 0 →
          Pattern.Covers #v[#v[true, true]] J →
            F.coloredJacobian (.forward (.text "forward")) #v[#v[true, true]] (.columns ⟨#v[1, 1]⟩) 3 0 =
              .ok J) ↔
          (Compression.columns ⟨#v[1, 1]⟩).Valid (#v[#v[true, true]] : Pattern 1 2)) :=
  have hcount : ∀ color ∈ (Compression.columns ⟨#v[1, 1]⟩ : Compression 1 2).colors, color < 3 := by
    decide
  ⟨.columns _ _, hcount, coloredJacobian_exact_iff (.columns _ _) hcount _ _⟩

end Residual

end NewtonSolver
