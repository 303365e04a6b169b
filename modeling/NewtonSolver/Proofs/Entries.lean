import Mathlib
import NewtonSolver.Mat

/-! Reading entries of vectors and matrices. -/
namespace NewtonSolver

variable {α β γ : Type} {m n : Nat}

namespace Vec

@[simp] theorem get_zipWith (f : α → β → γ) (u : Vec α n) (v : Vec β n) (i : Fin n) :
    (u.zipWith f v).get i = f (u.get i) (v.get i) := by
  simp [Vector.get_eq_getElem]

theorem ext_get {u v : Vec α n} (h : ∀ i, u.get i = v.get i) : u = v := by
  ext i hi
  exact h ⟨i, hi⟩

variable {R : Type} [Scalar R]

theorem toList_squares (v : Vec R n) :
    (v.zipWith (· * ·) v).toList = v.toList.map fun a => a * a := by
  refine List.ext_getElem (by simp) ?_
  intro i h₁ h₂
  simp

theorem sumSquares_eq_foldl (v : Vec R n) :
    v.sumSquares = (v.toList.map fun a => a * a).foldl (· + ·) 0 := by
  rw [sumSquares, dot, sum, ← Vector.foldl_toList, toList_squares]

end Vec

namespace Mat

@[simp] theorem entry_ofFn (f : Fin m → Fin n → α) (i : Fin m) (j : Fin n) :
    (ofFn f).entry i j = f i j := by
  simp [ofFn, entry]

@[simp] theorem entry_transpose (A : Mat α m n) (i : Fin n) (j : Fin m) :
    A.transpose.entry i j = A.entry j i := by
  simp [transpose]

@[simp] theorem entry_ofColumns (columns : Vector (Vec α m) n) (i : Fin m) (j : Fin n) :
    (ofColumns columns).entry i j = (columns.get j).get i := by
  simp [ofColumns]

theorem ext_entry {A B : Mat α m n} (h : ∀ i j, A.entry i j = B.entry i j) : A = B :=
  Vec.ext_get fun i => Vec.ext_get (h i)

@[simp] theorem transpose_transpose (A : Mat α m n) : A.transpose.transpose = A :=
  ext_entry fun i j => by rw [entry_transpose, entry_transpose]

end Mat

end NewtonSolver
