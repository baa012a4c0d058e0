import CaosSeminars.Library.ForLoop
import Mathlib.Data.BitVec
import Mathlib.Data.Matrix.Mul

/-!
# The product of two matrices, with and without a transposed copy

`matmul/naive.cpp` has the three loops of the textbook, and a version that goes along the rows of
both factors: it first fills a local matrix with the transpose of the second one.  The two differ
in where the innermost loop reads the second factor, which is the parameter of `product`.

The functions get references, so that matrices are kept by location and two names may be one
matrix.  The cells of the local copy are not set at first, and to read one that is not set fails.

* `cell`, `row`, `product_eq` --- the three loops from the inside out, each by the rule for
  loops of `Library.ForLoop`.
* `transposed_eq` --- every cell of the copy is set, so that no read fails.
* `naive_fast_eq` --- for every dimension and all matrices, of which one may be both
  factors: both functions return and add the product to the result.
-/

namespace CaosSeminars
namespace Memory
namespace Matmul

variable {N : ℕ} {Loc : Type} [DecidableEq Loc]

/-- `matrix<N>`, with the arithmetic of `int` taken modulo `2 ^ 32` -/
abbrev IntMatrix (N : ℕ) : Type := Fin N → Fin N → BitVec 32

/-- The matrices there are. -/
abbrev Heap (Loc : Type) (N : ℕ) : Type := Loc → IntMatrix N

/-- The matrix with another value in one cell. -/
def setCell {α : Type} (m : Fin N → Fin N → α) (i j : Fin N) (v : α) : Fin N → Fin N → α :=
  fun i' j' => if i' = i ∧ j' = j then v else m i' j'

/-- The three loops, given how the second factor is read. -/
def product (right : Heap Loc N → Fin N → Fin N → Option (BitVec 32)) (m1 res : Loc) :
    Heap Loc N → Option (Heap Loc N) :=
  forLoop N fun i => forLoop N fun j => forLoop N fun k h => do
    let y ← right h k j
    some (Function.update h res (setCell (h res) i j (h res i j + h m1 i k * y)))

/-- `naive<N>` -/
def naive (m1 m2 res : Loc) : Heap Loc N → Option (Heap Loc N) :=
  product (fun h k j => some (h m2 k j)) m1 res

/-- The loops of `fast<N>` that fill the local matrix. -/
def transposed (m2 : Loc) (h : Heap Loc N) : Option (Fin N → Fin N → Option (BitVec 32)) :=
  forLoop N (fun i => forLoop N fun j m2T => some (setCell m2T i j (some (h m2 j i))))
    fun _ _ => none

/-- `fast<N>` -/
def fast (m1 m2 res : Loc) (h : Heap Loc N) : Option (Heap Loc N) := do
  let m2T ← transposed m2 h
  product (fun _ k j => m2T j k) m1 res h

/-! ## The three loops -/

/-- The product, as in linear algebra. -/
def times (A B : IntMatrix N) : IntMatrix N := fun i j => (Matrix.of A * Matrix.of B) i j

/-- What the innermost loop has added to a cell after `k` rounds. -/
def partialSum (A B : IntMatrix N) (i j : Fin N) (k : ℕ) : BitVec 32 :=
  ∑ l ∈ Finset.univ.filter fun l : Fin N => (l : ℕ) < k, A i l * B l j

theorem partialSum_zero (A B : IntMatrix N) (i j : Fin N) : partialSum A B i j 0 = 0 := by
  refine Finset.sum_eq_zero fun l hl => absurd ((Finset.mem_filter_univ l).mp hl) ?_
  exact Nat.not_lt_zero l

theorem partialSum_succ (A B : IntMatrix N) (i j k : Fin N) :
    partialSum A B i j (k + 1) = partialSum A B i j k + A i k * B k j := by
  have hinsert : (Finset.univ.filter fun l : Fin N => (l : ℕ) < k + 1) =
      insert k (Finset.univ.filter fun l : Fin N => (l : ℕ) < k) := by
    ext l
    rw [Finset.mem_insert, Finset.mem_filter_univ, Finset.mem_filter_univ, Fin.ext_iff]
    omega
  have hlast : k ∉ Finset.univ.filter fun l : Fin N => (l : ℕ) < k := by
    rw [Finset.mem_filter_univ]
    exact lt_irrefl _
  rw [partialSum, hinsert, Finset.sum_insert hlast, add_comm, partialSum]

theorem partialSum_all (A B : IntMatrix N) (i j : Fin N) :
    partialSum A B i j N = times A B i j := by
  rw [partialSum, Finset.filter_true_of_mem fun l _ => l.isLt, times, Matrix.mul_apply]
  rfl

/-- The heap once the product has been added to the cells in `p`. -/
def added (h : Heap Loc N) (res : Loc) (D : IntMatrix N) (p : Fin N → Fin N → Prop)
    [∀ i j, Decidable (p i j)] : Heap Loc N :=
  Function.update h res fun i j => if p i j then h res i j + D i j else h res i j

theorem added_congr {h : Heap Loc N} {res : Loc} {D : IntMatrix N} {p q : Fin N → Fin N → Prop}
    [∀ i j, Decidable (p i j)] [∀ i j, Decidable (q i j)] (hpq : ∀ i j, p i j ↔ q i j) :
    added h res D p = added h res D q := by
  unfold added
  congr 1
  funext i j
  exact if_congr (hpq i j) rfl rfl

variable {right : Heap Loc N → Fin N → Fin N → Option (BitVec 32)} {m1 m2 res : Loc}
  {h : Heap Loc N} {B : IntMatrix N}

theorem setCell_self {α : Type} {m : Fin N → Fin N → α} {i j : Fin N} {v : α} (h : m i j = v) :
    setCell m i j v = m := by
  funext i' j'
  rw [setCell]
  split_ifs with heq
  · rw [heq.1, heq.2, h]
  · rfl

theorem setCell_setCell {α : Type} (m : Fin N → Fin N → α) (i j : Fin N) (v w : α) :
    setCell (setCell m i j v) i j w = setCell m i j w := by
  funext i' j'
  simp only [setCell]
  split_ifs <;> rfl

theorem setCell_at {α : Type} (m : Fin N → Fin N → α) (i j : Fin N) (v : α) :
    setCell m i j v i j = v := if_pos ⟨rfl, rfl⟩

/-- **The innermost loop** adds the product to one more cell. -/
theorem cell (hm1 : m1 ≠ res)
    (hright : ∀ M k j, right (Function.update h res M) k j = some (B k j))
    {p : Fin N → Fin N → Prop} [∀ i j, Decidable (p i j)] {i j : Fin N} (hp : ¬p i j) :
    forLoop N (fun k t => do
        let y ← right t k j
        some (Function.update t res (setCell (t res) i j (t res i j + t m1 i k * y))))
      (added h res (times (h m1) B) p) =
    some (added h res (times (h m1) B) fun i' j' => p i' j' ∨ i' = i ∧ j' = j) := by
  let M : IntMatrix N := fun i' j' =>
    if p i' j' then h res i' j' + (times (h m1) B) i' j' else h res i' j'
  let state (k : ℕ) : Heap Loc N :=
    Function.update h res (setCell M i j (h res i j + partialSum (h m1) B i j k))
  have hM : M i j = h res i j := if_neg hp
  have hstart : state 0 = added h res (times (h m1) B) p := by
    show Function.update h res _ = Function.update h res M
    rw [partialSum_zero, add_zero, setCell_self hM]
  rw [forLoop_eq state hstart fun k => ?_]
  · show some (Function.update h res _) = some (Function.update h res _)
    rw [partialSum_all]
    congr 2
    funext i' j'
    by_cases hcell : i' = i ∧ j' = j
    · rw [setCell, if_pos hcell, if_pos (.inr hcell), hcell.1, hcell.2]
    · rw [setCell, if_neg hcell]
      exact if_congr (or_iff_left hcell).symm rfl rfl
  · have hread : right (state k) k j = some (B k j) := hright _ k j
    rw [hread]
    show some (Function.update (state k) res (setCell (state k res) i j _)) = some _
    have hres : state k res = setCell M i j (h res i j + partialSum (h m1) B i j k) :=
      Function.update_self res _ h
    have hleft : state k m1 = h m1 := Function.update_of_ne hm1 _ h
    rw [hres, hleft, setCell_at, setCell_setCell, add_assoc, ← partialSum_succ]
    show some (Function.update (Function.update h res _) res _) = _
    rw [Function.update_idem]

theorem row (hm1 : m1 ≠ res)
    (hright : ∀ M k j, right (Function.update h res M) k j = some (B k j)) (i : Fin N) :
    forLoop N (fun j => forLoop N fun k t => do
        let y ← right t k j
        some (Function.update t res (setCell (t res) i j (t res i j + t m1 i k * y))))
      (added h res (times (h m1) B) fun i' _ => i' < i) =
    some (added h res (times (h m1) B) fun i' _ => (i' : ℕ) < i + 1) := by
  let state (j : ℕ) : Heap Loc N :=
    added h res (times (h m1) B) fun i' j' => i' < i ∨ i' = i ∧ (j' : ℕ) < j
  have hstart : state 0 = added h res (times (h m1) B) fun i' _ => i' < i :=
    added_congr fun i' j' => by omega
  rw [forLoop_eq state hstart fun j => ?_]
  · refine congrArg some (added_congr fun i' j' => ?_)
    rw [Fin.lt_def, Fin.ext_iff]
    omega
  · refine (cell hm1 hright (by omega)).trans (congrArg some (added_congr fun i' j' => ?_))
    rw [Fin.ext_iff, Fin.ext_iff, Fin.lt_def]
    omega

/-- **The three loops** add the product to the matrix, cell after cell. -/
theorem product_eq (hm1 : m1 ≠ res)
    (hright : ∀ M k j, right (Function.update h res M) k j = some (B k j)) :
    product right m1 res h =
      some (Function.update h res fun i j => h res i j + times (h m1) B i j) := by
  let state (i : ℕ) : Heap Loc N := added h res (times (h m1) B) fun i' _ => (i' : ℕ) < i
  have hstart : state 0 = h := by
    show Function.update h res _ = h
    simp only [Nat.not_lt_zero, if_false]
    exact Function.update_eq_self res h
  unfold product
  rw [forLoop_eq state hstart fun i => row hm1 hright i]
  show some (Function.update h res _) = some (Function.update h res _)
  simp only [Fin.is_lt, if_true]

/-! ## The transposed copy -/

/-- The copy once the cells in `p` are set. -/
def copied (A : IntMatrix N) (p : Fin N → Fin N → Prop) [∀ i j, Decidable (p i j)] :
    Fin N → Fin N → Option (BitVec 32) := fun i j => if p i j then some (A j i) else none

theorem copied_congr {A : IntMatrix N} {p q : Fin N → Fin N → Prop} [∀ i j, Decidable (p i j)]
    [∀ i j, Decidable (q i j)] (hpq : ∀ i j, p i j ↔ q i j) : copied A p = copied A q := by
  funext i j
  exact if_congr (hpq i j) rfl rfl

theorem setCell_copied (A : IntMatrix N) (p : Fin N → Fin N → Prop) [∀ i j, Decidable (p i j)]
    (i j : Fin N) :
    setCell (copied A p) i j (some (A j i)) = copied A fun i' j' => p i' j' ∨ i' = i ∧ j' = j := by
  funext i' j'
  by_cases hcell : i' = i ∧ j' = j
  · rw [setCell, if_pos hcell, copied, if_pos (.inr hcell), hcell.1, hcell.2]
  · rw [setCell, if_neg hcell]
    exact if_congr (or_iff_left hcell).symm rfl rfl

theorem transposed_row (A : IntMatrix N) (i : Fin N) :
    forLoop N (fun j m2T => some (setCell m2T i j (some (A j i)))) (copied A fun i' _ => i' < i) =
      some (copied A fun i' _ => (i' : ℕ) < i + 1) := by
  let state (j : ℕ) : Fin N → Fin N → Option (BitVec 32) :=
    copied A fun i' j' => i' < i ∨ i' = i ∧ (j' : ℕ) < j
  have hstart : state 0 = copied A fun i' _ => i' < i := copied_congr fun i' j' => by omega
  rw [forLoop_eq state hstart fun j => ?_]
  · refine congrArg some (copied_congr fun i' j' => ?_)
    rw [Fin.lt_def, Fin.ext_iff]
    omega
  · refine congrArg some ((setCell_copied A _ i j).trans (copied_congr fun i' j' => ?_))
    rw [Fin.ext_iff, Fin.ext_iff, Fin.lt_def]
    omega

omit [DecidableEq Loc] in
theorem transposed_eq (m2 : Loc) (h : Heap Loc N) :
    transposed m2 h = some fun i j => some (h m2 j i) := by
  let state (i : ℕ) : Fin N → Fin N → Option (BitVec 32) := copied (h m2) fun i' _ => (i' : ℕ) < i
  have hstart : state 0 = fun _ _ => none := by
    funext i j
    exact if_neg (Nat.not_lt_zero i)
  unfold transposed
  rw [forLoop_eq state hstart fun i => transposed_row (h m2) i]
  refine congrArg some (funext fun i => funext fun j => ?_)
  exact if_pos i.isLt

/-! ## The two functions -/

/-- **Both functions add the product** of the first two matrices to the third, and change nothing
else. -/
theorem naive_fast_eq (m1 m2 res : Loc) (h : Heap Loc N) (hm1 : m1 ≠ res) (hm2 : m2 ≠ res) :
    ∃ h', naive m1 m2 res h = some h' ∧ fast m1 m2 res h = some h' ∧
      Matrix.of (h' res) = Matrix.of (h res) + Matrix.of (h m1) * Matrix.of (h m2) ∧
      ∀ l ≠ res, h' l = h l := by
  refine ⟨Function.update h res fun i j => h res i j + times (h m1) (h m2) i j, ?_, ?_, ?_, ?_⟩
  · refine product_eq hm1 fun M k j => ?_
    rw [Function.update_of_ne hm2]
  · rw [fast, transposed_eq]
    exact product_eq hm1 fun _ _ _ => rfl
  · rw [Function.update_self]
    rfl
  · intro l hl
    exact Function.update_of_ne hl _ h

/-- A matrix of two rows at `0`, and another one everywhere else. -/
def twoRows : Heap ℕ 2 := fun l i j => if l = 0 then BitVec.ofNat 32 (i + 2 * j) else 5

/-- One matrix is both factors. -/
theorem naive_fast_eq_twoRows :
    ∃ h', naive 0 0 1 twoRows = some h' ∧ fast 0 0 1 twoRows = some h' ∧
      Matrix.of (h' 1) = Matrix.of (twoRows 1) + Matrix.of (twoRows 0) * Matrix.of (twoRows 0) ∧
      ∀ l ≠ 1, h' l = twoRows l :=
  naive_fast_eq 0 0 1 twoRows (by decide) (by decide)

end Matmul
end Memory
end CaosSeminars
