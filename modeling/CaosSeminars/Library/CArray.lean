import Mathlib.Data.List.Basic
import Mathlib.Algebra.Order.Group.Nat

/-!
# Arrays of fixed length

`CArray α n` is a C array of `n` elements: a list that carries the proof of its
length, so that no operation can change it.  `store off xs` writes the block
`xs` at `off`, and `slice lo hi` reads the elements from `lo` up to `hi`.

A store that would reach past the end keeps the length and loses what does not
fit; code is shown to stay inside by `Span.Inside`, a statement about the offset
and the count it passes on, not by what a store does.

The lemmas are those a buffer with a read and a write cursor needs: a store at
the write cursor extends the slice (`slice_store`), and moving the read cursor
splits it (`slice_append_slice`, `take_slice`).

* `toList_store` --- what a store that fits leaves: the elements around it are not touched.
* `slice_store_of_le`, `slice_store_self` --- a slice in front of a store, and the slice stored.
* `store_store` --- two stores, the second behind the first, are one.
-/

namespace CaosSeminars

/-- An array of `n` elements. -/
structure CArray (α : Type*) (n : ℕ) where
  toList : List α
  length_eq : toList.length = n
  deriving DecidableEq

namespace CArray

variable {α : Type*} {n : ℕ}

/-- All elements equal, as after `calloc`. -/
def replicate (n : ℕ) (a : α) : CArray α n := ⟨List.replicate n a, List.length_replicate⟩

/-- Writes the block `xs` at `off`. -/
def store (b : CArray α n) (off : ℕ) (xs : List α) : CArray α n where
  toList := (b.toList.take off ++ xs ++ b.toList.drop (off + xs.length)).take n
  length_eq := by
    have hlen := b.length_eq
    simp only [List.length_take, List.length_append, List.length_drop]
    omega

/-- The elements from `lo` up to `hi`. -/
def slice (b : CArray α n) (lo hi : ℕ) : List α := (b.toList.drop lo).take (hi - lo)

@[ext] theorem ext {b c : CArray α n} (h : b.toList = c.toList) : b = c := by
  cases b
  cases c
  cases h
  rfl

variable (b : CArray α n) {lo mid hi off : ℕ} {xs : List α}

@[simp] theorem slice_self : b.slice lo lo = [] := by
  rw [slice, Nat.sub_self, List.take_zero]

theorem length_slice (h : hi ≤ n) : (b.slice lo hi).length = hi - lo := by
  have hlen := b.length_eq
  rw [slice, List.length_take, List.length_drop]
  omega

theorem slice_ne_nil (h : lo < hi) (hhi : hi ≤ n) : b.slice lo hi ≠ [] := by
  rw [← List.length_pos_iff, b.length_slice hhi]
  omega

/-- A slice is cut in two at any place inside it. -/
theorem slice_append_slice (h₁ : lo ≤ mid) (h₂ : mid ≤ hi) :
    b.slice lo mid ++ b.slice mid hi = b.slice lo hi := by
  have hmid : b.toList.drop mid = (b.toList.drop lo).drop (mid - lo) := by
    rw [List.drop_drop, Nat.add_sub_cancel' h₁]
  have hsum : hi - lo = (mid - lo) + (hi - mid) := by omega
  rw [slice, slice, slice, hmid, hsum, List.take_add]

theorem take_slice {k : ℕ} (h : lo + k ≤ hi) : (b.slice lo hi).take k = b.slice lo (lo + k) := by
  rw [slice, slice, List.take_take, Nat.add_sub_cancel_left, min_eq_left (by omega)]

theorem take_drop_slice {i k : ℕ} (h : lo + i + k ≤ hi) :
    ((b.slice lo hi).drop i).take k = b.slice (lo + i) (lo + i + k) := by
  rw [slice, slice, List.drop_take, List.take_take, List.drop_drop, Nat.add_sub_cancel_left,
    min_eq_left (by omega)]

/-- What a store that fits leaves: the elements around it are not touched. -/
theorem toList_store (hfit : off + xs.length ≤ n) :
    (b.store off xs).toList = b.toList.take off ++ xs ++ b.toList.drop (off + xs.length) := by
  have hlen := b.length_eq
  refine List.take_of_length_le ?_
  simp only [List.length_append, List.length_take, List.length_drop]
  omega

theorem store_nil (off : ℕ) : b.store off [] = b := by
  ext1
  show (b.toList.take off ++ [] ++ b.toList.drop off).take n = b.toList
  rw [List.append_nil, List.take_append_drop]
  exact List.take_of_length_le b.length_eq.le

theorem getElem?_store_zero (hfit : xs.length ≤ n) (i : ℕ) :
    (b.store 0 xs).toList[i]? = xs[i]?.or b.toList[i]? := by
  rw [toList_store b (by omega), List.take_zero, List.nil_append, Nat.zero_add]
  by_cases hi : i < xs.length
  · rw [List.getElem?_append_left hi, List.getElem?_eq_getElem hi]
    rfl
  · rw [List.getElem?_append_right (by omega), List.getElem?_eq_none (by omega : xs.length ≤ i),
      List.getElem?_drop, Nat.add_sub_cancel' (by omega)]
    rfl

theorem slice_store_of_le (h : hi ≤ off) (hfit : off + xs.length ≤ n) :
    (b.store off xs).slice lo hi = b.slice lo hi := by
  have hlen := b.length_eq
  have htake : ((b.store off xs).toList).take hi = b.toList.take hi := by
    rw [b.toList_store hfit, List.append_assoc,
      List.take_append_of_le_length (by rw [List.length_take]; omega), List.take_take,
      min_eq_left h]
  rw [slice, slice, ← List.drop_take, ← List.drop_take, htake]

theorem slice_store_self (hfit : off + xs.length ≤ n) :
    (b.store off xs).slice off (off + xs.length) = xs := by
  have hlen := b.length_eq
  have htake : (b.toList.take off).length = off := by
    rw [List.length_take]
    omega
  rw [slice, b.toList_store hfit, List.append_assoc, List.drop_left' htake,
    Nat.add_sub_cancel_left, List.take_left]

/-- **A store at the write cursor extends the slice that ends there.** -/
theorem slice_store (h : lo ≤ off) (hfit : off + xs.length ≤ n) :
    (b.store off xs).slice lo (off + xs.length) = b.slice lo off ++ xs := by
  rw [← slice_append_slice _ h (Nat.le_add_right off _), slice_store_of_le b le_rfl hfit,
    slice_store_self b hfit]

theorem store_store {ys : List α} (hfit : off + xs.length + ys.length ≤ n) :
    (b.store off xs).store (off + xs.length) ys = b.store off (xs ++ ys) := by
  have hlen := b.length_eq
  have hxs : (b.toList.take off ++ xs).length = off + xs.length := by
    rw [List.length_append, List.length_take]
    omega
  ext1
  rw [toList_store _ hfit, toList_store b (by omega),
    toList_store b (by rw [List.length_append]; omega), List.take_left' hxs, List.drop_append, hxs,
    List.drop_of_length_le (by omega), List.nil_append, List.drop_drop, List.length_append]
  simp only [List.append_assoc]
  congr 4
  omega

end CArray

/-- An offset and a count passed to a system call or to `memcpy`. -/
structure Span where
  off : ℤ
  count : ℤ
  deriving DecidableEq

/-- The span lies inside an array of `n` elements. -/
def Span.Inside (s : Span) (n : ℕ) : Prop := 0 ≤ s.off ∧ 0 ≤ s.count ∧ s.off + s.count ≤ n

end CaosSeminars
