import Mathlib.Data.FinEnum
import Mathlib.Data.Fintype.Vector
import Mathlib.Tactic.Common

/-!
# The one-time pad

In the notebook of the seminar on cryptography Alice and Bob share a list of random bytes, and
encrypt and decrypt with one and the same function, which stops at the end of the shorter of its
arguments.  Bob gets Alice's text back if the pad is long enough for it (`recoveredPlainText_eq`).

Whoever sees the ciphertext learns the length of the text from it, and nothing else.  If two texts
are of one length, their exclusive or turns the pads that explain the ciphertext by the one into
the pads that explain it by the other (`shift`); what is left over of a pad stays as it is.

* `xor_xor_cancel` --- exclusive or with the same list twice, where the list is long enough.
* `shift` --- the exclusive or of two texts moves the pads of the one to those of the other; it is
  its own inverse (`shiftList_shiftList`) and keeps the ciphertext (`cipherText_shift`).
* `pad_keeps_secret` --- both halves: the text comes back, and for two texts of one length and a pad
  that is long enough, every ciphertext is explained by as many pads with the one text as with
  the other.
-/

namespace CaosSeminars
namespace Crypto

/-- `xor` of the notebook: `zip` stops with the shorter list. -/
def xor (x y : List UInt8) : List UInt8 := (x.zip y).map fun (a, b) => a ^^^ b

/-- `cipher_text` -/
def cipherText (plainText commonSecret : List UInt8) : List UInt8 := xor plainText commonSecret

/-- `recovered_plain_text` -/
def recoveredPlainText (plainText commonSecret : List UInt8) : List UInt8 :=
  xor (cipherText plainText commonSecret) commonSecret

/-! ## Exclusive or -/

@[simp] theorem xor_nil_left (y : List UInt8) : xor [] y = [] := rfl

@[simp] theorem xor_nil_right (x : List UInt8) : xor x [] = [] := by
  rw [xor, List.zip_nil_right, List.map_nil]

@[simp] theorem xor_cons (a b : UInt8) (x y : List UInt8) :
    xor (a :: x) (b :: y) = (a ^^^ b) :: xor x y := rfl

@[simp] theorem length_xor (x y : List UInt8) : (xor x y).length = min x.length y.length := by
  rw [xor, List.length_map, List.length_zip]

/-- Nothing is read behind the end of the first list. -/
theorem xor_append_of_le {x y : List UInt8} (h : x.length ≤ y.length) (z : List UInt8) :
    xor x (y ++ z) = xor x y := by
  induction x generalizing y with
  | nil => rfl
  | cons a x ih =>
    cases y with
    | nil => exact absurd h (Nat.not_succ_le_zero _)
    | cons b y => rw [List.cons_append, xor_cons, xor_cons, ih (Nat.le_of_succ_le_succ h)]

theorem xor_assoc (x y z : List UInt8) : xor (xor x y) z = xor x (xor y z) := by
  induction x generalizing y z with
  | nil => rfl
  | cons a x ih =>
    cases y with
    | nil => rfl
    | cons b y =>
      cases z with
      | nil => rfl
      | cons c z => rw [xor_cons, xor_cons, xor_cons, xor_cons, ih, UInt8.xor_assoc]

theorem xor_comm (x y : List UInt8) : xor x y = xor y x := by
  induction x generalizing y with
  | nil => rw [xor_nil_left, xor_nil_right]
  | cons a x ih =>
    cases y with
    | nil => rfl
    | cons b y => rw [xor_cons, xor_cons, ih, UInt8.xor_comm]

/-- The same list twice leaves the bytes it reaches as they were. -/
theorem xor_xor (x y : List UInt8) : xor (xor x y) y = x.take y.length := by
  induction x generalizing y with
  | nil => rw [xor_nil_left, xor_nil_left, List.take_nil]
  | cons a x ih =>
    cases y with
    | nil => rfl
    | cons b y =>
      rw [xor_cons, xor_cons, ih, UInt8.xor_assoc, UInt8.xor_self, UInt8.xor_zero,
        List.length_cons, List.take_succ_cons]

theorem xor_xor_cancel {x y : List UInt8} (h : x.length ≤ y.length) : xor (xor x y) y = x := by
  rw [xor_xor, List.take_of_length_le h]

/-! ## The pads that explain a ciphertext -/

variable {n : ℕ} {d p p' c : List UInt8}

/-- The pads with `n` bytes with which the text `p` becomes `c`. -/
def pads (n : ℕ) (p c : List UInt8) : Finset (List.Vector UInt8 n) :=
  Finset.univ.filter fun k => cipherText p k.toList = c

/-- A pad with `d` added to its beginning. -/
def shiftList (d k : List UInt8) : List UInt8 := xor d k ++ k.drop d.length

theorem length_shiftList {k : List UInt8} (h : d.length ≤ k.length) :
    (shiftList d k).length = k.length := by
  rw [shiftList, List.length_append, length_xor, List.length_drop]
  omega

theorem shiftList_shiftList {k : List UInt8} (h : d.length ≤ k.length) :
    shiftList d (shiftList d k) = k := by
  have hlen : (xor d k).length = d.length := by
    rw [length_xor]
    omega
  have hxor : xor d (xor d k) = k.take d.length := by
    rw [xor_comm d (xor d k), xor_comm d k, xor_xor]
  rw [shiftList, shiftList, xor_append_of_le hlen.ge, List.drop_append_of_le_length hlen.ge,
    List.drop_of_length_le hlen.le, List.nil_append, hxor, List.take_append_drop]

/-- Adding `d` is a permutation of the pads. -/
def shift (d : List UInt8) (h : d.length ≤ n) : List.Vector UInt8 n ≃ List.Vector UInt8 n where
  toFun k := ⟨shiftList d k.toList, by rw [length_shiftList] <;> simp [h]⟩
  invFun k := ⟨shiftList d k.toList, by rw [length_shiftList] <;> simp [h]⟩
  left_inv k := List.Vector.toList_injective (shiftList_shiftList (by simpa using h))
  right_inv k := List.Vector.toList_injective (shiftList_shiftList (by simpa using h))

/-- **One text in place of the other**: the pad shifted by their difference makes the same
ciphertext. -/
theorem cipherText_shift (hlen : p.length = p'.length) (hn : p.length ≤ n)
    (k : List.Vector UInt8 n) (h : (xor p p').length ≤ n) :
    cipherText p' (shift (xor p p') h k).toList = cipherText p k.toList := by
  have hk : k.toList.length = n := k.toList_length
  have hd : p'.length ≤ (xor (xor p p') k.toList).length := by
    rw [length_xor, length_xor]
    omega
  show xor p' (xor (xor p p') k.toList ++ _) = xor p k.toList
  rw [xor_append_of_le hd, ← xor_assoc, xor_comm p' (xor p p'), xor_xor_cancel hlen.le]

theorem recoveredPlainText_eq {k : List UInt8} (hk : p.length ≤ k.length) :
    recoveredPlainText p k = p :=
  xor_xor_cancel hk

/-- **The one-time pad.**  Adding the pad twice gives the text back, and for every ciphertext there
are as many pads that explain it by the one text as by another of the same length. -/
theorem pad_keeps_secret (k p p' : List UInt8) (hlen : p.length = p'.length)
    (hk : p.length ≤ k.length) :
    xor (xor p k) k = p ∧
      ∀ c, (pads k.length p c).card = (pads k.length p' c).card := by
  refine ⟨xor_xor_cancel hk, fun c => ?_⟩
  have hd : (xor p p').length ≤ k.length := by
    rw [length_xor]
    omega
  refine Finset.card_equiv (shift (xor p p') hd) fun l => ?_
  rw [pads, pads, Finset.mem_filter_univ, Finset.mem_filter_univ, cipherText_shift hlen hk]

/-- `spy` and `man`, with a pad of four bytes. -/
theorem pad_keeps_secret_spy :
    xor (xor [115, 112, 121] [175, 139, 102, 248]) [175, 139, 102, 248] = [115, 112, 121] ∧
      ∀ c, (pads 4 [115, 112, 121] c).card = (pads 4 [109, 97, 110] c).card :=
  pad_keeps_secret [175, 139, 102, 248] [115, 112, 121] [109, 97, 110] (by decide) (by decide)

end Crypto
end CaosSeminars
