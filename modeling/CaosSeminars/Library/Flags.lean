import Mathlib.Data.BitVec
import Mathlib.Tactic.Common
import Mathlib.Tactic.IntervalCases

/-!
# The flags of a comparison

A comparing instruction subtracts and throws the difference away; what is left of it is
whether it was zero, its sign bit, and whether the signed difference overflowed.  A
conditional jump afterwards reads one of the combinations `Flags.eq`, `Flags.lt`,
`Flags.le`, and reads the order of the two operands as signed numbers from it
(`Flags.lt_sub`, `Flags.le_sub`), overflow or not.

* `lt_sub` --- the sign and the overflow of a difference tell which operand is less; `le_sub`
  adds the zero flag.
* `toInt_sub_one` --- counting down from a positive number does not overflow, so that a loop which
  counts down has its number as a measure.
-/

namespace CaosSeminars

/-- The three flags a signed conditional jump can read. -/
structure Flags where
  zero : Bool
  sign : Bool
  overflow : Bool
  deriving DecidableEq

namespace Flags

variable {w : ℕ}

/-- The flags of a sum. -/
def add (a b : BitVec w) : Flags := ⟨a + b == 0, (a + b).msb, a.saddOverflow b⟩

/-- The flags of a difference, and of a comparison. -/
def sub (a b : BitVec w) : Flags := ⟨a - b == 0, (a - b).msb, a.ssubOverflow b⟩

/-- Equal. -/
def eq (f : Flags) : Bool := f.zero

/-- Less, signed: the sign of the difference is wrong exactly when it overflowed. -/
def lt (f : Flags) : Bool := f.sign != f.overflow

/-- Less or equal, signed. -/
def le (f : Flags) : Bool := f.zero || f.sign != f.overflow

theorem eq_sub (a b : BitVec w) : (sub a b).eq = true ↔ a = b := by
  rw [eq, sub, beq_iff_eq]
  exact sub_eq_zero

/-- **The order read from the sign and the overflow.** -/
theorem lt_sub (a b : BitVec w) : (sub a b).lt = true ↔ a.toInt < b.toInt := by
  rcases Nat.eq_zero_or_pos w with rfl | hw
  · rw [BitVec.eq_nil a, BitVec.eq_nil b]
    decide
  obtain ⟨v, rfl⟩ : ∃ v, w = v + 1 := ⟨w - 1, by omega⟩
  have hpow : ((2 ^ (v + 1) : ℕ) : ℤ) = 2 * 2 ^ v := by
    rw [Nat.pow_succ', Nat.cast_mul, Nat.cast_pow, Nat.cast_ofNat]
  have ha : a.toInt < 2 ^ v := BitVec.toInt_lt
  have ha' : -2 ^ v ≤ a.toInt := BitVec.le_toInt a
  have hb : b.toInt < 2 ^ v := BitVec.toInt_lt
  have hb' : -2 ^ v ≤ b.toInt := BitVec.le_toInt b
  rw [lt, sub, bne_iff_ne, ne_eq, Bool.eq_iff_iff]
  simp only [BitVec.msb_eq_toInt, BitVec.ssubOverflow, BitVec.toInt_sub, Nat.add_sub_cancel,
    Bool.or_eq_true, decide_eq_true_eq]
  -- the difference fits, is too large, or is too small
  rcases lt_or_ge (a.toInt - b.toInt) (2 ^ v) with hfits | hlarge
  · rcases lt_or_ge (a.toInt - b.toInt) (-2 ^ v) with hsmall | hfits'
    · rw [← Int.add_bmod_right, Int.bmod_eq_of_le_mul_two (by omega) (by omega)]
      omega
    · rw [Int.bmod_eq_of_le_mul_two (by omega) (by omega)]
      omega
  · rw [← Int.sub_bmod_right, Int.bmod_eq_of_le_mul_two (by omega) (by omega)]
    omega

theorem le_sub (a b : BitVec w) : (sub a b).le = true ↔ a.toInt ≤ b.toInt := by
  have heq : (sub a b).zero = true ↔ a.toInt = b.toInt := by
    rw [BitVec.toInt_inj]
    exact eq_sub a b
  have hlt := lt_sub a b
  rw [lt] at hlt
  rw [le, Bool.or_eq_true, heq, hlt, le_iff_eq_or_lt]

end Flags

theorem toInt_sub_one {w : ℕ} {x : BitVec w} (h : 0 < x.toInt) :
    (x - 1#w).toInt = x.toInt - 1 := by
  have hlt := BitVec.two_mul_toInt_lt (x := x)
  have hw : 1 < w := by
    by_contra hw
    interval_cases w <;> omega
  have hone : (1#w).toInt = 1 := BitVec.toInt_one hw
  rw [BitVec.toInt_sub, hone, Int.bmod_eq_of_le_mul_two]
  · have := Nat.two_pow_pos w
    omega
  · push_cast
    omega

theorem toInt_ofNat_of_lt {w k : ℕ} (h : 2 * k < 2 ^ w) : (BitVec.ofNat w k).toInt = k := by
  rw [BitVec.toInt_ofNat', Int.bmod_eq_of_le_mul_two (by omega) (by omega)]

end CaosSeminars
