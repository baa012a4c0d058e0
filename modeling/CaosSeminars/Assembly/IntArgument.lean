import CaosSeminars.Assembly.FibLoop
import CaosSeminars.Assembly.FibRec
import CaosSeminars.Assembly.MySum
import CaosSeminars.Assembly.SumN

/-!
# An `int` in a 64-bit register

The C prototypes of four routines declare their argument as `int`, and a caller that goes by
them fills the lower half of the argument register and leaves anything in the upper half.
`my_sum` reads the lower half.  The two Fibonacci routines and `sum` compare and count in the
whole register, so that two calls with the same `int` can be calls with two different
numbers; whether they still return the same `int` depends on the numbers
(`Routine.WidthsAgree`).

The numbers differ by a multiple of `2 ^ 32`.  For the Fibonacci routines the question is
then one about the sequence modulo `2 ^ 32`, whose period is `3 * 2 ^ 31`; for `sum` it is one
about the factors of a difference of two sums.

* `Routine.WidthsAgree` --- the condition on the two numbers, one for each routine.
* `fib_modEq_iff` --- which Fibonacci numbers agree modulo `2 ^ 32`, for arguments that do.
* `fibLoop_sameInt_iff`, `fibRec_sameInt_iff`, `mySum_sameInt`, `sum_sameInt_iff` --- the four
  routines.
* `sameInt_iff_widthsAgree` --- all of them in one statement: two calls that differ in the upper
  half of `rdi` alone return the same `int` **iff** the condition holds of their arguments.
-/

namespace CaosSeminars
namespace Assembly

open Nat (fib)

/-! ## The numbers -/

/-- The low halves of two registers are equal: the numbers differ by a multiple of `2 ^ 32`. -/
theorem dvd_toInt_sub_of_low_eq {x y : BitVec 64} (h : x.setWidth 32 = y.setWidth 32) :
    (2 : ℤ) ^ 32 ∣ x.toInt - y.toInt := by
  have hmod : x.toNat % 2 ^ 32 = y.toNat % 2 ^ 32 := by
    simpa [← BitVec.toNat_inj] using h
  rw [BitVec.toInt_eq_toNat_cond, BitVec.toInt_eq_toNat_cond]
  split <;> split <;> omega

theorem low_ofNat_eq_iff {a b : ℕ} :
    (BitVec.ofNat 64 a).setWidth 32 = (BitVec.ofNat 64 b).setWidth 32 ↔ a ≡ b [MOD 2 ^ 32] := by
  rw [BitVec.setWidth_ofNat_of_le (by decide), BitVec.setWidth_ofNat_of_le (by decide),
    ← BitVec.toNat_inj, BitVec.toNat_ofNat, BitVec.toNat_ofNat]
  rfl

/-- When the Fibonacci numbers of `a` and `b` agree modulo `2 ^ 32`, where a number below `1`
counts as `0`, for `a` and `b` that themselves agree. -/
def FibsAgree (a b : ℤ) : Prop :=
  a ≤ 0 ∧ b ≤ 0 ∨ 0 < a ∧ 0 < b ∧ 3 ∣ a - b ∨
    a ≤ 0 ∧ 0 < b ∧ 3 * 2 ^ 30 ∣ b ∨ 0 < a ∧ b ≤ 0 ∧ 3 * 2 ^ 30 ∣ a

instance (a b : ℤ) : Decidable (FibsAgree a b) :=
  inferInstanceAs (Decidable (_ ∨ _))

/-- A Fibonacci number that is `0` modulo `2 ^ 32`. -/
theorem zero_modEq_fib_iff {b : ℤ} (hb : 0 < b) :
    0 ≡ fib b.toNat [MOD 2 ^ 32] ↔ 3 * 2 ^ 30 ∣ b := by
  rw [Nat.ModEq.comm, Nat.modEq_zero_iff_dvd, two_pow_dvd_fib_iff (j := 30) (by decide)]
  omega

theorem toNat_modEq_three_iff {a b : ℤ} (ha : 0 < a) (hb : 0 < b) :
    a.toNat ≡ b.toNat [MOD 3] ↔ 3 ∣ a - b := by
  unfold Nat.ModEq
  omega

theorem fib_modEq_iff {a b : ℤ} (h : (2 : ℤ) ^ 32 ∣ a - b) :
    fib a.toNat ≡ fib b.toNat [MOD 2 ^ 32] ↔ FibsAgree a b := by
  unfold FibsAgree
  rcases lt_or_ge 0 a with ha | ha <;> rcases lt_or_ge 0 b with hb | hb
  · have hmod : a.toNat ≡ b.toNat [MOD 2 ^ 32] := by
      unfold Nat.ModEq
      omega
    rw [fib_modEq_two_pow_iff (by decide) hmod, toNat_modEq_three_iff ha hb]
    simp [ha, hb, ha.not_ge, hb.not_ge]
  · rw [Int.toNat_of_nonpos hb, Nat.ModEq.comm, Nat.fib_zero, zero_modEq_fib_iff ha]
    simp [ha, hb, ha.not_ge, hb.not_gt]
  · rw [Int.toNat_of_nonpos ha, Nat.fib_zero, zero_modEq_fib_iff hb]
    simp [ha, hb, ha.not_gt, hb.not_ge]
  · rw [Int.toNat_of_nonpos ha, Int.toNat_of_nonpos hb]
    exact iff_of_true rfl (.inl ⟨ha, hb⟩)

/-- When the sums up to `a` and `b` agree modulo `2 ^ 32`, where a number below `1` counts
as `1`. -/
def SumsAgree (a b : ℤ) : Prop :=
  2 ^ 33 ∣ max a 1 - max b 1 ∨ 2 ^ 33 ∣ max a 1 + max b 1 + 1

instance (a b : ℤ) : Decidable (SumsAgree a b) :=
  inferInstanceAs (Decidable (_ ∨ _))

/-! ## The routines -/

/-- The routines with a loop or a recursion whose C prototype has an `int`. -/
inductive Routine where
  | fibLoop
  | fibRec
  | mySum
  | sum

namespace Routine

/-- A call of the routine. -/
def Call : Routine → Type
  | fibLoop => X86.Call FibLoop.code
  | fibRec => X86.Call FibRec.code
  | mySum => X86.Call MySum.code
  | sum => AArch64.Call SumN.code

/-- The register of the `int`. -/
def arg : (R : Routine) → R.Call → BitVec 64
  | fibLoop => fun c => X86.State.regs c.state .rdi
  | fibRec => fun c => X86.State.regs c.state .rdi
  | mySum => fun c => X86.State.regs c.state .rdi
  | sum => fun c => AArch64.State.regs c.state 0

/-- The data memory and the other arguments are the same in two calls. -/
def SameElse : (R : Routine) → R.Call → R.Call → Prop
  | fibLoop => fun c c' => X86.State.mem c.state = X86.State.mem c'.state
  | fibRec => fun c c' => X86.State.mem c.state = X86.State.mem c'.state
  | mySum => fun c c' => X86.State.mem c.state = X86.State.mem c'.state ∧
      X86.State.regs c.state .rsi = X86.State.regs c'.state .rsi
  | sum => fun _ _ => True

/-- The call returns `v` in the result register. -/
def Returns : (R : Routine) → R.Call → BitVec 64 → Prop
  | fibLoop => X86.Call.Returns
  | fibRec => X86.Call.Returns
  | mySum => X86.Call.Returns
  | sum => AArch64.Call.Returns

theorem Returns.unique {R : Routine} {c : R.Call} {v v' : BitVec 64} (h : R.Returns c v)
    (h' : R.Returns c v') : v = v' := by
  cases R with
  | fibLoop => exact X86.Call.Returns.unique h h'
  | fibRec => exact X86.Call.Returns.unique h h'
  | mySum => exact X86.Call.Returns.unique h h'
  | sum => exact AArch64.Call.Returns.unique h h'

/-- Both calls return, and the C callers get the same `int`. -/
def SameInt (R : Routine) (c c' : R.Call) : Prop :=
  ∃ v v', R.Returns c v ∧ R.Returns c' v' ∧ v.setWidth 32 = v'.setWidth 32

theorem sameInt_iff {R : Routine} {c c' : R.Call} {v v' : BitVec 64} (h : R.Returns c v)
    (h' : R.Returns c' v') : R.SameInt c c' ↔ v.setWidth 32 = v'.setWidth 32 := by
  constructor
  · rintro ⟨u, u', hu, hu', heq⟩
    rw [h.unique hu, h'.unique hu', heq]
  · intro heq
    exact ⟨v, v', h, h', heq⟩

/-- **Where the upper half of the argument register makes no difference**: the two numbers in
the whole registers. -/
def WidthsAgree : Routine → ℤ → ℤ → Prop
  | fibLoop => FibsAgree
  | fibRec => fun a b => FibsAgree (a - 1) (b - 1)
  | mySum => fun _ _ => True
  | sum => SumsAgree

theorem fibLoop_sameInt_iff (c c' : X86.Call FibLoop.code)
    (hint : (arg .fibLoop c).setWidth 32 = (arg .fibLoop c').setWidth 32) :
    SameInt .fibLoop c c' ↔ FibsAgree (arg .fibLoop c).toInt (arg .fibLoop c').toInt := by
  have h := sameInt_iff (R := .fibLoop) (FibLoop.returns c) (FibLoop.returns c')
  rw [h, low_ofNat_eq_iff]
  exact fib_modEq_iff (dvd_toInt_sub_of_low_eq hint)

theorem fibRec_sameInt_iff (c c' : X86.Call FibRec.code)
    (hint : (arg .fibRec c).setWidth 32 = (arg .fibRec c').setWidth 32) :
    SameInt .fibRec c c' ↔
      FibsAgree ((arg .fibRec c).toInt - 1) ((arg .fibRec c').toInt - 1) := by
  have h := sameInt_iff (R := .fibRec) (FibRec.returns c) (FibRec.returns c')
  rw [h, low_ofNat_eq_iff]
  refine fib_modEq_iff ?_
  rw [sub_sub_sub_cancel_right]
  exact dvd_toInt_sub_of_low_eq hint

/-- Nothing but the lower half of `rdi`, `rsi` and the memory is in the result of `my_sum`. -/
theorem mySum_sameInt (c c' : X86.Call MySum.code)
    (hint : (arg .mySum c).setWidth 32 = (arg .mySum c').setWidth 32)
    (helse : SameElse .mySum c c') : SameInt .mySum c c' := by
  obtain ⟨hmem, hrsi⟩ := helse
  have hedi : MySum.edi c.state = MySum.edi c'.state := hint
  have helement : MySum.element c.state = MySum.element c'.state := by
    ext i : 1
    rw [MySum.element, MySum.element, hmem, hrsi]
  have h := sameInt_iff (R := .mySum) (MySum.returns c) (MySum.returns c')
  rw [h, hedi, helement]

theorem sum_sameInt_iff (c c' : AArch64.Call SumN.code) :
    SameInt .sum c c' ↔ SumsAgree (arg .sum c).toInt (arg .sum c').toInt := by
  have hcount (n : BitVec 64) : (SumN.count n : ℤ) = max n.toInt 1 := by
    unfold SumN.count
    omega
  have h := sameInt_iff (R := .sum) (SumN.returns c) (SumN.returns c')
  rw [h, low_ofNat_eq_iff, sum_range_modEq_iff, hcount, hcount]
  rfl

/-- **When two calls with one `int` return one `int`.** -/
theorem sameInt_iff_widthsAgree (R : Routine) (c c' : R.Call)
    (hint : (R.arg c).setWidth 32 = (R.arg c').setWidth 32) (helse : R.SameElse c c') :
    R.SameInt c c' ↔ R.WidthsAgree (R.arg c).toInt (R.arg c').toInt := by
  cases R with
  | fibLoop => exact fibLoop_sameInt_iff c c' hint
  | fibRec => exact fibRec_sameInt_iff c c' hint
  | mySum => exact iff_of_true (mySum_sameInt c c' hint helse) trivial
  | sum => exact sum_sameInt_iff c c'

/-- The argument `8` of the test program, with an upper half that is clear and one that is a
multiple of `3`. -/
theorem sameInt_iff_widthsAgree_eight :
    SameInt .fibLoop (X86.Call.ofArgs FibLoop.code (by decide) 8 0 fun _ => 0)
        (X86.Call.ofArgs FibLoop.code (by decide) 0x300000008 0 fun _ => 0) ↔
      WidthsAgree .fibLoop 8 0x300000008 :=
  sameInt_iff_widthsAgree .fibLoop _ _ (by decide) rfl

/-- The same argument with an upper half of ones: the register is negative, and the iterative
routine returns `0` in place of `21`. -/
theorem not_sameInt_eight :
    ∃ c c' : Call .fibLoop, (arg .fibLoop c).setWidth 32 = (8 : BitVec 32) ∧
      (arg .fibLoop c').setWidth 32 = (8 : BitVec 32) ∧ SameElse .fibLoop c c' ∧
        Returns .fibLoop c 21 ∧ Returns .fibLoop c' 0 ∧ ¬ SameInt .fibLoop c c' := by
  let c : Call .fibLoop := X86.Call.ofArgs FibLoop.code (by decide) 8 0 fun _ => 0
  let c' : Call .fibLoop :=
    X86.Call.ofArgs FibLoop.code (by decide) 0xFFFFFFFF00000008 0 fun _ => 0
  have h : Returns .fibLoop c 21 := FibLoop.returns c
  have h' : Returns .fibLoop c' 0 := FibLoop.returns c'
  refine ⟨c, c', by decide, by decide, rfl, h, h', fun hsame => ?_⟩
  exact absurd ((sameInt_iff h h').mp hsame) (by decide)

/-- **Every routine but `my_sum`** has an `int` for which the upper half matters: the `3` and
the `3` in a register that is negative. -/
theorem exists_not_sameInt (R : Routine) (hR : R ≠ .mySum) :
    ∃ c c' : R.Call, (R.arg c).setWidth 32 = (R.arg c').setWidth 32 ∧ R.SameElse c c' ∧
      ¬ R.SameInt c c' := by
  cases R with
  | fibLoop =>
    refine ⟨X86.Call.ofArgs FibLoop.code (by decide) 3 0 fun _ => 0,
      X86.Call.ofArgs FibLoop.code (by decide) 0xFFFFFFFF00000003 0 fun _ => 0,
      by decide, rfl, ?_⟩
    rw [fibLoop_sameInt_iff _ _ (by decide)]
    decide
  | fibRec =>
    refine ⟨X86.Call.ofArgs FibRec.code (by decide) 3 0 fun _ => 0,
      X86.Call.ofArgs FibRec.code (by decide) 0xFFFFFFFF00000003 0 fun _ => 0,
      by decide, rfl, ?_⟩
    rw [fibRec_sameInt_iff _ _ (by decide)]
    decide
  | mySum => exact absurd rfl hR
  | sum =>
    refine ⟨AArch64.Call.ofArg SumN.code (by decide) 3,
      AArch64.Call.ofArg SumN.code (by decide) 0xFFFFFFFF00000003, by decide, trivial, ?_⟩
    rw [sum_sameInt_iff]
    decide

end Routine
end Assembly
end CaosSeminars
