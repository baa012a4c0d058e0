import CaosSeminars.Assembly.FibLoop
import CaosSeminars.Assembly.FibRec

/-!
# The two ways to compute a Fibonacci number

The iterative routine counts the sequence from `0, 1` and the recursive one from `0, 0, 1`:
its base cases are one place further on.  For the same argument `n` the first gives the
Fibonacci number of `n` and the second that of `n - 1`, and the two are neighbours in the
sequence.  Neighbours are equal at `1, 1`, and the wrap-around at `2 ^ 64` adds no further
place in reach of a 64-bit argument: their difference is the number before both, and the
first multiple of `2 ^ 64` among the Fibonacci numbers is at `3 * 2 ^ 62`.

* `ofNat_fib_succ_eq_iff` --- which neighbours are equal as 64-bit words.
* `fibs_agree_iff` --- for every argument that is not negative the two routines return the same
  **iff** it is `0` or `2`.  Both are shown to return, by `FibLoop.returns` and `FibRec.returns`.
-/

namespace CaosSeminars
namespace Assembly

open X86
open Nat (fib)

/-- Neighbours that are equal modulo `2 ^ 64`. -/
theorem ofNat_fib_succ_eq_iff {m : ℕ} (hm : m < 2 ^ 63) :
    BitVec.ofNat 64 (fib (m + 1)) = BitVec.ofNat 64 (fib m) ↔ m = 1 := by
  rw [← BitVec.toNat_inj, BitVec.toNat_ofNat, BitVec.toNat_ofNat]
  match m with
  | 0 => decide
  | 1 => decide
  | k + 2 =>
    refine iff_of_false (fun heq => ?_) (by omega)
    have hdvd : 2 ^ 64 ∣ fib (k + 1) := by
      have hmod : fib (k + 2) + 0 ≡ fib (k + 2) + fib (k + 1) [MOD 2 ^ 64] := by
        rw [Nat.add_zero, Nat.add_comm (fib (k + 2)), ← Nat.fib_add_two]
        exact heq.symm
      exact (Nat.modEq_zero_iff_dvd).mp (Nat.ModEq.add_left_cancel' _ hmod).symm
    have hfar := Nat.le_of_dvd (Nat.succ_pos k)
      ((two_pow_dvd_fib_iff (j := 62) (by decide) (k + 1)).mp hdvd)
    omega

/-- **When the two routines agree** on an argument that is not negative. -/
theorem fibs_agree_iff (n : BitVec 64) (hn : 0 ≤ n.toInt) (c : Call FibLoop.code)
    (c' : Call FibRec.code) (hc : c.state.regs .rdi = n) (hc' : c'.state.regs .rdi = n) :
    (∃ v, c.Returns v ∧ c'.Returns v) ↔ n = 0 ∨ n = 2 := by
  have hloop := FibLoop.returns c
  have hrec := FibRec.returns c'
  rw [hc] at hloop
  rw [hc'] at hrec
  have hiff : (∃ v, c.Returns v ∧ c'.Returns v) ↔
      BitVec.ofNat 64 (fib n.toInt.toNat) = BitVec.ofNat 64 (fib (n.toInt - 1).toNat) := by
    constructor
    · rintro ⟨v, hv, hv'⟩
      exact (hloop.unique hv).trans (hv'.unique hrec)
    · intro heq
      exact ⟨_, hloop, heq ▸ hrec⟩
  have hzero : n = 0 ↔ n.toInt = 0 := BitVec.toInt_inj.symm
  have htwo : n = 2 ↔ n.toInt = 2 := BitVec.toInt_inj.symm
  have hlt : n.toInt < 2 ^ 63 := BitVec.toInt_lt
  rw [hiff, hzero, htwo]
  rcases hn.eq_or_lt with hnone | hpos
  · rw [← hnone]
    decide
  · obtain ⟨m, hm⟩ : ∃ m : ℕ, n.toInt = m + 1 := ⟨(n.toInt - 1).toNat, by omega⟩
    have hnat : n.toInt.toNat = m + 1 := by omega
    have hpred : (n.toInt - 1).toNat = m := by omega
    rw [hnat, hpred, ofNat_fib_succ_eq_iff (by omega)]
    omega

theorem fibs_agree_iff_two :
    (∃ v, (Call.ofArgs FibLoop.code (by decide) 2 0 fun _ => 0).Returns v ∧
      (Call.ofArgs FibRec.code (by decide) 2 0 fun _ => 0).Returns v) ↔
      (2 : BitVec 64) = 0 ∨ (2 : BitVec 64) = 2 :=
  fibs_agree_iff 2 (by decide) _ _ rfl rfl

/-- The argument of the recursive routine's own test program: `13` and `8`. -/
theorem fibs_differ_seven :
    ∃ (c : Call FibLoop.code) (c' : Call FibRec.code), c.state.regs .rdi = 7 ∧
      c'.state.regs .rdi = 7 ∧ c.Returns 13 ∧ c'.Returns 8 ∧
        ¬ ∃ v, c.Returns v ∧ c'.Returns v := by
  have hloop := FibLoop.returns (Call.ofArgs FibLoop.code (by decide) 7 0 fun _ => 0)
  have hrec := FibRec.returns (Call.ofArgs FibRec.code (by decide) 7 0 fun _ => 0)
  refine ⟨_, _, rfl, rfl, hloop, hrec, ?_⟩
  rintro ⟨v, hv, hv'⟩
  have heq := (hloop.unique hv).trans (hv'.unique hrec)
  revert heq
  decide

end Assembly
end CaosSeminars
