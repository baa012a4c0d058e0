import Mathlib.Algebra.BigOperators.Intervals
import Mathlib.Data.Nat.Fib.Basic
import Mathlib.Data.Nat.ModEq
import Mathlib.Data.Nat.Prime.Basic
import Mathlib.RingTheory.Int.Basic
import Mathlib.Tactic.LinearCombination
import Mathlib.Tactic.Ring

/-!
# Fibonacci numbers and sums modulo powers of two

A register holds a Fibonacci number modulo a power of two, so that two different arguments
may well give one register.  Which ones do is settled here: modulo `2 ^ (j + 1)` the
Fibonacci numbers repeat after `3 * 2 ^ j` (`fib_add_period`), the multiples of
`2 ^ (j + 2)` among them are every `3 * 2 ^ j`-th (`two_pow_dvd_fib_iff`), and arguments
that already agree modulo `2 ^ k` give one value modulo `2 ^ k` exactly when they agree
modulo `3` (`fib_modEq_two_pow_iff`).

The same question for the sums `1 + 2 + ⋯ + n` ends the module (`sum_range_modEq_iff`).

* `fib_add_modEq` --- a shift that leaves the first two numbers alone leaves all of them alone.
* `fib_period` --- the two numbers at `3 * 2 ^ j`, by induction on `j` with the doubling rules.
* `two_pow_dvd_mul_iff` --- of an even and an odd factor only the even one counts, which is what the
  sums come to.
-/

namespace CaosSeminars

open Nat

/-! ## The period -/

/-- A shift by `p` changes nothing modulo `M` once it leaves the first two numbers alone. -/
theorem fib_add_modEq {M p : ℕ} (h₀ : fib p ≡ 0 [MOD M]) (h₁ : fib (p + 1) ≡ 1 [MOD M]) (n : ℕ) :
    fib (n + p) ≡ fib n [MOD M] := by
  induction n using Nat.twoStepInduction with
  | zero => simpa using h₀
  | one => simpa [Nat.add_comm] using h₁
  | more n ih₀ ih₁ =>
    have hshift : n + 2 + p = n + p + 2 := by omega
    have hnext : n + 1 + p = n + p + 1 := by omega
    rw [hshift, fib_add_two, fib_add_two, ← hnext]
    exact ih₀.add ih₁

/-- Modulo `2 ^ (j + 2)` and modulo `2 ^ (j + 1)`, the numbers at `3 * 2 ^ j`. -/
theorem fib_period {j : ℕ} (hj : 1 ≤ j) :
    2 ^ (j + 2) ∣ fib (3 * 2 ^ j) ∧ fib (3 * 2 ^ j + 1) ≡ 1 [MOD 2 ^ (j + 1)] := by
  induction j, hj using Nat.le_induction with
  | base => exact ⟨by decide, by decide⟩
  | succ j _ ih =>
    obtain ⟨⟨s, hs⟩, hone⟩ := ih
    have hdouble : 3 * 2 ^ (j + 1) = 2 * (3 * 2 ^ j) := by ring
    constructor
    · have heven : 2 ∣ 2 * fib (3 * 2 ^ j + 1) - fib (3 * 2 ^ j) :=
        Nat.dvd_sub (Dvd.intro _ rfl) ⟨2 ^ (j + 1) * s, by rw [hs]; ring⟩
      rw [hdouble, fib_two_mul, pow_succ]
      exact Nat.mul_dvd_mul ⟨s, hs⟩ heven
    · have hpos : 1 ≤ fib (3 * 2 ^ j + 1) := fib_pos.mpr (succ_pos _)
      obtain ⟨t, ht⟩ := (Nat.modEq_iff_dvd' hpos).mp hone.symm
      have hnext : fib (3 * 2 ^ j + 1) = 2 ^ (j + 1) * t + 1 := by omega
      have hsquares : fib (3 * 2 ^ (j + 1) + 1) =
          1 + 2 ^ (j + 1 + 1) * (2 ^ j * t ^ 2 + t + 2 ^ (j + 2) * s ^ 2) := by
        rw [hdouble, fib_two_mul_add_one, hnext, hs]
        ring
      rw [hsquares]
      exact Nat.ModEq.symm (Nat.modEq_iff_dvd' (Nat.le_add_right _ _) |>.mpr
        ⟨_, Nat.add_sub_cancel_left _ _⟩)

theorem fib_add_period {j : ℕ} (hj : 1 ≤ j) (n : ℕ) :
    fib (n + 3 * 2 ^ j) ≡ fib n [MOD 2 ^ (j + 1)] := by
  obtain ⟨hzero, hone⟩ := fib_period hj
  refine fib_add_modEq (Nat.modEq_zero_iff_dvd.mpr ?_) hone n
  exact (pow_dvd_pow 2 (by omega)).trans hzero

theorem fib_add_mul_period {j : ℕ} (hj : 1 ≤ j) (n q : ℕ) :
    fib (n + 3 * 2 ^ j * q) ≡ fib n [MOD 2 ^ (j + 1)] := by
  induction q with
  | zero => rfl
  | succ q ih =>
    rw [Nat.mul_succ, ← Nat.add_assoc]
    exact (fib_add_period hj _).trans ih

/-- Arguments congruent modulo the period. -/
theorem fib_modEq_of_modEq {j m n : ℕ} (hj : 1 ≤ j) (h : m ≡ n [MOD 3 * 2 ^ j]) :
    fib m ≡ fib n [MOD 2 ^ (j + 1)] := by
  wlog hle : m ≤ n generalizing m n
  · exact (this h.symm (Nat.le_of_not_le hle)).symm
  obtain ⟨q, hq⟩ := (Nat.modEq_iff_dvd' hle).mp h
  obtain rfl : n = m + 3 * 2 ^ j * q := by omega
  exact (fib_add_mul_period hj m q).symm

/-! ## Multiples of a power of two -/

theorem eight_dvd_fib_iff (m : ℕ) : 8 ∣ fib m ↔ 6 ∣ m := by
  have hmod : fib m ≡ fib (m % 12) [MOD 8] :=
    fib_modEq_of_modEq (j := 2) (by decide) (Nat.mod_modEq m 12).symm
  have htable : ∀ r < 12, 8 ∣ fib r ↔ 6 ∣ r := by decide
  rw [Nat.ModEq.dvd_iff hmod (dvd_refl 8), htable _ (Nat.mod_lt _ (by decide))]
  omega

theorem sixteen_dvd_fib_iff (m : ℕ) : 16 ∣ fib m ↔ 12 ∣ m := by
  have hmod : fib m ≡ fib (m % 24) [MOD 16] :=
    fib_modEq_of_modEq (j := 3) (by decide) (Nat.mod_modEq m 24).symm
  have htable : ∀ r < 24, 16 ∣ fib r ↔ 12 ∣ r := by decide
  rw [Nat.ModEq.dvd_iff hmod (dvd_refl 16), htable _ (Nat.mod_lt _ (by decide))]
  omega

/-- Doubling an argument that is a multiple of `6` puts exactly one more factor `2` into the
number: the other factor of `fib (2 * n)` is twice an odd number. -/
theorem two_pow_dvd_fib_two_mul_iff {n : ℕ} (hn : 6 ∣ n) (k : ℕ) :
    2 ^ (k + 1) ∣ fib (2 * n) ↔ 2 ^ k ∣ fib n := by
  obtain ⟨s, hs⟩ := (eight_dvd_fib_iff n).mpr hn
  have hodd : Nat.Coprime 2 (fib (n + 1) - 4 * s) := by
    have hcop : Nat.Coprime 2 (fib (n + 1)) :=
      (fib_coprime_fib_succ n).coprime_dvd_left ⟨4 * s, by rw [hs]; ring⟩
    have hle : 8 * s ≤ fib (n + 1) := hs ▸ fib_le_fib_succ
    rw [Nat.coprime_two_left] at hcop ⊢
    exact Nat.Odd.sub_even (by omega) hcop ⟨2 * s, by ring⟩
  have hfactor : fib (2 * n) = fib n * (fib (n + 1) - 4 * s) * 2 := by
    rw [fib_two_mul, Nat.mul_assoc]
    congr 1
    omega
  rw [hfactor, pow_succ, Nat.mul_dvd_mul_iff_right two_pos]
  exact (Nat.Coprime.pow_left k hodd).dvd_mul_right

/-- **Which Fibonacci numbers are multiples of a power of two.** -/
theorem two_pow_dvd_fib_iff {j : ℕ} (hj : 1 ≤ j) (m : ℕ) :
    2 ^ (j + 2) ∣ fib m ↔ 3 * 2 ^ j ∣ m := by
  induction j, hj using Nat.le_induction generalizing m with
  | base => exact eight_dvd_fib_iff m
  | succ j hj ih =>
    have hsplit : 3 * 2 ^ (j + 1) = 2 * (3 * 2 ^ j) := by ring
    -- either side makes `m` a multiple of `12`
    by_cases h12 : 12 ∣ m
    · obtain ⟨q, rfl⟩ := h12
      have htwice : 12 * q = 2 * (6 * q) := by ring
      rw [htwice, two_pow_dvd_fib_two_mul_iff (Dvd.intro _ rfl), ih, hsplit,
        Nat.mul_dvd_mul_iff_left two_pos]
    · refine iff_of_false (fun h => h12 ?_) (fun h => h12 ?_)
      · have h16 : 16 ∣ 2 ^ (j + 1 + 2) := pow_dvd_pow 2 (show 4 ≤ j + 1 + 2 by omega)
        exact (sixteen_dvd_fib_iff m).mp (h16.trans h)
      · have h4 : 4 ∣ 2 ^ (j + 1) := pow_dvd_pow 2 (show 2 ≤ j + 1 by omega)
        exact (Nat.mul_dvd_mul_left 3 h4).trans h

/-! ## Arguments that agree modulo a power of two -/

/-- Modulo `8` the numbers repeat after `12`, and four arguments apart they differ. -/
theorem modEq_three_of_fib_modEq {m n : ℕ} (hmod : m ≡ n [MOD 4]) (h : fib m ≡ fib n [MOD 8]) :
    m ≡ n [MOD 3] := by
  have hred (a : ℕ) : fib a ≡ fib (a % 12) [MOD 8] :=
    fib_modEq_of_modEq (j := 2) (by decide) (Nat.mod_modEq a 12).symm
  have htable : ∀ a < 12, ∀ b < 12, a % 4 = b % 4 → fib a % 8 = fib b % 8 → a % 3 = b % 3 := by
    decide
  have hfib : fib (m % 12) % 8 = fib (n % 12) % 8 := ((hred m).symm.trans h).trans (hred n)
  have hres := htable (m % 12) (Nat.mod_lt _ (by decide)) (n % 12) (Nat.mod_lt _ (by decide))
  unfold Nat.ModEq at hmod ⊢
  omega

/-- **Arguments that agree modulo `2 ^ k`** have Fibonacci numbers that do so exactly when
they agree modulo `3` as well. -/
theorem fib_modEq_two_pow_iff {k m n : ℕ} (hk : 3 ≤ k) (h : m ≡ n [MOD 2 ^ k]) :
    fib m ≡ fib n [MOD 2 ^ k] ↔ m ≡ n [MOD 3] := by
  obtain ⟨j, rfl⟩ : ∃ j, k = j + 1 := ⟨k - 1, by omega⟩
  have hdvd {a : ℕ} (ha : a ≤ j + 1) : 2 ^ a ∣ 2 ^ (j + 1) := pow_dvd_pow 2 ha
  constructor
  · intro hfib
    exact modEq_three_of_fib_modEq (h.of_dvd (hdvd (a := 2) (by omega)))
      (hfib.of_dvd (hdvd (a := 3) hk))
  · intro hthree
    have hcop : Nat.Coprime 3 (2 ^ j) := Nat.Coprime.pow_right j (by decide)
    have hboth : m ≡ n [MOD 3 * 2 ^ j] :=
      (Nat.modEq_and_modEq_iff_modEq_mul hcop).mp ⟨hthree, h.of_dvd (hdvd (by omega))⟩
    exact fib_modEq_of_modEq (by omega) hboth

/-! ## Sums -/

theorem two_mul_sum_range (n : ℕ) :
    2 * ((∑ i ∈ Finset.range (n + 1), i : ℕ) : ℤ) = n * (n + 1) := by
  have h := Finset.sum_range_id_mul_two (n + 1)
  rw [Nat.add_sub_cancel] at h
  zify at h
  push_cast
  linear_combination h

/-- A power of two divides a product of an even and an odd number only through the even one. -/
theorem two_pow_dvd_mul_iff {a b : ℤ} (h : Odd (a + b)) (k : ℕ) :
    2 ^ k ∣ a * b ↔ 2 ^ k ∣ a ∨ 2 ^ k ∣ b := by
  have hcop {c : ℤ} (hc : Odd c) : IsCoprime (2 ^ k) c :=
    IsCoprime.pow_left (Int.isCoprime_two_left.mpr hc)
  constructor
  · intro hdvd
    rcases Int.even_or_odd a with ha | ha
    · exact .inl ((hcop (Int.odd_add'.mp h |>.mpr ha)).dvd_of_dvd_mul_right hdvd)
    · exact .inr ((hcop ha).dvd_of_dvd_mul_left hdvd)
  · rintro (ha | hb)
    · exact ha.mul_right b
    · exact hb.mul_left a

/-- **Which sums agree** modulo `2 ^ k`. -/
theorem sum_range_modEq_iff (k m n : ℕ) :
    ∑ i ∈ Finset.range (m + 1), i ≡ ∑ i ∈ Finset.range (n + 1), i [MOD 2 ^ k] ↔
      (2 : ℤ) ^ (k + 1) ∣ m - n ∨ (2 : ℤ) ^ (k + 1) ∣ m + n + 1 := by
  have hodd : Odd ((m - n : ℤ) + (m + n + 1)) := ⟨m, by ring⟩
  rw [← two_pow_dvd_mul_iff hodd, Nat.ModEq.comm, Nat.modEq_iff_dvd, pow_succ' (2 : ℤ),
    ← mul_dvd_mul_iff_left (two_ne_zero : (2 : ℤ) ≠ 0), mul_sub, two_mul_sum_range,
    two_mul_sum_range]
  have hprod : (m : ℤ) * (m + 1) - n * (n + 1) = (m - n) * (m + n + 1) := by ring
  rw [hprod, Nat.cast_pow, Nat.cast_ofNat]

end CaosSeminars
