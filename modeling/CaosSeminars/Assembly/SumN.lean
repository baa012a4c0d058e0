import CaosSeminars.Library.AArch64
import Mathlib.Algebra.BigOperators.Intervals
import Mathlib.Algebra.BigOperators.Ring.Finset

/-!
# The sum of the first numbers

`sum_n/sum_n.S` adds `1`, `2`, `3` and so on to `x0` until the number added is no longer
below the limit.  The test stands at the end of the loop, so that the `1` is added whatever
the limit is: a limit below `1` counts as `1`.

* `count` --- how many numbers are added, `1` at least.
* `body` --- the body of the loop, from the label to the comparison.
* `runs`, `returns` --- the routine returns the sum of the first `count` numbers modulo `2 ^ 64`.
* `returns_total_iff` --- that is the sum asked for (`total`) **iff** the limit is positive: over
  all values of an `int`, the negative ones included.
-/

namespace CaosSeminars
namespace Assembly

open AArch64

namespace SumN

inductive Label where
  | sum
  | loop
  deriving DecidableEq

/-- `sum_n/sum_n.S` -/
def code : List (Line Label (Instr Label)) :=
  [ .label .sum,
    .instr (.mov 1 (.reg 0)),
    .instr (.mov 2 (.imm 0)),
    .instr (.mov 0 (.imm 0)),
    .label .loop,
    .instr (.add 2 2 (.imm 1)),
    .instr (.add 0 0 (.reg 2)),
    .instr (.cmp 2 (.reg 1)),
    .instr (.blt .loop),
    .instr .ret ]

/-- How many numbers are added for the limit `n`. -/
def count (n : BitVec 64) : ℕ := (max n.toInt 1).toNat

theorem count_lt (n : BitVec 64) : count n < 2 ^ 63 := by
  have hlt : n.toInt < 2 ^ 63 := BitVec.toInt_lt
  unfold count
  omega

/-- What holds of a call entered in `s` once `i` numbers have been added. -/
structure Added (s : State) (i : ℕ) (t : State) : Prop where
  limit : t.regs 1 = s.regs 0
  x2 : t.regs 2 = BitVec.ofNat 64 i
  x0 : t.regs 0 = BitVec.ofNat 64 (∑ k ∈ Finset.range (i + 1), k)
  saved : ∀ r, 19 ≤ r → t.regs r = s.regs r

variable {s t : State} {i : ℕ} {P : State → Prop}

theorem Added.toNat_x2 (h : Added s i t) (hi : i ≤ count (s.regs 0)) : (t.regs 2).toNat = i := by
  have hbound := count_lt (s.regs 0)
  rw [h.x2, BitVec.toNat_ofNat, Nat.mod_eq_of_lt (by omega)]

theorem enter (hs : s.line = 0)
    (hnext : ∀ t, t.line = 4 → Added s 0 t → Eventually (step code) P t) :
    Eventually (step code) P s := by
  rw [← State.goto_of_line hs]
  refine eventually_label rfl (eventually_instr rfl (eventually_instr rfl ?_))
  refine eventually_instr rfl (hnext _ rfl ⟨?_, ?_, ?_, fun r hr => ?_⟩)
  · simp [exec, State.next]
  · simp [exec, State.next]
  · simp [exec, State.next]
  · have h₀ : r ≠ 0 := ne_of_saved hr (by decide)
    have h₁ : r ≠ 1 := ne_of_saved hr (by decide)
    have h₂ : r ≠ 2 := ne_of_saved hr (by decide)
    simp [exec, State.next, h₀, h₁, h₂]

/-- **The body** adds one more number and compares it with the limit. -/
theorem body (h : Added s i t) (hline : t.line = 4) (hmore : i < count (s.regs 0))
    (hnext : ∀ u, u.line = 8 → Added s (i + 1) u →
      (u.flags.lt = true ↔ i + 1 < count (s.regs 0)) → Eventually (step code) P u) :
    Eventually (step code) P t := by
  have hx2 : t.regs 2 + 1#64 = BitVec.ofNat 64 (i + 1) := by rw [h.x2, BitVec.ofNat_add]
  rw [← State.goto_of_line hline]
  refine eventually_label rfl (eventually_instr rfl (eventually_instr rfl ?_))
  refine eventually_instr rfl (hnext _ rfl ⟨?_, ?_, ?_, fun r hr => ?_⟩ ?_)
  · simpa [exec, State.next] using h.limit
  · simpa [exec, State.next] using hx2
  · rw [Finset.sum_range_succ, BitVec.ofNat_add]
    simp [exec, State.next, hx2, h.x0]
  · have h₀ : r ≠ 0 := ne_of_saved hr (by decide)
    have h₂ : r ≠ 2 := ne_of_saved hr (by decide)
    simpa [exec, State.next, h₀, h₂] using h.saved r hr
  · have hbound := count_lt (s.regs 0)
    have hint : (BitVec.ofNat 64 (i + 1)).toInt = (i + 1 : ℕ) := toInt_ofNat_of_lt (by omega)
    have hflags : (t.regs 2 + 1#64).toInt < (t.regs 1).toInt ↔ i + 1 < count (s.regs 0) := by
      rw [hx2, hint, h.limit]
      unfold count
      omega
    rw [← hflags, ← Flags.lt_sub]
    simp [exec, State.next]

/-- **What the routine returns.** -/
theorem runs (hs : s.line = 0) :
    Eventually (step code) (Returned s
      (BitVec.ofNat 64 (∑ k ∈ Finset.range (count (s.regs 0) + 1), k))) s := by
  refine enter hs fun t hline ht => ?_
  refine Eventually.loop
    (fun t => t.line = 4 ∧ ∃ i, i < count (s.regs 0) ∧ Added s i t)
    (fun t => count (s.regs 0) - (t.regs 2).toNat) (fun t ht => ?_) ⟨hline, 0, ?_, ht⟩
  · obtain ⟨hline, i, hmore, hi⟩ := ht
    refine body hi hline hmore fun u huline hu htest => ?_
    rw [← State.goto_of_line huline]
    by_cases hagain : i + 1 < count (s.regs 0)
    · refine eventually_blt rfl (htest.mpr hagain) (.now (.inr ⟨⟨rfl, i + 1, hagain, ?_⟩, ?_⟩))
      · exact ⟨hu.limit, hu.x2, hu.x0, hu.saved⟩
      · have hbefore := hi.toNat_x2 hmore.le
        have hafter := hu.toNat_x2 hagain.le
        change count (s.regs 0) - (u.regs 2).toNat < count (s.regs 0) - (t.regs 2).toNat
        omega
    · obtain hlast : i + 1 = count (s.regs 0) := by omega
      refine eventually_skip rfl (mt htest.mp hagain) (eventually_instr rfl (.now (.inl ?_)))
      rw [← hlast]
      exact ⟨congrArg BitVec.toNat (hu.saved 30 (by decide)), hu.x0, hu.saved⟩
  · unfold count
    omega

theorem returns (c : Call code) :
    c.Returns (BitVec.ofNat 64 (∑ k ∈ Finset.range (count (c.state.regs 0) + 1), k)) :=
  runs c.atEntry

/-! ## The sum that was asked for -/

/-- The sum of the integers from `1` to `n`, which is empty for an `n` below `1`. -/
def total (n : ℤ) : ℤ := ∑ k ∈ Finset.range n.toNat, ((k : ℤ) + 1)

theorem total_of_nonpos {n : ℤ} (hn : n ≤ 0) : total n = 0 := by
  rw [total, Int.toNat_of_nonpos hn, Finset.sum_range_zero]

theorem total_natCast (m : ℕ) : total m = (∑ k ∈ Finset.range (m + 1), k : ℕ) := by
  rw [total, Int.toNat_natCast, Finset.sum_range_succ', Nat.add_zero, Nat.cast_sum]
  exact Finset.sum_congr rfl fun k _ => (Nat.cast_succ k).symm

/-- The closed form. -/
theorem total_of_pos {n : ℤ} (hn : 0 < n) : total n = n * (n + 1) / 2 := by
  obtain ⟨m, rfl⟩ : ∃ m : ℕ, n = m := ⟨n.toNat, by omega⟩
  rw [total_natCast, Finset.sum_range_id, Nat.add_sub_cancel, mul_comm (m + 1)]
  norm_cast

/-- **When the sum is the sum**: for every `int` that is at least `1`.  For all the others it is
`0`, and the routine returns `1`. -/
theorem returns_total_iff (c : Call code) (n : BitVec 32)
    (hn : c.state.regs 0 = n.signExtend 64) :
    (∃ v, c.Returns v ∧ v.setWidth 32 = BitVec.ofInt 32 (total n.toInt)) ↔ 1 ≤ n.toInt := by
  have hint : (c.state.regs 0).toInt = n.toInt := by
    rw [hn]
    exact BitVec.toInt_signExtend_of_le (by decide)
  have hreturns := returns c
  constructor
  · rintro ⟨v, hv, hsum⟩
    by_contra! hless
    have hone : count (c.state.regs 0) = 1 := by
      unfold count
      omega
    rw [hreturns.unique hv |>.symm, hone, total_of_nonpos (by omega)] at hsum
    exact absurd hsum (by decide)
  · intro hpos
    refine ⟨_, hreturns, ?_⟩
    have hcount : (count (c.state.regs 0) : ℤ) = n.toInt := by
      unfold count
      omega
    rw [← hcount, total_natCast, BitVec.ofInt_natCast]
    exact BitVec.setWidth_ofNat_of_le (by decide) _

theorem returns_total_iff_five :
    (∃ v, (Call.ofArg code (by decide) 5).Returns v ∧
      v.setWidth 32 = BitVec.ofInt 32 (total 5)) ↔ (1 : ℤ) ≤ 5 :=
  returns_total_iff (Call.ofArg code (by decide) 5) 5 rfl

/-- For `0` the routine returns `1`. -/
theorem returns_one_zero :
    ∃ c : Call code, c.state.regs 0 = (0 : BitVec 32).signExtend 64 ∧ c.Returns 1 ∧
      ¬∃ v, c.Returns v ∧ v.setWidth 32 = BitVec.ofInt 32 (total 0) := by
  have hone : (Call.ofArg code (by decide) 0).Returns 1 := returns _
  refine ⟨Call.ofArg code (by decide) 0, by decide, hone, ?_⟩
  rintro ⟨v, hv, hsum⟩
  rw [hv.unique hone, total_of_nonpos le_rfl] at hsum
  exact absurd hsum (by decide)

end SumN
end Assembly
end CaosSeminars
