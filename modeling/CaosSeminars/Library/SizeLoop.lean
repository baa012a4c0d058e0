import Mathlib.Algebra.BigOperators.Ring.Finset
import Mathlib.Algebra.Group.Action.Defs
import Mathlib.Algebra.Order.Ring.Nat
import Mathlib.Algebra.Order.Group.Nat
import Mathlib.Tactic.Common

/-!
# Loops over `size_t`

`sizeLoop bound step body` is `for (size_t i = 0; i < bound; i += step)` around a body of which
only the events matter.  The variable wraps around at `2 ^ 64`, so that such a loop need not end;
what is known of it is what the first rounds do, as many as there is fuel for, and whether they
are all (`Run`).

Where the variable does not wrap around, the rounds are those for `0`, `step`, `2 * step` and so on
(`sizeLoop_eq`).

* `mem_sizeLoop` --- what is done in a round before the variable wraps around, whether or not the
  loop ends.
* `sizeLoop_eq` --- the whole of a loop that does not wrap around, as a list of its rounds.
* `lt_ceil_iff` --- the number of those rounds.
* `finished_countP_iff` --- how often something is done by a loop that is repeated, and that
  it ends.
-/

namespace CaosSeminars

variable {α : Type*} {bound step fuel i n : ℕ} {body : ℕ → List α} {a : α}

/-- What has been executed, and whether the end has been reached. -/
structure Run (α : Type*) where
  events : List α
  finished : Bool

namespace Run

/-- One after the other; the second is not reached if the first does not end. -/
def seq (r s : Run α) : Run α :=
  if r.finished then ⟨r.events ++ s.events, s.finished⟩ else r

/-- `n` times. -/
def repeated : ℕ → Run α → Run α
  | 0, _ => ⟨[], true⟩
  | n + 1, r => r.seq (repeated n r)

theorem mem_repeated {r : Run α} : a ∈ (r.repeated n).events ↔ n ≠ 0 ∧ a ∈ r.events := by
  induction n with
  | zero => simp [repeated]
  | succ n ih =>
    rw [repeated, seq]
    split
    · rw [List.mem_append, ih]
      simp only [Nat.succ_ne_zero, ne_eq, not_false_eq_true, true_and]
      exact or_iff_left_of_imp And.right
    · simp

theorem repeated_of_finished {r : Run α} (h : r.finished = true) :
    r.repeated n = ⟨(List.replicate n r.events).flatten, true⟩ := by
  induction n with
  | zero => rfl
  | succ n ih => rw [repeated, seq, if_pos h, ih, List.replicate_succ, List.flatten_cons]

theorem finished_of_repeated {r : Run α} (hn : n ≠ 0) (h : (r.repeated n).finished = true) :
    r.finished = true := by
  obtain ⟨n, rfl⟩ := Nat.exists_eq_succ_of_ne_zero hn
  rw [repeated, seq] at h
  split at h
  · assumption
  · exact h

end Run

/-- The rounds from `i` on for which there is fuel. -/
def sizeLoop (bound step : ℕ) (body : ℕ → List α) : ℕ → ℕ → Run α
  | 0, _ => ⟨[], false⟩
  | fuel + 1, i =>
    if i < bound then Run.seq ⟨body i, true⟩ (sizeLoop bound step body fuel ((i + step) % 2 ^ 64))
    else ⟨[], true⟩

/-- **Whatever the loop does**, it does in a round for some number below the bound with the
property that the loop keeps. -/
theorem exists_of_mem_sizeLoop (Inv : ℕ → Prop) (hi : Inv i)
    (hinv : ∀ j < bound, Inv j → Inv ((j + step) % 2 ^ 64))
    (h : a ∈ (sizeLoop bound step body fuel i).events) : ∃ j < bound, Inv j ∧ a ∈ body j := by
  induction fuel generalizing i with
  | zero => cases h
  | succ fuel ih =>
    rw [sizeLoop] at h
    split at h
    · rcases List.mem_append.mp h with hfirst | hrest
      · exact ⟨i, ‹_›, hi, hfirst⟩
      · exact ih (hinv i ‹_› hi) hrest
    · cases h

theorem exists_lt_of_mem_sizeLoop (h : a ∈ (sizeLoop bound step body fuel i).events) :
    ∃ j < bound, a ∈ body j := by
  obtain ⟨j, hj, -, ha⟩ := exists_of_mem_sizeLoop (fun _ => True) trivial (fun _ _ _ => trivial) h
  exact ⟨j, hj, ha⟩

/-- What is done in a round before the variable wraps around. -/
theorem mem_sizeLoop {k : ℕ} (hbound : bound ≤ 2 ^ 64) (hk : i + k * step < bound)
    (hfuel : k < fuel) (ha : a ∈ body (i + k * step)) :
    a ∈ (sizeLoop bound step body fuel i).events := by
  induction k generalizing fuel i with
  | zero =>
    obtain ⟨fuel, rfl⟩ : ∃ m, fuel = m + 1 := ⟨fuel - 1, by omega⟩
    rw [Nat.zero_mul, Nat.add_zero] at hk ha
    rw [sizeLoop, if_pos hk]
    exact List.mem_append_left _ ha
  | succ k ih =>
    obtain ⟨fuel, rfl⟩ : ∃ m, fuel = m + 1 := ⟨fuel - 1, by omega⟩
    have hshift : i + (k + 1) * step = i + step + k * step := by
      rw [Nat.succ_mul]
      omega
    rw [hshift] at hk ha
    rw [sizeLoop, if_pos (by omega), Nat.mod_eq_of_lt (by omega)]
    exact List.mem_append_right _ (ih hk (by omega) ha)

/-- **A loop that does not wrap around.**  From `i` on there are `n` rounds. -/
theorem sizeLoop_eq (hwrap : bound + step ≤ 2 ^ 64) (hrounds : ∀ k, i + k * step < bound ↔ k < n)
    (hfuel : n < fuel) :
    sizeLoop bound step body fuel i =
      ⟨(List.range n).flatMap fun k => body (i + k * step), true⟩ := by
  induction n generalizing fuel i with
  | zero =>
    obtain ⟨fuel, rfl⟩ : ∃ m, fuel = m + 1 := ⟨fuel - 1, by omega⟩
    have hend : ¬i < bound := fun hlt => by simpa using (hrounds 0).mp (by simpa using hlt)
    rw [sizeLoop, if_neg hend]
    rfl
  | succ n ih =>
    obtain ⟨fuel, rfl⟩ : ∃ m, fuel = m + 1 := ⟨fuel - 1, by omega⟩
    have hmore : i < bound := by simpa using (hrounds 0).mpr (Nat.succ_pos n)
    have hshift (k : ℕ) : i + step + k * step = i + (k + 1) * step := by
      rw [Nat.succ_mul]
      omega
    have hnext : ∀ k, i + step + k * step < bound ↔ k < n := fun k => by
      rw [hshift, hrounds, Nat.succ_lt_succ_iff]
    rw [sizeLoop, if_pos hmore, Nat.mod_eq_of_lt (by omega), ih hnext (by omega),
      List.range_succ_eq_map, List.flatMap_cons, List.flatMap_map, Nat.zero_mul, Nat.add_zero]
    simp only [hshift]
    rfl

theorem sizeLoop_of_finished {fuel' : ℕ} (h : (sizeLoop bound step body fuel i).finished = true)
    (h' : (sizeLoop bound step body fuel' i).finished = true) :
    sizeLoop bound step body fuel i = sizeLoop bound step body fuel' i := by
  induction fuel generalizing fuel' i with
  | zero => cases h
  | succ fuel ih =>
    cases fuel' with
    | zero => cases h'
    | succ fuel' =>
      rw [sizeLoop] at h h' ⊢
      rw [sizeLoop]
      split at h
      · rw [if_pos ‹_›] at h' ⊢
        rw [if_pos ‹_›, ih h h']
      · rw [if_neg ‹_›, if_neg ‹_›]

/-- The number of rounds of a loop from `0` on. -/
theorem lt_ceil_iff (hstep : 0 < step) (k : ℕ) :
    0 + k * step < bound ↔ k < (bound + step - 1) / step := by
  rw [Nat.zero_add, Nat.lt_div_iff_mul_lt hstep]
  omega

/-- **How often something is done** by a loop that is repeated: what one pass does, that many
times. -/
theorem finished_countP_iff (p : α → Bool) {m x : ℕ} (hwrap : bound + step ≤ 2 ^ 64)
    (hrounds : ∀ k, 0 + k * step < bound ↔ k < n) :
    (∃ fuel, ((sizeLoop bound step body fuel 0).repeated m).finished = true ∧
        ((sizeLoop bound step body fuel 0).repeated m).events.countP p = x) ↔
      m * ∑ k ∈ Finset.range n, (body (k * step)).countP p = x := by
  have hpass : sizeLoop bound step body (n + 1) 0 =
      ⟨(List.range n).flatMap fun k => body (0 + k * step), true⟩ :=
    sizeLoop_eq hwrap hrounds (Nat.lt_succ_self n)
  have hend' : (sizeLoop bound step body (n + 1) 0).finished = true := by rw [hpass]
  have hcount : ((sizeLoop bound step body (n + 1) 0).repeated m).events.countP p =
      m * ∑ k ∈ Finset.range n, (body (k * step)).countP p := by
    rw [Run.repeated_of_finished hend', List.countP_flatten, List.map_replicate,
      List.sum_replicate, smul_eq_mul, hpass, List.countP_flatMap]
    simp only [Nat.zero_add]
    rfl
  constructor
  · rintro ⟨fuel, hfinished, hx⟩
    rcases eq_or_ne m 0 with rfl | hm
    · rw [Nat.zero_mul]
      exact hx
    · have hend := Run.finished_of_repeated hm hfinished
      rw [sizeLoop_of_finished hend hend'] at hx
      exact hcount.symm.trans hx
  · intro hx
    refine ⟨n + 1, ?_, hcount.trans hx⟩
    rw [Run.repeated_of_finished hend']

end CaosSeminars
