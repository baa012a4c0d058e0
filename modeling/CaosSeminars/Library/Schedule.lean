import Mathlib.Data.List.Range
import Mathlib.Tactic.Common

/-!
# Endless sequences of answers

What a system call answers is not up to the code that makes it.  A run uses up a
list of answers; the surroundings have an answer for every call, which is a sequence
`s : ℕ → α`.  `firsts s k` are the first `k` of them.

A program that comes to its end once it has had enough answers of some kind does so
on every sequence that has infinitely many of that kind (`exists_le_countP_firsts`).

* `exists_firsts_eq_append` --- more answers of a sequence are the ones before and some others.
* `mem_firsts` --- an answer among the first ones is an answer of the sequence.
-/

namespace CaosSeminars

variable {α : Type*}

/-- The first `k` answers of a sequence. -/
def firsts (s : ℕ → α) (k : ℕ) : List α := (List.range k).map s

variable {s : ℕ → α}

theorem firsts_succ (s : ℕ → α) (k : ℕ) : firsts s (k + 1) = firsts s k ++ [s k] := by
  rw [firsts, List.range_succ, List.map_append]
  rfl

theorem mem_firsts {k : ℕ} {a : α} : a ∈ firsts s k ↔ ∃ i < k, s i = a := by
  simp [firsts]

theorem exists_firsts_eq_append {k j : ℕ} (h : k ≤ j) :
    ∃ more, firsts s j = firsts s k ++ more := by
  induction h with
  | refl => exact ⟨[], (List.append_nil _).symm⟩
  | @step j _ ih =>
    obtain ⟨more, hmore⟩ := ih
    exact ⟨more ++ [s j], by rw [firsts_succ, hmore, List.append_assoc]⟩

/-- **A sequence that has a property again and again** has it often enough early enough. -/
theorem exists_le_countP_firsts {p : α → Bool} (h : ∀ i, ∃ j, i ≤ j ∧ p (s j) = true) (m : ℕ) :
    ∃ k, m ≤ (firsts s k).countP p := by
  induction m with
  | zero => exact ⟨0, Nat.zero_le _⟩
  | succ m ih =>
    obtain ⟨k, hk⟩ := ih
    obtain ⟨j, hle, hj⟩ := h k
    obtain ⟨more, hmore⟩ := exists_firsts_eq_append (s := s) hle
    refine ⟨j + 1, ?_⟩
    have hcount : (firsts s k).countP p ≤ (firsts s j).countP p := by
      rw [hmore, List.countP_append]
      exact Nat.le_add_right _ _
    rw [firsts_succ, List.countP_append, List.countP_singleton, if_pos hj]
    omega

end CaosSeminars
