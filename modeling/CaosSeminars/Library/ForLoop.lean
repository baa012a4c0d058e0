import Mathlib.Data.List.FinRange
import Mathlib.Tactic.Common

/-!
# Counting loops

`forLoop n body` is `for (int i = 0; i < n; ++i)` around a body that changes a state and may fail,
as one does that reads a variable which has not been set.  A loop is dealt with by an invariant
that speaks of the rounds behind it (`forLoop_spec`).

* `forLoop_succ` --- the last round comes after the others, which is how the induction goes.
* `forLoop_spec` --- the rule: no round fails, and each takes the invariant one further.
* `forLoop_eq` --- the form for a loop whose state after each number of rounds is known.
* `forLoop_eq_none` --- a loop that has a round fails if all its rounds do.
-/

namespace CaosSeminars

variable {σ : Type*} {n : ℕ}

/-- The body for each index below `n`, from `0` on. -/
def forLoop (n : ℕ) (body : Fin n → σ → Option σ) (s : σ) : Option σ :=
  (List.finRange n).foldlM (fun t i => body i t) s

theorem forLoop_zero (body : Fin 0 → σ → Option σ) (s : σ) : forLoop 0 body s = some s := rfl

theorem forLoop_succ (body : Fin (n + 1) → σ → Option σ) (s : σ) :
    forLoop (n + 1) body s =
      (forLoop n (fun i => body i.castSucc) s).bind (body (Fin.last n)) := by
  unfold forLoop
  rw [List.finRange_succ_last, List.foldlM_append, List.foldlM_map]
  refine congrArg _ (funext fun t => ?_)
  rw [List.foldlM_cons]
  exact bind_pure _

theorem forLoop_eq_none {body : Fin n → σ → Option σ} (hn : 0 < n) (s : σ)
    (hbody : ∀ i t, body i t = none) : forLoop n body s = none := by
  cases n with
  | zero => cases hn
  | succ n =>
    rw [forLoop_succ]
    cases forLoop n (fun i => body i.castSucc) s with
    | none => rfl
    | some t => exact hbody (Fin.last n) t

/-- **The rule of a counting loop.**  No round fails, and each takes the invariant one further. -/
theorem forLoop_spec {body : Fin n → σ → Option σ} {s : σ} (Inv : ℕ → σ → Prop) (h : Inv 0 s)
    (hbody : ∀ (i : Fin n) t, Inv i t → ∃ t', body i t = some t' ∧ Inv (i + 1) t') :
    ∃ t, forLoop n body s = some t ∧ Inv n t := by
  induction n with
  | zero => exact ⟨s, forLoop_zero body s, h⟩
  | succ n ih =>
    obtain ⟨t, ht, hinv⟩ := ih fun i t hi => hbody i.castSucc t hi
    obtain ⟨t', ht', hinv'⟩ := hbody (Fin.last n) t hinv
    refine ⟨t', ?_, hinv'⟩
    rw [forLoop_succ, ht]
    exact ht'

/-- A loop whose state is known after each number of rounds. -/
theorem forLoop_eq {body : Fin n → σ → Option σ} {s : σ} (state : ℕ → σ) (h : state 0 = s)
    (hbody : ∀ i : Fin n, body i (state i) = some (state (i + 1))) :
    forLoop n body s = some (state n) := by
  have hround (i : Fin n) (t : σ) (ht : t = state i) :
      ∃ t', body i t = some t' ∧ t' = state (i + 1) := ⟨state (i + 1), by rw [ht, hbody i], rfl⟩
  obtain ⟨t, ht, rfl⟩ := forLoop_spec (fun i t => t = state i) h.symm hround
  exact ht

end CaosSeminars
