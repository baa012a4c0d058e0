import Mathlib.Algebra.BigOperators.Group.Finset.Basic
import Mathlib.Algebra.Group.Action.Defs
import Mathlib.Algebra.Order.BigOperators.Group.Finset
import CaosSeminars.Library.Trace

/-!
# Counting along a run

`tally step f s as` adds up what the steps of a run are worth, where `f s a` is the worth of the
action `a` taken in the state `s`.  A count of events is the tally of a function with values `0`
and `1`.

The rule of the module is the potential method.  Every step may gain at most what it costs and
what it takes out of a potential; over a run the potential between the steps cancels, and what is
left is the first and the last value (`Trace.amortise`).

In a system of threads the potential is a sum over the threads, and a step moves one of them
(`sum_moved`).

* `Trace.amortise` --- the method; `Trace.balance` is the case of exact accounts.
* `Trace.length_add_le` --- a run is no longer than a potential that each of its steps lowers.
* `Trace.tally_one`, `Trace.tally_count` --- the tally that counts the steps, and the one that
  counts one action.
* `sum_moved`, `sum_le_card_mul` --- a potential of threads when one of them moves, and its bound.
-/

namespace CaosSeminars

variable {S A : Type*}

/-- What the steps of a run are worth together. -/
def tally (step : S → A → Option S) (f : S → A → ℕ) : S → List A → ℕ
  | _, [] => 0
  | s, a :: as =>
    match step s a with
    | none => 0
    | some t => f s a + tally step f t as

variable {step : S → A → Option S} {ok : S → A → Prop} {f gain cost : S → A → ℕ} {s t : S}
  {as bs : List A}

@[simp] theorem tally_nil : tally step f s [] = 0 := rfl

theorem tally_cons {a : A} (h : step s a = some t) :
    tally step f s (a :: as) = f s a + tally step f t as := by
  rw [tally, h]

theorem Trace.tally_append (h : Trace step ok s as t) :
    tally step f s (as ++ bs) = tally step f s as + tally step f t bs := by
  induction h with
  | nil s => rw [List.nil_append, tally_nil, Nat.zero_add]
  | cons _ hstep _ ih =>
    rw [List.cons_append, tally_cons hstep, tally_cons hstep, ih, Nat.add_assoc]

theorem Trace.tally_one (h : Trace step ok s as t) :
    tally step (fun _ _ => 1) s as = as.length := by
  induction h with
  | nil s => rfl
  | cons _ hstep _ ih => rw [tally_cons hstep, ih, List.length_cons, Nat.add_comm]

theorem Trace.tally_count [DecidableEq A] (b : A) (h : Trace step ok s as t) :
    tally step (fun _ a => if a = b then 1 else 0) s as = as.count b := by
  induction h with
  | nil s => rfl
  | @cons s u t a as hok hstep _ ih =>
    rw [tally_cons hstep, ih, List.count_cons, Nat.add_comm]
    simp only [beq_iff_eq]

theorem Trace.tally_add (h : Trace step ok s as t) (g : S → A → ℕ) :
    tally step (fun s a => f s a + g s a) s as = tally step f s as + tally step g s as := by
  induction h with
  | nil s => rfl
  | cons _ hstep _ ih => rw [tally_cons hstep, tally_cons hstep, tally_cons hstep, ih]; omega

theorem Trace.tally_mul (h : Trace step ok s as t) (c : ℕ) :
    tally step (fun s a => c * f s a) s as = c * tally step f s as := by
  induction h with
  | nil s => rfl
  | cons _ hstep _ ih => rw [tally_cons hstep, tally_cons hstep, ih, Nat.mul_add]

/-- **The potential method.**  If no step gains more than it costs and takes out of the
potential, then no run gains more than it costs and takes out of it. -/
theorem Trace.amortise {φ : S → ℕ}
    (hφ : ∀ s a t, ok s a → step s a = some t → φ t + gain s a ≤ φ s + cost s a)
    (h : Trace step ok s as t) : φ t + tally step gain s as ≤ φ s + tally step cost s as := by
  induction h with
  | nil s => exact le_rfl
  | @cons s u t a as hok hstep _ ih =>
    have hfirst := hφ s a u hok hstep
    rw [tally_cons hstep, tally_cons hstep]
    omega

/-- **Exact accounts.**  If every step raises `φ` by what it is worth, so does every run. -/
theorem Trace.balance {φ : S → ℕ}
    (hφ : ∀ s a t, ok s a → step s a = some t → φ t = φ s + f s a)
    (h : Trace step ok s as t) : φ t = φ s + tally step f s as := by
  induction h with
  | nil s => rfl
  | @cons s u t a as hok hstep _ ih =>
    have hfirst := hφ s a u hok hstep
    rw [tally_cons hstep]
    omega

/-- A run is no longer than a potential that each of its steps lowers. -/
theorem Trace.length_add_le {φ : S → ℕ}
    (hφ : ∀ s a t, ok s a → step s a = some t → φ t < φ s) (h : Trace step ok s as t) :
    as.length + φ t ≤ φ s := by
  induction h with
  | nil s => rw [List.length_nil, Nat.zero_add]
  | @cons s u t a as hok hstep _ ih =>
    have hfirst := hφ s a u hok hstep
    rw [List.length_cons]
    omega

/-! ## A potential of threads -/

variable {ι P : Type*} [Fintype ι] [DecidableEq ι]

theorem sum_moved (w : P → ℕ) (pc : ι → P) (t : ι) (p : P) :
    ∑ u, w (Function.update pc t p u) + w (pc t) = ∑ u, w (pc u) + w p := by
  have hrest : ∑ u ∈ Finset.univ.erase t, w (Function.update pc t p u) =
      ∑ u ∈ Finset.univ.erase t, w (pc u) :=
    Finset.sum_congr rfl fun u hu => by rw [Function.update_of_ne (Finset.ne_of_mem_erase hu)]
  rw [← Finset.add_sum_erase _ _ (Finset.mem_univ t), hrest, Function.update_self,
    ← Finset.add_sum_erase Finset.univ (fun u => w (pc u)) (Finset.mem_univ t)]
  omega

/-- A sum over the threads of which one has moved, where the others may have become heavier by
`c` each as well. -/
theorem sum_moved_le (w w' : P → ℕ) (c : ℕ) (hw : ∀ p, w' p ≤ w p + c) (pc : ι → P) (t : ι)
    (p : P) :
    ∑ u, w' (Function.update pc t p u) + w (pc t) ≤
      ∑ u, w (pc u) + w' p + c * (Fintype.card ι - 1) := by
  have hrest : ∑ u ∈ Finset.univ.erase t, w' (Function.update pc t p u) ≤
      ∑ u ∈ Finset.univ.erase t, w (pc u) + (Finset.univ.erase t).card • c := by
    rw [← Finset.sum_const, ← Finset.sum_add_distrib]
    refine Finset.sum_le_sum fun u hu => ?_
    rw [Function.update_of_ne (Finset.ne_of_mem_erase hu)]
    exact hw (pc u)
  rw [Finset.card_erase_of_mem (Finset.mem_univ t), Finset.card_univ, smul_eq_mul,
    Nat.mul_comm] at hrest
  rw [← Finset.add_sum_erase _ _ (Finset.mem_univ t), Function.update_self,
    ← Finset.add_sum_erase Finset.univ (fun u => w (pc u)) (Finset.mem_univ t)]
  omega

omit [DecidableEq ι] in
/-- A sum over the threads is at most the number of threads times a bound of its terms. -/
theorem sum_le_card_mul {w : ι → ℕ} {c : ℕ} (hw : ∀ u, w u ≤ c) :
    ∑ u, w u ≤ c * Fintype.card ι := by
  calc ∑ u, w u ≤ (Finset.univ : Finset ι).card • c :=
        Finset.sum_le_card_nsmul _ _ c fun u _ => hw u
    _ = c * Fintype.card ι := by rw [Finset.card_univ, smul_eq_mul, Nat.mul_comm]

end CaosSeminars
