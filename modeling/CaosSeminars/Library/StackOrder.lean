import Mathlib.Data.List.Perm.Basic
import Mathlib.Data.List.Triplewise
import Mathlib.Order.Basic
import CaosSeminars.Library.AtomicStack

/-!
# The orders in which a stack gives back what was pushed

`StackRun pushed popped stack` says that some sequence of pushes and pops, from
the empty stack, pushes the values of `pushed` in this order, pops those of
`popped` in this order, and leaves `stack`, the top first.  A list `out` is
realisable by a stack fed with `pushed` when `StackRun pushed out []`.

* `StackRun.perm`: nothing is lost and nothing comes out twice.
* `StackRun.triplewise`: when the values go in increasing, no three values come out
  in the order high, low, middle.  The middle one would have been above the low
  one on the stack, or not yet on it, when the low one was popped; but it went in
  before the high one, which was out already.

The induction carries the law for one value that has not been popped yet
(`StackRun.triplewise_and_pairwise`): everything still on the stack may come out next.

`AtomicStack.Step.stackRun` is where the two descriptions meet: along a path of the atomic stack
the values pushed and popped so far are those of a `StackRun`.
-/

namespace CaosSeminars

variable {V : Type*}

/-- A sequence of pushes and pops from the empty stack. -/
inductive StackRun : List V → List V → List V → Prop
  | nil : StackRun [] [] []
  | push {pushed popped stack : List V} (v : V) :
      StackRun pushed popped stack → StackRun (pushed ++ [v]) popped (v :: stack)
  | pop {pushed popped stack : List V} {v : V} :
      StackRun pushed popped (v :: stack) → StackRun pushed (popped ++ [v]) stack

namespace StackRun

variable {pushed popped stack : List V}

/-- **What was pushed was popped or is on the stack.** -/
theorem perm (h : StackRun pushed popped stack) : (popped ++ stack).Perm pushed := by
  induction h with
  | nil => exact List.Perm.refl []
  | @push pushed _ _ v _ ih =>
    have hv : (pushed ++ [v]).Perm (v :: pushed) := List.perm_append_singleton v pushed
    exact List.perm_middle.trans ((ih.cons v).trans hv.symm)
  | pop _ ih => rwa [List.append_assoc, List.singleton_append]

variable [Preorder V]

/-- Values that go in increasing lie on the stack with the largest on top. -/
theorem pairwise_stack (h : StackRun pushed popped stack)
    (hpushed : pushed.Pairwise (· < ·)) : stack.Pairwise (· > ·) := by
  induction h with
  | nil => exact List.Pairwise.nil
  | push v hrun ih =>
    obtain ⟨hpushed, -, hlast⟩ := List.pairwise_append.mp hpushed
    refine List.pairwise_cons.mpr ⟨fun x hx => ?_, ih hpushed⟩
    exact hlast x (hrun.perm.subset (List.mem_append_right _ hx)) v (List.mem_singleton_self v)
  | pop _ ih => exact (List.pairwise_cons.mp (ih hpushed)).2

/-- No value still on the stack would complete the order high, low, middle, and none that
came out has. -/
theorem triplewise_and_pairwise (h : StackRun pushed popped stack)
    (hpushed : pushed.Pairwise (· < ·)) :
    popped.Triplewise (fun a b c => ¬(b < c ∧ c < a)) ∧
      ∀ x ∈ stack, popped.Pairwise fun a b => ¬(b < x ∧ x < a) := by
  induction h with
  | nil => exact ⟨List.Triplewise.nil, fun _ hx => absurd hx List.not_mem_nil⟩
  | push v hrun ih =>
    obtain ⟨hpushed, -, hlast⟩ := List.pairwise_append.mp hpushed
    refine ⟨(ih hpushed).1, fun x hx => ?_⟩
    rcases List.mem_cons.mp hx with rfl | hx
    · -- Everything popped so far went in before `x`, so it is below `x`.
      refine List.pairwise_of_forall_mem_list fun a ha b _ hmiddle => ?_
      have hax := hlast a (hrun.perm.subset (List.mem_append_left _ ha)) x (by simp)
      exact lt_asymm hax hmiddle.2
    · exact (ih hpushed).2 x hx
  | @pop pushed popped stack v hrun ih =>
    obtain ⟨htriple, hstack⟩ := ih hpushed
    refine ⟨?_, fun x hx => ?_⟩
    · refine List.triplewise_append.mpr ⟨htriple, List.triplewise_singleton _ _, ?_, ?_⟩
      · simp
      · simpa using hstack v List.mem_cons_self
    · refine List.pairwise_append.mpr ⟨hstack x (List.mem_cons_of_mem _ hx), by simp, ?_⟩
      -- What is under `v` on the stack is below `v`.
      intro a _ b hb hmiddle
      obtain rfl := List.mem_singleton.mp hb
      have hxb := (List.pairwise_cons.mp (hrun.pairwise_stack hpushed)).1 x hx
      exact lt_asymm hxb hmiddle.1

/-- **The order of the pops.**  No three values come out high, low, middle. -/
theorem triplewise (h : StackRun pushed popped stack) (hpushed : pushed.Pairwise (· < ·)) :
    popped.Triplewise fun a b c => ¬(b < c ∧ c < a) :=
  (h.triplewise_and_pairwise hpushed).1

end StackRun

/-- A step of the atomic stack pushes and pops what its event says. -/
theorem AtomicStack.Step.stackRun {ι H : Type*} [DecidableEq ι] {σ τ : AtomicStack ι H V}
    {e : StackEvent ι H V} {pushed popped : List V} (h : AtomicStack.Step σ e τ)
    (hrun : StackRun pushed popped (σ.stack.map Prod.snd)) :
    StackRun (pushed ++ e.pushed?.toList) (popped ++ e.popped?.toList)
      (τ.stack.map Prod.snd) := by
  cases h with
  | push handle _ => simpa [StackEvent.pushed?, StackEvent.popped?] using hrun.push _
  | pop _ hstack =>
    rw [hstack] at hrun
    simpa [StackEvent.pushed?, StackEvent.popped?] using hrun.pop
  | _ => simpa [StackEvent.pushed?, StackEvent.popped?, AtomicStack.become] using hrun

end CaosSeminars
