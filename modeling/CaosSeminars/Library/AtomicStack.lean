import Mathlib.Algebra.Order.Group.Multiset
import CaosSeminars.Library.Trace

/-!
# The atomic stack

What a concurrent stack is for, with nothing about how it is built: a list that
any thread may push on and pop from, each operation taking effect in one atomic
step between its call and its return.  A thread is `idle`, or inside a push
(carrying the value it pushes), or inside a pop.

The events are the calls and the effects.  An effect names the handle the value
is kept under, because a linked implementation returns handles; `pop` gives back
the head of the list at that moment, and `popEmpty` is possible only on the empty
list.

`Path.account` is the conservation law: along every path from the empty stack,
what was pushed is what was popped together with what is on the stack.  It is
proved here once, and an implementation obtains it by being simulated.

* `Step` --- one step, one constructor for each event; `Step.stack_eq` reads the change of the list
  off the event.
* `Step.of_pushing` --- a thread that is inside a push has been since its call, and the push has
  not taken effect.
-/

namespace CaosSeminars

variable {ι H V : Type*}

/-- Where a thread is in its operation. -/
inductive OpStatus (V : Type*) where
  | idle
  | pushing (value : V)
  | popping
  deriving DecidableEq

/-- The calls and the effects. -/
inductive StackEvent (ι H V : Type*) where
  | callPush (t : ι) (value : V)
  | push (t : ι) (handle : H) (value : V)
  | callPop (t : ι)
  | pop (t : ι) (handle : H) (value : V)
  | popEmpty (t : ι)
  deriving DecidableEq

/-- The list, and what each thread is doing. -/
structure AtomicStack (ι H V : Type*) where
  stack : List (H × V)
  status : ι → OpStatus V

namespace AtomicStack

/-- The empty stack, every thread idle. -/
def empty : AtomicStack ι H V := ⟨[], fun _ => .idle⟩

variable [DecidableEq ι]

/-- A thread moves to another status, the list staying as it is. -/
def become (σ : AtomicStack ι H V) (t : ι) (o : OpStatus V) : AtomicStack ι H V :=
  { σ with status := Function.update σ.status t o }

/-- One atomic step. -/
inductive Step : AtomicStack ι H V → StackEvent ι H V → AtomicStack ι H V → Prop
  | callPush {σ : AtomicStack ι H V} {t : ι} (v : V) :
      σ.status t = .idle → Step σ (.callPush t v) (σ.become t (.pushing v))
  | push {σ : AtomicStack ι H V} {t : ι} {v : V} (h : H) :
      σ.status t = .pushing v →
        Step σ (.push t h v) { σ.become t .idle with stack := (h, v) :: σ.stack }
  | callPop {σ : AtomicStack ι H V} {t : ι} :
      σ.status t = .idle → Step σ (.callPop t) (σ.become t .popping)
  | pop {σ : AtomicStack ι H V} {t : ι} {h : H} {v : V} {rest : List (H × V)} :
      σ.status t = .popping → σ.stack = (h, v) :: rest →
        Step σ (.pop t h v) { σ.become t .idle with stack := rest }
  | popEmpty {σ : AtomicStack ι H V} {t : ι} :
      σ.status t = .popping → σ.stack = [] → Step σ (.popEmpty t) (σ.become t .idle)

end AtomicStack

namespace StackEvent

/-- The value an event puts on the stack. -/
def pushed? : StackEvent ι H V → Option V
  | .push _ _ v => some v
  | _ => none

/-- The value an event takes off the stack. -/
def popped? : StackEvent ι H V → Option V
  | .pop _ _ v => some v
  | _ => none

/-- What an event does to the list. -/
def effect : StackEvent ι H V → List (H × V) → List (H × V)
  | .push _ h v, l => (h, v) :: l
  | .pop _ _ _, l => l.tail
  | _, l => l

end StackEvent

/-- The values pushed in a history, in the order their pushes took effect. -/
def pushedValues (es : List (StackEvent ι H V)) : List V := es.filterMap StackEvent.pushed?

/-- The values popped in a history, in the order their pops took effect. -/
def poppedValues (es : List (StackEvent ι H V)) : List V := es.filterMap StackEvent.popped?

variable [DecidableEq ι]

theorem AtomicStack.Step.stack_eq {σ τ : AtomicStack ι H V} {e : StackEvent ι H V}
    (h : AtomicStack.Step σ e τ) : τ.stack = e.effect σ.stack := by
  cases h with
  | callPush v _ => rfl
  | push h _ => rfl
  | callPop _ => rfl
  | pop _ hstack =>
    rw [hstack]
    rfl
  | popEmpty _ hstack => rfl

/-- A thread that is inside a push has not just been moved out of an operation. -/
theorem OpStatus.of_update {status : ι → OpStatus V} {t u : ι} {o : OpStatus V}
    {v : V} (ht : Function.update status u o t = .pushing v) (ho : o ≠ .pushing v) :
    t ≠ u ∧ status t = .pushing v := by
  by_cases htu : t = u
  · subst htu
    rw [Function.update_self] at ht
    exact absurd ht ho
  · rw [Function.update_of_ne htu] at ht
    exact ⟨htu, ht⟩

/-- A thread is inside a push since its call, and until the push takes effect. -/
theorem AtomicStack.Step.of_pushing {σ τ : AtomicStack ι H V} {e : StackEvent ι H V}
    (h : AtomicStack.Step σ e τ) {t : ι} {v : V} (ht : τ.status t = .pushing v) :
    e = .callPush t v ∨ (σ.status t = .pushing v ∧ ∀ handle w, e ≠ .push t handle w) := by
  cases h with
  | @callPush u w _ =>
    by_cases hcall : t = u ∧ w = v
    · obtain ⟨rfl, rfl⟩ := hcall
      exact Or.inl rfl
    · refine Or.inr ⟨?_, fun _ _ => by simp⟩
      change Function.update σ.status u (.pushing w) t = .pushing v at ht
      by_cases htu : t = u
      · subst htu
        rw [Function.update_self] at ht
        exact absurd ⟨rfl, OpStatus.pushing.inj ht⟩ hcall
      · rwa [Function.update_of_ne htu] at ht
  | push handle _ =>
    obtain ⟨htu, ht⟩ := OpStatus.of_update ht (by simp)
    exact Or.inr ⟨ht, fun _ _ heq => htu (by injection heq with heq; exact heq.symm)⟩
  | _ => exact Or.inr ⟨(OpStatus.of_update ht (by simp)).2, fun _ _ => by simp⟩

/-- One step moves values between the stack and the history, and loses none. -/
theorem AtomicStack.Step.account {σ τ : AtomicStack ι H V} {e : StackEvent ι H V}
    (h : AtomicStack.Step σ e τ) :
    (↑(pushedValues [e]) : Multiset V) + ↑(σ.stack.map Prod.snd) =
      ↑(poppedValues [e]) + ↑(τ.stack.map Prod.snd) := by
  cases h with
  | callPush v _ => rfl
  | push h _ => rfl
  | callPop _ => rfl
  | pop _ hstack =>
    rw [hstack]
    rfl
  | popEmpty _ hstack => rfl

/-- **Conservation.**  What the history pushed, on top of what was on the stack
at first, is what it popped and what is on the stack at the end. -/
theorem Path.account {σ τ : AtomicStack ι H V} {es : List (StackEvent ι H V)}
    (h : Path AtomicStack.Step σ es τ) :
    (↑(pushedValues es) : Multiset V) + ↑(σ.stack.map Prod.snd) =
      ↑(poppedValues es) + ↑(τ.stack.map Prod.snd) := by
  induction h with
  | nil => rfl
  | @cons σ ρ τ e es hstep _ ih =>
    have hpush : (↑(pushedValues (e :: es)) : Multiset V) =
        ↑(pushedValues [e]) + ↑(pushedValues es) := by
      rw [Multiset.coe_add, pushedValues, pushedValues, pushedValues, ← List.filterMap_append]
      rfl
    have hpop : (↑(poppedValues (e :: es)) : Multiset V) =
        ↑(poppedValues [e]) + ↑(poppedValues es) := by
      rw [Multiset.coe_add, poppedValues, poppedValues, poppedValues, ← List.filterMap_append]
      rfl
    calc (↑(pushedValues (e :: es)) : Multiset V) + ↑(σ.stack.map Prod.snd)
        = ↑(pushedValues es) + (↑(pushedValues [e]) + ↑(σ.stack.map Prod.snd)) := by
          rw [hpush, add_comm (↑(pushedValues [e]) : Multiset V), add_assoc]
      _ = ↑(poppedValues [e]) + (↑(pushedValues es) + ↑(ρ.stack.map Prod.snd)) := by
          rw [hstep.account, add_left_comm]
      _ = ↑(poppedValues (e :: es)) + ↑(τ.stack.map Prod.snd) := by
          rw [ih, hpop, add_assoc]

end CaosSeminars
