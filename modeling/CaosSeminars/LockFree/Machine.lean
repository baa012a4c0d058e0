import Mathlib.Data.Finset.Basic
import CaosSeminars.Library.Chain
import CaosSeminars.Library.AtomicStack

/-!
# The lock-free stack of `lock-free/stack.c`

`stack_push` and `stack_pop` run here one atomic access at a time, under
sequential consistency: a step of the machine is one thread executing one of
`malloc`, a store to its node, `atomic_load` of `stack->top`, the read of
`top->prev`, one `atomic_compare_exchange_weak`, `free`, or a call.  A thread's
program point carries the local variables that are still live there.

What is not determined by the code is part of the action:

* the address `malloc` returns, which is any address not allocated at the time
  --- so an address that was freed may come back --- and the bytes it holds;
* whether a weak compare-exchange fails for no reason;
* the value a call of `stack_pop` gives its caller when it runs off its end
  without a `return`, which is what happens when `top` was `NULL`.

Touching freed memory is not undefined here: it is recorded in `faults`, and the
thread stops at `crashed`.  `published` is history, read by no step: the nodes
whose push has taken effect and which have not been freed since.

* `State.step` --- the step function, with `publish`, `unlink` and `release` for what the
  compare-exchanges and `free` do to the memory.
* `Moves`, `moves_of_step` --- what one step can do, one constructor for each; the proofs
  split on it.
-/

namespace CaosSeminars
namespace LockFree

/-- The addresses `malloc` returns.  `NULL` is `none : Option Addr`. -/
abbrev Addr := ℕ

/-- `stack_node_t`. -/
structure StackNode where
  payload : ℤ
  prev : Option Addr
  deriving DecidableEq

/-- An access to memory that is not allocated. -/
inductive Fault where
  | readFreed (a : Addr)
  | writeFreed (a : Addr)
  | doubleFree (a : Addr)
  deriving DecidableEq

/-- The program points of `stack_push`, `stack_pop` and the loop of `consumer`. -/
inductive Pc where
  /-- Between calls. -/
  | idle
  /-- `malloc(sizeof(stack_node_t))` comes next. -/
  | pushMalloc (value : ℤ)
  /-- `node->payload = value` comes next. -/
  | pushPayload (node : Addr) (value : ℤ)
  /-- The top of the loop: `top = atomic_load(&stack->top)` comes next. -/
  | pushLoad (node : Addr) (value : ℤ)
  /-- `node->prev = top` comes next. -/
  | pushPrev (node : Addr) (value : ℤ) (top : Option Addr)
  /-- The compare-exchange of `stack_push` comes next. -/
  | pushCas (node : Addr) (value : ℤ) (top : Option Addr)
  /-- The loop condition of `stack_pop`: its `atomic_load` comes next. -/
  | popLoad
  /-- The read of `top->prev`, an argument of the compare-exchange, comes next. -/
  | popPrev (top : Addr)
  /-- The compare-exchange of `stack_pop` comes next. -/
  | popCas (top : Addr) (prev : Option Addr)
  /-- The loop was left because `top` was `NULL`; no `return` follows. -/
  | popEnd
  /-- `stack_pop` gave its caller `ret`. -/
  | popped (ret : Option Addr)
  /-- `node->payload` is printed; `free(node)` comes next. -/
  | printed (node : Addr)
  /-- The thread has touched memory that is not allocated. -/
  | crashed
  deriving DecidableEq

/-- What a thread does, with the answers that the code does not determine. -/
inductive Act where
  | callPush (value : ℤ)
  | malloc (node : Addr) (junk : StackNode)
  | storePayload
  | load
  | storePrev
  | cas (spurious : Bool)
  | callPop
  | readPrev
  | fallOff (ret : Option Addr)
  /-- The caller of `stack_pop` goes on without the node. -/
  | drop
  | print
  | free
  deriving DecidableEq

/-- The shared memory and the program point of every thread. -/
structure State (ι : Type*) where
  heap : Addr → Option StackNode
  /-- `stack->top`. -/
  top : Option Addr
  pc : ι → Pc
  /-- The lines printed by consumers. -/
  output : List ℤ
  published : Finset Addr
  faults : List Fault

variable {ι : Type*}

/-- After `stack_init`, with no thread inside an operation. -/
def init : State ι where
  heap := fun _ => none
  top := none
  pc := fun _ => .idle
  output := []
  published := ∅
  faults := []

namespace State

variable (s : State ι)

/-- A store to an allocated node, or its allocation. -/
def setNode (node : Addr) (n : StackNode) : State ι :=
  { s with heap := Function.update s.heap node (some n) }

/-- `stack->top` becomes `node` by a successful compare-exchange of
`stack_push`. -/
def publish (node : Addr) : State ι :=
  { s with top := some node, published := insert node s.published }

/-- `stack->top` becomes `prev` by a successful compare-exchange of
`stack_pop`. -/
def unlink (prev : Option Addr) : State ι := { s with top := prev }

/-- `free(node)`. -/
def release (node : Addr) : State ι :=
  { s with heap := Function.update s.heap node none, published := s.published.erase node }

/-- `printf("got: %d\n", payload)`. -/
def printLine (payload : ℤ) : State ι := { s with output := s.output ++ [payload] }

@[simp] theorem setNode_heap (node : Addr) (n : StackNode) :
    (s.setNode node n).heap = Function.update s.heap node (some n) := rfl

@[simp] theorem publish_published (node : Addr) :
    (s.publish node).published = insert node s.published := rfl

@[simp] theorem release_heap (node : Addr) :
    (s.release node).heap = Function.update s.heap node none := rfl

@[simp] theorem release_published (node : Addr) :
    (s.release node).published = s.published.erase node := rfl

variable [DecidableEq ι]

/-- The thread goes to another program point. -/
def goto (t : ι) (pc : Pc) : State ι := { s with pc := Function.update s.pc t pc }

/-- The thread touches memory that is not allocated. -/
def fault (t : ι) (f : Fault) : State ι :=
  { s.goto t .crashed with faults := s.faults ++ [f] }

@[simp] theorem goto_heap (t : ι) (pc : Pc) : (s.goto t pc).heap = s.heap := rfl

@[simp] theorem goto_published (t : ι) (pc : Pc) : (s.goto t pc).published = s.published := rfl

end State

variable [DecidableEq ι]

/-- One atomic step of one thread. -/
def step (s : State ι) (x : ι × Act) : Option (State ι) :=
  match s.pc x.1, x.2 with
  | .idle, .callPush value => some (s.goto x.1 (.pushMalloc value))
  | .pushMalloc value, .malloc node junk =>
    if s.heap node = none then
      some ((s.setNode node junk).goto x.1 (.pushPayload node value))
    else none
  | .pushPayload node value, .storePayload =>
    match s.heap node with
    | some n => some ((s.setNode node { n with payload := value }).goto x.1 (.pushLoad node value))
    | none => some (s.fault x.1 (.writeFreed node))
  | .pushLoad node value, .load => some (s.goto x.1 (.pushPrev node value s.top))
  | .pushPrev node value top, .storePrev =>
    match s.heap node with
    | some n => some ((s.setNode node { n with prev := top }).goto x.1 (.pushCas node value top))
    | none => some (s.fault x.1 (.writeFreed node))
  | .pushCas node value top, .cas spurious =>
    if spurious = false ∧ s.top = top then some ((s.publish node).goto x.1 .idle)
    else some (s.goto x.1 (.pushLoad node value))
  | .idle, .callPop => some (s.goto x.1 .popLoad)
  | .popLoad, .load =>
    match s.top with
    | some top => some (s.goto x.1 (.popPrev top))
    | none => some (s.goto x.1 .popEnd)
  | .popPrev top, .readPrev =>
    match s.heap top with
    | some n => some (s.goto x.1 (.popCas top n.prev))
    | none => some (s.fault x.1 (.readFreed top))
  | .popCas top prev, .cas spurious =>
    if spurious = false ∧ s.top = some top then
      some ((s.unlink prev).goto x.1 (.popped (some top)))
    else some (s.goto x.1 .popLoad)
  | .popEnd, .fallOff ret => some (s.goto x.1 (.popped ret))
  | .popped _, .drop => some (s.goto x.1 .idle)
  | .popped (some node), .print =>
    match s.heap node with
    | some n => some ((s.printLine n.payload).goto x.1 (.printed node))
    | none => some (s.fault x.1 (.readFreed node))
  | .printed node, .free =>
    match s.heap node with
    | some _ => some ((s.release node).goto x.1 .idle)
    | none => some (s.fault x.1 (.doubleFree node))
  | _, _ => none

/-- What one step can do, one case for each branch of `step`. -/
inductive Moves (s : State ι) (t : ι) : Act → State ι → Prop
  | callPush (value : ℤ) (hpc : s.pc t = .idle) :
      Moves s t (.callPush value) (s.goto t (.pushMalloc value))
  | malloc {value : ℤ} (node : Addr) (junk : StackNode) (hpc : s.pc t = .pushMalloc value)
      (hfree : s.heap node = none) :
      Moves s t (.malloc node junk) ((s.setNode node junk).goto t (.pushPayload node value))
  | storePayload {node : Addr} {value : ℤ} {n : StackNode} (hpc : s.pc t = .pushPayload node value)
      (hn : s.heap node = some n) :
      Moves s t .storePayload
        ((s.setNode node { n with payload := value }).goto t (.pushLoad node value))
  | loadPush {node : Addr} {value : ℤ} (hpc : s.pc t = .pushLoad node value) :
      Moves s t .load (s.goto t (.pushPrev node value s.top))
  | storePrev {node : Addr} {value : ℤ} {top : Option Addr} {n : StackNode}
      (hpc : s.pc t = .pushPrev node value top) (hn : s.heap node = some n) :
      Moves s t .storePrev
        ((s.setNode node { n with prev := top }).goto t (.pushCas node value top))
  | casPush {node : Addr} {value : ℤ} {top : Option Addr} (hpc : s.pc t = .pushCas node value top)
      (htop : s.top = top) : Moves s t (.cas false) ((s.publish node).goto t .idle)
  | casPushFail {node : Addr} {value : ℤ} {top : Option Addr} (spurious : Bool)
      (hpc : s.pc t = .pushCas node value top) (hfail : ¬(spurious = false ∧ s.top = top)) :
      Moves s t (.cas spurious) (s.goto t (.pushLoad node value))
  | callPop (hpc : s.pc t = .idle) : Moves s t .callPop (s.goto t .popLoad)
  | loadPop {top : Addr} (hpc : s.pc t = .popLoad) (htop : s.top = some top) :
      Moves s t .load (s.goto t (.popPrev top))
  | loadNull (hpc : s.pc t = .popLoad) (htop : s.top = none) :
      Moves s t .load (s.goto t .popEnd)
  | readPrev {top : Addr} {n : StackNode} (hpc : s.pc t = .popPrev top)
      (hn : s.heap top = some n) : Moves s t .readPrev (s.goto t (.popCas top n.prev))
  | casPop {top : Addr} {prev : Option Addr} (hpc : s.pc t = .popCas top prev)
      (htop : s.top = some top) :
      Moves s t (.cas false) ((s.unlink prev).goto t (.popped (some top)))
  | casPopFail {top : Addr} {prev : Option Addr} (spurious : Bool)
      (hpc : s.pc t = .popCas top prev) (hfail : ¬(spurious = false ∧ s.top = some top)) :
      Moves s t (.cas spurious) (s.goto t .popLoad)
  | fallOff (ret : Option Addr) (hpc : s.pc t = .popEnd) :
      Moves s t (.fallOff ret) (s.goto t (.popped ret))
  | drop {ret : Option Addr} (hpc : s.pc t = .popped ret) : Moves s t .drop (s.goto t .idle)
  | print {node : Addr} {n : StackNode} (hpc : s.pc t = .popped (some node))
      (hn : s.heap node = some n) :
      Moves s t .print ((s.printLine n.payload).goto t (.printed node))
  | free {node : Addr} {n : StackNode} (hpc : s.pc t = .printed node) (hn : s.heap node = some n) :
      Moves s t .free ((s.release node).goto t .idle)
  | writeFreed {a : Act} {node : Addr} {value : ℤ}
      (hpc : s.pc t = .pushPayload node value ∨ ∃ top, s.pc t = .pushPrev node value top)
      (hn : s.heap node = none) : Moves s t a (s.fault t (.writeFreed node))
  | readFreed {a : Act} {node : Addr}
      (hpc : (a = .readPrev ∧ s.pc t = .popPrev node) ∨
        (a = .print ∧ s.pc t = .popped (some node)))
      (hn : s.heap node = none) : Moves s t a (s.fault t (.readFreed node))
  | doubleFree {node : Addr} (hpc : s.pc t = .printed node) (hn : s.heap node = none) :
      Moves s t .free (s.fault t (.doubleFree node))

/-- The inversion of `step`: later proofs split on `Moves`, never on `step`. -/
theorem moves_of_step {s s' : State ι} {t : ι} {a : Act} (h : step s (t, a) = some s') :
    Moves s t a s' := by
  simp only [step] at h
  split at h
  · rename_i value hpc
    obtain rfl := Option.some.inj h
    exact .callPush value hpc
  · rename_i value node junk hpc
    split at h
    · rename_i hfree
      obtain rfl := Option.some.inj h
      exact .malloc node junk hpc hfree
    · exact absurd h (by simp)
  · rename_i node value hpc
    split at h <;> rename_i hn <;> obtain rfl := Option.some.inj h
    · exact .storePayload hpc hn
    · exact .writeFreed (Or.inl hpc) hn
  · rename_i node value hpc
    obtain rfl := Option.some.inj h
    exact .loadPush hpc
  · rename_i node value top hpc
    split at h <;> rename_i hn <;> obtain rfl := Option.some.inj h
    · exact .storePrev hpc hn
    · exact .writeFreed (Or.inr ⟨top, hpc⟩) hn
  · rename_i node value top spurious hpc
    split at h <;> rename_i hcas <;> obtain rfl := Option.some.inj h
    · obtain ⟨rfl, htop⟩ := hcas
      exact .casPush hpc htop
    · exact .casPushFail spurious hpc hcas
  · rename_i hpc
    obtain rfl := Option.some.inj h
    exact .callPop hpc
  · rename_i hpc
    split at h <;> rename_i htop <;> obtain rfl := Option.some.inj h
    · exact .loadPop hpc htop
    · exact .loadNull hpc htop
  · rename_i top hpc
    split at h <;> rename_i hn <;> obtain rfl := Option.some.inj h
    · exact .readPrev hpc hn
    · exact .readFreed (Or.inl ⟨rfl, hpc⟩) hn
  · rename_i top prev spurious hpc
    split at h <;> rename_i hcas <;> obtain rfl := Option.some.inj h
    · obtain ⟨rfl, htop⟩ := hcas
      exact .casPop hpc htop
    · exact .casPopFail spurious hpc hcas
  · rename_i ret hpc
    obtain rfl := Option.some.inj h
    exact .fallOff ret hpc
  · rename_i hpc
    obtain rfl := Option.some.inj h
    exact .drop hpc
  · rename_i node hpc
    split at h <;> rename_i hn <;> obtain rfl := Option.some.inj h
    · exact .print hpc hn
    · exact .readFreed (Or.inr ⟨rfl, hpc⟩) hn
  · rename_i node hpc
    split at h <;> rename_i hn <;> obtain rfl := Option.some.inj h
    · exact .free hpc hn
    · exact .doubleFree hpc hn
  · exact absurd h (by simp)

end LockFree
end CaosSeminars
