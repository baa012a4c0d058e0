import CaosSeminars.LockFree.Invariant

/-!
# Any number of producers and consumers, no node reused

When popped nodes are never freed, `malloc` always returns an address that was
never used, and the stack may have any number of threads on both sides.  It is
then an atomic stack: an operation takes effect at its successful
compare-exchange, or, for a pop that finds nothing, at the load that saw `NULL`.

The step lemma is `Refines.simulates`, which asks nothing of callers that neither
print nor free.  What is added here is `Linearized`: the three points at which
operations take effect, said of the concrete state and of the abstract list it
stands for at that moment.  The point that needs an argument is the pop: the
`prev` read before the compare-exchange, however long before, is the rest of the
list when the compare-exchange succeeds.

* `Refines.linearized` --- the three points, from what the invariant knows there.
* `stack_refines_atomic` --- every run is a path of the atomic stack that carries the events
  the run shows, and every step of it is linearized.
-/

namespace CaosSeminars
namespace LockFree

variable {ι : Type*} [DecidableEq ι]

/-- Threads call `stack_push` and `stack_pop` as they like and never free.  Any
value may come out of a `stack_pop` that saw an empty stack; no caller
dereferences it. -/
def neverFrees (x : ι × Act) : Bool :=
  match x.2 with
  | .print | .free => false
  | _ => true

/-- The concrete state `s` stands for the atomic stack `σ`, and every operation
that can take effect in `s` has there the effect of its atomic counterpart. -/
structure Linearized (s : State ι) (σ : AtomicStack ι Addr ℤ) : Prop where
  chain : Linked s.heap s.top σ.stack
  status : ∀ t, σ.status t = (s.pc t).status
  push : ∀ t node value top, s.pc t = .pushCas node value top → s.top = top →
    shows s (t, .cas false) = some (.push t node value) ∧
      ∃ s', step s (t, .cas false) = some s' ∧ s'.pc t = .idle ∧
        Linked s'.heap s'.top ((node, value) :: σ.stack)
  pop : ∀ t top prev, s.pc t = .popCas top prev → s.top = some top →
    ∃ value rest, σ.stack = (top, value) :: rest ∧ Linked s.heap prev rest ∧
      shows s (t, .cas false) = some (.pop t top value) ∧
      ∃ s', step s (t, .cas false) = some s' ∧ s'.pc t = .popped (some top) ∧
        Linked s'.heap s'.top rest
  popEmpty : ∀ t, s.pc t = .popLoad → s.top = none →
    σ.stack = [] ∧ shows s (t, .load) = some (.popEmpty t)

variable {s s' : State ι} {t : ι} {a : Act} {σ : AtomicStack ι Addr ℤ}

omit [DecidableEq ι] in
/-- A caller that neither prints nor frees is careful. -/
theorem careful_of_neverFrees {l : List (Addr × ℤ)} (h : neverFrees (t, a) = true) :
    Careful l s t a where
  print := fun ha => absurd h (by simp [ha, neverFrees])
  free := fun ha => absurd h (by simp [ha, neverFrees])

/-- What the simulation relation says at the points where operations take
effect. -/
theorem Refines.linearized (h : Refines s σ) : Linearized s σ where
  chain := h.inv.chain
  status := h.status
  push := by
    intro t node value top hpc htop
    refine ⟨by simp [shows, hpc, htop], (s.publish node).goto t .idle, ?_, ?_, ?_⟩
    · simp [step, hpc, htop]
    · exact Function.update_self _ _ _
    · exact (h.inv.casPush hpc htop).chain
  pop := by
    intro t top prev hpc htop
    obtain ⟨value, rest, hheap, hl, hrest⟩ := h.inv.top_of_popCas hpc htop
    refine ⟨value, rest, hl, hrest, by simp [shows, hpc, htop, hheap],
      (s.unlink prev).goto t (.popped (some top)), ?_, ?_, hrest⟩
    · simp [step, hpc, htop]
    · exact Function.update_self _ _ _
  popEmpty := by
    intro t hpc htop
    have hchain := h.inv.chain
    rw [htop] at hchain
    exact ⟨hchain.eq_nil, by simp [shows, hpc, htop]⟩

theorem Refines.simulates_neverFrees (h : Refines s σ) (hok : neverFrees (t, a) = true)
    (hstep : step s (t, a) = some s') :
    (shows s (t, a) = none ∧ Refines s' σ) ∨
      ∃ e τ, shows s (t, a) = some e ∧ AtomicStack.Step σ e τ ∧ Refines s' τ :=
  (h.simulates (careful_of_neverFrees hok) (moves_of_step hstep)).2

/-- **The lock-free stack is an atomic stack.**  Every run of any threads that
push and pop and never free is matched by a path of the atomic stack, event for
event; and at its end every operation that can take effect has there the effect
of its atomic counterpart. -/
theorem stack_refines_atomic {as : List (ι × Act)}
    (h : Trace step (fun _ x => neverFrees x = true) init as s) :
    ∃ σ, Path AtomicStack.Step AtomicStack.empty (observe step shows init as) σ ∧
      Linearized s σ := by
  obtain ⟨σ, hpath, href⟩ :=
    h.simulate (fun _ _ _ _ hrel hok hstep => hrel.simulates_neverFrees hok hstep) refines_init
  exact ⟨σ, hpath, href.linearized⟩

/-- Thread `2` reads the `prev` of `100`; thread `1` pushes `101` above it and
pops `101` again; and only then does thread `2` pop. -/
def staleRead : List (ℕ × Act) :=
  [(0, .callPush 7), (0, .malloc 100 ⟨0, none⟩), (0, .storePayload), (0, .load), (0, .storePrev),
    (0, .cas false),
    (2, .callPop), (2, .load), (2, .readPrev),
    (1, .callPush 8), (1, .malloc 101 ⟨0, none⟩), (1, .storePayload), (1, .load), (1, .storePrev),
    (1, .cas false), (1, .callPop), (1, .load), (1, .readPrev), (1, .cas false), (1, .drop)]

/-- The atomic stack of a run in which a pop waits across a push and a pop. -/
theorem stack_refines_atomic_staleRead :
    ∃ s σ, Trace step (fun _ x => neverFrees x = true) init staleRead s ∧
      s.pc 2 = .popCas 100 none ∧ s.top = some 100 ∧
      Path AtomicStack.Step AtomicStack.empty (observe step shows init staleRead) σ ∧
      ∃ value, σ.stack = [(100, value)] := by
  obtain ⟨s, h, hp⟩ := Trace.exists_of_eval step (fun _ x => neverFrees x = true)
    (fun s => s.pc 2 = .popCas 100 none ∧ s.top = some 100) init staleRead (by decide)
  obtain ⟨hpc, htop⟩ := of_decide_eq_true hp
  obtain ⟨σ, hpath, hlin⟩ := stack_refines_atomic h
  obtain ⟨value, rest, hl, hrest, -⟩ := hlin.pop 2 100 none hpc htop
  rw [hrest.eq_nil] at hl
  exact ⟨s, σ, h, hpc, htop, hpath, value, hl⟩

end LockFree
end CaosSeminars
