import CaosSeminars.LockFree.Invariant

/-!
# Many producers, one consumer that frees

`stack.c` is used by `producer`, which pushes, and by `consumer`, which pops,
prints and frees.  Here any number of threads are producers and one thread `c` is
the consumer, `malloc` may hand out an address that the consumer has freed, and
compare-exchanges fail as they like.

An address can therefore come back while another thread still holds it as the
`top` it expects.  In `stack_push` that is harmless, as `Inv.casPush` shows.  In
`stack_pop` it would not be; what saves the consumer is that nobody else removes
nodes, so the node between its load and its compare-exchange is still published.
`Consumer` is the part of the invariant that says so.

* `oneConsumer` --- the callers: only `c` calls `stack_pop`, and it prints and frees nothing
  but what it has popped.
* `Consumer.preserves` --- one step keeps the consumer's part; `Consumer.careful` says that
  it is enough for `Inv`.
* `stack_conserves_nodes` --- in every run: no access to freed memory, and what was pushed
  is what was popped together with what is on the chain.
-/

namespace CaosSeminars
namespace LockFree

variable {ι : Type*} [DecidableEq ι]

/-- Thread `c` runs `consumer` and every other thread runs `producer`: only `c`
calls `stack_pop`, it calls again when it got `NULL`, and it frees every node it
got.  A call of `stack_pop` that saw an empty stack yields `NULL`. -/
def oneConsumer (c : ι) (s : State ι) (x : ι × Act) : Bool :=
  match x.2 with
  | .callPush _ => x.1 ≠ c
  | .callPop => x.1 = c
  | .fallOff ret => ret = none
  | .drop => s.pc x.1 = .popped none
  | _ => true

namespace Pc

/-- The node that `stack_pop` has handed to the thread. -/
def holds : Pc → Option Addr
  | .popped ret => ret
  | .printed node => some node
  | _ => none

theorem owned_of_mentions {pc : Pc} {a : Addr} (hpop : pc.popping = false)
    (ha : pc.mentions = some a) : pc.owned = some a := by
  cases pc <;> simp_all [popping, mentions, owned]

end Pc

/-- What holds of the consumer: nobody else is in `stack_pop`, and the node it
was handed is published and off the chain. -/
structure Consumer (c : ι) (l : List (Addr × ℤ)) (s : State ι) : Prop where
  others : ∀ t ≠ c, (s.pc t).popping = false
  held : ∀ a, (s.pc c).holds = some a → a ∈ s.published ∧ a ∉ l.map Prod.fst

variable {c : ι} {l l' : List (Addr × ℤ)} {s s' : State ι} {t : ι} {a : Act}

namespace Consumer

omit [DecidableEq ι] in
/-- A thread in `stack_pop` is the consumer. -/
theorem eq_of_popping (h : Consumer c l s) (hpop : (s.pc t).popping = true) : t = c := by
  by_contra hne
  rw [h.others t hne] at hpop
  exact Bool.false_ne_true hpop

omit [DecidableEq ι] in
theorem careful (h : Consumer c l s) (hinv : Inv l s) (t : ι) (a : Act) : Careful l s t a where
  print := by
    intro _ node hpc
    obtain rfl := h.eq_of_popping (t := t) (by rw [hpc]; rfl)
    exact (h.held node (by rw [hpc]; rfl)).1
  free := by
    intro _ node hpc
    obtain rfl := h.eq_of_popping (t := t) (by rw [hpc]; rfl)
    obtain ⟨hpub, hoff⟩ := h.held node (by rw [hpc]; rfl)
    refine ⟨hpub, hoff, fun u hu hment => ?_⟩
    have hown := Pc.owned_of_mentions (h.others u hu) hment
    exact ((hinv.threads u).of_owned hown).2 hpub

/-- Moving one thread.  A producer has to stay outside `stack_pop` and leave
published nodes published and off the chain; the consumer has to hold only such
a node. -/
theorem update (h : Consumer c l s) {pc' : Pc} (hpc : s'.pc = Function.update s.pc t pc')
    (hpop : t ≠ c → pc'.popping = false)
    (hself : t = c → ∀ b, pc'.holds = some b → b ∈ s'.published ∧ b ∉ l'.map Prod.fst)
    (hframe : t ≠ c → ∀ b, b ∈ s.published → b ∉ l.map Prod.fst →
      b ∈ s'.published ∧ b ∉ l'.map Prod.fst) : Consumer c l' s' := by
  refine ⟨fun u hu => ?_, fun b hb => ?_⟩
  · rw [hpc]
    by_cases hut : u = t
    · subst hut
      rw [Function.update_self]
      exact hpop hu
    · rw [Function.update_of_ne hut]
      exact h.others u hu
  · rw [hpc] at hb
    by_cases hct : t = c
    · subst hct
      rw [Function.update_self] at hb
      exact hself rfl b hb
    · rw [Function.update_of_ne (Ne.symm hct)] at hb
      exact hframe hct b (h.held b hb).1 (h.held b hb).2

/-- A step that only moves the thread, to a program point where it holds
nothing. -/
theorem goto (h : Consumer c l s) {pc' : Pc} (hpop : t ≠ c → pc'.popping = false)
    (hholds : pc'.holds = none) : Consumer c l (s.goto t pc') :=
  h.update rfl hpop (fun _ b hb => absurd (hholds.symm.trans hb) (by simp))
    fun _ _ hpub hoff => ⟨hpub, hoff⟩

omit [DecidableEq ι] in
theorem setNode (h : Consumer c l s) (node : Addr) (n : StackNode) :
    Consumer c l (s.setNode node n) :=
  ⟨h.others, h.held⟩

/-- **One step keeps the consumer's part of the invariant.** -/
theorem preserves {σ : AtomicStack ι Addr ℤ} (h : Consumer c σ.stack s) (href : Refines s σ)
    (hok : oneConsumer c s (t, a) = true) (hm : Moves s t a s') :
    Consumer c (match shows s (t, a) with | some e => e.effect σ.stack | none => σ.stack) s' := by
  have hinv := href.inv
  have hpopping : ∀ {pc : Pc}, s.pc t = pc → pc.popping = true → t = c := fun hpc hpop =>
    h.eq_of_popping (by rw [hpc]; exact hpop)
  have hcare := h.careful hinv t a
  cases hm with
  | callPush value hpc =>
    simp only [shows, hpc]
    exact h.goto (fun _ => rfl) rfl
  | malloc node junk hpc hfree =>
    simp only [shows, hpc]
    exact (h.setNode _ _).goto (fun _ => rfl) rfl
  | storePayload hpc hn =>
    simp only [shows, hpc]
    exact (h.setNode _ _).goto (fun _ => rfl) rfl
  | loadPush hpc =>
    simp only [shows, hpc]
    exact h.goto (fun _ => rfl) rfl
  | storePrev hpc hn =>
    simp only [shows, hpc]
    exact (h.setNode _ _).goto (fun _ => rfl) rfl
  | @casPush node value top hpc htop =>
    simp only [shows, hpc, htop, and_self, if_true]
    have hnode : node ∉ s.published :=
      ((hinv.threads t).of_owned (a := node) (by rw [hpc]; rfl)).2
    refine h.update rfl (fun _ => rfl) (fun _ b hb => absurd hb (by simp [Pc.holds])) ?_
    intro _ b hpub hoff
    refine ⟨Finset.mem_insert_of_mem hpub, ?_⟩
    rw [StackEvent.effect, List.map_cons, List.mem_cons, not_or]
    exact ⟨ne_of_mem_of_not_mem hpub hnode, hoff⟩
  | casPushFail spurious hpc hfail =>
    simp only [shows, hpc, if_neg hfail]
    exact h.goto (fun _ => rfl) rfl
  | callPop hpc =>
    simp only [shows, hpc]
    exact h.goto (fun hne => absurd (by simpa [oneConsumer] using hok) hne) rfl
  | loadPop hpc htop =>
    simp only [shows, hpc, htop]
    exact h.goto (fun hne => absurd (hpopping hpc rfl) hne) rfl
  | loadNull hpc htop =>
    simp only [shows, hpc, htop, if_true]
    exact h.goto (fun hne => absurd (hpopping hpc rfl) hne) rfl
  | readPrev hpc hn =>
    simp only [shows, hpc]
    exact h.goto (fun hne => absurd (hpopping hpc rfl) hne) rfl
  | @casPop top prev hpc htop =>
    obtain ⟨value, rest, hheap, hl, hrest⟩ := hinv.top_of_popCas hpc htop
    simp only [shows, hpc, htop, and_self, if_true, hheap, Option.map_some, StackEvent.effect]
    have hnodup := hinv.chain.nodup
    rw [hl, List.map_cons, List.nodup_cons] at hnodup
    refine h.update rfl (fun hne => absurd (hpopping hpc rfl) hne) ?_
      fun hne => absurd (hpopping hpc rfl) hne
    intro _ b hb
    obtain rfl := Option.some.inj hb
    exact ⟨hinv.published top (by simp [hl]), by rw [hl]; exact hnodup.1⟩
  | casPopFail spurious hpc hfail =>
    simp only [shows, hpc, if_neg hfail]
    exact h.goto (fun hne => absurd (hpopping hpc rfl) hne) rfl
  | fallOff ret hpc =>
    simp only [shows, hpc]
    have hret : ret = none := by simpa [oneConsumer] using hok
    exact h.goto (fun hne => absurd (hpopping hpc rfl) hne) hret
  | drop hpc =>
    simp only [shows, hpc]
    exact h.goto (fun _ => rfl) rfl
  | @print node n hpc hn =>
    simp only [shows, hpc]
    refine h.update rfl (fun hne => absurd (hpopping hpc rfl) hne) ?_
      fun hne => absurd (hpopping hpc rfl) hne
    intro htc b hb
    subst htc
    exact h.held b (by rw [hpc]; exact hb)
  | free hpc hn =>
    simp only [shows, hpc]
    exact h.update rfl (fun _ => rfl) (fun _ b hb => absurd hb (by simp [Pc.holds]))
      fun hne => absurd (hpopping hpc rfl) hne
  | writeFreed hpc hn =>
    exact absurd (href.simulates hcare (.writeFreed hpc hn)).1 (by simp [State.fault])
  | readFreed hpc hn =>
    exact absurd (href.simulates hcare (.readFreed hpc hn)).1 (by simp [State.fault])
  | doubleFree hpc hn =>
    exact absurd (href.simulates hcare (.doubleFree hpc hn)).1 (by simp [State.fault])

end Consumer

/-- The whole invariant of one consumer among producers. -/
structure Reclaims (c : ι) (s : State ι) (σ : AtomicStack ι Addr ℤ) : Prop where
  refines : Refines s σ
  consumer : Consumer c σ.stack s
  faults : s.faults = []

omit [DecidableEq ι] in
theorem reclaims_init (c : ι) : Reclaims c init AtomicStack.empty :=
  ⟨refines_init, ⟨fun _ _ => rfl, fun _ h => absurd h (by simp [init, Pc.holds])⟩, rfl⟩

theorem Reclaims.simulates {σ : AtomicStack ι Addr ℤ} (h : Reclaims c s σ)
    (hok : oneConsumer c s (t, a) = true) (hstep : step s (t, a) = some s') :
    (shows s (t, a) = none ∧ Reclaims c s' σ) ∨
      ∃ e τ, shows s (t, a) = some e ∧ AtomicStack.Step σ e τ ∧ Reclaims c s' τ := by
  have hm := moves_of_step hstep
  have hcons := h.consumer.preserves h.refines hok hm
  obtain ⟨hfaults, ⟨hshows, href⟩ | ⟨e, τ, hshows, hτ, href⟩⟩ :=
    h.refines.simulates (h.consumer.careful h.refines.inv t a) hm
  · rw [hshows] at hcons
    exact Or.inl ⟨hshows, href, hcons, hfaults.trans h.faults⟩
  · rw [hshows] at hcons
    refine Or.inr ⟨e, τ, hshows, hτ, href, ?_, hfaults.trans h.faults⟩
    rw [hτ.stack_eq]
    exact hcons

/-- Every run of producers and one consumer is a run of the atomic stack. -/
theorem reclaims_of_trace {as : List (ι × Act)}
    (h : Trace step (fun s x => oneConsumer c s x = true) init as s) :
    ∃ σ, Path AtomicStack.Step AtomicStack.empty (observe step shows init as) σ ∧
      Reclaims c s σ :=
  h.simulate (fun _ _ _ _ hrel hok hstep => hrel.simulates hok hstep) (reclaims_init c)

/-- **Producers and a consumer that frees.**  In every reachable state of every
interleaving the chain from `stack->top` is finite, acyclic and made of allocated
published nodes; the node whose `prev` is about to be read, and the node about to
be freed, are allocated, and no access has touched freed memory; and the payloads
of the pushes that took effect are those popped so far together with those on the
chain. -/
theorem stack_conserves_nodes (c : ι) {as : List (ι × Act)}
    (h : Trace step (fun s x => oneConsumer c s x = true) init as s) :
    ∃ l, Linked s.heap s.top l ∧ (l.map Prod.fst).Nodup ∧
      (∀ a ∈ l.map Prod.fst, s.heap a ≠ none ∧ a ∈ s.published) ∧
      (∀ t a, s.pc t = .popPrev a ∨ s.pc t = .printed a → s.heap a ≠ none) ∧
      s.faults = [] ∧
      (↑(pushedValues (observe step shows init as)) : Multiset ℤ) =
        ↑(poppedValues (observe step shows init as)) + ↑(l.map Prod.snd) := by
  obtain ⟨σ, hpath, hrec⟩ := reclaims_of_trace h
  have hinv := hrec.refines.inv
  refine ⟨σ.stack, hinv.chain, hinv.chain.nodup, ?_, ?_, hrec.faults, ?_⟩
  · intro a ha
    exact ⟨hinv.chain.heap_ne_none ha, hinv.published a ha⟩
  · rintro t a (hpc | hpc)
    · have hok := hinv.threads t
      rw [hpc] at hok
      exact hinv.alloc a hok
    · obtain rfl := hrec.consumer.eq_of_popping (t := t) (by rw [hpc]; rfl)
      exact hinv.alloc a (hrec.consumer.held a (by rw [hpc]; rfl)).1
  · have haccount := hpath.account
    rwa [show (AtomicStack.empty : AtomicStack ι Addr ℤ).stack = [] from rfl, List.map_nil,
      Multiset.coe_nil, add_zero] at haccount

/-- Thread `1` loads the top `100`; the consumer `2` pops, prints and frees it;
thread `0` gets `100` again from `malloc` and pushes it; and the compare-exchange
of thread `1` succeeds on the address it expected. -/
def addressReused : List (ℕ × Act) :=
  [(0, .callPush 7), (0, .malloc 100 ⟨0, none⟩), (0, .storePayload), (0, .load), (0, .storePrev),
    (0, .cas false),
    (1, .callPush 8), (1, .malloc 101 ⟨0, none⟩), (1, .storePayload), (1, .load), (1, .storePrev),
    (2, .callPop), (2, .load), (2, .readPrev), (2, .cas false), (2, .print), (2, .free),
    (0, .callPush 9), (0, .malloc 100 ⟨0, none⟩), (0, .storePayload), (0, .load), (0, .storePrev),
    (0, .cas false),
    (1, .cas false)]

/-- The chain after an address came back under a waiting compare-exchange. -/
theorem stack_conserves_nodes_addressReused :
    ∃ s, Trace step (fun s x => oneConsumer 2 s x = true) init addressReused s ∧
      s.top = some 101 ∧ ∃ l, Linked s.heap s.top l ∧ (l.map Prod.fst).Nodup ∧ s.faults = [] := by
  obtain ⟨s, h, htop⟩ := Trace.exists_of_eval step (fun s x => oneConsumer 2 s x = true)
    (fun s => s.top = some 101) init addressReused (by decide)
  obtain ⟨l, hl, hnodup, -, -, hfaults, -⟩ := stack_conserves_nodes 2 h
  exact ⟨s, h, of_decide_eq_true htop, l, hl, hnodup, hfaults⟩

end LockFree
end CaosSeminars
