import CaosSeminars.Library.Allocator
import CaosSeminars.LockFree.Reclamation

/-!
# `stack_destroy`, and where every node goes

When its threads have been joined, `main` frees what is left on the stack.  `stack_destroy`
reads `curr->prev`, frees `curr` and goes on with what it has read; memory that is touched
after it was freed is recorded in `faults`, as in `LockFree.Machine`.

The nodes that are allocated are those of a running `stack_push`, those on the chain, and the
one in the consumer's hand (`Accounted`).  Once all threads are idle only the chain is left,
and `stack_destroy` frees exactly that (`destroys_chain`).  Together with the frees of the
consumer each `malloc` has its one `free` (`Path.freedOnce`).

All this needs that the consumer frees only what it has popped, and so that a `stack_pop` that
found the stack empty yields `NULL` (`yieldsNull`), which nothing in the code says.

* `Accounted` --- the invariant; `Accounted.preserves` is one step, by the kind of the step.
* `Balanced.simulates` --- a step of the program is a step of the allocator of
  `Library.Allocator`, or leaves it alone.
* `frees_exactly_once` --- in every run that ends with all threads idle: `stack_destroy`
  comes to its end without a fault, nothing is allocated after it, and every `malloc` has
  had its one `free`.
* `destroy_reads_freed` --- a run in which `stack_pop` gives back something else, and
  `stack_destroy` reads a node that was freed.
-/

namespace CaosSeminars
namespace LockFree

variable {ι : Type*}

/-- The calls of any number of `producer`s and of the one `consumer` `c`, which calls
`stack_pop` again when it got `NULL`, and frees every node it got. -/
def callsOf [DecidableEq ι] (c : ι) (s : State ι) (x : ι × Act) : Bool :=
  match x.2 with
  | .callPush _ => x.1 ≠ c
  | .callPop => x.1 = c
  | .drop => s.pc x.1 = .popped none
  | _ => true

/-- A call of `stack_pop` that saw an empty stack yields `NULL`. -/
def Act.yieldsNull : Act → Bool
  | .fallOff ret => ret = none
  | _ => true

/-- What a step hands out or takes back. -/
def heapEvent (s : State ι) (x : ι × Act) : Option (AllocEvent Addr) :=
  match s.pc x.1, x.2 with
  | .pushMalloc _, .malloc node _ => some (.malloc node)
  | .printed node, .free => some (.free node)
  | _, _ => none

/-! ## `stack_destroy` -/

/-- The program points of `stack_destroy`. -/
inductive DestroyPc where
  /-- The condition of its loop comes next. -/
  | test (curr : Option Addr)
  /-- `prev = curr->prev` comes next. -/
  | readPrev (curr : Addr)
  /-- `free(curr)` comes next. -/
  | free (curr : Addr) (prev : Option Addr)
  | done
  /-- It has touched memory that is not allocated. -/
  | crashed
  deriving DecidableEq

/-- The heap under `stack_destroy`, and what it has freed so far. -/
structure Destroying where
  pc : DestroyPc
  heap : Addr → Option StackNode
  freed : List Addr
  faults : List Fault

/-- One access of `stack_destroy`. -/
def Destroying.step (d : Destroying) : Destroying :=
  match d.pc with
  | .test none => { d with pc := .done }
  | .test (some curr) => { d with pc := .readPrev curr }
  | .readPrev curr =>
    match d.heap curr with
    | some n => { d with pc := .free curr n.prev }
    | none => { d with pc := .crashed, faults := d.faults ++ [.readFreed curr] }
  | .free curr prev =>
    match d.heap curr with
    | some _ =>
      { d with
        pc := .test prev
        heap := Function.update d.heap curr none
        freed := d.freed ++ [curr] }
    | none => { d with pc := .crashed, faults := d.faults ++ [.doubleFree curr] }
  | .done | .crashed => d

/-- The call of `stack_destroy`: `curr = stack->top`. -/
def stackDestroy (s : State ι) : Destroying := ⟨.test s.top, s.heap, [], []⟩

/-- **`stack_destroy` frees a chain**, node by node. -/
theorem destroys_chain {heap : Addr → Option StackNode} {top : Option Addr}
    {l : List (Addr × ℤ)} (h : Linked heap top l) (freed : List Addr) :
    ∃ k heap', Destroying.step^[k] ⟨.test top, heap, freed, []⟩ =
        ⟨.done, heap', freed ++ l.map Prod.fst, []⟩ ∧
      (∀ a ∈ l.map Prod.fst, heap' a = none) ∧ ∀ a ∉ l.map Prod.fst, heap' a = heap a := by
  induction l generalizing heap top freed with
  | nil =>
    obtain rfl := h.eq_none
    refine ⟨1, heap, ?_, List.forall_mem_nil _, fun _ _ => rfl⟩
    simp [Destroying.step]
  | cons node l ih =>
    have hnodup := h.nodup
    cases h with
    | @cons a n _ hn hrest =>
      rw [List.map_cons, List.nodup_cons] at hnodup
      obtain ⟨k, heap', hrun, hfreed, hkept⟩ := ih (hrest.update hnodup.1 none) (freed ++ [a])
      have hturn : Destroying.step^[3] ⟨.test (some a), heap, freed, []⟩ =
          ⟨.test n.prev, Function.update heap a none, freed ++ [a], []⟩ := by
        simp [Destroying.step, hn]
      refine ⟨k + 3, heap', ?_, List.forall_mem_cons.mpr ⟨?_, hfreed⟩, fun b hb => ?_⟩
      · rw [Function.iterate_add_apply, hturn, hrun, List.append_assoc, List.singleton_append,
          List.map_cons]
      · rw [hkept a hnodup.1, Function.update_self]
      · rw [List.map_cons, List.mem_cons, not_or] at hb
        rw [hkept b hb.2, Function.update_of_ne hb.1]

/-! ## Where the allocated nodes are -/

/-- Every allocated node belongs to a running `stack_push`, or is published; and a published
node is on the chain `l` or in the consumer's hand. -/
structure Accounted (c : ι) (l : List (Addr × ℤ)) (s : State ι) : Prop where
  allocated : ∀ a, s.heap a ≠ none → (∃ t, (s.pc t).owned = some a) ∨ a ∈ s.published
  published : ∀ a ∈ s.published, a ∈ l.map Prod.fst ∨ (s.pc c).holds = some a

theorem accounted_init (c : ι) : Accounted c [] (init : State ι) :=
  ⟨fun _ ha => absurd rfl ha, fun a ha => absurd ha (Finset.notMem_empty a)⟩

variable [DecidableEq ι] {c t : ι} {l l' : List (Addr × ℤ)} {s s' : State ι} {a : Act}

omit [DecidableEq ι] in
/-- A program that calls only this way, on a `stack_pop` that yields `NULL`. -/
theorem oneConsumer_of_callsOf [DecidableEq ι] {x : ι × Act} (hcalls : callsOf c s x = true)
    (hnull : x.2.yieldsNull = true) : oneConsumer c s x = true := by
  obtain ⟨t, a⟩ := x
  cases a <;> simp_all [callsOf, oneConsumer, Act.yieldsNull]

namespace Accounted

/-- Moving one thread.  What it owned it owns or has published; what it has allocated it owns;
and a published node that leaves the chain or its hand comes into its hand or is freed. -/
theorem update (h : Accounted c l s) {pc' : Pc} (hpc : s'.pc = Function.update s.pc t pc')
    (howned : ∀ b, (s.pc t).owned = some b → pc'.owned = some b ∨ b ∈ s'.published)
    (hheap : ∀ b, s'.heap b ≠ none → pc'.owned = some b ∨
      (s.heap b ≠ none ∧ (b ∈ s.published → b ∈ s'.published)))
    (hchain : ∀ b ∈ s'.published, b ∉ l'.map Prod.fst → b ∈ s.published ∧
      (b ∈ l.map Prod.fst → t = c ∧ pc'.holds = some b))
    (hholds : t = c → ∀ b ∈ s'.published, (s.pc t).holds = some b →
      b ∈ l'.map Prod.fst ∨ pc'.holds = some b) : Accounted c l' s' := by
  have hself : s'.pc t = pc' := by rw [hpc, Function.update_self]
  have hother : ∀ u ≠ t, s'.pc u = s.pc u := fun u hu => by rw [hpc, Function.update_of_ne hu]
  refine ⟨fun b hb => ?_, fun b hb => ?_⟩
  · rcases hheap b hb with hown | ⟨hb', hpub⟩
    · exact Or.inl ⟨t, by rw [hself, hown]⟩
    · rcases h.allocated b hb' with ⟨u, hu⟩ | hmem
      · by_cases hut : u = t
        · subst hut
          exact (howned b hu).imp_left fun hown => ⟨u, by rw [hself, hown]⟩
        · exact Or.inl ⟨u, by rw [hother u hut, hu]⟩
      · exact Or.inr (hpub hmem)
  · by_cases hmem : b ∈ l'.map Prod.fst
    · exact Or.inl hmem
    · obtain ⟨hpub, hleft⟩ := hchain b hb hmem
      rcases h.published b hpub with hmem' | hheld
      · obtain ⟨rfl, hnow⟩ := hleft hmem'
        exact Or.inr (by rw [hself, hnow])
      · by_cases hct : t = c
        · subst hct
          rw [hself]
          exact hholds rfl b hb hheld
        · exact Or.inr (by rw [hother c (Ne.symm hct), hheld])

/-- A step that moves one thread and touches neither the chain nor what is allocated. -/
theorem move (h : Accounted c l s) {pc' : Pc} (hpc : s'.pc = Function.update s.pc t pc')
    (hheap : ∀ b, s'.heap b ≠ none → s.heap b ≠ none) (hpublished : s'.published = s.published)
    (howned : ∀ b, (s.pc t).owned = some b → pc'.owned = some b)
    (hholds : ∀ b, (s.pc t).holds = some b → pc'.holds = some b) : Accounted c l s' := by
  refine h.update hpc (fun b hb => Or.inl (howned b hb)) (fun b hb => Or.inr ⟨hheap b hb, ?_⟩)
    (fun b hb hoff => ?_) fun _ b _ hb => Or.inr (hholds b hb)
  · rw [hpublished]
    exact id
  · rw [hpublished] at hb
    exact ⟨hb, fun hon => absurd hon hoff⟩

theorem goto (h : Accounted c l s) {p : Pc}
    (howned : ∀ b, (s.pc t).owned = some b → p.owned = some b)
    (hholds : ∀ b, (s.pc t).holds = some b → p.holds = some b) : Accounted c l (s.goto t p) :=
  h.move rfl (fun _ hb => hb) rfl howned hholds

omit [DecidableEq ι] in
theorem heap_of_store {node : Addr} {n n' : StackNode} (hn : s.heap node = some n) (b : Addr)
    (hb : (s.setNode node n').heap b ≠ none) : s.heap b ≠ none := by
  by_cases hbn : b = node
  · rw [hbn, hn]
    exact Option.some_ne_none n
  · rwa [State.setNode_heap, Function.update_of_ne hbn] at hb

/-- **What one step preserves**, the chain being `l` before it and `l'` after it. -/
theorem preserves {σ : AtomicStack ι Addr ℤ} (h : Accounted c σ.stack s) (hrec : Reclaims c s σ)
    (hok : oneConsumer c s (t, a) = true) (hm : Moves s t a s') (hfaults : s'.faults = []) :
    Accounted c (match shows s (t, a) with | some e => e.effect σ.stack | none => σ.stack) s' := by
  have hinv := hrec.refines.inv
  have hpopping : ∀ {pc : Pc}, s.pc t = pc → pc.popping = true → t = c := fun hpc hpop =>
    hrec.consumer.eq_of_popping (by rw [hpc]; exact hpop)
  cases hm with
  | callPush value hpc =>
    simp only [shows, hpc]
    exact h.goto (by simp [hpc, Pc.owned]) (by simp [hpc, Pc.holds])
  | @malloc value node junk hpc hfree =>
    simp only [shows, hpc]
    refine h.update rfl (by simp [hpc, Pc.owned]) (fun b hb => ?_)
      (fun b hb hoff => ⟨hb, fun hon => absurd hon hoff⟩) (by simp [hpc, Pc.holds])
    by_cases hbn : b = node
    · exact Or.inl (by rw [hbn]; rfl)
    · refine Or.inr ⟨?_, id⟩
      rwa [State.goto_heap, State.setNode_heap, Function.update_of_ne hbn] at hb
  | @storePayload node value n hpc hn =>
    simp only [shows, hpc]
    exact h.move rfl (heap_of_store hn) rfl (by simp [hpc, Pc.owned]) (by simp [hpc, Pc.holds])
  | loadPush hpc =>
    simp only [shows, hpc]
    exact h.goto (by simp [hpc, Pc.owned]) (by simp [hpc, Pc.holds])
  | storePrev hpc hn =>
    simp only [shows, hpc]
    exact h.move rfl (heap_of_store hn) rfl (by simp [hpc, Pc.owned]) (by simp [hpc, Pc.holds])
  | @casPush node value top hpc htop =>
    simp only [shows, hpc, htop, and_self, if_true, StackEvent.effect]
    refine h.update rfl (fun b hb => Or.inr ?_)
      (fun b hb => Or.inr ⟨hb, Finset.mem_insert_of_mem⟩) (fun b hb hoff => ?_)
      (by simp [hpc, Pc.holds])
    · rw [hpc] at hb
      obtain rfl := Option.some.inj hb
      exact Finset.mem_insert_self _ _
    · rw [List.map_cons, List.mem_cons, not_or] at hoff
      exact ⟨Finset.mem_of_mem_insert_of_ne hb hoff.1, fun hon => absurd hon hoff.2⟩
  | casPushFail spurious hpc hfail =>
    simp only [shows, hpc, if_neg hfail]
    exact h.goto (by simp [hpc, Pc.owned]) (by simp [hpc, Pc.holds])
  | callPop hpc =>
    simp only [shows, hpc]
    exact h.goto (by simp [hpc, Pc.owned]) (by simp [hpc, Pc.holds])
  | loadPop hpc htop =>
    simp only [shows, hpc, htop]
    exact h.goto (by simp [hpc, Pc.owned]) (by simp [hpc, Pc.holds])
  | loadNull hpc htop =>
    simp only [shows, hpc, htop, if_true]
    exact h.goto (by simp [hpc, Pc.owned]) (by simp [hpc, Pc.holds])
  | readPrev hpc hn =>
    simp only [shows, hpc]
    exact h.goto (by simp [hpc, Pc.owned]) (by simp [hpc, Pc.holds])
  | @casPop top prev hpc htop =>
    obtain ⟨value, rest, hheap, hl, hrest⟩ := hinv.top_of_popCas hpc htop
    simp only [shows, hpc, htop, and_self, if_true, hheap, Option.map_some, StackEvent.effect]
    refine h.update rfl (by simp [hpc, Pc.owned]) (fun b hb => Or.inr ⟨hb, id⟩)
      (fun b hb hoff => ⟨hb, fun hon => ⟨hpopping hpc rfl, ?_⟩⟩) (by simp [hpc, Pc.holds])
    rw [hl] at hon hoff
    rcases List.mem_cons.mp hon with rfl | hon
    · rfl
    · exact absurd hon hoff
  | casPopFail spurious hpc hfail =>
    simp only [shows, hpc, if_neg hfail]
    exact h.goto (by simp [hpc, Pc.owned]) (by simp [hpc, Pc.holds])
  | fallOff ret hpc =>
    simp only [shows, hpc]
    exact h.goto (by simp [hpc, Pc.owned]) (by simp [hpc, Pc.holds])
  | @drop ret hpc =>
    simp only [shows, hpc]
    obtain rfl : ret = none := by simpa [oneConsumer, hpc] using hok
    exact h.goto (by simp [hpc, Pc.owned]) (by simp [hpc, Pc.holds])
  | @print node n hpc hn =>
    simp only [shows, hpc]
    exact h.move rfl (fun _ hb => hb) rfl (by simp [hpc, Pc.owned]) (by simp [hpc, Pc.holds])
  | @free node n hpc hn =>
    simp only [shows, hpc]
    refine h.update rfl (by simp [hpc, Pc.owned]) (fun b hb => Or.inr ?_) (fun b hb hoff => ?_)
      fun _ b hb hheld => ?_
    · have hbn : b ≠ node := fun hbn => hb (by rw [hbn]; exact Function.update_self _ _ _)
      rw [State.goto_heap, State.release_heap, Function.update_of_ne hbn] at hb
      exact ⟨hb, fun hpub => Finset.mem_erase.mpr ⟨hbn, hpub⟩⟩
    · exact ⟨Finset.mem_of_mem_erase hb, fun hon => absurd hon hoff⟩
    · rw [hpc] at hheld
      obtain rfl := Option.some.inj hheld
      exact absurd rfl (Finset.ne_of_mem_erase hb)
  | writeFreed hpc hn => simp [State.fault] at hfaults
  | readFreed hpc hn => simp [State.fault] at hfaults
  | doubleFree hpc hn => simp [State.fault] at hfaults

end Accounted

/-! ## What is handed out and taken back -/

/-- The addresses that are allocated. -/
def State.allocated (s : State ι) : Set Addr := {b | s.heap b ≠ none}

theorem allocated_of_store {node : Addr} {n n' : StackNode} (hn : s.heap node = some n) {pc : Pc} :
    ((s.setNode node n').goto t pc).allocated = s.allocated := by
  ext b
  refine not_congr ?_
  by_cases hb : b = node
  · simp [hb, hn]
  · rw [State.goto_heap, State.setNode_heap, Function.update_of_ne hb]

/-- **A step without a fault is a step of the allocator**, or leaves it alone. -/
theorem allocStep_of_moves (hm : Moves s t a s') (hfaults : s'.faults = s.faults) :
    (heapEvent s (t, a) = none ∧ s'.allocated = s.allocated) ∨
      ∃ e, heapEvent s (t, a) = some e ∧ AllocStep s.allocated e s'.allocated := by
  cases hm with
  | @malloc value node junk hpc hfree =>
    refine Or.inr ⟨.malloc node, by simp [heapEvent, hpc], ?_⟩
    have hallocated : ((s.setNode node junk).goto t (.pushPayload node value)).allocated =
        insert node s.allocated := by
      ext b
      by_cases hb : b = node
      · simp [State.allocated, hb]
      · simp [State.allocated, hb]
    rw [hallocated]
    exact AllocStep.malloc fun hmem => hmem hfree
  | @free node n hpc hn =>
    refine Or.inr ⟨.free node, by simp [heapEvent, hpc], ?_⟩
    have hallocated : ((s.release node).goto t .idle).allocated = s.allocated \ {node} := by
      ext b
      by_cases hb : b = node
      · simp [State.allocated, hb]
      · simp [State.allocated, hb]
    rw [hallocated]
    exact AllocStep.free (by simp [State.allocated, hn])
  | storePayload hpc hn =>
    exact Or.inl ⟨by simp [heapEvent, hpc], allocated_of_store hn⟩
  | storePrev hpc hn =>
    exact Or.inl ⟨by simp [heapEvent, hpc], allocated_of_store hn⟩
  | writeFreed hpc hn => simp [State.fault, State.goto] at hfaults
  | readFreed hpc hn => simp [State.fault, State.goto] at hfaults
  | doubleFree hpc hn => simp [State.fault, State.goto] at hfaults
  | callPush value hpc => exact Or.inl ⟨by simp [heapEvent, hpc], rfl⟩
  | loadPush hpc => exact Or.inl ⟨by simp [heapEvent, hpc], rfl⟩
  | casPush hpc htop => exact Or.inl ⟨by simp [heapEvent, hpc], rfl⟩
  | casPushFail spurious hpc hfail => exact Or.inl ⟨by simp [heapEvent, hpc], rfl⟩
  | callPop hpc => exact Or.inl ⟨by simp [heapEvent, hpc], rfl⟩
  | loadPop hpc htop => exact Or.inl ⟨by simp [heapEvent, hpc], rfl⟩
  | loadNull hpc htop => exact Or.inl ⟨by simp [heapEvent, hpc], rfl⟩
  | readPrev hpc hn => exact Or.inl ⟨by simp [heapEvent, hpc], rfl⟩
  | casPop hpc htop => exact Or.inl ⟨by simp [heapEvent, hpc], rfl⟩
  | casPopFail spurious hpc hfail => exact Or.inl ⟨by simp [heapEvent, hpc], rfl⟩
  | fallOff ret hpc => exact Or.inl ⟨by simp [heapEvent, hpc], rfl⟩
  | drop hpc => exact Or.inl ⟨by simp [heapEvent, hpc], rfl⟩
  | print hpc hn => exact Or.inl ⟨by simp [heapEvent, hpc], rfl⟩

theorem path_of_frees {σ : Set Addr} {freed : List Addr} (hnodup : freed.Nodup)
    (hmem : ∀ b, b ∈ freed ↔ b ∈ σ) : Path AllocStep σ (freed.map AllocEvent.free) ∅ := by
  induction freed generalizing σ with
  | nil =>
    obtain rfl : σ = ∅ := Set.eq_empty_iff_forall_notMem.mpr fun b hb =>
      List.not_mem_nil ((hmem b).mpr hb)
    exact Path.nil ∅
  | cons b freed ih =>
    rw [List.nodup_cons] at hnodup
    refine Path.cons (AllocStep.free ((hmem b).mp List.mem_cons_self)) (ih hnodup.2 fun b' => ?_)
    rw [Set.mem_sdiff, Set.mem_singleton_iff, ← hmem b', List.mem_cons]
    constructor
    · intro hb'
      exact ⟨Or.inr hb', ne_of_mem_of_not_mem hb' hnodup.1⟩
    · rintro ⟨hb', hne⟩
      exact hb'.resolve_left hne

/-- The invariant of one consumer among producers, with the nodes accounted for; the allocator
knows what is allocated. -/
structure Balanced (c : ι) (s : State ι) (σ : Set Addr) : Prop where
  reclaims : ∃ τ, Reclaims c s τ ∧ Accounted c τ.stack s
  allocated : s.allocated = σ

omit [DecidableEq ι] in
theorem balanced_init (c : ι) : Balanced c (init : State ι) ∅ where
  reclaims := ⟨AtomicStack.empty, reclaims_init c, accounted_init c⟩
  allocated := by simp [State.allocated, init]

theorem Balanced.simulates {σ : Set Addr} (h : Balanced c s σ)
    (hok : oneConsumer c s (t, a) = true) (hstep : step s (t, a) = some s') :
    (heapEvent s (t, a) = none ∧ Balanced c s' σ) ∨
      ∃ e τ, heapEvent s (t, a) = some e ∧ AllocStep σ e τ ∧ Balanced c s' τ := by
  obtain ⟨⟨ρ, hrec, hacc⟩, rfl⟩ := h
  have hm := moves_of_step hstep
  have hnext : ∃ ρ', Reclaims c s' ρ' ∧ Accounted c ρ'.stack s' := by
    rcases hrec.simulates hok hstep with ⟨hshows, hrec'⟩ | ⟨e, ρ', hshows, hρ, hrec'⟩
    · have hacc' := hacc.preserves hrec hok hm hrec'.faults
      rw [hshows] at hacc'
      exact ⟨ρ, hrec', hacc'⟩
    · have hacc' := hacc.preserves hrec hok hm hrec'.faults
      rw [hshows] at hacc'
      refine ⟨ρ', hrec', ?_⟩
      rw [hρ.stack_eq]
      exact hacc'
  have hfaults : s'.faults = s.faults := by
    obtain ⟨ρ', hrec', -⟩ := hnext
    rw [hrec'.faults, hrec.faults]
  rcases allocStep_of_moves hm hfaults with ⟨hevent, hsame⟩ | ⟨e, hevent, halloc⟩
  · exact Or.inl ⟨hevent, hnext, hsame⟩
  · exact Or.inr ⟨e, _, hevent, halloc, hnext, rfl⟩

/-- **No memory of the stack is leaked or freed twice**, when a `stack_pop` that found the stack
empty yields `NULL`.  Once all threads are idle, `stack_destroy` comes to its end, having
touched no freed memory; it has freed exactly the nodes on the chain, each once; and in the
whole run each `malloc` has its one `free`, by the consumer or by `stack_destroy`. -/
theorem frees_exactly_once (c : ι) {as : List (ι × Act)}
    (h : Trace step (fun s x => callsOf c s x = true ∧ x.2.yieldsNull = true) init as s)
    (hjoined : ∀ t, s.pc t = .idle) :
    s.faults = [] ∧ ∃ l k heap, Linked s.heap s.top l ∧ (l.map Prod.fst).Nodup ∧
      Destroying.step^[k] (stackDestroy s) = ⟨.done, heap, l.map Prod.fst, []⟩ ∧
      (∀ b, heap b = none) ∧
      ∀ b, ∃ j, (observe step heapEvent init as ++ (l.map Prod.fst).map AllocEvent.free).filter
        (fun e => e.addr = b) = inTurn b j := by
  have hrun : Trace step (fun s x => oneConsumer c s x = true) init as s :=
    h.mono fun _ _ hok => oneConsumer_of_callsOf hok.1 hok.2
  obtain ⟨σ, hpath, ⟨ρ, hrec, hacc⟩, rfl⟩ :=
    hrun.simulate (fun _ _ _ _ hrel hok hstep => hrel.simulates hok hstep) (balanced_init c)
  have hinv := hrec.refines.inv
  have hchain : ∀ b, b ∈ ρ.stack.map Prod.fst ↔ b ∈ s.allocated := fun b => by
    constructor
    · exact fun hb => hinv.alloc b (hinv.published b hb)
    · intro hb
      rcases hacc.allocated b hb with ⟨t, ht⟩ | hpub
      · rw [hjoined t] at ht
        cases ht
      · refine (hacc.published b hpub).resolve_right fun hheld => ?_
        rw [hjoined c] at hheld
        cases hheld
  obtain ⟨k, heap, hdestroy, hfreed, hkept⟩ := destroys_chain hinv.chain []
  refine ⟨hrec.faults, ρ.stack, k, heap, hinv.chain, hinv.chain.nodup, hdestroy, fun b => ?_,
    fun b => ?_⟩
  · by_cases hb : b ∈ ρ.stack.map Prod.fst
    · exact hfreed b hb
    · rw [hkept b hb]
      by_contra hne
      exact hb ((hchain b).mpr hne)
  · obtain ⟨j, -, hturn⟩ := (hpath.append (path_of_frees hinv.chain.nodup hchain)).freedOnce
      (Set.notMem_empty b)
    exact ⟨j, hturn (Set.notMem_empty b)⟩

/-- A call of `stack_push`, undisturbed. -/
def pushAlone (t : Fin 2) (node : Addr) (value : ℤ) : List (Fin 2 × Act) :=
  [.callPush value, .malloc node ⟨0, none⟩, .storePayload, .load, .storePrev, .cas false].map
    fun a => (t, a)

/-- The first of two threads. -/
def producer : Fin 2 := ⟨0, Nat.two_pos⟩

/-- The second of two threads. -/
def consumer : Fin 2 := ⟨1, Nat.one_lt_two⟩

/-- The consumer takes one of two nodes, whose address comes back. -/
def leftOver : List (Fin 2 × Act) :=
  pushAlone producer 101 7 ++ pushAlone producer 100 8 ++
    [.callPop, .load, .readPrev, .cas false, .print, .free].map (fun a => (consumer, a)) ++
    pushAlone producer 100 9

/-- Two nodes are left to `stack_destroy`. -/
theorem frees_exactly_once_leftOver :
    ∃ s k heap, Trace step (fun s x => callsOf 1 s x = true ∧ x.2.yieldsNull = true) init
        leftOver s ∧
      Destroying.step^[k] (stackDestroy s) = ⟨.done, heap, [100, 101], []⟩ := by
  obtain ⟨s, h, htest⟩ := Trace.exists_of_eval step
    (fun s x => callsOf 1 s x = true ∧ x.2.yieldsNull = true)
    (fun s => (∀ t, s.pc t = .idle) ∧ s.top = some 100 ∧ s.heap 100 = some ⟨9, some 101⟩ ∧
      s.heap 101 = some ⟨7, none⟩) init leftOver (by decide +kernel)
  obtain ⟨hjoined, htop, hfirst, hsecond⟩ := of_decide_eq_true htest
  obtain ⟨-, l, k, heap, hchain, -, hdestroy, -⟩ := frees_exactly_once 1 h hjoined
  have hl : l = [(100, 9), (101, 7)] := by
    rw [htop] at hchain
    exact hchain.unique (Chain.cons hfirst (Chain.cons hsecond Chain.nil))
  rw [hl] at hdestroy
  exact ⟨s, k, heap, h, hdestroy⟩

/-- The consumer finds the stack empty and goes on with the address `100`, which the producer
then gets from `malloc` and pushes. -/
def wrongFree : List (Fin 2 × Act) :=
  [(consumer, .callPop), (consumer, .load), (consumer, .fallOff (some 100))] ++
    pushAlone producer 100 7 ++ [(consumer, .print), (consumer, .free)]

/-- **The consumer has freed the node on the chain**, and `stack_destroy` reads its `prev`. -/
theorem destroy_reads_freed :
    ∃ s, Trace step (fun s x => callsOf 1 s x = true) init wrongFree s ∧
      (∀ t, s.pc t = .idle) ∧ s.top = some 100 ∧
      (Destroying.step^[2] (stackDestroy s)).pc = .crashed ∧
      (Destroying.step^[2] (stackDestroy s)).faults = [.readFreed 100] := by
  obtain ⟨s, h, htest⟩ := Trace.exists_of_eval step (fun s x => callsOf 1 s x = true)
    (fun s => (∀ t, s.pc t = .idle) ∧ s.top = some 100 ∧
      (Destroying.step^[2] (stackDestroy s)).pc = .crashed ∧
      (Destroying.step^[2] (stackDestroy s)).faults = [.readFreed 100]) init wrongFree
    (by decide +kernel)
  exact ⟨s, h, of_decide_eq_true htest⟩

end LockFree
end CaosSeminars
