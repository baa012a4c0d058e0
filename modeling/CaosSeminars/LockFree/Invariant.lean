import CaosSeminars.LockFree.Machine

/-!
# What every interleaving of the lock-free stack keeps

The invariant speaks of a list `l` of nodes and payloads: following `prev` from
`stack->top` visits exactly `l`.  Around it stand three kinds of facts.

* A node that is *owned* --- allocated by a running `stack_push` and not yet
  published --- belongs to one thread, and holds what that thread has stored
  there so far.
* A node that is *published* is never written again.  So the `prev` that
  `stack_pop` read long before its compare-exchange is still the node's `prev`
  when the compare-exchange succeeds.
* A compare-exchange that succeeds has seen `stack->top` equal to the value it
  expected *now*.  For `stack_push` that is all that is needed, whatever happened
  to the address in between: `node->prev` holds the current top.

The invariant does not say who may pop or free.  What it needs from the callers
is collected in `Careful`: a node that is printed is published, and a node that
is freed is published, off the chain, and in no other thread's hands.

`Refines` adds the operation each thread is in, and `Refines.simulates` is the forward
simulation of one step by the atomic stack of `Library.AtomicStack`.

* `PcOk` --- what is known at one program point; `PcOk.frame` says that a thread does not
  notice what others do to their own nodes.
* `Inv.casPush`, `Inv.casPop` --- the two steps that change the chain.
* `Inv.storePayload`, `Inv.loadPush`, `Inv.storePrev`, `Inv.free` and the rest --- one lemma
  for each other step, which leaves the chain alone.
* `Refines.simulates` --- the simulation, which `LockFree.Linearizable` and
  `LockFree.Reclamation` use with different callers.
-/

namespace CaosSeminars
namespace LockFree

variable {ι : Type*}

/-! ## Program points -/

namespace Pc

/-- The node that the thread has allocated and not yet published. -/
def owned : Pc → Option Addr
  | .pushPayload node _ | .pushLoad node _ | .pushPrev node _ _ | .pushCas node _ _ => some node
  | _ => none

/-- The node that the thread will access inside its operation. -/
def mentions : Pc → Option Addr
  | .pushPayload node _ | .pushLoad node _ | .pushPrev node _ _ | .pushCas node _ _ => some node
  | .popPrev top | .popCas top _ => some top
  | _ => none

/-- The operation the thread is in, until it takes effect. -/
def status : Pc → OpStatus ℤ
  | .pushMalloc value | .pushPayload _ value | .pushLoad _ value | .pushPrev _ value _
  | .pushCas _ value _ => .pushing value
  | .popLoad | .popPrev _ | .popCas _ _ => .popping
  | _ => .idle

/-- Inside `stack_pop`, or holding its result. -/
def popping : Pc → Bool
  | .popLoad | .popPrev _ | .popCas _ _ | .popEnd | .popped _ | .printed _ => true
  | _ => false

theorem mentions_of_owned {pc : Pc} {a : Addr} (h : pc.owned = some a) : pc.mentions = some a := by
  cases pc <;> simp_all [owned, mentions]

end Pc

/-- What a program point promises about the memory it works on. -/
def PcOk (heap : Addr → Option StackNode) (published : Finset Addr) : Pc → Prop
  | .pushPayload node _ => heap node ≠ none ∧ node ∉ published
  | .pushLoad node value | .pushPrev node value _ =>
    (∃ prev, heap node = some ⟨value, prev⟩) ∧ node ∉ published
  | .pushCas node value top => heap node = some ⟨value, top⟩ ∧ node ∉ published
  | .popPrev top => top ∈ published
  | .popCas top prev => top ∈ published ∧ ∃ value, heap top = some ⟨value, prev⟩
  | .crashed => False
  | _ => True

section PcOk

variable {heap heap' : Addr → Option StackNode} {published published' : Finset Addr} {pc : Pc}

theorem PcOk.of_owned {a : Addr} (h : PcOk heap published pc) (ha : pc.owned = some a) :
    heap a ≠ none ∧ a ∉ published := by
  cases pc with
  | pushPayload node value =>
    obtain rfl := Option.some.inj ha
    exact h
  | pushLoad node value =>
    obtain rfl := Option.some.inj ha
    obtain ⟨⟨prev, hprev⟩, hpub⟩ := h
    exact ⟨by simp [hprev], hpub⟩
  | pushPrev node value top =>
    obtain rfl := Option.some.inj ha
    obtain ⟨⟨prev, hprev⟩, hpub⟩ := h
    exact ⟨by simp [hprev], hpub⟩
  | pushCas node value top =>
    obtain rfl := Option.some.inj ha
    obtain ⟨hnode, hpub⟩ := h
    exact ⟨by simp [hnode], hpub⟩
  | _ => exact absurd ha (by simp [Pc.owned])

/-- A node that is mentioned is owned or published. -/
theorem PcOk.owned_or_published {a : Addr} (h : PcOk heap published pc)
    (ha : pc.mentions = some a) : pc.owned = some a ∨ a ∈ published := by
  cases pc with
  | popPrev top =>
    obtain rfl := Option.some.inj ha
    exact Or.inr h
  | popCas top prev =>
    obtain rfl := Option.some.inj ha
    exact Or.inr h.1
  | _ => exact Or.inl ha

/-- **The frame rule for a program point**: it only depends on the node it
mentions. -/
theorem PcOk.frame (h : PcOk heap published pc)
    (hframe : ∀ a, pc.mentions = some a →
      heap' a = heap a ∧ (a ∈ published' ↔ a ∈ published)) :
    PcOk heap' published' pc := by
  cases pc with
  | pushPayload node value =>
    obtain ⟨hheap, hpub⟩ := hframe node rfl
    exact ⟨hheap ▸ h.1, fun hn => h.2 (hpub.mp hn)⟩
  | pushLoad node value =>
    obtain ⟨hheap, hpub⟩ := hframe node rfl
    exact ⟨hheap.symm ▸ h.1, fun hn => h.2 (hpub.mp hn)⟩
  | pushPrev node value top =>
    obtain ⟨hheap, hpub⟩ := hframe node rfl
    exact ⟨hheap.symm ▸ h.1, fun hn => h.2 (hpub.mp hn)⟩
  | pushCas node value top =>
    obtain ⟨hheap, hpub⟩ := hframe node rfl
    exact ⟨hheap.trans h.1, fun hn => h.2 (hpub.mp hn)⟩
  | popPrev top => exact (hframe top rfl).2.mpr h
  | popCas top prev =>
    obtain ⟨hheap, hpub⟩ := hframe top rfl
    exact ⟨hpub.mpr h.1, hheap.symm ▸ h.2⟩
  | crashed => exact h
  | _ => trivial

end PcOk

/-! ## The invariant -/

/-- Following `prev` from `stack->top` visits `l`. -/
abbrev Linked (heap : Addr → Option StackNode) (top : Option Addr) (l : List (Addr × ℤ)) : Prop :=
  Chain StackNode.prev StackNode.payload heap top l

/-- The invariant, with the list `l` that the chain spells. -/
structure Inv (l : List (Addr × ℤ)) (s : State ι) : Prop where
  chain : Linked s.heap s.top l
  published : ∀ a ∈ l.map Prod.fst, a ∈ s.published
  alloc : ∀ a ∈ s.published, s.heap a ≠ none
  threads : ∀ t, PcOk s.heap s.published (s.pc t)
  owned_inj : ∀ t u a, (s.pc t).owned = some a → (s.pc u).owned = some a → t = u

variable [DecidableEq ι] {l : List (Addr × ℤ)} {s s' : State ι} {t : ι} {a : Act}

omit [DecidableEq ι] in
theorem inv_init : Inv [] (init : State ι) where
  chain := Chain.nil
  published := by simp
  alloc := by simp [init]
  threads := fun _ => trivial
  owned_inj := fun _ _ _ h => absurd h (by simp [init, Pc.owned])

/-- What belongs to one thread at most still does when one thread moves, if nobody else has
what it has then. -/
theorem exclusive_update {own : Pc → Option Addr} {pc : ι → Pc} {pc' : Pc}
    (hinj : ∀ u v a, own (pc u) = some a → own (pc v) = some a → u = v)
    (hnew : ∀ a, own pc' = some a → ∀ u ≠ t, own (pc u) ≠ some a) (u v : ι) (a : Addr)
    (hu : own (Function.update pc t pc' u) = some a)
    (hv : own (Function.update pc t pc' v) = some a) : u = v := by
  by_cases hut : u = t <;> by_cases hvt : v = t
  · exact hut.trans hvt.symm
  · subst hut
    rw [Function.update_self] at hu
    rw [Function.update_of_ne hvt] at hv
    exact absurd hv (hnew a hu v hvt)
  · subst hvt
    rw [Function.update_self] at hv
    rw [Function.update_of_ne hut] at hu
    exact absurd hu (hnew a hv u hut)
  · rw [Function.update_of_ne hut] at hu
    rw [Function.update_of_ne hvt] at hv
    exact hinj u v a hu hv

namespace Inv

omit [DecidableEq ι] in
/-- A node that another thread mentions is not the one this thread owns. -/
theorem mentions_ne_owned (h : Inv l s) {u : ι} (hu : u ≠ t) {a b : Addr}
    (ha : (s.pc u).mentions = some a) (hb : (s.pc t).owned = some b) : a ≠ b := by
  rintro rfl
  rcases (h.threads u).owned_or_published ha with hown | hpub
  · exact hu (h.owned_inj u t a hown hb)
  · exact ((h.threads t).of_owned hb).2 hpub

omit [DecidableEq ι] in
theorem notMem_of_owned (h : Inv l s) {a : Addr} (ha : (s.pc t).owned = some a) :
    a ∉ l.map Prod.fst :=
  fun hmem => ((h.threads t).of_owned ha).2 (h.published a hmem)

/-- Moving one thread keeps every thread's promise, if the other threads' nodes
are left alone. -/
theorem threads_update (h : Inv l s) {heap' : Addr → Option StackNode}
    {published' : Finset Addr} {pc' : Pc} (hpc : PcOk heap' published' pc')
    (hframe : ∀ u ≠ t, ∀ a, (s.pc u).mentions = some a →
      heap' a = s.heap a ∧ (a ∈ published' ↔ a ∈ s.published)) (u : ι) :
    PcOk heap' published' (Function.update s.pc t pc' u) := by
  by_cases hu : u = t
  · subst hu
    rwa [Function.update_self]
  · rw [Function.update_of_ne hu]
    exact (h.threads u).frame (hframe u hu)

/-- Moving one thread keeps ownership exclusive, if nobody else owns what it owns then. -/
theorem owned_inj_update (h : Inv l s) {pc' : Pc}
    (hown : ∀ a, pc'.owned = some a → ∀ u ≠ t, (s.pc u).owned ≠ some a) (u v : ι) (a : Addr)
    (hu : (Function.update s.pc t pc' u).owned = some a)
    (hv : (Function.update s.pc t pc' v).owned = some a) : u = v :=
  exclusive_update h.owned_inj hown u v a hu hv

omit [DecidableEq ι] in
/-- What a thread owns, no other thread owns. -/
theorem owned_ne_of_owned (h : Inv l s) {a : Addr} (ha : (s.pc t).owned = some a) (u : ι)
    (hu : u ≠ t) : (s.pc u).owned ≠ some a :=
  fun hua => hu (h.owned_inj u t a hua ha)

theorem goto (h : Inv l s) {pc' : Pc} (hpc : PcOk s.heap s.published pc')
    (hown : ∀ a, pc'.owned = some a → (s.pc t).owned = some a) : Inv l (s.goto t pc') where
  chain := h.chain
  published := h.published
  alloc := h.alloc
  threads := h.threads_update hpc fun _ _ _ _ => ⟨rfl, Iff.rfl⟩
  owned_inj := h.owned_inj_update fun a ha => h.owned_ne_of_owned (hown a ha)

omit [DecidableEq ι] in
theorem printLine (h : Inv l s) (v : ℤ) : Inv l (s.printLine v) :=
  ⟨h.chain, h.published, h.alloc, h.threads, h.owned_inj⟩

/-- `malloc`: the address is not allocated, so it is on no chain and in nobody's
hands, whether or not it was allocated before. -/
theorem malloc (h : Inv l s) {node : Addr} (hfree : s.heap node = none) (junk : StackNode)
    (value : ℤ) : Inv l ((s.setNode node junk).goto t (.pushPayload node value)) := by
  have hpub : node ∉ s.published := fun hn => h.alloc node hn hfree
  have hne : ∀ u a, (s.pc u).mentions = some a → a ≠ node := by
    rintro u a ha rfl
    rcases (h.threads u).owned_or_published ha with hown | hp
    · exact ((h.threads u).of_owned hown).1 hfree
    · exact hpub hp
  refine ⟨?_, h.published, ?_, ?_, ?_⟩
  · exact h.chain.update (fun hmem => hpub (h.published node hmem)) _
  · intro b hb
    have hbn : b ≠ node := ne_of_mem_of_not_mem hb hpub
    simpa [Function.update_of_ne hbn] using h.alloc b hb
  · refine h.threads_update ⟨by simp, hpub⟩ fun u _ a ha => ⟨?_, Iff.rfl⟩
    exact Function.update_of_ne (hne u a ha) _ _
  · refine h.owned_inj_update fun a ha u _ hua => ?_
    obtain rfl := Option.some.inj ha
    exact hne u node (Pc.mentions_of_owned hua) rfl

/-- A store to the node that the thread owns. -/
theorem store (h : Inv l s) {node : Addr} (hown : (s.pc t).owned = some node) {n : StackNode}
    {pc' : Pc} (hpc : PcOk (Function.update s.heap node (some n)) s.published pc')
    (hpc' : pc'.owned = some node) : Inv l ((s.setNode node n).goto t pc') := by
  refine ⟨?_, h.published, ?_, ?_, ?_⟩
  · exact h.chain.update (h.notMem_of_owned hown) _
  · intro b hb
    have hbn : b ≠ node := ne_of_mem_of_not_mem hb ((h.threads t).of_owned hown).2
    simpa [Function.update_of_ne hbn] using h.alloc b hb
  · refine h.threads_update hpc fun u hu a ha => ⟨?_, Iff.rfl⟩
    exact Function.update_of_ne (h.mentions_ne_owned hu ha hown) _ _
  · refine h.owned_inj_update fun a ha => ?_
    obtain rfl := Option.some.inj (hpc'.symm.trans ha)
    exact h.owned_ne_of_owned hown

/-- `node->payload = value`. -/
theorem storePayload (h : Inv l s) {node : Addr} {value : ℤ} {n : StackNode}
    (hpc : s.pc t = .pushPayload node value) :
    Inv l ((s.setNode node { n with payload := value }).goto t (.pushLoad node value)) := by
  have hok := h.threads t
  rw [hpc] at hok
  exact h.store (by rw [hpc]; rfl) ⟨⟨n.prev, Function.update_self _ _ _⟩, hok.2⟩ rfl

/-- `top = atomic_load(&stack->top)`, which promises nothing of `top`. -/
theorem loadPush (h : Inv l s) {node : Addr} {value : ℤ} (hpc : s.pc t = .pushLoad node value)
    (top : Option Addr) : Inv l (s.goto t (.pushPrev node value top)) := by
  have hok := h.threads t
  rw [hpc] at hok
  refine h.goto hok fun b hb => ?_
  rw [hpc]
  exact hb

/-- `node->prev = top`. -/
theorem storePrev (h : Inv l s) {node : Addr} {value : ℤ} {top : Option Addr} {n : StackNode}
    (hpc : s.pc t = .pushPrev node value top) (hn : s.heap node = some n) :
    Inv l ((s.setNode node { n with prev := top }).goto t (.pushCas node value top)) := by
  have hok := h.threads t
  rw [hpc] at hok
  obtain ⟨⟨prev, hprev⟩, hpub⟩ := hok
  obtain rfl := Option.some.inj (hprev.symm.trans hn)
  exact h.store (by rw [hpc]; rfl) ⟨Function.update_self _ _ _, hpub⟩ rfl

theorem casPushFail (h : Inv l s) {node : Addr} {value : ℤ} {top : Option Addr}
    (hpc : s.pc t = .pushCas node value top) : Inv l (s.goto t (.pushLoad node value)) := by
  have hok := h.threads t
  rw [hpc] at hok
  refine h.goto ⟨⟨top, hok.1⟩, hok.2⟩ fun b hb => ?_
  rw [hpc]
  exact hb

/-- The compare-exchange of `stack_push`.  Only the *current* top matters:
whatever happened to it since it was loaded, `node->prev` holds it. -/
theorem casPush (h : Inv l s) {node : Addr} {value : ℤ} {top : Option Addr}
    (hpc : s.pc t = .pushCas node value top) (htop : s.top = top) :
    Inv ((node, value) :: l) ((s.publish node).goto t .idle) := by
  have hown : (s.pc t).owned = some node := by rw [hpc]; rfl
  have hok := h.threads t
  rw [hpc] at hok
  obtain ⟨hnode, hpub⟩ := hok
  refine ⟨?_, ?_, ?_, ?_, ?_⟩
  · have hchain := h.chain
    rw [htop] at hchain
    exact Chain.cons hnode hchain
  · intro b hb
    rw [List.map_cons, List.mem_cons] at hb
    rcases hb with rfl | hb
    · exact Finset.mem_insert_self _ _
    · exact Finset.mem_insert_of_mem (h.published b hb)
  · intro b hb
    rcases Finset.mem_insert.mp hb with rfl | hb
    · exact ((h.threads t).of_owned hown).1
    · exact h.alloc b hb
  · refine h.threads_update trivial fun u hu a ha => ⟨rfl, ?_⟩
    simp [h.mentions_ne_owned hu ha hown]
  · exact h.owned_inj_update fun a ha => absurd ha (by simp [Pc.owned])

omit [DecidableEq ι] in
/-- The compare-exchange of `stack_pop` finds, at the head of the list, the node
whose `prev` it read earlier. -/
theorem top_of_popCas (h : Inv l s) {top : Addr} {prev : Option Addr}
    (hpc : s.pc t = .popCas top prev) (htop : s.top = some top) :
    ∃ value rest, s.heap top = some ⟨value, prev⟩ ∧ l = (top, value) :: rest ∧
      Linked s.heap prev rest := by
  have hok := h.threads t
  rw [hpc] at hok
  obtain ⟨-, value, hvalue⟩ := hok
  have hchain := h.chain
  rw [htop] at hchain
  obtain ⟨n, rest, hn, hl, hrest⟩ := hchain.exists_cons
  obtain rfl := Option.some.inj (hvalue.symm.trans hn)
  exact ⟨value, rest, hvalue, hl, hrest⟩

omit [DecidableEq ι] in
/-- Taking the head off the chain. -/
theorem unlink {top : Addr} {prev : Option Addr} {value : ℤ} (h : Inv ((top, value) :: l) s)
    (hrest : Linked s.heap prev l) : Inv l (s.unlink prev) where
  chain := hrest
  published := fun b hb => h.published b (by simp [hb])
  alloc := h.alloc
  threads := h.threads
  owned_inj := h.owned_inj

/-- The compare-exchange of `stack_pop` leaves the tail. -/
theorem casPop {top : Addr} {prev : Option Addr} {value : ℤ} (h : Inv ((top, value) :: l) s)
    (hrest : Linked s.heap prev l) :
    Inv l ((s.unlink prev).goto t (.popped (some top))) :=
  (h.unlink hrest).goto trivial (by simp [Pc.owned])

/-- `free` of a published node that is off the chain and in no other thread's
hands. -/
theorem free (h : Inv l s) {node : Addr} (hpub : node ∈ s.published)
    (hoff : node ∉ l.map Prod.fst) (hothers : ∀ u ≠ t, (s.pc u).mentions ≠ some node) :
    Inv l ((s.release node).goto t .idle) := by
  refine ⟨h.chain.update hoff none, ?_, ?_, ?_, ?_⟩
  · intro b hb
    exact Finset.mem_erase.mpr ⟨ne_of_mem_of_not_mem hb hoff, h.published b hb⟩
  · intro b hb
    obtain ⟨hbn, hb⟩ := Finset.mem_erase.mp hb
    simpa [Function.update_of_ne hbn] using h.alloc b hb
  · refine h.threads_update trivial fun u hu a ha => ?_
    have han : a ≠ node := by
      rintro rfl
      exact hothers u hu ha
    exact ⟨Function.update_of_ne han _ _, by simp [han]⟩
  · exact h.owned_inj_update fun a ha => absurd ha (by simp [Pc.owned])

end Inv

/-! ## Simulation by the atomic stack -/

/-- The event that a step shows: a call, or the effect of an operation. -/
def shows (s : State ι) (x : ι × Act) : Option (StackEvent ι Addr ℤ) :=
  match s.pc x.1, x.2 with
  | .idle, .callPush value => some (.callPush x.1 value)
  | .pushCas node value top, .cas spurious =>
    if spurious = false ∧ s.top = top then some (.push x.1 node value) else none
  | .idle, .callPop => some (.callPop x.1)
  | .popLoad, .load => if s.top = none then some (.popEmpty x.1) else none
  | .popCas top _, .cas spurious =>
    if spurious = false ∧ s.top = some top then
      (s.heap top).map fun n => .pop x.1 top n.payload
    else none
  | _, _ => none

/-- The concrete state stands for the atomic stack `σ`: the chain spells its
list, and every thread is in the operation its program point belongs to. -/
structure Refines (s : State ι) (σ : AtomicStack ι Addr ℤ) : Prop where
  inv : Inv σ.stack s
  status : ∀ t, σ.status t = (s.pc t).status

/-- What the stack needs of the callers of `stack_pop`. -/
structure Careful (l : List (Addr × ℤ)) (s : State ι) (t : ι) (a : Act) : Prop where
  print : a = .print → ∀ node, s.pc t = .popped (some node) → node ∈ s.published
  free : a = .free → ∀ node, s.pc t = .printed node →
    node ∈ s.published ∧ node ∉ l.map Prod.fst ∧ ∀ u ≠ t, (s.pc u).mentions ≠ some node

omit [DecidableEq ι] in
theorem refines_init : Refines (init : State ι) AtomicStack.empty :=
  ⟨inv_init, fun _ => rfl⟩

/-- Moving one thread moves its operation. -/
theorem status_update {σ : AtomicStack ι Addr ℤ} (h : ∀ u, σ.status u = (s.pc u).status)
    {pc' : Pc} {o : OpStatus ℤ} (ho : o = pc'.status) (u : ι) :
    Function.update σ.status t o u = (Function.update s.pc t pc' u).status := by
  by_cases hu : u = t
  · subst hu
    rw [Function.update_self, Function.update_self, ho]
  · rw [Function.update_of_ne hu, Function.update_of_ne hu, h u]

theorem status_same {σ : AtomicStack ι Addr ℤ} (h : ∀ u, σ.status u = (s.pc u).status)
    {pc' : Pc} (ho : (s.pc t).status = pc'.status) (u : ι) :
    σ.status u = (Function.update s.pc t pc' u).status := by
  rw [← status_update (t := t) h ho u, ← h t, Function.update_eq_self]

/-- **One step is simulated by the atomic stack.**  A step either shows no event
and leaves the abstract state alone, or is the abstract step of the event it
shows; and it touches no memory that is not allocated. -/
theorem Refines.simulates {σ : AtomicStack ι Addr ℤ} (h : Refines s σ)
    (hcare : Careful σ.stack s t a) (hm : Moves s t a s') :
    s'.faults = s.faults ∧
      ((shows s (t, a) = none ∧ Refines s' σ) ∨
        ∃ e τ, shows s (t, a) = some e ∧ AtomicStack.Step σ e τ ∧ Refines s' τ) := by
  have hinv := h.inv
  have hok := hinv.threads t
  have hst := h.status t
  cases hm with
  | callPush value hpc =>
    refine ⟨rfl, Or.inr ⟨.callPush t value, _, by simp [shows, hpc],
      .callPush value (by rw [hst, hpc]; rfl), ?_⟩⟩
    exact ⟨hinv.goto trivial (by simp [Pc.owned]), status_update h.status rfl⟩
  | malloc node junk hpc hfree =>
    refine ⟨rfl, Or.inl ⟨by simp [shows, hpc], hinv.malloc hfree junk _, ?_⟩⟩
    exact status_same h.status (by rw [hpc]; rfl)
  | storePayload hpc hn =>
    refine ⟨rfl, Or.inl ⟨by simp [shows, hpc], hinv.storePayload hpc, ?_⟩⟩
    exact status_same h.status (by rw [hpc]; rfl)
  | loadPush hpc =>
    refine ⟨rfl, Or.inl ⟨by simp [shows, hpc], hinv.loadPush hpc _, ?_⟩⟩
    exact status_same h.status (by rw [hpc]; rfl)
  | storePrev hpc hn =>
    refine ⟨rfl, Or.inl ⟨by simp [shows, hpc], hinv.storePrev hpc hn, ?_⟩⟩
    exact status_same h.status (by rw [hpc]; rfl)
  | @casPush node value top hpc htop =>
    refine ⟨rfl, Or.inr ⟨.push t node value, _, by simp [shows, hpc, htop],
      .push node (by rw [hst, hpc]; rfl), hinv.casPush hpc htop, status_update h.status rfl⟩⟩
  | casPushFail spurious hpc hfail =>
    refine ⟨rfl, Or.inl ⟨by simpa [shows, hpc] using hfail, hinv.casPushFail hpc, ?_⟩⟩
    exact status_same h.status (by rw [hpc]; rfl)
  | callPop hpc =>
    refine ⟨rfl, Or.inr ⟨.callPop t, _, by simp [shows, hpc],
      .callPop (by rw [hst, hpc]; rfl), ?_⟩⟩
    exact ⟨hinv.goto trivial (by simp [Pc.owned]), status_update h.status rfl⟩
  | @loadPop top hpc htop =>
    obtain ⟨value, rest, hl⟩ : ∃ value rest, σ.stack = (top, value) :: rest := by
      have hchain := hinv.chain
      rw [htop] at hchain
      obtain ⟨n, rest, -, hl, -⟩ := hchain.exists_cons
      exact ⟨_, rest, hl⟩
    have hpub : top ∈ s.published := hinv.published top (by simp [hl])
    refine ⟨rfl, Or.inl ⟨by simp [shows, hpc, htop], hinv.goto hpub (by simp [Pc.owned]), ?_⟩⟩
    exact status_same h.status (by rw [hpc]; rfl)
  | loadNull hpc htop =>
    have hl : σ.stack = [] := by
      have hchain := hinv.chain
      rw [htop] at hchain
      exact hchain.eq_nil
    refine ⟨rfl, Or.inr ⟨.popEmpty t, _, by simp [shows, hpc, htop],
      .popEmpty (by rw [hst, hpc]; rfl) hl, ?_⟩⟩
    exact ⟨hinv.goto trivial (by simp [Pc.owned]), status_update h.status rfl⟩
  | @readPrev top n hpc hn =>
    rw [hpc] at hok
    refine ⟨rfl, Or.inl ⟨by simp [shows, hpc],
      hinv.goto ⟨hok, n.payload, hn⟩ (by simp [Pc.owned]), ?_⟩⟩
    exact status_same h.status (by rw [hpc]; rfl)
  | @casPop top prev hpc htop =>
    obtain ⟨value, rest, hheap, hl, hrest⟩ := hinv.top_of_popCas hpc htop
    rw [hl] at hinv
    refine ⟨rfl, Or.inr ⟨.pop t top value, _, by simp [shows, hpc, htop, hheap],
      .pop (by rw [hst, hpc]; rfl) hl, hinv.casPop hrest, status_update h.status rfl⟩⟩
  | casPopFail spurious hpc hfail =>
    refine ⟨rfl, Or.inl ⟨?_, hinv.goto trivial (by simp [Pc.owned]), ?_⟩⟩
    · simp only [shows, hpc, if_neg hfail]
    · exact status_same h.status (by rw [hpc]; rfl)
  | fallOff ret hpc =>
    refine ⟨rfl, Or.inl ⟨by simp [shows, hpc], hinv.goto trivial (by simp [Pc.owned]), ?_⟩⟩
    exact status_same h.status (by rw [hpc]; rfl)
  | drop hpc =>
    refine ⟨rfl, Or.inl ⟨by simp [shows, hpc], hinv.goto trivial (by simp [Pc.owned]), ?_⟩⟩
    exact status_same h.status (by rw [hpc]; rfl)
  | @print node n hpc hn =>
    refine ⟨rfl, Or.inl ⟨by simp [shows, hpc],
      (hinv.printLine _).goto trivial (by simp [Pc.owned]), ?_⟩⟩
    exact status_same h.status (by rw [hpc]; rfl)
  | @free node n hpc hn =>
    obtain ⟨hpub, hoff, hothers⟩ := hcare.free rfl node hpc
    refine ⟨rfl, Or.inl ⟨by simp [shows, hpc], hinv.free hpub hoff hothers, ?_⟩⟩
    exact status_same h.status (by rw [hpc]; rfl)
  | @writeFreed _ node value hpc hn =>
    exfalso
    rcases hpc with hpc | ⟨top, hpc⟩ <;> rw [hpc] at hok
    · exact hok.1 hn
    · obtain ⟨⟨prev, hprev⟩, -⟩ := hok
      exact absurd (hprev.symm.trans hn) (by simp)
  | @readFreed _ node hpc hn =>
    exfalso
    rcases hpc with ⟨-, hpc⟩ | ⟨ha, hpc⟩
    · rw [hpc] at hok
      exact hinv.alloc node hok hn
    · exact hinv.alloc node (hcare.print ha node hpc) hn
  | @doubleFree node hpc hn =>
    exact absurd hn (hinv.alloc node (hcare.free rfl node hpc).1)

end LockFree
end CaosSeminars
