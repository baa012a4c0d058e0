import CaosSeminars.LockFree.Reclamation

/-!
# Any number of consumers that free

`lf_mpmc_stack` is named after many producers and many consumers.  With two
consumers that free, the compare-exchange of `stack_pop` can succeed on an address
that was popped, freed, handed out again by `malloc` and pushed again since
`top->prev` was read: it then makes `stack->top` what `prev` was *before*.

A `Ledger` is the shared memory together with the nodes that were pushed and not
yet popped, which no step reads.  A pop is sound when after its compare-exchange
`stack->top` is `NULL` or an allocated node of the ledger, every node of the ledger
is on the chain, and the node it took was in the ledger (`PopKeeps`).

`pop_keeps_iff` is the exact condition: the pops of a run are sound as long as
each successful compare-exchange finds in `top->prev` the value it has read there
(`readsCurrent`).  The invariant `Sound` promises nothing about what a waiting
`stack_pop` remembers.  It sees the memory as the threads in `stack_push` see it
(`State.pushers`), to which `Inv` of one consumer applies as it stands.

* `State.pushers`, `owned_of_mentions_pushSide` --- a thread outside `stack_push` is idle in
  the eyes of the pushing threads, so that their invariant does not depend on what it
  remembers.
* `Sound.casPush`, `Sound.casPop`, `Sound.free` --- the steps that change the chain or what
  is allocated.
* `keepsStack_iff` --- one successful compare-exchange of `stack_pop` is sound **iff** it
  finds what was read.
* `pop_keeps_iff` --- the same of whole runs; `pop_breaks_reusedTop` is a run of two
  consumers in which an address comes back at the wrong moment.
-/

namespace CaosSeminars
namespace LockFree

variable {ι : Type*}

/-! ## The memory as the pushing threads see it -/

namespace Pc

/-- The program point of a thread in `stack_push`; any other counts as idle. -/
def pushSide : Pc → Pc
  | .pushMalloc value => .pushMalloc value
  | .pushPayload node value => .pushPayload node value
  | .pushLoad node value => .pushLoad node value
  | .pushPrev node value top => .pushPrev node value top
  | .pushCas node value top => .pushCas node value top
  | _ => .idle

theorem owned_of_mentions_pushSide {pc : Pc} {a : Addr} (h : pc.pushSide.mentions = some a) :
    pc.pushSide.owned = some a := by
  cases pc <;> simp_all [pushSide, mentions, owned]

end Pc

/-- The memory, with every thread outside `stack_push` idle. -/
def State.pushers (s : State ι) : State ι := { s with pc := fun t => (s.pc t).pushSide }

variable [DecidableEq ι]

theorem State.pushers_goto (s : State ι) (t : ι) (pc : Pc) :
    (s.goto t pc).pushers = s.pushers.goto t pc.pushSide := by
  have hpc : (fun u => (Function.update s.pc t pc u).pushSide) =
      Function.update (fun u => (s.pc u).pushSide) t pc.pushSide := by
    ext u
    by_cases hu : u = t
    · subst hu
      rw [Function.update_self, Function.update_self]
    · rw [Function.update_of_ne hu, Function.update_of_ne hu]
  unfold pushers goto
  rw [hpc]

/-! ## The ledger -/

/-- The shared memory, and the nodes that were pushed and not yet popped. -/
structure Ledger (ι : Type*) where
  memory : State ι
  live : Finset Addr

/-- An atomic step of the machine; or a read of `top->prev`, `top` having been
freed, that does not stop the thread but finds `bytes` there. -/
inductive Access where
  | own (a : Act)
  | readStale (bytes : Option Addr)
  deriving DecidableEq

namespace Ledger

/-- After `stack_init`, with no thread inside an operation. -/
def init : Ledger ι := ⟨LockFree.init, ∅⟩

/-- What a compare-exchange that succeeds does to the ledger. -/
def record (m : Ledger ι) (t : ι) (s : State ι) : Finset Addr :=
  match m.memory.pc t, s.pc t with
  | .pushCas node _ _, .idle => insert node m.live
  | .popCas top _, .popped _ => m.live.erase top
  | _, _ => m.live

/-- One access of one thread. -/
def step (m : Ledger ι) (x : ι × Access) : Option (Ledger ι) :=
  match x.2 with
  | .own a => (LockFree.step m.memory (x.1, a)).map fun s => ⟨s, m.record x.1 s⟩
  | .readStale bytes =>
    match m.memory.pc x.1 with
    | .popPrev top =>
      if m.memory.heap top = none then
        some ⟨{ m.memory.goto x.1 (.popCas top bytes) with
          faults := m.memory.faults ++ [.readFreed top] }, m.live⟩
      else none
    | _ => none

/-- After a successful compare-exchange of `stack_pop`. -/
def unlinked (m : Ledger ι) (t : ι) (top : Addr) (prev : Option Addr) : Ledger ι :=
  ⟨(m.memory.unlink prev).goto t (.popped (some top)), m.live.erase top⟩

variable {m m' : Ledger ι} {t : ι} {top : Addr} {prev : Option Addr}

theorem step_casPop (hpc : m.memory.pc t = .popCas top prev) (htop : m.memory.top = some top) :
    m.step (t, .own (.cas false)) = some (m.unlinked t top prev) := by
  simp [step, LockFree.step, record, unlinked, State.goto, hpc, htop]

/-- The compare-exchange of `stack_pop` succeeds only when it sees the top it
expects. -/
theorem top_of_popped {x : ι × Access} (hpc : m.memory.pc x.1 = .popCas top prev)
    (hstep : m.step x = some m') (hpopped : m'.memory.pc x.1 = .popped (some top)) :
    m.memory.top = some top := by
  obtain ⟨t, access⟩ := x
  cases access with
  | readStale bytes => simp [step, hpc] at hstep
  | own a =>
    obtain ⟨s', hs, rfl⟩ := Option.map_eq_some_iff.mp hstep
    cases moves_of_step hs <;> simp_all [State.goto]

end Ledger

/-- The threads of `consumes` run `consumer`, which calls `stack_pop` again when
it got `NULL` and frees every node it got; the others run `producer`. -/
def manyConsumers (consumes : ι → Bool) (m : Ledger ι) (x : ι × Access) : Bool :=
  match x.2 with
  | .own (.callPush _) => !consumes x.1
  | .own .callPop => consumes x.1
  | .own .drop => m.memory.pc x.1 = .popped none
  | _ => true

/-- A call of `stack_pop` that saw an empty stack yields `NULL`. -/
def yieldsNull (x : ι × Access) : Bool :=
  match x.2 with
  | .own (.fallOff ret) => ret = none
  | _ => true

/-- A compare-exchange of `stack_pop` that succeeds finds in `top->prev` the value
the thread has read there. -/
def readsCurrent (m : Ledger ι) (x : ι × Access) : Bool :=
  match m.memory.pc x.1, x.2 with
  | .popCas top prev, .own (.cas false) =>
    m.memory.top = some top → (m.memory.heap top).map StackNode.prev = some prev
  | _, _ => true

/-- The compare-exchange that took `node` off the stack was sound. -/
structure PopKeeps (m : Ledger ι) (node : Addr) (m' : Ledger ι) : Prop where
  top : ∀ a, m'.memory.top = some a → m'.memory.heap a ≠ none ∧ a ∈ m'.live
  chain : ∃ l, Linked m'.memory.heap m'.memory.top l ∧ ∀ a ∈ m'.live, a ∈ l.map Prod.fst
  once : node ∈ m.live

/-- If the step is a successful compare-exchange of `stack_pop`, it is sound. -/
def KeepsStack (m : Ledger ι) (x : ι × Access) : Prop :=
  ∀ top prev m', m.memory.pc x.1 = .popCas top prev → Ledger.step m x = some m' →
    m'.memory.pc x.1 = .popped (some top) → PopKeeps m top m'

/-! ## The invariant -/

/-- The chain is the ledger, whatever the threads in `stack_pop` remember; and the
nodes that were popped and not freed are each in one thread's hand. -/
structure Sound (l : List (Addr × ℤ)) (m : Ledger ι) : Prop where
  pushers : Inv l m.memory.pushers
  live : ∀ a, a ∈ l.map Prod.fst ↔ a ∈ m.live
  held : ∀ t a, (m.memory.pc t).holds = some a → a ∈ m.memory.published ∧ a ∉ m.live
  held_inj : ∀ t u a, (m.memory.pc t).holds = some a → (m.memory.pc u).holds = some a → t = u

variable {l l' : List (Addr × ℤ)} {m m' : Ledger ι} {s' : State ι} {t : ι} {a : Act}

omit [DecidableEq ι] in
theorem sound_init : Sound [] (Ledger.init : Ledger ι) where
  pushers := inv_init
  live := fun a => by simp [Ledger.init]
  held := fun _ _ h => absurd h (by simp [Ledger.init, LockFree.init, Pc.holds])
  held_inj := fun _ _ _ h => absurd h (by simp [Ledger.init, LockFree.init, Pc.holds])

namespace Sound

omit [DecidableEq ι] in
/-- A node of the ledger is allocated and published. -/
theorem of_live (h : Sound l m) {b : Addr} (hb : b ∈ m.live) :
    m.memory.heap b ≠ none ∧ b ∈ m.memory.published := by
  have hpub := h.pushers.published b ((h.live b).mpr hb)
  exact ⟨h.pushers.alloc b hpub, hpub⟩

/-- Moving one thread.  What it then holds must be published, off the ledger and
in no other hand; and what the others hold must stay so. -/
theorem update (h : Sound l m) {pc' : Pc} {live' : Finset Addr}
    (hpc : s'.pc = Function.update m.memory.pc t pc') (hinv : Inv l' s'.pushers)
    (hlive : ∀ b, b ∈ l'.map Prod.fst ↔ b ∈ live')
    (hself : ∀ b, pc'.holds = some b →
      (b ∈ s'.published ∧ b ∉ live') ∧ ∀ u ≠ t, (m.memory.pc u).holds ≠ some b)
    (hothers : ∀ u ≠ t, ∀ b, (m.memory.pc u).holds = some b → b ∈ s'.published ∧ b ∉ live') :
    Sound l' ⟨s', live'⟩ where
  pushers := hinv
  live := hlive
  held := by
    intro u b hb
    simp only [hpc] at hb
    by_cases hu : u = t
    · subst hu
      rw [Function.update_self] at hb
      exact (hself b hb).1
    · rw [Function.update_of_ne hu] at hb
      exact hothers u hu b hb
  held_inj := by
    intro u v b hu hv
    rw [hpc] at hu hv
    exact exclusive_update h.held_inj (fun c hc => (hself c hc).2) u v b hu hv

/-- A step that leaves the ledger and the published nodes alone, after which the
thread holds what it held before or nothing. -/
theorem quiet (h : Sound l m) {pc' : Pc} (hpc : s'.pc = Function.update m.memory.pc t pc')
    (hinv : Inv l s'.pushers) (hpublished : s'.published = m.memory.published)
    (hrecord : m.record t s' = m.live)
    (hholds : ∀ b, pc'.holds = some b → (m.memory.pc t).holds = some b) :
    Sound l ⟨s', m.record t s'⟩ := by
  rw [hrecord]
  refine h.update hpc hinv h.live (fun b hb => ?_) fun u _ b hb => ?_
  · rw [hpublished]
    exact ⟨h.held t b (hholds b hb), fun u hu hub => hu (h.held_inj u t b hub (hholds b hb))⟩
  · rw [hpublished]
    exact h.held u b hb

theorem goto (h : Sound l m) {pc' : Pc} (hside : pc'.pushSide = .idle)
    (hrecord : m.record t (m.memory.goto t pc') = m.live)
    (hholds : ∀ b, pc'.holds = some b → (m.memory.pc t).holds = some b) :
    Sound l ⟨m.memory.goto t pc', m.record t (m.memory.goto t pc')⟩ := by
  refine h.quiet rfl ?_ rfl hrecord hholds
  rw [State.pushers_goto, hside]
  exact h.pushers.goto trivial (by simp [Pc.owned])

omit [DecidableEq ι] in
/-- The invariant does not speak of the accesses to freed memory so far. -/
theorem withFaults {s : State ι} {live : Finset Addr} (h : Sound l ⟨s, live⟩)
    (faults : List Fault) : Sound l ⟨{ s with faults := faults }, live⟩ where
  pushers := ⟨h.pushers.chain, h.pushers.published, h.pushers.alloc, h.pushers.threads,
    h.pushers.owned_inj⟩
  live := h.live
  held := h.held
  held_inj := h.held_inj

/-- The compare-exchange of `stack_push` puts the node on the chain and in the
ledger. -/
theorem casPush (h : Sound l m) {node : Addr} {value : ℤ} {top : Option Addr}
    (hpc : m.memory.pc t = .pushCas node value top) (htop : m.memory.top = top) :
    Sound ((node, value) :: l) ⟨(m.memory.publish node).goto t .idle, insert node m.live⟩ := by
  have hside : m.memory.pushers.pc t = .pushCas node value top := by
    simp [State.pushers, hpc, Pc.pushSide]
  have hnode : node ∉ m.memory.published :=
    ((h.pushers.threads t).of_owned (a := node) (by rw [hside]; rfl)).2
  refine h.update rfl ?_ (fun b => ?_) (fun b hb => absurd hb (by simp [Pc.holds])) ?_
  · rw [State.pushers_goto]
    exact h.pushers.casPush hside htop
  · rw [List.map_cons, List.mem_cons, Finset.mem_insert, h.live b]
  · intro u _ b hb
    obtain ⟨hpub, hlive⟩ := h.held u b hb
    refine ⟨Finset.mem_insert_of_mem hpub, ?_⟩
    rw [Finset.mem_insert, not_or]
    exact ⟨ne_of_mem_of_not_mem hpub hnode, hlive⟩

omit [DecidableEq ι] in
/-- The top of the stack, when it is a node, is in the ledger. -/
theorem top_live (h : Sound l m) {top : Addr} (htop : m.memory.top = some top) :
    ∃ n rest, m.memory.heap top = some n ∧ l = (top, n.payload) :: rest ∧
      Linked m.memory.heap n.prev rest ∧ top ∈ m.live := by
  have hchain : Linked m.memory.heap m.memory.top l := h.pushers.chain
  rw [htop] at hchain
  obtain ⟨n, rest, hn, rfl, hrest⟩ := hchain.exists_cons
  exact ⟨n, rest, hn, rfl, hrest, (h.live top).mp (by simp)⟩

omit [DecidableEq ι] in
/-- After a pop the ledger is the rest of the chain. -/
theorem mem_erase_iff {top : Addr} {value : ℤ} {rest : List (Addr × ℤ)}
    (h : Sound ((top, value) :: rest) m) (b : Addr) :
    b ∈ rest.map Prod.fst ↔ b ∈ m.live.erase top := by
  have hnodup := h.pushers.chain.nodup
  rw [List.map_cons, List.nodup_cons] at hnodup
  rw [Finset.mem_erase, ← h.live b, List.map_cons, List.mem_cons]
  constructor
  · intro hb
    exact ⟨ne_of_mem_of_not_mem hb hnodup.1, Or.inr hb⟩
  · rintro ⟨hne, hb⟩
    exact hb.resolve_left hne

/-- The compare-exchange of `stack_pop` leaves the rest of the chain, when `prev`
is still what is in the node. -/
theorem casPop {top : Addr} {n : StackNode} {rest : List (Addr × ℤ)}
    (h : Sound ((top, n.payload) :: rest) m) (hrest : Linked m.memory.heap n.prev rest)
    (hlive : top ∈ m.live) :
    Sound rest ⟨(m.memory.unlink n.prev).goto t (.popped (some top)), m.live.erase top⟩ := by
  have hpub := (h.of_live hlive).2
  refine h.update rfl ?_ h.mem_erase_iff ?_ ?_
  · rw [State.pushers_goto]
    exact (h.pushers.unlink hrest).goto trivial (by simp [Pc.pushSide, Pc.owned])
  · intro b hb
    obtain rfl := Option.some.inj hb
    exact ⟨⟨hpub, Finset.notMem_erase _ _⟩, fun u _ hu => (h.held u top hu).2 hlive⟩
  · intro u _ b hb
    obtain ⟨hbpub, hblive⟩ := h.held u b hb
    exact ⟨hbpub, fun hb => hblive (Finset.mem_of_mem_erase hb)⟩

theorem free (h : Sound l m) {node : Addr} (hholds : (m.memory.pc t).holds = some node) :
    Sound l ⟨(m.memory.release node).goto t .idle, m.live⟩ := by
  obtain ⟨hpub, hlive⟩ := h.held t node hholds
  refine h.update rfl ?_ h.live (fun b hb => absurd hb (by simp [Pc.holds])) ?_
  · rw [State.pushers_goto]
    refine h.pushers.free hpub (fun hmem => hlive ((h.live node).mp hmem)) fun u _ hment => ?_
    have hown := Pc.owned_of_mentions_pushSide hment
    exact ((h.pushers.threads u).of_owned hown).2 hpub
  · intro u hu b hb
    obtain ⟨hbpub, hblive⟩ := h.held u b hb
    have hne : b ≠ node := by
      rintro rfl
      exact hu (h.held_inj u t b hb hholds)
    exact ⟨Finset.mem_erase.mpr ⟨hne, hbpub⟩, hblive⟩

/-- A step inside `stack_push`, or into it, that does not publish. -/
theorem push (h : Sound l m) {pc' : Pc} (hpc : s'.pc = Function.update m.memory.pc t pc')
    (hinv : Inv l (s'.pushers)) (hpublished : s'.published = m.memory.published)
    (hpc' : ∃ value, pc'.status = .pushing value) : Sound l ⟨s', m.record t s'⟩ := by
  obtain ⟨value, hvalue⟩ := hpc'
  have hself : s'.pc t = pc' := by rw [hpc, Function.update_self]
  refine h.quiet hpc hinv hpublished ?_ fun b hb => ?_
  · unfold Ledger.record
    rw [hself]
    cases pc' <;> simp_all [Pc.status]
  · cases pc' <;> simp_all [Pc.status, Pc.holds]

/-- **One step.**  The ledger stays the chain as long as `stack_pop` of the empty
stack yields `NULL` and no compare-exchange of `stack_pop` succeeds with a `prev`
that is not in the node any more. -/
theorem step {x : ι × Access} (h : Sound l m) (hnull : yieldsNull x = true)
    (hcurrent : readsCurrent m x = true) (hstep : Ledger.step m x = some m') :
    ∃ l', Sound l' m' := by
  obtain ⟨t, access⟩ := x
  cases access with
  | readStale bytes =>
    simp only [Ledger.step] at hstep
    split at hstep
    · rename_i top hpc
      obtain ⟨hfreed, ⟨⟩⟩ := Option.ite_none_right_eq_some.mp hstep
      have hrecord : m.record t (m.memory.goto t (.popCas top bytes)) = m.live := by
        simp [Ledger.record, hpc, State.goto]
      have hgoto := h.goto rfl hrecord (by simp [Pc.holds])
      rw [hrecord] at hgoto
      exact ⟨l, hgoto.withFaults _⟩
    · exact absurd hstep (by simp)
  | own a =>
    obtain ⟨s', hs, rfl⟩ := Option.map_eq_some_iff.mp hstep
    have hinv := h.pushers
    have hside : ∀ {pc : Pc}, m.memory.pc t = pc → m.memory.pushers.pc t = pc.pushSide :=
      fun hpc => by rw [← hpc]; rfl
    -- What the thread holds is allocated.
    have halloc : ∀ {node : Addr}, (m.memory.pc t).holds = some node → m.memory.heap node ≠ none :=
      fun hholds => hinv.alloc _ (h.held t _ hholds).1
    cases moves_of_step hs with
    | callPush value hpc =>
      refine ⟨l, h.push rfl ?_ rfl ⟨value, rfl⟩⟩
      rw [State.pushers_goto]
      exact hinv.goto trivial (by simp [Pc.pushSide, Pc.owned])
    | @malloc value node junk hpc hfree =>
      refine ⟨l, h.push rfl ?_ rfl ⟨value, rfl⟩⟩
      rw [State.pushers_goto]
      exact hinv.malloc hfree junk value
    | @storePayload node value n hpc hn =>
      refine ⟨l, h.push rfl ?_ rfl ⟨value, rfl⟩⟩
      rw [State.pushers_goto]
      exact hinv.storePayload (hside hpc)
    | @loadPush node value hpc =>
      refine ⟨l, h.push rfl ?_ rfl ⟨value, rfl⟩⟩
      rw [State.pushers_goto]
      exact hinv.loadPush (hside hpc) _
    | @storePrev node value top n hpc hn =>
      refine ⟨l, h.push rfl ?_ rfl ⟨value, rfl⟩⟩
      rw [State.pushers_goto]
      exact hinv.storePrev (hside hpc) hn
    | @casPush node value top hpc htop =>
      refine ⟨(node, value) :: l, ?_⟩
      have hrecord : m.record t ((m.memory.publish node).goto t .idle) = insert node m.live := by
        simp [Ledger.record, hpc, State.goto]
      rw [hrecord]
      exact h.casPush hpc htop
    | @casPushFail node value top spurious hpc hfail =>
      refine ⟨l, h.push rfl ?_ rfl ⟨value, rfl⟩⟩
      rw [State.pushers_goto]
      exact hinv.casPushFail (hside hpc)
    | callPop hpc => exact ⟨l, h.goto rfl (by simp [Ledger.record, hpc]) (by simp [Pc.holds])⟩
    | loadPop hpc htop => exact ⟨l, h.goto rfl (by simp [Ledger.record, hpc]) (by simp [Pc.holds])⟩
    | loadNull hpc htop => exact ⟨l, h.goto rfl (by simp [Ledger.record, hpc]) (by simp [Pc.holds])⟩
    | readPrev hpc hn => exact ⟨l, h.goto rfl (by simp [Ledger.record, hpc]) (by simp [Pc.holds])⟩
    | @casPop top prev hpc htop =>
      obtain ⟨n, rest, hn, rfl, hrest, hlive⟩ := h.top_live htop
      obtain rfl : n.prev = prev := by simpa [readsCurrent, hpc, htop, hn] using hcurrent
      refine ⟨rest, ?_⟩
      have hrecord : m.record t ((m.memory.unlink n.prev).goto t (.popped (some top))) =
          m.live.erase top := by simp [Ledger.record, hpc, State.goto]
      rw [hrecord]
      exact h.casPop hrest hlive
    | casPopFail spurious hpc hfail =>
      exact ⟨l, h.goto rfl (by simp [Ledger.record, hpc, State.goto]) (by simp [Pc.holds])⟩
    | fallOff ret hpc =>
      obtain rfl : ret = none := by simpa [yieldsNull] using hnull
      exact ⟨l, h.goto rfl (by simp [Ledger.record, hpc]) (by simp [Pc.holds])⟩
    | drop hpc => exact ⟨l, h.goto rfl (by simp [Ledger.record, hpc]) (by simp [Pc.holds])⟩
    | @print node n hpc hn =>
      refine ⟨l, h.quiet rfl ?_ rfl (by simp [Ledger.record, hpc]) fun b hb => ?_⟩
      · rw [State.pushers_goto]
        exact (hinv.printLine _).goto trivial (by simp [Pc.pushSide, Pc.owned])
      · rw [hpc]
        exact hb
    | @free node n hpc hn =>
      refine ⟨l, ?_⟩
      have hrecord : m.record t ((m.memory.release node).goto t .idle) = m.live := by
        simp [Ledger.record, hpc]
      rw [hrecord]
      exact h.free (by rw [hpc]; rfl)
    | @writeFreed _ node value hpc hn =>
      exfalso
      have hown : (m.memory.pushers.pc t).owned = some node := by
        rcases hpc with hpc | ⟨top, hpc⟩ <;> rw [hside hpc] <;> rfl
      exact ((hinv.threads t).of_owned hown).1 hn
    | @readFreed _ node hpc hn =>
      rcases hpc with ⟨-, hpc⟩ | ⟨-, hpc⟩
      · have hrecord : m.record t (m.memory.goto t .crashed) = m.live := by
          simp [Ledger.record, hpc]
        exact ⟨l, (h.goto rfl hrecord (by simp [Pc.holds])).withFaults _⟩
      · exact absurd hn (halloc (by rw [hpc]; rfl))
    | @doubleFree node hpc hn => exact absurd hn (halloc (by rw [hpc]; rfl))

/-- A sound pop has stored what is in the node: the chain out of `prev` and the rest of
the old chain start on each other. -/
theorem eq_of_popKeeps {top : Addr} {prev : Option Addr} {n : StackNode}
    {rest : List (Addr × ℤ)} (h : Sound ((top, n.payload) :: rest) m)
    (hrest : Linked m.memory.heap n.prev rest)
    (hkeeps : PopKeeps m top (m.unlinked t top prev)) : prev = n.prev := by
  obtain ⟨l', hchain, hcovers⟩ := hkeeps.chain
  have hchain : Linked m.memory.heap prev l' := hchain
  refine hchain.start_eq hrest (fun b hb => ?_) fun b hb => ?_
  · exact (h.mem_erase_iff b).mpr (hkeeps.top b hb).2
  · refine hcovers b ((h.mem_erase_iff b).mp ?_)
    rw [hb] at hrest
    obtain ⟨n', rest', -, rfl, -⟩ := hrest.exists_cons
    exact List.mem_cons_self

/-- A compare-exchange of `stack_pop` that succeeds is sound exactly when `prev` is
still what is in the node. -/
theorem keepsStack_iff {x : ι × Access} (h : Sound l m) (hnull : yieldsNull x = true)
    (hstep : Ledger.step m x = some m') : KeepsStack m x ↔ readsCurrent m x = true := by
  constructor
  · intro hkeeps
    obtain ⟨t, access⟩ := x
    unfold readsCurrent
    split
    · rename_i top prev hpc haccess
      obtain rfl : access = .own (.cas false) := haccess
      rw [decide_eq_true_iff]
      intro htop
      obtain ⟨n, rest, hn, rfl, hrest, -⟩ := h.top_live htop
      have hpop := hkeeps top prev _ hpc (Ledger.step_casPop hpc htop) (Function.update_self _ _ _)
      rw [hn, h.eq_of_popKeeps hrest hpop]
      rfl
    · rfl
  · intro hcurrent top prev m'' hpc hstep' hpopped
    obtain rfl := Option.some.inj (hstep.symm.trans hstep')
    obtain ⟨l', hsound⟩ := h.step hnull hcurrent hstep
    have htop := Ledger.top_of_popped hpc hstep hpopped
    refine ⟨fun b hb => ?_, ⟨l', hsound.pushers.chain, fun b hb => (hsound.live b).mpr hb⟩, ?_⟩
    · obtain ⟨n, rest, hn, -, -, hlive⟩ := hsound.top_live hb
      exact ⟨by simp [hn], hlive⟩
    · obtain ⟨n, rest, -, -, -, hlive⟩ := h.top_live htop
      exact hlive

end Sound

/-! ## Runs -/

/-- As long as every compare-exchange of `stack_pop` that succeeds finds the `prev` it
has read, the chain from `stack->top` is the pushed and not yet popped nodes, all of
them allocated, and a popped node is in one hand. -/
theorem chain_eq_live_of_readsCurrent (consumes : ι → Bool) {as : List (ι × Access)}
    (h : Trace Ledger.step (fun m x => (manyConsumers consumes m x = true ∧
      yieldsNull x = true) ∧ readsCurrent m x = true) Ledger.init as m) :
    ∃ l, Linked m.memory.heap m.memory.top l ∧ (∀ b, b ∈ l.map Prod.fst ↔ b ∈ m.live) ∧
      (∀ b ∈ m.live, m.memory.heap b ≠ none) ∧
      ∀ t u b, (m.memory.pc t).holds = some b → (m.memory.pc u).holds = some b → t = u := by
  have hrun : ∃ l, Sound l m := by
    refine h.invariant (P := fun m => ∃ l, Sound l m) ?_ ⟨[], sound_init⟩
    rintro m x m' ⟨l, hl⟩ ⟨⟨-, hnull⟩, hcurrent⟩ hstep
    exact hl.step hnull hcurrent hstep
  obtain ⟨l, hl⟩ := hrun
  exact ⟨l, hl.pushers.chain, hl.live, fun b hb => (hl.of_live hb).1, hl.held_inj⟩

/-- **Many consumers that free.**  In a run of any number of producers and consumers
in which `stack_pop` of the empty stack yields `NULL`, every successful
compare-exchange of `stack_pop` is sound if and only if each of them finds in
`top->prev` the value it has read there. -/
theorem pop_keeps_iff (consumes : ι → Bool) {as : List (ι × Access)}
    (h : Trace Ledger.step (fun m x => manyConsumers consumes m x = true ∧
      yieldsNull x = true) Ledger.init as m) :
    Trace Ledger.step KeepsStack Ledger.init as m ↔
      Trace Ledger.step (fun m x => readsCurrent m x = true) Ledger.init as m := by
  refine h.iff_of_invariant (P := fun m => ∃ l, Sound l m) ?_ ?_ ⟨[], sound_init⟩
  · rintro m x m' ⟨l, hl⟩ ⟨-, hnull⟩ hcurrent hstep
    exact hl.step hnull hcurrent hstep
  · rintro m x m' ⟨l, hl⟩ ⟨-, hnull⟩ hstep
    exact hl.keepsStack_iff hnull hstep

/-- A call of `stack_push`, undisturbed. -/
def pushCall (t : ℕ) (node : Addr) (value : ℤ) : List (ℕ × Access) :=
  [.callPush value, .malloc node ⟨0, none⟩, .storePayload, .load, .storePrev, .cas false].map
    fun a => (t, .own a)

/-- The part of `stack_pop` before its compare-exchange. -/
def popRead (t : ℕ) : List (ℕ × Access) :=
  [.callPop, .load, .readPrev].map fun a => (t, .own a)

/-- The compare-exchange of `stack_pop`, and what `consumer` does then. -/
def popTake (t : ℕ) : List (ℕ × Access) :=
  [.cas false, .print, .free].map fun a => (t, .own a)

/-- Both consumers have read the top; the second takes it, and the first has to look
again. -/
def bothRead : List (ℕ × Access) :=
  pushCall 0 101 7 ++ pushCall 0 100 8 ++ popRead 1 ++ popRead 2 ++ popTake 2 ++
    [(1, .own (.cas false)), (1, .own .load), (1, .own .readPrev)] ++ popTake 1

theorem pop_keeps_iff_bothRead :
    ∃ m, Trace Ledger.step KeepsStack Ledger.init bothRead m ∧ m.memory.output = [8, 7] := by
  obtain ⟨m, h, htest⟩ := Trace.exists_of_eval Ledger.step
    (fun m x => (manyConsumers (fun t => decide (t ≠ 0)) m x = true ∧ yieldsNull x = true) ∧
      readsCurrent m x = true)
    (fun m => m.memory.output = [8, 7]) Ledger.init bothRead (by decide +kernel)
  have hrun := h.mono fun _ _ hok => hok.1
  exact ⟨m, (pop_keeps_iff _ hrun).mpr (h.mono fun _ _ hok => hok.2), of_decide_eq_true htest⟩

/-- Consumer `1` has read that `101` is under `100`; consumer `2` pops and frees both;
and the producer gets `100` again and pushes it, on the empty stack. -/
def reusedTop : List (ℕ × Access) :=
  pushCall 0 101 7 ++ pushCall 0 100 8 ++ popRead 1 ++ popRead 2 ++ popTake 2 ++
    popRead 2 ++ popTake 2 ++ pushCall 0 100 9

/-- The compare-exchange of consumer `1` then succeeds, and `stack->top` is the freed
node `101`. -/
theorem pop_breaks_reusedTop :
    ∃ m m', Trace Ledger.step (fun m x => manyConsumers (fun t => decide (t ≠ 0)) m x = true ∧
        yieldsNull x = true) Ledger.init reusedTop m ∧
      m.memory.pc 1 = .popCas 100 (some 101) ∧ m.step (1, .own (.cas false)) = some m' ∧
      m'.memory.pc 1 = .popped (some 100) ∧ m'.memory.top = some 101 ∧
      m'.memory.heap 101 = none ∧ 101 ∉ m'.live ∧ ¬KeepsStack m (1, .own (.cas false)) := by
  obtain ⟨m, h, htest⟩ := Trace.exists_of_eval Ledger.step
    (fun m x => manyConsumers (fun t => decide (t ≠ 0)) m x = true ∧ yieldsNull x = true)
    (fun m => m.memory.pc 1 = .popCas 100 (some 101) ∧ m.memory.top = some 100 ∧
      m.memory.heap 101 = none ∧ 101 ∉ m.live) Ledger.init reusedTop (by decide +kernel)
  obtain ⟨hpc, htop, hfreed, hlive⟩ := of_decide_eq_true htest
  have hstep := Ledger.step_casPop hpc htop
  have hpopped : (m.unlinked 1 100 (some 101)).memory.pc 1 = .popped (some 100) := by
    simp [Ledger.unlinked, State.goto]
  refine ⟨m, _, h, hpc, hstep, hpopped, rfl, hfreed, ?_, fun hkeeps => ?_⟩
  · exact fun hmem => hlive (Finset.mem_of_mem_erase hmem)
  · exact ((hkeeps 100 (some 101) _ hpc hstep hpopped).top 101 rfl).1 hfreed

end LockFree
end CaosSeminars
