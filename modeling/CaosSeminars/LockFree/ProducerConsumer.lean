import CaosSeminars.Library.StackOrder
import CaosSeminars.LockFree.Reclamation

/-!
# The program of `stack.c`: one `producer`, one `consumer`

`main` starts one thread that pushes `0, 1, ..., n_pushes - 1` and one that pops
`n_pushes` nodes, prints and frees each, and asks again when `stack_pop` gave it
`NULL`.  A `Program` is the shared memory of `LockFree.Machine` with the two loop
counters; its step is a step of that machine that the loops allow.

What comes out follows from two facts about every interleaving: the stack is the
atomic one (`Reclaims.simulates`, whatever addresses come back), and the values
go in increasing.  `Delivers` puts the printed lines, the node in the consumer's
hand and the chain together as one `StackRun` of the numbers pushed so far.

* `Reclaims.unprinted_ne` --- the node that the consumer has popped and not printed yet is
  not written to by others.
* `delivered_of_moves` --- a step adds to what has left the stack exactly what it pops.
* `Delivers.step`, `Delivers.of_trace` --- the invariant; `Delivers.finished` is what it
  says at the end.
* `prints_stack_permutation` --- for every `n_pushes` and every interleaving: when both
  loops are over, each number has been printed once, in an order in which a stack gives back
  what was pushed increasing.
-/

namespace CaosSeminars
namespace LockFree

/-- The two threads that `main` starts. -/
inductive Thread where
  | producer
  | consumer
  deriving DecidableEq

/-- The shared memory and the loop counters `i` of `producer` and `consumer`. -/
structure Program where
  shared : State Thread
  /-- `i` in `producer`: the calls of `stack_push` that have returned. -/
  pushes : ℕ
  /-- `i` in `consumer`: the nodes that have been freed. -/
  pops : ℕ

namespace Program

/-- After `stack_init`, both threads before their first call. -/
def start : Program := ⟨init, 0, 0⟩

variable (n_pushes : ℕ)

/-- What the two loops do next: `producer` pushes its counter, `consumer` pops,
and pops again when it got `NULL`.  A call of `stack_pop` that saw an empty stack
yields `NULL`. -/
def follows (p : Program) : Thread × Act → Bool
  | (.producer, .callPush value) => p.pushes < n_pushes ∧ value = p.pushes
  | (.producer, .callPop) => false
  | (.consumer, .callPush _) => false
  | (.consumer, .callPop) => p.pops < n_pushes
  | (t, .drop) => p.shared.pc t = .popped none
  | (_, .fallOff ret) => ret = none
  | _ => true

/-- One step of one of the threads.  `++i` follows the return of `stack_push` in
`producer` and `free` in `consumer`. -/
def step (p : Program) (x : Thread × Act) : Option Program :=
  if follows n_pushes p x then
    (LockFree.step p.shared x).map fun s =>
      { shared := s
        pushes := if x.1 = .producer ∧ s.pc .producer = .idle then p.pushes + 1 else p.pushes
        pops := if x.2 = .free ∧ s.pc .consumer = .idle then p.pops + 1 else p.pops }
  else none

/-- Both loops are over, and both threads have returned. -/
structure Finished (p : Program) : Prop where
  producer : p.shared.pc .producer = .idle ∧ p.pushes = n_pushes
  consumer : p.shared.pc .consumer = .idle ∧ p.pops = n_pushes

variable {n_pushes}

theorem oneConsumer_of_follows {p : Program} {x : Thread × Act} (h : follows n_pushes p x = true) :
    oneConsumer .consumer p.shared x = true := by
  obtain ⟨t, a⟩ := x
  cases t <;> cases a <;> simp_all [follows, oneConsumer]

theorem value_of_follows {p : Program} {t : Thread} {value : ℤ}
    (h : follows n_pushes p (t, .callPush value) = true) : t = .producer ∧ value = p.pushes := by
  cases t <;> simp_all [follows]

end Program

/-! ## What has left the stack -/

namespace Pc

/-- The node that `stack_pop` has returned and that has not been printed. -/
def unprinted : Pc → Option Addr
  | .popped ret => ret
  | _ => none

theorem holds_of_unprinted {pc : Pc} {a : Addr} (h : pc.unprinted = some a) :
    pc.holds = some a := by
  cases pc <;> simp_all [unprinted, holds]

end Pc

/-- The lines printed, and the payload of the node that is printed next. -/
def delivered (s : State Thread) : List ℤ :=
  s.output ++ (((s.pc .consumer).unprinted.bind s.heap).map StackNode.payload).toList

variable {s s' : State Thread} {t : Thread} {a : Act} {σ : AtomicStack Thread Addr ℤ}

/-- A step delivers nothing when it prints nothing, hands out no node and leaves
the node in the consumer's hand alone. -/
theorem delivered_same {pc' : Pc} (hpc : s'.pc = Function.update s.pc t pc')
    (houtput : s'.output = s.output) (hbefore : (s.pc t).unprinted = none)
    (hafter : pc'.unprinted = none)
    (hheap : ∀ b, (s.pc .consumer).unprinted = some b → s'.heap b = s.heap b) :
    delivered s' = delivered s := by
  rw [delivered, delivered, houtput, hpc]
  by_cases ht : t = .consumer
  · subst ht
    rw [Function.update_self, hafter, hbefore]
    rfl
  · rw [Function.update_of_ne (Ne.symm ht)]
    cases hun : (s.pc .consumer).unprinted with
    | none => rfl
    | some b => rw [Option.bind_some, Option.bind_some, hheap b hun]

/-- The node in the consumer's hand is allocated, and no thread writes to it. -/
theorem Reclaims.unprinted_ne (h : Reclaims .consumer s σ) {node b : Addr}
    (hnode : s.heap node = none ∨ (s.pc t).owned = some node)
    (hb : (s.pc .consumer).unprinted = some b) : b ≠ node := by
  have hpub := (h.consumer.held b (Pc.holds_of_unprinted hb)).1
  have hinv := h.refines.inv
  rintro rfl
  rcases hnode with hfree | hown
  · exact hinv.alloc b hpub hfree
  · exact ((hinv.threads t).of_owned hown).2 hpub

/-- **One step delivers what it pops.** -/
theorem delivered_of_moves (h : Reclaims .consumer s σ)
    (hok : oneConsumer .consumer s (t, a) = true) (hm : Moves s t a s') :
    delivered s' = delivered s ++ ((shows s (t, a)).bind StackEvent.popped?).toList := by
  have hinv := h.refines.inv
  have hcare := h.consumer.careful hinv t a
  -- All steps but the pop deliver nothing.
  have hnothing : (shows s (t, a)).bind StackEvent.popped? = none → delivered s' = delivered s →
      delivered s' = delivered s ++ ((shows s (t, a)).bind StackEvent.popped?).toList := by
    intro hnone hsame
    rw [hnone, hsame, Option.toList_none, List.append_nil]
  cases hm with
  | callPush value hpc =>
    refine hnothing (by simp [shows, hpc, StackEvent.popped?]) ?_
    exact delivered_same rfl rfl (by rw [hpc]; rfl) rfl fun _ _ => rfl
  | malloc node junk hpc hfree =>
    refine hnothing (by simp [shows, hpc]) ?_
    refine delivered_same rfl rfl (by rw [hpc]; rfl) rfl fun b hb => ?_
    exact Function.update_of_ne (h.unprinted_ne (t := t) (Or.inl hfree) hb) _ _
  | @storePayload node value n hpc hn =>
    refine hnothing (by simp [shows, hpc]) ?_
    refine delivered_same rfl rfl (by rw [hpc]; rfl) rfl fun b hb => ?_
    exact Function.update_of_ne (h.unprinted_ne (t := t) (Or.inr (by rw [hpc]; rfl)) hb) _ _
  | loadPush hpc =>
    refine hnothing (by simp [shows, hpc]) ?_
    exact delivered_same rfl rfl (by rw [hpc]; rfl) rfl fun _ _ => rfl
  | @storePrev node value top n hpc hn =>
    refine hnothing (by simp [shows, hpc]) ?_
    refine delivered_same rfl rfl (by rw [hpc]; rfl) rfl fun b hb => ?_
    exact Function.update_of_ne (h.unprinted_ne (t := t) (Or.inr (by rw [hpc]; rfl)) hb) _ _
  | casPush hpc htop =>
    refine hnothing (by simp [shows, hpc, htop, StackEvent.popped?]) ?_
    exact delivered_same rfl rfl (by rw [hpc]; rfl) rfl fun _ _ => rfl
  | casPushFail spurious hpc hfail =>
    refine hnothing (by simp [shows, hpc, if_neg hfail]) ?_
    exact delivered_same rfl rfl (by rw [hpc]; rfl) rfl fun _ _ => rfl
  | callPop hpc =>
    refine hnothing (by simp [shows, hpc, StackEvent.popped?]) ?_
    exact delivered_same rfl rfl (by rw [hpc]; rfl) rfl fun _ _ => rfl
  | loadPop hpc htop =>
    refine hnothing (by simp [shows, hpc, htop]) ?_
    exact delivered_same rfl rfl (by rw [hpc]; rfl) rfl fun _ _ => rfl
  | loadNull hpc htop =>
    refine hnothing (by simp [shows, hpc, htop, StackEvent.popped?]) ?_
    exact delivered_same rfl rfl (by rw [hpc]; rfl) rfl fun _ _ => rfl
  | readPrev hpc hn =>
    refine hnothing (by simp [shows, hpc]) ?_
    exact delivered_same rfl rfl (by rw [hpc]; rfl) rfl fun _ _ => rfl
  | @casPop top prev hpc htop =>
    obtain rfl := h.consumer.eq_of_popping (t := t) (by rw [hpc]; rfl)
    obtain ⟨value, rest, hheap, -, -⟩ := hinv.top_of_popCas hpc htop
    have hbefore : delivered s = s.output := by simp [delivered, hpc, Pc.unprinted]
    rw [hbefore]
    simp [shows, delivered, State.goto, State.unlink, hpc, htop, hheap, Pc.unprinted,
      StackEvent.popped?]
  | casPopFail spurious hpc hfail =>
    refine hnothing (by simp [shows, hpc, if_neg hfail]) ?_
    exact delivered_same rfl rfl (by rw [hpc]; rfl) rfl fun _ _ => rfl
  | fallOff ret hpc =>
    have hret : ret = none := by simpa [oneConsumer] using hok
    refine hnothing (by simp [shows, hpc]) ?_
    exact delivered_same rfl rfl (by rw [hpc]; rfl) hret fun _ _ => rfl
  | drop hpc =>
    have hnull : s.pc t = .popped none := by simpa [oneConsumer] using hok
    refine hnothing (by simp [shows, hpc]) ?_
    exact delivered_same rfl rfl (by rw [hnull]; rfl) rfl fun _ _ => rfl
  | @print node n hpc hn =>
    -- The payload moves from the hand to the output.
    obtain rfl := h.consumer.eq_of_popping (t := t) (by rw [hpc]; rfl)
    refine hnothing (by simp [shows, hpc]) ?_
    simp [delivered, State.goto, State.printLine, hpc, hn, Pc.unprinted]
  | free hpc hn =>
    refine hnothing (by simp [shows, hpc]) ?_
    refine delivered_same rfl rfl (by rw [hpc]; rfl) rfl fun b hb => ?_
    obtain rfl := h.consumer.eq_of_popping (t := t) (by rw [hpc]; rfl)
    exact absurd hb (by simp [hpc, Pc.unprinted])
  | writeFreed hpc hn =>
    exact absurd (h.refines.simulates hcare (.writeFreed hpc hn)).1 (by simp [State.fault])
  | readFreed hpc hn =>
    exact absurd (h.refines.simulates hcare (.readFreed hpc hn)).1 (by simp [State.fault])
  | doubleFree hpc hn =>
    exact absurd (h.refines.simulates hcare (.doubleFree hpc hn)).1 (by simp [State.fault])

/-! ## The loop counters -/

/-- The nodes printed and not yet freed. -/
def Pc.unfreed : Pc → ℕ
  | .printed _ => 1
  | _ => 0

/-- A step of the consumer prints one line, or frees the node of the line it has
printed, or does neither. -/
theorem printed_of_consumer (hm : Moves s .consumer a s') (hfaults : s'.faults = s.faults) :
    s'.output.length + (s.pc .consumer).unfreed =
      s.output.length + (s'.pc .consumer).unfreed +
        if a = .free ∧ s'.pc .consumer = .idle then 1 else 0 := by
  cases hm <;> simp_all [Pc.unfreed, State.goto, State.fault, State.setNode, State.publish,
    State.unlink, State.release, State.printLine]

/-- A step of the producer prints nothing, frees nothing and does not move the
consumer. -/
theorem printed_of_producer (hm : Moves s .producer a s')
    (hpop : (s.pc .producer).popping = false) (hfaults : s'.faults = s.faults) :
    s'.output = s.output ∧ s'.pc .consumer = s.pc .consumer ∧ a ≠ .free := by
  cases hm <;> simp_all [Pc.popping, State.goto, State.fault, State.setNode, State.publish]

/-- `producer` gets back between its calls by a push that has taken effect. -/
theorem shows_of_producer_idle (hm : Moves s .producer a s')
    (hpop : (s.pc .producer).popping = false) (hidle : s'.pc .producer = .idle) :
    ∃ node value, shows s (.producer, a) = some (.push .producer node value) := by
  cases hm <;> simp_all [Pc.popping, State.goto, State.fault, State.setNode, State.publish, shows]

theorem callPush_of_shows {w : Thread} {v : ℤ} (hm : Moves s t a s')
    (hfaults : s'.faults = s.faults) (h : shows s (t, a) = some (.callPush w v)) :
    w = t ∧ a = .callPush v := by
  cases hm <;> simp_all [shows, State.fault]

/-- The event of a push is its thread's return to its loop. -/
theorem push_of_shows {w : Thread} {node : Addr} {v : ℤ} (hm : Moves s t a s')
    (hfaults : s'.faults = s.faults) (h : shows s (t, a) = some (.push w node v)) :
    w = t ∧ s'.pc t = .idle ∧ (s.pc t).status = .pushing v := by
  cases hm <;> simp_all [shows, State.goto, State.fault, Pc.status]

/-- A thread is in `stack_push` since its call, and until its push takes effect. -/
theorem Reclaims.of_pushing (h : Reclaims .consumer s σ)
    (hok : oneConsumer .consumer s (t, a) = true) (hs : LockFree.step s (t, a) = some s')
    {u : Thread} {v : ℤ} (hu : (s'.pc u).status = .pushing v) :
    shows s (t, a) = some (.callPush u v) ∨
      ((s.pc u).status = .pushing v ∧
        ∀ node w, shows s (t, a) ≠ some (.push u node w)) := by
  rcases h.simulates hok hs with ⟨hshows, hrec⟩ | ⟨e, τ, hshows, hτ, hrec⟩
  · rw [← hrec.refines.status u, h.refines.status u] at hu
    exact Or.inr ⟨hu, by simp [hshows]⟩
  · rw [← hrec.refines.status u] at hu
    rcases hτ.of_pushing hu with rfl | ⟨hu, hne⟩
    · exact Or.inl hshows
    · rw [h.refines.status u] at hu
      exact Or.inr ⟨hu, fun node w hpush => hne node w (Option.some.inj (hshows.symm.trans hpush))⟩

/-! ## The invariant -/

/-- `0, 1, ..., n - 1`. -/
def firstInts (n : ℕ) : List ℤ := (List.range n).map fun i : ℕ => (i : ℤ)

theorem firstInts_succ (n : ℕ) : firstInts (n + 1) = firstInts n ++ [(n : ℤ)] := by
  rw [firstInts, List.range_succ, List.map_append]
  rfl

theorem length_firstInts (n : ℕ) : (firstInts n).length = n := by
  rw [firstInts, List.length_map, List.length_range]

theorem pairwise_firstInts (n : ℕ) : (firstInts n).Pairwise (· < ·) :=
  List.pairwise_map.mpr (List.pairwise_lt_range.imp fun h => Int.ofNat_lt.mpr h)

/-- What holds in every state: the numbers pushed so far went through a stack, and
the counters count what has been pushed and printed. -/
structure Delivers (p : Program) (σ : AtomicStack Thread Addr ℤ) : Prop where
  reclaims : Reclaims .consumer p.shared σ
  run : StackRun (firstInts p.pushes) (delivered p.shared) (σ.stack.map Prod.snd)
  pushing : ∀ t v, (p.shared.pc t).status = .pushing v → t = .producer ∧ v = p.pushes
  printed : p.shared.output.length = p.pops + (p.shared.pc .consumer).unfreed

theorem delivers_start : Delivers Program.start AtomicStack.empty where
  reclaims := reclaims_init Thread.consumer
  run := StackRun.nil
  pushing := fun _ _ h => absurd h (by simp [Program.start, init, Pc.status])
  printed := rfl

variable {n_pushes : ℕ} {p p' : Program}

/-- What a step of the program does to the shared memory and to the counters. -/
theorem Program.of_step (hstep : Program.step n_pushes p (t, a) = some p') :
    Program.follows n_pushes p (t, a) = true ∧
      LockFree.step p.shared (t, a) = some p'.shared ∧
      p'.pushes = (if t = .producer ∧ p'.shared.pc .producer = .idle then p.pushes + 1
        else p.pushes) ∧
      p'.pops = (if a = .free ∧ p'.shared.pc .consumer = .idle then p.pops + 1 else p.pops) := by
  obtain ⟨hfollows, hmap⟩ := Option.ite_none_right_eq_some.mp hstep
  obtain ⟨s, hs, rfl⟩ := Option.map_eq_some_iff.mp hmap
  exact ⟨hfollows, hs, rfl, rfl⟩

namespace Delivers

/-- The counter of `consumer` counts what has been printed and freed. -/
theorem printed_step (h : Delivers p σ) (hm : Moves p.shared t a p'.shared)
    (hfaults : p'.shared.faults = p.shared.faults)
    (hpops : p'.pops = if a = .free ∧ p'.shared.pc .consumer = .idle then p.pops + 1
      else p.pops) :
    p'.shared.output.length = p'.pops + (p'.shared.pc .consumer).unfreed := by
  have hbefore := h.printed
  cases t with
  | producer =>
    have hpop := h.reclaims.consumer.others .producer (by decide)
    obtain ⟨houtput, hpc, hfree⟩ := printed_of_producer hm hpop hfaults
    rw [if_neg fun hand => hfree hand.1] at hpops
    rw [houtput, hpc, hpops, hbefore]
  | consumer =>
    have hcount := printed_of_consumer hm hfaults
    rw [hpops]
    by_cases hand : a = .free ∧ p'.shared.pc .consumer = .idle
    · rw [if_pos hand] at hcount ⊢
      omega
    · rw [if_neg hand] at hcount ⊢
      omega

/-- The counter of `producer` counts the pushes that have taken effect. -/
theorem pushes_step (h : Delivers p σ) (hm : Moves p.shared t a p'.shared)
    (hfaults : p'.shared.faults = p.shared.faults)
    (hpushes : p'.pushes = if t = .producer ∧ p'.shared.pc .producer = .idle then p.pushes + 1
      else p.pushes) :
    (p'.pushes = p.pushes ∧ ∀ node v, shows p.shared (t, a) ≠ some (.push .producer node v)) ∨
      (p'.pushes = p.pushes + 1 ∧
        ∃ node v, shows p.shared (t, a) = some (.push .producer node v)) := by
  have hpop := h.reclaims.consumer.others .producer (by decide)
  by_cases hreturns : t = .producer ∧ p'.shared.pc .producer = .idle
  · rw [if_pos hreturns] at hpushes
    obtain ⟨rfl, hidle⟩ := hreturns
    exact Or.inr ⟨hpushes, shows_of_producer_idle hm hpop hidle⟩
  · rw [if_neg hreturns] at hpushes
    refine Or.inl ⟨hpushes, fun node v hshows => hreturns ?_⟩
    obtain ⟨rfl, hidle, -⟩ := push_of_shows hm hfaults hshows
    exact ⟨rfl, hidle⟩

theorem pushed_step (h : Delivers p σ) (hm : Moves p.shared t a p'.shared)
    (hfaults : p'.shared.faults = p.shared.faults)
    (hpushes : p'.pushes = if t = .producer ∧ p'.shared.pc .producer = .idle then p.pushes + 1
      else p.pushes) :
    firstInts p'.pushes =
      firstInts p.pushes ++ ((shows p.shared (t, a)).bind StackEvent.pushed?).toList := by
  rcases h.pushes_step hm hfaults hpushes with ⟨hsame, hnone⟩ | ⟨hsucc, node, v, hpush⟩
  · have hpushed : (shows p.shared (t, a)).bind StackEvent.pushed? = none := by
      cases hshows : shows p.shared (t, a) with
      | none => rfl
      | some e =>
        cases e with
        | push w node v =>
          obtain ⟨rfl, -, hstatus⟩ := push_of_shows hm hfaults hshows
          obtain ⟨rfl, -⟩ := h.pushing w v hstatus
          exact absurd hshows (hnone node v)
        | _ => rfl
    rw [hsame, hpushed, Option.toList_none, List.append_nil]
  · obtain ⟨rfl, -, hstatus⟩ := push_of_shows hm hfaults hpush
    obtain ⟨-, rfl⟩ := h.pushing .producer v hstatus
    rw [hsucc, hpush, firstInts_succ]
    rfl

/-- The producer is in the push of the next number, or in none. -/
theorem pushing_step (h : Delivers p σ) (hfollows : Program.follows n_pushes p (t, a) = true)
    (hs : LockFree.step p.shared (t, a) = some p'.shared)
    (hfaults : p'.shared.faults = p.shared.faults)
    (hpushes : p'.pushes = if t = .producer ∧ p'.shared.pc .producer = .idle then p.pushes + 1
      else p.pushes) {u : Thread} {v : ℤ} (hu : (p'.shared.pc u).status = .pushing v) :
    u = .producer ∧ v = p'.pushes := by
  have hok := Program.oneConsumer_of_follows hfollows
  have hm := moves_of_step hs
  have hproducer : u = .producer ∧ v = p.pushes ∧
      ∀ node w, shows p.shared (t, a) ≠ some (.push u node w) := by
    rcases h.reclaims.of_pushing hok hs hu with hcall | ⟨hu, hne⟩
    · obtain ⟨rfl, rfl⟩ := callPush_of_shows hm hfaults hcall
      obtain ⟨rfl, hv⟩ := Program.value_of_follows hfollows
      exact ⟨rfl, hv, by simp [hcall]⟩
    · exact ⟨(h.pushing u v hu).1, (h.pushing u v hu).2, hne⟩
  obtain ⟨rfl, rfl, hne⟩ := hproducer
  rcases h.pushes_step hm hfaults hpushes with ⟨hsame, -⟩ | ⟨-, node, w, hpush⟩
  · exact ⟨rfl, by rw [hsame]⟩
  · exact absurd hpush (hne node w)

theorem step (h : Delivers p σ) (hstep : Program.step n_pushes p (t, a) = some p') :
    ∃ τ, Delivers p' τ := by
  obtain ⟨hfollows, hs, hpushes, hpops⟩ := Program.of_step hstep
  have hok := Program.oneConsumer_of_follows hfollows
  have hm := moves_of_step hs
  have hdelivered := delivered_of_moves h.reclaims hok hm
  -- The atomic stack moves by the event of the step, or not at all.
  have hstack : ∃ τ, Reclaims .consumer p'.shared τ ∧
      StackRun (firstInts p.pushes ++ ((shows p.shared (t, a)).bind StackEvent.pushed?).toList)
        (delivered p'.shared) (τ.stack.map Prod.snd) := by
    rw [hdelivered]
    rcases h.reclaims.simulates hok hs with ⟨hshows, hrec⟩ | ⟨e, τ, hshows, hτ, hrec⟩
    · refine ⟨σ, hrec, ?_⟩
      simpa [hshows] using h.run
    · refine ⟨τ, hrec, ?_⟩
      simpa only [hshows, Option.bind_some] using hτ.stackRun h.run
  obtain ⟨τ, hrec, hrun⟩ := hstack
  have hfaults : p'.shared.faults = p.shared.faults := hrec.faults.trans h.reclaims.faults.symm
  rw [← h.pushed_step hm hfaults hpushes] at hrun
  exact ⟨τ, hrec, hrun, fun u v hu => h.pushing_step hfollows hs hfaults hpushes hu,
    h.printed_step hm hfaults hpops⟩

theorem of_trace {as : List (Thread × Act)}
    (h : Trace (Program.step n_pushes) (fun _ _ => True) Program.start as p) :
    ∃ σ, Delivers p σ := by
  refine h.invariant (P := fun p => ∃ σ, Delivers p σ) ?_ ⟨_, delivers_start⟩
  rintro p ⟨t, a⟩ p' ⟨σ, hσ⟩ - hstep
  exact hσ.step hstep

end Delivers

/-! ## What the program prints -/

/-- When both loops are over, everything has come off the stack and is printed. -/
theorem Delivers.finished (h : Delivers p σ) (hfinished : p.Finished n_pushes) :
    StackRun (firstInts n_pushes) p.shared.output [] ∧ p.shared.top = none := by
  obtain ⟨-, hpushes⟩ := hfinished.producer
  obtain ⟨hidle, hpops⟩ := hfinished.consumer
  have hdelivered : delivered p.shared = p.shared.output := by
    simp [delivered, hidle, Pc.unprinted]
  have hrun := h.run
  rw [hpushes, hdelivered] at hrun
  have hlength : p.shared.output.length = n_pushes := by
    rw [h.printed, hpops, hidle]
    rfl
  have hstack : σ.stack = [] := by
    have hperm := hrun.perm.length_eq
    rw [List.length_append, length_firstInts, hlength, List.length_map] at hperm
    exact List.eq_nil_of_length_eq_zero (by omega)
  have hchain := h.reclaims.refines.inv.chain
  rw [hstack] at hrun hchain
  exact ⟨hrun, hchain.eq_none⟩

/-- **What the program prints.**  Whatever the interleaving and whichever freed
addresses come back, once both threads have finished the lines are a permutation
of `0, 1, ..., n_pushes - 1` that a stack can make of them, with no three lines in
the order high, low, middle; and the stack is empty. -/
theorem prints_stack_permutation {as : List (Thread × Act)}
    (h : Trace (Program.step n_pushes) (fun _ _ => True) Program.start as p)
    (hfinished : p.Finished n_pushes) :
    p.shared.output.Perm (firstInts n_pushes) ∧ p.shared.top = none ∧
      StackRun (firstInts n_pushes) p.shared.output [] ∧
      ∀ (i j k : ℕ) (_ : i < j) (_ : j < k) (_ : k < p.shared.output.length),
        ¬(p.shared.output[j] < p.shared.output[k] ∧
          p.shared.output[k] < p.shared.output[i]) := by
  obtain ⟨σ, hσ⟩ := Delivers.of_trace h
  obtain ⟨hrun, htop⟩ := hσ.finished hfinished
  have hperm := hrun.perm
  rw [List.append_nil] at hperm
  have htriple := hrun.triplewise (pairwise_firstInts n_pushes)
  exact ⟨hperm, htop, hrun, List.triplewise_iff_getElem.mp htriple⟩

/-- One call of `stack_push` by `producer`, undisturbed. -/
def pushTurn (node : Addr) (value : ℤ) : List (Thread × Act) :=
  [.callPush value, .malloc node ⟨0, none⟩, .storePayload, .load, .storePrev, .cas false].map
    (Prod.mk .producer)

/-- One turn of the loop of `consumer` that finds a node. -/
def popTurn : List (Thread × Act) :=
  [.callPop, .load, .readPrev, .cas false, .print, .free].map (Prod.mk .consumer)

/-- The consumer runs after `1` was pushed, and again at the end; `2` is pushed
under the address that was freed in between. -/
def oneFreedEarly : List (Thread × Act) :=
  pushTurn 100 0 ++ pushTurn 101 1 ++ popTurn ++ pushTurn 101 2 ++ popTurn ++ popTurn

/-- The program with three numbers, printing `1, 2, 0`. -/
theorem prints_stack_permutation_oneFreedEarly :
    ∃ p, Trace (Program.step 3) (fun _ _ => True) Program.start oneFreedEarly p ∧
      p.shared.output = [1, 2, 0] ∧ p.shared.output.Perm (firstInts 3) ∧
      p.shared.top = none := by
  obtain ⟨p, h, htest⟩ := Trace.exists_of_eval (Program.step 3) (fun _ _ => True)
    (fun p => p.shared.output = [1, 2, 0] ∧ p.shared.pc .producer = .idle ∧ p.pushes = 3 ∧
      p.shared.pc .consumer = .idle ∧ p.pops = 3) Program.start oneFreedEarly (by decide +kernel)
  obtain ⟨houtput, hproducer, hpushes, hconsumer, hpops⟩ := of_decide_eq_true htest
  obtain ⟨hperm, htop, -⟩ :=
    prints_stack_permutation h ⟨⟨hproducer, hpushes⟩, ⟨hconsumer, hpops⟩⟩
  exact ⟨p, h, houtput, hperm, htop⟩

end LockFree
end CaosSeminars
