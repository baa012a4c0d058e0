import CaosSeminars.LockFree.ManyConsumers

/-!
# What `stack_pop` returns

`stack_pop` returns the node its compare-exchange has taken off the stack.  When
`atomic_load` finds `NULL` it leaves its loop, and no `return` follows: its caller goes on
with whatever value is found.

`Calls` is the shared memory, together with what each thread's call of `stack_pop` has
loaded last and what it has detached; no step reads these.  A step can be trusted when the
value that is returned in it agrees with them, and when a node that is freed in it was
detached by the call that has returned it (`Trusted`).

So long as every load of `stack_pop` finds a node, whatever can happen next can be trusted;
and as soon as one does not, the call may return anything (`trusted_iff`).  Nothing depends
on how the nodes are used: threads may free them and `malloc` may hand them out again.

* `AllRecorded` --- the invariant: what is recorded of a thread agrees with what it holds.
* `AllRecorded.step` --- one step, in which the histories of the other threads stay as they
  are (`Calls.step_of_ne`).
* `AllRecorded.canTrust`, `not_canTrust` --- the two directions; `trusted_iff` states them
  of every run.
-/

namespace CaosSeminars
namespace LockFree

variable {ι : Type*}

/-- The shared memory, and the history of each thread's call of `stack_pop`. -/
structure Calls (ι : Type*) where
  ledger : Ledger ι
  /-- What the last `atomic_load` of the call has loaded. -/
  lastLoad : ι → Option Addr
  /-- The node that the compare-exchange of the call has taken off the stack. -/
  detached : ι → Option Addr

namespace Calls

/-- The program point of a thread. -/
def pc (m : Calls ι) (t : ι) : Pc := m.ledger.memory.pc t

/-- After `stack_init`, with no thread inside an operation. -/
def init : Calls ι := ⟨Ledger.init, fun _ => none, fun _ => none⟩

variable [DecidableEq ι]

/-- The loads of `stack_pop`. -/
def recordLoad (m : Calls ι) (t : ι) : ι → Option Addr :=
  if m.pc t = .popLoad then Function.update m.lastLoad t m.ledger.memory.top else m.lastLoad

theorem recordLoad_of_popLoad (m : Calls ι) {t : ι} (hpc : m.pc t = .popLoad) :
    m.recordLoad t t = m.ledger.memory.top := by
  rw [recordLoad, if_pos hpc, Function.update_self]

theorem recordLoad_of_ne (m : Calls ι) {t : ι} (hpc : m.pc t ≠ .popLoad) :
    m.recordLoad t = m.lastLoad := if_neg hpc

/-- What a compare-exchange that succeeds detaches. -/
def recordDetached (m : Calls ι) (t : ι) (l : Ledger ι) : ι → Option Addr :=
  match m.pc t, l.memory.pc t with
  | .idle, .popLoad => Function.update m.detached t none
  | .popCas top _, .popped _ => Function.update m.detached t (some top)
  | _, _ => m.detached

theorem recordDetached_of_popCas (m : Calls ι) {t : ι} {l : Ledger ι} {top : Addr}
    {prev ret : Option Addr} (hpc : m.pc t = .popCas top prev)
    (hpc' : l.memory.pc t = .popped ret) :
    m.recordDetached t l t = some top := by
  rw [recordDetached, hpc, hpc']
  exact Function.update_self _ _ _

theorem recordDetached_of_popped (m : Calls ι) {t : ι} {l : Ledger ι} {ret : Option Addr}
    (hpc : m.pc t = .popped ret) : m.recordDetached t l = m.detached := by
  rw [recordDetached, hpc]

theorem recordDetached_of_ne (m : Calls ι) {t u : ι} {l : Ledger ι} (hu : u ≠ t) :
    m.recordDetached t l u = m.detached u := by
  unfold recordDetached
  generalize m.pc t = pc, l.memory.pc t = pc'
  split
  · exact Function.update_of_ne hu _ _
  · exact Function.update_of_ne hu _ _
  · rfl

/-- One access of one thread. -/
def step (m : Calls ι) (x : ι × Access) : Option (Calls ι) :=
  (Ledger.step m.ledger x).map fun l => ⟨l, m.recordLoad x.1, m.recordDetached x.1 l⟩

end Calls

/-- What a step of a thread returns and frees is what its call of `stack_pop` has detached:
`NULL` is returned exactly if `NULL` was loaded last. -/
structure Trusted (m : Calls ι) (x : ι × Access) (m' : Calls ι) : Prop where
  null : ∀ ret, m'.pc x.1 = .popped ret → (ret = none ↔ m'.lastLoad x.1 = none)
  node : ∀ node, m'.pc x.1 = .popped (some node) → m'.detached x.1 = some node
  free : ∀ node, m.pc x.1 = .printed node → x.2 = .own .free → m.detached x.1 = some node

/-- Whatever happens next can be trusted. -/
def CanTrust [DecidableEq ι] (m : Calls ι) : Prop := ∀ x m', m.step x = some m' → Trusted m x m'

/-- If the step is a load of `stack_pop`, it finds a node. -/
def findsNode (m : Calls ι) (x : ι × Access) : Bool :=
  m.pc x.1 = .popLoad → m.ledger.memory.top ≠ none

/-! ## The invariant -/

/-- What the program point of a thread says of the history of its call.  No call has left its
loop without a node. -/
def Recorded (lastLoad detached : Option Addr) : Pc → Prop
  | .popPrev top | .popCas top _ => lastLoad = some top
  | .popEnd | .popped none => False
  | .popped (some node) => lastLoad = some node ∧ detached = some node
  | .printed node => detached = some node
  | _ => True

/-- Every call that has returned a node has detached it. -/
def AllRecorded (m : Calls ι) : Prop := ∀ t, Recorded (m.lastLoad t) (m.detached t) (m.pc t)

variable [DecidableEq ι] {m m' : Calls ι} {x : ι × Access} {t u : ι}
  {lastLoad detached : Option Addr}

theorem Moves.pc_of_ne {s s' : State ι} {a : Act} (h : Moves s t a s') (hu : u ≠ t) :
    s'.pc u = s.pc u := by
  cases h <;> exact Function.update_of_ne hu _ _

omit [DecidableEq ι] in
theorem allRecorded_init : AllRecorded (Calls.init : Calls ι) := fun _ => trivial

namespace Recorded

theorem update {pc : ι → Pc} {p : Pc} (h : Recorded lastLoad detached p) :
    Recorded lastLoad detached (Function.update pc t p t) := by
  rwa [Function.update_self]

/-- Between the load and the compare-exchange. -/
theorem readPrev {s : State ι} {top : Addr} {prev : Option Addr} {live : Finset Addr}
    (h : Recorded (m.lastLoad t) (m.detached t) (m.pc t)) (hpc : m.pc t = .popPrev top)
    (hs : s.pc t = .popCas top prev) :
    Recorded (m.recordLoad t t) (m.recordDetached t ⟨s, live⟩ t) (s.pc t) := by
  rw [hpc] at h
  rw [hs, m.recordLoad_of_ne (by simp [hpc])]
  exact h

/-- **What a step does to the thread that takes it**, when it does not leave the loop of
`stack_pop` without a node. -/
theorem step {access : Access} (h : Recorded (m.lastLoad t) (m.detached t) (m.pc t))
    (hfinds : findsNode m (t, access) = true) (hstep : m.step (t, access) = some m') :
    Recorded (m'.lastLoad t) (m'.detached t) (m'.pc t) := by
  obtain ⟨l, hl, rfl⟩ := Option.map_eq_some_iff.mp hstep
  cases access with
  | readStale bytes =>
    simp only [Ledger.step] at hl
    split at hl
    · rename_i top hpc
      obtain ⟨-, ⟨⟩⟩ := Option.ite_none_right_eq_some.mp hl
      exact h.readPrev hpc (Function.update_self _ _ _)
    · cases hl
  | own a =>
    obtain ⟨s', hs, rfl⟩ := Option.map_eq_some_iff.mp hl
    have hrecord : ∀ {pc : Pc}, m.pc t = pc → Recorded (m.lastLoad t) (m.detached t) pc :=
      fun hpc => hpc ▸ h
    cases moves_of_step hs with
    | @loadPop top hpc htop =>
      exact update (p := .popPrev top) ((m.recordLoad_of_popLoad hpc).trans htop)
    | loadNull hpc htop => exact absurd htop (of_decide_eq_true hfinds hpc)
    | readPrev hpc hn => exact h.readPrev hpc (Function.update_self _ _ _)
    | @casPop top prev hpc htop =>
      refine update ⟨?_, ?_⟩
      · rw [m.recordLoad_of_ne (by simp [Calls.pc, hpc])]
        exact hrecord hpc
      · exact m.recordDetached_of_popCas hpc (Function.update_self _ _ _)
    | fallOff ret hpc => exact (hrecord hpc).elim
    | @print node n hpc hn =>
      refine update ?_
      rw [m.recordDetached_of_popped hpc]
      exact (hrecord hpc).2
    | _ => exact update trivial

end Recorded

theorem Calls.step_of_ne {access : Access} (hstep : m.step (t, access) = some m') (hu : u ≠ t) :
    m'.lastLoad u = m.lastLoad u ∧ m'.detached u = m.detached u ∧ m'.pc u = m.pc u := by
  obtain ⟨l, hl, rfl⟩ := Option.map_eq_some_iff.mp hstep
  refine ⟨?_, ?_, ?_⟩
  · show m.recordLoad t u = _
    unfold Calls.recordLoad
    split
    · exact Function.update_of_ne hu _ _
    · rfl
  · exact m.recordDetached_of_ne hu
  · cases access with
    | readStale bytes =>
      simp only [Ledger.step] at hl
      split at hl
      · obtain ⟨-, ⟨⟩⟩ := Option.ite_none_right_eq_some.mp hl
        exact Function.update_of_ne hu _ _
      · cases hl
    | own a =>
      obtain ⟨s', hs, rfl⟩ := Option.map_eq_some_iff.mp hl
      exact (moves_of_step hs).pc_of_ne hu

theorem AllRecorded.step (h : AllRecorded m) (hfinds : findsNode m x = true)
    (hstep : m.step x = some m') : AllRecorded m' := by
  obtain ⟨t, access⟩ := x
  intro u
  by_cases hu : u = t
  · rw [hu]
    exact (h t).step hfinds hstep
  · obtain ⟨hlast, hdetached, hpc⟩ := Calls.step_of_ne hstep hu
    rw [hlast, hdetached, hpc]
    exact h u

omit [DecidableEq ι] in
theorem top_of_not_findsNode {access : Access} (hnull : ¬findsNode m (t, access) = true) :
    m.pc t = .popLoad ∧ m.ledger.memory.top = none := by
  simpa [findsNode] using hnull

theorem Calls.step_of_null {access : Access} (hnull : ¬findsNode m (t, access) = true)
    (hstep : m.step (t, access) = some m') : m'.pc t = .popEnd ∧ m'.lastLoad t = none := by
  obtain ⟨hpc, htop⟩ := top_of_not_findsNode hnull
  obtain ⟨l, hl, rfl⟩ := Option.map_eq_some_iff.mp hstep
  refine ⟨?_, (m.recordLoad_of_popLoad hpc).trans htop⟩
  have hpc' : m.ledger.memory.pc t = .popLoad := hpc
  cases access with
  | readStale bytes => simp [Ledger.step, hpc'] at hl
  | own a =>
    obtain ⟨s', hs, rfl⟩ := Option.map_eq_some_iff.mp hl
    cases moves_of_step hs with
    | loadNull _ _ => exact Function.update_self _ _ _
    | _ => simp_all

/-- **While every call finds a node, whatever happens next can be trusted.** -/
theorem AllRecorded.canTrust (h : AllRecorded m) : CanTrust m := by
  rintro ⟨t, access⟩ m' hstep
  by_cases hfinds : findsNode m (t, access) = true
  · have ht := (h t).step hfinds hstep
    refine ⟨fun ret hret => ?_, fun node hnode => ?_, fun node hpc _ => ?_⟩
    · rw [hret] at ht
      cases ret with
      | none => exact ht.elim
      | some node => rw [ht.1]
    · rw [hnode] at ht
      exact ht.2
    · have hrecord := h t
      rw [hpc] at hrecord
      exact hrecord
  · obtain ⟨hpc', -⟩ := Calls.step_of_null hfinds hstep
    have hload := (top_of_not_findsNode hfinds).1
    refine ⟨fun ret hret => ?_, fun node hnode => ?_, fun node hpc _ => ?_⟩
    · rw [hpc'] at hret
      cases hret
    · rw [hpc'] at hnode
      cases hnode
    · rw [hload] at hpc
      cases hpc

/-- **A call that found no node may return anything.** -/
theorem not_canTrust (hpc : m.pc t = .popEnd) (hlast : m.lastLoad t = none) : ¬CanTrust m := by
  intro htrust
  obtain ⟨m', hstep, hpc', hlast'⟩ : ∃ m', m.step (t, .own (.fallOff (some 0))) = some m' ∧
      m'.pc t = .popped (some 0) ∧ m'.lastLoad t = m.lastLoad t := by
    have hpc' : m.ledger.memory.pc t = .popEnd := hpc
    refine ⟨_, by simp [Calls.step, Ledger.step, LockFree.step, hpc']; rfl, ?_, ?_⟩
    · exact Function.update_self _ _ _
    · exact congrFun (m.recordLoad_of_ne (by simp [hpc])) t
  have hnull := (htrust _ _ hstep).null _ hpc'
  rw [hlast', hlast] at hnull
  exact absurd (hnull.mpr rfl) (by simp)

/-- **When the result of `stack_pop` can be trusted.**  In every run of any number of threads,
each of its states is one where whatever a call of `stack_pop` can return, and whatever can be
freed, was detached by that call or is the `NULL` it has loaded last, if and only if no load
of `stack_pop` in the run finds `NULL`. -/
theorem trusted_iff {as : List (ι × Access)}
    (h : Trace Calls.step (fun _ _ => True) Calls.init as m) :
    Trace Calls.step (fun m x => ∀ m', m.step x = some m' → CanTrust m') Calls.init as m ↔
      Trace Calls.step (fun m x => findsNode m x = true) Calls.init as m := by
  refine h.iff_of_invariant (P := AllRecorded) (fun _ _ _ hrec _ hfinds hstep =>
    hrec.step hfinds hstep) (fun m x m' hrec _ hstep => ?_) allRecorded_init
  constructor
  · intro htrust
    obtain ⟨t, access⟩ := x
    by_contra hnull
    obtain ⟨hpc, hlast⟩ := Calls.step_of_null hnull hstep
    exact not_canTrust hpc hlast (htrust m' hstep)
  · intro hfinds m'' hstep'
    obtain rfl := Option.some.inj (hstep.symm.trans hstep')
    exact (hrec.step hfinds hstep).canTrust

theorem trusted_iff_onePop :
    ∃ m, Trace Calls.step (fun m x => ∀ m', m.step x = some m' → CanTrust m') Calls.init
      (pushCall 0 100 7 ++ popRead 1 ++ popTake 1) m ∧ m.detached 1 = some 100 := by
  obtain ⟨m, h, htest⟩ := Trace.exists_of_eval Calls.step (fun m x => findsNode m x = true)
    (fun m => m.detached 1 = some 100) Calls.init
    (pushCall 0 100 7 ++ popRead 1 ++ popTake 1) (by decide +kernel)
  exact ⟨m, (trusted_iff (h.mono fun _ _ _ => trivial)).mpr h, of_decide_eq_true htest⟩

/-- Thread `1` finds the stack empty and goes on with the address `100`, which is no node of
the stack; thread `0` then pushes a node at this address. -/
def emptyPop : List (ℕ × Access) :=
  [(1, .own .callPop), (1, .own .load), (1, .own (.fallOff (some 100)))] ++ pushCall 0 100 7 ++
    [(1, .own .print)]

/-- **An empty stack**: the call of `stack_pop` has detached nothing, and the node that is
freed with its result is the top of the stack. -/
theorem free_of_emptyPop :
    ∃ m m', Trace Calls.step (fun _ _ => True) Calls.init emptyPop m ∧
      m.pc 1 = .printed 100 ∧ m.lastLoad 1 = none ∧ m.detached 1 = none ∧
      m.step (1, .own .free) = some m' ∧ ¬Trusted m (1, .own .free) m' ∧
      m'.ledger.memory.top = some 100 ∧ m'.ledger.memory.heap 100 = none := by
  obtain ⟨m, h, htest⟩ := Trace.exists_of_eval Calls.step (fun _ _ => True)
    (fun m => m.ledger.memory.pc 1 = .printed 100 ∧ m.lastLoad 1 = none ∧ m.detached 1 = none ∧
      m.ledger.memory.top = some 100 ∧ m.ledger.memory.heap 100 = some ⟨7, none⟩) Calls.init
    emptyPop (by decide +kernel)
  obtain ⟨hpc, hlast, hdetached, htop, hheap⟩ := of_decide_eq_true htest
  have hstep : ∃ m', m.step (1, .own .free) = some m' ∧
      m'.ledger.memory = (m.ledger.memory.release 100).goto 1 .idle := by
    refine ⟨_, by simp [Calls.step, Ledger.step, LockFree.step, hpc, hheap]; rfl, rfl⟩
  obtain ⟨m', hstep, hmemory⟩ := hstep
  refine ⟨m, m', h, hpc, hlast, hdetached, hstep, fun htrusted => ?_, ?_, ?_⟩
  · have hnode := htrusted.free 100 hpc rfl
    rw [hdetached] at hnode
    cases hnode
  · rw [hmemory]
    exact htop
  · simp [hmemory]

end LockFree
end CaosSeminars
