import CaosSeminars.Library.Trace
import Mathlib.Data.Fintype.Card
import Mathlib.Data.Finset.Card

/-!
# The barrier of `condvar.c`

`main` creates `NUMTHREADS` workers and waits for all of them on a condition variable.
A worker that has done its work takes the mutex, counts itself in `done`, signals `cond`
and releases the mutex.

A signal is not remembered: it wakes `main` if `main` waits, and otherwise nothing
happens.  None is lost all the same, because `main` waits only while `done` is less
than the number of workers, and gives up the mutex only in the same step as it starts
to wait: whoever counts itself after that has its signal still to come.

There is one step for each call, and the number of workers is any.  `pthread_cond_wait`
may return without a signal.

* `Inv` --- the invariant: who holds the mutex, that `done` is the number of workers that have
  counted themselves, and that while `main` waits not all of them have, or one is about to signal.
* `Inv.fresh_setWorker`, `Inv.waits_setWorker`, `Inv.left_setWorker` --- what the move of one worker
  leaves of it, so that each step of a worker is a few lines.
* `Inv.stepWorker`, `Inv.stepMain` --- the steps; `Inv.step` both.
* `barrier_holds` --- in every state of every run: when `main` has left its loop all workers have
  counted themselves and released the mutex, and once they all have `main` is not asleep.
-/

namespace CaosSeminars
namespace Condvar

/-- `workloops`. -/
def WORKLOOPS : ℕ := 5

/-- Where a worker is. -/
inductive WorkerPc where
  | notCreated
  /-- In the loop, with `i < workloops`. -/
  | working (i : ℕ)
  /-- `pthread_mutex_lock` comes next. -/
  | locking
  /-- `done++` comes next. -/
  | incrementing
  /-- `pthread_cond_signal` comes next. -/
  | signalling
  /-- `pthread_mutex_unlock` comes next. -/
  | unlocking
  /-- `return NULL` comes next. -/
  | returning
  | finished
  deriving DecidableEq

/-- Where `main` is. -/
inductive MainPc where
  /-- In the loop that creates the workers. -/
  | creating (t : ℕ)
  /-- `pthread_mutex_lock` comes next. -/
  | locking
  /-- The condition of the loop comes next. -/
  | checking
  /-- `pthread_cond_wait` comes next. -/
  | entering
  /-- In `pthread_cond_wait`, and not woken. -/
  | waiting
  /-- In `pthread_cond_wait`, woken, and waiting for the mutex. -/
  | woken
  /-- Behind the loop: `pthread_mutex_unlock` comes next. -/
  | leaving
  | finished
  deriving DecidableEq

/-- A worker has executed `done++`. -/
def WorkerPc.counted : WorkerPc → Bool
  | .signalling | .unlocking | .returning | .finished => true
  | _ => false

/-- A worker is between its `lock` and its `unlock`. -/
def WorkerPc.holds : WorkerPc → Bool
  | .incrementing | .signalling | .unlocking => true
  | _ => false

/-- A worker has counted itself and has released the mutex. -/
def WorkerPc.released : WorkerPc → Bool
  | .returning | .finished => true
  | _ => false

/-- `main` is between taking the mutex and releasing it. -/
def MainPc.holds : MainPc → Bool
  | .checking | .entering | .leaving => true
  | _ => false

/-- `main` has left its loop. -/
def MainPc.left : MainPc → Bool
  | .leaving | .finished => true
  | _ => false

variable {N : ℕ}

/-- A thread. -/
inductive Tid (N : ℕ) where
  | main
  | worker (w : Fin N)
  deriving DecidableEq

/-- `main`, its workers and what they share; `done` counts threads and fits its `int`. -/
structure Sys (N : ℕ) where
  main : MainPc
  workers : Fin N → WorkerPc
  done : ℕ
  /-- The owner of the mutex. -/
  mutex : Option (Tid N)

/-- Before the first thread is created. -/
def Sys.init (N : ℕ) : Sys N := ⟨.creating 0, fun _ => .notCreated, 0, none⟩

namespace Sys

variable (s : Sys N)

/-- The worker is at `pc`. -/
def setWorker (w : Fin N) (pc : WorkerPc) : Sys N :=
  { s with workers := Function.update s.workers w pc }

@[simp] theorem setWorker_self (w : Fin N) (pc : WorkerPc) : (s.setWorker w pc).workers w = pc :=
  Function.update_self _ _ _

theorem setWorker_of_ne {v w : Fin N} (h : v ≠ w) (pc : WorkerPc) :
    (s.setWorker w pc).workers v = s.workers v :=
  Function.update_of_ne h _ _

/-- `pthread_cond_signal`. -/
def signal : Sys N := { s with main := if s.main = .waiting then .woken else s.main }

/-- One step of a worker. -/
def stepWorker (w : Fin N) : Option (Sys N) :=
  match s.workers w with
  | .working i =>
    some (s.setWorker w (if i + 1 < WORKLOOPS then .working (i + 1) else .locking))
  | .locking =>
    if s.mutex = none then some { s.setWorker w .incrementing with mutex := some (.worker w) }
    else none
  | .incrementing => some { s.setWorker w .signalling with done := s.done + 1 }
  | .signalling => some (s.signal.setWorker w .unlocking)
  | .unlocking => some { s.setWorker w .returning with mutex := none }
  | .returning => some (s.setWorker w .finished)
  | .notCreated | .finished => none

/-- One step of `main`. -/
def stepMain : Option (Sys N) :=
  match s.main with
  | .creating t =>
    if h : t < N then some { s.setWorker ⟨t, h⟩ (.working 0) with main := .creating (t + 1) }
    else some { s with main := .locking }
  | .locking | .woken =>
    if s.mutex = none then some { s with main := .checking, mutex := some .main } else none
  | .checking => some { s with main := if s.done < N then .entering else .leaving }
  | .entering => some { s with main := .waiting, mutex := none }
  | .leaving => some { s with main := .finished, mutex := none }
  | .waiting | .finished => none

end Sys

/-- A thread makes a step, or `main` is woken without a signal. -/
inductive Act (N : ℕ) where
  | main
  | worker (w : Fin N)
  | spurious
  deriving DecidableEq

/-- One step. -/
def Sys.step (s : Sys N) : Act N → Option (Sys N)
  | .main => s.stepMain
  | .worker w => s.stepWorker w
  | .spurious => if s.main = .waiting then some { s with main := .woken } else none

/-- Every order of steps. -/
def anyOrder (_ : Sys N) (_ : Act N) : Prop := True

instance (s : Sys N) (a : Act N) : Decidable (anyOrder s a) := inferInstanceAs (Decidable True)

/-! ## The invariant -/

/-- The threads that are between taking the mutex and releasing it. -/
def Sys.holds (s : Sys N) : Tid N → Bool
  | .main => s.main.holds
  | .worker w => (s.workers w).holds

/-- The workers that have executed `done++`. -/
def Sys.counted (s : Sys N) : Finset (Fin N) := Finset.univ.filter fun w => (s.workers w).counted

/-- What links `done`, the owner of the mutex, the place of `main` and the signals to come. -/
structure Inv (s : Sys N) : Prop where
  done_eq : s.done = s.counted.card
  owner : ∀ t, s.holds t → s.mutex = some t
  fresh : ∀ t, s.main = .creating t → ∀ w : Fin N, t ≤ w → s.workers w = .notCreated
  enters : s.main = .entering → s.done < N
  waits : s.main = .waiting → s.done < N ∨ ∃ w, s.workers w = .signalling
  left : s.main.left → ∀ w, (s.workers w).released

variable {s s' : Sys N} {a : Act N} {w : Fin N} {pc : WorkerPc}

theorem inv_init : Inv (Sys.init N) where
  done_eq := by simp [Sys.init, Sys.counted, WorkerPc.counted]
  owner t ht := by cases t <;> cases ht
  fresh _ _ _ _ := rfl
  enters hpc := by cases hpc
  waits hpc := by cases hpc
  left hpc := by cases hpc

theorem Inv.holds_unique (h : Inv s) {t t' : Tid N} (ht : s.holds t) (ht' : s.holds t') :
    t = t' :=
  Option.some.inj ((h.owner t ht).symm.trans (h.owner t' ht'))

/-- While a worker is not through, `main` has not left its loop. -/
theorem Inv.not_left (h : Inv s) (hpc : s.workers w = pc) (hnot : ¬pc.released) :
    ¬s.main.left :=
  fun hleft => hnot (hpc ▸ h.left hleft w)

theorem mem_counted {v : Fin N} : v ∈ s.counted ↔ (s.workers v).counted := by
  rw [Sys.counted, Finset.mem_filter]
  exact and_iff_right (Finset.mem_univ v)

/-- The workers counted after one of them has moved on without counting itself. -/
theorem counted_setWorker (h : pc.counted = (s.workers w).counted) :
    (s.setWorker w pc).counted = s.counted := by
  ext v
  rw [mem_counted, mem_counted]
  by_cases hv : v = w
  · rw [hv, Sys.setWorker_self, h]
  · rw [s.setWorker_of_ne hv]

theorem counted_setWorker_insert (h : pc.counted) :
    (s.setWorker w pc).counted = insert w s.counted := by
  ext v
  rw [Finset.mem_insert, mem_counted, mem_counted]
  by_cases hv : v = w
  · rw [hv, Sys.setWorker_self]
    exact iff_of_true h (Or.inl rfl)
  · rw [s.setWorker_of_ne hv]
    exact (or_iff_right hv).symm

/-! ## What the move of one worker keeps -/

theorem holds_of_setWorker (hholds : pc.holds → (s.workers w).holds) (t : Tid N)
    (ht : (s.setWorker w pc).holds t) : s.holds t := by
  cases t with
  | main => exact ht
  | worker v =>
    by_cases hv : v = w
    · rw [Sys.holds, hv, Sys.setWorker_self] at ht
      rw [Sys.holds, hv]
      exact hholds ht
    · rwa [Sys.holds, s.setWorker_of_ne hv] at ht

theorem Inv.fresh_setWorker (h : Inv s) (hfresh : s.workers w ≠ .notCreated) {t : ℕ}
    (ht : s.main = .creating t) {v : Fin N} (hle : t ≤ v) :
    (s.setWorker w pc).workers v = .notCreated := by
  have hv : v ≠ w := fun hvw => hfresh (hvw ▸ h.fresh t ht v hle)
  rw [s.setWorker_of_ne hv]
  exact h.fresh t ht v hle

theorem Inv.waits_setWorker (h : Inv s) (hsignal : s.workers w ≠ .signalling)
    (hpc : s.main = .waiting) :
    s.done < N ∨ ∃ v, (s.setWorker w pc).workers v = .signalling := by
  refine (h.waits hpc).imp_right fun ⟨v, hv⟩ => ⟨v, ?_⟩
  have hne : v ≠ w := fun hvw => hsignal (hvw ▸ hv)
  rw [s.setWorker_of_ne hne]
  exact hv

theorem Inv.left_setWorker (h : Inv s) (hreleased : (s.workers w).released → pc.released)
    (hpc : s.main.left) (v : Fin N) : ((s.setWorker w pc).workers v).released := by
  by_cases hv : v = w
  · rw [hv, Sys.setWorker_self]
    exact hreleased (h.left hpc w)
  · rw [s.setWorker_of_ne hv]
    exact h.left hpc v

/-! ## Steps of a worker -/

theorem Inv.moveOutside (h : Inv s) (hcounted : pc.counted = (s.workers w).counted)
    (hholds : ¬pc.holds) (hfresh : s.workers w ≠ .notCreated)
    (hsignal : s.workers w ≠ .signalling) (hreleased : (s.workers w).released → pc.released) :
    Inv (s.setWorker w pc) where
  done_eq := by
    rw [counted_setWorker hcounted]
    exact h.done_eq
  owner t ht := h.owner t (holds_of_setWorker (fun hpc => absurd hpc hholds) t ht)
  fresh _ ht _ hle := h.fresh_setWorker hfresh ht hle
  enters := h.enters
  waits := h.waits_setWorker hsignal
  left := h.left_setWorker hreleased

theorem Inv.lock (h : Inv s) (hpc : s.workers w = .locking) (hfree : s.mutex = none) :
    Inv { s.setWorker w .incrementing with mutex := some (.worker w) } where
  done_eq := by
    have hcounted : (s.setWorker w .incrementing).counted = s.counted :=
      counted_setWorker (by rw [hpc]; rfl)
    exact h.done_eq.trans (congrArg Finset.card hcounted.symm)
  owner t ht := by
    have hnobody : ∀ t, ¬s.holds t := fun t ht => by
      rw [h.owner t ht] at hfree
      cases hfree
    cases t with
    | main => exact absurd ht (hnobody .main)
    | worker v =>
      by_cases hv : v = w
      · rw [hv]
      · have hold : ((s.setWorker w .incrementing).workers v).holds := ht
        rw [s.setWorker_of_ne hv] at hold
        exact absurd hold (hnobody (.worker v))
  fresh _ ht _ hle := h.fresh_setWorker (by simp [hpc]) ht hle
  enters := h.enters
  waits := h.waits_setWorker (by simp [hpc])
  left hleft := (h.not_left hpc Bool.false_ne_true hleft).elim

theorem Inv.increment (h : Inv s) (hpc : s.workers w = .incrementing) :
    Inv { s.setWorker w .signalling with done := s.done + 1 } where
  done_eq := by
    have hnew : w ∉ s.counted := by
      rw [mem_counted, hpc]
      exact Bool.false_ne_true
    have hcounted : (s.setWorker w .signalling).counted = insert w s.counted :=
      counted_setWorker_insert rfl
    show s.done + 1 = (s.setWorker w .signalling).counted.card
    rw [hcounted, Finset.card_insert_of_notMem hnew, h.done_eq]
  owner t ht := h.owner t (holds_of_setWorker (fun _ => by rw [hpc]; rfl) t ht)
  fresh _ ht _ hle := h.fresh_setWorker (by simp [hpc]) ht hle
  enters henters := by
    -- `main` would hold the mutex together with the worker
    have hmain : s.holds .main := by
      rw [Sys.holds, show s.main = .entering from henters]
      rfl
    have hworker : s.holds (.worker w) := by
      rw [Sys.holds, hpc]
      rfl
    cases h.holds_unique hmain hworker
  waits _ := Or.inr ⟨w, s.setWorker_self w _⟩
  left hleft := (h.not_left hpc Bool.false_ne_true hleft).elim

/-- The signal leaves `main` where it is, unless it waits. -/
theorem main_of_signal {p : MainPc} (hp : p ≠ .woken) (h : s.signal.main = p) :
    s.main = p ∧ s.main ≠ .waiting := by
  rw [Sys.signal] at h
  dsimp only at h
  split at h
  · exact absurd h.symm hp
  · exact ⟨h, ‹_›⟩

theorem Inv.signals (h : Inv s) (hpc : s.workers w = .signalling) :
    Inv (s.signal.setWorker w .unlocking) where
  done_eq := by
    have hcounted : (s.setWorker w .unlocking).counted = s.counted :=
      counted_setWorker (by rw [hpc]; rfl)
    exact h.done_eq.trans (congrArg Finset.card hcounted.symm)
  owner t ht := by
    refine h.owner t ?_
    cases t with
    | main =>
      have hmain : s.signal.main.holds := ht
      have hwoken : s.signal.main ≠ .woken := fun hwoken => by
        rw [hwoken] at hmain
        cases hmain
      rw [Sys.holds, (main_of_signal hwoken rfl).1]
      exact hmain
    | worker v => exact @holds_of_setWorker N s w .unlocking (fun _ => by rw [hpc]; rfl) _ ht
  fresh _ ht _ hle :=
    h.fresh_setWorker (by simp [hpc]) (main_of_signal (by simp) ht).1 hle
  enters henters := h.enters (main_of_signal (by simp) henters).1
  waits hwaits := absurd (main_of_signal (by simp) hwaits).1 (main_of_signal (by simp) hwaits).2
  left hleft := by
    have hold : s.main.left := by
      have hmain : s.signal.main.left := hleft
      have hwoken : s.signal.main ≠ .woken := fun hwoken => by
        rw [hwoken] at hmain
        cases hmain
      rw [(main_of_signal hwoken rfl).1]
      exact hmain
    exact absurd hold (h.not_left hpc Bool.false_ne_true)

theorem Inv.unlock (h : Inv s) (hpc : s.workers w = .unlocking) :
    Inv { s.setWorker w .returning with mutex := none } where
  done_eq := by
    have hcounted : (s.setWorker w .returning).counted = s.counted :=
      counted_setWorker (by rw [hpc]; rfl)
    exact h.done_eq.trans (congrArg Finset.card hcounted.symm)
  owner t ht := by
    have hworker : s.holds (.worker w) := by
      rw [Sys.holds, hpc]
      rfl
    have hnot : ¬(s.setWorker w .returning).holds (.worker w) := by
      rw [Sys.holds, Sys.setWorker_self]
      exact Bool.false_ne_true
    have ht' : (s.setWorker w .returning).holds t := by
      cases t <;> exact ht
    obtain rfl := h.holds_unique (holds_of_setWorker (by simp [WorkerPc.holds]) t ht') hworker
    exact absurd ht' hnot
  fresh _ ht _ hle := h.fresh_setWorker (by simp [hpc]) ht hle
  enters := h.enters
  waits := h.waits_setWorker (by simp [hpc])
  left hleft := (h.not_left hpc Bool.false_ne_true hleft).elim

theorem Inv.stepWorker (h : Inv s) (hstep : s.stepWorker w = some s') : Inv s' := by
  rw [Sys.stepWorker] at hstep
  cases hpc : s.workers w with
  | working i =>
    simp only [hpc] at hstep
    obtain rfl := Option.some.inj hstep
    refine h.moveOutside ?_ ?_ (by simp [hpc]) (by simp [hpc]) (by simp [hpc, WorkerPc.released])
    · rw [hpc]
      split <;> rfl
    · split <;> exact Bool.false_ne_true
  | locking =>
    simp only [hpc] at hstep
    obtain ⟨hfree, ⟨⟩⟩ := Option.ite_none_right_eq_some.mp hstep
    exact h.lock hpc hfree
  | incrementing =>
    simp only [hpc] at hstep
    obtain rfl := Option.some.inj hstep
    exact h.increment hpc
  | signalling =>
    simp only [hpc] at hstep
    obtain rfl := Option.some.inj hstep
    exact h.signals hpc
  | unlocking =>
    simp only [hpc] at hstep
    obtain rfl := Option.some.inj hstep
    exact h.unlock hpc
  | returning =>
    simp only [hpc] at hstep
    obtain rfl := Option.some.inj hstep
    exact h.moveOutside (by rw [hpc]; rfl) Bool.false_ne_true (by simp [hpc]) (by simp [hpc])
      fun _ => rfl
  | notCreated =>
    simp only [hpc] at hstep
    cases hstep
  | finished =>
    simp only [hpc] at hstep
    cases hstep

/-! ## Steps of `main` -/

theorem Inv.create (h : Inv s) {t : ℕ} (hpc : s.main = .creating t) (ht : t < N) :
    Inv { s.setWorker ⟨t, ht⟩ (.working 0) with main := .creating (t + 1) } where
  done_eq := by
    have hcounted : (s.setWorker ⟨t, ht⟩ (.working 0)).counted = s.counted :=
      counted_setWorker (by rw [h.fresh t hpc ⟨t, ht⟩ le_rfl]; rfl)
    exact h.done_eq.trans (congrArg Finset.card hcounted.symm)
  owner t' ht' := by
    cases t' with
    | main => cases ht'
    | worker v =>
      exact h.owner _ (@holds_of_setWorker N s ⟨t, ht⟩ (.working 0) (fun hh => by cases hh) _ ht')
  fresh t' ht' v hle := by
    obtain rfl := MainPc.creating.inj ht'
    have hv : v ≠ ⟨t, ht⟩ := by
      rintro rfl
      exact Nat.not_succ_le_self t hle
    show (s.setWorker ⟨t, ht⟩ (.working 0)).workers v = _
    rw [s.setWorker_of_ne hv]
    exact h.fresh t hpc v (Nat.le_of_succ_le hle)
  enters henters := by cases henters
  waits hwaits := by cases hwaits
  left hleft := by cases hleft

theorem Inv.lockMain (h : Inv s) (hfree : s.mutex = none) :
    Inv { s with main := .checking, mutex := some .main } where
  done_eq := h.done_eq
  owner t ht := by
    cases t with
    | main => rfl
    | worker v =>
      have howner := h.owner (.worker v) ht
      rw [hfree] at howner
      cases howner
  fresh _ ht _ _ := by cases ht
  enters henters := by cases henters
  waits hwaits := by cases hwaits
  left hleft := by cases hleft

/-- **`main` tests `done`.**  It leaves the loop when all workers are counted, and as it
holds the mutex itself, they have all released it. -/
theorem Inv.check (h : Inv s) (hpc : s.main = .checking) :
    Inv { s with main := if s.done < N then .entering else .leaving } where
  done_eq := h.done_eq
  owner t ht := by
    cases t with
    | main => exact h.owner .main (by rw [Sys.holds, hpc]; rfl)
    | worker v => exact h.owner (.worker v) ht
  fresh t ht := by
    dsimp only at ht
    split at ht <;> cases ht
  enters henters := by
    dsimp only at henters
    split at henters
    · assumption
    · cases henters
  waits hwaits := by
    dsimp only at hwaits
    split at hwaits <;> cases hwaits
  left hleft v := by
    dsimp only at hleft ⊢
    split at hleft
    · cases hleft
    · rename_i hdone
      have hmain : s.holds .main := by
        rw [Sys.holds, hpc]
        rfl
      have hall : s.counted.card = (Finset.univ : Finset (Fin N)).card := by
        refine le_antisymm (Finset.card_le_univ _) ?_
        rw [Finset.card_univ, Fintype.card_fin, ← h.done_eq]
        exact not_lt.mp hdone
      have hcounted : (s.workers v).counted :=
        Finset.card_filter_eq_iff.mp hall v (Finset.mem_univ v)
      have hnot : ¬(s.workers v).holds := fun hworker => by
        cases h.holds_unique hmain (show s.holds (.worker v) from hworker)
      cases hv : s.workers v <;> simp_all [WorkerPc.counted, WorkerPc.holds, WorkerPc.released]

theorem Inv.enter (h : Inv s) (hpc : s.main = .entering) :
    Inv { s with main := .waiting, mutex := none } where
  done_eq := h.done_eq
  owner t ht := by
    cases t with
    | main => cases ht
    | worker v =>
      have hmain : s.holds .main := by
        rw [Sys.holds, hpc]
        rfl
      cases h.holds_unique hmain (show s.holds (.worker v) from ht)
  fresh _ ht _ _ := by cases ht
  enters henters := by cases henters
  waits _ := Or.inl (h.enters hpc)
  left hleft := by cases hleft

theorem Inv.leave (h : Inv s) (hpc : s.main = .leaving) :
    Inv { s with main := .finished, mutex := none } where
  done_eq := h.done_eq
  owner t ht := by
    cases t with
    | main => cases ht
    | worker v =>
      have hmain : s.holds .main := by
        rw [Sys.holds, hpc]
        rfl
      cases h.holds_unique hmain (show s.holds (.worker v) from ht)
  fresh _ ht _ _ := by cases ht
  enters henters := by cases henters
  waits hwaits := by cases hwaits
  left _ := h.left (by rw [hpc]; rfl)

theorem Inv.moveMain (h : Inv s) {p : MainPc} (hp : p = .locking ∨ p = .woken) :
    Inv { s with main := p } where
  done_eq := h.done_eq
  owner t ht := by
    cases t with
    | main => rcases hp with rfl | rfl <;> cases ht
    | worker v => exact h.owner (.worker v) ht
  fresh _ ht _ _ := by rcases hp with rfl | rfl <;> cases ht
  enters henters := by rcases hp with rfl | rfl <;> cases henters
  waits hwaits := by rcases hp with rfl | rfl <;> cases hwaits
  left hleft := by rcases hp with rfl | rfl <;> cases hleft

theorem Inv.stepMain (h : Inv s) (hstep : s.stepMain = some s') : Inv s' := by
  rw [Sys.stepMain] at hstep
  cases hpc : s.main with
  | creating t =>
    simp only [hpc] at hstep
    split at hstep
    · obtain rfl := Option.some.inj hstep
      exact h.create hpc _
    · obtain rfl := Option.some.inj hstep
      exact h.moveMain (Or.inl rfl)
  | locking =>
    simp only [hpc] at hstep
    obtain ⟨hfree, ⟨⟩⟩ := Option.ite_none_right_eq_some.mp hstep
    exact h.lockMain hfree
  | woken =>
    simp only [hpc] at hstep
    obtain ⟨hfree, ⟨⟩⟩ := Option.ite_none_right_eq_some.mp hstep
    exact h.lockMain hfree
  | checking =>
    simp only [hpc] at hstep
    obtain rfl := Option.some.inj hstep
    exact h.check hpc
  | entering =>
    simp only [hpc] at hstep
    obtain rfl := Option.some.inj hstep
    exact h.enter hpc
  | leaving =>
    simp only [hpc] at hstep
    obtain rfl := Option.some.inj hstep
    exact h.leave hpc
  | waiting =>
    simp only [hpc] at hstep
    cases hstep
  | finished =>
    simp only [hpc] at hstep
    cases hstep

/-! ## Runs -/

theorem Inv.step (h : Inv s) (hstep : s.step a = some s') : Inv s' := by
  cases a with
  | main => exact h.stepMain hstep
  | worker w => exact h.stepWorker hstep
  | spurious =>
    obtain ⟨-, ⟨⟩⟩ := Option.ite_none_right_eq_some.mp hstep
    exact h.moveMain (Or.inr rfl)

/-- When all workers have released the mutex, they are all counted. -/
theorem Inv.done_eq_of_released (h : Inv s) (hall : ∀ w, (s.workers w).released) : s.done = N := by
  have huniv : s.counted = Finset.univ := by
    refine Finset.eq_univ_of_forall fun w => mem_counted.mpr ?_
    have hw := hall w
    cases hpc : s.workers w <;> simp_all [WorkerPc.counted, WorkerPc.released]
  rw [h.done_eq, huniv, Finset.card_univ, Fintype.card_fin]

/-- **No early release and no lost wake-up.**  For any number of workers and any order of
steps: when `main` has left its loop, `done` is the number of workers and each of them has
executed `done++` and released the mutex; and when every worker has, `main` is not in
`pthread_cond_wait` without a wake-up. -/
theorem barrier_holds {as : List (Act N)} (h : Trace Sys.step anyOrder (Sys.init N) as s) :
    (s.main.left → s.done = N ∧ ∀ w, (s.workers w).released) ∧
      ((∀ w, (s.workers w).released) → s.main ≠ .waiting) := by
  have hinv := h.invariant (fun _ _ _ hs _ hstep => hs.step hstep) inv_init
  refine ⟨fun hleft => ⟨hinv.done_eq_of_released (hinv.left hleft), hinv.left hleft⟩,
    fun hall hwaiting => ?_⟩
  rcases hinv.waits hwaiting with hlt | ⟨w, hw⟩
  · exact absurd (hinv.done_eq_of_released hall) (Nat.ne_of_lt hlt)
  · have hreleased := hall w
    rw [hw] at hreleased
    cases hreleased

/-- Two workers.  The first one signals before `main` waits; `main` is woken once without a
signal, and once by the second one. -/
def earlySignal : List (Act 2) :=
  [[.main, .main, .main], List.replicate 10 (.worker 0), [.main, .main, .main, .spurious],
    [.main, .main, .main], List.replicate 9 (.worker 1), [.main, .main]].flatten

/-- `main` leaves its loop. -/
theorem barrier_holds_earlySignal :
    ∃ s, Trace Sys.step anyOrder (Sys.init 2) earlySignal s ∧ s.done = 2 ∧
      ∀ w, (s.workers w).released := by
  obtain ⟨s, h, hp⟩ := Trace.exists_of_eval Sys.step anyOrder (fun s => s.main.left) (Sys.init 2)
    earlySignal (by decide +kernel)
  exact ⟨s, h, (barrier_holds h).1 hp⟩

end Condvar
end CaosSeminars
