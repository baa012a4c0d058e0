import CaosSeminars.Condvar.Barrier
import CaosSeminars.Library.Potential

/-!
# The barrier of `condvar.c` comes to its end

That `main` does not leave its loop too early, and does not sleep when nobody is left to wake it,
says nothing yet about its leaving the loop at all.  It does: no run gets stuck before `main`
returns, and the number of steps is bounded by the number of workers and the number of times
`main` is woken without a signal.

* `Sys.run`: a step of the process.  `main` joins nobody, and when it returns the process is over,
  wherever the workers are between their last `unlock` and their `return`.
* `Blocked.main_finished`: as long as `main` has not returned, some thread can make a step.
* `Sys.ahead`, `ahead_step`: each step is paid for by what is ahead of the thread that makes it.  A
  wake-up costs `main` a round of its loop, of three steps, which the worker that signals has put
  aside.
* `barrier_passed`: both together, for every run of the process.
-/

namespace CaosSeminars
namespace Condvar

variable {N : ℕ} {s s' : Sys N} {a : Act N} {w : Fin N} {as : List (Act N)}

/-! ## The mutex and the place of `main` -/

/-- What the invariant of the barrier leaves open: whose the mutex is, and which workers there
are. -/
structure Owned (s : Sys N) : Prop where
  held : ∀ t, s.mutex = some t → s.holds t
  created : ∀ w : Fin N, s.workers w = .notCreated → ∃ t, s.main = .creating t ∧ t ≤ w

theorem owned_init : Owned (Sys.init N) where
  held t ht := by cases ht
  created _ _ := ⟨0, rfl, Nat.zero_le _⟩

theorem Owned.created_setWorker (h : Owned s) (pc : WorkerPc) (hborn : pc ≠ .notCreated) (v : Fin N)
    (hv : (s.setWorker w pc).workers v = .notCreated) : ∃ t, s.main = .creating t ∧ t ≤ v := by
  by_cases hvw : v = w
  · rw [hvw, s.setWorker_self] at hv
    exact absurd hv hborn
  · rw [s.setWorker_of_ne hvw] at hv
    exact h.created v hv

/-- When `main` is not in its first loop, there are all the workers. -/
theorem Owned.born (h : Owned s) (hmain : ∀ t, s.main ≠ .creating t) (v : Fin N) :
    s.workers v ≠ .notCreated := fun hv => by
  obtain ⟨t, ht, -⟩ := h.created v hv
  exact hmain t ht

theorem Owned.moveWorker (h : Owned s) (pc : WorkerPc) (hborn : pc ≠ .notCreated)
    (hholds : (s.workers w).holds → pc.holds) : Owned (s.setWorker w pc) where
  held t ht := by
    have hold := h.held t ht
    cases t with
    | main => exact hold
    | worker v =>
      rw [Sys.holds] at hold ⊢
      by_cases hv : v = w
      · rw [hv] at hold ⊢
        rw [s.setWorker_self]
        exact hholds hold
      · rwa [s.setWorker_of_ne hv]
  created := h.created_setWorker pc hborn

/-- `main` is woken, or is left alone. -/
theorem Owned.signal (h : Owned s) : Owned s.signal := by
  unfold Sys.signal
  split
  · rename_i hwaiting
    refine ⟨fun t ht => ?_, fun v hv => ?_⟩
    · have hold := h.held t ht
      cases t with
      | main =>
        rw [Sys.holds, hwaiting] at hold
        cases hold
      | worker v => exact hold
    · exact absurd hv (h.born (by simp [hwaiting]) v)
  · exact h

theorem Owned.stepWorker (h : Owned s) (hstep : s.stepWorker w = some s') : Owned s' := by
  rw [Sys.stepWorker] at hstep
  cases hpc : s.workers w with
  | working i =>
    simp only [hpc] at hstep
    obtain rfl := Option.some.inj hstep
    refine h.moveWorker _ ?_ (by simp [hpc, WorkerPc.holds])
    split <;> simp
  | locking =>
    simp only [hpc] at hstep
    obtain ⟨-, ⟨⟩⟩ := Option.ite_none_right_eq_some.mp hstep
    refine ⟨fun t ht => ?_, h.created_setWorker .incrementing (by simp)⟩
    obtain rfl := Option.some.inj ht
    show ((s.setWorker w .incrementing).workers w).holds
    rw [s.setWorker_self]
    rfl
  | incrementing =>
    simp only [hpc] at hstep
    obtain rfl := Option.some.inj hstep
    have hmoved := h.moveWorker (w := w) .signalling (by simp) (fun _ => rfl)
    exact ⟨fun t ht => by cases t <;> exact hmoved.held _ ht, hmoved.created⟩
  | signalling =>
    simp only [hpc] at hstep
    obtain rfl := Option.some.inj hstep
    exact h.signal.moveWorker .unlocking (by simp) (fun _ => rfl)
  | unlocking =>
    simp only [hpc] at hstep
    obtain rfl := Option.some.inj hstep
    exact ⟨(fun t ht => by cases ht), h.created_setWorker .returning (by simp)⟩
  | returning =>
    simp only [hpc] at hstep
    obtain rfl := Option.some.inj hstep
    exact h.moveWorker .finished (by simp) (by simp [hpc, WorkerPc.holds])
  | notCreated =>
    simp only [hpc] at hstep
    cases hstep
  | finished =>
    simp only [hpc] at hstep
    cases hstep

theorem Owned.stepMain (h : Owned s) (hinv : Inv s) (hstep : s.stepMain = some s') : Owned s' := by
  rw [Sys.stepMain] at hstep
  cases hpc : s.main with
  | creating t =>
    simp only [hpc] at hstep
    have hold (u : Tid N) (hu : s.mutex = some u) : ∃ v, u = .worker v ∧ (s.workers v).holds := by
      have hheld := h.held u hu
      cases u with
      | main =>
        rw [Sys.holds, hpc] at hheld
        cases hheld
      | worker v => exact ⟨v, rfl, hheld⟩
    split at hstep
    · rename_i ht
      obtain rfl := Option.some.inj hstep
      refine ⟨fun u hu => ?_, fun v hv => ⟨t + 1, rfl, ?_⟩⟩
      · obtain ⟨v, rfl, hv⟩ := hold u hu
        have hne : v ≠ ⟨t, ht⟩ := by
          rintro rfl
          rw [hinv.fresh t hpc ⟨t, ht⟩ le_rfl] at hv
          cases hv
        show ((s.setWorker ⟨t, ht⟩ (.working 0)).workers v).holds
        rwa [s.setWorker_of_ne hne]
      · obtain ⟨t', ht', hle⟩ := h.created_setWorker (w := ⟨t, ht⟩) (.working 0) (by simp) v hv
        have hne : v ≠ ⟨t, ht⟩ := by
          rintro rfl
          rw [show ((s.setWorker ⟨t, ht⟩ (.working 0)).workers ⟨t, ht⟩) = .working 0 from
            s.setWorker_self _ _] at hv
          cases hv
        rw [hpc] at ht'
        obtain rfl := MainPc.creating.inj ht'
        exact lt_of_le_of_ne hle fun heq => hne (Fin.ext heq.symm)
    · rename_i ht
      obtain rfl := Option.some.inj hstep
      refine ⟨fun u hu => ?_, fun v hv => ?_⟩
      · obtain ⟨v, rfl, hv⟩ := hold u hu
        exact hv
      · obtain ⟨t', ht', hle⟩ := h.created v hv
        rw [hpc] at ht'
        obtain rfl := MainPc.creating.inj ht'
        exact absurd (hle.trans_lt v.isLt) ht
  | locking | woken =>
    simp only [hpc] at hstep
    obtain ⟨-, ⟨⟩⟩ := Option.ite_none_right_eq_some.mp hstep
    refine ⟨fun u hu => ?_, fun v hv => absurd hv (h.born (by simp [hpc]) v)⟩
    obtain rfl := Option.some.inj hu
    rfl
  | checking =>
    simp only [hpc] at hstep
    obtain rfl := Option.some.inj hstep
    refine ⟨fun u hu => ?_, fun v hv => absurd hv (h.born (by simp [hpc]) v)⟩
    cases u with
    | main =>
      show (if s.done < N then MainPc.entering else .leaving).holds
      split <;> rfl
    | worker v => exact h.held (.worker v) hu
  | entering | leaving =>
    simp only [hpc] at hstep
    obtain rfl := Option.some.inj hstep
    exact ⟨(fun u hu => by cases hu), fun v hv => absurd hv (h.born (by simp [hpc]) v)⟩
  | waiting | finished =>
    simp only [hpc] at hstep
    cases hstep

theorem Owned.step (h : Owned s) (hinv : Inv s) (hstep : s.step a = some s') : Owned s' := by
  cases a with
  | main => exact h.stepMain hinv hstep
  | worker w => exact h.stepWorker hstep
  | spurious =>
    obtain ⟨hwaiting, ⟨⟩⟩ := Option.ite_none_right_eq_some.mp hstep
    have hsignal := h.signal
    rwa [Sys.signal, if_pos hwaiting] at hsignal

/-! ## The process -/

/-- One step of the process, which is over when `main` has returned. -/
def Sys.run (s : Sys N) (a : Act N) : Option (Sys N) :=
  if s.main = .finished then none else s.step a

theorem step_of_run (hrun : s.run a = some s') : s.step a = some s' :=
  (Option.ite_none_left_eq_some.mp hrun).2

theorem owned_of_trace (h : Trace Sys.run anyOrder (Sys.init N) as s) : Inv s ∧ Owned s :=
  h.invariant (P := fun s => Inv s ∧ Owned s)
    (fun _ _ _ hs _ hrun => ⟨hs.1.step (step_of_run hrun), hs.2.step hs.1 (step_of_run hrun)⟩)
    ⟨inv_init, owned_init⟩

/-! ## Nobody is stuck -/

/-- The process can make no step, but that `main` is woken without a signal. -/
def Stuck (s : Sys N) : Prop := ∀ a, a ≠ .spurious → s.run a = none

/-- No thread can make a step. -/
def Blocked (s : Sys N) : Prop := ∀ a, a ≠ .spurious → s.step a = none

/-- Whoever holds the mutex can go on. -/
theorem Blocked.mutex (hstuck : Blocked s) (h : Owned s) : s.mutex = none := by
  cases hmutex : s.mutex with
  | none => rfl
  | some t =>
    have hheld := h.held t hmutex
    cases t with
    | main =>
      have hnone := hstuck .main (by simp)
      rw [Sys.holds] at hheld
      simp only [Sys.step, Sys.stepMain] at hnone
      cases hpc : s.main <;> simp_all [MainPc.holds]
    | worker w =>
      have hnone := hstuck (.worker w) (by simp)
      rw [Sys.holds] at hheld
      simp only [Sys.step, Sys.stepWorker] at hnone
      cases hpc : s.workers w <;> simp_all [WorkerPc.holds]

/-- A worker that cannot go on has finished, or has not begun. -/
theorem Blocked.worker (hstuck : Blocked s) (h : Owned s) (w : Fin N) :
    s.workers w = .finished ∨ s.workers w = .notCreated := by
  have hnone := hstuck (.worker w) (by simp)
  have hmutex := hstuck.mutex h
  simp only [Sys.step, Sys.stepWorker] at hnone
  cases hpc : s.workers w <;> simp_all

/-- If `main` cannot go on, it has finished or sleeps. -/
theorem Blocked.main (hstuck : Blocked s) (h : Owned s) :
    s.main = .finished ∨ s.main = .waiting := by
  have hnone := hstuck .main (by simp)
  have hmutex := hstuck.mutex h
  simp only [Sys.step, Sys.stepMain] at hnone
  cases hpc : s.main with
  | creating t =>
    simp only [hpc] at hnone
    split at hnone <;> cases hnone
  | locking | woken | checking | entering | leaving => simp_all
  | waiting => exact .inr rfl
  | finished => exact .inl rfl

/-- If no thread can go on, `main` has returned: all workers have finished, so a signal has come
to it. -/
theorem Blocked.main_finished (hstuck : Blocked s) (hinv : Inv s) (h : Owned s) :
    s.main = .finished := by
  have hmain := hstuck.main h
  have hall (w : Fin N) : s.workers w = .finished := by
    refine (hstuck.worker h w).resolve_right (h.born (fun t ht => ?_) w)
    rcases hmain with hpc | hpc <;> rw [hpc] at ht <;> cases ht
  refine hmain.resolve_right fun hwaiting => ?_
  rcases hinv.waits hwaiting with hlt | ⟨w, hw⟩
  · rw [hinv.done_eq_of_released fun w => by rw [hall w]; rfl] at hlt
    exact absurd hlt (lt_irrefl N)
  · rw [hall w] at hw
    cases hw

/-- A process that is stuck is over, and all workers have released the mutex. -/
theorem Stuck.over (hstuck : Stuck s) (hinv : Inv s) (h : Owned s) :
    s.main = .finished ∧ s.done = N ∧ ∀ w, (s.workers w).released := by
  have hmain : s.main = .finished := by
    by_contra hnot
    have hblocked : Blocked s := fun a ha => by
      have hnone := hstuck a ha
      rwa [Sys.run, if_neg hnot] at hnone
    exact hnot (hblocked.main_finished hinv h)
  have hall := hinv.left (by rw [hmain]; rfl)
  exact ⟨hmain, hinv.done_eq_of_released hall, hall⟩

/-! ## What is ahead -/

/-- The steps of a worker, and three of `main` that its signal may call for. -/
def WorkerPc.ahead : WorkerPc → ℕ
  | .notCreated => 13
  | .working i => 9 + (WORKLOOPS - 1 - i)
  | .locking => 8
  | .incrementing => 7
  | .signalling => 6
  | .unlocking => 2
  | .returning => 1
  | .finished => 0

/-- The steps of `main` up to the next time it sleeps. -/
def MainPc.ahead (N : ℕ) : MainPc → ℕ
  | .creating t => N - t + 4
  | .locking | .woken => 3
  | .checking => 2
  | .entering | .leaving => 1
  | .waiting | .finished => 0

def Sys.ahead (s : Sys N) : ℕ := s.main.ahead N + ∑ w, (s.workers w).ahead

/-- The signal of the worker is still to come. -/
def WorkerPc.unsignalled : WorkerPc → ℕ
  | .unlocking | .returning | .finished => 0
  | .notCreated | .working _ | .locking | .incrementing | .signalling => 1

/-- The times that `main` can still go to sleep, and one. -/
def Sys.sleepsAhead (s : Sys N) : ℕ :=
  (if s.main = .waiting then 0 else 1) + ∑ w, (s.workers w).unsignalled

/-- `main` goes to sleep. -/
def sleeps (s : Sys N) (a : Act N) : ℕ := if a = .main ∧ s.main = .entering then 1 else 0

/-- `main` is woken without a signal. -/
def wakes (_ : Sys N) (a : Act N) : ℕ := if a = .spurious then 1 else 0

theorem ahead_setWorker (pc : WorkerPc) :
    (s.setWorker w pc).ahead + (s.workers w).ahead = s.ahead + pc.ahead := by
  have hsum := sum_moved WorkerPc.ahead s.workers w pc
  show s.main.ahead N + ∑ v, (Function.update s.workers w pc v).ahead + _ = _
  rw [Sys.ahead, Nat.add_assoc, hsum, Nat.add_assoc]

theorem sleepsAhead_setWorker (pc : WorkerPc) :
    (s.setWorker w pc).sleepsAhead + (s.workers w).unsignalled =
      s.sleepsAhead + pc.unsignalled := by
  have hsum := sum_moved WorkerPc.unsignalled s.workers w pc
  show (if s.main = .waiting then 0 else 1) +
    ∑ v, (Function.update s.workers w pc v).unsignalled + _ = _
  rw [Sys.sleepsAhead, Nat.add_assoc, hsum, Nat.add_assoc]

/-- A signal wakes `main`, which goes round its loop. -/
theorem ahead_signal : s.signal.ahead ≤ s.ahead + 3 := by
  simp only [Sys.signal, Sys.ahead]
  split
  · simp only [MainPc.ahead]
    omega
  · omega

theorem sleepsAhead_signal : s.signal.sleepsAhead ≤ s.sleepsAhead + 1 := by
  have hworkers : s.signal.workers = s.workers := rfl
  rw [Sys.sleepsAhead, Sys.sleepsAhead, hworkers]
  split <;> split <;> omega

theorem ahead_stepWorker (hstep : s.stepWorker w = some s') :
    s'.ahead + 1 ≤ s.ahead ∧ s'.sleepsAhead ≤ s.sleepsAhead := by
  rw [Sys.stepWorker] at hstep
  have hahead := ahead_setWorker (s := s) (w := w)
  have hsleeps := sleepsAhead_setWorker (s := s) (w := w)
  cases hpc : s.workers w with
  | working i =>
    simp only [hpc] at hstep hahead hsleeps
    obtain rfl := Option.some.inj hstep
    by_cases hi : i + 1 < WORKLOOPS
    · rw [if_pos hi]
      have h₁ := hahead (.working (i + 1))
      have h₂ := hsleeps (.working (i + 1))
      simp only [WorkerPc.ahead, WorkerPc.unsignalled] at h₁ h₂
      omega
    · rw [if_neg hi]
      have h₁ := hahead .locking
      have h₂ := hsleeps .locking
      simp only [WorkerPc.ahead, WorkerPc.unsignalled] at h₁ h₂
      omega
  | locking =>
    simp only [hpc] at hstep hahead hsleeps
    obtain ⟨-, ⟨⟩⟩ := Option.ite_none_right_eq_some.mp hstep
    have h₁ := hahead .incrementing
    have h₂ := hsleeps .incrementing
    show (s.setWorker w .incrementing).ahead + 1 ≤ _ ∧
      (s.setWorker w .incrementing).sleepsAhead ≤ _
    simp only [WorkerPc.ahead, WorkerPc.unsignalled] at h₁ h₂
    omega
  | incrementing =>
    simp only [hpc] at hstep hahead hsleeps
    obtain rfl := Option.some.inj hstep
    have h₁ := hahead .signalling
    have h₂ := hsleeps .signalling
    show (s.setWorker w .signalling).ahead + 1 ≤ _ ∧
      (s.setWorker w .signalling).sleepsAhead ≤ _
    simp only [WorkerPc.ahead, WorkerPc.unsignalled] at h₁ h₂
    omega
  | signalling =>
    -- what the signal costs `main` was put aside
    simp only [hpc] at hstep
    obtain rfl := Option.some.inj hstep
    have h₁ := ahead_setWorker (s := s.signal) (w := w) .unlocking
    have h₂ := sleepsAhead_setWorker (s := s.signal) (w := w) .unlocking
    have h₃ := ahead_signal (s := s)
    have h₄ := sleepsAhead_signal (s := s)
    rw [show s.signal.workers w = .signalling from hpc] at h₁ h₂
    simp only [WorkerPc.ahead, WorkerPc.unsignalled] at h₁ h₂
    omega
  | unlocking =>
    simp only [hpc] at hstep hahead hsleeps
    obtain rfl := Option.some.inj hstep
    have h₁ := hahead .returning
    have h₂ := hsleeps .returning
    show (s.setWorker w .returning).ahead + 1 ≤ _ ∧ (s.setWorker w .returning).sleepsAhead ≤ _
    simp only [WorkerPc.ahead, WorkerPc.unsignalled] at h₁ h₂
    omega
  | returning =>
    simp only [hpc] at hstep hahead hsleeps
    obtain rfl := Option.some.inj hstep
    have h₁ := hahead .finished
    have h₂ := hsleeps .finished
    simp only [WorkerPc.ahead, WorkerPc.unsignalled] at h₁ h₂
    omega
  | notCreated =>
    simp only [hpc] at hstep
    cases hstep
  | finished =>
    simp only [hpc] at hstep
    cases hstep

theorem ahead_moveMain (hworkers : s'.workers = s.workers) :
    s'.ahead + s.main.ahead N = s.ahead + s'.main.ahead N := by
  rw [Sys.ahead, Sys.ahead, hworkers]
  omega

theorem sleepsAhead_moveMain (hworkers : s'.workers = s.workers) (hmain' : s'.main ≠ .waiting)
    (hmain : s.main ≠ .waiting) : s'.sleepsAhead = s.sleepsAhead := by
  rw [Sys.sleepsAhead, Sys.sleepsAhead, hworkers, if_neg hmain', if_neg hmain]

theorem ahead_stepMain (hinv : Inv s) (hstep : s.stepMain = some s') :
    s'.ahead + 1 ≤ s.ahead ∧ s'.sleepsAhead + sleeps s .main ≤ s.sleepsAhead := by
  rw [Sys.stepMain] at hstep
  -- a step with which `main` neither creates a worker nor goes to sleep
  have hmove (hworkers : s'.workers = s.workers) (hawake : s'.main ≠ .waiting)
      (hmain : s.main ≠ .waiting) (hnot : s.main ≠ .entering)
      (hless : s'.main.ahead N + 1 ≤ s.main.ahead N) :
      s'.ahead + 1 ≤ s.ahead ∧ s'.sleepsAhead + sleeps s .main ≤ s.sleepsAhead := by
    have hahead := ahead_moveMain hworkers
    have hsleep : sleeps s .main = 0 := by simp [sleeps, hnot]
    rw [sleepsAhead_moveMain hworkers hawake hmain, hsleep]
    omega
  cases hpc : s.main with
  | creating t =>
    simp only [hpc] at hstep hmove
    split at hstep
    · rename_i ht
      obtain rfl := Option.some.inj hstep
      have hnew := hinv.fresh t hpc ⟨t, ht⟩ le_rfl
      have hahead := ahead_setWorker (s := s) (w := ⟨t, ht⟩) (.working 0)
      have hsleeps := sleepsAhead_setWorker (s := s) (w := ⟨t, ht⟩) (.working 0)
      have hsleep : sleeps s .main = 0 := by simp [sleeps, hpc]
      rw [hnew] at hahead hsleeps
      simp only [Sys.ahead, Sys.sleepsAhead, Sys.setWorker, hpc, WorkerPc.ahead,
        WorkerPc.unsignalled, MainPc.ahead, WORKLOOPS, reduceCtorEq, if_false] at hahead hsleeps ⊢
      omega
    · obtain rfl := Option.some.inj hstep
      refine hmove rfl (by simp) (by simp) (by simp) ?_
      simp only [MainPc.ahead]
      omega
  | locking | woken =>
    simp only [hpc] at hstep hmove
    obtain ⟨-, ⟨⟩⟩ := Option.ite_none_right_eq_some.mp hstep
    exact hmove rfl (by simp) (by simp) (by simp) le_rfl
  | checking =>
    simp only [hpc] at hstep hmove
    obtain rfl := Option.some.inj hstep
    refine hmove rfl ?_ (by simp) (by simp) ?_
    · show (if s.done < N then MainPc.entering else .leaving) ≠ _
      split <;> simp
    · show (if s.done < N then MainPc.entering else .leaving).ahead N + 1 ≤ _
      split <;> exact le_rfl
  | entering =>
    simp only [hpc] at hstep
    obtain rfl := Option.some.inj hstep
    have hsleep : sleeps s .main = 1 := by simp [sleeps, hpc]
    simp only [Sys.ahead, Sys.sleepsAhead, hpc, hsleep, MainPc.ahead, reduceCtorEq, if_true,
      if_false]
    omega
  | leaving =>
    simp only [hpc] at hstep hmove
    obtain rfl := Option.some.inj hstep
    exact hmove rfl (by simp) (by simp) (by simp) le_rfl
  | waiting | finished =>
    simp only [hpc] at hstep
    cases hstep

theorem ahead_step (hinv : Inv s) (hstep : s.step a = some s') :
    s'.ahead + 1 ≤ s.ahead + 4 * wakes s a ∧
      s'.sleepsAhead + sleeps s a ≤ s.sleepsAhead + wakes s a := by
  cases a with
  | main =>
    have hmain := ahead_stepMain hinv hstep
    exact ⟨hmain.1.trans (Nat.le_add_right _ _), hmain.2.trans (Nat.le_add_right _ _)⟩
  | worker w =>
    have hworker := ahead_stepWorker hstep
    exact ⟨hworker.1.trans (Nat.le_add_right _ _), hworker.2.trans (Nat.le_add_right _ _)⟩
  | spurious =>
    obtain ⟨hwaiting, ⟨⟩⟩ := Option.ite_none_right_eq_some.mp hstep
    simp only [Sys.ahead, Sys.sleepsAhead, sleeps, wakes, hwaiting, MainPc.ahead, reduceCtorEq,
      if_true, if_false, false_and]
    omega

/-! ## Every run -/

theorem ahead_init : (Sys.init N).ahead = 14 * N + 4 := by
  show N - 0 + 4 + ∑ _w : Fin N, 13 = _
  rw [Finset.sum_const, Finset.card_univ, Fintype.card_fin, smul_eq_mul]
  omega

theorem sleepsAhead_init : (Sys.init N).sleepsAhead = N + 1 := by
  show 1 + ∑ _w : Fin N, 1 = _
  rw [Finset.sum_const, Finset.card_univ, Fintype.card_fin, smul_eq_mul]
  omega

theorem sleepsAhead_pos (hinv : Inv s) : 0 < s.sleepsAhead := by
  rw [Sys.sleepsAhead]
  split
  · rename_i hwaiting
    have hexists : ∃ w, 0 < (s.workers w).unsignalled := by
      rcases hinv.waits hwaiting with hlt | ⟨w, hw⟩
      · -- somebody has not counted itself
        by_contra hnone
        have huniv : s.counted = Finset.univ := by
          refine Finset.eq_univ_of_forall fun w => mem_counted.mpr ?_
          have hw := not_exists.mp hnone w
          cases hpc : s.workers w <;> simp_all [WorkerPc.counted, WorkerPc.unsignalled]
        rw [hinv.done_eq, huniv, Finset.card_univ, Fintype.card_fin] at hlt
        exact absurd hlt (lt_irrefl N)
      · exact ⟨w, by rw [hw]; exact Nat.one_pos⟩
    obtain ⟨w, hw⟩ := hexists
    have hle := Finset.single_le_sum (f := fun w => (s.workers w).unsignalled)
      (fun _ _ => Nat.zero_le _) (Finset.mem_univ w)
    omega
  · omega

/-- **The barrier is passed.**  For any number of workers and any order of steps: a run of the
process in which `main` is woken `k` times without a signal has at most `14 N + 4 + 4 k` steps, in
it `main` goes to sleep at most `N + k` times, and when nothing can happen any more, `main` has
returned, all workers are counted and all of them have released the mutex. -/
theorem barrier_passed (h : Trace Sys.run anyOrder (Sys.init N) as s) :
    as.length ≤ 14 * N + 4 + 4 * as.count .spurious ∧
      tally Sys.run sleeps (Sys.init N) as ≤ N + as.count .spurious ∧
      (Stuck s → s.main = .finished ∧ s.done = N ∧ ∀ w, (s.workers w).released) := by
  obtain ⟨hinv, howned⟩ := owned_of_trace h
  have hthrough := h.through (P := Inv)
    (fun _ _ _ hs _ hrun => hs.step (step_of_run hrun)) inv_init
  have hstep : ∀ s a s', anyOrder s a ∧ Inv s → Sys.run (N := N) s a = some s' →
      s'.ahead + 1 ≤ s.ahead + 4 * wakes s a ∧
        s'.sleepsAhead + sleeps s a ≤ s.sleepsAhead + wakes s a :=
    fun _ _ _ hok hrun => ahead_step hok.2 (step_of_run hrun)
  have hlength := hthrough.amortise fun s a s' hok hmove => (hstep s a s' hok hmove).1
  have hsleeps : s.sleepsAhead + tally Sys.run sleeps (Sys.init N) as ≤
      (Sys.init N).sleepsAhead + tally Sys.run wakes (Sys.init N) as :=
    hthrough.amortise fun s a s' hok hmove => (hstep s a s' hok hmove).2
  have hcount : tally Sys.run wakes (Sys.init N) as = as.count .spurious :=
    h.tally_count (Act.spurious : Act N)
  rw [h.tally_one, h.tally_mul, hcount, ahead_init] at hlength
  rw [hcount, sleepsAhead_init] at hsleeps
  have hpos := sleepsAhead_pos hinv
  exact ⟨by omega, by omega, fun hstuck => hstuck.over hinv howned⟩

/-- The two workers above.  `main` still has its mutex to release. -/
theorem barrier_passed_earlySignal :
    ∃ s, Trace Sys.run anyOrder (Sys.init 2) earlySignal s ∧
      earlySignal.length ≤ 14 * 2 + 4 + 4 * earlySignal.count .spurious ∧
      tally Sys.run sleeps (Sys.init 2) earlySignal ≤ 2 + earlySignal.count .spurious ∧
      (Stuck s → s.main = .finished ∧ s.done = 2 ∧ ∀ w, (s.workers w).released) := by
  obtain ⟨s, h, -⟩ := Trace.exists_of_eval Sys.run anyOrder (fun _ => true) (Sys.init 2)
    earlySignal (by decide +kernel)
  exact ⟨s, h, barrier_passed h⟩

end Condvar
end CaosSeminars
