import CaosSeminars.Faulty.Safety
import CaosSeminars.Library.Potential

/-!
# Every iteration ends

Nothing in the three programs waits for something that does not come.  A store on its way reaches
the memory, the thread that holds the mutex goes on to release it, and `main` joins threads that
finish (`exists_step`).  And no iteration goes on for ever: it is over after at most 28 steps,
counted with the steps by which stores reach the memory (`length_le`).

* `CanStep` --- somebody can make a step; `canStep_of_inv` finds out who, by the place of `main`.
* `State.left` --- the steps left of an iteration, which every step lowers by one or more
  (`left_step`); an assignment puts a store on its way, and has paid for it before.
* `loop_goes_round` --- both for every run of all three programs: it is not stuck, and an iteration
  is at most 28 steps long.
-/

namespace CaosSeminars
namespace Faulty

variable {build : Build} {s s' : State} {b : Bool} {a : Act}

/-! ## Nothing is stuck -/

/-- Somebody can make a step. -/
def CanStep (build : Build) (s : State) : Prop :=
  ∃ a s', loadsInOrder build s a ∧ s.step build a = some s'

theorem canStep_of_pending {w : Who} (h : ¬s.drained w) : CanStep build s := by
  obtain ⟨m, hm⟩ := Buffered.exists_commit h
  exact ⟨.commit w, { s with memory := m }, fun _ => trivial, by rw [State.step, hm]; rfl⟩

theorem canStep_of_main (h : ∃ s', s.stepMain build = some s') : CanStep build s :=
  h.elim fun s' hs' => ⟨.main, s', fun _ => trivial, hs'⟩

/-- A thread that is not at its load can make a step. -/
theorem canStep_of_thread (hload : s.threads b ≠ .load)
    (h : ∃ s', s.stepThread build b = some s') : CanStep build s :=
  h.elim fun s' hs' => ⟨.thread b, s', fun _ hpc => absurd hpc hload, hs'⟩

/-- A thread in the critical section can go on. -/
theorem canStep_of_critical (h : Inv build s) (hpc : (s.threads b).critical = true) :
    CanStep build s := by
  by_cases hd : s.drained (.thread b)
  · cases hb : s.threads b with
    | store =>
      exact canStep_of_thread (b := b) (by simp [hb]) ⟨_, by rw [State.stepThread, hb]⟩
    | load => exact ⟨.thread b, _, fun _ _ => hd, by rw [State.step, State.stepThread, hb]⟩
    | save v =>
      exact canStep_of_thread (b := b) (by simp [hb]) ⟨_, by rw [State.stepThread, hb]⟩
    | unlock =>
      have hx : s.mutex = some b :=
        ((h.thread b).critical ((h.thread b).locks (Or.inr hb))).mp (by rw [hb]; rfl)
      exact canStep_of_thread (b := b) (by simp [hb])
        ⟨_, by rw [State.stepThread, hb]; exact if_pos ⟨hd, hx⟩⟩
    | notCreated | lock | finished =>
      rw [hb] at hpc
      cases hpc
  · exact canStep_of_pending hd

/-- A thread that is created and not joined can go on, or somebody holds the mutex, or it has
finished. -/
theorem canStep_of_joining (h : Inv build s) (hmain : s.main = .joining b) : CanStep build s := by
  have hlive : s.threads b ≠ .notCreated := (h.created b).mpr (by rw [hmain]; rfl)
  by_cases hcritical : (s.threads b).critical = true
  · exact canStep_of_critical h hcritical
  · by_cases hd : s.drained (.thread b)
    · cases hb : s.threads b with
      | notCreated => exact absurd hb hlive
      | lock =>
        cases hx : s.mutex with
        | none =>
          exact canStep_of_thread (b := b) (by rw [hb]; nofun)
            ⟨_, by rw [State.stepThread, hb]; exact if_pos ⟨hd, hx⟩⟩
        | some c =>
          have hmutex := (h.thread b).locks (Or.inl hb)
          exact canStep_of_critical h (((h.thread c).critical hmutex).mpr hx)
      | finished =>
        exact canStep_of_main ⟨_, by rw [State.stepMain, hmain]; exact if_pos ⟨hb, hd⟩⟩
      | store | load | save v | unlock =>
        rw [hb] at hcritical
        exact absurd rfl hcritical
    · exact canStep_of_pending hd

/-- **Nothing is stuck.** -/
theorem canStep_of_inv (h : Inv build s) : CanStep build s := by
  cases hmain : s.main with
  | clearing l => exact canStep_of_main ⟨_, by rw [State.stepMain, hmain]⟩
  | creating b =>
    by_cases hd : s.drained .main
    · exact canStep_of_main ⟨_, by rw [State.stepMain, hmain]; exact if_pos hd⟩
    · exact canStep_of_pending hd
  | joining b => exact canStep_of_joining h hmain
  | testing =>
    refine canStep_of_main ?_
    rw [State.stepMain, hmain]
    by_cases hzero : s.memory.view .main .r1 = 0
    · exact ⟨_, if_pos hzero⟩
    · exact ⟨_, if_neg hzero⟩
  | testingBoth =>
    refine canStep_of_main ?_
    rw [State.stepMain, hmain]
    by_cases hzero : s.memory.view .main .r2 = 0
    · exact ⟨_, if_pos hzero⟩
    · exact ⟨_, if_neg hzero⟩
  | aborted => exact absurd hmain h.running

/-! ## Steps are used up -/

/-- The steps that are left of a thread, with those by which its stores reach the memory. -/
def ThreadPc.left : ThreadPc → ℕ
  | .notCreated | .lock => 7
  | .store => 6
  | .load => 4
  | .save _ => 3
  | .unlock => 1
  | .finished => 0

/-- The steps that are left of an iteration in `main`. -/
def MainPc.left : MainPc → ℕ
  | .clearing .x => 14
  | .clearing .y => 12
  | .clearing .r1 => 10
  | .clearing .r2 => 8
  | .creating false => 6
  | .creating true => 5
  | .joining false => 4
  | .joining true => 3
  | .testing => 2
  | .testingBoth => 1
  | .aborted => 0

/-- The stores on their way. -/
def State.onTheWay (s : State) : ℕ :=
  (s.memory.buffer .main).length + (s.memory.buffer (.thread false)).length +
    (s.memory.buffer (.thread true)).length

def State.left (s : State) : ℕ :=
  s.main.left + (s.threads false).left + (s.threads true).left + s.onTheWay

/-- `main` finds a value other than `0` and starts again. -/
def restarts (s : State) (a : Act) : ℕ :=
  match s.main, a with
  | .testing, .main => if s.memory.view .main .r1 = 0 then 0 else 1
  | .testingBoth, .main => if s.memory.view .main .r2 = 0 then 0 else 1
  | _, _ => 0

theorem onTheWay_assign (build : Build) (s : State) (w : Who) (l : Loc) (v : ℤ) :
    (s.assign build w l v).onTheWay ≤ s.onTheWay + 1 := by
  cases build with
  | atomic => exact Nat.le_succ _
  | faulty | mutex =>
    rcases w with _ | _ | _ <;>
      simp [State.onTheWay, State.assign, Buffered.write, Function.update_of_ne] <;> omega

theorem left_setThread (s : State) (b : Bool) (pc : ThreadPc) :
    (s.setThread b pc).left + (s.threads b).left = s.left + pc.left := by
  cases b <;> simp [State.left, State.setThread, State.onTheWay] <;> omega

theorem left_goMain (s : State) (main : MainPc) :
    (s.goMain main).left + s.main.left = s.left + main.left := by
  show main.left + (s.threads false).left + (s.threads true).left + s.onTheWay + s.main.left =
    s.main.left + (s.threads false).left + (s.threads true).left + s.onTheWay + main.left
  omega

theorem left_assign (build : Build) (s : State) (w : Who) (l : Loc) (v : ℤ) :
    (s.assign build w l v).left ≤ s.left + 1 := by
  have hway := onTheWay_assign build s w l v
  simp only [State.left, assign_main, assign_threads]
  omega

theorem left_again (s : State) : s.again.left = 28 + s.onTheWay := rfl

theorem left_stepThread (hstep : s.stepThread build b = some s') : s'.left + 1 ≤ s.left := by
  rw [State.stepThread] at hstep
  split at hstep
  · rename_i hpc
    split at hstep <;> cases hstep
    have hmove := left_setThread s b .store
    rw [hpc] at hmove
    simp only [ThreadPc.left] at hmove
    show (s.setThread b .store).left + 1 ≤ s.left
    omega
  · rename_i hpc
    cases hstep
    have hmove := left_setThread (s.assign build (.thread b) (own b) 1) b .load
    have hway := left_assign build s (.thread b) (own b) 1
    rw [assign_threads, hpc] at hmove
    simp only [ThreadPc.left] at hmove
    omega
  · rename_i hpc
    cases hstep
    have hmove := left_setThread s b (.save (s.memory.view (.thread b) (own !b)))
    rw [hpc] at hmove
    simp only [ThreadPc.left] at hmove
    omega
  · rename_i v hpc
    cases hstep
    have hmove := left_setThread (s.assign build (.thread b) (result b) v) b build.exit
    have hway := left_assign build s (.thread b) (result b) v
    have hexit : build.exit.left ≤ 1 := by cases build <;> decide
    rw [assign_threads, hpc] at hmove
    simp only [ThreadPc.left] at hmove hexit
    omega
  · rename_i hpc
    split at hstep <;> cases hstep
    have hmove := left_setThread s b .finished
    rw [hpc] at hmove
    simp only [ThreadPc.left] at hmove
    show (s.setThread b .finished).left + 1 ≤ s.left
    omega
  all_goals cases hstep

theorem left_commit {w : Who} {m : Buffered Who Loc ℤ} (hcommit : s.memory.commit w = some m) :
    ({ s with memory := m } : State).left + 1 = s.left := by
  obtain ⟨e, hbuffer, hsame⟩ := Buffered.buffer_commit hcommit
  have hlength : (s.memory.buffer w).length = (m.buffer w).length + 1 := by
    rw [hbuffer, List.length_cons]
  have hother : ∀ u, u ≠ w → (m.buffer u).length = (s.memory.buffer u).length := fun u hu => by
    rw [hsame u hu]
  have hway : ({ s with memory := m } : State).onTheWay + 1 = s.onTheWay := by
    show (m.buffer .main).length + (m.buffer (.thread false)).length +
      (m.buffer (.thread true)).length + 1 = s.onTheWay
    unfold State.onTheWay
    rcases w with _ | _ | _
    · rw [hother (.thread false) nofun, hother (.thread true) nofun]
      omega
    · rw [hother .main nofun, hother (.thread true) nofun]
      omega
    · rw [hother .main nofun, hother (.thread false) nofun]
      omega
  show s.main.left + (s.threads false).left + (s.threads true).left + _ + 1 = s.left
  unfold State.left
  omega

theorem left_stepMain (h : Inv build s) (hstep : s.stepMain build = some s') :
    s'.left + 1 ≤ s.left + 28 * restarts s .main := by
  rw [State.stepMain] at hstep
  split at hstep
  · rename_i l hmain
    cases hstep
    have hmove := left_goMain (s.assign build .main l 0) (.afterClearing l)
    have hway := left_assign build s .main l 0
    have hl : (MainPc.afterClearing l).left + 2 = (MainPc.clearing l).left := by cases l <;> rfl
    rw [assign_main, hmain] at hmove
    omega
  · rename_i b hmain
    split at hstep <;> cases hstep
    have hnew : s.threads b = .notCreated := by
      by_contra hb
      have := (h.created b).mp hb
      rw [hmain] at this
      cases b <;> cases this
    have hset := left_setThread s b build.entry
    have hmove := left_goMain (s.setThread b build.entry) (.afterCreating b)
    have hb : (MainPc.afterCreating b).left + 1 = (MainPc.creating b).left := by cases b <;> rfl
    have hentry : build.entry.left ≤ 7 := by cases build <;> decide
    rw [show (s.setThread b build.entry).main = .creating b from hmain] at hmove
    rw [hnew, show ThreadPc.notCreated.left = 7 from rfl] at hset
    omega
  · rename_i b hmain
    split at hstep <;> cases hstep
    have hmove := left_goMain s (.afterJoining b)
    have hb : (MainPc.afterJoining b).left + 1 = (MainPc.joining b).left := by cases b <;> rfl
    rw [hmain] at hmove
    omega
  · rename_i hmain
    split at hstep <;> cases hstep
    · have hmove := left_goMain s .testingBoth
      rw [hmain] at hmove
      simp only [MainPc.left] at hmove
      omega
    · rename_i hne
      have hrestart : restarts s .main = 1 := by simp [restarts, hmain, hne]
      rw [left_again, hrestart, State.left, hmain]
      simp only [MainPc.left]
      omega
  · rename_i hmain
    split at hstep <;> cases hstep
    · have hmove := left_goMain s .aborted
      rw [hmain] at hmove
      simp only [MainPc.left] at hmove
      show (s.goMain .aborted).left + 1 ≤ _
      omega
    · rename_i hne
      have hrestart : restarts s .main = 1 := by simp [restarts, hmain, hne]
      rw [left_again, hrestart, State.left, hmain]
      simp only [MainPc.left]
      omega
  · cases hstep

theorem left_step (h : Inv build s) (hstep : s.step build a = some s') :
    s'.left + 1 ≤ s.left + 28 * restarts s a := by
  cases a with
  | main => exact left_stepMain h hstep
  | thread b => exact (left_stepThread hstep).trans (Nat.le_add_right _ _)
  | commit w =>
    obtain ⟨m, hcommit, rfl⟩ := Option.map_eq_some_iff.mp hstep
    exact (left_commit hcommit).le.trans (Nat.le_add_right _ _)

/-- **The loop goes round.**  No run of any of the three programs gets stuck, and after every 28
steps at the latest `main` starts another iteration. -/
theorem loop_goes_round {as : List Act}
    (h : Trace (State.step build) (loadsInOrder build) State.init as s) :
    CanStep build s ∧
      as.length ≤ 28 * (tally (State.step build) restarts State.init as + 1) := by
  have hinv := h.through (P := Inv build) (fun _ _ _ hs hok hstep => hs.step hok hstep)
    (inv_init build)
  have hstep : ∀ s a s', loadsInOrder build s a ∧ Inv build s → s.step build a = some s' →
      s'.left + 1 ≤ s.left + 28 * restarts s a := fun _ _ _ hok => left_step hok.2
  have hrun := hinv.amortise hstep
  rw [h.tally_one, h.tally_mul] at hrun
  have hstart : State.init.left = 28 := rfl
  exact ⟨canStep_of_inv (inv_of_trace h), by omega⟩

theorem loop_goes_round_delayedStore :
    ∃ s, Trace (State.step .mutex) (loadsInOrder .mutex) State.init delayedStore s ∧
      CanStep .mutex s ∧ delayedStore.length ≤
        28 * (tally (State.step .mutex) restarts State.init delayedStore + 1) := by
  obtain ⟨s, h, -⟩ := Trace.exists_of_eval (State.step .mutex) (loadsInOrder .mutex)
    (fun _ => true) State.init delayedStore (by decide)
  exact ⟨s, h, loop_goes_round h⟩

end Faulty
end CaosSeminars
