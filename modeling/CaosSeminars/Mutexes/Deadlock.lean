import CaosSeminars.Library.Trace
import Mathlib.Data.List.Range

/-!
# The deadlock of `problem.c`

Two threads lock two mutexes, in opposite orders, and `main` starts and joins such a pair a thousand
times, having printed the number of the round and flushed it.

The program gets stuck in one way only: each thread has locked its first mutex and waits for its
second one (`stuck_iff`).  It can happen in any round (`deadlock_in_any_round`).  What is shown on
the way is that nothing else stops a thread: whenever a mutex is held its holder is on the way to
its release, unless it waits for the other one.

* `Inv` --- the invariant: who holds which mutex, told from where the threads are.
* `exists_unlock` --- a thread that is to unlock can; `both_lockInner` --- where two threads
  are that both cannot go on.
* `stuck_iff` --- in every run: no step is possible **iff** `main` has finished, or it waits
  in some round and each thread has its first mutex and waits for its second one.
* `trace_calm`, `exists_between` --- a round that goes well leads to the next one, so that
  any number of them can come before the deadlock.
-/

namespace CaosSeminars
namespace Mutexes

/-- Where a thread is.  The outer mutex of the thread `false`, which runs `first`, is `mutex1`, and
that of the thread `true`, which runs `second`, is `mutex2`; the inner one is the other. -/
inductive ThreadPc where
  | notCreated
  | lockOuter
  | lockInner
  | unlockInner
  | unlockOuter
  | finished
  deriving DecidableEq

/-- Where `main` is. -/
inductive MainPc where
  /-- The loop condition of the round `i`, and then its `printf` and `fflush`. -/
  | round (i : ℕ)
  | creating (i : ℕ) (b : Bool)
  | joining (i : ℕ) (b : Bool)
  | finished
  deriving DecidableEq

/-- `mutex1` is `false` and `mutex2` is `true`. -/
abbrev Mutex := Bool

structure State where
  main : MainPc
  threads : Bool → ThreadPc
  /-- Who holds a mutex. -/
  holder : Mutex → Option Bool
  /-- The lines that have been printed. -/
  output : List ℕ

inductive Act where
  | main
  | thread (b : Bool)
  deriving DecidableEq

namespace State

def init : State := ⟨.round 0, fun _ => .notCreated, fun _ => none, []⟩

def setThread (s : State) (b : Bool) (pc : ThreadPc) : State :=
  { s with threads := Function.update s.threads b pc }

/-- `pthread_mutex_lock(m)` by a thread, which goes on at `pc`. -/
def lock (s : State) (b : Bool) (m : Mutex) (pc : ThreadPc) : Option State :=
  if s.holder m = none then
    some { s.setThread b pc with holder := Function.update s.holder m (some b) }
  else none

/-- `pthread_mutex_unlock(m)` by a thread, which goes on at `pc`. -/
def unlock (s : State) (b : Bool) (m : Mutex) (pc : ThreadPc) : Option State :=
  if s.holder m = some b then
    some { s.setThread b pc with holder := Function.update s.holder m none }
  else none

/-- One step of `first` or of `second`. -/
def stepThread (s : State) (b : Bool) : Option State :=
  match s.threads b with
  | .lockOuter => s.lock b b .lockInner
  | .lockInner => s.lock b (!b) .unlockInner
  | .unlockInner => s.unlock b (!b) .unlockOuter
  | .unlockOuter => s.unlock b b .finished
  | .notCreated | .finished => none

/-- One step of `main`. -/
def stepMain (s : State) : Option State :=
  match s.main with
  | .round i =>
    if i < 1000 then some { s with main := .creating i false, output := s.output ++ [i] }
    else some { s with main := .finished }
  | .creating i false => some { s.setThread false .lockOuter with main := .creating i true }
  | .creating i true => some { s.setThread true .lockOuter with main := .joining i false }
  | .joining i false =>
    if s.threads false = .finished then some { s with main := .joining i true } else none
  | .joining i true =>
    if s.threads true = .finished then
      some { s with main := .round (i + 1), threads := fun _ => .notCreated }
    else none
  | .finished => none

def step (s : State) : Act → Option State
  | .main => s.stepMain
  | .thread b => s.stepThread b

end State

/-- Every order of steps. -/
def anyOrder (_ : State) (_ : Act) : Prop := True

instance (s : State) (a : Act) : Decidable (anyOrder s a) := inferInstanceAs (Decidable True)

/-! ## Who holds what -/

/-- The thread `b` at a place of its function holds the mutex `m`. -/
def ThreadPc.holds (b : Bool) (m : Mutex) : ThreadPc → Bool
  | .notCreated | .lockOuter | .finished => false
  | .lockInner | .unlockOuter => m == b
  | .unlockInner => true

/-- The threads that `main` has created in this round and that it has not joined. -/
def MainPc.started : MainPc → Bool → Bool
  | .round _, _ | .finished, _ => false
  | .creating _ b, c => b && !c
  | .joining _ _, _ => true

/-- The lines before the next step of `main`. -/
def MainPc.printed : MainPc → ℕ
  | .round i => i
  | .creating i _ | .joining i _ => i + 1
  | .finished => 1000

structure Inv (s : State) : Prop where
  holder : ∀ m b, s.holder m = some b ↔ (s.threads b).holds b m = true
  started : ∀ b, s.threads b ≠ .notCreated ↔ s.main.started b = true
  joined : ∀ i, s.main = .joining i true → s.threads false = .finished
  output : s.output = List.range s.main.printed
  rounds : s.main.printed ≤ 1000

theorem inv_init : Inv State.init where
  holder m b := ⟨nofun, nofun⟩
  started b := ⟨fun h => absurd rfl h, nofun⟩
  joined i h := by cases h
  output := rfl
  rounds := Nat.zero_le _

variable {s s' : State} {b : Bool} {m : Mutex} {pc pc' : ThreadPc}

namespace Inv

theorem moveThread (h : Inv s) (hpc : s.threads b = pc) (hlive : pc ≠ .notCreated)
    (hnot : pc ≠ .finished) (hborn : pc' ≠ .notCreated) {x : Option Bool}
    (hself : ∀ m', (Function.update s.holder m x m' = some b ↔ pc'.holds b m' = true))
    (hother : ∀ c, c ≠ b → (x = some c ↔ s.holder m = some c)) :
    Inv { s.setThread b pc' with holder := Function.update s.holder m x } where
  holder m' c := by
    show Function.update s.holder m x m' = some c ↔
      (Function.update s.threads b pc' c).holds c m' = true
    by_cases hc : c = b
    · subst hc
      rw [Function.update_self]
      exact hself m'
    · rw [Function.update_of_ne hc, ← h.holder m' c]
      by_cases hm : m' = m
      · rw [hm, Function.update_self]
        exact hother c hc
      · rw [Function.update_of_ne hm]
  started c := by
    show Function.update s.threads b pc' c ≠ _ ↔ s.main.started c = true
    rw [← h.started c]
    by_cases hc : c = b
    · subst hc
      rw [Function.update_self, hpc]
      exact ⟨fun _ => hlive, fun _ => hborn⟩
    · rw [Function.update_of_ne hc]
  joined i hi := by
    have hb : false ≠ b := by
      rintro rfl
      exact hnot (hpc.symm.trans (h.joined i hi))
    exact (Function.update_of_ne hb _ _).trans (h.joined i hi)
  output := h.output
  rounds := h.rounds

theorem lock (h : Inv s) (hlock : s.lock b m pc' = some s') (hpc : s.threads b = pc)
    (hlive : pc ≠ .notCreated) (hnot : pc ≠ .finished) (hborn : pc' ≠ .notCreated)
    (hholds : ∀ m', pc'.holds b m' = (pc.holds b m' || m' == m)) : Inv s' := by
  unfold State.lock at hlock
  split at hlock <;> cases hlock
  rename_i hfree
  refine h.moveThread hpc hlive hnot hborn (fun m' => ?_) (fun c hc => ?_)
  · have hbefore := h.holder m' b
    rw [hpc] at hbefore
    rw [hholds]
    by_cases hm : m' = m
    · simp [hm]
    · rw [Function.update_of_ne hm, hbefore]
      simp [hm]
  · rw [hfree]
    exact ⟨fun hcb => absurd (Option.some.inj hcb).symm hc, nofun⟩

theorem unlock (h : Inv s) (hunlock : s.unlock b m pc' = some s') (hpc : s.threads b = pc)
    (hlive : pc ≠ .notCreated) (hnot : pc ≠ .finished) (hborn : pc' ≠ .notCreated)
    (hholds : ∀ m', pc'.holds b m' = (pc.holds b m' && m' != m)) : Inv s' := by
  unfold State.unlock at hunlock
  split at hunlock <;> cases hunlock
  rename_i hheld
  refine h.moveThread hpc hlive hnot hborn (fun m' => ?_) (fun c hc => ?_)
  · have hbefore := h.holder m' b
    rw [hpc] at hbefore
    rw [hholds]
    by_cases hm : m' = m
    · simp [hm]
    · rw [Function.update_of_ne hm, hbefore]
      simp [hm]
  · rw [hheld]
    exact ⟨nofun, fun hcb => absurd (Option.some.inj hcb).symm hc⟩

theorem stepThread (h : Inv s) (hstep : s.stepThread b = some s') : Inv s' := by
  unfold State.stepThread at hstep
  split at hstep
  · rename_i hpc
    have hholds : ∀ m', ThreadPc.lockInner.holds b m' =
        (ThreadPc.lockOuter.holds b m' || m' == b) := fun m' => by
      cases m' <;> cases b <;> rfl
    exact h.lock hstep hpc nofun nofun nofun hholds
  · rename_i hpc
    have hholds : ∀ m', ThreadPc.unlockInner.holds b m' =
        (ThreadPc.lockInner.holds b m' || m' == !b) := fun m' => by
      cases m' <;> cases b <;> rfl
    exact h.lock hstep hpc nofun nofun nofun hholds
  · rename_i hpc
    have hholds : ∀ m', ThreadPc.unlockOuter.holds b m' =
        (ThreadPc.unlockInner.holds b m' && m' != !b) := fun m' => by
      cases m' <;> cases b <;> rfl
    exact h.unlock hstep hpc nofun nofun nofun hholds
  · rename_i hpc
    have hholds : ∀ m', ThreadPc.finished.holds b m' =
        (ThreadPc.unlockOuter.holds b m' && m' != b) := fun m' => by
      cases m' <;> cases b <;> rfl
    exact h.unlock hstep hpc nofun nofun nofun hholds
  all_goals cases hstep

theorem create (h : Inv s) {i : ℕ} {main : MainPc} (hmain : s.main = .creating i b)
    (hstarted : ∀ c, main.started c = (b || !c)) (hjoined : ∀ j, main ≠ .joining j true)
    (hprinted : main.printed = i + 1) :
    Inv { s.setThread b .lockOuter with main := main } := by
  have hbefore : ∀ c, s.threads c ≠ .notCreated ↔ (b && !c) = true := fun c => by
    rw [h.started c, hmain]
    rfl
  have hnew : s.threads b = .notCreated := by
    by_contra hb
    have := (hbefore b).mp hb
    simp at this
  have hrounds := h.rounds
  rw [hmain] at hrounds
  exact
    { holder := fun m c => by
        show s.holder m = some c ↔ (Function.update s.threads b .lockOuter c).holds c m = true
        rw [h.holder m c]
        by_cases hc : c = b
        · subst hc
          rw [Function.update_self, hnew]
          rfl
        · rw [Function.update_of_ne hc]
      started := fun c => by
        show Function.update s.threads b .lockOuter c ≠ _ ↔ main.started c = true
        rw [hstarted]
        by_cases hc : c = b
        · subst hc
          rw [Function.update_self]
          exact ⟨fun _ => by cases c <;> rfl, nofun⟩
        · rw [Function.update_of_ne hc, hbefore c]
          cases b <;> cases c <;> simp_all
      joined := fun j hj => absurd hj (hjoined j)
      output := by
        show s.output = List.range main.printed
        rw [h.output, hmain, hprinted]
        rfl
      rounds := by
        show main.printed ≤ 1000
        rwa [hprinted] }

theorem stepMain (h : Inv s) (hstep : s.stepMain = some s') : Inv s' := by
  have hrounds := h.rounds
  unfold State.stepMain at hstep
  split at hstep
  · rename_i i hmain
    have hnone : ∀ b, s.threads b = .notCreated := fun b => by
      by_contra hb
      have := (h.started b).mp hb
      rw [hmain] at this
      cases this
    rw [hmain] at hrounds
    have hout : s.output = List.range i := by rw [h.output, hmain]; rfl
    split at hstep <;> cases hstep
    · exact
        { h with
          started := fun b => ⟨fun hb => absurd (hnone b) hb, fun hb => by cases hb⟩
          joined := nofun
          output := by
            show s.output ++ [i] = List.range (i + 1)
            rw [hout, List.range_succ]
          rounds := ‹i < 1000› }
    · have hi : i = 1000 := Nat.le_antisymm hrounds (not_lt.mp ‹_›)
      exact
        { h with
          started := fun b => ⟨fun hb => absurd (hnone b) hb, fun hb => by cases hb⟩
          joined := nofun
          output := by
            show s.output = List.range 1000
            rw [hout, hi]
          rounds := le_rfl }
  · cases hstep
    exact h.create ‹_› (fun c => by cases c <;> rfl) nofun rfl
  · cases hstep
    exact h.create ‹_› (fun c => by cases c <;> rfl) nofun rfl
  · rename_i i hmain
    split at hstep <;> cases hstep
    exact
      { h with
        started := fun b => (h.started b).trans (by rw [hmain]; rfl)
        joined := fun j _ => ‹s.threads false = .finished›
        output := by
          rw [h.output, hmain]
          rfl
        rounds := by
          rw [hmain] at hrounds
          exact hrounds }
  · rename_i i hmain
    split at hstep <;> cases hstep
    rename_i hfinished
    have hall : ∀ b, s.threads b = .finished := fun b => by
      cases b
      · exact h.joined i hmain
      · exact hfinished
    exact
      { holder := fun m b => by
          have := h.holder m b
          rw [hall b] at this
          exact this
        started := fun b => ⟨fun hb => absurd rfl hb, fun hb => by cases hb⟩
        joined := nofun
        output := by
          rw [h.output, hmain]
          rfl
        rounds := by
          rw [hmain] at hrounds
          exact hrounds }
  · cases hstep

theorem step (h : Inv s) {a : Act} (hstep : s.step a = some s') : Inv s' := by
  cases a with
  | main => exact h.stepMain hstep
  | thread b => exact h.stepThread hstep

/-! ## What stops a thread -/

theorem exists_unlock (h : Inv s) (hpc : s.threads b = .unlockInner ∨ s.threads b = .unlockOuter) :
    ∃ s', s.stepThread b = some s' := by
  rcases hpc with hpc | hpc
  · have hheld : s.holder (!b) = some b := (h.holder (!b) b).mpr (by rw [hpc]; rfl)
    exact ⟨_, by rw [State.stepThread, hpc]; exact if_pos hheld⟩
  · have hheld : s.holder b = some b := (h.holder b b).mpr (by rw [hpc]; simp [ThreadPc.holds])
    exact ⟨_, by rw [State.stepThread, hpc]; exact if_pos hheld⟩

/-- **Each waits for the other.**  A thread that is stopped in its function has its outer mutex and
waits for its inner one, and so does the other thread. -/
theorem both_lockInner (h : Inv s) (hstuck : ∀ b, s.stepThread b = none)
    (hlive : s.threads b ≠ .notCreated) (hnot : s.threads b ≠ .finished) :
    ∀ c, s.threads c = .lockInner := by
  have hno : ∀ c, s.threads c ≠ .unlockInner ∧ s.threads c ≠ .unlockOuter := fun c => by
    constructor <;> intro hpc
    · obtain ⟨s', hs'⟩ := h.exists_unlock (Or.inl hpc)
      rw [hstuck c] at hs'
      cases hs'
    · obtain ⟨s', hs'⟩ := h.exists_unlock (Or.inr hpc)
      rw [hstuck c] at hs'
      cases hs'
  have hthread := hstuck b
  cases hpc : s.threads b with
  | notCreated => exact absurd hpc hlive
  | finished => exact absurd hpc hnot
  | unlockInner => exact absurd hpc (hno b).1
  | unlockOuter => exact absurd hpc (hno b).2
  | lockOuter =>
    -- only the other thread could hold the mutex, and then it would be unlocking
    simp only [State.stepThread, hpc, State.lock, ite_eq_right_iff, reduceCtorEq, imp_false]
      at hthread
    obtain ⟨c, hc⟩ := Option.ne_none_iff_exists'.mp hthread
    have hholds := (h.holder b c).mp hc
    exfalso
    revert hholds
    have hc := hno c
    cases hpcc : s.threads c with
    | lockInner =>
      intro hholds
      have hcb : b = c := by simpa [ThreadPc.holds] using hholds
      rw [← hcb, hpc] at hpcc
      cases hpcc
    | unlockInner => exact absurd hpcc hc.1
    | unlockOuter => exact absurd hpcc hc.2
    | notCreated | lockOuter | finished => nofun
  | lockInner =>
    simp only [State.stepThread, hpc, State.lock, ite_eq_right_iff, reduceCtorEq, imp_false]
      at hthread
    obtain ⟨c, hc⟩ := Option.ne_none_iff_exists'.mp hthread
    have hholds := (h.holder (!b) c).mp hc
    have hcb : c ≠ b := by
      rintro rfl
      rw [hpc] at hholds
      simp [ThreadPc.holds] at hholds
    have hother : s.threads c = .lockInner := by
      have hc := hno c
      revert hholds
      cases hpcc : s.threads c with
      | lockInner => exact fun _ => rfl
      | unlockInner => exact absurd hpcc hc.1
      | unlockOuter => exact absurd hpcc hc.2
      | notCreated | lockOuter | finished => nofun
    intro d
    by_cases hd : d = b
    · rw [hd, hpc]
    · have hdc : d = c := by cases b <;> cases c <;> cases d <;> simp_all
      rw [hdc, hother]

end Inv

/-! ## Every run -/

theorem inv_of_trace {as : List Act} (h : Trace State.step anyOrder State.init as s) : Inv s :=
  h.invariant (P := Inv) (fun _ _ _ hs _ hstep => hs.step hstep) inv_init

/-- **The only deadlock.**  The program has stopped exactly when it has finished, or when `main`
waits for the first thread of a round, having printed the numbers up to this round, and each of the
two threads holds its first mutex and waits for its second one. -/
theorem stuck_iff {as : List Act} (h : Trace State.step anyOrder State.init as s) :
    (∀ a, s.step a = none) ↔ s.main = .finished ∨
      (∃ i, i < 1000 ∧ s.main = .joining i false ∧ s.output = List.range (i + 1)) ∧
        ∀ b, s.threads b = .lockInner ∧ s.holder b = some b := by
  have hinv := inv_of_trace h
  constructor
  · intro hstuck
    have hthreads : ∀ b, s.stepThread b = none := fun b => hstuck (.thread b)
    have hmain : s.stepMain = none := hstuck .main
    have hwaiting : ∀ b, s.main.started b = true → s.threads b ≠ .finished →
        ∀ c, s.threads c = .lockInner := fun b hstarted hnot =>
      hinv.both_lockInner hthreads ((hinv.started b).mpr hstarted) hnot
    cases hm : s.main with
    | finished => exact Or.inl rfl
    | round i =>
      simp only [State.stepMain, hm] at hmain
      split at hmain <;> cases hmain
    | creating i b => cases b <;> simp [State.stepMain, hm] at hmain
    | joining i b =>
      right
      rw [hm] at hwaiting
      have hnot : s.threads b ≠ .finished := fun hfinished => by
        cases b <;> simp [State.stepMain, hm, hfinished] at hmain
      have hall := hwaiting b rfl hnot
      cases b with
      | true =>
        have hfalse := hinv.joined i hm
        rw [hall false] at hfalse
        cases hfalse
      | false =>
        have hrounds := hinv.rounds
        have hout := hinv.output
        rw [hm] at hrounds hout
        exact ⟨⟨i, hrounds, rfl, hout⟩, fun b =>
          ⟨hall b, (hinv.holder b b).mpr (by rw [hall b]; simp [ThreadPc.holds])⟩⟩
  · rintro (hm | ⟨⟨i, -, hm, -⟩, hall⟩) a
    · cases a with
      | main => simp [State.step, State.stepMain, hm]
      | thread b =>
        have hnone : s.threads b = .notCreated := by
          by_contra hb
          have := (hinv.started b).mp hb
          rw [hm] at this
          cases this
        simp [State.step, State.stepThread, hnone]
    · cases a with
      | main => simp [State.step, State.stepMain, hm, (hall false).1]
      | thread b =>
        simp [State.step, State.stepThread, (hall b).1, State.lock, (hall !b).2]

theorem stuck_iff_firstRound :
    ∃ s, Trace State.step anyOrder State.init
        [.main, .main, .main, .thread false, .thread true] s ∧ s.output = [0] ∧
      ((∀ a, s.step a = none) ↔ s.main = .finished ∨
        (∃ i, i < 1000 ∧ s.main = .joining i false ∧ s.output = List.range (i + 1)) ∧
          ∀ b, s.threads b = .lockInner ∧ s.holder b = some b) := by
  obtain ⟨s, h, hs⟩ := Trace.exists_of_eval State.step anyOrder
    (fun s => decide (s.output = [0])) State.init
    [.main, .main, .main, .thread false, .thread true] (by decide)
  exact ⟨s, h, of_decide_eq_true hs, stuck_iff h⟩

/-! ## A deadlock in any round -/

/-- Before the round `i`. -/
def between (i : ℕ) : State := ⟨.round i, fun _ => .notCreated, fun _ => none, List.range i⟩

/-- After the lines of the round `i` are printed. -/
def printed (i : ℕ) : State :=
  ⟨.creating i false, fun _ => .notCreated, fun _ => none, List.range (i + 1)⟩

theorem step_between {i : ℕ} (hi : i < 1000) : (between i).step .main = some (printed i) := by
  simp [State.step, State.stepMain, between, printed, hi, List.range_succ]

/-- The threads one after the other. -/
def calm : List Act :=
  [.main, .main, .thread false, .thread false, .thread false, .thread false, .thread true,
    .thread true, .thread true, .thread true, .main, .main]

/-- Each thread locks its first mutex. -/
def crossed : List Act := [.main, .main, .thread false, .thread true]

theorem eq_between {i : ℕ} (hmain : s.main = .round i) (hthreads : s.threads = fun _ => .notCreated)
    (hholder : ∀ m, s.holder m = none) (houtput : s.output = List.range i) : s = between i := by
  obtain ⟨main, threads, holder, output⟩ := s
  obtain rfl : holder = fun _ => none := funext hholder
  subst hmain hthreads houtput
  rfl

theorem trace_calm (i : ℕ) : Trace State.step anyOrder (printed i) calm (between (i + 1)) := by
  obtain ⟨s, hrun, hs⟩ : ∃ s, evalTrace State.step anyOrder (printed i) calm = some s ∧
      s = between (i + 1) := by
    refine ⟨_, rfl, eq_between rfl rfl (fun m => ?_) rfl⟩
    cases m <;> rfl
  exact hs ▸ Trace.of_eval hrun

theorem exists_between {i : ℕ} (hi : i ≤ 1000) :
    ∃ as, Trace State.step anyOrder State.init as (between i) := by
  induction i with
  | zero => exact ⟨[], .nil _⟩
  | succ i ih =>
    obtain ⟨as, hrun⟩ := ih (Nat.le_of_succ_le hi)
    exact ⟨_, hrun.append (.cons trivial (step_between hi) (trace_calm i))⟩

/-- **Any round may be the last one.** -/
theorem deadlock_in_any_round {i : ℕ} (hi : i < 1000) :
    ∃ as s, Trace State.step anyOrder State.init as s ∧ s.output = List.range (i + 1) ∧
      s.main ≠ .finished ∧ ∀ a, s.step a = none := by
  obtain ⟨as, hrun⟩ := exists_between hi.le
  obtain ⟨s, hlast, houtput, hmain, hstuck⟩ : ∃ s,
      evalTrace State.step anyOrder (printed i) crossed = some s ∧
        s.output = List.range (i + 1) ∧ s.main ≠ .finished ∧ ∀ a, s.step a = none := by
    refine ⟨_, rfl, rfl, nofun, fun a => ?_⟩
    rcases a with _ | _ | _ <;> rfl
  exact ⟨_, s, hrun.append (.cons trivial (step_between hi) (Trace.of_eval hlast)), houtput, hmain,
    hstuck⟩

theorem deadlock_in_any_round_last :
    ∃ as s, Trace State.step anyOrder State.init as s ∧ s.output = List.range 1000 ∧
      s.main ≠ .finished ∧ ∀ a, s.step a = none :=
  deadlock_in_any_round (by decide : 999 < 1000)

end Mutexes
end CaosSeminars
