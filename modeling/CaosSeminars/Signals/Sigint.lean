import CaosSeminars.Library.Trace
import Mathlib.Data.Int.Basic
import Mathlib.Data.List.Basic

/-!
# Waiting for `SIGINT`

`sigsuspend_demo.c` and `sigaction_demo.c` have the same handler, which sets a flag, and the
same loop, which waits, looks at the flag, prints, and clears the flag.  The first waits in
`sigsuspend` with a mask that blocks every other signal, the second in `pause`.  Neither of them
blocks `SIGINT` outside the wait, so that the handler can run between any two steps of the loop.

The handler runs on the stack of `main` and is over before `main` goes on; it is one step.  Of
the arrivals that wait for delivery only one is kept.  What the handler and `printf` did is kept
as history, and so is a clearing of the flag that came after an unprinted run of the handler.

* `SigSet`, `sigfillset`, `sigdelset` --- the masks, as the code makes them.
* `Calm`, `Calm.preserves` --- the invariant while the handler runs in time.
* `Overlooked`, `Overlooked.preserves` --- what holds after a run of the handler out of
  time, until it shows that nothing was printed for it.
* `reported_iff_inTime` --- for both programs and every run.
-/

namespace CaosSeminars
namespace Signals

/-! ## Signal sets -/

/-- `sigset_t`, by membership. -/
abbrev SigSet := ℕ → Bool

def sigemptyset : SigSet := fun _ => false

/-- All signals but two, which the C library keeps for itself and leaves out. -/
def sigfillset : SigSet := fun signum =>
  1 ≤ signum && signum ≤ 64 && !(signum == 32 || signum == 33)

def sigdelset (set : SigSet) (signum : ℕ) : SigSet := Function.update set signum false

/-- `SIGINT`. -/
def SIGINT : ℕ := 2

/-! ## The programs -/

/-- The two programs. -/
inductive Demo where
  | sigsuspendDemo
  | sigactionDemo

/-- The mask while the program waits: `mask_without_sigint`, or for `pause` the mask of the
process, which is empty. -/
def Demo.waitMask : Demo → SigSet
  | sigsuspendDemo => sigdelset sigfillset SIGINT
  | sigactionDemo => sigemptyset

/-- Where `main` is. -/
inductive Pos where
  /-- In front of the wait, or in front of the loop. -/
  | looping
  /-- In `sigsuspend` or `pause`. -/
  | suspended
  /-- The wait has returned: the test of the flag comes next. -/
  | woken
  /-- The flag was set: `printf` comes next. -/
  | found
  /-- `printf` was called: the end of `fflush` comes next. -/
  | printing
  /-- `received_sigint = 0` comes next. -/
  | resetting
  deriving DecidableEq

/-- A run of the handler, or the start of a `printf`. -/
inductive Mark where
  | handled
  | printed
  deriving DecidableEq

/-- The program, the signal that waits for delivery, and the history. -/
structure State where
  pos : Pos
  receivedSigint : ℤ
  pending : Bool
  log : List Mark
  /-- The flag was cleared after an unprinted run of the handler. -/
  erased : Bool
  deriving DecidableEq

/-- After `sigaction`. -/
def State.init : State := ⟨.looping, 0, false, [], false⟩

inductive Act where
  /-- A `SIGINT` is sent. -/
  | arrive
  /-- `sigint_handler` runs. -/
  | handle
  /-- A step of `main`. -/
  | main
  deriving DecidableEq

/-- The last run of the handler has no `printf` after it. -/
def State.unprinted (s : State) : Bool := s.log.getLast? == some .handled

/-- The mask in force. -/
def Demo.mask (demo : Demo) (pos : Pos) : SigSet :=
  if pos = .suspended then demo.waitMask else sigemptyset

/-- `sigint_handler`; the wait is over when it returns. -/
def State.onHandle (s : State) : State :=
  { s with
    receivedSigint := 1
    pending := false
    log := s.log ++ [.handled]
    pos := if s.pos = .suspended then .woken else s.pos }

/-- A step of `main`, which takes none while it waits. -/
def State.onMain (s : State) : Option State :=
  match s.pos with
  | .looping => some { s with pos := .suspended }
  | .suspended => none
  | .woken => some { s with pos := if s.receivedSigint ≠ 0 then .found else .looping }
  | .found => some { s with pos := .printing, log := s.log ++ [.printed] }
  | .printing => some { s with pos := .resetting }
  | .resetting =>
    some { s with pos := .looping, receivedSigint := 0, erased := s.erased || s.unprinted }

/-- One step. -/
def Demo.step (demo : Demo) (s : State) : Act → Option State
  | .arrive => some { s with pending := true }
  | .handle =>
    if s.pending = true ∧ demo.mask s.pos SIGINT = false then some s.onHandle else none
  | .main => s.onMain

/-- No arrival that was delivered is forgotten: where `main` waits, the flag is not set and a
`printf` has started since the last run of the handler; and the flag was never cleared before
that. -/
structure Reported (s : State) : Prop where
  waits : s.pos = .suspended → s.receivedSigint ≠ 1 ∧ s.unprinted = false
  resets : s.erased = false

/-- The handler runs while `main` waits or is on its way from there to `printf`. -/
def inTime (s : State) : Act → Prop
  | .handle => s.pos = .suspended ∨ s.pos = .woken ∨ s.pos = .found
  | _ => True

variable {demo : Demo} {s s' : State} {a : Act}

theorem step_cases (h : demo.step s a = some s') :
    (a = .arrive ∧ s' = { s with pending := true }) ∨ (a = .handle ∧ s' = s.onHandle) ∨
      (a = .main ∧ s.onMain = some s') := by
  cases a with
  | arrive => exact Or.inl ⟨rfl, (Option.some.inj h).symm⟩
  | handle =>
    obtain ⟨-, ⟨⟩⟩ := Option.ite_none_right_eq_some.mp h
    exact Or.inr (Or.inl ⟨rfl, rfl⟩)
  | main => exact Or.inr (Or.inr ⟨rfl, h⟩)

@[simp] theorem unprinted_handled {pos : Pos} {x : ℤ} {pending erased : Bool} {log : List Mark} :
    (State.mk pos x pending (log ++ [.handled]) erased).unprinted = true := by
  simp [State.unprinted]

@[simp] theorem unprinted_printed {pos : Pos} {x : ℤ} {pending erased : Bool} {log : List Mark} :
    (State.mk pos x pending (log ++ [.printed]) erased).unprinted = false := by
  simp [State.unprinted]

/-! ## In time -/

/-- What a run knows whose handler always ran in time. -/
structure Calm (s : State) : Prop where
  waiting : s.pos = .looping ∨ s.pos = .suspended → s.receivedSigint = 0 ∧ s.unprinted = false
  awake : s.pos = .woken ∨ s.pos = .found → s.receivedSigint = 1
  printed : s.pos = .printing ∨ s.pos = .resetting → s.unprinted = false
  kept : s.erased = false

theorem calm_init : Calm State.init := by
  constructor <;> simp [State.init, State.unprinted]

theorem Calm.preserves (h : Calm s) (hok : inTime s a) (hstep : demo.step s a = some s') :
    Calm s' := by
  rcases step_cases hstep with ⟨rfl, rfl⟩ | ⟨rfl, rfl⟩ | ⟨rfl, hmain⟩
  · exact ⟨h.waiting, h.awake, h.printed, h.kept⟩
  · rcases hok with hpos | hpos | hpos <;>
      constructor <;> simp [State.onHandle, hpos, h.kept]
  · cases hpos : s.pos with
    | looping =>
      rw [State.onMain, hpos] at hmain
      obtain rfl := Option.some.inj hmain
      exact ⟨fun _ => h.waiting (Or.inl hpos), by simp, by simp, h.kept⟩
    | suspended =>
      rw [State.onMain, hpos] at hmain
      cases hmain
    | woken =>
      rw [State.onMain, hpos] at hmain
      obtain rfl := Option.some.inj hmain
      have hflag := h.awake (Or.inl hpos)
      exact ⟨by simp [hflag], fun _ => hflag, by simp [hflag], h.kept⟩
    | found =>
      rw [State.onMain, hpos] at hmain
      obtain rfl := Option.some.inj hmain
      exact ⟨by simp, by simp, by simp, h.kept⟩
    | printing =>
      rw [State.onMain, hpos] at hmain
      obtain rfl := Option.some.inj hmain
      exact ⟨by simp, by simp, fun _ => h.printed (Or.inl hpos), h.kept⟩
    | resetting =>
      rw [State.onMain, hpos] at hmain
      obtain rfl := Option.some.inj hmain
      have hprinted := h.printed (Or.inr hpos)
      exact ⟨fun _ => ⟨rfl, hprinted⟩, by simp, by simp, by simp [h.kept, hprinted]⟩

theorem Calm.reported (h : Calm s) : Reported s where
  waits hpos := by
    obtain ⟨hflag, hprinted⟩ := h.waiting (Or.inr hpos)
    exact ⟨by simp [hflag], hprinted⟩
  resets := h.kept

/-! ## Out of time -/

/-- The handler has run out of time, and `main` has not got to the place where it shows. -/
structure Overlooked (s : State) : Prop where
  unprinted : s.unprinted = true
  flag : s.receivedSigint = 1
  pos : s.pos = .looping ∨ s.pos = .printing ∨ s.pos = .resetting

/-- It shows, or will show as soon as `main` gets there. -/
def Late (s : State) : Prop := Overlooked s ∨ ¬Reported s

theorem overlooked_of_not_inTime (hok : ¬inTime s a) (hstep : demo.step s a = some s') :
    Overlooked s' := by
  rcases step_cases hstep with ⟨rfl, rfl⟩ | ⟨rfl, rfl⟩ | ⟨rfl, -⟩
  · exact absurd trivial hok
  · refine ⟨by simp [State.onHandle], rfl, ?_⟩
    cases hpos : s.pos <;> simp_all [inTime, State.onHandle]
  · exact absurd trivial hok

/-- It is overlooked until it shows. -/
theorem Overlooked.preserves (h : Overlooked s) (hstep : demo.step s a = some s') :
    Late s' := by
  rcases step_cases hstep with ⟨rfl, rfl⟩ | ⟨rfl, rfl⟩ | ⟨rfl, hmain⟩
  · exact Or.inl ⟨h.unprinted, h.flag, h.pos⟩
  · refine Or.inl ⟨by simp [State.onHandle], rfl, ?_⟩
    rcases h.pos with hpos | hpos | hpos <;> simp [State.onHandle, hpos]
  · rcases h.pos with hpos | hpos | hpos
    · -- `main` waits with the flag set
      rw [State.onMain, hpos] at hmain
      obtain rfl := Option.some.inj hmain
      exact Or.inr fun hreported => (hreported.waits rfl).1 h.flag
    · rw [State.onMain, hpos] at hmain
      obtain rfl := Option.some.inj hmain
      exact Or.inl ⟨h.unprinted, h.flag, Or.inr (Or.inr rfl)⟩
    · -- the flag is cleared
      rw [State.onMain, hpos] at hmain
      obtain rfl := Option.some.inj hmain
      refine Or.inr fun hreported => ?_
      have hresets := hreported.resets
      simp [h.unprinted] at hresets

/-! ## Every run -/

/-- **When no delivered `SIGINT` stays unreported.**  In a run in which the handler runs only
while `main` waits, or between there and `printf`, everything is reported in every state; and a
run that ends with `main` waiting and in which everything is reported in every state is such a
run. -/
theorem reported_iff_inTime (demo : Demo) (as : List Act) (s : State) :
    (Trace demo.step inTime .init as s → Reported s) ∧
      (s.pos = .suspended →
        (Trace demo.step (fun s _ => Reported s) .init as s ∧ Reported s ↔
          Trace demo.step inTime .init as s)) := by
  have hcalm : Trace demo.step inTime .init as s → Reported s := fun htime =>
    (htime.invariant (fun _ _ _ hs hok hstep => Calm.preserves hs hok hstep) calm_init).reported
  refine ⟨hcalm, fun hpos => ⟨?_, fun htime => ⟨?_, hcalm htime⟩⟩⟩
  · rintro ⟨hrun, hreported⟩
    have hsplit : (True ∧ Trace demo.step (fun s a => Reported s ∧ inTime s a) .init as s) ∨
        Late s := by
      refine hrun.met_or_doomed (fun _ _ _ _ _ _ _ => trivial) ?_ ?_ trivial
      · intro s a t _ _ hlate hstep
        exact Or.inl (overlooked_of_not_inTime hlate hstep)
      · rintro s a t (hover | hnot) hok hstep
        · exact hover.preserves hstep
        · exact absurd hok hnot
    rcases hsplit with ⟨-, htime⟩ | hover | hnot
    · exact htime.mono fun _ _ hok => hok.2
    · rcases hover.pos with heq | heq | heq <;> rw [hpos] at heq <;> cases heq
    · exact absurd hreported hnot
  · have hthrough := htime.through (fun _ _ _ hs hok hstep => Calm.preserves hs hok hstep) calm_init
    exact hthrough.mono fun _ _ hok => hok.2.reported

instance (s : State) : (a : Act) → Decidable (inTime s a)
  | .handle => inferInstanceAs (Decidable (_ ∨ _ ∨ _))
  | .arrive | .main => inferInstanceAs (Decidable True)

/-- A `SIGINT` that comes while `main` waits, and another one in front of `printf`. -/
def twoSigints : List Act :=
  [.main, .arrive, .handle, .main, .arrive, .handle, .main, .main, .main, .main]

/-- Both are reported by one line. -/
theorem reported_twoSigints :
    ∃ s, Trace Demo.sigsuspendDemo.step inTime .init twoSigints s ∧ s.pos = .suspended ∧
      Reported s := by
  obtain ⟨s, h, hp⟩ := Trace.exists_of_eval Demo.sigsuspendDemo.step inTime
    (fun s => s.pos = .suspended) .init twoSigints (by decide)
  exact ⟨s, h, of_decide_eq_true hp, (reported_iff_inTime _ _ s).1 h⟩

/-- **A `SIGINT` in front of the wait**, in either program: the handler sets the flag, and `main`
goes to sleep. -/
theorem unreported_early :
    (∃ s, Trace Demo.sigsuspendDemo.step (fun _ _ => True) .init [.arrive, .handle, .main] s ∧
      s.pos = .suspended ∧ s.receivedSigint = 1 ∧ s.log = [.handled]) ∧
    ∃ s, Trace Demo.sigactionDemo.step (fun _ _ => True) .init [.arrive, .handle, .main] s ∧
      s.pos = .suspended ∧ s.receivedSigint = 1 ∧ s.log = [.handled] :=
  ⟨⟨_, Trace.of_eval rfl, rfl, rfl, rfl⟩, _, Trace.of_eval rfl, rfl, rfl, rfl⟩

end Signals
end CaosSeminars
