import CaosSeminars.Signals.Sigint
import Mathlib.Data.List.Perm.Basic

/-!
# Queued signals

`sigqueue_demo.c` installs one handler for all real-time signals and forks.  The child waits in
`sigsuspend` and prints what the handler has stored in two globals; the parent queues signals,
each with a value.

No signal is lost on its way: signals of one number are delivered in the order in which they
were queued, and of the numbers that are not blocked the lowest comes first.  But the child never
blocks them.  A signal that is delivered before the child has come back to `sigsuspend` overwrites
what was not printed yet, or comes too late to be printed.  And `sa_mask` is empty, so that the
handler of one number can be interrupted between its two stores by that of another.

The running handlers are kept as a stack; the one on top runs, and the loop of the child goes on
when there are none.

* `next`, `deliverable` --- which of the queued signals is delivered: the lowest number
  first, and of one number the first that was queued.
* `Accounted` --- the invariant of a run of awaited signals: what was queued waits, is
  carried by the child, or is printed.
* `lines_step` --- the other direction, by counting: an unawaited signal costs a line, and
  no step earns one.
* `faithful_iff_awaited` --- both, for either order of the two stores in the handler.
-/

namespace CaosSeminars
namespace Signals
namespace Sigqueue

/-! ## The program -/

/-- The part of a `siginfo_t` that the handler reads; also what a line shows. -/
structure Siginfo where
  signo : ℕ
  int : ℤ
  deriving DecidableEq

def SIGRTMIN : ℕ := 34

def SIGRTMAX : ℕ := 64

/-- The signals that the loop over `sigaction` has installed the handler for. -/
def handled (signum : ℕ) : Prop := SIGRTMIN ≤ signum ∧ signum ≤ SIGRTMAX

instance (signum : ℕ) : Decidable (handled signum) := inferInstanceAs (Decidable (_ ∧ _))

/-- Where a run of the handler is. -/
inductive HandlerPc where
  /-- `last_signal = signum` comes next. -/
  | started
  /-- `last_value = info->si_int` comes next. -/
  | storing
  | returning
  deriving DecidableEq

/-- A run of the handler. -/
structure Frame where
  info : Siginfo
  pc : HandlerPc
  deriving DecidableEq

/-- Which of its two arguments after the format `printf` is given first; that is left to the
compiler. -/
inductive ArgOrder where
  | signalFirst
  | valueFirst

/-- Where the loop of the child is. -/
inductive Pos where
  /-- `sigsuspend` comes next. -/
  | looping
  /-- In `sigsuspend`. -/
  | suspended
  /-- `sigsuspend` is over: the first of the two globals is read next. -/
  | woken
  /-- `last_signal` was read: `last_value` comes next. -/
  | signalRead (signum : ℕ)
  /-- `last_value` was read: `last_signal` comes next. -/
  | valueRead (value : ℤ)
  /-- The line is printed: `fflush` comes next. -/
  | flushing
  deriving DecidableEq

/-- The child has left `sigsuspend` and has not printed since. -/
def Pos.owesLine : Pos → ℕ
  | .woken | .signalRead _ | .valueRead _ => 1
  | .looping | .suspended | .flushing => 0

/-- The child, the signals that wait for delivery, and the history. -/
structure State where
  pos : Pos
  lastSignal : ℕ
  lastValue : ℤ
  /-- The runs of the handler that are not over, the last one first. -/
  frames : List Frame
  /-- In the order in which they were queued. -/
  pending : List Siginfo
  /-- All signals that were queued. -/
  queued : List Siginfo
  /-- All lines that were printed. -/
  printed : List Siginfo
  deriving DecidableEq

/-- The child after the fork. -/
def State.init : State := ⟨.looping, 0, 0, [], [], [], []⟩

inductive Act where
  /-- The parent queues a signal. -/
  | sigqueue (info : Siginfo)
  /-- A signal is delivered. -/
  | deliver (signum : ℕ)
  /-- A step of the handler that runs. -/
  | handler
  /-- A step of the loop. -/
  | main
  deriving DecidableEq

namespace State

variable (s : State)

/-- The mask in force, in and out of `sigsuspend`: empty, but for the numbers whose handler
runs. -/
def blocked (signum : ℕ) : Bool :=
  sigemptyset signum || s.frames.any fun f => f.info.signo == signum

/-- Of the signals of a number, the one that is delivered next. -/
def next (signum : ℕ) : Option Siginfo := s.pending.find? fun info => info.signo == signum

/-- The signal can be delivered: it is not blocked, and there is no such signal with a lower
number. -/
def deliverable (signum : ℕ) : Prop :=
  s.blocked signum = false ∧ ∀ info ∈ s.pending, s.blocked info.signo = false → signum ≤ info.signo

instance (signum : ℕ) : Decidable (s.deliverable signum) := inferInstanceAs (Decidable (_ ∧ _))

/-- A handler starts.  If the child was in `sigsuspend`, it leaves it when all handlers have
returned. -/
def onDeliver (info : Siginfo) : State :=
  { s with
    pending := s.pending.erase info
    frames := ⟨info, .started⟩ :: s.frames
    pos := if s.pos = .suspended then .woken else s.pos }

/-- `handler`. -/
def onHandler : Option State :=
  match s.frames with
  | ⟨info, .started⟩ :: rest =>
    some { s with lastSignal := info.signo, frames := ⟨info, .storing⟩ :: rest }
  | ⟨info, .storing⟩ :: rest =>
    some { s with lastValue := info.int, frames := ⟨info, .returning⟩ :: rest }
  | ⟨_, .returning⟩ :: rest => some { s with frames := rest }
  | [] => none

/-- `printf`. -/
def onPrint (signum : ℕ) (value : ℤ) : State :=
  { s with pos := .flushing, printed := s.printed ++ [⟨signum, value⟩] }

/-- A step of the loop, which takes none while it waits. -/
def onMain (order : ArgOrder) : Option State :=
  match s.pos with
  | .looping => some { s with pos := .suspended }
  | .suspended => none
  | .woken =>
    some { s with
      pos := match order with
        | .signalFirst => .signalRead s.lastSignal
        | .valueFirst => .valueRead s.lastValue }
  | .signalRead signum => some (s.onPrint signum s.lastValue)
  | .valueRead value => some (s.onPrint s.lastSignal value)
  | .flushing => some { s with pos := .looping }

/-- One step.  The loop does not move while a handler runs. -/
def step (order : ArgOrder) (s : State) : Act → Option State
  | .sigqueue info =>
    some { s with pending := s.pending ++ [info], queued := s.queued ++ [info] }
  | .deliver signum =>
    match s.next signum with
    | some info => if s.deliverable signum then some (s.onDeliver info) else none
    | none => none
  | .handler => s.onHandler
  | .main => if s.frames = [] then s.onMain order else none

/-- The parent queues signals in the real-time range. -/
def realTime (_ : State) : Act → Prop
  | .sigqueue info => handled info.signo
  | _ => True

instance (s : State) : (a : Act) → Decidable (realTime s a)
  | .sigqueue _ => inferInstanceAs (Decidable (handled _))
  | .deliver _ | .handler | .main => inferInstanceAs (Decidable True)

/-- All signals were delivered, and the child is suspended. -/
def Idle : Prop := s.pending = [] ∧ s.pos = .suspended

/-- Every line shows a signal that was queued; and when all were delivered and the child is
suspended, each of them was printed once. -/
structure Faithful : Prop where
  queued : ∀ line ∈ s.printed, line ∈ s.queued
  once : s.Idle → s.printed.Perm s.queued

/-- A signal finds the child in `sigsuspend`. -/
def awaited (s : State) : Act → Prop
  | .deliver _ => s.pos = .suspended
  | _ => True

instance (s : State) : (a : Act) → Decidable (awaited s a)
  | .deliver _ => inferInstanceAs (Decidable (_ = _))
  | .sigqueue _ | .handler | .main => inferInstanceAs (Decidable True)

variable {s} {t : State} {a : Act} {order : ArgOrder} {info : Siginfo} {signum : ℕ}

/-- What is delivered is one of the signals that wait. -/
theorem perm_of_next (h : s.next signum = some info) :
    s.pending.Perm (info :: s.pending.erase info) :=
  List.perm_cons_erase (List.mem_of_find?_eq_some h)

theorem step_cases (h : s.step order a = some t) :
    (∃ info, a = .sigqueue info ∧
      t = { s with pending := s.pending ++ [info], queued := s.queued ++ [info] }) ∨
    (∃ signum info, a = .deliver signum ∧ s.next signum = some info ∧ t = s.onDeliver info) ∨
    (a = .handler ∧ s.onHandler = some t) ∨
    (a = .main ∧ s.frames = [] ∧ s.onMain order = some t) := by
  cases a with
  | sigqueue info => exact Or.inl ⟨info, rfl, (Option.some.inj h).symm⟩
  | deliver signum =>
    simp only [step] at h
    split at h
    · rename_i info hnext
      obtain ⟨-, ⟨⟩⟩ := Option.ite_none_right_eq_some.mp h
      exact Or.inr (Or.inl ⟨signum, info, rfl, hnext, rfl⟩)
    · cases h
  | handler => exact Or.inr (Or.inr (Or.inl ⟨rfl, h⟩))
  | main =>
    obtain ⟨hframes, hmain⟩ := Option.ite_none_right_eq_some.mp h
    exact Or.inr (Or.inr (Or.inr ⟨rfl, hframes, hmain⟩))

/-! ## Awaited signals -/

/-- What was delivered and is not printed, and where it is, when every signal was awaited: at
most one signal, on its way from the handler to `printf`. -/
inductive Carries (s : State) : List Siginfo → Prop
  | nothing (hframes : s.frames = [])
      (hpos : s.pos = .looping ∨ s.pos = .suspended ∨ s.pos = .flushing) : Carries s []
  | started (info : Siginfo) (hframes : s.frames = [⟨info, .started⟩]) (hpos : s.pos = .woken) :
      Carries s [info]
  | storing (info : Siginfo) (hframes : s.frames = [⟨info, .storing⟩]) (hpos : s.pos = .woken)
      (hsignal : s.lastSignal = info.signo) : Carries s [info]
  | returning (info : Siginfo) (hframes : s.frames = [⟨info, .returning⟩]) (hpos : s.pos = .woken)
      (hsignal : s.lastSignal = info.signo) (hvalue : s.lastValue = info.int) : Carries s [info]
  | woken (info : Siginfo) (hframes : s.frames = []) (hpos : s.pos = .woken)
      (hsignal : s.lastSignal = info.signo) (hvalue : s.lastValue = info.int) : Carries s [info]
  | signalRead (info : Siginfo) (hframes : s.frames = []) (hpos : s.pos = .signalRead info.signo)
      (hvalue : s.lastValue = info.int) : Carries s [info]
  | valueRead (info : Siginfo) (hframes : s.frames = []) (hpos : s.pos = .valueRead info.int)
      (hsignal : s.lastSignal = info.signo) : Carries s [info]

theorem Carries.of_suspended {carried : List Siginfo} (h : Carries s carried)
    (hpos : s.pos = .suspended) : s.frames = [] ∧ carried = [] := by
  cases h with
  | nothing hframes _ => exact ⟨hframes, rfl⟩
  | started _ _ hpos' => rw [hpos] at hpos'; cases hpos'
  | storing _ _ hpos' => rw [hpos] at hpos'; cases hpos'
  | returning _ _ hpos' => rw [hpos] at hpos'; cases hpos'
  | woken _ _ hpos' => rw [hpos] at hpos'; cases hpos'
  | signalRead _ _ hpos' => rw [hpos] at hpos'; cases hpos'
  | valueRead _ _ hpos' => rw [hpos] at hpos'; cases hpos'

/-- Every signal that was queued is printed, or carried, or waits. -/
def Accounted (s : State) : Prop :=
  ∃ carried, Carries s carried ∧ s.queued.Perm (s.printed ++ carried ++ s.pending)

theorem accounted_init : Accounted init := ⟨[], .nothing rfl (Or.inl rfl), List.Perm.refl []⟩

theorem Accounted.sigqueue (h : Accounted s) (info : Siginfo) :
    Accounted { s with pending := s.pending ++ [info], queued := s.queued ++ [info] } := by
  obtain ⟨carried, hcarries, hperm⟩ := h
  refine ⟨carried, ?_, ?_⟩
  · cases hcarries with
    | nothing hframes hpos => exact .nothing hframes hpos
    | started info hframes hpos => exact .started info hframes hpos
    | storing info hframes hpos hsignal => exact .storing info hframes hpos hsignal
    | returning info hframes hpos hsignal hvalue =>
      exact .returning info hframes hpos hsignal hvalue
    | woken info hframes hpos hsignal hvalue => exact .woken info hframes hpos hsignal hvalue
    | signalRead info hframes hpos hvalue => exact .signalRead info hframes hpos hvalue
    | valueRead info hframes hpos hsignal => exact .valueRead info hframes hpos hsignal
  · show (s.queued ++ [info]).Perm (s.printed ++ carried ++ (s.pending ++ [info]))
    rw [← List.append_assoc]
    exact hperm.append_right [info]

theorem Accounted.deliver (h : Accounted s) (hnext : s.next signum = some info)
    (hpos : s.pos = .suspended) : Accounted (s.onDeliver info) := by
  obtain ⟨carried, hcarries, hperm⟩ := h
  obtain ⟨hframes, rfl⟩ := hcarries.of_suspended hpos
  refine ⟨[info], .started info ?_ (if_pos hpos), hperm.trans ?_⟩
  · show _ :: s.frames = _
    rw [hframes]
  · show (s.printed ++ [] ++ s.pending).Perm (s.printed ++ [info] ++ s.pending.erase info)
    rw [List.append_nil, List.append_assoc]
    exact (perm_of_next hnext).append_left s.printed

/-- A handler that is not interrupted stores what it was given. -/
theorem Accounted.handler (h : Accounted s) (hstep : s.onHandler = some t) : Accounted t := by
  obtain ⟨carried, hcarries, hperm⟩ := h
  cases hcarries with
  | started info hframes hpos =>
    rw [onHandler, hframes] at hstep
    obtain rfl := Option.some.inj hstep
    exact ⟨[info], .storing info rfl hpos rfl, hperm⟩
  | storing info hframes hpos hsignal =>
    rw [onHandler, hframes] at hstep
    obtain rfl := Option.some.inj hstep
    exact ⟨[info], .returning info rfl hpos hsignal rfl, hperm⟩
  | returning info hframes hpos hsignal hvalue =>
    rw [onHandler, hframes] at hstep
    obtain rfl := Option.some.inj hstep
    exact ⟨[info], .woken info rfl hpos hsignal hvalue, hperm⟩
  | nothing hframes => rw [onHandler, hframes] at hstep; cases hstep
  | woken _ hframes => rw [onHandler, hframes] at hstep; cases hstep
  | signalRead _ hframes => rw [onHandler, hframes] at hstep; cases hstep
  | valueRead _ hframes => rw [onHandler, hframes] at hstep; cases hstep

theorem Accounted.print (hframes : s.frames = [])
    (hperm : s.queued.Perm (s.printed ++ [info] ++ s.pending)) :
    Accounted (s.onPrint info.signo info.int) := by
  refine ⟨[], .nothing hframes (Or.inr (Or.inr rfl)), ?_⟩
  show s.queued.Perm (s.printed ++ [info] ++ [] ++ s.pending)
  rw [List.append_nil]
  exact hperm

theorem Accounted.main (h : Accounted s) (hnone : s.frames = [])
    (hstep : s.onMain order = some t) : Accounted t := by
  obtain ⟨carried, hcarries, hperm⟩ := h
  cases hcarries with
  | nothing hframes hpos =>
    rcases hpos with hpos | hpos | hpos <;> simp only [onMain, hpos] at hstep
    · obtain rfl := Option.some.inj hstep
      exact ⟨[], .nothing hframes (Or.inr (Or.inl rfl)), hperm⟩
    · cases hstep
    · obtain rfl := Option.some.inj hstep
      exact ⟨[], .nothing hframes (Or.inl rfl), hperm⟩
  | woken info hframes hpos hsignal hvalue =>
    simp only [onMain, hpos] at hstep
    obtain rfl := Option.some.inj hstep
    refine ⟨[info], ?_, hperm⟩
    cases order with
    | signalFirst => exact .signalRead info hframes (congrArg Pos.signalRead hsignal) hvalue
    | valueFirst => exact .valueRead info hframes (congrArg Pos.valueRead hvalue) hsignal
  | signalRead info hframes hpos hvalue =>
    simp only [onMain, hpos] at hstep
    obtain rfl := Option.some.inj hstep
    rw [hvalue]
    exact Accounted.print hframes hperm
  | valueRead info hframes hpos hsignal =>
    simp only [onMain, hpos] at hstep
    obtain rfl := Option.some.inj hstep
    rw [hsignal]
    exact Accounted.print hframes hperm
  | started _ hframes => rw [hnone] at hframes; cases hframes
  | storing _ hframes => rw [hnone] at hframes; cases hframes
  | returning _ hframes => rw [hnone] at hframes; cases hframes

/-- **A step in which no signal comes unawaited.** -/
theorem Accounted.step (h : Accounted s) (hawaited : awaited s a)
    (hstep : s.step order a = some t) : Accounted t := by
  rcases step_cases hstep with ⟨info, rfl, rfl⟩ | ⟨signum, info, rfl, hnext, rfl⟩ |
    ⟨rfl, hhandler⟩ | ⟨rfl, hframes, hmain⟩
  · exact h.sigqueue info
  · exact h.deliver hnext hawaited
  · exact h.handler hhandler
  · exact h.main hframes hmain

theorem Accounted.faithful (h : Accounted s) : Faithful s := by
  obtain ⟨carried, hcarries, hperm⟩ := h
  refine ⟨fun line hline => ?_, fun hidle => ?_⟩
  · rw [hperm.mem_iff, List.append_assoc]
    exact List.mem_append_left _ hline
  · obtain ⟨hpending, hpos⟩ := hidle
    obtain ⟨-, rfl⟩ := hcarries.of_suspended hpos
    rw [hpending, List.append_nil, List.append_nil] at hperm
    exact hperm.symm

/-! ## Counting lines -/

/-- The lines that are printed, that are about to be, and that are still possible. -/
def lines (s : State) : ℕ := s.printed.length + s.pos.owesLine + s.pending.length

/-- A signal that waits counts for itself. -/
theorem length_pending_of_next (h : s.next signum = some info) :
    s.pending.length = (s.pending.erase info).length + 1 := (perm_of_next h).length_eq

theorem lines_onHandler (h : s.onHandler = some t) : lines t = lines s ∧ t.queued = s.queued := by
  unfold onHandler at h
  split at h
  · obtain rfl := Option.some.inj h
    exact ⟨rfl, rfl⟩
  · obtain rfl := Option.some.inj h
    exact ⟨rfl, rfl⟩
  · obtain rfl := Option.some.inj h
    exact ⟨rfl, rfl⟩
  · cases h

theorem lines_onPrint (value : ℤ) (hpos : s.pos.owesLine = 1) :
    lines (s.onPrint signum value) = lines s := by
  show (s.printed ++ [_]).length + 0 + s.pending.length = _
  rw [lines, hpos, List.length_append, List.length_singleton]

theorem lines_onMain (h : s.onMain order = some t) : lines t = lines s ∧ t.queued = s.queued := by
  cases hpos : s.pos with
  | looping =>
    simp only [onMain, hpos] at h
    obtain rfl := Option.some.inj h
    exact ⟨by simp only [lines, hpos, Pos.owesLine], rfl⟩
  | suspended =>
    simp only [onMain, hpos] at h
    cases h
  | woken =>
    simp only [onMain, hpos] at h
    obtain rfl := Option.some.inj h
    cases order <;> exact ⟨by simp only [lines, hpos, Pos.owesLine], rfl⟩
  | signalRead signum =>
    simp only [onMain, hpos] at h
    obtain rfl := Option.some.inj h
    exact ⟨lines_onPrint _ (by rw [hpos]; rfl), rfl⟩
  | valueRead value =>
    simp only [onMain, hpos] at h
    obtain rfl := Option.some.inj h
    exact ⟨lines_onPrint _ (by rw [hpos]; rfl), rfl⟩
  | flushing =>
    simp only [onMain, hpos] at h
    obtain rfl := Option.some.inj h
    exact ⟨by simp only [lines, hpos, Pos.owesLine], rfl⟩

/-- A signal that finds the child in `sigsuspend` makes it owe a line; another one does not. -/
theorem lines_onDeliver (hnext : s.next signum = some info) :
    lines (s.onDeliver info) + (if s.pos = .suspended then 0 else 1) = lines s := by
  have hpending := length_pending_of_next hnext
  by_cases hpos : s.pos = .suspended
  · simp only [lines, onDeliver, hpos, if_true, Pos.owesLine]
    omega
  · simp only [lines, onDeliver, if_neg hpos]
    omega

/-- **One step, as far as lines go.**  A signal that is not awaited costs one. -/
theorem lines_step (hstep : s.step order a = some t) :
    lines t + (if awaited s a then 0 else 1) + s.queued.length = lines s + t.queued.length := by
  rcases step_cases hstep with ⟨info, rfl, rfl⟩ | ⟨signum, info, rfl, hnext, rfl⟩ |
    ⟨rfl, hhandler⟩ | ⟨rfl, -, hmain⟩
  · have hawaited : awaited s (.sigqueue info) := trivial
    rw [if_pos hawaited]
    simp only [lines, List.length_append, List.length_singleton]
    omega
  · have hlines := lines_onDeliver hnext
    show _ + (if s.pos = .suspended then 0 else 1) + _ = _ + s.queued.length
    omega
  · obtain ⟨hlines, hqueued⟩ := lines_onHandler hhandler
    have hawaited : awaited s .handler := trivial
    rw [if_pos hawaited, hlines, hqueued, Nat.add_zero]
  · obtain ⟨hlines, hqueued⟩ := lines_onMain hmain
    have hawaited : awaited s .main := trivial
    rw [if_pos hawaited, hlines, hqueued, Nat.add_zero]

/-- There are fewer lines than signals, and there will be. -/
def Short (s : State) : Prop := lines s < s.queued.length

/-! ## Every run -/

/-- **When the child reports faithfully.**  In a run in which every signal finds the child in
`sigsuspend`, every line shows a signal that was queued, and in the end each one is printed once.
A run that ends with all signals delivered and the child suspended, and in which each one was
printed once, is such a run. -/
theorem faithful_iff_awaited (order : ArgOrder) {as : List Act} {s : State}
    (h : Trace (step order) realTime init as s) :
    (Trace (step order) awaited init as s → Faithful s) ∧
      (s.Idle → (Faithful s ↔ Trace (step order) awaited init as s)) := by
  have haccounted : Trace (step order) awaited init as s → Faithful s := fun hawaited =>
    (hawaited.invariant (fun _ _ _ hs hok hstep => Accounted.step hs hok hstep)
      accounted_init).faithful
  refine ⟨haccounted, fun hidle => ⟨fun hfaithful => ?_, haccounted⟩⟩
  have hsplit : (lines s = s.queued.length ∧
      Trace (step order) (fun s a => realTime s a ∧ awaited s a) init as s) ∨ Short s := by
    refine h.met_or_doomed (P := fun s => lines s = s.queued.length) ?_ ?_ ?_ rfl
    · intro s a t hbalanced _ hawaited hstep
      have hlines := lines_step hstep
      rw [if_pos hawaited] at hlines
      omega
    · intro s a t hbalanced _ hawaited hstep
      have hlines := lines_step hstep
      rw [if_neg hawaited] at hlines
      unfold Short
      omega
    · intro s a t hshort _ hstep
      have hlines := lines_step hstep
      unfold Short at hshort ⊢
      omega
  rcases hsplit with ⟨-, htrace⟩ | hshort
  · exact htrace.mono fun _ _ hok => hok.2
  · -- there are as many lines as signals
    have hlength := (hfaithful.once hidle).length_eq
    rw [Short, lines, hidle.1, hidle.2, hlength] at hshort
    exact absurd hshort (Nat.lt_irrefl _)

/-- The steps from the delivery of a signal to the next `sigsuspend`. -/
def report : List Act := [.handler, .handler, .handler, .main, .main, .main, .main]

/-- Two signals with one number, and one with another. -/
def oneByOne : List Act :=
  [.main, .sigqueue ⟨34, 1⟩, .deliver 34] ++ report ++ [.sigqueue ⟨34, 2⟩, .deliver 34] ++
    report ++ [.sigqueue ⟨35, 2⟩, .deliver 35] ++ report

theorem faithful_oneByOne :
    ∃ s, Trace (step .valueFirst) realTime init oneByOne s ∧ s.Idle ∧
      s.printed = [⟨34, 1⟩, ⟨34, 2⟩, ⟨35, 2⟩] ∧ Faithful s := by
  obtain ⟨s, htrace, hp⟩ := Trace.exists_of_eval (step .valueFirst)
    (fun s a => realTime s a ∧ awaited s a)
    (fun s => s.pending = [] ∧ s.pos = .suspended ∧ s.printed = [⟨34, 1⟩, ⟨34, 2⟩, ⟨35, 2⟩])
    init oneByOne (by decide)
  obtain ⟨hpending, hpos, hprinted⟩ := of_decide_eq_true hp
  have hok := htrace.mono fun _ _ h => h.1
  have hawaited := htrace.mono fun _ _ h => h.2
  exact ⟨s, hok, ⟨hpending, hpos⟩, hprinted, (faithful_iff_awaited .valueFirst hok).1 hawaited⟩

/-- The first two signals of the parent; the second one comes between the two stores that the
handler makes for the first. -/
def tornStores : List Act :=
  [.main, .sigqueue ⟨34, 34 * 34⟩, .deliver 34, .handler, .sigqueue ⟨35, 35 * 35⟩, .deliver 35,
    .handler, .handler, .handler, .handler, .handler, .main, .main, .main, .main]

/-- **The child prints the number of the one with the value of the other**, and no other line,
whichever global is read first. -/
theorem unfaithful_tornStores :
    (∃ s, Trace (step .signalFirst) realTime init tornStores s ∧ s.Idle ∧
      s.queued = [⟨34, 1156⟩, ⟨35, 1225⟩] ∧ s.printed = [⟨35, 1156⟩]) ∧
    ∃ s, Trace (step .valueFirst) realTime init tornStores s ∧ s.Idle ∧
      s.queued = [⟨34, 1156⟩, ⟨35, 1225⟩] ∧ s.printed = [⟨35, 1156⟩] :=
  ⟨⟨_, Trace.of_eval rfl, ⟨rfl, rfl⟩, rfl, rfl⟩, _, Trace.of_eval rfl, ⟨rfl, rfl⟩, rfl, rfl⟩

end State
end Sigqueue
end Signals
end CaosSeminars
