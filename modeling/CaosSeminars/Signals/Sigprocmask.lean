import CaosSeminars.Library.Potential
import CaosSeminars.Signals.Sigint

/-!
# Blocking `SIGINT`

`sigprocmask_demo.c` has the handler of the other demonstrations and blocks `SIGINT` while it
sleeps.  A signal that comes in the meantime is delivered before the second `sigprocmask` returns,
so that it is found by the test of the flag; however many come, there is one line for all of
them.

`SIGINT` is not blocked from there to the next `sleep`.  A handler that runs between the start of
`printf` and the clearing of the flag leaves no trace; anywhere else it is reported by exactly one
line, if only after the next `sleep`.

* `Inv` --- the signal is blocked exactly in the stretch between the two `sigprocmask`, and
  the flag is set where a line is printed.
* `Owing.step`, `Settled.step` --- after the last signal `main` comes nearer to the line
  that it owes, and prints no other.
* `reported_once` --- six steps of `main` after the last handler there is one line more, or
  none if the handler ran in the window.
* `one_line_each` --- when every signal comes during a `sleep`: one line for each `sleep`
  that had one.
-/

namespace CaosSeminars
namespace Signals
namespace Sigprocmask

/-! ## The program -/

def sigaddset (set : SigSet) (signum : ℕ) : SigSet := Function.update set signum true

/-- `mask`. -/
def mask : SigSet := sigaddset sigemptyset SIGINT

/-- `sigprocmask` with `SIG_BLOCK`. -/
def block (set blocked : SigSet) : SigSet := fun signum => blocked signum || set signum

/-- `sigprocmask` with `SIG_UNBLOCK`. -/
def unblock (set blocked : SigSet) : SigSet := fun signum => blocked signum && !set signum

/-- Where `main` is. -/
inductive Pos where
  /-- `sigprocmask` with `SIG_BLOCK` comes next. -/
  | looping
  /-- In `sleep`. -/
  | sleeping
  /-- `sigprocmask` with `SIG_UNBLOCK` comes next. -/
  | unblocking
  /-- In `sigprocmask`, which has unblocked `SIGINT`. -/
  | unblocked
  /-- The test of the flag comes next. -/
  | testing
  /-- The flag was set: `printf` comes next. -/
  | found
  /-- `printf` was called: the end of `fflush` comes next. -/
  | printing
  /-- `received_sigint = 0` comes next. -/
  | resetting
  deriving DecidableEq

/-- The program, its signal mask, the signal that waits for delivery, and the lines printed. -/
structure State where
  pos : Pos
  receivedSigint : ℤ
  blocked : SigSet
  pending : Bool
  lines : ℕ

/-- After `sigaction`. -/
def State.init : State := ⟨.looping, 0, sigemptyset, false, 0⟩

namespace State

/-- `sigint_handler`. -/
def onHandle (s : State) : State := { s with receivedSigint := 1, pending := false }

/-- A step of `main`.  `sigprocmask` does not return before a signal that it has unblocked is
delivered. -/
def onMain (s : State) : Option State :=
  match s.pos with
  | .looping => some { s with pos := .sleeping, blocked := block mask s.blocked }
  | .sleeping => some { s with pos := .unblocking }
  | .unblocking => some { s with pos := .unblocked, blocked := unblock mask s.blocked }
  | .unblocked => if s.pending then none else some { s with pos := .testing }
  | .testing => some { s with pos := if s.receivedSigint ≠ 0 then .found else .looping }
  | .found => some { s with pos := .printing, lines := s.lines + 1 }
  | .printing => some { s with pos := .resetting }
  | .resetting => some { s with pos := .looping, receivedSigint := 0 }

/-- One step. -/
def step (s : State) : Act → Option State
  | .arrive => some { s with pending := true }
  | .handle => if s.pending = true ∧ s.blocked SIGINT = false then some s.onHandle else none
  | .main => s.onMain

end State

/-- `main` is on its way from `printf` to the clearing of the flag. -/
def Pos.late : Pos → Bool
  | .printing | .resetting => true
  | _ => false

/-- `SIGINT` is blocked. -/
def Pos.blocks : Pos → Bool
  | .sleeping | .unblocking => true
  | _ => false

variable {s s' t : State} {a : Act} {as bs : List Act} {n : ℕ}

theorem step_cases (h : s.step a = some s') :
    (a = .arrive ∧ s' = { s with pending := true }) ∨
    (a = .handle ∧ s.pending = true ∧ s.blocked SIGINT = false ∧ s' = s.onHandle) ∨
      (a = .main ∧ s.onMain = some s') := by
  cases a with
  | arrive => exact .inl ⟨rfl, (Option.some.inj h).symm⟩
  | handle =>
    obtain ⟨⟨hpending, hblocked⟩, ⟨⟩⟩ := Option.ite_none_right_eq_some.mp h
    exact .inr (.inl ⟨rfl, hpending, hblocked, rfl⟩)
  | main => exact .inr (.inr ⟨rfl, h⟩)

theorem mask_sigint : mask SIGINT = true := rfl

/-- What every run knows. -/
structure Inv (s : State) : Prop where
  blocked : s.blocked SIGINT = s.pos.blocks
  flag : s.pos = .found ∨ s.pos.late → s.receivedSigint ≠ 0

theorem inv_init : Inv State.init := ⟨rfl, by simp [State.init, Pos.late]⟩

/-- A step of `main`. -/
theorem Inv.onMain (h : Inv s) (hstep : s.onMain = some s') : Inv s' := by
  have hblocked := h.blocked
  have hflag := h.flag
  unfold State.onMain at hstep
  cases hpos : s.pos with
  | looping =>
    simp only [hpos] at hstep
    obtain rfl := Option.some.inj hstep
    exact ⟨by simp [block, mask_sigint, Pos.blocks], by simp [Pos.late]⟩
  | sleeping =>
    simp only [hpos] at hstep hblocked
    obtain rfl := Option.some.inj hstep
    exact ⟨hblocked, by simp [Pos.late]⟩
  | unblocking =>
    simp only [hpos] at hstep
    obtain rfl := Option.some.inj hstep
    exact ⟨by simp [unblock, mask_sigint, Pos.blocks], by simp [Pos.late]⟩
  | unblocked =>
    simp only [hpos] at hstep hblocked
    split at hstep
    · cases hstep
    · obtain rfl := Option.some.inj hstep
      exact ⟨hblocked, by simp [Pos.late]⟩
  | testing =>
    simp only [hpos] at hstep hblocked
    obtain rfl := Option.some.inj hstep
    by_cases hset : s.receivedSigint ≠ 0
    · rw [if_pos hset]
      exact ⟨hblocked, fun _ => hset⟩
    · rw [if_neg hset]
      exact ⟨hblocked, by simp [Pos.late]⟩
  | found =>
    simp only [hpos] at hstep hblocked
    obtain rfl := Option.some.inj hstep
    exact ⟨hblocked, fun _ => hflag (.inl hpos)⟩
  | printing =>
    simp only [hpos] at hstep hblocked
    obtain rfl := Option.some.inj hstep
    exact ⟨hblocked, fun _ => hflag (.inr (by rw [hpos]; rfl))⟩
  | resetting =>
    simp only [hpos] at hstep hblocked
    obtain rfl := Option.some.inj hstep
    exact ⟨hblocked, by simp [Pos.late]⟩

theorem Inv.step (h : Inv s) (hstep : s.step a = some s') : Inv s' := by
  rcases step_cases hstep with ⟨rfl, rfl⟩ | ⟨rfl, -, -, rfl⟩ | ⟨rfl, hmain⟩
  · exact ⟨h.blocked, h.flag⟩
  · exact ⟨h.blocked, fun _ => one_ne_zero⟩
  · exact h.onMain hmain

/-! ## After the last signal -/

/-- `SIGINT` may come at any time. -/
def anyOrder (_ : State) (_ : Act) : Prop := True

/-- No more signals come. -/
def noArrival (_ : State) (a : Act) : Prop := a ≠ .arrive

instance (s : State) (a : Act) : Decidable (anyOrder s a) := inferInstanceAs (Decidable True)

instance (s : State) (a : Act) : Decidable (noArrival s a) := inferInstanceAs (Decidable (_ ≠ _))

/-- The steps of `main` up to the next line, when the flag is set. -/
def Pos.ahead : Pos → ℕ
  | .looping => 6
  | .sleeping => 5
  | .unblocking => 4
  | .unblocked => 3
  | .testing => 2
  | .found => 1
  | .printing | .resetting => 0

/-- The flag is set, and `main` will find it. -/
structure Owing (n : ℕ) (s : State) : Prop where
  pending : s.pending = false
  flag : s.receivedSigint ≠ 0
  early : s.pos.late = false
  lines : s.lines = n

/-- The flag is not set, or will be cleared before it is tested. -/
structure Settled (n : ℕ) (s : State) : Prop where
  pending : s.pending = false
  flag : s.receivedSigint ≠ 0 → s.pos.late
  lines : s.lines = n

/-- The handler does not run again. -/
theorem moved_of_quiet (hno : a ≠ .arrive) (hquiet : s.pending = false)
    (hstep : s.step a = some s') : a = .main ∧ s.onMain = some s' := by
  rcases step_cases hstep with ⟨rfl, -⟩ | ⟨-, hpending, -⟩ | hmain
  · exact absurd rfl hno
  · rw [hquiet] at hpending
    cases hpending
  · exact hmain

/-- `main` comes nearer to the line that it owes, or prints it. -/
theorem Owing.step (h : Owing n s) (hno : a ≠ .arrive) (hstep : s.step a = some s') :
    (Owing n s' ∧ s'.pos.ahead + [a].count .main ≤ s.pos.ahead) ∨ Settled (n + 1) s' := by
  obtain ⟨rfl, hmain⟩ := moved_of_quiet hno h.pending hstep
  have hearly := h.early
  unfold State.onMain at hmain
  cases hpos : s.pos with
  | looping | sleeping | unblocking =>
    simp only [hpos] at hmain
    obtain rfl := Option.some.inj hmain
    exact .inl ⟨⟨h.pending, h.flag, rfl, h.lines⟩, by simp [Pos.ahead]⟩
  | unblocked =>
    simp only [hpos, h.pending] at hmain
    obtain rfl := Option.some.inj hmain
    exact .inl ⟨⟨rfl, h.flag, rfl, h.lines⟩, by simp [Pos.ahead]⟩
  | testing =>
    simp only [hpos, if_pos h.flag] at hmain
    obtain rfl := Option.some.inj hmain
    exact .inl ⟨⟨h.pending, h.flag, rfl, h.lines⟩, by simp [Pos.ahead]⟩
  | found =>
    simp only [hpos] at hmain
    obtain rfl := Option.some.inj hmain
    exact .inr ⟨h.pending, fun _ => rfl, congrArg (· + 1) h.lines⟩
  | printing | resetting =>
    rw [hpos] at hearly
    cases hearly

theorem Settled.step (h : Settled n s) (hinv : Inv s) (hno : a ≠ .arrive)
    (hstep : s.step a = some s') : Settled n s' := by
  obtain ⟨-, hmain⟩ := moved_of_quiet hno h.pending hstep
  have hflag := h.flag
  unfold State.onMain at hmain
  cases hpos : s.pos with
  | looping | sleeping | unblocking =>
    simp only [hpos] at hmain hflag
    obtain rfl := Option.some.inj hmain
    exact ⟨h.pending, hflag, h.lines⟩
  | unblocked =>
    simp only [hpos, h.pending] at hmain hflag
    obtain rfl := Option.some.inj hmain
    exact ⟨rfl, hflag, h.lines⟩
  | testing =>
    have hclear : s.receivedSigint = 0 := by
      by_contra hset
      have hlate := h.flag hset
      rw [hpos] at hlate
      cases hlate
    simp only [hpos, hclear] at hmain
    obtain rfl := Option.some.inj hmain
    exact ⟨h.pending, fun hset => absurd rfl hset, h.lines⟩
  | found =>
    have hlate := h.flag (hinv.flag (.inl hpos))
    rw [hpos] at hlate
    cases hlate
  | printing =>
    simp only [hpos] at hmain
    obtain rfl := Option.some.inj hmain
    exact ⟨h.pending, fun _ => rfl, h.lines⟩
  | resetting =>
    simp only [hpos] at hmain
    obtain rfl := Option.some.inj hmain
    exact ⟨h.pending, fun hset => absurd rfl hset, h.lines⟩

theorem Settled.run (h : Settled n s) (hinv : Inv s) (hrun : Trace State.step noArrival s bs t) :
    Settled n t :=
  (hrun.invariant (P := fun s => Inv s ∧ Settled n s)
    (fun _ _ _ hs hno hstep => ⟨hs.1.step hstep, hs.2.step hs.1 hno hstep⟩) ⟨hinv, h⟩).2

/-- `k` steps of `main` are enough for the line. -/
def Reports (n k : ℕ) (bs : List Act) (s : State) : Prop :=
  Inv s ∧ ((Owing n s ∧ s.pos.ahead + bs.count .main ≤ k) ∨ Settled (n + 1) s)

theorem Reports.step {k : ℕ} (h : Reports n k bs s) (hno : a ≠ .arrive)
    (hstep : s.step a = some s') : Reports n k (bs ++ [a]) s' := by
  refine ⟨h.1.step hstep, ?_⟩
  rcases h.2 with ⟨howing, hle⟩ | hsettled
  · refine (howing.step hno hstep).imp_left fun ⟨hnext, hless⟩ => ⟨hnext, ?_⟩
    rw [List.count_append]
    omega
  · exact .inr (hsettled.step h.1 hno hstep)

theorem Owing.run (h : Owing n s) (hinv : Inv s) (hrun : Trace State.step noArrival s bs t) :
    Reports n s.pos.ahead bs t := by
  have hstart : Reports n s.pos.ahead [] s := ⟨hinv, .inl ⟨h, Nat.le_refl _⟩⟩
  exact hrun.history (fun _ _ _ _ hreports hno hstep => hreports.step hno hstep) hstart

theorem ahead_le (pos : Pos) : pos.ahead ≤ 6 := by cases pos <;> decide

theorem ahead_pos {pos : Pos} (h : pos.late = false) : 0 < pos.ahead := by
  cases pos with
  | looping | sleeping | unblocking | unblocked | testing | found => exact Nat.succ_pos _
  | printing | resetting => cases h

/-- **When a `SIGINT` is reported.**  In any run, when the handler runs and no signal comes after
that, `main` prints exactly one more line in its next six steps and no other ever after; unless the
handler runs between the start of `printf` and the clearing of the flag, when it prints none. -/
theorem reported_once (h : Trace State.step anyOrder .init as s)
    (hhandle : s.step .handle = some s')
    (hrun : Trace State.step noArrival s' bs t) (hmain : 6 ≤ bs.count .main) :
    t.lines = s.lines + if s.pos.late then 0 else 1 := by
  have hinv := (h.invariant (fun _ _ _ hs _ hstep => Inv.step hs hstep) inv_init).step hhandle
  obtain ⟨-, ⟨⟩⟩ := Option.ite_none_right_eq_some.mp hhandle
  by_cases hlate : s.pos.late
  · rw [if_pos hlate]
    have hsettled : Settled s.lines s.onHandle := ⟨rfl, fun _ => hlate, rfl⟩
    exact (hsettled.run hinv hrun).lines
  · rw [if_neg hlate]
    have howing : Owing s.lines s.onHandle := ⟨rfl, one_ne_zero, eq_false_of_ne_true hlate, rfl⟩
    rcases (howing.run hinv hrun).2 with ⟨hlast, hle⟩ | hsettled
    · have hstill := ahead_pos hlast.early
      have hbegin := ahead_le s.onHandle.pos
      omega
    · exact hsettled.lines

/-- One `SIGINT` in the first `sleep`, and another one behind `printf`. -/
def lateSigint : List Act :=
  [.main, .arrive, .main, .main, .handle, .main, .main, .main, .arrive]

/-- The second one is not reported. -/
theorem reported_once_lateSigint :
    ∃ s s' t, Trace State.step anyOrder .init lateSigint s ∧ s.lines = 1 ∧
      s.step .handle = some s' ∧ Trace State.step noArrival s' (List.replicate 7 .main) t ∧
      t.lines = s.lines + if s.pos.late then 0 else 1 := by
  obtain ⟨s, hrun, hs⟩ := Trace.exists_of_eval State.step anyOrder
    (fun s => s.lines = 1 ∧ ((s.step .handle).bind fun s' =>
      evalTrace State.step noArrival s' (List.replicate 7 .main)).isSome) .init lateSigint
    (by decide)
  obtain ⟨hlines, hnext⟩ := of_decide_eq_true hs
  obtain ⟨t, ht⟩ := Option.isSome_iff_exists.mp hnext
  obtain ⟨s', hhandle, hrest⟩ := Option.bind_eq_some_iff.mp ht
  exact ⟨s, s', t, hrun, hlines, hhandle, Trace.of_eval hrest,
    reported_once hrun hhandle (Trace.of_eval hrest) (by decide)⟩

/-! ## Signals that come while `main` sleeps -/

/-- A `SIGINT` comes only while it is blocked. -/
def whileBlocked (s : State) : Act → Prop
  | .arrive => s.pos.blocks
  | .handle | .main => True

instance (s : State) : (a : Act) → Decidable (whileBlocked s a)
  | .arrive => inferInstanceAs (Decidable (_ = _))
  | .handle | .main => inferInstanceAs (Decidable True)

/-- The first signal of a `sleep`. -/
def firsts (s : State) (a : Act) : ℕ := if a = .arrive ∧ s.pending = false then 1 else 0

/-- A line is owed for a signal that waits, or for the flag. -/
def State.owes (s : State) : ℕ :=
  if s.pending = true ∨ (s.receivedSigint ≠ 0 ∧ s.pos.late = false) then 1 else 0

/-- Where a signal that waits, and a flag that is set, can find `main`. -/
structure Windowed (s : State) : Prop where
  pending : s.pending = true → s.pos.blocks ∨ s.pos = .unblocked
  flag : s.receivedSigint ≠ 0 → s.pos = .unblocked ∨ s.pos = .testing ∨ s.pos = .found ∨ s.pos.late

theorem windowed_init : Windowed State.init := ⟨nofun, fun h => absurd rfl h⟩

theorem Windowed.onMain (h : Windowed s) (hinv : Inv s) (hstep : s.onMain = some s') :
    Windowed s' ∧ s'.lines + s'.owes = s.lines + s.owes := by
  have hpending := h.pending
  have hflag := h.flag
  unfold State.onMain at hstep
  cases hpos : s.pos with
  | looping =>
    simp only [hpos, Pos.late, Pos.blocks] at hstep hpending hflag
    obtain rfl := Option.some.inj hstep
    refine ⟨⟨fun _ => .inl rfl, fun hset => ?_⟩, ?_⟩
    · exact absurd hset (by simpa using hflag)
    · simp [State.owes, hpos, Pos.late]
  | sleeping | unblocking =>
    simp only [hpos, Pos.late, Pos.blocks] at hstep hpending hflag
    obtain rfl := Option.some.inj hstep
    refine ⟨⟨by simp [Pos.blocks], fun hset => ?_⟩, ?_⟩
    · exact absurd hset (by simpa using hflag)
    · simp [State.owes, hpos, Pos.late]
  | unblocked =>
    simp only [hpos] at hstep
    split at hstep
    · cases hstep
    · rename_i hnone
      obtain rfl := Option.some.inj hstep
      refine ⟨⟨fun hset => absurd hset hnone, by simp⟩, ?_⟩
      simp [State.owes, hpos, Pos.late]
  | testing =>
    simp only [hpos, Pos.late, Pos.blocks] at hstep hpending hflag
    obtain rfl := Option.some.inj hstep
    have hnone : s.pending = false := by simpa using hpending
    by_cases hset : s.receivedSigint = 0
    · refine ⟨⟨fun hp => ?_, fun hf => absurd hset hf⟩, ?_⟩
      · rw [hnone] at hp
        cases hp
      · simp [State.owes, hnone, hset]
    · refine ⟨⟨fun hp => ?_, fun _ => ?_⟩, ?_⟩
      · rw [hnone] at hp
        cases hp
      · simp [hset]
      · simp [State.owes, hpos, hset, Pos.late]
  | found =>
    simp only [hpos, Pos.late, Pos.blocks] at hstep hpending hflag
    obtain rfl := Option.some.inj hstep
    have hnone : s.pending = false := by simpa using hpending
    have hset : s.receivedSigint ≠ 0 := hinv.flag (.inl hpos)
    refine ⟨⟨fun hp => ?_, fun _ => by simp [Pos.late]⟩, ?_⟩
    · rw [hnone] at hp
      cases hp
    · simp [State.owes, hnone, hpos, hset, Pos.late]
  | printing =>
    simp only [hpos, Pos.late, Pos.blocks] at hstep hpending hflag
    obtain rfl := Option.some.inj hstep
    have hnone : s.pending = false := by simpa using hpending
    refine ⟨⟨fun hp => ?_, fun _ => by simp [Pos.late]⟩, ?_⟩
    · rw [hnone] at hp
      cases hp
    · simp [State.owes, hnone, hpos, Pos.late]
  | resetting =>
    simp only [hpos, Pos.late, Pos.blocks] at hstep hpending hflag
    obtain rfl := Option.some.inj hstep
    have hnone : s.pending = false := by simpa using hpending
    refine ⟨⟨fun hp => ?_, fun hf => absurd rfl hf⟩, ?_⟩
    · rw [hnone] at hp
      cases hp
    · simp [State.owes, hnone, hpos, Pos.late]

theorem Windowed.step (h : Windowed s) (hinv : Inv s) (hok : whileBlocked s a)
    (hstep : s.step a = some s') :
    Windowed s' ∧ s'.lines + s'.owes = s.lines + s.owes + firsts s a := by
  rcases step_cases hstep with ⟨rfl, rfl⟩ | ⟨rfl, hpending, hblocked, rfl⟩ | ⟨rfl, hmain⟩
  · have hblocks : s.pos.blocks := hok
    have hclear : s.receivedSigint = 0 := by
      by_contra hset
      rcases h.flag hset with hpos | hpos | hpos | hpos <;>
        cases hp : s.pos <;> simp_all [Pos.blocks, Pos.late]
    refine ⟨⟨fun _ => .inl hblocks, fun hset => absurd hclear hset⟩, ?_⟩
    cases hpending : s.pending <;> simp [State.owes, firsts, hpending, hclear]
  · have hpos : s.pos = .unblocked := by
      refine (h.pending hpending).resolve_left fun hblocks => ?_
      rw [hinv.blocked, hblocks] at hblocked
      cases hblocked
    refine ⟨⟨nofun, fun _ => .inl hpos⟩, ?_⟩
    simp [State.owes, State.onHandle, firsts, hpending, hpos, Pos.late]
  · have hmoved := h.onMain hinv hmain
    exact ⟨hmoved.1, hmoved.2.trans (by simp [firsts])⟩

/-- **One line for each `sleep` that a `SIGINT` came in.**  If `SIGINT` comes only while it is
blocked, then there is one line for each `sleep` in which one or more of them came; only the line
for the last one may be still to come, and it has come when `main` is back at its loop. -/
theorem one_line_each (h : Trace State.step whileBlocked .init as s) :
    s.lines + s.owes = tally State.step firsts .init as ∧
      (s.pos = .looping → s.lines = tally State.step firsts .init as) := by
  have hinv : ∀ s a t, Inv s ∧ Windowed s → whileBlocked s a → State.step s a = some t →
      Inv t ∧ Windowed t := fun _ _ _ hs hok hstep =>
    ⟨hs.1.step hstep, (hs.2.step hs.1 hok hstep).1⟩
  have hlast := h.invariant hinv ⟨inv_init, windowed_init⟩
  have hbalance := (h.through hinv ⟨inv_init, windowed_init⟩).balance
    (φ := fun s => s.lines + s.owes) (f := firsts)
    fun _ _ _ hok hstep => (hok.2.2.step hok.2.1 hok.1 hstep).2
  have hstart : State.init.lines + State.init.owes = 0 := rfl
  rw [hstart, Nat.zero_add] at hbalance
  refine ⟨hbalance, fun hpos => ?_⟩
  have hpending := hlast.2.pending
  have hflag := hlast.2.flag
  simp only [hpos, Pos.blocks, Pos.late] at hpending hflag
  have howes : s.owes = 0 := by
    rw [State.owes, if_neg]
    rintro (hp | ⟨hf, -⟩)
    · simpa using hpending hp
    · simpa using hflag hf
  omega

/-- Three signals in the first `sleep`, none in the second and one in the third. -/
def threeSleeps : List Act :=
  [[.main, .arrive, .arrive, .main, .arrive, .main, .handle], List.replicate 5 .main,
    List.replicate 5 .main, [.main, .main, .arrive, .main, .handle], List.replicate 5 .main].flatten

/-- There are two lines. -/
theorem one_line_each_threeSleeps :
    ∃ s, Trace State.step whileBlocked .init threeSleeps s ∧ s.lines = 2 ∧
      s.lines = tally State.step firsts .init threeSleeps := by
  obtain ⟨s, h, hs⟩ := Trace.exists_of_eval State.step whileBlocked
    (fun s => s.pos = .looping ∧ s.lines = 2) .init threeSleeps (by decide)
  obtain ⟨hpos, hlines⟩ := of_decide_eq_true hs
  exact ⟨s, h, hlines, (one_line_each h).2 hpos⟩

end Sigprocmask
end Signals
end CaosSeminars
