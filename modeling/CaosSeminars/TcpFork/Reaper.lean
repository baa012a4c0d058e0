import CaosSeminars.Library.Trace
import Mathlib.Data.Finset.Basic

/-!
# The forking server and its zombies

`tcp-fork/tcp_server.c` forks a child for each connection and never waits for it in
`main`.  `sigchld_handler` does, by calling `waitpid` until it finds no more children
that have terminated.

`SIGCHLD` is one bit.  A child that terminates sets it, however many have done so
before; its delivery clears it and starts the handler, during which it is blocked.  So
one run of the handler answers for many children, and a child may terminate after the
last `waitpid` of a run and before its return.  Then the bit is set, and there is
another run to come.

* `Watched` --- the invariant: while there is a zombie the signal is pending, or the handler
  is about to call `waitpid` once more.
* `Watched.onExit`, `Watched.onDeliver`, `Watched.onWait` --- the steps that matter;
  `Watched.main` the others.
* `server_leaves_no_zombie` --- over any number of children and every interleaving.
-/

namespace CaosSeminars
namespace TcpFork

/-- Where `main` is. -/
inductive MainPc where
  /-- `sigaction` comes next. -/
  | starting
  /-- `accept` comes next. -/
  | accepting
  /-- `accept` has returned a descriptor: `fork` comes next. -/
  | forking
  /-- `fork` has returned to the parent: it prints, closes `client_fd`, and goes on. -/
  | forked
  deriving DecidableEq

/-- Where `sigchld_handler` is. -/
inductive HandlerPc where
  /-- It is not running, and `SIGCHLD` is not blocked. -/
  | off
  /-- The condition of its loop: `waitpid` comes next. -/
  | calling
  /-- `waitpid` has returned no child: the handler returns next. -/
  | returning
  deriving DecidableEq

/-- The server, its children, and the signal. -/
structure Sys where
  main : MainPc
  handler : HandlerPc
  /-- The children that have not terminated. -/
  running : Finset ℕ
  /-- The children that have terminated and are not reaped. -/
  zombies : Finset ℕ
  /-- `SIGCHLD` is pending. -/
  pending : Bool
  deriving DecidableEq

/-- The server before its first step. -/
def Sys.init : Sys := ⟨.starting, .off, ∅, ∅, false⟩

/-- What `waitpid(-1, NULL, WNOHANG)` returns. -/
inductive WaitResult where
  /-- The identifier of a child, which is reaped. -/
  | child (pid : ℕ)
  /-- `0`: there are children, and none has terminated. -/
  | none
  /-- `-1`: there are no children. -/
  | error
  deriving DecidableEq

/-- A step of `main`, of the handler, of a child, or of the kernel. -/
inductive Act where
  | sigaction
  /-- `accept` returns a descriptor, or `-1`, be it `EINTR` or not. -/
  | accept (ok : Bool)
  /-- `fork` returns the child's identifier, or `-1`. -/
  | fork (pid : Option ℕ)
  | close
  /-- A child terminates. -/
  | exit (pid : ℕ)
  /-- `SIGCHLD` is delivered. -/
  | deliver
  | waitpid (r : WaitResult)
  /-- The handler returns. -/
  | sigreturn
  deriving DecidableEq

namespace Sys

variable (s : Sys)

/-- What `fork` leaves in the parent; a child is running when it has returned. -/
def onFork : Option ℕ → Sys
  | some pid => { s with main := .forked, running := insert pid s.running }
  | none => { s with main := .forked }

/-- A child becomes a zombie, and the signal is raised. -/
def onExit (pid : ℕ) : Sys :=
  { s with
    running := s.running.erase pid
    zombies := insert pid s.zombies
    pending := true }

/-- The signal is delivered; before `sigaction` it is ignored. -/
def onDeliver : Sys :=
  { s with
    pending := false
    handler := if s.main = .starting then .off else .calling }

/-- What the loop of `sigchld_handler` does with the result of `waitpid`. -/
def onWait : WaitResult → Sys
  | .child pid => { s with zombies := s.zombies.erase pid }
  | .none | .error => { s with handler := .returning }

/-- One step.  `main` does not move while the handler runs, which has interrupted it. -/
def step (s : Sys) : Act → Option Sys
  | .sigaction =>
    if s.handler = .off ∧ s.main = .starting then some { s with main := .accepting } else none
  | .accept ok =>
    if s.handler = .off ∧ s.main = .accepting then
      some { s with main := if ok then .forking else .accepting }
    else none
  | .fork pid => if s.handler = .off ∧ s.main = .forking then some (s.onFork pid) else none
  | .close =>
    if s.handler = .off ∧ s.main = .forked then some { s with main := .accepting } else none
  | .exit pid => if pid ∈ s.running then some (s.onExit pid) else none
  | .deliver => if s.handler = .off ∧ s.pending then some s.onDeliver else none
  | .waitpid r => if s.handler = .calling then some (s.onWait r) else none
  | .sigreturn => if s.handler = .returning then some { s with handler := .off } else none

end Sys

/-- What the kernel promises: identifiers of new children are not in use, and `waitpid`
finds a child that has terminated when there is one. -/
def kernelAnswers (s : Sys) : Act → Prop
  | .fork (some pid) => pid ∉ s.running ∧ pid ∉ s.zombies
  | .waitpid (.child pid) => pid ∈ s.zombies
  | .waitpid .none => s.zombies = ∅ ∧ s.running ≠ ∅
  | .waitpid .error => s.zombies = ∅ ∧ s.running = ∅
  | _ => True

instance (s : Sys) : (a : Act) → Decidable (kernelAnswers s a)
  | .fork (some _) => inferInstanceAs (Decidable (_ ∧ _))
  | .waitpid (.child _) => inferInstanceAs (Decidable (_ ∈ _))
  | .waitpid .none | .waitpid .error => inferInstanceAs (Decidable (_ ∧ _))
  | .fork none | .sigaction | .accept _ | .close | .exit _ | .deliver | .sigreturn =>
    inferInstanceAs (Decidable True)

variable {s s' : Sys} {a : Act}

/-! ## The invariant -/

/-- A zombie is about to be noticed: the signal is pending, or the handler is going to
call `waitpid` once more.  Before `sigaction` there are no children. -/
structure Watched (s : Sys) : Prop where
  start : s.main = .starting → s.running = ∅ ∧ s.zombies = ∅
  noticed : s.zombies ≠ ∅ → s.pending ∨ s.handler = .calling

theorem watched_init : Watched Sys.init := ⟨fun _ => ⟨rfl, rfl⟩, fun h => absurd rfl h⟩

/-- `main` moves on from a place where it has installed the handler, or installs it. -/
theorem Watched.main (h : Watched s) {pc : MainPc} (hpc : pc ≠ .starting) :
    Watched { s with main := pc } :=
  ⟨fun hstart => absurd hstart hpc, h.noticed⟩

theorem Watched.onExit (h : Watched s) {pid : ℕ} (hmem : pid ∈ s.running) :
    Watched (s.onExit pid) where
  start hstart := by
    have hnone := (h.start hstart).1
    rw [hnone] at hmem
    exact absurd hmem (Finset.notMem_empty pid)
  noticed _ := Or.inl rfl

theorem Watched.onDeliver (h : Watched s) : Watched s.onDeliver where
  start := h.start
  noticed hzombies := by
    have hstarted : s.main ≠ .starting := fun hstart => hzombies (h.start hstart).2
    exact Or.inr (if_neg hstarted)

/-- The loop ends only when there are no zombies. -/
theorem Watched.onWait (h : Watched s) {r : WaitResult} (hpc : s.handler = .calling)
    (hok : kernelAnswers s (.waitpid r)) : Watched (s.onWait r) := by
  cases r with
  | child pid =>
    refine ⟨fun hstart => ?_, fun _ => Or.inr hpc⟩
    obtain ⟨hrunning, hzombies⟩ := h.start hstart
    refine ⟨hrunning, ?_⟩
    show s.zombies.erase pid = ∅
    rw [hzombies, Finset.erase_empty]
  | none => exact ⟨h.start, fun hne => absurd hok.1 hne⟩
  | error => exact ⟨h.start, fun hne => absurd hok.1 hne⟩

theorem Watched.step (h : Watched s) (hok : kernelAnswers s a) (hstep : s.step a = some s') :
    Watched s' := by
  cases a with
  | sigaction =>
    obtain ⟨-, ⟨⟩⟩ := Option.ite_none_right_eq_some.mp hstep
    exact h.main (by simp)
  | accept ok =>
    obtain ⟨-, ⟨⟩⟩ := Option.ite_none_right_eq_some.mp hstep
    exact h.main (by cases ok <;> simp)
  | fork pid =>
    obtain ⟨⟨-, hpc⟩, ⟨⟩⟩ := Option.ite_none_right_eq_some.mp hstep
    cases pid with
    | some pid => exact ⟨fun hstart => (by cases hstart), h.noticed⟩
    | none => exact h.main (by simp)
  | close =>
    obtain ⟨-, ⟨⟩⟩ := Option.ite_none_right_eq_some.mp hstep
    exact h.main (by simp)
  | exit pid =>
    obtain ⟨hmem, ⟨⟩⟩ := Option.ite_none_right_eq_some.mp hstep
    exact h.onExit hmem
  | deliver =>
    obtain ⟨-, ⟨⟩⟩ := Option.ite_none_right_eq_some.mp hstep
    exact h.onDeliver
  | waitpid r =>
    obtain ⟨hpc, ⟨⟩⟩ := Option.ite_none_right_eq_some.mp hstep
    exact h.onWait hpc hok
  | sigreturn =>
    obtain ⟨hpc, ⟨⟩⟩ := Option.ite_none_right_eq_some.mp hstep
    refine ⟨h.start, fun hne => ?_⟩
    -- the last `waitpid` found no zombie, so the signal was raised since
    rcases h.noticed hne with hpending | hcalling
    · exact Or.inl hpending
    · rw [hpc] at hcalling
      cases hcalling

/-- **No zombie is left.**  For any number of children that terminate at any moments, and
any order of the steps: when the signal is not pending and the handler is not running,
every child that has terminated is reaped. -/
theorem server_leaves_no_zombie {as : List Act}
    (h : Trace Sys.step kernelAnswers Sys.init as s) (hpending : s.pending = false)
    (hoff : s.handler = .off) : s.zombies = ∅ := by
  have hwatched := h.invariant (fun _ _ _ hs hok hstep => hs.step hok hstep) watched_init
  by_contra hne
  rcases hwatched.noticed hne with hnow | hcalling
  · rw [hpending] at hnow
    cases hnow
  · rw [hoff] at hcalling
    cases hcalling

/-- Two children; the second one terminates after the last `waitpid` of the first run of
the handler. -/
def lateExit : List Act :=
  [.sigaction, .accept true, .fork (some 7), .close, .accept true, .fork (some 8), .exit 7,
    .deliver, .waitpid (.child 7), .waitpid .none, .exit 8, .sigreturn, .deliver,
    .waitpid (.child 8), .waitpid .error, .sigreturn]

/-- Both are reaped. -/
theorem server_leaves_no_zombie_lateExit :
    ∃ s, Trace Sys.step kernelAnswers Sys.init lateExit s ∧ s.running = ∅ ∧ s.zombies = ∅ := by
  obtain ⟨s, h, hp⟩ := Trace.exists_of_eval Sys.step kernelAnswers
    (fun s => s.running = ∅ ∧ s.pending = false ∧ s.handler = .off) Sys.init lateExit (by decide)
  obtain ⟨hrunning, hpending, hoff⟩ := of_decide_eq_true hp
  exact ⟨s, h, hrunning, server_leaves_no_zombie h hpending hoff⟩

end TcpFork
end CaosSeminars
