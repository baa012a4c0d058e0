import CaosSeminars.Library.Lines
import CaosSeminars.Library.Trace
import Mathlib.Logic.Function.Basic

/-!
# The shell and the processes it starts

`simple_shell.c` reads a line, splits it into words, forks, and waits; the child calls
`execvp`.  When `execvp` fails, the child prints a message and is back in the loop: it
is a second shell, with a copy of what its parent has read ahead.

The script comes through a pipe.  What a process has read from it and not yet used as a
line is its own, and is copied by `fork`; what is still in the pipe is shared.  The
programs that `execvp` starts do not read the script.

There is one step for each call, of any process.  The lines that are launched are kept
as history, with the process that launches them.

* `afterGetline`, `onFork`, `onWaitpid` --- the parts of the loop between two calls.
* `Sys.step` --- one call of one process; `kernelAnswers` is what the kernel promises of
  `read`, `fork` and `waitpid`.
* `Moves`, `moves_of_step` --- what one step can do; the proofs of `Processes.RunOnce` split
  on it.
-/

namespace CaosSeminars
namespace Processes

/-- `MAX_ARGS`. -/
def MAX_ARGS : ℕ := 10

/-- The words that `strtok` finds with the delimiters `" \n"`. -/
def words (line : List UInt8) : List (List UInt8) :=
  ((line.takeWhile (· ≠ 0)).splitOnP fun b => b = 32 || b = 10).filter (· ≠ [])

/-- Where a process is. -/
inductive Pc where
  /-- There is no such process. -/
  | none
  /-- `getline` comes next. -/
  | reading
  /-- The line is split into words: `fork` comes next. -/
  | tokenised (line : List UInt8)
  /-- More words were stored than `args` has room for. -/
  | overrun (line : List UInt8)
  /-- `fork` has returned to the parent: `waitpid` comes next. -/
  | waiting (child : ℕ)
  /-- `fork` has returned to the child: `execvp` comes next. -/
  | child
  /-- `execvp` has started a program. -/
  | command
  /-- The process has terminated, and its parent has not waited for it yet. -/
  | exited
  deriving DecidableEq

/-- A process: where it is, and what it has read ahead. -/
structure Proc where
  pc : Pc
  buffer : List UInt8
  deriving DecidableEq

/-- The processes, and the pipe. -/
structure Sys where
  procs : ℕ → Proc
  /-- The identifier of the next process. -/
  next : ℕ
  /-- What is still in the pipe. -/
  source : List UInt8
  /-- The lines launched, each with the process that has forked for it. -/
  log : List (ℕ × List UInt8)

/-- The shell is process `0`. -/
def Sys.init (script : List UInt8) : Sys where
  procs p := if p = 0 then ⟨.reading, []⟩ else ⟨.none, []⟩
  next := 1
  source := script
  log := []

/-- A call of a process returns, or a program terminates. -/
inductive Act where
  /-- `getline` reads from the pipe. -/
  | read (p : ℕ) (bs : List UInt8)
  /-- `getline` returns. -/
  | getline (p : ℕ)
  | fork (p : ℕ)
  /-- `execvp` starts a program, or returns. -/
  | exec (p : ℕ) (ok : Bool)
  | terminate (p : ℕ)
  | waitpid (p : ℕ)
  deriving DecidableEq

/-- The words of a line are stored in `args`. -/
def afterGetline (line : List UInt8) : Pc :=
  if (words line).length ≤ MAX_ARGS then .tokenised line else .overrun line

namespace Sys

variable (s : Sys)

/-- A process is changed. -/
def setProc (p : ℕ) (x : Proc) : Sys := { s with procs := Function.update s.procs p x }

/-- `getline` returns the next line, or `-1`, after which the process terminates. -/
def onGetline (p : ℕ) : Sys :=
  match CaosSeminars.getline (s.procs p).buffer with
  | .none => s.setProc p { s.procs p with pc := .exited }
  | some (line, rest) => s.setProc p ⟨afterGetline line, rest⟩

/-- `fork`: the child has a copy of what was read ahead. -/
def onFork (p : ℕ) (line : List UInt8) : Sys :=
  { (s.setProc p ⟨.waiting s.next, (s.procs p).buffer⟩).setProc s.next
      ⟨.child, (s.procs p).buffer⟩ with
    next := s.next + 1
    log := s.log ++ [(p, line)] }

/-- The parent has waited for a child, which is gone. -/
def onWaitpid (p c : ℕ) : Sys :=
  (s.setProc c ⟨.none, []⟩).setProc p { s.procs p with pc := .reading }

/-- One step. -/
def step (s : Sys) : Act → Option Sys
  | .read p bs =>
    if (s.procs p).pc = .reading ∧ 10 ∉ (s.procs p).buffer then
      some { s.setProc p ⟨.reading, (s.procs p).buffer ++ bs⟩ with
        source := s.source.drop bs.length }
    else .none
  | .getline p =>
    if (s.procs p).pc = .reading ∧ (10 ∈ (s.procs p).buffer ∨ s.source = []) then
      some (s.onGetline p)
    else .none
  | .fork p =>
    match (s.procs p).pc with
    | .tokenised line => some (s.onFork p line)
    | _ => .none
  | .exec p ok =>
    if (s.procs p).pc = .child then
      some (s.setProc p { s.procs p with pc := if ok then .command else .reading })
    else .none
  | .terminate p =>
    if (s.procs p).pc = .command then some (s.setProc p { s.procs p with pc := .exited })
    else .none
  | .waitpid p =>
    match (s.procs p).pc with
    | .waiting c => if (s.procs c).pc = .exited then some (s.onWaitpid p c) else .none
    | _ => .none

end Sys

/-- What the kernel promises: `read` returns a beginning of what is in the pipe. -/
def kernelAnswers (s : Sys) : Act → Prop
  | .read _ bs => bs ≠ [] ∧ bs <+: s.source
  | _ => True

/-- When `execvp` fails, there is no input left. -/
def endOfInput (s : Sys) : Act → Prop
  | .exec p false => (s.procs p).buffer = [] ∧ s.source = []
  | _ => True

instance (s : Sys) : (a : Act) → Decidable (kernelAnswers s a)
  | .read _ _ => inferInstanceAs (Decidable (_ ∧ _))
  | .getline _ | .fork _ | .exec _ _ | .terminate _ | .waitpid _ =>
    inferInstanceAs (Decidable True)

instance (s : Sys) : (a : Act) → Decidable (endOfInput s a)
  | .exec _ false => inferInstanceAs (Decidable (_ ∧ _))
  | .exec _ true | .read _ _ | .getline _ | .fork _ | .terminate _ | .waitpid _ =>
    inferInstanceAs (Decidable True)

/-- What one step can do, one case for each call. -/
inductive Moves (s : Sys) : Act → Sys → Prop
  | read {p : ℕ} {bs : List UInt8} (hpc : (s.procs p).pc = .reading) :
      Moves s (.read p bs)
        { s.setProc p ⟨.reading, (s.procs p).buffer ++ bs⟩ with
          source := s.source.drop bs.length }
  | eof {p : ℕ} (hpc : (s.procs p).pc = .reading) (hbuffer : (s.procs p).buffer = [])
      (hsource : s.source = []) :
      Moves s (.getline p) (s.setProc p { s.procs p with pc := .exited })
  | line {p : ℕ} {line rest : List UInt8} (hpc : (s.procs p).pc = .reading)
      (hline : linesOf ((s.procs p).buffer ++ s.source) = line :: linesOf (rest ++ s.source)) :
      Moves s (.getline p) (s.setProc p ⟨afterGetline line, rest⟩)
  | fork {p : ℕ} {line : List UInt8} (hpc : (s.procs p).pc = .tokenised line) :
      Moves s (.fork p) (s.onFork p line)
  | exec {p : ℕ} (ok : Bool) (hpc : (s.procs p).pc = .child) :
      Moves s (.exec p ok)
        (s.setProc p { s.procs p with pc := if ok then .command else .reading })
  | terminate {p : ℕ} (hpc : (s.procs p).pc = .command) :
      Moves s (.terminate p) (s.setProc p { s.procs p with pc := .exited })
  | waitpid {p c : ℕ} (hpc : (s.procs p).pc = .waiting c) (hexited : (s.procs c).pc = .exited) :
      Moves s (.waitpid p) (s.onWaitpid p c)

/-- The inversion of `Sys.step`: later proofs split on `Moves`. -/
theorem moves_of_step {s s' : Sys} {a : Act} (h : s.step a = some s') : Moves s a s' := by
  cases a with
  | read p bs =>
    obtain ⟨⟨hpc, -⟩, ⟨⟩⟩ := Option.ite_none_right_eq_some.mp h
    exact Moves.read hpc
  | getline p =>
    obtain ⟨⟨hpc, hready⟩, ⟨⟩⟩ := Option.ite_none_right_eq_some.mp h
    rw [Sys.onGetline]
    cases hline : CaosSeminars.getline (s.procs p).buffer with
    | none =>
      have hbuffer := getline_eq_none.mp hline
      rw [hbuffer] at hready
      exact Moves.eof hpc hbuffer (hready.resolve_left List.not_mem_nil)
    | some x =>
      obtain ⟨line, rest⟩ := x
      refine Moves.line hpc ?_
      have hall : CaosSeminars.getline ((s.procs p).buffer ++ s.source) =
          some (line, rest ++ s.source) := by
        rcases hready with hmem | hnone
        · exact getline_append hline hmem s.source
        · rw [hnone, List.append_nil, List.append_nil]
          exact hline
      rw [linesOf_eq_getline, hall]
  | fork p =>
    simp only [Sys.step] at h
    split at h
    · obtain rfl := Option.some.inj h
      exact Moves.fork ‹_›
    · cases h
  | exec p ok =>
    obtain ⟨hpc, ⟨⟩⟩ := Option.ite_none_right_eq_some.mp h
    exact Moves.exec ok hpc
  | terminate p =>
    obtain ⟨hpc, ⟨⟩⟩ := Option.ite_none_right_eq_some.mp h
    exact Moves.terminate hpc
  | waitpid p =>
    simp only [Sys.step] at h
    split at h
    · obtain ⟨hexited, ⟨⟩⟩ := Option.ite_none_right_eq_some.mp h
      exact Moves.waitpid ‹_› hexited
    · cases h

end Processes
end CaosSeminars
