import CaosSeminars.Library.Trace

/-!
# `ps aux | tail -n 4`, by hand

`pipe.c` makes a pipe and two children, of which the first writes into the pipe and the second
reads from it.  What keeps it from hanging is which process has which end open: the second child
reads to the end of the stream, and the stream ends when nobody has the write end open any more,
neither the first child nor `main`, nor the second child itself.

A process has a table of descriptors, which `fork` copies, `dup2` and `close` change, and an exit
empties.  `fork` and `execlp` may fail; then `pid_1` or `pid_2` is `-1`, or the child ends by its
`assert`.  `ps` is any program that writes some bytes to its standard output in pieces and exits;
`tail` reads its standard input to the end and then writes what `lastLines` makes of it.

`output` is what the standard output of the three processes together has got, as far as it is not
the pipe.  Standard error, where the message of a failing `assert` goes, is left out.

* `Table`, `dup2`, `close`, `holds` --- tables of descriptors, and who has an end of the
  pipe open.
* `stepMain`, `stepChild`, `stepReap`, `stepTransfer` --- the calls of the three processes,
  and the failures that they can meet (`stepForkFails`, `stepExecFails`).
* `Moves`, `moves_of_step` --- what one step can do, one constructor for each; the proofs of
  the other two modules split on it.
-/

namespace CaosSeminars
namespace PsTail

/-- The descriptors that `pipe.c` speaks of. -/
inductive Fd where
  | stdin
  | stdout
  /-- `fd[0]` -/
  | fd0
  /-- `fd[1]` -/
  | fd1
  deriving DecidableEq

/-- What a descriptor refers to. -/
inductive Object where
  /-- The input and the output that `pipe.c` was started with. -/
  | tty
  | readEnd
  | writeEnd
  deriving DecidableEq

/-- The open descriptors of a process. -/
abbrev Table := Fd → Option Object

namespace Table

def dup2 (t : Table) (old new : Fd) : Table :=
  match t old with
  | some o => Function.update t new (some o)
  | none => t

def close (t : Table) (fd : Fd) : Table := Function.update t fd none

/-- Some descriptor refers to the object. -/
def holds (t : Table) (o : Object) : Bool :=
  t .stdin == some o || t .stdout == some o || t .fd0 == some o || t .fd1 == some o

/-- Before `pipe(fd)`. -/
def inherited : Table
  | .stdin | .stdout => some .tty
  | .fd0 | .fd1 => none

/-- After `pipe(fd)`. -/
def withPipe (t : Table) : Table :=
  Function.update (Function.update t .fd0 (some .readEnd)) .fd1 (some .writeEnd)

/-- After an exit. -/
def empty : Table := fun _ => none

end Table

/-- How a child has ended. -/
inductive Status where
  | exited
  /-- By its `assert`, because `execlp` has failed. -/
  | aborted
  /-- By `SIGPIPE`. -/
  | killed
  deriving DecidableEq

/-- Where a child is.  The first child, `ps`, is `false`, and the second one, `tail`, is `true`. -/
inductive ChildPc where
  | notForked
  | dup2
  /-- `close(fd[0])` comes next. -/
  | closeRead
  /-- `close(fd[1])` comes next. -/
  | closeWrite
  | exec
  /-- In the program that has been executed. -/
  | running
  /-- `tail` has read to the end. -/
  | finishing
  | zombie (st : Status)
  | reaped (st : Status)
  deriving DecidableEq

/-- Where `main` is. -/
inductive MainPc where
  | pipe
  /-- `fork()` for the child `c` comes next. -/
  | forking (c : Bool)
  /-- The `close` after that `fork()` comes next. -/
  | closing (c : Bool)
  /-- `waitpid` for the child `c` comes next. -/
  | waiting (c : Bool)
  | returned
  /-- By an `assert` on `waitpid`. -/
  | aborted
  deriving DecidableEq

/-- Who makes a step, with the answers of the kernel. -/
inductive Act where
  | main
  /-- `fork()` fails. -/
  | forkFails
  /-- `waitpid` returns the pid of the child `c`. -/
  | reap (c : Bool)
  | child (c : Bool)
  /-- `execlp` fails in the child `c`. -/
  | execFails (c : Bool)
  /-- A `write` of `ps` or a `read` of `tail` moves `n` bytes. -/
  | transfer (c : Bool) (n : ℕ)
  deriving DecidableEq

structure State where
  main : MainPc
  mainFds : Table
  /-- `pid_1` and `pid_2` are the pid of a child, and not `-1`. -/
  pids : Bool → Bool
  children : Bool → ChildPc
  childFds : Bool → Table
  /-- What is in the pipe. -/
  content : List UInt8
  /-- What `ps` has still to write. -/
  toWrite : List UInt8
  /-- What `tail` has read. -/
  received : List UInt8
  /-- What has been written to the standard output that `pipe.c` was started with. -/
  output : List UInt8

namespace State

/-- At the first line of `main`; `ps` is going to write `listing`. -/
def init (listing : List UInt8) : State where
  main := .pipe
  mainFds := .inherited
  pids := fun _ => false
  children := fun _ => .notForked
  childFds := fun _ => .empty
  content := []
  toWrite := listing
  received := []
  output := []

variable (s : State)

/-- Somebody has the object open. -/
def isOpen (o : Object) : Bool :=
  s.mainFds.holds o || (s.childFds false).holds o || (s.childFds true).holds o

def setChild (c : Bool) (pc : ChildPc) (t : Table) : State :=
  { s with
    children := Function.update s.children c pc
    childFds := Function.update s.childFds c t }

/-- A child ends. -/
def exit (c : Bool) (st : Status) : State := s.setChild c (.zombie st) .empty

end State

/-- The end of the pipe that a child keeps, and the place it puts it to. -/
def pipeEnd : Bool → Fd × Fd
  | false => (.fd1, .stdout)
  | true => (.fd0, .stdin)

/-- After `fork()` for the child `c`, `main` closes one end. -/
def closedAfter : Bool → Fd
  | false => .fd1
  | true => .fd0

def MainPc.afterClosing : Bool → MainPc
  | false => .forking true
  | true => .waiting false

def MainPc.afterWaiting : Bool → MainPc
  | false => .waiting true
  | true => .returned

def ChildPc.afterCloseRead : Bool → ChildPc
  | false => .closeWrite
  | true => .exec

/-- A child that `waitpid` may still return. -/
def ChildPc.unreaped : ChildPc → Bool
  | .notForked | .reaped _ => false
  | _ => true

namespace State

/-- The children that `waitpid` is asked for: one of them, or any when the argument is `-1`. -/
def awaits (s : State) (c d : Bool) : Bool := !s.pids c || d == c

/-- One step of `main` in which the system call succeeds, or `waitpid` fails for want of a child. -/
def stepMain (s : State) : Option State :=
  match s.main with
  | .pipe => some { s with main := .forking false, mainFds := s.mainFds.withPipe }
  | .forking c =>
    some { s.setChild c .dup2 s.mainFds with
      main := .closing c
      pids := Function.update s.pids c true }
  | .closing c =>
    some { s with main := .afterClosing c, mainFds := s.mainFds.close (closedAfter c) }
  | .waiting c =>
    if ∀ d, s.awaits c d = true → (s.children d).unreaped = false then
      some { s with main := .aborted, mainFds := .empty }
    else none
  | .returned | .aborted => none

/-- `fork()` returns `-1`. -/
def stepForkFails (s : State) : Option State :=
  match s.main with
  | .forking c => some { s with main := .closing c }
  | _ => none

/-- `waitpid` returns the pid of `d`. -/
def stepReap (s : State) (d : Bool) : Option State :=
  match s.main, s.children d with
  | .waiting c, .zombie st =>
    if s.awaits c d = true then
      some { s.setChild d (.reaped st) .empty with
        main := .afterWaiting c
        mainFds := if c then .empty else s.mainFds }
    else none
  | _, _ => none

/-- One step of a child that moves no bytes through the pipe. -/
def stepChild (lastLines : List UInt8 → List UInt8) (s : State) (c : Bool) : Option State :=
  match s.children c with
  | .dup2 => some (s.setChild c .closeRead ((s.childFds c).dup2 (pipeEnd c).1 (pipeEnd c).2))
  | .closeRead => some (s.setChild c (.afterCloseRead c) ((s.childFds c).close .fd0))
  | .closeWrite => some (s.setChild c .exec ((s.childFds c).close .fd1))
  | .exec => some (s.setChild c .running (s.childFds c))
  | .running =>
    if c then
      -- the end of the stream
      if s.childFds c .stdin = some .readEnd ∧ s.content = [] ∧ s.isOpen .writeEnd = false then
        some (s.setChild c .finishing (s.childFds c))
      else none
    else if s.toWrite = [] then some (s.exit c .exited)
    else if s.childFds c .stdout = some .writeEnd ∧ s.isOpen .readEnd = false then
      some (s.exit c .killed)
    else none
  | .finishing => some { s.exit c .exited with output := s.output ++ lastLines s.received }
  | .notForked | .zombie _ | .reaped _ => none

/-- `execlp` returns, and the `assert` after it fails. -/
def stepExecFails (s : State) (c : Bool) : Option State :=
  match s.children c with
  | .exec => some (s.exit c .aborted)
  | _ => none

/-- `ps` writes `n` bytes, or `tail` reads `n` bytes.  A `write` waits for room in the pipe. -/
def stepTransfer (capacity : ℕ) (s : State) (c : Bool) (n : ℕ) : Option State :=
  match s.children c with
  | .running =>
    if c then
      if s.childFds c .stdin = some .readEnd ∧ 0 < n ∧ n ≤ s.content.length then
        some { s with
          content := s.content.drop n
          received := s.received ++ s.content.take n }
      else none
    else if 0 < n ∧ n ≤ s.toWrite.length then
      match s.childFds c .stdout with
      | some .writeEnd =>
        if s.isOpen .readEnd = true ∧ s.content.length + n ≤ capacity then
          some { s with
            content := s.content ++ s.toWrite.take n
            toWrite := s.toWrite.drop n }
        else none
      | some .tty =>
        some { s with
          toWrite := s.toWrite.drop n
          output := s.output ++ s.toWrite.take n }
      | _ => none
    else none
  | _ => none

/-- One step. -/
def step (capacity : ℕ) (lastLines : List UInt8 → List UInt8) (s : State) : Act → Option State
  | .main => s.stepMain
  | .forkFails => s.stepForkFails
  | .reap d => s.stepReap d
  | .child c => s.stepChild lastLines c
  | .execFails c => s.stepExecFails c
  | .transfer c n => s.stepTransfer capacity c n

end State

/-- Any order of steps, with any answers. -/
def anyOrder (_ : State) (_ : Act) : Prop := True

instance (s : State) (a : Act) : Decidable (anyOrder s a) := inferInstanceAs (Decidable True)

/-- What one step can do, one case for each branch of `step`. -/
inductive Moves (capacity : ℕ) (lastLines : List UInt8 → List UInt8) (s : State) : State → Prop
  | pipe (hmain : s.main = .pipe) :
      Moves capacity lastLines s { s with main := .forking false, mainFds := s.mainFds.withPipe }
  | fork (c : Bool) (hmain : s.main = .forking c) :
      Moves capacity lastLines s
        { s.setChild c .dup2 s.mainFds with
          main := .closing c
          pids := Function.update s.pids c true }
  | forkFails (c : Bool) (hmain : s.main = .forking c) :
      Moves capacity lastLines s { s with main := .closing c }
  | close (c : Bool) (hmain : s.main = .closing c) :
      Moves capacity lastLines s
        { s with main := .afterClosing c, mainFds := s.mainFds.close (closedAfter c) }
  | noChild (c : Bool) (hmain : s.main = .waiting c)
      (hnone : ∀ d, s.awaits c d = true → (s.children d).unreaped = false) :
      Moves capacity lastLines s { s with main := .aborted, mainFds := .empty }
  | reap (c d : Bool) (st : Status) (hmain : s.main = .waiting c)
      (hpc : s.children d = .zombie st) (hd : s.awaits c d = true) :
      Moves capacity lastLines s
        { s.setChild d (.reaped st) .empty with
          main := .afterWaiting c
          mainFds := if c then .empty else s.mainFds }
  | dup2 (c : Bool) (hpc : s.children c = .dup2) :
      Moves capacity lastLines s
        (s.setChild c .closeRead ((s.childFds c).dup2 (pipeEnd c).1 (pipeEnd c).2))
  | closeRead (c : Bool) (hpc : s.children c = .closeRead) :
      Moves capacity lastLines s
        (s.setChild c (.afterCloseRead c) ((s.childFds c).close .fd0))
  | closeWrite (c : Bool) (hpc : s.children c = .closeWrite) :
      Moves capacity lastLines s (s.setChild c .exec ((s.childFds c).close .fd1))
  | exec (c : Bool) (hpc : s.children c = .exec) :
      Moves capacity lastLines s (s.setChild c .running (s.childFds c))
  | execFails (c : Bool) (hpc : s.children c = .exec) :
      Moves capacity lastLines s (s.exit c .aborted)
  | endOfStream (hpc : s.children true = .running) (hend : s.content = [])
      (hwriters : s.isOpen .writeEnd = false) :
      Moves capacity lastLines s (s.setChild true .finishing (s.childFds true))
  | finish (c : Bool) (hpc : s.children c = .finishing) :
      Moves capacity lastLines s
        { s.exit c .exited with output := s.output ++ lastLines s.received }
  | written (hpc : s.children false = .running) (hend : s.toWrite = []) :
      Moves capacity lastLines s (s.exit false .exited)
  | sigpipe (hpc : s.children false = .running) (hreaders : s.isOpen .readEnd = false) :
      Moves capacity lastLines s (s.exit false .killed)
  | write (n : ℕ) (hpc : s.children false = .running) (hpos : 0 < n) (hn : n ≤ s.toWrite.length) :
      Moves capacity lastLines s
        { s with
          content := s.content ++ s.toWrite.take n
          toWrite := s.toWrite.drop n }
  | print (n : ℕ) (hpc : s.children false = .running)
      (hfd : s.childFds false .stdout = some .tty) (hpos : 0 < n) (hn : n ≤ s.toWrite.length) :
      Moves capacity lastLines s
        { s with
          toWrite := s.toWrite.drop n
          output := s.output ++ s.toWrite.take n }
  | read (n : ℕ) (hpc : s.children true = .running) (hpos : 0 < n) (hn : n ≤ s.content.length) :
      Moves capacity lastLines s
        { s with
          content := s.content.drop n
          received := s.received ++ s.content.take n }

variable {capacity : ℕ} {lastLines : List UInt8 → List UInt8} {s s' : State} {a : Act}

theorem moves_of_stepChild {c : Bool} (h : s.stepChild lastLines c = some s') :
    Moves capacity lastLines s s' := by
  unfold State.stepChild at h
  split at h
  · obtain rfl := Option.some.inj h
    exact .dup2 c ‹_›
  · obtain rfl := Option.some.inj h
    exact .closeRead c ‹_›
  · obtain rfl := Option.some.inj h
    exact .closeWrite c ‹_›
  · obtain rfl := Option.some.inj h
    exact .exec c ‹_›
  · rename_i hpc
    cases c with
    | true =>
      obtain ⟨hend, h⟩ := Option.ite_none_right_eq_some.mp h
      obtain rfl := Option.some.inj h
      exact .endOfStream hpc hend.2.1 hend.2.2
    | false =>
      simp only [Bool.false_eq_true, if_false] at h
      split at h
      · obtain rfl := Option.some.inj h
        exact .written hpc ‹_›
      · obtain ⟨hend, h⟩ := Option.ite_none_right_eq_some.mp h
        obtain rfl := Option.some.inj h
        exact .sigpipe hpc hend.2
  · obtain rfl := Option.some.inj h
    exact .finish c ‹_›
  all_goals cases h

theorem moves_of_stepTransfer {c : Bool} {n : ℕ} (h : s.stepTransfer capacity c n = some s') :
    Moves capacity lastLines s s' := by
  unfold State.stepTransfer at h
  split at h
  · rename_i hpc
    cases c with
    | true =>
      obtain ⟨hn, h⟩ := Option.ite_none_right_eq_some.mp h
      obtain rfl := Option.some.inj h
      exact .read n hpc hn.2.1 hn.2.2
    | false =>
      obtain ⟨hn, h⟩ := Option.ite_none_right_eq_some.mp h
      split at h
      · obtain ⟨-, h⟩ := Option.ite_none_right_eq_some.mp h
        obtain rfl := Option.some.inj h
        exact .write n hpc hn.1 hn.2
      · obtain rfl := Option.some.inj h
        exact .print n hpc ‹_› hn.1 hn.2
      · cases h
  · cases h

/-- The inversion of `step`: later proofs split on `Moves`, never on `step`. -/
theorem moves_of_step (h : s.step capacity lastLines a = some s') :
    Moves capacity lastLines s s' := by
  cases a with
  | main =>
    replace h : s.stepMain = some s' := h
    unfold State.stepMain at h
    split at h
    · obtain rfl := Option.some.inj h
      exact .pipe ‹_›
    · obtain rfl := Option.some.inj h
      exact .fork _ ‹_›
    · obtain rfl := Option.some.inj h
      exact .close _ ‹_›
    · obtain ⟨hnone, h⟩ := Option.ite_none_right_eq_some.mp h
      obtain rfl := Option.some.inj h
      exact .noChild _ ‹_› hnone
    all_goals cases h
  | forkFails =>
    replace h : s.stepForkFails = some s' := h
    unfold State.stepForkFails at h
    split at h
    · obtain rfl := Option.some.inj h
      exact .forkFails _ ‹_›
    · cases h
  | reap d =>
    replace h : s.stepReap d = some s' := h
    unfold State.stepReap at h
    split at h
    · obtain ⟨hd, h⟩ := Option.ite_none_right_eq_some.mp h
      obtain rfl := Option.some.inj h
      exact .reap _ d _ ‹_› ‹_› hd
    · cases h
  | child c => exact moves_of_stepChild h
  | execFails c =>
    replace h : s.stepExecFails c = some s' := h
    unfold State.stepExecFails at h
    split at h
    · obtain rfl := Option.some.inj h
      exact .execFails c ‹_›
    · cases h
  | transfer c n => exact moves_of_stepTransfer h

end PsTail
end CaosSeminars
