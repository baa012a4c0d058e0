import Mathlib.Data.Int.Notation
import CaosSeminars.Library.StoreBuffer
import CaosSeminars.Library.Trace

/-!
# `faulty.c`, `atomic.c` and `mutex.c`

One program in three builds.  In an endless loop `main` clears `x`, `y`, `r1` and `r2` and starts
two threads, one of which sets `x` and then reads `y` into `r1`, while the other one sets `y` and
then reads `x` into `r2`.  When both have read `0` --- so that each thread seems to have read before
the other one wrote --- the program aborts.

In `faulty.c` the variables are plain, and the machine that runs it has store buffers.  In
`atomic.c` they are `_Atomic`: a store is not finished before it has reached the memory.  In
`mutex.c` they are plain, and each thread makes its two accesses with a mutex held.
`pthread_create`, `pthread_join` and the two operations of a mutex wait until the stores of the
calling thread, and of the thread joined, have reached the memory.

* `Build` --- the three programs; they differ in `Build.entry` and `Build.exit`, which lock and
  unlock, and in whether an assignment goes to the memory at once.
* `stepThread`, `stepMain`, `step` --- the two threads, `main`, and a store that reaches the memory.
* `inProgramOrder` --- the runs of a machine that does not delay a store past a later load.
-/

namespace CaosSeminars
namespace Faulty

/-- Which of the three files. -/
inductive Build where
  | faulty
  | atomic
  | mutex
  deriving DecidableEq

/-- The shared variables. -/
inductive Loc where
  | x
  | y
  | r1
  | r2
  deriving DecidableEq

/-- Whose stores: those of `main`, or those of a thread, `false` being the one that runs
`write_x_read_y`. -/
inductive Who where
  | main
  | thread (b : Bool)
  deriving DecidableEq

/-- Where a thread is. -/
inductive ThreadPc where
  | notCreated
  /-- `pthread_mutex_lock(&mutex)` comes next. -/
  | lock
  /-- The store of `1` comes next. -/
  | store
  /-- The load comes next. -/
  | load
  /-- The store of the loaded value comes next. -/
  | save (v : ℤ)
  /-- `pthread_mutex_unlock(&mutex)` comes next. -/
  | unlock
  | finished
  deriving DecidableEq

/-- Where `main` is. -/
inductive MainPc where
  /-- `l = 0` comes next. -/
  | clearing (l : Loc)
  /-- `pthread_create` of a thread comes next. -/
  | creating (b : Bool)
  /-- `pthread_join` of a thread comes next. -/
  | joining (b : Bool)
  /-- The test of `r1` comes next. -/
  | testing
  /-- `r1` was `0`, and the test of `r2` comes next. -/
  | testingBoth
  | aborted
  deriving DecidableEq

/-- The variable a thread sets; what it reads is the one of the other thread. -/
def own : Bool → Loc
  | false => .x
  | true => .y

/-- The variable a thread saves in what it has read. -/
def result : Bool → Loc
  | false => .r1
  | true => .r2

structure State where
  main : MainPc
  threads : Bool → ThreadPc
  memory : Buffered Who Loc ℤ
  /-- Who holds the mutex. -/
  mutex : Option Bool
  /-- `i` -/
  iteration : BitVec 64
  /-- The number in the line that is printed before the end. -/
  output : Option (BitVec 64)

/-- Who makes a step.  A step of the machine itself brings one store to the memory. -/
inductive Act where
  | main
  | thread (b : Bool)
  | commit (w : Who)
  deriving DecidableEq

namespace State

def init : State where
  main := .clearing .x
  threads := fun _ => .notCreated
  memory := ⟨fun _ => 0, fun _ => []⟩
  mutex := none
  iteration := 0
  output := none

variable (s : State)

def setThread (b : Bool) (pc : ThreadPc) : State :=
  { s with threads := Function.update s.threads b pc }

def goMain (main : MainPc) : State := { s with main := main }

/-- `l = v` -/
def assign (build : Build) (w : Who) (l : Loc) (v : ℤ) : State :=
  match build with
  | .faulty | .mutex => { s with memory := s.memory.write w l v }
  | .atomic => { s with memory := s.memory.writeThrough l v }

/-- The stores of a thread have all reached the memory. -/
def drained (w : Who) : Prop := s.memory.buffer w = []

instance (w : Who) : Decidable (s.drained w) := inferInstanceAs (Decidable (_ = _))

end State

/-- The first line of a thread. -/
def Build.entry : Build → ThreadPc
  | .faulty | .atomic => .store
  | .mutex => .lock

/-- What comes after the last access of a thread. -/
def Build.exit : Build → ThreadPc
  | .faulty | .atomic => .finished
  | .mutex => .unlock

/-- What comes after `l = 0` in `main`. -/
def MainPc.afterClearing : Loc → MainPc
  | .x => .clearing .y
  | .y => .clearing .r1
  | .r1 => .clearing .r2
  | .r2 => .creating false

/-- What comes after `pthread_create`. -/
def MainPc.afterCreating : Bool → MainPc
  | false => .creating true
  | true => .joining false

/-- What comes after `pthread_join`. -/
def MainPc.afterJoining : Bool → MainPc
  | false => .joining true
  | true => .testing

namespace State

/-- The next iteration of the loop in `main`. -/
def again (s : State) : State :=
  { s with
    main := .clearing .x
    threads := fun _ => .notCreated
    iteration := s.iteration + 1 }

/-- One step of `main`. -/
def stepMain (build : Build) (s : State) : Option State :=
  match s.main with
  | .clearing l => some ((s.assign build .main l 0).goMain (.afterClearing l))
  | .creating b =>
    if s.drained .main then some ((s.setThread b build.entry).goMain (.afterCreating b)) else none
  | .joining b =>
    if s.threads b = .finished ∧ s.drained (.thread b) then some (s.goMain (.afterJoining b))
    else none
  | .testing =>
    if s.memory.view .main .r1 = 0 then some (s.goMain .testingBoth) else some s.again
  | .testingBoth =>
    if s.memory.view .main .r2 = 0 then
      some { s.goMain .aborted with output := some s.iteration }
    else some s.again
  | .aborted => none

/-- One step of a thread. -/
def stepThread (build : Build) (s : State) (b : Bool) : Option State :=
  match s.threads b with
  | .lock =>
    if s.drained (.thread b) ∧ s.mutex = none then
      some { s.setThread b .store with mutex := some b }
    else none
  | .store => some ((s.assign build (.thread b) (own b) 1).setThread b .load)
  | .load => some (s.setThread b (.save (s.memory.view (.thread b) (own !b))))
  | .save v => some ((s.assign build (.thread b) (result b) v).setThread b build.exit)
  | .unlock =>
    if s.drained (.thread b) ∧ s.mutex = some b then
      some { s.setThread b .finished with mutex := none }
    else none
  | .notCreated | .finished => none

/-- One step. -/
def step (build : Build) (s : State) : Act → Option State
  | .main => s.stepMain build
  | .thread b => s.stepThread build b
  | .commit w => (s.memory.commit w).map fun m => { s with memory := m }

end State

/-- Any order of steps, with any delay of the stores. -/
def anyOrder (_ : State) (_ : Act) : Prop := True

instance (s : State) (a : Act) : Decidable (anyOrder s a) := inferInstanceAs (Decidable True)

/-- A load is made when the thread's own store has reached the memory, as if there were no store
buffers. -/
def inProgramOrder (s : State) : Act → Prop
  | .thread b => s.threads b = .load → s.drained (.thread b)
  | .main | .commit _ => True

instance (s : State) (a : Act) : Decidable (inProgramOrder s a) := by
  cases a <;> unfold inProgramOrder <;> infer_instance

end Faulty
end CaosSeminars
