import Mathlib.Data.Finset.Basic
import CaosSeminars.Epoll.Connection

/-!
# The event loop of the epoll echo server

The loop of `main` takes a batch of events from `epoll_wait` and hands them to
`process_epoll_event` one by one.  An event of the listening descriptor starts
the accept branch, which acquires a descriptor, its flags, an `fd_data` and a
registration, each of which can fail.  Any other event names its `fd_data` by the
pointer that was registered with the descriptor, and starts the client branch of
`Epoll.Connection` on it.

The state holds the live `fd_data` objects by address, the client descriptors
that are open, and those registered in the epoll instance with the data word of
their registration.  An event's data is one word, which the code reads as a
descriptor first (`dataFd`) and as a pointer after.

Releasing what is not held, and handling an `fd_data` that was freed, are
recorded in `faults`.

* `clientBranch`, `processEpollEvent`, `closeConnection` --- the functions of the source;
  `Server.step` is the loop.
* `serverPromises` --- what the kernel and `calloc` promise: a descriptor or an address that they
  return is not in use, and an event names a registration that is there.  Both may be used again as
  soon as they are free.
-/

namespace CaosSeminars
namespace Epoll

/-- `epoll_data_t`: a word that holds a pointer or a descriptor. -/
abbrev Ptr := BitVec 64

/-- The null pointer. -/
def NULL : Ptr := 0

/-- `data.fd`: the low half of the word, read as an `int`. -/
def dataFd (w : Ptr) : ℤ := (w.setWidth 32).toInt

/-- `MAX_EVENTS`. -/
def MAX_EVENTS : ℕ := 64

/-- `struct epoll_event`, with the descriptor it is about; the code does not see
`source`. -/
structure Event where
  source : ℤ
  events : Mask
  data : Ptr
  deriving DecidableEq

/-- A release of what is not held, or the use of what was released. -/
inductive Fault where
  | doubleClose (fd : ℤ)
  | doubleFree (p : Ptr)
  | useAfterFree (p : Ptr)
  deriving DecidableEq

/-- Where the server is. -/
inductive MainPc where
  /-- In the loop of `main`, between two calls of `process_epoll_event`. -/
  | looping
  /-- `accept` comes next. -/
  | accepting
  /-- `fcntl(F_GETFL)` of `disable_io_block` comes next. -/
  | gettingFlags (fd : ℤ)
  /-- `fcntl(F_SETFL)` of `disable_io_block` comes next. -/
  | settingFlags (fd : ℤ)
  /-- `calloc` comes next. -/
  | allocating (fd : ℤ)
  /-- `epoll_ctl(EPOLL_CTL_ADD)` comes next. -/
  | adding (fd : ℤ) (p : Ptr)
  /-- In the client branch. -/
  | handling (p : Ptr) (pc : Pc)
  /-- The loop was left, or a fault stopped the server. -/
  | exited
  deriving DecidableEq

/-- The server and what the kernel holds for it. -/
structure Server where
  serverFd : ℤ
  pc : MainPc
  /-- The rest of `pending_events`. -/
  batch : List Event
  /-- The live `fd_data` objects. -/
  heap : Ptr → Option FdData
  /-- The client descriptors that are open. -/
  opened : Finset ℤ
  /-- The client descriptors in the epoll instance, with their `data.ptr`. -/
  interest : ℤ → Option Ptr
  faults : List Fault

/-- What `epoll_wait` returns. -/
inductive WaitResult where
  | events (l : List Event)
  | interrupted
  | error
  deriving DecidableEq

/-- The answers of the system calls and of `calloc`, and the start of the next
event. -/
inductive ServerAct where
  | wait (r : WaitResult)
  | next
  /-- A negative descriptor is a failure. -/
  | accept (fd : ℤ)
  | getFlags (ok : Bool)
  | setFlags (ok : Bool)
  | calloc (p : Ptr)
  | add (ok : Bool)
  /-- A system call of the client branch returns. -/
  | client (a : Act)
  deriving DecidableEq

namespace Server

/-- At the top of the loop of `main`. -/
def init (serverFd : ℤ) : Server where
  serverFd := serverFd
  pc := .looping
  batch := []
  heap := fun _ => none
  opened := ∅
  interest := fun _ => none
  faults := []

variable (s : Server)

/-- Back to the loop of `main`. -/
def goto (pc : MainPc) : Server := { s with pc := pc }

/-- A fault stops the server. -/
def fault (f : Fault) : Server := { s with pc := .exited, faults := f :: s.faults }

/-- `close(fd)`, which takes the descriptor out of the epoll instance. -/
def close (fd : ℤ) : Server :=
  if fd ∈ s.opened then
    { s with opened := s.opened.erase fd, interest := Function.update s.interest fd none }
  else s.fault (.doubleClose fd)

/-- `free(p)`. -/
def free (p : Ptr) : Server :=
  if (s.heap p).isSome then { s with heap := Function.update s.heap p none }
  else s.fault (.doubleFree p)

/-- `epoll_ctl(EPOLL_CTL_ADD)` that succeeds. -/
def epollAdd (fd : ℤ) (p : Ptr) : Server :=
  { s with interest := Function.update s.interest fd (some p) }

/-- `epoll_ctl(EPOLL_CTL_MOD)` with `data.ptr = p`; a descriptor that is not
registered stays so. -/
def epollMod (fd : ℤ) (p : Ptr) : Server :=
  if (s.interest fd).isSome then s.epollAdd fd p else s

/-- `epoll_ctl(EPOLL_CTL_DEL)`. -/
def epollDel (fd : ℤ) : Server :=
  { s with interest := Function.update s.interest fd none }

/-- A store to an `fd_data`, or its allocation. -/
def setData (p : Ptr) (d : FdData) : Server :=
  { s with heap := Function.update s.heap p (some d) }

/-- `close_connection`, where `data` points to `d`.  Its `shutdown` changes
nothing that is modelled here. -/
def closeConnection (p : Ptr) (d : FdData) : Server :=
  if p ≠ NULL ∧ 0 ≤ d.fd then ((s.epollDel d.fd).close d.fd).free p else s

/-- What a step of the client branch does to the epoll instance. -/
def modify (p : Ptr) (d : FdData) : Act → Server
  | .rearm | .disarm => s.epollMod d.fd p
  | _ => s

/-- The client branch goes on at `pc`, or `process_epoll_event` returns. -/
def goOn (p : Ptr) (d : FdData) : Pc → Server
  | .waiting => s.goto .looping
  | .closed => (s.goto .looping).closeConnection p d
  | pc => s.goto (.handling p pc)

/-- One step of the client branch on the `fd_data` at `p`. -/
def clientBranch (p : Ptr) (pc : Pc) (a : Act) : Option Server :=
  match s.heap p with
  | none => some (s.fault (.useAfterFree p))
  | some d => (clientStep pc d a).map fun x => ((s.setData p x.2).modify p x.2 a).goOn p x.2 x.1

/-- `process_epoll_event`, up to its first system call. -/
def processEpollEvent (e : Event) : Option Server :=
  if dataFd e.data = s.serverFd then some (s.goto .accepting)
  else if e.data = NULL then some (s.goto .looping)
  else s.clientBranch e.data .waiting (.event e.events)

/-- One step of the server. -/
def step (s : Server) (a : ServerAct) : Option Server :=
  match s.pc, a with
  | .looping, .wait r =>
    if s.batch ≠ [] then none
    else
      match r with
      | .events l => some { s with batch := l }
      | .interrupted => some s
      | .error => some (s.goto .exited)
  | .looping, .next =>
    match s.batch with
    | [] => none
    | e :: rest => { s with batch := rest }.processEpollEvent e
  | .accepting, .accept fd =>
    if fd < 0 then some (s.goto .looping)
    else some ({ s with opened := insert fd s.opened }.goto (.gettingFlags fd))
  | .gettingFlags fd, .getFlags ok =>
    if ok then some (s.goto (.settingFlags fd)) else some ((s.goto .looping).close fd)
  | .settingFlags fd, .setFlags ok =>
    if ok then some (s.goto (.allocating fd)) else some ((s.goto .looping).close fd)
  | .allocating fd, .calloc p =>
    if p = NULL then some ((s.goto .looping).close fd)
    else some ((s.setData p (FdData.new fd)).goto (.adding fd p))
  | .adding fd p, .add ok =>
    if ok then some ((s.goto .looping).epollAdd fd p)
    else some (((s.goto .looping).free p).close fd)
  | .handling p pc, .client a => s.clientBranch p pc a
  | _, _ => none

end Server

/-! ## What the kernel and `calloc` promise -/

/-- The event carries the data word that its descriptor is registered with. -/
def Announces (s : Server) (e : Event) : Prop :=
  if e.source = s.serverFd then dataFd e.data = s.serverFd
  else s.interest e.source = some e.data

instance (s : Server) (e : Event) : Decidable (Announces s e) :=
  inferInstanceAs (Decidable (ite _ _ _))

/-- The promises of `epoll_wait`: one event at most for each registered
descriptor. -/
def waitPromise (s : Server) : WaitResult → Prop
  | .events l =>
    l.length ≤ MAX_EVENTS ∧ (l.map Event.source).Nodup ∧ ∀ e ∈ l, Announces s e
  | _ => True

/-- A batch has one event at most for each registered descriptor; `accept` returns
a descriptor that is not open; `calloc` returns an address that is not in use, be its
low half the listening descriptor or not. -/
def serverPromises (s : Server) : ServerAct → Prop
  | .wait r => waitPromise s r
  | .accept fd => 0 ≤ fd → fd ∉ s.opened ∧ fd ≠ s.serverFd
  | .calloc p => p ≠ NULL → s.heap p = none
  | _ => True

instance (s : Server) : (r : WaitResult) → Decidable (waitPromise s r)
  | .events _ => inferInstanceAs (Decidable (_ ∧ _ ∧ _))
  | .interrupted | .error => inferInstanceAs (Decidable True)

instance (s : Server) : (a : ServerAct) → Decidable (serverPromises s a)
  | .wait r => inferInstanceAs (Decidable (waitPromise s r))
  | .accept _ => inferInstanceAs (Decidable (_ → _ ∧ _))
  | .calloc _ => inferInstanceAs (Decidable (_ → _))
  | .next | .getFlags _ | .setFlags _ | .add _ | .client _ => inferInstanceAs (Decidable True)

end Epoll
end CaosSeminars
