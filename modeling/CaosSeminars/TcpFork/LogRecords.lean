import CaosSeminars.Library.Stdio
import CaosSeminars.TcpEcho.Session

/-!
# The log of the forking server

When the output of `tcp-fork/tcp_server.c` goes to a file, `stdout` is fully buffered: what
`printf` is given stays in the buffer of the process until the buffer is full or the process
exits.  The parent prints a line about each connection right before it forks, and does not
flush.  Its child inherits the line, and all others that are still in the buffer, and writes
them out when it exits.  (A child that has terminated is gone at once here; how it is reaped
has no influence on what is printed.)

A record is what one call of `printf` is given.  Its bytes are stamped with its number and
their place in it, so that a byte that is twice in the file can be told from two bytes that
look alike.

Every byte is at most once in the file as long as every `fork` finds the buffer of the parent
empty; and a `fork` that finds it filled can be followed by steps after which a byte is twice in
the file (`writes_once_of_forksFlushed`).

* `IsPrinted` --- the bytes of the records so far; nothing else is in the file or in a
  buffer (`isPrinted_step`).
* `single_step` --- a step keeps every byte single, unless it is a `fork` with something in
  the buffer.
* `exists_run_of_child`, `exists_twice` --- a child can run to its end; after such a `fork`
  it and the parent can, and both write out the byte.
-/

namespace CaosSeminars
namespace TcpFork
namespace Log

open TcpEcho (Buffer Session)

/-! ## What is printed -/

/-- The bytes of a text. -/
def bytes (text : String) : List UInt8 := text.toList.map fun c => UInt8.ofNat c.toNat

/-- `%d`. -/
def decimal (n : ℕ) : List UInt8 := (Nat.toDigits 10 n).map fun c => UInt8.ofNat c.toNat

/-- `client_addr`, as it is printed. -/
structure Client where
  /-- What `inet_ntoa` makes of the address. -/
  host : List UInt8
  port : ℕ
  deriving DecidableEq

/-- `%s:%d`. -/
def Client.address (client : Client) : List UInt8 :=
  client.host ++ bytes ":" ++ decimal client.port

def serverListening (port : ℕ) : List UInt8 :=
  bytes "Server listening on port " ++ decimal port ++ bytes "\n"

def serverStarted (pid : ℕ) : List UInt8 :=
  bytes "Forking server started. Process PID: " ++ decimal pid ++ bytes "\n"

def newConnection (client : Client) : List UInt8 :=
  bytes "New connection from " ++ client.address ++ bytes "\n"

def spawned (pid : ℕ) : List UInt8 :=
  bytes "Spawned child process " ++ decimal pid ++ bytes " for client handling\n"

def handlingClient (pid : ℕ) (client : Client) : List UInt8 :=
  bytes "Child process " ++ decimal pid ++ bytes " handling client " ++ client.address ++ bytes "\n"

def clientDisconnected : List UInt8 := bytes "Client disconnected\n"

/-- What a child prints about a message. -/
def aboutMessage (pid : ℕ) (text : List UInt8) : List UInt8 :=
  bytes "[Child " ++ decimal pid ++ bytes "] " ++ text ++ bytes "\n"

def received (pid : ℕ) (msg : Buffer) : List UInt8 :=
  aboutMessage pid (bytes "Received: " ++ TcpEcho.stringAt msg)

def quitReceived (pid : ℕ) : List UInt8 := aboutMessage pid (bytes "Quit command received")

def echoedBack (pid : ℕ) (msg : Buffer) : List UInt8 :=
  aboutMessage pid (bytes "Echoed back: " ++ TcpEcho.stringAt msg)

def childExiting (pid : ℕ) : List UInt8 :=
  bytes "Child process " ++ decimal pid ++ bytes " exiting\n"

/-- The calls of `printf` that a step of the session of a child is followed by. -/
def sessionPrints (pid : ℕ) (s : Session) : TcpEcho.Act → List (List UInt8)
  | .read .eof => [clientDisconnected]
  | .go =>
    match s.pc with
    | .received n =>
      if TcpEcho.Server.tcpFork.isQuit s.msg n then [received pid s.msg, quitReceived pid]
      else [received pid s.msg]
    | .echoed => [echoedBack pid s.msg]
    | _ => []
  | _ => []

/-- A byte of a record. -/
structure LogByte where
  record : ℕ
  index : ℕ
  byte : UInt8
  deriving DecidableEq

/-- The bytes of a record. -/
def stamp (record : ℕ) (text : List UInt8) : List LogByte :=
  text.zipIdx.map fun b => ⟨record, b.2, b.1⟩

/-! ## The server and its children -/

/-- Where the loop of `main` is. -/
inductive ParentPc where
  /-- `accept` comes next. -/
  | accepting
  /-- `fork` comes next. -/
  | forking (client : Client)
  /-- A signal has ended it. -/
  | over
  deriving DecidableEq

/-- A child that has not terminated. -/
structure Child where
  client : Client
  session : Session
  /-- It has left its loop. -/
  left : Bool

/-- What does not change. -/
structure Setup where
  /-- The size of the buffer of `stdout`. -/
  capacity : ℕ
  /-- The process identifier of the server. -/
  pid : ℕ
  port : ℕ
  /-- What `msg` holds in a child before its first `read`. -/
  junk : Buffer

/-- The processes and the file.  Between two calls that others answer a process does nothing
but print: `todo` holds the calls of `printf` that it still makes before its next step. -/
structure State where
  parent : ParentPc
  children : ℕ → Option Child
  todo : ℕ → List (List UInt8)
  stdout : Stdio LogByte
  /-- What `printf` was given so far, by any process. -/
  records : List (List UInt8)

/-- A call returns in a process, or a process prints, exits or is ended. -/
inductive Act where
  /-- A call of `printf`, and how many bytes it hands over to the file. -/
  | print (p k : ℕ)
  /-- `accept` returns a descriptor, or `-1`. -/
  | accept (client : Option Client)
  /-- `fork` returns a child, or `-1`. -/
  | fork (pid : Option ℕ)
  /-- A step of the session of a child. -/
  | serve (pid : ℕ) (a : TcpEcho.Act)
  /-- A child shuts its connection down and closes it. -/
  | leave (pid : ℕ)
  /-- A child calls `exit`. -/
  | exit (pid : ℕ)
  /-- A signal ends a process. -/
  | kill (p : ℕ)

/-- The server when `listen` has returned. -/
def State.init (setup : Setup) : State where
  parent := .accepting
  children := fun _ => none
  todo := Function.update (fun _ => []) setup.pid
    [serverListening setup.port, serverStarted setup.pid]
  stdout := Stdio.empty
  records := []

namespace State

variable (setup : Setup) (s : State)

/-- A call of `printf`, which leaves other calls to be made. -/
def onPrint (p : ℕ) (text : List UInt8) (rest : List (List UInt8)) (k : ℕ) : State :=
  { s with
    todo := Function.update s.todo p rest
    stdout := s.stdout.print p (stamp s.records.length text) k
    records := s.records ++ [text] }

/-- What `accept` leaves; a failure is reported on `stderr`. -/
def onAccept : Option Client → State
  | some client =>
    { s with
      parent := .forking client
      todo := Function.update s.todo setup.pid [newConnection client] }
  | none => s

/-- What `fork` leaves; a failure is reported on `stderr`. -/
def onFork (client : Client) : Option ℕ → State
  | some pid =>
    { s with
      parent := .accepting
      children := Function.update s.children pid
        (some ⟨client, Session.init setup.junk, false⟩)
      todo := Function.update (Function.update s.todo pid [handlingClient pid client]) setup.pid
        [spawned pid]
      stdout := s.stdout.copy setup.pid pid }
  | none => { s with parent := .accepting }

/-- A step of the session. -/
def onServe (pid : ℕ) (c : Child) (a : TcpEcho.Act) (session : Session) : State :=
  { s with
    children := Function.update s.children pid (some { c with session := session })
    todo := Function.update s.todo pid (sessionPrints pid c.session a) }

/-- The child has left its loop. -/
def onLeave (pid : ℕ) (c : Child) : State :=
  { s with
    children := Function.update s.children pid (some { c with left := true })
    todo := Function.update s.todo pid [childExiting pid] }

/-- `exit` flushes. -/
def onExit (pid : ℕ) : State :=
  { s with
    children := Function.update s.children pid none
    stdout := s.stdout.flush pid }

/-- A process that is ended by a signal does not. -/
def onKill (p : ℕ) : State :=
  { s with
    parent := if p = setup.pid then .over else s.parent
    children := Function.update s.children p none
    todo := Function.update s.todo p []
    stdout := s.stdout.drop p }

/-- One step. -/
def step (s : State) : Act → Option State
  | .print p k =>
    match s.todo p with
    | text :: rest =>
      if HandsOver setup.capacity ((s.stdout.buffer p).length + text.length) k then
        some (s.onPrint p text rest k)
      else none
    | [] => none
  | .accept client =>
    match s.parent, s.todo setup.pid with
    | .accepting, [] => some (s.onAccept setup client)
    | _, _ => none
  | .fork pid =>
    match s.parent, s.todo setup.pid with
    | .forking client, [] => some (s.onFork setup client pid)
    | _, _ => none
  | .serve pid a =>
    match s.children pid, s.todo pid with
    | some c, [] => (c.session.step .tcpFork a).map (s.onServe pid c a)
    | _, _ => none
  | .leave pid =>
    match s.children pid, s.todo pid with
    | some c, [] =>
      if c.session.pc.closed = true ∧ c.left = false then some (s.onLeave pid c) else none
    | _, _ => none
  | .exit pid =>
    match s.children pid, s.todo pid with
    | some c, [] => if c.left = true then some (s.onExit pid) else none
    | _, _ => none
  | .kill p => some (s.onKill setup p)

/-- What the kernel promises: the identifier of a new child is not in use. -/
def kernelAnswers (s : State) : Act → Prop
  | .fork (some pid) => pid ≠ setup.pid ∧ (s.children pid).isNone
  | .serve pid a =>
    match s.children pid with
    | some c => TcpEcho.kernelAnswers c.session a
    | none => True
  | _ => True

instance (s : State) : (a : Act) → Decidable (kernelAnswers setup s a)
  | .fork (some _) => inferInstanceAs (Decidable (_ ∧ _))
  | .serve pid a =>
    match h : s.children pid with
    | some c => decidable_of_iff (TcpEcho.kernelAnswers c.session a) (by simp [kernelAnswers, h])
    | none => isTrue (by simp [kernelAnswers, h])
  | .print _ _ | .accept _ | .fork none | .leave _ | .exit _ | .kill _ =>
    inferInstanceAs (Decidable True)

/-- A `fork` that makes a child finds nothing in the buffer of the parent. -/
def forksFlushed (s : State) : Act → Prop
  | .fork (some _) => s.stdout.buffer setup.pid = []
  | _ => True

instance (s : State) : (a : Act) → Decidable (forksFlushed setup s a)
  | .fork (some _) => inferInstanceAs (Decidable (_ = _))
  | .print _ _ | .accept _ | .fork none | .serve _ _ | .leave _ | .exit _ | .kill _ =>
    inferInstanceAs (Decidable True)

variable {setup s} {t : State} {a : Act}

/-! ## Bytes of records -/

/-- The byte is one of a record that was printed. -/
def IsPrinted (records : List (List UInt8)) (x : LogByte) : Prop :=
  ∃ text, records[x.record]? = some text ∧ text[x.index]? = some x.byte

variable {records : List (List UInt8)} {x : LogByte} {text : List UInt8}

theorem IsPrinted.append (h : IsPrinted records x) (text : List UInt8) :
    IsPrinted (records ++ [text]) x := by
  obtain ⟨old, hrecord, hbyte⟩ := h
  have hlt := (List.getElem?_eq_some_iff.mp hrecord).1
  exact ⟨old, by rw [List.getElem?_append_left hlt, hrecord], hbyte⟩

theorem mem_stamp {n : ℕ} : x ∈ stamp n text ↔ x.record = n ∧ text[x.index]? = some x.byte := by
  unfold stamp
  rw [List.mem_map]
  constructor
  · rintro ⟨⟨b, i⟩, hmem, rfl⟩
    exact ⟨rfl, List.mem_zipIdx_iff_getElem?.mp hmem⟩
  · rintro ⟨rfl, hbyte⟩
    exact ⟨(x.byte, x.index), List.mem_zipIdx_iff_getElem?.mpr hbyte, rfl⟩

theorem isPrinted_of_mem_stamp (h : x ∈ stamp records.length text) :
    IsPrinted (records ++ [text]) x := by
  obtain ⟨hrecord, hbyte⟩ := mem_stamp.mp h
  refine ⟨text, ?_, hbyte⟩
  rw [hrecord, List.getElem?_append_right (Nat.le_refl _), Nat.sub_self]
  rfl

/-- The bytes of the next record are new. -/
theorem IsPrinted.notMem_stamp (h : IsPrinted records x) : x ∉ stamp records.length text := by
  intro hmem
  obtain ⟨old, hrecord, -⟩ := h
  have hlt := (List.getElem?_eq_some_iff.mp hrecord).1
  have heq := (mem_stamp.mp hmem).1
  omega

theorem nodup_stamp (n : ℕ) (text : List UInt8) : (stamp n text).Nodup := by
  refine List.Nodup.of_map LogByte.index ?_
  have hindex : (stamp n text).map LogByte.index = List.range' 0 text.length := by
    rw [← List.zipIdx_map_snd 0 text, stamp, List.map_map]
    rfl
  rw [hindex]
  exact List.nodup_range'

/-! ## What a step does to the output -/

/-- What a step does to the file and the buffers. -/
inductive Output (setup : Setup) (s : State) (a : Act) (t : State) : Prop
  | same (hrecords : t.records = s.records) (hout : t.stdout = s.stdout)
  | print (p : ℕ) (text : List UInt8) (k : ℕ) (hrecords : t.records = s.records ++ [text])
      (hout : t.stdout = s.stdout.print p (stamp s.records.length text) k)
  | copy (pid : ℕ) (hact : a = .fork (some pid)) (hrecords : t.records = s.records)
      (hout : t.stdout = s.stdout.copy setup.pid pid)
  | flush (pid : ℕ) (hrecords : t.records = s.records) (hout : t.stdout = s.stdout.flush pid)
  | drop (p : ℕ) (hrecords : t.records = s.records) (hout : t.stdout = s.stdout.drop p)

/-- The inversion of `step`: later proofs split on `Output`. -/
theorem output_of_step (hstep : s.step setup a = some t) : Output setup s a t := by
  cases a with
  | print p k =>
    simp only [step] at hstep
    split at hstep
    · obtain ⟨-, ⟨⟩⟩ := Option.ite_none_right_eq_some.mp hstep
      exact Output.print p _ k rfl rfl
    · cases hstep
  | accept client =>
    simp only [step] at hstep
    split at hstep
    · obtain rfl := Option.some.inj hstep
      cases client <;> exact Output.same rfl rfl
    · cases hstep
  | fork pid =>
    simp only [step] at hstep
    split at hstep
    · obtain rfl := Option.some.inj hstep
      cases pid with
      | none => exact Output.same rfl rfl
      | some pid => exact Output.copy pid rfl rfl rfl
    · cases hstep
  | serve pid a =>
    simp only [step] at hstep
    split at hstep
    · obtain ⟨session, -, rfl⟩ := Option.map_eq_some_iff.mp hstep
      exact Output.same rfl rfl
    · cases hstep
  | leave pid =>
    simp only [step] at hstep
    split at hstep
    · obtain ⟨-, ⟨⟩⟩ := Option.ite_none_right_eq_some.mp hstep
      exact Output.same rfl rfl
    · cases hstep
  | exit pid =>
    simp only [step] at hstep
    split at hstep
    · obtain ⟨-, ⟨⟩⟩ := Option.ite_none_right_eq_some.mp hstep
      exact Output.flush pid rfl rfl
    · cases hstep
  | kill p =>
    obtain rfl := Option.some.inj hstep
    exact Output.drop p rfl rfl

/-- **Nothing is in the file or in a buffer but bytes of records.** -/
theorem isPrinted_step (h : s.stdout.All (IsPrinted s.records)) (hstep : s.step setup a = some t) :
    t.stdout.All (IsPrinted t.records) := by
  cases output_of_step hstep with
  | same hrecords hout =>
    rw [hrecords, hout]
    exact h
  | print p text k hrecords hout =>
    rw [hrecords, hout]
    exact (h.mono fun _ hx => hx.append text).print fun _ => isPrinted_of_mem_stamp
  | copy pid _ hrecords hout =>
    rw [hrecords, hout]
    exact h.copy
  | flush pid hrecords hout =>
    rw [hrecords, hout]
    exact h.flush
  | drop p hrecords hout =>
    rw [hrecords, hout]
    exact h.drop

/-- **A step keeps every byte single**, if a `fork` finds the buffer of the parent empty. -/
theorem single_step (h : s.stdout.Single) (hprinted : s.stdout.All (IsPrinted s.records))
    (hflushed : forksFlushed setup s a) (hstep : s.step setup a = some t) : t.stdout.Single := by
  cases output_of_step hstep with
  | same _ hout => exact hout ▸ h
  | print p text k _ hout =>
    rw [hout]
    exact h.print (nodup_stamp _ _) (hprinted.mono fun _ hx => hx.notMem_stamp)
  | copy pid hact _ hout =>
    subst hact
    rw [hout]
    exact h.copy hflushed
  | flush pid _ hout => exact hout ▸ h.flush
  | drop p _ hout => exact hout ▸ h.drop

/-! ## A fork with something in the buffer -/

/-- What there is after a process has printed all it had to. -/
structure Printed (p : ℕ) (s t : State) : Prop where
  parent : t.parent = s.parent
  children : t.children = s.children
  todo : t.todo = Function.update s.todo p []
  buffer : ∀ q, q ≠ p → t.stdout.buffer q = s.stdout.buffer q
  held : ∀ x, s.stdout.held p x ≤ t.stdout.held p x

theorem printed_onPrint (s : State) (p : ℕ) (text : List UInt8) (k : ℕ) :
    Printed p s (s.onPrint p text [] k) where
  parent := rfl
  children := rfl
  todo := rfl
  buffer _ hq := Stdio.buffer_print_of_ne _ hq _ _
  held x := by
    show _ ≤ (s.stdout.print _ _ _).held p x
    rw [Stdio.held_print_self]
    exact Nat.le_add_right _ _

/-- `printf` can always be called; it hands over nothing, or everything. -/
theorem exists_print (setup : Setup) {p : ℕ} (htodo : s.todo p = [text]) :
    ∃ k t, s.step setup (.print p k) = some t ∧ Printed p s t := by
  have hhands := handsOver_handOver setup.capacity ((s.stdout.buffer p).length + text.length)
  refine ⟨handOver setup.capacity ((s.stdout.buffer p).length + text.length),
    s.onPrint p text [] (handOver setup.capacity ((s.stdout.buffer p).length + text.length)), ?_,
    printed_onPrint s p text _⟩
  simp only [step, htodo]
  exact if_pos hhands

/-- The steps of a child from `s` to `t`: the parent is as it was, and the child still holds
what it held. -/
structure ByChild (setup : Setup) (pid : ℕ) (x : LogByte) (s t : State) : Prop where
  parent : t.parent = s.parent
  todo : t.todo setup.pid = s.todo setup.pid
  buffer : t.stdout.buffer setup.pid = s.stdout.buffer setup.pid
  held : s.stdout.held pid x ≤ t.stdout.held pid x

variable {pid : ℕ} {c : Child} {u : State}

theorem ByChild.trans (h : ByChild setup pid x s t) (h' : ByChild setup pid x t u) :
    ByChild setup pid x s u where
  parent := h'.parent.trans h.parent
  todo := h'.todo.trans h.todo
  buffer := h'.buffer.trans h.buffer
  held := Nat.le_trans h.held h'.held

theorem exists_print_of_child (hpid : pid ≠ setup.pid) (hchild : s.children pid = some c)
    (htodo : s.todo pid = [text]) (x : LogByte) :
    ∃ k t, s.step setup (.print pid k) = some t ∧ t.children pid = some c ∧ t.todo pid = [] ∧
      ByChild setup pid x s t := by
  obtain ⟨k, t, hstep, h⟩ := exists_print setup htodo
  refine ⟨k, t, hstep, ?_, ?_, h.parent, ?_, h.buffer _ hpid.symm, h.held x⟩
  · rw [h.children, hchild]
  · rw [h.todo, Function.update_self]
  · rw [h.todo, Function.update_of_ne hpid.symm]

theorem byChild_update (hpid : pid ≠ setup.pid) (c : Option Child) (texts : List (List UInt8)) :
    ByChild setup pid x s
      { s with
        children := Function.update s.children pid c
        todo := Function.update s.todo pid texts } where
  parent := rfl
  todo := Function.update_of_ne hpid.symm _ _
  buffer := rfl
  held := Nat.le_refl _

theorem exists_disconnect (hpid : pid ≠ setup.pid) (hchild : s.children pid = some c)
    (hreading : c.session.pc = .reading) (htodo : s.todo pid = []) (x : LogByte) :
    ∃ t c', s.step setup (.serve pid (.read .eof)) = some t ∧ t.children pid = some c' ∧
      c'.session.pc = .disconnected ∧ c'.left = c.left ∧ t.todo pid = [clientDisconnected] ∧
      ByChild setup pid x s t := by
  obtain ⟨session, hsession, hpc⟩ : ∃ session,
      c.session.step .tcpFork (.read .eof) = some session ∧ session.pc = .disconnected := by
    simp only [Session.step, hreading]
    exact ⟨_, rfl, rfl⟩
  refine ⟨s.onServe pid c (.read .eof) session, _, ?_, Function.update_self _ _ _, hpc, rfl,
    Function.update_self _ _ _, byChild_update hpid _ _⟩
  simp only [step, hchild, htodo, hsession, Option.map_some]

/-- **A child can run to its end**, and then all that it held is in the file. -/
theorem exists_run_of_child (hpid : pid ≠ setup.pid) (hchild : s.children pid = some c)
    (hreading : c.session.pc = .reading) (hleft : c.left = false) (htodo : s.todo pid = [text])
    (x : LogByte) :
    ∃ as t, Trace (step setup) (kernelAnswers setup) s as t ∧ t.parent = s.parent ∧
      t.todo setup.pid = s.todo setup.pid ∧
      t.stdout.buffer setup.pid = s.stdout.buffer setup.pid ∧ t.children pid = none ∧
      s.stdout.held pid x ≤ t.stdout.file.count x := by
  obtain ⟨k₁, s₁, hstep₁, hchild₁, htodo₁, hby₁⟩ := exists_print_of_child hpid hchild htodo x
  obtain ⟨s₂, c', hstep₂, hchild₂, hpc, hleft', htodo₂, hby₂⟩ :=
    exists_disconnect hpid hchild₁ hreading htodo₁ x
  obtain ⟨k₃, s₃, hstep₃, hchild₃, htodo₃, hby₃⟩ := exists_print_of_child hpid hchild₂ htodo₂ x
  -- it leaves its loop
  have hclosed : c'.session.pc.closed = true ∧ c'.left = false :=
    ⟨by rw [hpc]; rfl, hleft'.trans hleft⟩
  have hstep₄ : s₃.step setup (.leave pid) = some (s₃.onLeave pid c') := by
    simp only [step, hchild₃, htodo₃]
    exact if_pos hclosed
  have hby₄ : ByChild setup pid x s₃ (s₃.onLeave pid c') := byChild_update hpid _ _
  obtain ⟨k₅, s₅, hstep₅, hchild₅, htodo₅, hby₅⟩ :=
    exists_print_of_child (s := s₃.onLeave pid c') hpid (Function.update_self _ _ _)
      (Function.update_self _ _ _) x
  -- it exits
  have hstep₆ : s₅.step setup (.exit pid) = some (s₅.onExit pid) := by
    simp only [step, hchild₅, htodo₅]
    rfl
  have hby := hby₁.trans (hby₂.trans (hby₃.trans (hby₄.trans hby₅)))
  have hok : kernelAnswers setup s₁ (.serve pid (.read .eof)) := by
    simp only [kernelAnswers, hchild₁, TcpEcho.kernelAnswers]
  refine ⟨[.print pid k₁, .serve pid (.read .eof), .print pid k₃, .leave pid, .print pid k₅,
    .exit pid], s₅.onExit pid, .cons trivial hstep₁ (.cons hok hstep₂ (.cons trivial hstep₃
    (.cons trivial hstep₄ (.cons trivial hstep₅ (.cons trivial hstep₆ (.nil _)))))),
    hby.parent, hby.todo, ?_, Function.update_self _ _ _, ?_⟩
  · exact (Stdio.buffer_flush_of_ne _ hpid.symm).trans hby.buffer
  · show _ ≤ (s₅.stdout.flush pid).file.count x
    rw [Stdio.count_flush]
    exact hby.held

theorem exists_run_of_fork (client : Client) (hpid : pid ≠ setup.pid) (x : LogByte) :
    ∃ as t, Trace (step setup) (kernelAnswers setup) (s.onFork setup client (some pid)) as t ∧
      t.parent = .accepting ∧ t.todo setup.pid = [spawned pid] ∧
      t.stdout.buffer setup.pid = s.stdout.buffer setup.pid ∧ t.children pid = none ∧
      s.stdout.held setup.pid x ≤ t.stdout.file.count x := by
  have htodo : (s.onFork setup client (some pid)).todo pid = [handlingClient pid client] :=
    (Function.update_of_ne hpid _ _).trans (Function.update_self _ _ _)
  obtain ⟨as, t, htrace, hparent, htodo', hbuffer, hchild, hcount⟩ :=
    exists_run_of_child (s := s.onFork setup client (some pid)) hpid
      (Function.update_self _ _ _) rfl rfl htodo x
  refine ⟨as, t, htrace, hparent, htodo'.trans (Function.update_self _ _ _),
    hbuffer.trans (Stdio.buffer_copy_of_ne _ hpid.symm), hchild, ?_⟩
  have hheld : (s.onFork setup client (some pid)).stdout.held pid x =
    s.stdout.held setup.pid x := Stdio.held_copy _ _ _ _
  rw [← hheld]
  exact hcount

/-- **A byte that is in the buffer when a child is made can get into the file twice.**  The
child runs to its end; the next connection gets a child as well, and so does that one. -/
theorem exists_twice {client : Client} (hpid : pid ≠ setup.pid)
    (hx : x ∈ s.stdout.buffer setup.pid) :
    ∃ as t, Trace (step setup) (kernelAnswers setup) (s.onFork setup client (some pid)) as t ∧
      2 ≤ t.stdout.file.count x := by
  obtain ⟨as₁, s₁, htrace₁, hparent₁, htodo₁, hbuffer₁, hchild₁, hcount₁⟩ :=
    exists_run_of_fork (s := s) client hpid x
  -- the parent still has the byte in its buffer, and so does the file
  have htwice₁ : 2 ≤ s₁.stdout.held setup.pid x := by
    have hpos := List.count_pos_iff.mpr hx
    rw [Stdio.held, hbuffer₁]
    unfold Stdio.held at hcount₁
    omega
  -- it goes on to the next connection
  obtain ⟨k₂, s₂, hstep₂, h₂⟩ := exists_print setup htodo₁
  have hparent₂ : s₂.parent = .accepting := h₂.parent.trans hparent₁
  have htodo₂ : s₂.todo setup.pid = [] := by rw [h₂.todo, Function.update_self]
  have hstep₃ : s₂.step setup (.accept (some client)) = some (s₂.onAccept setup (some client)) := by
    simp only [step, hparent₂, htodo₂]
  obtain ⟨k₄, s₄, hstep₄, h₄⟩ := exists_print setup
    (s := s₂.onAccept setup (some client)) (Function.update_self _ _ _)
  have hparent₄ : s₄.parent = .forking client := h₄.parent
  have htodo₄ : s₄.todo setup.pid = [] := by rw [h₄.todo, Function.update_self]
  have hstep₅ : s₄.step setup (.fork (some pid)) = some (s₄.onFork setup client (some pid)) := by
    simp only [step, hparent₄, htodo₄]
  have hchild₄ : s₄.children pid = none := by
    rw [h₄.children]
    show s₂.children pid = none
    rw [h₂.children, hchild₁]
  have hfresh : kernelAnswers setup s₄ (.fork (some pid)) := ⟨hpid, by rw [hchild₄]; rfl⟩
  have htwice₄ : 2 ≤ s₄.stdout.held setup.pid x :=
    htwice₁.trans ((h₂.held x).trans (h₄.held x))
  -- the second child has the byte from the parent
  obtain ⟨as₆, t, htrace₆, -, -, -, -, hcount₆⟩ :=
    exists_run_of_fork (s := s₄) client hpid x
  have htrace : Trace (step setup) (kernelAnswers setup) s₁ (.print setup.pid k₂ ::
      .accept (some client) :: .print setup.pid k₄ :: .fork (some pid) :: as₆) t :=
    .cons trivial hstep₂ (.cons trivial hstep₃ (.cons trivial hstep₄ (.cons hfresh hstep₅ htrace₆)))
  exact ⟨_, t, htrace₁.append htrace, htwice₄.trans hcount₆⟩

/-- **Once at most.**  In every run in which each `fork` that makes a child finds the buffer of
the parent empty, no byte of a record is in the file twice.  Wherever a `fork` makes a child and
finds something in the buffer, the run can go on until a byte of a record is in the file twice. -/
theorem writes_once_of_forksFlushed (setup : Setup) {as : List Act} {s : State}
    (h : Trace (step setup) (kernelAnswers setup) (init setup) as s) :
    (Trace (step setup) (forksFlushed setup) (init setup) as s →
      ∀ x, s.stdout.file.count x ≤ 1) ∧
    ∀ pid t, kernelAnswers setup s (.fork (some pid)) → ¬forksFlushed setup s (.fork (some pid)) →
      s.step setup (.fork (some pid)) = some t →
        ∃ bs u, Trace (step setup) (kernelAnswers setup) t bs u ∧
          ∃ x, IsPrinted u.records x ∧ 2 ≤ u.stdout.file.count x := by
  have hprinted := h.invariant (P := fun s => s.stdout.All (IsPrinted s.records))
    (fun _ _ _ hs _ hstep => isPrinted_step hs hstep) Stdio.all_empty
  constructor
  · intro hflushed x
    have hsound := hflushed.invariant
      (P := fun s => s.stdout.All (IsPrinted s.records) ∧ s.stdout.Single)
      (fun _ _ _ hs hok hstep => ⟨isPrinted_step hs.1 hstep, single_step hs.2 hs.1 hok hstep⟩)
      ⟨Stdio.all_empty, Stdio.single_empty⟩
    exact hsound.2.count_file_le x
  · intro pid t hok hfilled hstep
    obtain ⟨x, hx⟩ := List.exists_mem_of_ne_nil _ hfilled
    have hprinted' := isPrinted_step hprinted hstep
    simp only [step] at hstep
    split at hstep
    · obtain rfl := Option.some.inj hstep
      obtain ⟨bs, u, htrace, htwice⟩ := exists_twice hok.1 hx
      have hprinted'' := htrace.invariant (P := fun s => s.stdout.All (IsPrinted s.records))
        (fun _ _ _ hs _ hstep => isPrinted_step hs hstep) hprinted'
      have hmem : x ∈ u.stdout.file := List.count_pos_iff.mp (by omega)
      exact ⟨bs, u, htrace, x, hprinted''.file x hmem, htwice⟩
    · cases hstep

/-- A client on the same machine. -/
def localClient : Client := ⟨bytes "127.0.0.1", 5000⟩

/-- The steps of a child whose client disconnects; nothing goes to the file before `exit`. -/
def childRun (pid : ℕ) : List Act :=
  [.print pid 0, .serve pid (.read .eof), .print pid 0, .leave pid, .print pid 0, .exit pid]

/-- A server with the process identifier `100`. -/
def setupOf (capacity : ℕ) : Setup := ⟨capacity, 100, 8080, CArray.replicate _ 0⟩

/-- The server is stopped after two clients. -/
def twoClients : List Act :=
  [.print 100 0, .print 100 0, .accept (some localClient), .print 100 0, .fork (some 101),
    .print 100 0, .accept (some localClient), .print 100 0, .fork (some 102), .print 100 0] ++
  childRun 101 ++ childRun 102 ++ [.kill 100]

/-- **The line that the server prints when it starts is twice in the file**, in full. -/
theorem writes_twice_twoClients :
    ∃ s, Trace (step (setupOf 4096)) (kernelAnswers (setupOf 4096)) (init (setupOf 4096))
        twoClients s ∧
      s.parent = .over ∧ s.children 101 = none ∧ s.children 102 = none ∧
      s.records[0]? = some (serverListening 8080) ∧
      ∀ x ∈ stamp 0 (serverListening 8080), s.stdout.file.count x = 2 := by
  obtain ⟨s, htrace, hp⟩ := Trace.exists_of_eval (step (setupOf 4096))
    (kernelAnswers (setupOf 4096))
    (fun s => s.parent = .over ∧ (s.children 101).isNone ∧ (s.children 102).isNone ∧
      s.records[0]? = some (serverListening 8080) ∧
      ∀ x ∈ stamp 0 (serverListening 8080), s.stdout.file.count x = 2)
    (init (setupOf 4096)) twoClients (by decide +kernel)
  obtain ⟨hparent, hone, htwo, hrecord, hcount⟩ := of_decide_eq_true hp
  exact ⟨s, htrace, hparent, Option.isNone_iff_eq_none.mp hone, Option.isNone_iff_eq_none.mp htwo,
    hrecord, hcount⟩

/-- A small buffer: the line about the connection fills it, and goes to the file. -/
def smallBuffer : List Act :=
  [.print 100 0, .print 100 71, .accept (some localClient), .print 100 35, .fork (some 101),
    .print 101 45, .serve 101 (.read .eof), .print 101 0]

/-- The child has an empty buffer to start with. -/
theorem writes_once_smallBuffer :
    ∃ s, Trace (step (setupOf 32)) (kernelAnswers (setupOf 32)) (init (setupOf 32)) smallBuffer s ∧
      s.stdout.file ≠ [] ∧ ∀ x, s.stdout.file.count x ≤ 1 := by
  obtain ⟨s, htrace, hp⟩ := Trace.exists_of_eval (step (setupOf 32))
    (fun s a => kernelAnswers (setupOf 32) s a ∧ forksFlushed (setupOf 32) s a)
    (fun s => s.stdout.file ≠ []) (init (setupOf 32)) smallBuffer (by decide +kernel)
  have hok := htrace.mono fun _ _ h => h.1
  have hflushed := htrace.mono fun _ _ h => h.2
  exact ⟨s, hok, of_decide_eq_true hp, (writes_once_of_forksFlushed (setupOf 32) hok).1 hflushed⟩

end State
end Log
end TcpFork
end CaosSeminars
