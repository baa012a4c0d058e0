import Mathlib.Data.Finset.Insert
import Mathlib.Logic.Function.Basic
import CaosSeminars.Library.Trace

/-!
# Who holds a connection

`tcp-fork/tcp_server.c` accepts a connection, forks, and closes its own descriptor of it,
whether `fork` has worked or not.  The child has a copy of all descriptors of its parent; it
closes the listening one, serves the connection, shuts it down, closes it and exits.

A connection is held by every process that has a descriptor of it.  Its client sees the end
of the stream when somebody has shut it down, or nobody holds it any more.

The parent may be slow: a child can run to its end before the parent has closed its copy, and
then the parent alone holds the connection (`held_by_parent`).  That is over at the next loop
head, and a child that has left its loop has shut the connection down before.

* `Child.Inv`, `Child.Inv.step` --- what a child has open, told from where it is.
* `Server.Inv.of_parent`, `Server.Inv.of_child` --- a step of the parent leaves the children
  as they are, and a step of a child leaves the rest.
* `Server.Inv.closing_of_held` --- a connection whose child has terminated is held by the
  parent or by nobody.
* `descriptors_isolated` --- who holds what, and when the client sees the end, in every
  state of every run.
-/

namespace CaosSeminars
namespace TcpFork

/-- What a descriptor stands for. -/
inductive Desc where
  | std
  /-- `server_fd`. -/
  | listening
  /-- A connection; the connections are numbered as they are accepted. -/
  | conn (i : ℕ)
  deriving DecidableEq

/-- The descriptors of a process. -/
abbrev Fds := ℕ → Option Desc

/-- The standard descriptors `0`, `1` and `2`. -/
def stdFds : Fds := fun fd => if fd < 3 then some .std else none

/-- The standard descriptors and `server_fd`. -/
def listenFds (server_fd : ℕ) : Fds := Function.update stdFds server_fd (some .listening)

/-- The standard descriptors and that of a connection. -/
def clientFds (client_fd i : ℕ) : Fds := Function.update stdFds client_fd (some (.conn i))

/-- Where the loop of `main` is. -/
inductive LoopPc where
  /-- The loop head: `accept` comes next. -/
  | accepting
  /-- `fork` comes next. -/
  | forking (client_fd i : ℕ)
  /-- `fork` has returned to the parent, a child or not: `close(client_fd)` comes next. -/
  | closing (client_fd i : ℕ)
  deriving DecidableEq

/-- Where a child is. -/
inductive ChildPc where
  /-- `close(server_fd)` comes next. -/
  | started
  /-- In its session loop. -/
  | serving
  /-- The loop was left: `shutdown(client_fd, SHUT_RDWR)` comes next. -/
  | leaving
  /-- `close(client_fd)` comes next. -/
  | closing
  /-- `exit(0)` comes next. -/
  | exiting
  | exited
  /-- A signal has ended it. -/
  | killed
  deriving DecidableEq

/-- The child has terminated. -/
def ChildPc.over : ChildPc → Bool
  | .exited | .killed => true
  | _ => false

/-- The child has started to serve, and has not closed its connection. -/
def ChildPc.serves : ChildPc → Bool
  | .serving | .leaving | .closing => true
  | _ => false

/-- A child and its descriptors. -/
structure Child where
  pc : ChildPc
  client_fd : ℕ
  fds : Fds

/-- What a child does. -/
inductive ChildAct where
  | closeServer
  /-- A step of the session. -/
  | serve
  | leave
  | shutdown
  | closeClient
  | exit
  | kill
  deriving DecidableEq

/-- One step of a child.  A process that terminates has its descriptors closed. -/
def Child.step (server_fd : ℕ) (c : Child) (a : ChildAct) : Option Child :=
  match c.pc, a with
  | .started, .closeServer =>
    some { c with pc := .serving, fds := Function.update c.fds server_fd none }
  | .serving, .serve => some c
  | .serving, .leave => some { c with pc := .leaving }
  | .leaving, .shutdown => some { c with pc := .closing }
  | .closing, .closeClient =>
    some { c with pc := .exiting, fds := Function.update c.fds c.client_fd none }
  | .exiting, .exit => some { c with pc := .exited, fds := fun _ => none }
  | pc, .kill => if pc.over then none else some { c with pc := .killed, fds := fun _ => none }
  | _, _ => none

/-- The parent, its children, each under the number of its connection, and the connections
that were shut down. -/
structure Server where
  pc : LoopPc
  fds : Fds
  /-- How many connections were accepted. -/
  accepted : ℕ
  children : ℕ → Option Child
  shut : Finset ℕ

/-- The server before its first `accept`. -/
def Server.init (server_fd : ℕ) : Server :=
  ⟨.accepting, listenFds server_fd, 0, fun _ => none, ∅⟩

/-- A call of the parent returns, or a child moves. -/
inductive ServerAct where
  /-- `accept` returns a descriptor that was not in use, or `-1`. -/
  | accept (fd : Option ℕ)
  /-- `fork` makes a child, or returns `-1`. -/
  | fork (ok : Bool)
  /-- `close(client_fd)`. -/
  | close
  | child (i : ℕ) (a : ChildAct)
  deriving DecidableEq

/-- One step of the parent or of a child. -/
def Server.step (server_fd : ℕ) (s : Server) (a : ServerAct) : Option Server :=
  match s.pc, a with
  | .accepting, .accept none => some s
  | .accepting, .accept (some fd) =>
    if s.fds fd = none then
      some { s with
        pc := .forking fd s.accepted
        fds := Function.update s.fds fd (some (.conn s.accepted))
        accepted := s.accepted + 1 }
    else none
  | .forking client_fd i, .fork true =>
    some { s with
      pc := .closing client_fd i
      children := Function.update s.children i (some ⟨.started, client_fd, s.fds⟩) }
  | .forking client_fd i, .fork false => some { s with pc := .closing client_fd i }
  | .closing client_fd _, .close =>
    some { s with pc := .accepting, fds := Function.update s.fds client_fd none }
  | _, .child i a =>
    match s.children i with
    | none => none
    | some c =>
      (c.step server_fd a).map fun c' =>
        { s with
          children := Function.update s.children i (some c')
          shut := if a = .shutdown then insert i s.shut else s.shut }
  | _, _ => none

/-- Some process has a descriptor of the connection. -/
def Server.Held (s : Server) (i : ℕ) : Prop :=
  (∃ fd, s.fds fd = some (.conn i)) ∨
    ∃ j c, s.children j = some c ∧ ∃ fd, c.fds fd = some (.conn i)

/-- The client of the connection sees the end of the stream. -/
def Server.EndOfStream (s : Server) (i : ℕ) : Prop := i ∈ s.shut ∨ ¬s.Held i

/-! ## Descriptors -/

variable {server_fd client_fd fd i j : ℕ}

theorem stdFds_ne_conn : stdFds fd ≠ some (.conn i) := by
  unfold stdFds
  split <;> simp

theorem listenFds_ne_conn : listenFds server_fd fd ≠ some (.conn i) := by
  unfold listenFds
  by_cases hfd : fd = server_fd
  · rw [hfd, Function.update_self]
    simp
  · rw [Function.update_of_ne hfd]
    exact stdFds_ne_conn

/-- The connection added to a table without connections is the only one in it. -/
theorem eq_of_conn {fds : Fds} (hfds : ∀ fd j, fds fd ≠ some (.conn j))
    (h : Function.update fds client_fd (some (.conn i)) fd = some (.conn j)) : j = i := by
  by_cases hfd : fd = client_fd
  · rw [hfd, Function.update_self] at h
    exact (Desc.conn.inj (Option.some.inj h)).symm
  · rw [Function.update_of_ne hfd] at h
    exact absurd h (hfds fd j)

theorem update_update_none {fds : Fds} {d : Option Desc} (h : fds fd = none) :
    Function.update (Function.update fds fd d) fd none = fds := by
  rw [Function.update_idem, ← h, Function.update_eq_self]

/-- The child closes the listening descriptor of its parent's table. -/
theorem close_server (hserver : stdFds server_fd = none) (hne : client_fd ≠ server_fd) :
    Function.update (Function.update (listenFds server_fd) client_fd (some (.conn i)))
      server_fd none = clientFds client_fd i := by
  rw [Function.update_comm hne, listenFds, update_update_none hserver, clientFds]

/-- A descriptor that `accept` may return. -/
theorem unused_of_listenFds (h : listenFds server_fd fd = none) :
    fd ≠ server_fd ∧ stdFds fd = none := by
  have hne : fd ≠ server_fd := by
    rintro rfl
    rw [listenFds, Function.update_self] at h
    cases h
  rw [listenFds, Function.update_of_ne hne] at h
  exact ⟨hne, h⟩

/-! ## The invariant -/

/-- The descriptors of a child of connection `i`, one line for each place where it can be. -/
def Child.Ok (server_fd i : ℕ) (shut : Finset ℕ) (c : Child) : Prop :=
  match c.pc with
  | .started => c.fds = Function.update (listenFds server_fd) c.client_fd (some (.conn i))
  | .serving | .leaving => c.fds = clientFds c.client_fd i
  | .closing => c.fds = clientFds c.client_fd i ∧ i ∈ shut
  | .exiting => c.fds = stdFds ∧ i ∈ shut
  | .exited => c.fds = (fun _ => none) ∧ i ∈ shut
  | .killed => c.fds = fun _ => none

/-- What is known of a child of connection `i`. -/
structure Child.Inv (server_fd i : ℕ) (shut : Finset ℕ) (c : Child) : Prop where
  unused : c.client_fd ≠ server_fd ∧ stdFds c.client_fd = none
  ok : c.Ok server_fd i shut

/-- The parent's descriptors. -/
def Server.ParentOk (server_fd : ℕ) (s : Server) : Prop :=
  match s.pc with
  | .accepting => s.fds = listenFds server_fd
  | .forking client_fd i =>
    s.fds = Function.update (listenFds server_fd) client_fd (some (.conn i)) ∧
      listenFds server_fd client_fd = none ∧ i + 1 = s.accepted ∧ s.children i = none
  | .closing client_fd i =>
    s.fds = Function.update (listenFds server_fd) client_fd (some (.conn i)) ∧
      listenFds server_fd client_fd = none

/-- What is known of every reachable state. -/
structure Server.Inv (server_fd : ℕ) (s : Server) : Prop where
  parent : s.ParentOk server_fd
  children : ∀ i c, s.children i = some c → i < s.accepted ∧ c.Inv server_fd i s.shut

variable {shut shut' : Finset ℕ} {c c' : Child} {s s' : Server} {a : ServerAct}

theorem Child.Ok.mono (h : c.Ok server_fd i shut) (hshut : shut ⊆ shut') :
    c.Ok server_fd i shut' := by
  unfold Child.Ok at h ⊢
  cases hpc : c.pc <;> rw [hpc] at h
  case closing | exiting | exited => exact ⟨h.1, hshut h.2⟩
  all_goals exact h

theorem Child.Inv.step (hserver : stdFds server_fd = none) (h : c.Inv server_fd i shut)
    {a : ChildAct} (hstep : c.step server_fd a = some c') :
    c'.Inv server_fd i (if a = .shutdown then insert i shut else shut) := by
  obtain ⟨⟨hne, hunused⟩, hok⟩ := h
  unfold Child.Ok at hok
  unfold Child.step at hstep
  split at hstep
  · rename_i hpc
    obtain rfl := Option.some.inj hstep
    rw [hpc] at hok
    refine ⟨⟨hne, hunused⟩, ?_⟩
    show Function.update c.fds server_fd none = _
    rw [hok, close_server hserver hne]
  · rename_i hpc
    obtain rfl := Option.some.inj hstep
    refine ⟨⟨hne, hunused⟩, ?_⟩
    rw [hpc] at hok
    unfold Child.Ok
    rw [hpc]
    exact hok
  · rename_i hpc
    obtain rfl := Option.some.inj hstep
    rw [hpc] at hok
    exact ⟨⟨hne, hunused⟩, hok⟩
  · rename_i hpc
    obtain rfl := Option.some.inj hstep
    rw [hpc] at hok
    exact ⟨⟨hne, hunused⟩, hok, Finset.mem_insert_self i shut⟩
  · rename_i hpc
    obtain rfl := Option.some.inj hstep
    rw [hpc] at hok
    refine ⟨⟨hne, hunused⟩, ?_, hok.2⟩
    show Function.update c.fds c.client_fd none = stdFds
    rw [hok.1, clientFds, update_update_none hunused]
  · rename_i hpc
    obtain rfl := Option.some.inj hstep
    rw [hpc] at hok
    exact ⟨⟨hne, hunused⟩, rfl, hok.2⟩
  · split at hstep
    · cases hstep
    · obtain rfl := Option.some.inj hstep
      exact ⟨⟨hne, hunused⟩, rfl⟩
  · cases hstep

theorem Server.inv_init (server_fd : ℕ) : (Server.init server_fd).Inv server_fd :=
  ⟨rfl, fun _ _ h => by cases h⟩

/-- A step of the parent that leaves the children as they are. -/
theorem Server.Inv.of_parent (h : s.Inv server_fd) (hparent : s'.ParentOk server_fd)
    (haccepted : s.accepted ≤ s'.accepted) (hchildren : s'.children = s.children)
    (hshut : s'.shut = s.shut) : s'.Inv server_fd where
  parent := hparent
  children i c hc := by
    rw [hchildren] at hc
    obtain ⟨hlt, hinv⟩ := h.children i c hc
    rw [hshut]
    exact ⟨lt_of_lt_of_le hlt haccepted, hinv⟩

/-- A step of a child leaves the parent and the other children as they are. -/
theorem Server.Inv.of_child (hserver : stdFds server_fd = none) (h : s.Inv server_fd)
    {a : ChildAct} (hc : s.children i = some c) (hstep : c.step server_fd a = some c') :
    Server.Inv server_fd { s with
      children := Function.update s.children i (some c')
      shut := if a = .shutdown then insert i s.shut else s.shut } := by
  refine ⟨?_, fun j d hd => ?_⟩
  · have hparent := h.parent
    unfold Server.ParentOk at hparent ⊢
    dsimp only
    cases hpc : s.pc with
    | accepting => rwa [hpc] at hparent
    | closing client_fd j => rwa [hpc] at hparent
    | forking client_fd j =>
      rw [hpc] at hparent
      obtain ⟨hfds, hfree, hlast, hnone⟩ := hparent
      have hji : j ≠ i := by
        rintro rfl
        rw [hnone] at hc
        cases hc
      exact ⟨hfds, hfree, hlast, by rw [Function.update_of_ne hji, hnone]⟩
  · dsimp only at hd ⊢
    by_cases hj : j = i
    · subst hj
      rw [Function.update_self] at hd
      obtain rfl := Option.some.inj hd
      obtain ⟨hlt, hinv⟩ := h.children j c hc
      exact ⟨hlt, hinv.step hserver hstep⟩
    · rw [Function.update_of_ne hj] at hd
      obtain ⟨hlt, hinv⟩ := h.children j d hd
      refine ⟨hlt, hinv.unused, hinv.ok.mono ?_⟩
      split
      · exact Finset.subset_insert i s.shut
      · exact Finset.Subset.refl _

theorem Server.Inv.step (hserver : stdFds server_fd = none) (h : s.Inv server_fd)
    (hstep : s.step server_fd a = some s') : s'.Inv server_fd := by
  have hparent := h.parent
  unfold Server.ParentOk at hparent
  unfold Server.step at hstep
  split at hstep
  · obtain rfl := Option.some.inj hstep
    exact h
  · rename_i fd hpc
    obtain ⟨hfree, ⟨⟩⟩ := Option.ite_none_right_eq_some.mp hstep
    rw [hpc] at hparent
    rw [hparent] at hfree
    refine h.of_parent ⟨?_, hfree, rfl, ?_⟩ (Nat.le_succ _) rfl rfl
    · rw [hparent]
    · by_contra hsome
      obtain ⟨c, hc⟩ := Option.ne_none_iff_exists'.mp hsome
      exact lt_irrefl _ (h.children _ c hc).1
  · rename_i client_fd i hpc
    obtain rfl := Option.some.inj hstep
    rw [hpc] at hparent
    obtain ⟨hfds, hfree, hlast, -⟩ := hparent
    refine ⟨⟨hfds, hfree⟩, fun j c hc => ?_⟩
    dsimp only at hc ⊢
    by_cases hj : j = i
    · subst hj
      rw [Function.update_self] at hc
      obtain rfl := Option.some.inj hc
      exact ⟨by omega, unused_of_listenFds hfree, hfds⟩
    · rw [Function.update_of_ne hj] at hc
      exact h.children j c hc
  · rename_i client_fd i hpc
    obtain rfl := Option.some.inj hstep
    rw [hpc] at hparent
    exact h.of_parent ⟨hparent.1, hparent.2.1⟩ le_rfl rfl rfl
  · rename_i client_fd i hpc
    obtain rfl := Option.some.inj hstep
    rw [hpc] at hparent
    refine h.of_parent ?_ le_rfl rfl rfl
    show Function.update s.fds client_fd none = _
    rw [hparent.1, update_update_none hparent.2]
  · rename_i i a hpc
    split at hstep
    · cases hstep
    · rename_i c hc
      obtain ⟨c', hc', rfl⟩ := Option.map_eq_some_iff.mp hstep
      exact h.of_child hserver hc hc'
  · cases hstep

/-! ## Who holds a connection -/

/-- A child holds no connection but its own, and that one only while it runs. -/
theorem Child.Inv.conn (h : c.Inv server_fd i shut) (hfd : c.fds fd = some (.conn j)) :
    j = i ∧ c.pc.over = false := by
  have hok := h.ok
  unfold Child.Ok at hok
  cases hpc : c.pc <;> rw [hpc] at hok
  case started =>
    rw [hok] at hfd
    exact ⟨eq_of_conn (fun _ _ => listenFds_ne_conn) hfd, rfl⟩
  case serving | leaving =>
    rw [hok] at hfd
    exact ⟨eq_of_conn (fun _ _ => stdFds_ne_conn) hfd, rfl⟩
  case closing =>
    rw [hok.1] at hfd
    exact ⟨eq_of_conn (fun _ _ => stdFds_ne_conn) hfd, rfl⟩
  case exiting =>
    rw [hok.1] at hfd
    exact absurd hfd stdFds_ne_conn
  case exited =>
    rw [hok.1] at hfd
    cases hfd
  case killed =>
    rw [hok] at hfd
    cases hfd

/-- The parent holds at most the connection it has accepted last. -/
theorem Server.Inv.parent_conn (h : s.Inv server_fd) (hfd : s.fds fd = some (.conn j)) :
    ∃ client_fd, s.pc = .closing client_fd j ∨
      (s.pc = .forking client_fd j ∧ s.children j = none) := by
  have hparent := h.parent
  unfold Server.ParentOk at hparent
  cases hpc : s.pc with
  | accepting =>
    rw [hpc] at hparent
    rw [hparent] at hfd
    exact absurd hfd listenFds_ne_conn
  | forking client_fd i =>
    rw [hpc] at hparent
    rw [hparent.1] at hfd
    obtain rfl := eq_of_conn (fun _ _ => listenFds_ne_conn) hfd
    exact ⟨client_fd, Or.inr ⟨rfl, hparent.2.2.2⟩⟩
  | closing client_fd i =>
    rw [hpc] at hparent
    rw [hparent.1] at hfd
    obtain rfl := eq_of_conn (fun _ _ => listenFds_ne_conn) hfd
    exact ⟨client_fd, Or.inl rfl⟩

/-- A connection whose child has terminated is held by the parent or by nobody. -/
theorem Server.Inv.closing_of_held (h : s.Inv server_fd) (hc : s.children i = some c)
    (hover : c.pc.over = true) (hheld : s.Held i) : ∃ client_fd, s.pc = .closing client_fd i := by
  rcases hheld with ⟨fd, hfd⟩ | ⟨j, d, hd, fd, hfd⟩
  · obtain ⟨client_fd, hpc | ⟨-, hnone⟩⟩ := h.parent_conn hfd
    · exact ⟨client_fd, hpc⟩
    · rw [hnone] at hc
      cases hc
  · obtain ⟨rfl, hruns⟩ := (h.children j d hd).2.conn hfd
    obtain rfl := Option.some.inj (hc.symm.trans hd)
    rw [hover] at hruns
    cases hruns

/-- **Who holds what**, in every state of every run, whatever `accept` and `fork` return and
however the children are interleaved.  At the loop head the parent has the standard
descriptors and the listening one; a child that serves has the standard ones and that of its
client, and no child ever has another client's.  A connection whose child has terminated, or
that got none, is held by nobody as soon as the parent is at its loop head, and before that
by the parent alone; and its client sees the end of the stream, at the latest then, and at
once when the child has come to its `exit`. -/
theorem descriptors_isolated (hserver : stdFds server_fd = none) {as : List ServerAct}
    (h : Trace (Server.step server_fd) (fun _ _ => True) (Server.init server_fd) as s) :
    (s.pc = .accepting → s.fds = listenFds server_fd) ∧
      (∀ i c, s.children i = some c → (c.pc.serves = true → c.fds = clientFds c.client_fd i) ∧
        ∀ fd j, c.fds fd = some (.conn j) → j = i) ∧
      (∀ i c, s.children i = some c → c.pc.over = true →
        (s.Held i → ∃ client_fd, s.pc = .closing client_fd i) ∧
        (s.pc = .accepting → ¬s.Held i ∧ s.EndOfStream i) ∧
        (c.pc = .exited → s.EndOfStream i)) ∧
      ∀ i, s.children i = none → s.pc = .accepting → ¬s.Held i := by
  have hinv : s.Inv server_fd := h.invariant (fun _ _ _ hinv _ hstep => hinv.step hserver hstep)
    (Server.inv_init server_fd)
  refine ⟨fun hpc => ?_, fun i c hc => ⟨fun hserves => ?_, fun fd j hfd => ?_⟩,
    fun i c hc hover => ⟨hinv.closing_of_held hc hover, fun hpc => ?_, fun hexited => ?_⟩,
    fun i hnone hpc hheld => ?_⟩
  · have hparent := hinv.parent
    unfold Server.ParentOk at hparent
    rwa [hpc] at hparent
  · have hok := (hinv.children i c hc).2.ok
    unfold Child.Ok at hok
    cases hpc : c.pc <;> rw [hpc] at hok hserves
    case serving | leaving => exact hok
    case closing => exact hok.1
    all_goals cases hserves
  · exact ((hinv.children i c hc).2.conn hfd).1
  · have hnot : ¬s.Held i := fun hheld => by
      obtain ⟨client_fd, hpc'⟩ := hinv.closing_of_held hc hover hheld
      rw [hpc] at hpc'
      cases hpc'
    exact ⟨hnot, Or.inr hnot⟩
  · have hok := (hinv.children i c hc).2.ok
    unfold Child.Ok at hok
    rw [hexited] at hok
    exact Or.inl hok.2
  · rcases hheld with ⟨fd, hfd⟩ | ⟨j, d, hd, fd, hfd⟩
    · obtain ⟨client_fd, hpc' | ⟨hpc', -⟩⟩ := hinv.parent_conn hfd <;>
        rw [hpc] at hpc' <;> cases hpc'
    · obtain ⟨rfl, -⟩ := (hinv.children j d hd).2.conn hfd
      rw [hnone] at hd
      cases hd

/-- One connection, served to its end before the parent closes its copy. -/
def slowParent : List ServerAct :=
  [.accept (some 4), .fork true] ++
    [.closeServer, .serve, .leave, .shutdown, .closeClient, .exit].map (.child 0)

/-- After the parent has closed its copy too, nobody holds the connection. -/
theorem descriptors_isolated_slowParent :
    ∃ s, Trace (Server.step 3) (fun _ _ => True) (Server.init 3) (slowParent ++ [.close]) s ∧
      ¬s.Held 0 ∧ s.EndOfStream 0 := by
  obtain ⟨s, h, htest⟩ := Trace.exists_of_eval (Server.step 3) (fun _ _ => True)
    (fun s => s.pc = .accepting ∧ (s.children 0).map Child.pc = some .exited) (Server.init 3)
    (slowParent ++ [.close]) (by decide)
  obtain ⟨hpc, hchild⟩ := of_decide_eq_true htest
  obtain ⟨c, hc, hexited⟩ := Option.map_eq_some_iff.mp hchild
  obtain ⟨-, -, hover, -⟩ := descriptors_isolated (by decide) h
  exact ⟨s, h, (hover 0 c hc (by rw [hexited]; rfl)).2.1 hpc⟩

/-- **The child has exited and the parent still holds the connection.** -/
theorem held_by_parent :
    ∃ s, Trace (Server.step 3) (fun _ _ => True) (Server.init 3) slowParent s ∧
      (s.children 0).map Child.pc = some .exited ∧ s.Held 0 := by
  obtain ⟨s, h, htest⟩ := Trace.exists_of_eval (Server.step 3) (fun _ _ => True)
    (fun s => (s.children 0).map Child.pc = some .exited ∧ s.fds 4 = some (.conn 0))
    (Server.init 3) slowParent (by decide)
  obtain ⟨hexited, hfd⟩ := of_decide_eq_true htest
  exact ⟨s, h, hexited, Or.inl ⟨4, hfd⟩⟩

end TcpFork
end CaosSeminars
