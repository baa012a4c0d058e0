import CaosSeminars.Epoll.Resources
import CaosSeminars.Epoll.Stream

/-!
# The clients of the epoll echo server do not disturb each other

`Epoll.Connection` is about one connection, `Epoll.Server` about the loop that serves all of them
with one set of descriptors and one heap.  Descriptors and addresses come back: a client may get the
descriptor of one that has just left, and its `fd_data` the same address.

`Wire` records for every descriptor what has gone over it since `accept` returned it.  In every run
of the server each live `fd_data` is where a run of `Epoll.Connection` alone would be, with what has
gone over its descriptor as its history (`server_refines_connections`); so all that is known of one
connection holds of each connection of the server.  In particular nobody is ever sent a byte that he
has not sent himself (`server_echoes_own`).

* `Effect` --- what one step does to the connections: `accept` and `calloc` begin one, a step of the
  client branch moves one on, and any other step leaves them alone.  `Owned.effect` is the
  inversion of `Server.step` in these terms.
* `Isolated` --- the invariant: each live `fd_data` is that of a run of its own.
* `server_refines_connections`, `server_echoes_own` --- the two results, for every run of the
  server.

`calloc` may return any address that is not in use, those included of which the low half looks
like the listening descriptor: an event of such a client starts the accept branch, as
`Epoll.Dispatch` describes, and that moves no bytes of anybody.
-/

namespace CaosSeminars
namespace Epoll

/-- The `fd_data` that is being handled. -/
def Server.current (s : Server) : Option FdData :=
  match s.pc with
  | .handling p _ => s.heap p
  | _ => none

/-- Where the client branch is with the connection at `p`. -/
def Server.place (s : Server) (p : Ptr) : Pc :=
  match s.pc with
  | .handling q pc => if q = p then pc else .waiting
  | _ => .waiting

/-- What has gone over each descriptor since `accept` returned it. -/
structure Wire where
  received : ℤ → List UInt8
  sent : ℤ → List UInt8

namespace Wire

variable (w : Wire)

/-- `accept` returns `fd`. -/
def reset (fd : ℤ) : Wire where
  received := Function.update w.received fd []
  sent := Function.update w.sent fd []

/-- The client branch makes a step. -/
def log (d : FdData) (a : Act) : Wire where
  received := Function.update w.received d.fd (w.received d.fd ++ stepReceived d a)
  sent := Function.update w.sent d.fd (w.sent d.fd ++ stepSent d a)

/-- A step of the server. -/
def record (s : Server) : ServerAct → Wire
  | .accept fd => if fd < 0 then w else w.reset fd
  | .client a =>
    match s.current with
    | some d => w.log d a
    | none => w
  | _ => w

end Wire

/-- The server, and what has gone over its descriptors. -/
structure Observed where
  server : Server
  wire : Wire

namespace Observed

def init (serverFd : ℤ) : Observed := ⟨Server.init serverFd, ⟨fun _ => [], fun _ => []⟩⟩

def step (o : Observed) (a : ServerAct) : Option Observed :=
  (o.server.step a).map fun s => ⟨s, o.wire.record o.server a⟩

end Observed

/-- What `read` and `write` promise about counts. -/
def Server.answers (s : Server) : ServerAct → Prop
  | .client (.read r) => ∀ d ∈ s.current, readPromise d r
  | .client (.write w) => ∀ d ∈ s.current, writePromise d w
  | _ => True

instance (s : Server) : (a : ServerAct) → Decidable (s.answers a)
  | .client (.read r) => inferInstanceAs (Decidable (∀ d ∈ s.current, readPromise d r))
  | .client (.write w) => inferInstanceAs (Decidable (∀ d ∈ s.current, writePromise d w))
  | .client (.event _) | .client .rearm | .client .disarm | .wait _ | .next | .accept _
  | .getFlags _ | .setFlags _ | .calloc _ | .add _ => inferInstanceAs (Decidable True)

/-- All promises. -/
def observedPromises (o : Observed) (a : ServerAct) : Prop :=
  serverPromises o.server a ∧ o.server.answers a

instance (o : Observed) (a : ServerAct) : Decidable (observedPromises o a) :=
  inferInstanceAs (Decidable (_ ∧ _))

variable {s s' : Server} {o o' : Observed} {w : Wire} {a : ServerAct} {b : Act} {fd : ℤ} {p : Ptr}
  {d d' : FdData} {pc pc' : Pc}

/-! ## What one step does to the connections -/

/-- One step of the server, as far as the `fd_data` objects are concerned. -/
inductive Effect (s : Server) : ServerAct → Server → Prop
  /-- No connection is handled, and at most one is given up. -/
  | quiet {a : ServerAct} {s' : Server} (hbefore : ∀ q, s.place q = .waiting)
      (hafter : ∀ q, s'.place q = .waiting)
      (hheap : ∀ p d, s'.heap p = some d → s.heap p = some d)
      (hheld : s'.pc.heldFd = none ∨ s'.pc.heldFd = s.pc.heldFd)
      (hrecord : ∀ w : Wire, w.record s a = w) : Effect s a s'
  | accept (fd : ℤ) (hpc : s.pc = .accepting) (hfd : 0 ≤ fd) :
      Effect s (.accept fd) ({ s with opened := insert fd s.opened }.goto (.gettingFlags fd))
  | calloc (fd : ℤ) (p : Ptr) (hpc : s.pc = .allocating fd) (hnull : p ≠ NULL) :
      Effect s (.calloc p) ((s.setData p (FdData.new fd)).goto (.adding fd p))
  /-- A step of the client branch; after `close_connection` the `fd_data` is gone. -/
  | client {a : ServerAct} {s' : Server} (p : Ptr) (d d' : FdData) (b : Act) (pc' : Pc)
      (hd : s.heap p = some d) (hreg : s.interest d.fd = some p)
      (hact : a = .client b ∧ s.current = some d ∨ a = .next ∧ ∃ m, b = .event m)
      (hbefore : ∀ q, q ≠ p → s.place q = .waiting) (hheld : s.pc.heldData = none)
      (hstep : clientStep (s.place p) d b = some (pc', d'))
      (hheap : s'.heap = Function.update s.heap p (if pc' = .closed then none else some d'))
      (hafter : s'.pc = if pc' = .waiting ∨ pc' = .closed then .looping else .handling p pc') :
      Effect s a s'

/-- Closing a connection of the server takes its `fd_data` from the heap. -/
theorem Owns.heap_closeConnection (h : Owns s none none) (hd : s.heap p = some d)
    (hreg : s.interest d.fd = some p) :
    (s.closeConnection p d).heap = Function.update s.heap p none ∧
      (s.closeConnection p d).pc = s.pc := by
  have hnull : p ≠ NULL := by
    rintro rfl
    rw [h.null] at hd
    cases hd
  have hmem : d.fd ∈ (s.epollDel d.fd).opened := (h.opened d.fd).mpr (Or.inl ⟨p, hreg⟩)
  have hlive : ((s.epollDel d.fd).close d.fd).heap p = some d := by
    rw [close_of_mem hmem]
    exact hd
  rw [Server.closeConnection, if_pos ⟨hnull, h.nonneg _ hmem⟩, free_of_live hlive,
    close_of_mem hmem]
  exact ⟨rfl, rfl⟩

/-- What a step of the client branch leaves behind. -/
theorem Owns.clientBranch_eq (h : Owns s none none) (hd : s.heap p = some d)
    (hreg : s.interest d.fd = some p) (hstep : s.clientBranch p pc b = some s') :
    ∃ pc' d', clientStep pc d b = some (pc', d') ∧
      s'.heap = Function.update s.heap p (if pc' = .closed then none else some d') ∧
      s'.pc = if pc' = .waiting ∨ pc' = .closed then .looping else .handling p pc' := by
  simp only [Server.clientBranch, hd] at hstep
  obtain ⟨⟨pc', d'⟩, hclient, rfl⟩ := Option.map_eq_some_iff.mp hstep
  have hfd : d'.fd = d.fd := fd_clientStep hclient
  have hreg' : (s.setData p d').interest d'.fd = some p := by
    rw [hfd]
    exact hreg
  refine ⟨pc', d', hclient, ?_⟩
  rw [modify_eq hreg']
  cases pc' with
  | closed =>
    have hown : Owns ((s.setData p d').goto .looping) none none := (h.setData hd hfd).goto .looping
    obtain ⟨hheap, hpc⟩ := hown.heap_closeConnection (Function.update_self _ _ _) hreg'
    exact ⟨hheap.trans (Function.update_idem _ _ _), hpc⟩
  | waiting | reading m | rearming m | writing | disarming => exact ⟨rfl, rfl⟩

/-- The `fd_data` that an event of a client names. -/
theorem Owns.exists_data {e : Event} {rest : List Event} (h : Owns s none none)
    (hs : s.batch = e :: rest) (hdata : dataFd e.data ≠ s.serverFd) :
    ∃ d, s.heap e.data = some d ∧ s.interest d.fd = some e.data := by
  have hann := h.announced e (hs ▸ List.mem_cons_self)
  have hsource : e.source ≠ s.serverFd := fun heq => by
    rw [Announces, if_pos heq] at hann
    exact hdata hann
  rw [Announces, if_neg hsource] at hann
  obtain ⟨d, hd, hfd⟩ := h.live e.source e.data hann
  exact ⟨d, hd, by rw [hfd]; exact hann⟩

theorem heap_close (s : Server) (fd : ℤ) : (s.close fd).heap = s.heap := by
  rw [Server.close]
  split <;> rfl

theorem pc_close (s : Server) (fd : ℤ) : (s.close fd).pc = s.pc ∨ (s.close fd).pc = .exited := by
  rw [Server.close]
  split
  · exact Or.inl rfl
  · exact Or.inr rfl

/-- The accept branch gives up, and closes the new descriptor. -/
theorem Effect.release {t : Server} (fd : ℤ) (hbefore : ∀ q, s.place q = .waiting)
    (hpc : t.pc = .looping) (hheap : ∀ p d, t.heap p = some d → s.heap p = some d)
    (hrecord : ∀ w : Wire, w.record s a = w) : Effect s a (t.close fd) := by
  have hafter : (t.close fd).pc = .looping ∨ (t.close fd).pc = .exited := by
    rw [← hpc]
    exact pc_close t fd
  refine .quiet hbefore (fun q => ?_) (fun p d => ?_) (Or.inl ?_) hrecord
  · rw [Server.place]
    rcases hafter with hafter | hafter <;> rw [hafter]
  · rw [heap_close]
    exact hheap p d
  · rcases hafter with hafter | hafter <;> rw [hafter] <;> rfl

/-- A step of the client branch is an effect of its own. -/
theorem Owns.effect {batch : List Event} (h : Owns { s with batch := batch } none none)
    (hd : s.heap p = some d)
    (hreg : s.interest d.fd = some p)
    (hact : a = .client b ∧ s.current = some d ∨ a = .next ∧ ∃ m, b = .event m)
    (hbefore : ∀ q, q ≠ p → s.place q = .waiting) (hheld : s.pc.heldData = none)
    (hstep : { s with batch := batch }.clientBranch p (s.place p) b = some s') :
    Effect s a s' := by
  obtain ⟨pc', d', hclient, hheap, hafter⟩ := h.clientBranch_eq hd hreg hstep
  exact .client p d d' b pc' hd hreg hact hbefore hheld hclient hheap hafter

/-- The inversion of `Server.step` in a state that owns its connections. -/
theorem Owned.effect (h : Owned s) (hstep : s.step a = some s') : Effect s a s' := by
  have howns := h.owns
  simp only [Server.step] at hstep
  split at hstep
  · -- `epoll_wait`
    rename_i r hpc
    have hplace : ∀ q, s.place q = .waiting := fun q => by rw [Server.place, hpc]
    split at hstep
    · cases hstep
    · cases r with
      | events l =>
        obtain rfl := Option.some.inj hstep
        exact .quiet hplace hplace (fun _ _ => id) (Or.inr rfl) fun _ => rfl
      | interrupted =>
        obtain rfl := Option.some.inj hstep
        exact .quiet hplace hplace (fun _ _ => id) (Or.inr rfl) fun _ => rfl
      | error =>
        obtain rfl := Option.some.inj hstep
        exact .quiet hplace (fun _ => rfl) (fun _ _ => id) (Or.inl rfl) fun _ => rfl
  · -- the next event
    rename_i hpc
    have hplace : ∀ q, s.place q = .waiting := fun q => by rw [Server.place, hpc]
    rw [hpc] at howns
    split at hstep
    · cases hstep
    · rename_i e rest hs
      rw [Server.processEpollEvent] at hstep
      split at hstep
      · obtain rfl := Option.some.inj hstep
        exact .quiet hplace (fun _ => rfl) (fun _ _ => id) (Or.inl rfl) fun _ => rfl
      · rename_i hdata
        split at hstep
        · obtain rfl := Option.some.inj hstep
          exact .quiet hplace (fun _ => rfl) (fun _ _ => id) (Or.inl rfl) fun _ => rfl
        · have hsources := howns.sources
          rw [hs, List.map_cons, List.nodup_cons] at hsources
          have hrest : Owns { s with batch := rest } none none :=
            { howns with
              sources := hsources.2
              announced := fun e' he' => howns.announced e' (hs ▸ List.mem_cons_of_mem e he') }
          obtain ⟨d, hd, hreg⟩ := howns.exists_data hs hdata
          refine hrest.effect hd hreg (Or.inr ⟨rfl, e.events, rfl⟩) (fun q _ => hplace q) ?_ ?_
          · rw [hpc]
            rfl
          · rw [hplace]
            exact hstep
  · -- `accept`
    rename_i fd hpc
    have hplace : ∀ q, s.place q = .waiting := fun q => by rw [Server.place, hpc]
    split at hstep
    · rename_i hneg
      obtain rfl := Option.some.inj hstep
      exact .quiet hplace (fun _ => rfl) (fun _ _ => id) (Or.inl rfl) fun _ => if_pos hneg
    · rename_i hneg
      obtain rfl := Option.some.inj hstep
      exact .accept fd hpc (not_lt.mp hneg)
  · -- `fcntl(F_GETFL)`
    rename_i fd ok hpc
    have hplace : ∀ q, s.place q = .waiting := fun q => by rw [Server.place, hpc]
    split at hstep
    · obtain rfl := Option.some.inj hstep
      exact .quiet hplace (fun _ => rfl) (fun _ _ => id) (Or.inr (by rw [hpc]; rfl)) fun _ => rfl
    · obtain rfl := Option.some.inj hstep
      exact .release fd hplace rfl (fun _ _ => id) fun _ => rfl
  · -- `fcntl(F_SETFL)`
    rename_i fd ok hpc
    have hplace : ∀ q, s.place q = .waiting := fun q => by rw [Server.place, hpc]
    split at hstep
    · obtain rfl := Option.some.inj hstep
      exact .quiet hplace (fun _ => rfl) (fun _ _ => id) (Or.inr (by rw [hpc]; rfl)) fun _ => rfl
    · obtain rfl := Option.some.inj hstep
      exact .release fd hplace rfl (fun _ _ => id) fun _ => rfl
  · -- `calloc`
    rename_i fd p hpc
    have hplace : ∀ q, s.place q = .waiting := fun q => by rw [Server.place, hpc]
    split at hstep
    · obtain rfl := Option.some.inj hstep
      exact .release fd hplace rfl (fun _ _ => id) fun _ => rfl
    · rename_i hnull
      obtain rfl := Option.some.inj hstep
      exact .calloc fd p hpc hnull
  · -- `epoll_ctl(EPOLL_CTL_ADD)`
    rename_i fd p ok hpc
    have hplace : ∀ q, s.place q = .waiting := fun q => by rw [Server.place, hpc]
    split at hstep
    · obtain rfl := Option.some.inj hstep
      exact .quiet hplace (fun _ => rfl) (fun _ _ => id) (Or.inl rfl) fun _ => rfl
    · obtain rfl := Option.some.inj hstep
      rw [hpc] at howns
      obtain ⟨d, hd, -⟩ := howns.held p rfl
      have hd : (s.goto .looping).heap p = some d := hd
      rw [free_of_live hd]
      refine .release fd hplace rfl (fun q e hq => ?_) fun _ => rfl
      have hq : Function.update s.heap p none q = some e := hq
      rcases eq_or_ne q p with rfl | hne
      · rw [Function.update_self] at hq
        cases hq
      · rwa [Function.update_of_ne hne] at hq
  · -- the client branch
    rename_i p pc b hpc
    rw [hpc] at howns
    obtain ⟨d, hd, hreg, -⟩ := h.handled p pc hpc
    have hplace : ∀ q, s.place q = if p = q then pc else .waiting := fun q => by
      rw [Server.place, hpc]
    refine howns.effect hd hreg (Or.inl ⟨rfl, ?_⟩) (fun q hq => ?_) ?_ ?_
    · rw [Server.current, hpc]
      exact hd
    · rw [hplace, if_neg hq.symm]
    · rw [hpc]
      rfl
    · rw [hplace, if_pos rfl]
      exact hstep
  · cases hstep

/-! ## The invariant -/

variable {q : Ptr} {e : FdData} {w' : Wire} {x : ℤ}

/-- The connection at `p`, with what has gone over its descriptor. -/
def connection (s : Server) (w : Wire) (p : Ptr) (d : FdData) : Conn :=
  ⟨s.place p, d, w.received d.fd, w.sent d.fd⟩

theorem connection_congr (hplace : s'.place p = s.place p)
    (hreceived : w'.received d.fd = w.received d.fd) (hsent : w'.sent d.fd = w.sent d.fd) :
    connection s' w' p d = connection s w p d := by
  rw [connection, hplace, hreceived, hsent, connection]

/-- A run of one connection ends in `c`. -/
def Conn.Reachable (c : Conn) : Prop :=
  ∃ bs, Trace Conn.step kernelAnswers (Conn.init c.data.fd) bs c

/-- A reachable connection has echoed nothing but what it has received. -/
theorem Conn.Reachable.sent_prefix {c : Conn} (h : c.Reachable) : c.sent <+: c.received := by
  obtain ⟨bs, h⟩ := h
  exact ⟨c.data.pending, (echoes_of_trace h).stream⟩

/-- Every `fd_data` is where a connection of its own would be. -/
structure Isolated (s : Server) (w : Wire) : Prop where
  owned : Owned s
  reachable : ∀ p d, s.heap p = some d → (connection s w p d).Reachable
  fresh : ∀ fd, s.pc.heldFd = some fd → w.received fd = [] ∧ w.sent fd = []
  echoed : ∀ fd, w.sent fd <+: w.received fd

theorem isolated_init (serverFd : ℤ) :
    Isolated (Server.init serverFd) (Observed.init serverFd).wire where
  owned := (owns_init serverFd).owned .looping rfl nofun rfl rfl
  reachable := nofun
  fresh := nofun
  echoed _ := List.prefix_rfl

namespace Wire

theorem reset_self (w : Wire) (fd : ℤ) :
    (w.reset fd).received fd = [] ∧ (w.reset fd).sent fd = [] :=
  ⟨Function.update_self _ _ _, Function.update_self _ _ _⟩

theorem reset_of_ne (w : Wire) (h : x ≠ fd) :
    (w.reset fd).received x = w.received x ∧ (w.reset fd).sent x = w.sent x :=
  ⟨Function.update_of_ne h _ _, Function.update_of_ne h _ _⟩

theorem log_self (w : Wire) (d : FdData) (b : Act) :
    (w.log d b).received d.fd = w.received d.fd ++ stepReceived d b ∧
      (w.log d b).sent d.fd = w.sent d.fd ++ stepSent d b :=
  ⟨Function.update_self _ _ _, Function.update_self _ _ _⟩

theorem log_of_ne (w : Wire) (b : Act) (h : x ≠ d.fd) :
    (w.log d b).received x = w.received x ∧ (w.log d b).sent x = w.sent x :=
  ⟨Function.update_of_ne h _ _, Function.update_of_ne h _ _⟩

theorem log_event (w : Wire) (d : FdData) (m : Mask) : w.log d (.event m) = w := by
  simp only [log, stepReceived, stepSent, List.append_nil, Function.update_eq_self]

end Wire

namespace Isolated

theorem fd_ne (h : Isolated s w) (hheld : s.pc.heldData = none) (hd : s.heap p = some d)
    (he : s.heap q = some e) (hne : q ≠ p) : e.fd ≠ d.fd := fun hfd => by
  have hp := (h.owned.owns.owner p d hd).resolve_right (by rw [hheld]; nofun)
  have hq := (h.owned.owns.owner q e he).resolve_right (by rw [hheld]; nofun)
  rw [hfd, hp] at hq
  exact hne (Option.some.inj hq).symm

/-- No connection is handled. -/
theorem quiet (h : Isolated s w) (howned : Owned s') (hbefore : ∀ q, s.place q = .waiting)
    (hafter : ∀ q, s'.place q = .waiting)
    (hheap : ∀ p d, s'.heap p = some d → s.heap p = some d)
    (hheld : s'.pc.heldFd = none ∨ s'.pc.heldFd = s.pc.heldFd) : Isolated s' w where
  owned := howned
  reachable q e hq := by
    rw [connection_congr ((hafter q).trans (hbefore q).symm) rfl rfl]
    exact h.reachable q e (hheap q e hq)
  fresh fd hfd := by
    refine h.fresh fd (hheld.elim (fun hnone => ?_) fun hsame => hsame.symm.trans hfd)
    rw [hnone] at hfd
    cases hfd
  echoed := h.echoed

/-- `accept` returns a descriptor that no connection has. -/
theorem accept (h : Isolated s w) (hpc : s.pc = .accepting) (hnew : fd ∉ s.opened)
    (howned : Owned ({ s with opened := insert fd s.opened }.goto (.gettingFlags fd))) :
    Isolated ({ s with opened := insert fd s.opened }.goto (.gettingFlags fd)) (w.reset fd) where
  owned := howned
  reachable q e hq := by
    have howns := h.owned.owns
    rw [hpc] at howns
    have hreg := (howns.owner q e hq).resolve_right nofun
    have hne : e.fd ≠ fd := fun heq => hnew ((howns.opened fd).mpr (Or.inl ⟨q, heq ▸ hreg⟩))
    have hplace : s.place q = .waiting := by rw [Server.place, hpc]
    have hsame : connection ({ s with opened := insert fd s.opened }.goto (.gettingFlags fd))
        (w.reset fd) q e = connection s w q e :=
      connection_congr hplace.symm (w.reset_of_ne hne).1 (w.reset_of_ne hne).2
    rw [hsame]
    exact h.reachable q e hq
  fresh x hx := by
    obtain rfl : fd = x := Option.some.inj hx
    exact w.reset_self fd
  echoed x := by
    rcases eq_or_ne x fd with rfl | hne
    · rw [(w.reset_self x).1, (w.reset_self x).2]
    · rw [(w.reset_of_ne hne).1, (w.reset_of_ne hne).2]
      exact h.echoed x

/-- `calloc` returns an `fd_data`, over whose descriptor nothing has gone yet. -/
theorem calloc (h : Isolated s w) (hpc : s.pc = .allocating fd)
    (howned : Owned ((s.setData p (FdData.new fd)).goto (.adding fd p))) :
    Isolated ((s.setData p (FdData.new fd)).goto (.adding fd p)) w where
  owned := howned
  reachable q e hq := by
    have hq : Function.update s.heap p (some (FdData.new fd)) q = some e := hq
    rcases eq_or_ne q p with rfl | hne
    · rw [Function.update_self] at hq
      obtain rfl := Option.some.inj hq
      obtain ⟨hreceived, hsent⟩ := h.fresh fd (by rw [hpc]; rfl)
      refine ⟨[], ?_⟩
      show Trace Conn.step _ (Conn.init fd) []
        ⟨.waiting, FdData.new fd, w.received fd, w.sent fd⟩
      rw [hreceived, hsent]
      exact .nil _
    · rw [Function.update_of_ne hne] at hq
      have hplace : s.place q = .waiting := by rw [Server.place, hpc]
      have hsame : connection ((s.setData p (FdData.new fd)).goto (.adding fd p)) w q e =
          connection s w q e :=
        connection_congr hplace.symm rfl rfl
      rw [hsame]
      exact h.reachable q e hq
  fresh x hx := h.fresh x (by rw [hpc]; exact hx)
  echoed := h.echoed

theorem client (h : Isolated s w) (howned : Owned s') (hd : s.heap p = some d)
    (hok : kernelAnswers (connection s w p d) b)
    (hbefore : ∀ q, q ≠ p → s.place q = .waiting) (hheld : s.pc.heldData = none)
    (hstep : clientStep (s.place p) d b = some (pc', d'))
    (hheap : s'.heap = Function.update s.heap p (if pc' = .closed then none else some d'))
    (hafter : s'.pc = if pc' = .waiting ∨ pc' = .closed then .looping else .handling p pc') :
    Isolated s' (w.log d b) := by
  have hfd : d'.fd = d.fd := fd_clientStep hstep
  -- the connection itself has made the same step
  have hmoved : Conn.Reachable ⟨pc', d', w.received d.fd ++ stepReceived d b,
      w.sent d.fd ++ stepSent d b⟩ := by
    obtain ⟨bs, hrun⟩ := h.reachable p d hd
    refine ⟨bs ++ [b], ?_⟩
    show Trace _ _ (Conn.init d'.fd) _ _
    rw [hfd]
    refine hrun.append (.cons hok ?_ (.nil _))
    rw [Conn.step]
    show (clientStep (s.place p) d b).map _ = _
    rw [hstep]
    rfl
  refine ⟨howned, fun q e hq => ?_, fun x hx => ?_, fun x => ?_⟩
  · rw [hheap] at hq
    rcases eq_or_ne q p with rfl | hne
    · rw [Function.update_self] at hq
      split at hq
      · cases hq
      obtain rfl := Option.some.inj hq
      have hplace : s'.place q = pc' := by
        rw [Server.place, hafter]
        rcases eq_or_ne pc' .waiting with rfl | hwaiting
        · rfl
        · rw [if_neg (not_or.mpr ⟨hwaiting, ‹_›⟩)]
          exact if_pos rfl
      rw [connection, hplace, hfd, (w.log_self d b).1, (w.log_self d b).2]
      exact hmoved
    · rw [Function.update_of_ne hne] at hq
      have hother := h.fd_ne hheld hd hq hne
      have hplace : s'.place q = s.place q := by
        rw [hbefore q hne, Server.place, hafter]
        split
        · rename_i r pc hpc
          split at hpc
          · cases hpc
          · obtain ⟨rfl, -⟩ := MainPc.handling.inj hpc
            exact if_neg hne.symm
        · rfl
      rw [connection_congr hplace (w.log_of_ne b hother).1 (w.log_of_ne b hother).2]
      exact h.reachable q e hq
  · rw [hafter] at hx
    split at hx <;> cases hx
  · rcases eq_or_ne x d.fd with rfl | hne
    · rw [(w.log_self d b).1, (w.log_self d b).2]
      exact hmoved.sent_prefix
    · rw [(w.log_of_ne b hne).1, (w.log_of_ne b hne).2]
      exact h.echoed x

/-- **Every step keeps the connections apart.** -/
theorem preserves (h : Isolated s w) (hok : serverPromises s a) (hanswers : s.answers a)
    (hstep : s.step a = some s') : Isolated s' (w.record s a) := by
  have howned : Owned s' := h.owned.preserves hok hstep
  cases h.owned.effect hstep with
  | quiet hbefore hafter hheap hheld hrecord =>
    rw [hrecord]
    exact h.quiet howned hbefore hafter hheap hheld
  | accept fd hpc hfd =>
    have hwire : w.record s (.accept fd) = w.reset fd := if_neg (not_lt.mpr hfd)
    rw [hwire]
    exact h.accept hpc (hok hfd).1 howned
  | calloc fd p hpc hnull => exact h.calloc hpc howned
  | client p d d' b pc' hd hreg hact hbefore hheld hclient hheap hafter =>
    have hwire : w.record s a = w.log d b := by
      rcases hact with ⟨rfl, hcurrent⟩ | ⟨rfl, m, rfl⟩
      · rw [Wire.record, hcurrent]
      · exact (w.log_event d m).symm
    have hkernel : kernelAnswers (connection s w p d) b := by
      rcases hact with ⟨rfl, hcurrent⟩ | ⟨rfl, m, rfl⟩
      · cases b with
        | read r => exact hanswers d hcurrent
        | write r => exact hanswers d hcurrent
        | event m | rearm | disarm => trivial
      · trivial
    rw [hwire]
    exact h.client howned hd hkernel hbefore hheld hclient hheap hafter

end Isolated

theorem isolated_of_trace {serverFd : ℤ} {as : List ServerAct}
    (h : Trace Observed.step observedPromises (Observed.init serverFd) as o) :
    Isolated o.server o.wire := by
  refine h.invariant (P := fun o => Isolated o.server o.wire) (fun o a o' ho hok hstep => ?_)
    (isolated_init serverFd)
  obtain ⟨s', hserver, rfl⟩ := Option.map_eq_some_iff.mp hstep
  exact ho.preserves hok.1 hok.2 hserver

/-- A client sends two bytes, is sent the first one and leaves; the next one gets the same
descriptor and the same address, sends a byte and is sent it. -/
def reusedDescriptor : List ServerAct :=
  let accepted : List ServerAct :=
    [.next, .accept 7, .getFlags true, .setFlags true, .calloc 4096, .add true]
  let sends (bs : List UInt8) : List ServerAct :=
    [.wait (.events [⟨7, ⟨true, false, false, false, false⟩, 4096⟩]), .next,
      .client (.read (.bytes bs)), .client .rearm, .client (.read .again)]
  let isSent (n : ℕ) : List ServerAct :=
    [.wait (.events [⟨7, ⟨false, true, false, false, false⟩, 4096⟩]), .next,
      .client (.write (.count n))]
  .wait (.events [⟨3, ⟨true, false, false, false, false⟩, 3⟩]) :: accepted ++
    sends [1, 2] ++ isSent 1 ++
    [.wait (.events [⟨7, ⟨true, false, false, false, true⟩, 4096⟩,
      ⟨3, ⟨true, false, false, false, false⟩, 3⟩]), .next] ++ accepted ++
    sends [9] ++ isSent 1 ++ [.client .disarm]

/-- **Nobody is sent what he has not sent himself.**  At every moment of every run of the server,
and after the connection is closed as well, what `write` has accepted on a descriptor since `accept`
returned it is a prefix of what `read` has returned on it; and while the connection lives, its
`fd_data` holds the rest. -/
theorem server_echoes_own (serverFd : ℤ) {as : List ServerAct}
    (h : Trace Observed.step observedPromises (Observed.init serverFd) as o) (fd : ℤ) :
    o.wire.sent fd <+: o.wire.received fd ∧
      ∀ p d, o.server.heap p = some d → d.fd = fd →
        o.wire.sent fd ++ d.pending = o.wire.received fd := by
  have hisolated := isolated_of_trace h
  refine ⟨hisolated.echoed fd, fun p d hd hfd => ?_⟩
  obtain ⟨bs, hrun⟩ := hisolated.reachable p d hd
  rw [← hfd]
  exact (echoes_of_trace hrun).stream

theorem server_echoes_own_reusedDescriptor :
    ∃ o, Trace Observed.step observedPromises (Observed.init 3) reusedDescriptor o ∧
      o.wire.sent 7 = [9] ∧ o.wire.sent 7 <+: o.wire.received 7 ∧
      ∀ p d, o.server.heap p = some d → d.fd = 7 →
        o.wire.sent 7 ++ d.pending = o.wire.received 7 := by
  obtain ⟨o, h, hp⟩ := Trace.exists_of_eval Observed.step observedPromises
    (fun o => decide (o.wire.sent 7 = [9])) (Observed.init 3) reusedDescriptor (by decide +kernel)
  exact ⟨o, h, of_decide_eq_true hp, server_echoes_own 3 h 7⟩

end Epoll
end CaosSeminars
