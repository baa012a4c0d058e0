import CaosSeminars.Library.CArray
import CaosSeminars.Library.Trace

/-!
# The UDP echo server

`udp_server.c` takes a datagram from its socket, sends its payload back to where it came
from, and goes on.  The socket holds what has arrived in a queue; datagrams arrive at any
time, also between the two calls.

The loop is left when `recvfrom` returns `0` or less.  On a stream `0` would be its end.  A
datagram socket has no end, and `0` is a datagram without payload: so the server echoes
until somebody sends it an empty datagram (`echoes_iff`).

* `Accounts` --- the invariant: what has arrived was answered, is in hand, or is in the
  queue, in this order.
* `Inv.exists_settled` --- from every state of a run the server gets through what the socket
  holds.
* `echoes_iff` --- in every run without errors: once it has got through, it is in its loop
  and has answered everything **iff** no datagram was empty.
-/

namespace CaosSeminars
namespace UdpEcho

/-- `BUFF_SIZE`. -/
def BUFF_SIZE : ℕ := 4096

/-- A datagram, and where it comes from or goes to. -/
structure Datagram (Addr : Type*) where
  peer : Addr
  payload : List UInt8
  deriving DecidableEq

/-- Where the loop is. -/
inductive Pc (Addr : Type*) where
  /-- `recvfrom` comes next. -/
  | receiving
  /-- `sendto` comes next. -/
  | answering (received_bytes : ℕ) (client_address : Addr)
  /-- The loop was left. -/
  | stopped
  deriving DecidableEq

/-- The server, its socket, and the history. -/
structure Sys (Addr : Type*) where
  pc : Pc Addr
  buff : CArray UInt8 BUFF_SIZE
  /-- What the socket holds. -/
  queue : List (Datagram Addr)
  /-- Everything that has arrived. -/
  arrived : List (Datagram Addr)
  /-- Everything that was sent. -/
  sent : List (Datagram Addr)
  deriving DecidableEq

variable {Addr : Type*}

/-- The server before its first `recvfrom`; `buff` is not initialised. -/
def Sys.init (junk : CArray UInt8 BUFF_SIZE) : Sys Addr := ⟨.receiving, junk, [], [], []⟩

/-- A datagram arrives, or a call of the loop returns. -/
inductive Act (Addr : Type*) where
  | arrive (d : Datagram Addr)
  /-- `recvfrom` takes the first datagram of the queue. -/
  | recvfrom
  /-- `recvfrom` returns `-1`. -/
  | recvError
  /-- `sendto` sends what it was given. -/
  | sendto
  /-- `sendto` returns `-1`, which nobody looks at. -/
  | sendError
  deriving DecidableEq

/-- What the loop does with `received_bytes`, when `got` was stored in `buff`. -/
def Sys.onReceived (s : Sys Addr) (client_address : Addr) (got : List UInt8) : Sys Addr :=
  if (got.length : ℤ) ≤ 0 then { s with pc := .stopped, buff := s.buff.store 0 got }
  else { s with
    pc := .answering got.length client_address
    buff := (s.buff.store 0 got).store got.length [0] }

/-- One step.  A `recvfrom` with nothing in the queue blocks, and one that gives less room
than the payload has loses the rest of it. -/
def Sys.step (s : Sys Addr) (a : Act Addr) : Option (Sys Addr) :=
  match s.pc, a with
  | _, .arrive d => some { s with queue := s.queue ++ [d], arrived := s.arrived ++ [d] }
  | .receiving, .recvfrom =>
    match s.queue with
    | [] => none
    | d :: queue =>
      some (Sys.onReceived { s with queue } d.peer (d.payload.take (BUFF_SIZE - 1)))
  | .receiving, .recvError => some { s with pc := .stopped }
  | .answering received_bytes client_address, .sendto =>
    some { s with
      pc := .receiving
      sent := s.sent ++ [⟨client_address, s.buff.slice 0 received_bytes⟩] }
  | .answering _ _, .sendError => some { s with pc := .receiving }
  | _, _ => none

/-- The promise: no errors, and no payload longer than a call of `recvfrom` has room for. -/
def noErrors (_ : Sys Addr) : Act Addr → Prop
  | .arrive d => d.payload.length ≤ BUFF_SIZE - 1
  | .recvError | .sendError => False
  | _ => True

instance (s : Sys Addr) : (a : Act Addr) → Decidable (noErrors s a)
  | .arrive d => inferInstanceAs (Decidable (d.payload.length ≤ _))
  | .recvError | .sendError => inferInstanceAs (Decidable False)
  | .recvfrom | .sendto => inferInstanceAs (Decidable True)

/-- Nothing is left to do but to wait for more. -/
def Sys.Settled (s : Sys Addr) : Prop := s.pc = .stopped ∨ (s.pc = .receiving ∧ s.queue = [])

/-! ## One step -/

/-- What one step of a run without errors can do. -/
inductive Moves (s : Sys Addr) : Act Addr → Sys Addr → Prop
  | arrive (d : Datagram Addr) (hlen : d.payload.length ≤ BUFF_SIZE - 1) :
      Moves s (.arrive d) { s with queue := s.queue ++ [d], arrived := s.arrived ++ [d] }
  | recvfrom {d : Datagram Addr} {queue : List (Datagram Addr)} (hpc : s.pc = .receiving)
      (hqueue : s.queue = d :: queue) :
      Moves s .recvfrom (Sys.onReceived { s with queue } d.peer (d.payload.take (BUFF_SIZE - 1)))
  | sendto {n : ℕ} {peer : Addr} (hpc : s.pc = .answering n peer) :
      Moves s .sendto
        { s with pc := .receiving, sent := s.sent ++ [⟨peer, s.buff.slice 0 n⟩] }

variable {s t : Sys Addr} {a : Act Addr}

/-- The inversion of `Sys.step`: later proofs split on `Moves`. -/
theorem moves_of_step (hok : noErrors s a) (h : s.step a = some t) : Moves s a t := by
  unfold Sys.step at h
  split at h
  · obtain rfl := Option.some.inj h
    exact Moves.arrive _ hok
  · rename_i hpc
    split at h
    · cases h
    · rename_i hqueue
      obtain rfl := Option.some.inj h
      exact Moves.recvfrom hpc hqueue
  · cases hok
  · rename_i hpc
    obtain rfl := Option.some.inj h
    exact Moves.sendto hpc
  · cases hok
  · cases h

/-! ## What was answered -/

/-- Where the datagrams that have arrived are: those answered come first, none of them
empty, and those in the queue last.  Between them there may be the one that is being
answered, or the empty one that has stopped the server. -/
inductive Accounts (s : Sys Addr) : Prop
  | receiving (hpc : s.pc = .receiving) (harrived : s.arrived = s.sent ++ s.queue)
  | answering {n : ℕ} {peer : Addr} (hpc : s.pc = .answering n peer)
      (hne : s.buff.slice 0 n ≠ [])
      (harrived : s.arrived = s.sent ++ ⟨peer, s.buff.slice 0 n⟩ :: s.queue)
  | stopped {d : Datagram Addr} (hpc : s.pc = .stopped) (hempty : d.payload = [])
      (harrived : s.arrived = s.sent ++ d :: s.queue)

/-- What is known of every state of a run without errors. -/
structure Inv (s : Sys Addr) : Prop where
  accounts : Accounts s
  sent : ∀ d ∈ s.sent, d.payload ≠ []
  queue : ∀ d ∈ s.queue, d.payload.length ≤ BUFF_SIZE - 1

theorem inv_init (junk : CArray UInt8 BUFF_SIZE) : Inv (Sys.init junk : Sys Addr) :=
  ⟨Accounts.receiving rfl rfl, List.forall_mem_nil _, List.forall_mem_nil _⟩

theorem Accounts.arrive (h : Accounts s) (d : Datagram Addr) :
    Accounts { s with queue := s.queue ++ [d], arrived := s.arrived ++ [d] } := by
  cases h with
  | receiving hpc harrived =>
    exact Accounts.receiving hpc (by simp [harrived])
  | answering hpc hne harrived =>
    exact Accounts.answering hpc hne (by simp [harrived])
  | stopped hpc hempty harrived =>
    exact Accounts.stopped hpc hempty (by simp [harrived])

theorem slice_received {got : List UInt8} (buff : CArray UInt8 BUFF_SIZE)
    (hlen : got.length ≤ BUFF_SIZE - 1) :
    ((buff.store 0 got).store got.length [0]).slice 0 got.length = got := by
  have hsize : 0 < BUFF_SIZE := by decide
  have hgot : (buff.store 0 got).slice 0 (0 + got.length) = got :=
    buff.slice_store_self (by omega)
  rw [Nat.zero_add] at hgot
  rw [CArray.slice_store_of_le _ le_rfl (by rw [List.length_singleton]; omega), hgot]

/-- **What one step preserves**, one case for each step. -/
theorem Inv.moves (h : Inv s) (hm : Moves s a t) : Inv t := by
  cases hm with
  | arrive d hlen =>
    refine ⟨h.accounts.arrive d, h.sent, fun e he => ?_⟩
    rcases List.mem_append.mp he with hmem | hmem
    · exact h.queue e hmem
    · obtain rfl := List.mem_singleton.mp hmem
      exact hlen
  | @recvfrom d queue hpc hqueue =>
    have hlens := h.queue
    rw [hqueue] at hlens
    obtain ⟨hlen, hlens⟩ := List.forall_mem_cons.mp hlens
    have harrived : s.arrived = s.sent ++ d :: queue := by
      cases h.accounts with
      | receiving _ harrived => rw [harrived, hqueue]
      | answering hpc' => rw [hpc] at hpc'; cases hpc'
      | stopped hpc' => rw [hpc] at hpc'; cases hpc'
    rw [List.take_of_length_le hlen, Sys.onReceived]
    split
    · rename_i hzero
      have hempty : d.payload = [] := List.length_eq_zero_iff.mp (by omega)
      exact ⟨Accounts.stopped rfl hempty harrived, h.sent, hlens⟩
    · rename_i hpos
      have hslice := slice_received s.buff hlen
      refine ⟨Accounts.answering rfl ?_ ?_, h.sent, hlens⟩
      · rw [hslice]
        rintro hnil
        exact hpos (by rw [hnil]; decide)
      · rw [hslice]
        exact harrived
  | @sendto n peer hpc =>
    cases h.accounts with
    | receiving hpc' => rw [hpc] at hpc'; cases hpc'
    | stopped hpc' => rw [hpc] at hpc'; cases hpc'
    | answering hpc' hne harrived =>
      rw [hpc] at hpc'
      obtain ⟨rfl, rfl⟩ := Pc.answering.inj hpc'
      refine ⟨Accounts.receiving rfl ?_, fun d hd => ?_, h.queue⟩
      · rw [harrived, List.append_assoc, List.singleton_append]
      · rcases List.mem_append.mp hd with hmem | hmem
        · exact h.sent d hmem
        · obtain rfl := List.mem_singleton.mp hmem
          exact hne

theorem inv_of_trace (junk : CArray UInt8 BUFF_SIZE) {as : List (Act Addr)}
    (h : Trace Sys.step noErrors (Sys.init junk) as s) : Inv s :=
  h.invariant (fun _ _ _ hinv hok hstep => hinv.moves (moves_of_step hok hstep)) (inv_init junk)

/-! ## Whole runs -/

/-- The server gets through what the socket holds. -/
theorem exists_settled_of_receiving (hpc : s.pc = .receiving) (h : Inv s) :
    ∃ as t, Trace Sys.step noErrors s as t ∧ t.Settled ∧ t.arrived = s.arrived := by
  induction hqueue : s.queue generalizing s with
  | nil => exact ⟨[], s, Trace.nil s, Or.inr ⟨hpc, hqueue⟩, rfl⟩
  | cons d queue ih =>
    have hrecv : s.step .recvfrom = some (Sys.onReceived { s with queue } d.peer
        (d.payload.take (BUFF_SIZE - 1))) := by
      simp only [Sys.step, hpc, hqueue]
    unfold Sys.onReceived at hrecv
    split at hrecv
    · exact ⟨[.recvfrom], _, Trace.cons trivial hrecv (Trace.nil _), Or.inl rfl, rfl⟩
    · have hinv := h.moves (moves_of_step (a := .recvfrom) trivial hrecv)
      have hsend := hinv.moves (moves_of_step (a := .sendto) trivial rfl)
      obtain ⟨as, t, htrace, hsettled, harrived⟩ := ih rfl hsend rfl
      exact ⟨.recvfrom :: .sendto :: as, t,
        Trace.cons trivial hrecv (Trace.cons trivial rfl htrace), hsettled, harrived⟩

theorem Inv.exists_settled (h : Inv s) :
    ∃ as t, Trace Sys.step noErrors s as t ∧ t.Settled ∧ t.arrived = s.arrived := by
  cases hpc : s.pc with
  | receiving => exact exists_settled_of_receiving hpc h
  | stopped => exact ⟨[], s, Trace.nil s, Or.inl hpc, rfl⟩
  | answering n peer =>
    have hsend : s.step .sendto = some
        { s with pc := .receiving, sent := s.sent ++ [⟨peer, s.buff.slice 0 n⟩] } := by
      simp only [Sys.step, hpc]
    obtain ⟨as, t, htrace, hsettled, harrived⟩ :=
      exists_settled_of_receiving rfl (h.moves (moves_of_step (a := .sendto) trivial hsend))
    exact ⟨.sendto :: as, t, Trace.cons trivial hsend htrace, hsettled, harrived⟩

/-- As long as no empty datagram has arrived, the server is in its loop, and what it has sent
answers the first of what has arrived. -/
theorem Inv.alive (h : Inv s) (hne : ∀ d ∈ s.arrived, d.payload ≠ []) :
    s.pc ≠ .stopped ∧ s.sent <+: s.arrived := by
  cases h.accounts with
  | receiving hpc harrived => exact ⟨by simp [hpc], ⟨_, harrived.symm⟩⟩
  | answering hpc _ harrived => exact ⟨by simp [hpc], ⟨_, harrived.symm⟩⟩
  | stopped hpc hempty harrived =>
    exact absurd hempty (hne _ (by simp [harrived]))

/-- **When the server survives and answers every datagram.**  In every run without errors, and
once the server has got through what the socket holds, it is in its loop and has sent every
datagram that has arrived back to its sender, in order, exactly if none of them was empty.
Until then it does not leave the loop and answers in order; and it always gets there. -/
theorem echoes_iff (junk : CArray UInt8 BUFF_SIZE) {as : List (Act Addr)}
    (h : Trace Sys.step noErrors (Sys.init junk) as s) :
    (s.Settled →
      (s.pc = .receiving ∧ s.sent = s.arrived ↔ ∀ d ∈ s.arrived, d.payload ≠ [])) ∧
      ((∀ d ∈ s.arrived, d.payload ≠ []) → s.pc ≠ .stopped ∧ s.sent <+: s.arrived) ∧
      ∃ as' t, Trace Sys.step noErrors s as' t ∧ t.Settled ∧ t.arrived = s.arrived := by
  have hinv := inv_of_trace junk h
  refine ⟨fun hsettled => ?_, hinv.alive, hinv.exists_settled⟩
  constructor
  · rintro ⟨-, hsent⟩
    rw [← hsent]
    exact hinv.sent
  · intro hne
    obtain ⟨hpc, hqueue⟩ := hsettled.resolve_left (hinv.alive hne).1
    cases hinv.accounts with
    | receiving _ harrived => exact ⟨hpc, by rw [harrived, hqueue, List.append_nil]⟩
    | answering hpc' => rw [hpc] at hpc'; cases hpc'
    | stopped hpc' => rw [hpc] at hpc'; cases hpc'

/-- Two clients, the second before the first is answered. -/
theorem echoes_twoClients :
    ∃ s : Sys ℕ, Trace Sys.step noErrors (Sys.init (CArray.replicate _ 7))
      [.arrive ⟨1, [104, 105]⟩, .recvfrom, .arrive ⟨2, [0]⟩, .sendto, .recvfrom, .sendto] s ∧
      s.sent = s.arrived := by
  obtain ⟨s, htrace, hs⟩ := Trace.exists_of_eval Sys.step noErrors
    (fun s : Sys ℕ => s.pc = .receiving ∧ s.queue = [] ∧
      s.arrived = [⟨1, [104, 105]⟩, ⟨2, [0]⟩]) (Sys.init (CArray.replicate _ 7))
    [.arrive ⟨1, [104, 105]⟩, .recvfrom, .arrive ⟨2, [0]⟩, .sendto, .recvfrom, .sendto]
    (by decide +kernel)
  obtain ⟨hpc, hqueue, harrived⟩ := of_decide_eq_true hs
  have hne : ∀ d ∈ s.arrived, d.payload ≠ [] := by
    rw [harrived]
    decide
  exact ⟨s, htrace, (((echoes_iff _ htrace).1 (Or.inr ⟨hpc, hqueue⟩)).mpr hne).2⟩

/-- **An empty datagram stops the server**: the one behind it is never answered. -/
theorem stopped_by_emptyDatagram :
    ∃ s : Sys ℕ, Trace Sys.step noErrors (Sys.init (CArray.replicate _ 7))
      [.arrive ⟨1, []⟩, .arrive ⟨2, [104, 105]⟩, .recvfrom] s ∧
      s.pc = .stopped ∧ s.sent = [] ∧ s.arrived = [⟨1, []⟩, ⟨2, [104, 105]⟩] := by
  obtain ⟨s, htrace, hs⟩ := Trace.exists_of_eval Sys.step noErrors
    (fun s : Sys ℕ => s.pc = .stopped ∧ s.sent = [] ∧
      s.arrived = [⟨1, []⟩, ⟨2, [104, 105]⟩]) (Sys.init (CArray.replicate _ 7))
    [.arrive ⟨1, []⟩, .arrive ⟨2, [104, 105]⟩, .recvfrom] (by decide +kernel)
  exact ⟨s, htrace, of_decide_eq_true hs⟩

end UdpEcho
end CaosSeminars
