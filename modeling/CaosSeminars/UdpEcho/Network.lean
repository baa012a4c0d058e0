import Mathlib.Algebra.Order.Group.Multiset
import CaosSeminars.Library.Words
import CaosSeminars.UdpEcho.Server

/-!
# UDP clients, a network, and the server

`udp_client.c` takes a word from its input, sends it, and prints the datagram that comes next.  Any
number of clients talk to one `udp_server.c` over a network that may delay datagrams, change their
order, lose them and deliver them twice; and every call may fail.

Nobody sends anything twice and nothing tells an old answer from a new one.  While the network
delivers nothing twice this is enough: there is at most one datagram for each client, the word it
waits for or the answer to it (`InStep`), and so the words are printed as they were typed
(`answers_in_order`).

A client is known to the network by its address, which it keeps for the whole run and shares with no
other client: the type `C` of clients is that of their addresses.  A client does not bind a port and
does not look at `response_addr`, so this is an assumption.  Where the port of a client that has
left is given to another one, a late answer to the first is printed by the second.  Nobody but the
clients and the server sends anything.

* `Net.step` --- one step of a client, of the server, or of the network; `noDuplicates`
  allows any delay, order and loss.
* `InStep.mono` --- what is lost does no harm; `NetInv.moves` is one step of the whole.
* `Stalled` --- a client that waits for what will not come, which is kept by every step
  (`loss_is_final`).
-/

namespace CaosSeminars
namespace UdpEcho

/-! ## The client -/

/-- Where the loop of a client is. -/
inductive ClientPc where
  /-- `scanf` comes next. -/
  | scanning
  /-- `sendto` comes next. -/
  | sending
  /-- `recvfrom` comes next. -/
  | awaiting
  /-- The loop was left. -/
  | closed
  deriving DecidableEq

/-- A client with its history. -/
structure Client where
  pc : ClientPc
  buff : CArray UInt8 BUFF_SIZE
  /-- The words that are left of `stdin`. -/
  input : List (List UInt8)
  /-- The words that `scanf` has taken. -/
  typed : List (List UInt8)
  /-- The texts printed after `Server response:`. -/
  printed : List (List UInt8)

namespace Client

/-- A client before its first `scanf`; `buff` is not initialised. -/
def init (junk : CArray UInt8 BUFF_SIZE) (words : List (List UInt8)) : Client :=
  ⟨.scanning, junk, words, [], []⟩

variable (c : Client)

/-- The string in `buff`, of which `strlen(buff)` is the length. -/
def text : List UInt8 := cString c.buff.toList 0

/-- `scanf("%s", buff)`, which fails at the end of the input. -/
def scan : Client :=
  match c.input with
  | [] => { c with pc := .closed }
  | word :: rest =>
    { c with
      pc := .sending
      buff := c.buff.store 0 (word ++ [0])
      input := rest
      typed := c.typed ++ [word] }

/-- `buff` when `got` was received. -/
def receivedText (got : List UInt8) : CArray UInt8 BUFF_SIZE :=
  (c.buff.store 0 got).store got.length [0]

/-- What the loop does with `received_bytes`, when `got` was stored in `buff`. -/
def onReceived (got : List UInt8) : Client :=
  if (got.length : ℤ) ≤ 0 then { c with pc := .closed, buff := c.buff.store 0 got }
  else
    { c with
      pc := .scanning
      buff := c.receivedText got
      printed := c.printed ++ [cString (c.receivedText got).toList 0] }

end Client

/-! ## The network -/

variable {C : Type*} [DecidableEq C]

/-- The server, its clients, and the datagrams on their way. -/
structure Net (C : Type*) where
  server : Sys C
  clients : C → Client
  /-- On the way to the server, each with its sender. -/
  requests : Multiset (Datagram C)
  /-- On the way back, each with its receiver. -/
  replies : Multiset (Datagram C)

/-- A client or the server makes a step, or the network does something to a datagram. -/
inductive NetAct (C : Type*) where
  | scan (c : C)
  | send (c : C)
  /-- `sendto` returns `-1`, which nobody looks at. -/
  | sendError (c : C)
  /-- `recvfrom` returns a reply to the client it was sent to. -/
  | receive (d : Datagram C)
  /-- `recvfrom` returns `-1`. -/
  | recvError (c : C)
  | server (a : Act C)
  /-- A request reaches the socket of the server. -/
  | arrive (d : Datagram C)
  | loseRequest (d : Datagram C)
  | loseReply (d : Datagram C)
  | duplicateRequest (d : Datagram C)
  | duplicateReply (d : Datagram C)

/-- The datagram that the server is answering. -/
def Sys.held (s : Sys C) : Multiset (Datagram C) :=
  match s.pc with
  | .answering n peer => {⟨peer, s.buff.slice 0 n⟩}
  | .receiving | .stopped => 0

/-- What a step of the server sends. -/
def Sys.emitted (s : Sys C) : Act C → Multiset (Datagram C)
  | .sendto => s.held
  | _ => 0

namespace Net

/-- Before the first steps; no array is initialised. -/
def init (junk : CArray UInt8 BUFF_SIZE) (words : C → List (List UInt8)) : Net C where
  server := Sys.init junk
  clients c := Client.init junk (words c)
  requests := 0
  replies := 0

variable (s : Net C)

def setClient (c : C) (x : Client) : Net C := { s with clients := Function.update s.clients c x }

/-- A client sends its word. -/
def sendRequest (c : C) : Net C :=
  { s.setClient c { s.clients c with pc := .awaiting } with
    requests := ⟨c, (s.clients c).text⟩ ::ₘ s.requests }

/-- A client receives a reply. -/
def takeReply (d : Datagram C) : Net C :=
  { s.setClient d.peer ((s.clients d.peer).onReceived (d.payload.take (BUFF_SIZE - 1))) with
    replies := s.replies.erase d }

/-- A step of a client, which must be at the right place. -/
def stepClient (c : C) (pc : ClientPc) (next : Net C) : Option (Net C) :=
  if (s.clients c).pc = pc then some next else none

/-- One step. -/
def step (s : Net C) : NetAct C → Option (Net C)
  | .scan c => s.stepClient c .scanning (s.setClient c (s.clients c).scan)
  | .send c => s.stepClient c .sending (s.sendRequest c)
  | .sendError c => s.stepClient c .sending (s.setClient c { s.clients c with pc := .awaiting })
  | .receive d =>
    if d ∈ s.replies then s.stepClient d.peer .awaiting (s.takeReply d) else none
  | .recvError c => s.stepClient c .awaiting (s.setClient c { s.clients c with pc := .closed })
  | .server (.arrive _) => none
  | .server a =>
    (s.server.step a).map fun t =>
      { s with server := t, replies := s.server.emitted a + s.replies }
  | .arrive d =>
    if d ∈ s.requests then
      (s.server.step (.arrive d)).map fun t =>
        { s with server := t, requests := s.requests.erase d }
    else none
  | .loseRequest d =>
    if d ∈ s.requests then some { s with requests := s.requests.erase d } else none
  | .loseReply d => if d ∈ s.replies then some { s with replies := s.replies.erase d } else none
  | .duplicateRequest d =>
    if d ∈ s.requests then some { s with requests := d ::ₘ s.requests } else none
  | .duplicateReply d =>
    if d ∈ s.replies then some { s with replies := d ::ₘ s.replies } else none

/-- Every datagram that somebody may still receive. -/
def inTransit : Multiset (Datagram C) := s.requests + (s.server.queue + s.server.held) + s.replies

/-- Those to or from the client `c`. -/
def carried (c : C) : Multiset (Datagram C) := s.inTransit.filter fun d => d.peer = c

end Net

/-- The promise: no datagram is delivered twice. -/
def noDuplicates (_ : Net C) : NetAct C → Prop
  | .duplicateRequest _ | .duplicateReply _ => False
  | _ => True

instance (s : Net C) : (a : NetAct C) → Decidable (noDuplicates s a)
  | .duplicateRequest _ | .duplicateReply _ => inferInstanceAs (Decidable False)
  | .scan _ | .send _ | .sendError _ | .receive _ | .recvError _ | .server _ | .arrive _
  | .loseRequest _ | .loseReply _ => inferInstanceAs (Decidable True)

/-! ## What is in transit -/

variable {s t : Net C} {a : NetAct C} {c : C} {d : Datagram C} {junk : CArray UInt8 BUFF_SIZE}
  {words : C → List (List UInt8)}

/-- Every payload has room in the arrays. -/
def Net.Fits (s : Net C) : Prop := ∀ d ∈ s.inTransit, d.payload.length ≤ BUFF_SIZE - 1

omit [DecidableEq C] in
/-- The server sends nothing but what it has received. -/
theorem transit_serverStep {u v : Sys C} {a : Act C} (harrive : ∀ d, a ≠ .arrive d)
    (hfits : ∀ d ∈ u.queue, d.payload.length ≤ BUFF_SIZE - 1) (h : u.step a = some v) :
    (v.queue + v.held : Multiset (Datagram C)) + u.emitted a ≤ u.queue + u.held := by
  unfold Sys.step at h
  split at h
  · exact absurd rfl (harrive _)
  · -- `recvfrom`
    rename_i hpc
    split at h
    · cases h
    · rename_i d queue hqueue
      rw [hqueue] at hfits ⊢
      have hlen := hfits d List.mem_cons_self
      rw [List.take_of_length_le hlen] at h
      obtain rfl := Option.some.inj h
      have hbefore : u.held = 0 := by rw [Sys.held, hpc]
      rw [hbefore, add_zero, Sys.onReceived]
      split
      · show (queue + 0 : Multiset (Datagram C)) + 0 ≤ _
        rw [add_zero, add_zero]
        exact Multiset.coe_le.mpr (List.sublist_cons_self d queue).subperm
      · show (queue + {⟨d.peer, _⟩} : Multiset (Datagram C)) + 0 ≤ _
        rw [slice_received u.buff hlen, add_zero, add_comm, Multiset.singleton_add,
          Multiset.cons_coe]
  · -- `recvfrom` fails
    rename_i hpc
    obtain rfl := Option.some.inj h
    show (u.queue + 0 : Multiset (Datagram C)) + 0 ≤ _
    rw [add_zero, add_zero]
    exact Multiset.le_add_right _ _
  · -- `sendto`
    obtain rfl := Option.some.inj h
    show (u.queue + 0 : Multiset (Datagram C)) + u.held ≤ _
    rw [add_zero]
  · -- `sendto` fails
    obtain rfl := Option.some.inj h
    show (u.queue + 0 : Multiset (Datagram C)) + 0 ≤ _
    rw [add_zero, add_zero]
    exact Multiset.le_add_right _ _
  · cases h

/-- One step of a run without duplicates, as far as the clients are concerned. -/
inductive NetMoves (s : Net C) : Net C → Prop
  | scan (c : C) (hpc : (s.clients c).pc = .scanning) :
      NetMoves s (s.setClient c (s.clients c).scan)
  | send (c : C) (hpc : (s.clients c).pc = .sending) : NetMoves s (s.sendRequest c)
  | sendError (c : C) (hpc : (s.clients c).pc = .sending) :
      NetMoves s (s.setClient c { s.clients c with pc := .awaiting })
  | receive (d : Datagram C) (hd : d ∈ s.replies) (hpc : (s.clients d.peer).pc = .awaiting) :
      NetMoves s (s.takeReply d)
  | recvError (c : C) (hpc : (s.clients c).pc = .awaiting) :
      NetMoves s (s.setClient c { s.clients c with pc := .closed })
  /-- The network or the server does something, and nothing becomes more. -/
  | carry {t : Net C} (hclients : t.clients = s.clients) (hle : t.inTransit ≤ s.inTransit) :
      NetMoves s t

theorem erase_requests_le (s : Net C) (d : Datagram C) :
    { s with requests := s.requests.erase d }.inTransit ≤ s.inTransit :=
  add_le_add_left (add_le_add_left (Multiset.erase_le d s.requests) _) _

theorem erase_replies_le (s : Net C) (d : Datagram C) :
    { s with replies := s.replies.erase d }.inTransit ≤ s.inTransit :=
  add_le_add_right (Multiset.erase_le d s.replies) _

theorem inTransit_arrive (hd : d ∈ s.requests) {u : Sys C}
    (h : s.server.step (.arrive d) = some u) :
    { s with server := u, requests := s.requests.erase d }.inTransit = s.inTransit := by
  obtain rfl : { s.server with
      queue := s.server.queue ++ [d], arrived := s.server.arrived ++ [d] } = u := by
    unfold Sys.step at h
    exact Option.some.inj h
  have hqueue : ((s.server.queue ++ [d] : List (Datagram C)) : Multiset (Datagram C)) =
      {d} + s.server.queue := by
    rw [← Multiset.coe_add, add_comm, Multiset.coe_singleton]
  show s.requests.erase d + ((s.server.queue ++ [d] : List (Datagram C)) + s.server.held) +
    s.replies = s.inTransit
  rw [hqueue, add_assoc ({d} : Multiset (Datagram C)), ← add_assoc (s.requests.erase d),
    add_comm (s.requests.erase d), Multiset.singleton_add, Multiset.cons_erase hd]
  rfl

theorem inTransit_sendRequest (s : Net C) (c : C) :
    (s.sendRequest c).inTransit = ⟨c, (s.clients c).text⟩ ::ₘ s.inTransit := by
  show ⟨c, (s.clients c).text⟩ ::ₘ s.requests + _ + _ = _
  rw [Multiset.cons_add, Multiset.cons_add]
  rfl

theorem inTransit_takeReply (hd : d ∈ s.replies) :
    s.inTransit = d ::ₘ (s.takeReply d).inTransit := by
  show _ = d ::ₘ (s.requests + (s.server.queue + s.server.held) + s.replies.erase d)
  rw [← Multiset.add_cons, Multiset.cons_erase hd]
  rfl

theorem carried_sendRequest (s : Net C) (c : C) :
    (s.sendRequest c).carried c = ⟨c, (s.clients c).text⟩ ::ₘ s.carried c := by
  rw [Net.carried, inTransit_sendRequest]
  exact Multiset.filter_cons_of_pos (p := fun d : Datagram C => d.peer = c) _ rfl

theorem carried_sendRequest_of_ne (s : Net C) {b : C} (hb : b ≠ c) :
    (s.sendRequest c).carried b = s.carried b := by
  rw [Net.carried, inTransit_sendRequest]
  exact Multiset.filter_cons_of_neg (p := fun d : Datagram C => d.peer = b) _ hb.symm

theorem carried_takeReply (hd : d ∈ s.replies) :
    s.carried d.peer = d ::ₘ (s.takeReply d).carried d.peer := by
  rw [Net.carried, inTransit_takeReply hd]
  exact Multiset.filter_cons_of_pos (p := fun e : Datagram C => e.peer = d.peer) _ rfl

theorem carried_takeReply_le (hd : d ∈ s.replies) (c : C) :
    (s.takeReply d).carried c ≤ s.carried c := by
  rw [Net.carried, Net.carried, inTransit_takeReply hd]
  exact Multiset.filter_le_filter _ (Multiset.le_cons_self _ _)

theorem clients_sendRequest (s : Net C) (c : C) :
    (s.sendRequest c).clients c = { s.clients c with pc := .awaiting } :=
  Function.update_self _ _ _

theorem netMoves_of_step (hfits : s.Fits) (hok : noDuplicates s a) (h : s.step a = some t) :
    NetMoves s t := by
  have hclient {c : C} {pc : ClientPc} {next : Net C} (h : s.stepClient c pc next = some t) :
      (s.clients c).pc = pc ∧ next = t := by
    obtain ⟨hpc, h⟩ := Option.ite_none_right_eq_some.mp h
    exact ⟨hpc, Option.some.inj h⟩
  cases a with
  | scan c =>
    obtain ⟨hpc, rfl⟩ := hclient h
    exact .scan c hpc
  | send c =>
    obtain ⟨hpc, rfl⟩ := hclient h
    exact .send c hpc
  | sendError c =>
    obtain ⟨hpc, rfl⟩ := hclient h
    exact .sendError c hpc
  | receive d =>
    obtain ⟨hd, h⟩ := Option.ite_none_right_eq_some.mp h
    obtain ⟨hpc, rfl⟩ := hclient h
    exact .receive d hd hpc
  | recvError c =>
    obtain ⟨hpc, rfl⟩ := hclient h
    exact .recvError c hpc
  | server b =>
    have hqueue : ∀ d ∈ s.server.queue, d.payload.length ≤ BUFF_SIZE - 1 := fun d hd =>
      hfits d (Multiset.mem_add.mpr (Or.inl (Multiset.mem_add.mpr (Or.inr
        (Multiset.mem_add.mpr (Or.inl hd))))))
    have hserver (harrive : ∀ d, b ≠ .arrive d) (h : ((s.server.step b).map fun u =>
        { s with server := u, replies := s.server.emitted b + s.replies }) = some t) :
        NetMoves s t := by
      obtain ⟨u, hstep, rfl⟩ := Option.map_eq_some_iff.mp h
      refine .carry rfl ?_
      have hle := transit_serverStep harrive hqueue hstep
      show s.requests + (u.queue + u.held) + (s.server.emitted b + s.replies) ≤ s.inTransit
      calc s.requests + (u.queue + u.held) + (s.server.emitted b + s.replies)
          = s.requests + (u.queue + u.held + s.server.emitted b) + s.replies := by
            simp only [add_assoc]
        _ ≤ s.inTransit := add_le_add_left (add_le_add_right hle _) _
    cases b with
    | arrive d => cases h
    | recvfrom => exact hserver nofun h
    | recvError => exact hserver nofun h
    | sendto => exact hserver nofun h
    | sendError => exact hserver nofun h
  | arrive d =>
    obtain ⟨hd, h⟩ := Option.ite_none_right_eq_some.mp h
    obtain ⟨u, hstep, rfl⟩ := Option.map_eq_some_iff.mp h
    exact .carry rfl (inTransit_arrive hd hstep).le
  | loseRequest d =>
    obtain ⟨hd, h⟩ := Option.ite_none_right_eq_some.mp h
    obtain rfl := Option.some.inj h
    exact .carry rfl (erase_requests_le s d)
  | loseReply d =>
    obtain ⟨hd, h⟩ := Option.ite_none_right_eq_some.mp h
    obtain rfl := Option.some.inj h
    exact .carry rfl (erase_replies_le s d)
  | duplicateRequest d | duplicateReply d => cases hok

/-! ## Clients in step -/

/-- A word that `scanf` can take: it has a byte, no zero among them, and room in `buff`. -/
def Typable (word : List UInt8) : Prop := word ≠ [] ∧ 0 ∉ word ∧ word.length ≤ BUFF_SIZE - 1

instance (word : List UInt8) : Decidable (Typable word) := inferInstanceAs (Decidable (_ ∧ _))

theorem cString_store (buff : CArray UInt8 BUFF_SIZE) {word : List UInt8} (h : Typable word) :
    cString (buff.store 0 (word ++ [0])).toList 0 = word := by
  have hfit : 0 + (word ++ [0]).length ≤ BUFF_SIZE := by
    have hlen := h.2.2
    have hsize : 0 < BUFF_SIZE := by decide
    rw [List.length_append, List.length_singleton]
    omega
  refine HoldsString.cString_eq ⟨h.2.1, ?_⟩
  rw [buff.toList_store hfit]
  exact List.prefix_append _ _

theorem cString_receivedText (x : Client) {word : List UInt8} (h : Typable word) :
    cString (x.receivedText word).toList 0 = word := by
  have hfit : 0 + word.length + [(0 : UInt8)].length ≤ BUFF_SIZE := by
    have hlen := h.2.2
    have hsize : 0 < BUFF_SIZE := by decide
    rw [List.length_singleton]
    omega
  have hstore := x.buff.store_store hfit
  rw [Nat.zero_add] at hstore
  rw [Client.receivedText, hstore]
  exact cString_store x.buff h

/-- A client prints the word that it receives. -/
theorem clients_takeReply (s : Net C) (h : Typable d.payload) :
    (s.takeReply d).clients d.peer =
      { s.clients d.peer with
        pc := .scanning
        buff := (s.clients d.peer).receivedText d.payload
        printed := (s.clients d.peer).printed ++ [d.payload] } := by
  have hpos : ¬(d.payload.length : ℤ) ≤ 0 := by
    have := List.length_pos_iff.mpr h.1
    omega
  show Function.update s.clients d.peer _ d.peer = _
  rw [Function.update_self, List.take_of_length_le h.2.2, Client.onReceived, if_neg hpos,
    cString_receivedText _ h]

/-- Where the words of a client are, of which `m` are in transit. -/
inductive InStep (x : Client) (c : C) (m : Multiset (Datagram C)) : Prop
  | scanning (hpc : x.pc = .scanning) (hprinted : x.typed = x.printed) (hnone : m = 0)
  | sending (hpc : x.pc = .sending) (htext : Typable x.text)
      (hprinted : x.typed = x.printed ++ [x.text]) (hnone : m = 0)
  | awaiting (word : List UInt8) (hpc : x.pc = .awaiting) (htext : Typable word)
      (hprinted : x.typed = x.printed ++ [word]) (hone : m ≤ {⟨c, word⟩})
  | closed (hpc : x.pc = .closed) (hprinted : x.printed <+: x.typed)
      (hlen : x.typed.length ≤ x.printed.length + 1)

section InStep

variable {x : Client} {m m' : Multiset (Datagram C)}

omit [DecidableEq C]

theorem InStep.of_scanning (h : InStep x c m) (hpc : x.pc = .scanning) :
    x.typed = x.printed ∧ m = 0 := by
  cases h with
  | scanning _ hprinted hnone => exact ⟨hprinted, hnone⟩
  | sending hpc' | awaiting _ hpc' | closed hpc' => rw [hpc] at hpc'; cases hpc'

theorem InStep.of_sending (h : InStep x c m) (hpc : x.pc = .sending) :
    Typable x.text ∧ x.typed = x.printed ++ [x.text] ∧ m = 0 := by
  cases h with
  | sending _ htext hprinted hnone => exact ⟨htext, hprinted, hnone⟩
  | scanning hpc' | awaiting _ hpc' | closed hpc' => rw [hpc] at hpc'; cases hpc'

theorem InStep.of_awaiting (h : InStep x c m) (hpc : x.pc = .awaiting) :
    ∃ word, Typable word ∧ x.typed = x.printed ++ [word] ∧ m ≤ {⟨c, word⟩} := by
  cases h with
  | awaiting word _ htext hprinted hone => exact ⟨word, htext, hprinted, hone⟩
  | scanning hpc' | sending hpc' | closed hpc' => rw [hpc] at hpc'; cases hpc'

/-- What is lost does no harm. -/
theorem InStep.mono (h : InStep x c m) (hle : m' ≤ m) :
    InStep x c m' := by
  cases h with
  | scanning hpc hprinted hnone =>
    exact .scanning hpc hprinted (Multiset.le_zero.mp (hnone ▸ hle))
  | sending hpc htext hprinted hnone =>
    exact .sending hpc htext hprinted (Multiset.le_zero.mp (hnone ▸ hle))
  | awaiting word hpc htext hprinted hone =>
    exact .awaiting word hpc htext hprinted (hle.trans hone)
  | closed hpc hprinted hlen => exact .closed hpc hprinted hlen

/-- At every moment the words have been printed in order, all of them but the last one at most. -/
theorem InStep.printed (h : InStep x c m) :
    x.printed <+: x.typed ∧ x.typed.length ≤ x.printed.length + 1 := by
  cases h with
  | scanning hpc hprinted => exact ⟨hprinted ▸ List.prefix_rfl, by rw [hprinted]; omega⟩
  | sending hpc htext hprinted =>
    exact ⟨⟨_, hprinted.symm⟩, by rw [hprinted, List.length_append, List.length_singleton]⟩
  | awaiting word hpc htext hprinted =>
    exact ⟨⟨_, hprinted.symm⟩, by rw [hprinted, List.length_append, List.length_singleton]⟩
  | closed hpc hprinted hlen => exact ⟨hprinted, hlen⟩

end InStep

/-- What is known of every state of a run without duplicates. -/
structure NetInv (words : C → List (List UInt8)) (s : Net C) : Prop where
  fits : s.Fits
  typed : ∀ c, (s.clients c).typed ++ (s.clients c).input = words c
  inStep : ∀ c, InStep (s.clients c) c (s.carried c)

theorem netInv_init (junk : CArray UInt8 BUFF_SIZE) (words : C → List (List UInt8)) :
    NetInv words (Net.init junk words) where
  fits d hd := absurd hd (Multiset.notMem_zero d)
  typed _ := rfl
  inStep _ := .scanning rfl rfl rfl

namespace NetInv

theorem moved (h : NetInv words s) (c : C) (hfits : t.Fits)
    (hother : ∀ d, d ≠ c → t.clients d = s.clients d ∧ t.carried d ≤ s.carried d)
    (htyped : (t.clients c).typed ++ (t.clients c).input = words c)
    (hself : InStep (t.clients c) c (t.carried c)) : NetInv words t where
  fits := hfits
  typed d := by
    by_cases hd : d = c
    · rw [hd]
      exact htyped
    · rw [(hother d hd).1]
      exact h.typed d
  inStep d := by
    by_cases hd : d = c
    · rw [hd]
      exact hself
    · rw [(hother d hd).1]
      exact (h.inStep d).mono (hother d hd).2

theorem setClient (h : NetInv words s) (c : C) (x : Client)
    (htyped : x.typed ++ x.input = words c) (hself : InStep x c (s.carried c)) :
    NetInv words (s.setClient c x) := by
  have hx : (s.setClient c x).clients c = x := Function.update_self _ _ _
  refine h.moved c h.fits (fun d hd => ⟨Function.update_of_ne hd _ _, le_rfl⟩) ?_ ?_
  · rw [hx]
    exact htyped
  · rw [hx]
    exact hself

theorem moves (h : NetInv words s) (hwords : ∀ c, ∀ word ∈ words c, Typable word)
    (hmove : NetMoves s t) : NetInv words t := by
  cases hmove with
  | scan c hpc =>
    obtain ⟨hprinted, hnone⟩ := (h.inStep c).of_scanning hpc
    have htyped := h.typed c
    rw [Client.scan]
    split
    · exact h.setClient c _ htyped (.closed rfl (hprinted ▸ List.prefix_rfl)
        ((congrArg List.length hprinted).le.trans (Nat.le_succ _)))
    · rename_i word rest hinput
      rw [hinput] at htyped
      have hword : Typable word := hwords c word (by rw [← htyped]; simp)
      have htext := cString_store (s.clients c).buff hword
      refine h.setClient c _ ?_ (.sending rfl ?_ ?_ hnone)
      · show (s.clients c).typed ++ [word] ++ rest = words c
        rw [← htyped, List.append_assoc, List.singleton_append]
      · show Typable (cString _ 0)
        rw [htext]
        exact hword
      · show (s.clients c).typed ++ [word] = (s.clients c).printed ++ [cString _ 0]
        rw [htext, hprinted]
  | send c hpc =>
    obtain ⟨htext, hprinted, hnone⟩ := (h.inStep c).of_sending hpc
    refine h.moved c (fun d hd => ?_)
      (fun d hd => ⟨Function.update_of_ne hd _ _, (carried_sendRequest_of_ne s hd).le⟩) ?_ ?_
    · rw [inTransit_sendRequest, Multiset.mem_cons] at hd
      rcases hd with rfl | hd
      · exact htext.2.2
      · exact h.fits d hd
    · rw [clients_sendRequest]
      exact h.typed c
    · rw [clients_sendRequest]
      refine .awaiting _ rfl htext hprinted ?_
      rw [carried_sendRequest, hnone]
      exact le_rfl
  | sendError c hpc =>
    obtain ⟨htext, hprinted, hnone⟩ := (h.inStep c).of_sending hpc
    exact h.setClient c { s.clients c with pc := .awaiting } (h.typed c)
      (.awaiting _ rfl htext hprinted (by rw [hnone]; exact Multiset.zero_le _))
  | receive d hd hpc =>
    obtain ⟨word, htext, hprinted, hone⟩ := (h.inStep d.peer).of_awaiting hpc
    -- the reply is all there is of this client
    obtain ⟨rfl, hnone⟩ : d.payload = word ∧ (s.takeReply d).carried d.peer = 0 := by
      rw [carried_takeReply hd] at hone
      have hmem := Multiset.mem_singleton.mp (Multiset.mem_of_le hone (Multiset.mem_cons_self _ _))
      refine ⟨congrArg Datagram.payload hmem, ?_⟩
      have hcard := Multiset.card_le_card hone
      rw [Multiset.card_cons, Multiset.card_singleton] at hcard
      exact Multiset.card_eq_zero.mp (by omega)
    have hresponse := clients_takeReply s htext
    refine h.moved d.peer (fun e he => h.fits e ?_)
      (fun c hc => ⟨Function.update_of_ne hc _ _, carried_takeReply_le hd c⟩) ?_ ?_
    · rw [inTransit_takeReply hd]
      exact Multiset.mem_cons_of_mem he
    · rw [hresponse]
      exact h.typed d.peer
    · rw [hresponse]
      exact .scanning rfl hprinted hnone
  | recvError c hpc =>
    obtain ⟨word, htext, hprinted, hone⟩ := (h.inStep c).of_awaiting hpc
    refine h.setClient c { s.clients c with pc := .closed } (h.typed c)
      (.closed rfl ⟨_, hprinted.symm⟩ ?_)
    show (s.clients c).typed.length ≤ _
    rw [hprinted, List.length_append, List.length_singleton]
  | carry hclients hle =>
    refine ⟨fun d hd => h.fits d (Multiset.mem_of_le hle hd), fun c => ?_, fun c => ?_⟩
    · rw [hclients]
      exact h.typed c
    · rw [hclients]
      exact (h.inStep c).mono (Multiset.filter_le_filter _ hle)

end NetInv

theorem netInv_of_trace (hwords : ∀ c, ∀ word ∈ words c, Typable word) {as : List (NetAct C)}
    (h : Trace Net.step noDuplicates (Net.init junk words) as s) : NetInv words s :=
  h.invariant (fun _ _ _ hinv hok hstep =>
    hinv.moves hwords (netMoves_of_step hinv.fits hok hstep)) (netInv_init junk words)

/-- **Answers in order.**  Any number of clients, of which no two ever have the same address, talk
to the server over a network that delays, reorders and loses datagrams but delivers none of them
twice, and any call may fail.  At every moment each client has printed the first of its own words,
in the order in which they were typed, and all of those it has typed except one at most. -/
theorem answers_in_order (hwords : ∀ c, ∀ word ∈ words c, Typable word) {as : List (NetAct C)}
    (h : Trace Net.step noDuplicates (Net.init junk words) as s) (c : C) :
    (s.clients c).printed <+: (s.clients c).typed ∧
      (s.clients c).typed.length ≤ (s.clients c).printed.length + 1 ∧
      (s.clients c).typed <+: words c := by
  have hinv := netInv_of_trace hwords h
  obtain ⟨hprinted, hlen⟩ := (hinv.inStep c).printed
  exact ⟨hprinted, hlen, ⟨_, hinv.typed c⟩⟩

/-- What the client `true` and the client `false` are going to type. -/
def twoInputs : Bool → List (List UInt8)
  | true => [[104, 105], [33]]
  | false => [[111, 107]]

/-- The request of the client `false` overtakes that of the client `true`, and the reply to it is
lost. -/
def twoClients : List (NetAct Bool) :=
  [.scan true, .send true, .scan false, .send false, .arrive ⟨false, [111, 107]⟩,
    .arrive ⟨true, [104, 105]⟩, .server .recvfrom, .server .sendto, .server .recvfrom,
    .server .sendto, .loseReply ⟨false, [111, 107]⟩, .receive ⟨true, [104, 105]⟩, .scan true,
    .send true]

theorem answers_in_order_twoClients :
    ∃ s, Trace Net.step noDuplicates (Net.init (CArray.replicate _ 7) twoInputs) twoClients s ∧
      (s.clients true).printed = [[104, 105]] ∧
      (s.clients true).printed <+: (s.clients true).typed ∧
      (s.clients true).typed.length ≤ (s.clients true).printed.length + 1 ∧
      (s.clients true).typed <+: twoInputs true := by
  obtain ⟨s, h, hs⟩ := Trace.exists_of_eval Net.step noDuplicates
    (fun s => decide ((s.clients true).printed = [[104, 105]]))
    (Net.init (CArray.replicate _ 7) twoInputs) twoClients (by decide +kernel)
  exact ⟨s, h, of_decide_eq_true hs, answers_in_order (by decide +kernel) h true⟩

/-! ## A loss is final -/

/-- The client waits, or has given up waiting, nothing is on its way to it or from it, and its
history is still that of `x`. -/
structure Stalled (x : Client) (c : C) (s : Net C) : Prop where
  pc : (s.clients c).pc = .awaiting ∨ (s.clients c).pc = .closed
  nothing : s.carried c = 0
  typed : (s.clients c).typed = x.typed
  printed : (s.clients c).printed = x.printed

theorem Stalled.keep {x : Client} (h : Stalled x c s)
    (hclients : t.clients c = s.clients c) (hle : t.carried c ≤ s.carried c) : Stalled x c t where
  pc := by
    rw [hclients]
    exact h.pc
  nothing := Multiset.le_zero.mp (h.nothing ▸ hle)
  typed := by
    rw [hclients]
    exact h.typed
  printed := by
    rw [hclients]
    exact h.printed

theorem Stalled.moves {x : Client} (h : Stalled x c s) (hmove : NetMoves s t) :
    Stalled x c t := by
  have hne {b : C} {pc : ClientPc} (hpc : (s.clients b).pc = pc)
      (hnot : pc ≠ .awaiting ∧ pc ≠ .closed) : c ≠ b := by
    rintro rfl
    have hstalled := h.pc
    rw [hpc] at hstalled
    exact hstalled.elim hnot.1 hnot.2
  cases hmove with
  | scan b hpc =>
    exact h.keep (Function.update_of_ne (hne hpc ⟨nofun, nofun⟩) _ _) le_rfl
  | send b hpc =>
    have hb := hne hpc ⟨nofun, nofun⟩
    exact h.keep (Function.update_of_ne hb _ _) (carried_sendRequest_of_ne s hb).le
  | sendError b hpc =>
    exact h.keep (Function.update_of_ne (hne hpc ⟨nofun, nofun⟩) _ _) le_rfl
  | receive d hd hpc =>
    have hb : c ≠ d.peer := by
      rintro rfl
      have hmine := carried_takeReply hd
      rw [h.nothing] at hmine
      exact Multiset.zero_ne_cons hmine
    exact h.keep (Function.update_of_ne hb _ _) (carried_takeReply_le hd c)
  | recvError b hpc =>
    by_cases hb : c = b
    · subst hb
      have hx : (s.setClient c { s.clients c with pc := .closed }).clients c =
        { s.clients c with pc := .closed } := Function.update_self _ _ _
      exact ⟨Or.inr (by rw [hx]), h.nothing, by rw [hx]; exact h.typed,
        by rw [hx]; exact h.printed⟩
    · exact h.keep (Function.update_of_ne hb _ _) le_rfl
  | carry hclients hle =>
    exact h.keep (congrFun hclients c) (Multiset.filter_le_filter _ hle)

/-- **A loss is final.**  When a client waits and neither its datagram nor a reply to its address is
on its way any more, it never prints anything again: whatever happens then, nobody sends its word
once more. -/
theorem loss_is_final (hwords : ∀ c, ∀ word ∈ words c, Typable word) {as bs : List (NetAct C)}
    (h : Trace Net.step noDuplicates (Net.init junk words) as s)
    (hpc : (s.clients c).pc = .awaiting) (hlost : s.carried c = 0)
    (h' : Trace Net.step noDuplicates s bs t) :
    (t.clients c).typed = (s.clients c).typed ∧ (t.clients c).printed = (s.clients c).printed := by
  have hstart : NetInv words s ∧ Stalled (s.clients c) c s :=
    ⟨netInv_of_trace hwords h, Or.inl hpc, hlost, rfl, rfl⟩
  have hend := h'.invariant (P := fun s' => NetInv words s' ∧ Stalled (s.clients c) c s')
    (fun u a v hu hok hstep => ?_) hstart
  · exact ⟨hend.2.typed, hend.2.printed⟩
  · have hmove := netMoves_of_step hu.1.fits hok hstep
    exact ⟨hu.1.moves hwords hmove, hu.2.moves hmove⟩

/-- The other client goes on. -/
def otherClient : List (NetAct Bool) :=
  [.arrive ⟨true, [33]⟩, .server .recvfrom, .server .sendto, .receive ⟨true, [33]⟩]

/-- The reply to the client `false` is lost. -/
theorem loss_is_final_twoClients :
    ∃ s t, Trace Net.step noDuplicates (Net.init (CArray.replicate _ 7) twoInputs) twoClients s ∧
      Trace Net.step noDuplicates s otherClient t ∧
      (t.clients true).printed = [[104, 105], [33]] ∧
      (t.clients false).typed = (s.clients false).typed ∧
      (t.clients false).printed = (s.clients false).printed := by
  obtain ⟨s, h, hs⟩ := Trace.exists_of_eval Net.step noDuplicates
    (fun s => decide ((s.clients false).pc = .awaiting ∧ s.carried false = 0) &&
      ((evalTrace Net.step noDuplicates s otherClient).map fun t =>
        decide ((t.clients true).printed = [[104, 105], [33]])) == some true)
    (Net.init (CArray.replicate _ 7) twoInputs) twoClients (by decide +kernel)
  obtain ⟨hlost, hrest⟩ := Bool.and_eq_true_iff.mp hs
  obtain ⟨hpc, hnothing⟩ := of_decide_eq_true hlost
  obtain ⟨t, h', ht⟩ := Trace.exists_of_eval Net.step noDuplicates _ s otherClient
    (beq_iff_eq.mp hrest)
  exact ⟨s, t, h, h', of_decide_eq_true ht,
    loss_is_final (by decide +kernel) h hpc hnothing h'⟩

end UdpEcho
end CaosSeminars
