import CaosSeminars.TcpEcho.Client
import CaosSeminars.TcpEcho.Relay

/-!
# The client and a server, connected

The two loops are composed over two streams.  A stream keeps the order of its bytes
and loses none, but it does not keep the boundaries: `read` returns any part of the
beginning of what is in flight, as long as it is not empty and fits.

As long as both sides are open nothing fails (`network`).  When one side has shut the
connection down, the other may find the end of the stream or an error, and its
`write` may fail.

* `network` --- what the two streams promise; it implies what a session relies on
  (`kernelAnswers_of_network`).
* `Sys.Moves`, `sysMoves_of_step` --- what one step of the two can do.
* `InFlight`, `InFlight.onServer` --- the bytes on the way to the client, in the server and
  on the way to it; as long as the client is open the server only moves them on.
-/

namespace CaosSeminars
namespace TcpEcho

/-- A client, a session of a server, and the bytes in flight. -/
structure Sys where
  server : Session
  client : Client
  /-- From the client to the server. -/
  up : List UInt8
  /-- From the server to the client. -/
  down : List UInt8
  deriving DecidableEq

/-- Before the first step. -/
def Sys.init (msg buff response : Buffer) (stdin : List UInt8) : Sys :=
  ⟨Session.init msg, Client.init buff response stdin, [], []⟩

/-- One of the two makes a step. -/
inductive Event where
  | server (a : Act)
  | client (a : ClientAct)
  deriving DecidableEq

/-- The bytes that `read` returns in a step of the client. -/
def ClientAct.received : ClientAct → List UInt8
  | .read r => r.received
  | _ => []

/-- The state after the server's step to `t`. -/
def Sys.onServer (s : Sys) (a : Act) (t : Session) : Sys :=
  ⟨t, s.client, s.up.drop a.received.length, s.down ++ s.server.accepted a⟩

/-- The state after the client's step to `c`. -/
def Sys.onClient (s : Sys) (a : ClientAct) (c : Client) : Sys :=
  ⟨s.server, c, s.up ++ s.client.accepted a, s.down.drop a.received.length⟩

/-- One step of the two. -/
def Sys.step (server : Server) (s : Sys) : Event → Option Sys
  | .server a => (s.server.step server a).map (s.onServer a)
  | .client a => (s.client.step a).map (s.onClient a)

/-- The client has shut the connection down. -/
def Client.closed (c : Client) : Bool := c.pc = .done

/-- The count that the client passes to `write`. -/
def ClientPc.asked : ClientPc → ℕ
  | .sending len => len
  | _ => 0

/-- What `read` may return of the bytes in flight; `gone` says that the other side has
shut the connection down. -/
def mayRead (inFlight : List UInt8) (gone : Bool) : ReadResult → Prop
  | .bytes bs => bs <+: inFlight ∧ 0 < bs.length ∧ bs.length ≤ BUFF_SIZE - 1
  | .eof => gone ∧ inFlight = []
  | .error => gone

/-- What `write` may return when it is asked for `asked` bytes. -/
def mayWrite (asked : ℕ) (gone : Bool) : WriteResult → Prop
  | .count n => 0 < n ∧ n ≤ asked
  | _ => gone

/-- What the network promises. -/
def network (s : Sys) : Event → Prop
  | .server (.read r) => mayRead s.up s.client.closed r
  | .server (.write r) => mayWrite s.server.pc.asked s.client.closed r
  | .client (.read r) => mayRead s.down s.server.pc.closed r
  | .client (.write r) => mayWrite s.client.pc.asked s.server.pc.closed r
  | .server .go | .client .gets => True

instance (inFlight : List UInt8) (gone : Bool) :
    (r : ReadResult) → Decidable (mayRead inFlight gone r)
  | .bytes _ => inferInstanceAs (Decidable (_ ∧ _ ∧ _))
  | .eof => inferInstanceAs (Decidable (_ ∧ _))
  | .error => inferInstanceAs (Decidable (_ = true))

instance (asked : ℕ) (gone : Bool) : (r : WriteResult) → Decidable (mayWrite asked gone r)
  | .count _ => inferInstanceAs (Decidable (_ ∧ _))
  | .zero | .error => inferInstanceAs (Decidable (_ = true))

instance (s : Sys) : (e : Event) → Decidable (network s e)
  | .server (.read r) | .client (.read r) => inferInstanceAs (Decidable (mayRead _ _ r))
  | .server (.write r) | .client (.write r) => inferInstanceAs (Decidable (mayWrite _ _ r))
  | .server .go | .client .gets => inferInstanceAs (Decidable True)

variable {server : Server} {s s' : Sys} {a : Act} {t : Session} {e : Event}

theorem kernelAnswers_of_network (h : network s (.server a)) : kernelAnswers s.server a := by
  cases a with
  | read r =>
    cases r with
    | bytes bs => exact h.2
    | _ => trivial
  | write r =>
    cases r with
    | count n => exact h
    | _ => trivial
  | go => trivial

/-- What one step of the two can do. -/
inductive Sys.Moves (server : Server) (s : Sys) : Event → Sys → Prop
  | server {a : Act} {t : Session} (hm : TcpEcho.Moves server s.server a t) :
      Sys.Moves server s (.server a) (s.onServer a t)
  | client {a : ClientAct} {c : Client} (hm : ClientMoves s.client a c) :
      Sys.Moves server s (.client a) (s.onClient a c)

theorem sysMoves_of_step (hok : network s e) (h : s.step server e = some s') :
    Sys.Moves server s e s' := by
  cases e with
  | server a =>
    obtain ⟨t, ht, rfl⟩ := Option.map_eq_some_iff.mp h
    exact Sys.Moves.server (moves_of_step (kernelAnswers_of_network hok) ht)
  | client a =>
    obtain ⟨c, hc, rfl⟩ := Option.map_eq_some_iff.mp h
    exact Sys.Moves.client (clientMoves_of_step hc)

theorem received_isPrefix {inFlight : List UInt8} {gone : Bool} {r : ReadResult}
    (h : mayRead inFlight gone r) : r.received <+: inFlight := by
  cases r with
  | bytes bs => exact h.1
  | _ => exact List.nil_prefix

/-- What the server reads was on the way. -/
theorem received_of_network (hok : network s (.server a)) :
    a.received <+: s.up ∧ a.received.length < BUFF_SIZE := by
  have hpos : 0 < BUFF_SIZE := by decide
  cases a with
  | read r =>
    refine ⟨received_isPrefix hok, ?_⟩
    cases r with
    | bytes bs =>
      have hle : bs.length ≤ BUFF_SIZE - 1 := hok.2.2
      exact lt_of_le_of_lt hle (Nat.sub_lt hpos Nat.one_pos)
    | _ => exact hpos
  | _ => exact ⟨List.nil_prefix, hpos⟩

/-! ## The bytes between the two ends -/

/-- On the way to the client, held by the server, and on the way to the server are these
bytes, in this order. -/
def InFlight (s : Sys) (bs : List UInt8) : Prop :=
  ∃ held, Phase s.server held ∧ s.down ++ held ++ s.up = bs

variable {bs echo : List UInt8}

theorem InFlight.echo_isPrefix (h : InFlight s bs)
    (hok : network s (.client (.read (.bytes echo)))) :
    echo <+: bs := by
  obtain ⟨held, -, rfl⟩ := h
  obtain ⟨⟨more, hmore⟩, -⟩ := hok
  rw [← hmore, List.append_assoc, List.append_assoc]
  exact List.prefix_append _ _

/-- **As long as the client is open, the server only moves bytes on.** -/
theorem InFlight.onServer (h : InFlight s bs) (hopen : ¬s.client.closed)
    (hok : network s (.server a)) (hm : TcpEcho.Moves server s.server a t) :
    InFlight (s.onServer a t) bs := by
  obtain ⟨held, hphase, rfl⟩ := h
  obtain ⟨held', hphase', hcases⟩ := hphase.moves (kernelAnswers_of_network hok) hm
  refine ⟨held', hphase', ?_⟩
  show s.down ++ s.server.accepted a ++ held' ++ s.up.drop a.received.length =
    s.down ++ held ++ s.up
  rcases hcases with ⟨-, haccepted, rfl⟩ | ⟨-, hreceived, rfl, -⟩ | ⟨hmark, -⟩
  · obtain ⟨⟨rest, hrest⟩, -⟩ := received_of_network hok
    rw [haccepted, ← hrest, List.drop_left' rfl]
    simp only [List.append_assoc, List.nil_append]
  · rw [hreceived]
    simp only [List.append_assoc, List.length_nil, List.drop_zero]
  · cases a with
    | write r =>
      cases r with
      | count n => cases hmark
      | _ => exact absurd hok hopen
    | _ => cases hmark

end TcpEcho
end CaosSeminars
