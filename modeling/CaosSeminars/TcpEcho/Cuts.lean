import CaosSeminars.TcpEcho.Lockstep
import Mathlib.Algebra.Ring.Nat

/-!
# Where the stream of the client is cut

What a server reads in one call is a matter of two lists of numbers: how many bytes of
each line the client's `write` has accepted (`writes`), and how long the chunks are that
the server's `read` has returned (`cuts`).  This file reads the chunks off them.

* `sentOf` --- the stream: the beginnings of the lines, one after another.
* `Streamed` --- the invariant of a run: the chunks so far, and behind them what is
  still in flight, are the stream of the lines taken so far.
* `quitCommand_mem_chunks_iff` --- some chunk is the single byte `'q'` **iff** a cut of
  length one falls on a `'q'` of the stream.

The lines are of any number; each is one that the client takes whole (`Plain`).  Nothing
is asked of the cuts, and a `write` of the client may be short.
-/

namespace CaosSeminars
namespace TcpEcho

/-! ## The two lists -/

/-- The chunk that a `read` of the server returns. -/
def Event.chunk : Event → Option (List UInt8)
  | .server (.read (.bytes bs)) => some bs
  | _ => none

/-- The count that a `write` of the client returns. -/
def Event.written : Event → Option ℕ
  | .client (.write (.count n)) => some n
  | _ => none

def chunks (es : List Event) : List (List UInt8) := es.filterMap Event.chunk

/-- The lengths of the chunks. -/
def cuts (es : List Event) : List ℕ := (chunks es).map List.length

def writes (es : List Event) : List ℕ := es.filterMap Event.written

/-- What is sent of the lines when `write` accepts that many bytes of each. -/
def sentOf (lines : List (List UInt8)) (counts : List ℕ) : List UInt8 :=
  (lines.zipWith (fun line n => line.take n) counts).flatten

/-- A cut of length one falls on a `'q'`. -/
def CutToQ (sent : List UInt8) (cuts : List ℕ) : Prop :=
  ∃ i, cuts[i]? = some 1 ∧ sent[(cuts.take i).sum]? = some 113

variable {server : Server} {s s' : Sys} {e : Event} {es pre : List Event} {a : Act}
  {lines rest : List (List UInt8)} {line : List UInt8} {counts : List ℕ} {n : ℕ}

theorem flatten_chunks_append :
    (chunks (pre ++ [.server a])).flatten = (chunks pre).flatten ++ a.received := by
  rw [chunks, List.filterMap_append, List.flatten_append, chunks]
  congr 1
  cases a with
  | read r => cases r <;> simp [Event.chunk, Act.received, ReadResult.received]
  | _ => rfl

theorem sentOf_append (h : lines.drop counts.length = line :: rest) :
    sentOf lines (counts ++ [n]) = sentOf lines counts ++ line.take n := by
  induction counts generalizing lines with
  | nil =>
    rw [List.length_nil, List.drop_zero] at h
    simp [h, sentOf]
  | cons k counts ih =>
    cases lines with
    | nil => cases h
    | cons first lines =>
      have htail : sentOf lines (counts ++ [n]) = sentOf lines counts ++ line.take n := ih h
      rw [sentOf] at htail
      simp [sentOf, htail]

/-- A part of length one is found by the lengths alone. -/
theorem singleton_mem_iff {α : Type*} {parts : List (List α)} {more : List α} {b : α} :
    [b] ∈ parts ↔ ∃ i, (parts.map List.length)[i]? = some 1 ∧
      (parts.flatten ++ more)[((parts.map List.length).take i).sum]? = some b := by
  induction parts with
  | nil => simp
  | cons part parts ih =>
    have hfirst : [b] = part ↔
        part.length = 1 ∧ (part ++ (parts.flatten ++ more))[0]? = some b := by
      match part with
      | [] => simp
      | [c] => simp [eq_comm]
      | _ :: _ :: _ => simp
    have hlater : ∀ k, (part ++ (parts.flatten ++ more))[part.length + k]? =
        (parts.flatten ++ more)[k]? := fun k => by
      rw [List.getElem?_append_right (Nat.le_add_right _ _), Nat.add_sub_cancel_left]
    rw [List.mem_cons, hfirst, ih, List.flatten_cons, List.append_assoc]
    constructor
    · rintro (⟨hlen, hb⟩ | ⟨i, hlen, hb⟩)
      · exact ⟨0, by simpa using hlen, hb⟩
      · refine ⟨i + 1, hlen, ?_⟩
        rw [List.map_cons, List.take_succ_cons, List.sum_cons, hlater]
        exact hb
    · rintro ⟨_ | i, hlen, hb⟩
      · exact Or.inl ⟨by simpa using hlen, hb⟩
      · rw [List.map_cons, List.take_succ_cons, List.sum_cons, hlater] at hb
        exact Or.inr ⟨i, hlen, hb⟩

/-! ## The invariant -/

/-- The client has these lines still to send. -/
def Unsent (c : Client) (rest : List (List UInt8)) : Prop :=
  match c.pc with
  | .typing | .awaiting => Typed c.stdin rest
  | .sending len => ∃ line rest', rest = line :: rest' ∧ len = line.length ∧ Holds c.buff line ∧
      Typed c.stdin rest'
  | .done => True

/-- The chunks are a beginning of the stream, and the rest of it is in flight. -/
structure Streamed (lines : List (List UInt8)) (es : List Event) (s : Sys) : Prop where
  unsent : Unsent s.client (lines.drop (writes es).length)
  stream : (chunks es).flatten ++ s.up = sentOf lines (writes es)

theorem streamed_init {msg buff response : Buffer} {stdin : List UInt8}
    (htyped : Typed stdin lines) : Streamed lines [] (Sys.init msg buff response stdin) :=
  ⟨htyped, by simp [chunks, writes, sentOf, Sys.init]⟩

theorem Streamed.onServer {t : Session} (h : Streamed lines pre s)
    (hok : network s (.server a)) : Streamed lines (pre ++ [.server a]) (s.onServer a t) := by
  have hwrites : writes (pre ++ [.server a]) = writes pre := by
    rw [writes, List.filterMap_append]
    exact List.append_nil _
  obtain ⟨⟨more, hmore⟩, -⟩ := received_of_network hok
  refine ⟨hwrites ▸ h.unsent, ?_⟩
  show _ ++ s.up.drop a.received.length = _
  rw [hwrites, ← h.stream, flatten_chunks_append, ← hmore, List.drop_left' rfl, List.append_assoc]

theorem Streamed.onClient {a : ClientAct} {c : Client} (hplain : ∀ line ∈ lines, Plain line)
    (h : Streamed lines pre s) (hok : network s (.client a)) (hm : ClientMoves s.client a c) :
    Streamed lines (pre ++ [.client a]) (s.onClient a c) := by
  obtain ⟨hunsent, hstream⟩ := h
  have hchunks : chunks (pre ++ [.client a]) = chunks pre := by
    rw [chunks, List.filterMap_append]
    exact List.append_nil _
  have hsilent : Event.written (.client a) = none → s.client.accepted a = [] →
      Unsent c (lines.drop (writes pre).length) →
      Streamed lines (pre ++ [.client a]) (s.onClient a c) := by
    intro hnone haccepted hc
    have hwrites : writes (pre ++ [.client a]) = writes pre := by
      simp [writes, List.filterMap_append, hnone]
    refine ⟨hwrites ▸ hc, ?_⟩
    rw [hchunks, hwrites, ← hstream]
    show _ ++ (s.up ++ s.client.accepted a) = _
    rw [haccepted, List.append_nil]
  cases hm with
  | @line taken input hpc hgets =>
    rw [Unsent, hpc] at hunsent
    refine hsilent rfl rfl ?_
    have hrest : ∀ line ∈ lines.drop (writes pre).length, Plain line :=
      fun line hmem => hplain line (List.mem_of_mem_drop hmem)
    obtain ⟨line, rest, hlines, htyped, hholds, hpc'⟩ := takeLine_of_typed hunsent hrest hgets
    rw [Unsent, hpc']
    exact ⟨line, rest, hlines, rfl, hholds, htyped⟩
  | @write len n hpc =>
    rw [Unsent, hpc] at hunsent
    obtain ⟨line, rest, hlines, rfl, hholds, htyped⟩ := hunsent
    obtain ⟨-, hle⟩ : 0 < n ∧ n ≤ s.client.pc.asked := hok
    rw [hpc, ClientPc.asked] at hle
    have hwrites : writes (pre ++ [.client (.write (.count n))]) = writes pre ++ [n] := by
      rw [writes, List.filterMap_append]
      rfl
    refine ⟨?_, ?_⟩
    · have hdrop : lines.drop (writes pre ++ [n]).length = rest := by
        rw [List.length_append, ← List.drop_drop, hlines]
        rfl
      rw [hwrites, hdrop]
      show Unsent s.client.afterWrite rest
      rw [Unsent, Client.afterWrite]
      split_ifs
      · trivial
      · exact htyped
    · rw [hchunks, hwrites, sentOf_append hlines, ← hstream, List.append_assoc]
      show _ ++ (s.up ++ s.client.buff.slice 0 n) = _
      rw [hholds.slice hle, List.drop_zero, Nat.sub_zero]
  | read bs hpc =>
    rw [Unsent, hpc] at hunsent
    exact hsilent rfl rfl hunsent
  | leave hread hwrite =>
    refine hsilent ?_ hwrite trivial
    cases a with
    | write r =>
      cases r with
      | count n =>
        -- what a positive count says is accepted is not empty, so the client was not sending
        obtain ⟨hpos, -⟩ : 0 < n ∧ n ≤ s.client.pc.asked := hok
        have hempty : s.client.buff.slice 0 n = [] := hwrite
        rw [CArray.slice, List.drop_zero, List.take_eq_nil_iff] at hempty
        rcases hempty with hzero | hnil
        · exact absurd hzero hpos.ne'
        · exact absurd (hnil ▸ s.client.buff.length_eq) (by decide)
      | _ => rfl
    | _ => rfl

/-- **The chunks of a run and what is in flight are the stream.** -/
theorem streamed_of_trace {msg buff response : Buffer} {stdin : List UInt8}
    (htyped : Typed stdin lines) (hplain : ∀ line ∈ lines, Plain line)
    (h : Trace (Sys.step server) network (Sys.init msg buff response stdin) es s) :
    Streamed lines es s := by
  refine h.history (P := Streamed lines) (fun pre s e t hs hok hstep => ?_) (streamed_init htyped)
  cases sysMoves_of_step hok hstep with
  | server hm => exact hs.onServer hok
  | client hm => exact hs.onClient hplain hok hm

/-- **A chunk is the quit command exactly if a cut of length one falls on a `'q'`.** -/
theorem Streamed.quitCommand_mem_chunks_iff (h : Streamed lines es s) :
    quitCommand ∈ chunks es ↔ CutToQ (sentOf lines (writes es)) (cuts es) := by
  rw [CutToQ, ← h.stream]
  exact singleton_mem_iff

end TcpEcho
end CaosSeminars
