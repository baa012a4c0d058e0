import CaosSeminars.Epoll.Bursts

/-!
# A full buffer closes the connection

`read_buff` answers `-1` when `buffer_end` has reached `BUFF_SIZE`, the value it
also gives for a failed `read`, and `process_epoll_event` closes the connection
on it.  The loop calls `read_buff` once more after every successful read.  So a
read that fills the buffer to its last byte is followed by a close, although
nothing failed and every byte fits: a client that sends `BUFF_SIZE` bytes at once
loses its connection.  The space in front of `buffer_begin` does not help, since
it is taken back only when the cursors meet.  `write_buff`, which has nothing to
do when the cursors have met, answers `0` there and closes nothing.

A connection on which nothing fails (`wellBehaved`) is therefore kept exactly as
long as every successful read leaves room behind `buffer_end` (`leavesRoom`).  In
terms of what is received: as long as every burst is shorter than the buffer
(`leavesRoom_iff_short`).

* `HasRoom` --- the invariant of a run whose reads all leave room; `Doomed` --- what holds after the
  first one that does not, up to the close.
* `leavesRoom_of_waiting` --- a connection that is open between two events has had room throughout.
* `connection_kept_iff_leavesRoom` --- the three statements together: it is kept if every read
  leaves room, between events only then, and that is so exactly if every burst is short.
-/

namespace CaosSeminars
namespace Epoll

/-- An event without a hangup bit; an answer that is not an error. -/
def harmless : Act → Prop
  | .event m => m.hangup = false
  | .read r => r ≠ .error
  | .write w => w ≠ .error
  | _ => True

/-- Nothing fails on the connection, and at most `BUFF_SIZE` bytes are received
and not yet echoed. -/
structure wellBehaved (c : Conn) (a : Act) : Prop where
  answers : kernelAnswers c a
  harmless : harmless a
  unechoed : c.received.length ≤ c.sent.length + BUFF_SIZE

instance : (a : Act) → Decidable (harmless a)
  | .event m => inferInstanceAs (Decidable (m.hangup = false))
  | .read r => inferInstanceAs (Decidable (r ≠ .error))
  | .write w => inferInstanceAs (Decidable (w ≠ .error))
  | .rearm | .disarm => inferInstanceAs (Decidable True)

instance (c : Conn) (a : Act) : Decidable (wellBehaved c a) :=
  decidable_of_iff (kernelAnswers c a ∧ harmless a ∧ c.received.length ≤ c.sent.length + BUFF_SIZE)
    ⟨fun h => ⟨h.1, h.2.1, h.2.2⟩, fun h => ⟨h.answers, h.harmless, h.unechoed⟩⟩

/-- A successful read leaves room behind `buffer_end`. -/
def leavesRoom (c : Conn) : Act → Prop
  | .read (.bytes bs) => c.data.bufferEnd + bs.length < BUFF_SIZE
  | _ => True

variable {d : FdData} {c c' : Conn} {a : Act}

theorem bufferEnd_writeBuff_le (h : Bounds d) (w : WriteResult) :
    (writeBuff d w).1.bufferEnd ≤ d.bufferEnd := by
  have hb := h.begin_nonneg
  have hbe := h.begin_le_end
  by_cases hnone : nothingToWrite d
  · rw [writeBuff_nothing hnone]
  · cases w with
    | count n =>
      rw [writeBuff_count hnone]
      split
      · simp only
        omega
      · exact le_rfl
    | _ => rw [writeBuff_other (by simp)]

/-- With room in the buffer, and after a `read` that did not fail, `read_buff` does
not answer `-1`. -/
theorem readBuff_result_nonneg {r : ReadResult} (hfull : ¬full d) (hr : r ≠ .error) :
    0 ≤ (readBuff d r).2 := by
  cases r with
  | bytes bs =>
    rw [readBuff_bytes hfull]
    exact Int.natCast_nonneg _
  | error => exact absurd rfl hr
  | _ => simp [readBuff, hfull]

/-- After a `write` that did not fail, `write_buff` does not answer `-1`. -/
theorem writeBuff_result_nonneg {w : WriteResult} (hw : w ≠ .error) : 0 ≤ (writeBuff d w).2 := by
  by_cases hnone : nothingToWrite d
  · rw [writeBuff_nothing hnone]
  · cases w with
    | count n =>
      rw [writeBuff_count hnone]
      split <;> exact Int.natCast_nonneg _
    | error => exact absurd rfl hw
    | _ => simp [writeBuff]

@[simp] theorem afterReads_ne_closed (m : Mask) : afterReads m ≠ .closed := by
  rw [afterReads]
  split <;> simp

theorem onEvent_ne_closed {m : Mask} (h : m.hangup = false) : onEvent m ≠ .closed := by
  rw [onEvent, h, if_neg Bool.false_ne_true]
  split
  · simp
  · exact afterReads_ne_closed m

/-- The loop closes only on `-1`. -/
theorem onRead_ne_closed {m : Mask} {n : ℤ} (h : 0 ≤ n) : onRead m n ≠ .closed := by
  rw [onRead]
  split
  · simp
  · rw [if_pos (by omega)]
    exact afterReads_ne_closed m

/-- The `EPOLLOUT` part closes only on `-1`. -/
theorem onWrite_ne_closed {n : ℤ} (h : 0 ≤ n) : onWrite d n ≠ .closed := by
  rw [onWrite, if_neg (not_lt.mpr h)]
  split <;> simp

/-! ## Room and bursts -/

theorem Tracks.short_next_iff {b : Bursts} (h : Tracks b c.data) (a : Act) :
    Short (b.next a) ↔ Short b ∧ leavesRoom c a := by
  have hend := h.received
  cases a with
  | read r =>
    cases r with
    | bytes bs =>
      have hroom : leavesRoom c (.read (.bytes bs)) ↔ b.current.length + bs.length < BUFF_SIZE := by
        show c.data.bufferEnd + bs.length < BUFF_SIZE ↔ _
        omega
      rw [hroom, Bursts.next]
      simp only [Short, Bursts.all, List.forall_mem_append, List.forall_mem_singleton]
      split
      · omega
      · rw [List.length_append]
        exact ⟨fun hs => ⟨⟨hs.1, by omega⟩, hs.2⟩, fun hs => ⟨hs.1.1, hs.2⟩⟩
    | _ => exact (and_iff_left trivial).symm
  | write w =>
    refine Iff.trans ?_ (and_iff_left trivial).symm
    cases w with
    | count n =>
      rw [Bursts.next]
      split
      · rfl
      · split
        · -- the burst is over, and the next one is empty
          have hall : (Bursts.all ⟨b.all, [], 0⟩) = b.all ++ [[]] := rfl
          rw [Short, hall, List.forall_mem_append, List.forall_mem_singleton]
          exact and_iff_left (by decide)
        · rfl
    | _ => rfl
  | _ => exact (and_iff_left trivial).symm

/-- **Every read leaves room exactly if every burst is short.** -/
theorem leavesRoom_iff_short {fd : ℤ} {as : List Act}
    (h : Trace Conn.step wellBehaved (Conn.init fd) as c) :
    Trace Conn.step (fun c a => wellBehaved c a ∧ leavesRoom c a) (Conn.init fd) as c ↔
      Short (burstsOf as) := by
  have hmet : Trace Conn.step (fun c a => wellBehaved c a ∧ leavesRoom c a) (Conn.init fd) as c ∧
        Short (burstsOf []) ↔
      Short (burstsOf ([] ++ observe Conn.step (fun _ a => some a) (Conn.init fd) as)) := by
    refine h.met_iff_observe (P := fun (as : List Act) (c : Conn) => Tracks (burstsOf as) c.data)
      (Q := fun as => Short (burstsOf as)) (fun pre c a c' hc hok hstep => ?_)
      (fun pre c a c' hc hok hstep => ?_) (tracks_new fd)
    · rw [burstsOf, List.foldl_append]
      exact hc.moves hok.answers (moves_of_step hstep)
    · rw [burstsOf, List.foldl_append]
      exact hc.short_next_iff a
  rwa [and_iff_left short_nil, h.observe_self, List.nil_append] at hmet

/-! ## Room is kept -/

/-- The connection is open and there is room behind `buffer_end`. -/
structure HasRoom (c : Conn) : Prop where
  echoes : Echoes c
  room : c.data.bufferEnd < BUFF_SIZE
  opened : c.pc ≠ .closed

theorem hasRoom_init (fd : ℤ) : HasRoom (Conn.init fd) :=
  ⟨echoes_init fd, by simp [Conn.init, FdData.new, BUFF_SIZE], by simp [Conn.init]⟩

theorem HasRoom.bufferEnd_readBuff_lt (h : HasRoom c) {r : ReadResult}
    (hroom : leavesRoom c (.read r)) : (readBuff c.data r).1.bufferEnd < BUFF_SIZE := by
  cases r with
  | bytes bs =>
    rw [readBuff_bytes (not_le.mpr h.room)]
    exact hroom
  | _ =>
    rw [readBuff_other (by simp)]
    exact h.room

theorem HasRoom.moves (h : HasRoom c) (hok : wellBehaved c a) (hroom : leavesRoom c a)
    (hm : Moves c a c') : HasRoom c' := by
  have hechoes := h.echoes.moves hok.answers hm
  have hharm := hok.harmless
  cases hm with
  | event m hpc => exact ⟨hechoes, h.room, onEvent_ne_closed hharm⟩
  | read r hpc =>
    exact ⟨hechoes, h.bufferEnd_readBuff_lt hroom,
      onRead_ne_closed (readBuff_result_nonneg (not_le.mpr h.room) hharm)⟩
  | rearm hpc => exact ⟨hechoes, h.room, by simp⟩
  | write w hpc =>
    exact ⟨hechoes, (bufferEnd_writeBuff_le h.echoes.bounds w).trans_lt h.room,
      onWrite_ne_closed (writeBuff_result_nonneg hharm)⟩
  | disarm hpc => exact ⟨hechoes, h.room, by simp⟩

/-! ## A read that leaves no room -/

/-- The connection is closed, or it is in the read loop with the buffer full. -/
def Doomed (c : Conn) : Prop :=
  c.pc = .closed ∨ ((∃ m, c.pc = .reading m ∨ c.pc = .rearming m) ∧ full c.data)

/-- The loop goes on to its next `read_buff`, which closes. -/
theorem Doomed.moves (h : Doomed c) (hm : Moves c a c') : Doomed c' := by
  rcases h with hclosed | ⟨⟨m, hpc | hpc⟩, hfull⟩
  · cases hm <;> simp_all
  · cases hm with
    | read r _ =>
      refine Or.inl ?_
      simp [readBuff_full hfull, onRead]
    | _ => simp_all
  · cases hm with
    | @rearm m' _ => exact Or.inr ⟨⟨m', Or.inl rfl⟩, hfull⟩
    | _ => simp_all

/-- A read that leaves no room dooms the connection. -/
theorem doomed_of_not_leavesRoom (hok : kernelAnswers c a) (hroom : ¬leavesRoom c a)
    (hm : Moves c a c') : Doomed c' := by
  cases hm with
  | @read m r hpc =>
    cases r with
    | bytes bs =>
      by_cases hfull : full c.data
      · refine Or.inl ?_
        simp [readBuff_full hfull, onRead]
      · refine Or.inr ⟨⟨m, Or.inr ?_⟩, ?_⟩
        · rw [readBuff_bytes hfull, onRead, if_pos (Int.natCast_pos.mpr (hok hfull).1)]
        · rw [readBuff_bytes hfull]
          exact not_lt.mp hroom
    | _ => exact absurd trivial hroom
  | _ => exact absurd trivial hroom

theorem Doomed.ne_waiting (h : Doomed c) : c.pc ≠ .waiting := by
  rcases h with hclosed | ⟨⟨m, hpc | hpc⟩, -⟩ <;> simp_all

/-- In a run that ends between two events with the connection open, every read
left room. -/
theorem leavesRoom_of_waiting {as : List Act} (h : Trace Conn.step wellBehaved c as c')
    (hwait : c'.pc = .waiting) :
    Trace Conn.step (fun c a => wellBehaved c a ∧ leavesRoom c a) c as c' := by
  have hsplit : (True ∧ Trace Conn.step (fun c a => wellBehaved c a ∧ leavesRoom c a) c as c') ∨
      Doomed c' := by
    refine h.met_or_doomed (fun _ _ _ _ _ _ _ => trivial) ?_ ?_ trivial
    · intro _ _ _ _ hok hroom hstep
      exact doomed_of_not_leavesRoom hok.answers hroom (moves_of_step hstep)
    · intro _ _ _ hdoomed _ hstep
      exact hdoomed.moves (moves_of_step hstep)
  rcases hsplit with ⟨-, hroom⟩ | hdoomed
  · exact hroom
  · exact absurd hwait hdoomed.ne_waiting

/-- **When a connection on which nothing fails is kept.**  As long as every
successful read leaves room behind `buffer_end`, `close_connection` is not
called; between two events the connection is open exactly when every read so
far has left room; and this is so exactly when every burst is shorter than the
buffer. -/
theorem connection_kept_iff_leavesRoom (fd : ℤ) {as : List Act}
    (h : Trace Conn.step wellBehaved (Conn.init fd) as c) :
    (Trace Conn.step (fun c a => wellBehaved c a ∧ leavesRoom c a) (Conn.init fd) as c →
      c.pc ≠ .closed) ∧
    (c.pc = .waiting ∨ c.pc = .closed →
      (c.pc ≠ .closed ↔
        Trace Conn.step (fun c a => wellBehaved c a ∧ leavesRoom c a) (Conn.init fd) as c)) ∧
    (Trace Conn.step (fun c a => wellBehaved c a ∧ leavesRoom c a) (Conn.init fd) as c ↔
      Short (burstsOf as)) := by
  have hkept : Trace Conn.step (fun c a => wellBehaved c a ∧ leavesRoom c a) (Conn.init fd) as c →
      c.pc ≠ .closed := fun hroom =>
    (hroom.invariant (fun _ _ _ hc hok hstep => HasRoom.moves hc hok.1 hok.2 (moves_of_step hstep))
      (hasRoom_init fd)).opened
  refine ⟨hkept, fun hpc => ⟨fun hopen => ?_, hkept⟩, leavesRoom_iff_short h⟩
  rcases hpc with hwait | hclosed
  · exact leavesRoom_of_waiting h hwait
  · exact absurd hclosed hopen

theorem connection_kept_shortWrite :
    ∃ c, Trace Conn.step wellBehaved (Conn.init 5) shortWrite c ∧ c.pc = .waiting ∧
      Trace Conn.step (fun c a => wellBehaved c a ∧ leavesRoom c a) (Conn.init 5) shortWrite c := by
  obtain ⟨c, h, hp⟩ := Trace.exists_of_eval Conn.step wellBehaved (fun c => c.pc = .waiting)
    (Conn.init 5) shortWrite (by decide)
  have hpc : c.pc = .waiting := of_decide_eq_true hp
  have hopen : c.pc ≠ .closed := by
    rw [hpc]
    exact Pc.noConfusion
  exact ⟨c, h, hpc, ((connection_kept_iff_leavesRoom 5 h).2.1 (Or.inl hpc)).mp hopen⟩

/-- One event, in which the client's first `BUFF_SIZE` bytes are read. -/
def fillBuffer : List Act :=
  [.event ⟨true, false, false, false, false⟩, .read (.bytes (List.replicate BUFF_SIZE 0)),
    .rearm, .read .again]

/-- **A client that sends `BUFF_SIZE` bytes at once is dropped**, although nothing
failed. -/
theorem connection_dropped_fillBuffer :
    ∃ c, Trace Conn.step wellBehaved (Conn.init 5) fillBuffer c ∧ c.pc = .closed := by
  obtain ⟨c, h, hp⟩ := Trace.exists_of_eval Conn.step wellBehaved (fun c => c.pc = .closed)
    (Conn.init 5) fillBuffer (by decide +kernel)
  exact ⟨c, h, of_decide_eq_true hp⟩

end Epoll
end CaosSeminars
