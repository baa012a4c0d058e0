import CaosSeminars.Epoll.Connection

/-!
# The two cursors, and the stream between them

Whatever the kernel answers and however the events fall, the cursors of a
connection stay in order inside the buffer, and the bytes accepted by `write`
followed by those between the cursors are the bytes returned by `read`.

Each helper has one specification: `readBuff_spec` says that `read_buff` appends
what it received to the pending bytes, `writeBuff_spec` that `write_buff` takes
what it sent off their front.  Both cover every answer at once, so the step lemma
does not look at answers at all.

* `Bounds` --- the cursors are in order and inside the buffer; `readSpan_inside` and
  `writeSpan_inside` say that the two system calls are, too.
* `Echoes` --- the invariant; `Echoes.moves` for one step and `echoes_of_trace` for a run.
* `connection_stream_integrity` --- both, in every state that a run reaches, over all events, short
  counts and failures.
-/

namespace CaosSeminars
namespace Epoll

/-- The cursors are in order and inside the buffer. -/
structure Bounds (d : FdData) : Prop where
  begin_nonneg : 0 ≤ d.bufferBegin
  begin_le_end : d.bufferBegin ≤ d.bufferEnd
  end_le : d.bufferEnd ≤ BUFF_SIZE

variable {d : FdData} {r : ReadResult} {w : WriteResult} {c c' : Conn} {a : Act}

theorem bounds_new (fd : ℤ) : Bounds (FdData.new fd) where
  begin_nonneg := le_rfl
  begin_le_end := le_rfl
  end_le := Int.natCast_nonneg _

@[simp] theorem pending_new (fd : ℤ) : (FdData.new fd).pending = [] := CArray.slice_self _

theorem Bounds.length_pending (h : Bounds d) :
    (d.pending.length : ℤ) = d.bufferEnd - d.bufferBegin := by
  have hb := h.begin_nonneg
  have hbe := h.begin_le_end
  have he := h.end_le
  rw [FdData.pending, CArray.length_slice _ (by omega)]
  omega

theorem Bounds.pending_eq_nil_iff (h : Bounds d) :
    d.pending = [] ↔ d.bufferBegin = d.bufferEnd := by
  have hlen := h.length_pending
  rw [← List.length_eq_zero_iff]
  omega

theorem Bounds.readSpan_inside (h : Bounds d) : (readSpan d).Inside BUFF_SIZE := by
  have hb := h.begin_nonneg
  have hbe := h.begin_le_end
  have he := h.end_le
  simp only [Span.Inside, readSpan]
  omega

theorem Bounds.writeSpan_inside (h : Bounds d) : (writeSpan d).Inside BUFF_SIZE := by
  have hb := h.begin_nonneg
  have hbe := h.begin_le_end
  have he := h.end_le
  simp only [Span.Inside, writeSpan]
  omega

/-- **`read_buff`** keeps the cursors in order and appends what it received. -/
theorem readBuff_spec (h : Bounds d) (hr : readPromise d r) :
    Bounds (readBuff d r).1 ∧ (readBuff d r).1.pending = d.pending ++ bytesRead d r := by
  have hb := h.begin_nonneg
  have hbe := h.begin_le_end
  by_cases hfull : full d
  · rw [readBuff_full hfull]
    cases r <;> simp [bytesRead, hfull, h]
  · cases r with
    | bytes bs =>
      rw [readBuff_bytes hfull]
      obtain ⟨-, hcount⟩ := hr hfull
      simp only [readSpan] at hcount
      have hend : (d.bufferEnd + bs.length).toNat = d.bufferEnd.toNat + bs.length := by omega
      refine ⟨⟨hb, by simp only; omega, by simp only; omega⟩, ?_⟩
      simp only [FdData.pending, bytesRead, if_neg hfull, hend]
      exact CArray.slice_store _ (by omega) (by omega)
    | _ => simp [readBuff_other, bytesRead, h]

/-- **`write_buff`** keeps the cursors in order and takes what it sent off the
front of the pending bytes. -/
theorem writeBuff_spec (h : Bounds d) (hw : writePromise d w) :
    Bounds (writeBuff d w).1 ∧ d.pending = bytesWritten d w ++ (writeBuff d w).1.pending := by
  have hb := h.begin_nonneg
  have he := h.end_le
  by_cases hnone : nothingToWrite d
  · rw [writeBuff_nothing hnone]
    cases w <;> simp [bytesWritten, hnone, h]
  · cases w with
    | count n =>
      rw [writeBuff_count hnone]
      obtain ⟨-, hcount⟩ := hw hnone
      simp only [writeSpan] at hcount
      have hbn : (d.bufferBegin + n).toNat = d.bufferBegin.toNat + n := by omega
      have htake : d.pending.take n =
          d.buffer.slice d.bufferBegin.toNat (d.bufferBegin + n).toNat := by
        rw [hbn]
        exact CArray.take_slice _ (by omega)
      simp only [bytesWritten, if_neg hnone, htake]
      split
      · rename_i hmeet
        refine ⟨⟨le_rfl, le_rfl, by simp only; omega⟩, ?_⟩
        simp only [FdData.pending, CArray.slice_self, List.append_nil, hmeet]
      · refine ⟨⟨by simp only; omega, by simp only; omega, he⟩, ?_⟩
        exact (CArray.slice_append_slice _ (by omega) (by omega)).symm
    | _ => simp [writeBuff_other, bytesWritten, h]

/-! ## The invariant -/

/-- The cursors are in order, and nothing was lost, duplicated or reordered. -/
structure Echoes (c : Conn) : Prop where
  bounds : Bounds c.data
  stream : c.sent ++ c.data.pending = c.received

theorem echoes_init (fd : ℤ) : Echoes (Conn.init fd) :=
  ⟨bounds_new fd, by simp [Conn.init]⟩

theorem Echoes.moves (h : Echoes c) (hok : kernelAnswers c a) (hm : Moves c a c') : Echoes c' := by
  cases hm with
  | event m hpc => exact ⟨h.bounds, h.stream⟩
  | read r hpc =>
    obtain ⟨hbounds, hpending⟩ := readBuff_spec h.bounds hok
    refine ⟨hbounds, ?_⟩
    simp only [hpending]
    rw [← List.append_assoc, h.stream]
  | rearm hpc => exact ⟨h.bounds, h.stream⟩
  | write w hpc =>
    obtain ⟨hbounds, hpending⟩ := writeBuff_spec h.bounds hok
    refine ⟨hbounds, ?_⟩
    simp only
    rw [List.append_assoc, ← hpending, h.stream]
  | disarm hpc => exact ⟨h.bounds, h.stream⟩

theorem echoes_of_trace {fd : ℤ} {as : List Act}
    (h : Trace Conn.step kernelAnswers (Conn.init fd) as c) : Echoes c :=
  h.invariant (fun _ _ _ hc hok hstep => hc.moves hok (moves_of_step hstep)) (echoes_init fd)

/-- **Stream integrity.**  For every sequence of events and every answer of the
kernel, in every state that a connection reaches: the cursors are in order inside
the buffer, so is every range passed to `read` and to `write`, and the bytes
accepted by `write` followed by those between the cursors are the bytes returned
by `read`. -/
theorem connection_stream_integrity (fd : ℤ) {as : List Act}
    (h : Trace Conn.step kernelAnswers (Conn.init fd) as c) :
    (0 ≤ c.data.bufferBegin ∧ c.data.bufferBegin ≤ c.data.bufferEnd ∧
      c.data.bufferEnd ≤ BUFF_SIZE) ∧
    (readSpan c.data).Inside BUFF_SIZE ∧ (writeSpan c.data).Inside BUFF_SIZE ∧
    c.sent ++ c.data.buffer.slice c.data.bufferBegin.toNat c.data.bufferEnd.toNat =
      c.received := by
  have hc := echoes_of_trace h
  exact ⟨⟨hc.bounds.begin_nonneg, hc.bounds.begin_le_end, hc.bounds.end_le⟩,
    hc.bounds.readSpan_inside, hc.bounds.writeSpan_inside, hc.stream⟩

/-- Three bytes come in and two of them go out. -/
def shortWrite : List Act :=
  [.event ⟨true, false, false, false, false⟩, .read (.bytes [1, 2, 3]), .rearm, .read .again,
    .event ⟨false, true, false, false, false⟩, .write (.count 2)]

/-- The third byte is still between the cursors. -/
theorem connection_stream_integrity_shortWrite :
    ∃ c, Trace Conn.step kernelAnswers (Conn.init 5) shortWrite c ∧
      [1, 2] ++ c.data.buffer.slice c.data.bufferBegin.toNat c.data.bufferEnd.toNat =
        [1, 2, 3] := by
  obtain ⟨c, h, hp⟩ := Trace.exists_of_eval Conn.step kernelAnswers
    (fun c => c.sent = [1, 2] ∧ c.received = [1, 2, 3]) (Conn.init 5) shortWrite (by decide)
  obtain ⟨hsent, hreceived⟩ := of_decide_eq_true hp
  obtain ⟨-, -, -, hstream⟩ := connection_stream_integrity 5 h
  rw [hsent, hreceived] at hstream
  exact ⟨c, h, hstream⟩

end Epoll
end CaosSeminars
