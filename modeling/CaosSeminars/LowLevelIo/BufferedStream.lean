import CaosSeminars.LowLevelIo.BufferedWriter

/-!
# `BufferedWriter` keeps the stream

What is on the descriptor, followed by what is in the buffer, is everything
written so far (`Sound`).  A string that fits extends the slice in the buffer.  A
string that does not fit is split where the buffer is full: the flush moves the
whole buffer to the descriptor, and the rest of the string is all there is in the
buffer after it.  The first part may be empty, when the buffer was full before.

Each function has one specification, `Advances`, which composes along
`Run.andThen`: it returns with the new bytes added to the stream, or it is
blocked, and then the schedule had fewer accepting answers than there were bytes
to write.

* `Inside` --- no `memcpy` leaves the buffer and no call hands over more than the buffer
  holds.
* `advances_of_fits`, `advances_of_overflow`, `advances_bufferedWrite` --- one string.
* `advances_writeStrings` --- any number of strings, by induction; `Advances.closeBuffer`
  the end of a run.
* `bufferedWriter_writes_stream` --- a whole session, for every capacity, all strings and
  all answers without a failure: what is on the descriptor at the end is the strings, one
  after another.
-/

namespace CaosSeminars
namespace LowLevelIo

variable {capacity : ℕ} {s : Run capacity} {written new more : List UInt8}
  {r : Option Unit × Run capacity}

/-- The descriptor and the buffer hold what was written, in this order. -/
structure Sound (s : Run capacity) (written : List UInt8) : Prop where
  size_le : s.writer.size ≤ capacity
  stream : s.fd.out ++ s.writer.buffer.slice 0 s.writer.size = written
  noFailure : NoFailure s.fd.answers

/-- `memcpy` and `write` have stayed inside the buffer, and every flush was of the
whole buffer. -/
structure Inside (s : Run capacity) : Prop where
  copies : ∀ c ∈ s.copies, c.Inside capacity
  asked : ∀ a ∈ s.fd.asked, a.Inside capacity
  flushed : ∀ size ∈ s.flushed, size = capacity

/-- A call adds `new` to the stream, or it is blocked for want of answers that accept
bytes, and what is on the descriptor is the beginning of the stream. -/
structure Advances (s : Run capacity) (written new : List UInt8)
    (r : Option Unit × Run capacity) : Prop where
  inside : Inside r.2
  outcome : (r.1 = some () ∧ Sound r.2 (written ++ new) ∧
      accepts s.fd.answers + r.2.writer.size ≤
        accepts r.2.fd.answers + (s.writer.size + new.length)) ∨
    (r.1 = none ∧ accepts s.fd.answers < s.writer.size + new.length ∧
      r.2.fd.out <+: written ++ new)

theorem Advances.andThen {next : Run capacity → Option Unit × Run capacity}
    (h : Advances s written new r)
    (hnext : ∀ t, Sound t (written ++ new) → Inside t → Advances t (written ++ new) more (next t)) :
    Advances s written (new ++ more) (Run.andThen r next) := by
  obtain ⟨ret, t⟩ := r
  rcases h.outcome with ⟨hret, hsound, haccepts⟩ | ⟨hret, haccepts, hpre⟩
  · obtain rfl : ret = some () := hret
    have hrest := hnext t hsound h.inside
    refine ⟨hrest.inside, ?_⟩
    simp only [List.length_append, ← List.append_assoc] at haccepts ⊢
    rcases hrest.outcome with ⟨hret', hsound', haccepts'⟩ | ⟨hret', haccepts', hpre'⟩
    · refine Or.inl ⟨hret', hsound', ?_⟩
      show _ + (next t).2.writer.size ≤ accepts (next t).2.fd.answers + _
      omega
    · exact Or.inr ⟨hret', by omega, hpre'⟩
  · obtain rfl : ret = none := hret
    refine ⟨h.inside, Or.inr ⟨rfl, ?_, ?_⟩⟩
    · rw [List.length_append]
      omega
    · rw [← List.append_assoc]
      exact hpre.trans (List.prefix_append _ _)

/-! ## The steps of `buffered_write` -/

/-- `memcpy` of `count` bytes to where the slice ends extends the slice. -/
theorem slice_memcpy {off count : ℕ} {source : List UInt8} (hcount : count ≤ source.length)
    (hfit : off + count ≤ capacity) :
    (s.memcpy off source count).writer.buffer.slice 0 (off + count) =
      s.writer.buffer.slice 0 off ++ source.take count := by
  have hlen : (source.take count).length = count := by
    rw [List.length_take, min_eq_left hcount]
  have hfit' : off + (source.take count).length ≤ capacity := hlen.symm ▸ hfit
  have hstore := s.writer.buffer.slice_store (Nat.zero_le off) hfit'
  rwa [hlen] at hstore

theorem Sound.append (h : Sound s written) {count : ℕ} {source : List UInt8}
    (hcount : count ≤ source.length) (hfit : s.writer.size + count ≤ capacity) :
    Sound ((s.memcpy s.writer.size source count).setSize (s.writer.size + count))
      (written ++ source.take count) where
  size_le := hfit
  stream := by
    show s.fd.out ++ (s.memcpy s.writer.size source count).writer.buffer.slice 0
      (s.writer.size + count) = _
    rw [slice_memcpy hcount hfit, ← List.append_assoc, h.stream]
  noFailure := h.noFailure

/-- With nothing in the buffer the stream is what is on the descriptor. -/
theorem sound_setSize_zero (hgood : NoFailure s.fd.answers) (hout : s.fd.out = written) :
    Sound (s.setSize 0) written where
  size_le := Nat.zero_le capacity
  stream := by
    show s.fd.out ++ s.writer.buffer.slice 0 0 = written
    rw [CArray.slice_self, List.append_nil, hout]
  noFailure := hgood

theorem Inside.memcpy (h : Inside s) {off count : ℕ} (source : List UInt8)
    (hfit : off + count ≤ capacity) : Inside (s.memcpy off source count) where
  copies := by
    refine List.forall_mem_append.mpr ⟨h.copies, List.forall_mem_singleton.mpr ?_⟩
    simp only [Span.Inside]
    omega
  asked := h.asked
  flushed := h.flushed

theorem Inside.flush (h : Inside s) (hgood : NoFailure s.fd.answers) (hpos : 0 < capacity)
    (hmax : capacity ≤ INT_MAX) : Inside (s.flush capacity).2 where
  copies := h.copies
  asked := by
    intro a ha
    rcases (delivers_writeRetry s.writer.buffer hgood hpos hmax).asked a ha with hmem | hrange
    · exact h.asked a hmem
    · simp only [Span.Inside]
      omega
  flushed :=
    List.forall_mem_append.mpr ⟨h.flushed, List.forall_mem_singleton.mpr (toInt_of_le hmax)⟩

theorem flush_spec {size : ℕ} (hgood : NoFailure s.fd.answers) (hpos : 0 < size)
    (hmax : size ≤ INT_MAX) :
    NoFailure (s.flush size).2.fd.answers ∧
      (((s.flush size).1 = some () ∧
          (s.flush size).2.fd.out = s.fd.out ++ s.writer.buffer.slice 0 size ∧
          accepts s.fd.answers ≤ accepts (s.flush size).2.fd.answers + size) ∨
        ((s.flush size).1 = none ∧ accepts s.fd.answers < size ∧
          (s.flush size).2.fd.out <+: s.fd.out ++ s.writer.buffer.slice 0 size)) := by
  have hdelivers := delivers_writeRetry s.writer.buffer hgood hpos hmax
  refine ⟨hdelivers.noFailure, ?_⟩
  rcases hdelivers.outcome with ⟨hret, hout, haccepts⟩ | ⟨hret, haccepts, m, hm, hout⟩
  · refine Or.inl ⟨?_, ?_, haccepts⟩
    · rw [Run.flush, hret]
      rfl
    · rw [Nat.zero_add] at hout
      exact hout
  · refine Or.inr ⟨?_, haccepts, s.writer.buffer.slice m size, ?_⟩
    · rw [Run.flush, hret]
      rfl
    · rw [Nat.zero_add] at hout
      show (writeRetry s.writer.buffer (toInt size) s.fd).2.out ++ _ = _
      rw [hout, List.append_assoc, CArray.slice_append_slice _ (Nat.zero_le m) hm.le]

/-- A string that fits. -/
theorem advances_of_fits (hs : Sound s written) (hin : Inside s) (string : CString)
    (hfit : s.writer.size + string.strlen ≤ capacity) :
    Advances s written string.bytes
      (some (), (s.memcpy s.writer.size string.bytes string.strlen).setSize
        (s.writer.size + string.strlen)) where
  inside := by
    have hcopy := hin.memcpy string.bytes hfit
    exact ⟨hcopy.copies, hcopy.asked, hcopy.flushed⟩
  outcome := by
    have hsound := hs.append (le_refl string.bytes.length) hfit
    rw [List.take_length] at hsound
    exact Or.inl ⟨rfl, hsound, le_rfl⟩

/-- A string that does not fit: the buffer is filled, flushed, and the rest of the
string starts the next block. -/
theorem advances_of_overflow (hmax : capacity ≤ INT_MAX) (hs : Sound s written) (hin : Inside s)
    (string : CString) (hlen : string.strlen ≤ capacity)
    (hover : capacity < string.strlen + s.writer.size) :
    Advances s written string.bytes (s.bufferedWrite string) := by
  have hsize := hs.size_le
  have hpos : 0 < capacity := by omega
  rw [Run.bufferedWrite, if_pos hover]
  dsimp only
  -- the first part ends at the last byte of the buffer
  generalize hfirst : capacity - s.writer.size = firstPart
  have hfill : s.writer.size + firstPart = capacity := by omega
  have hfirst_le : firstPart ≤ string.bytes.length := by
    rw [CString.strlen] at hover
    omega
  have hfilled := hs.append hfirst_le (le_of_eq hfill)
  have hgood : NoFailure (s.memcpy s.writer.size string.bytes firstPart).fd.answers := hs.noFailure
  have hinFlushed := (hin.memcpy string.bytes (le_of_eq hfill)).flush hgood hpos hmax
  obtain ⟨hgood', houtcome⟩ := flush_spec hgood hpos hmax
  rcases hflush : (s.memcpy s.writer.size string.bytes firstPart).flush capacity with ⟨ret, t⟩
  rw [hflush] at hinFlushed hgood' houtcome
  have hstream := hfilled.stream
  rw [hfill] at hstream
  rcases houtcome with ⟨hret, hout, haccepts⟩ | ⟨hret, haccepts, hpre⟩
  · obtain rfl : ret = some () := hret
    -- nothing of the full buffer is left, and the rest of the string comes in front
    have hempty := sound_setSize_zero hgood' (hout.trans hstream)
    have hrest : string.strlen - firstPart = (string.bytes.drop firstPart).length := by
      rw [List.length_drop, CString.strlen]
    have hfit : 0 + (string.strlen - firstPart) ≤ capacity := by omega
    have hsound := hempty.append (le_of_eq hrest) hfit
    have hinRest := hinFlushed.memcpy (string.bytes.drop firstPart) hfit
    refine ⟨⟨hinRest.copies, hinRest.asked, hinRest.flushed⟩, Or.inl ⟨rfl, ?_, ?_⟩⟩
    · have hall : written ++ string.bytes.take firstPart ++
          (string.bytes.drop firstPart).take (string.strlen - firstPart) =
            written ++ string.bytes := by
        rw [hrest, List.take_length, List.append_assoc, List.take_append_drop]
      have hsize' : (t.setSize 0).writer.size + (string.strlen - firstPart) =
          string.strlen - firstPart := Nat.zero_add _
      rw [hall, hsize'] at hsound
      exact hsound
    · show _ + (string.strlen - firstPart) ≤ accepts t.fd.answers + (_ + string.strlen)
      have hsame : accepts s.fd.answers ≤ accepts t.fd.answers + capacity := haccepts
      omega
  · obtain rfl : ret = none := hret
    refine ⟨hinFlushed, Or.inr ⟨rfl, ?_, ?_⟩⟩
    · have hsame : accepts s.fd.answers < capacity := haccepts
      show _ < _ + string.strlen
      omega
    · have hpart : t.fd.out <+: written ++ string.bytes.take firstPart := by
        rw [← hstream]
        exact hpre
      have htake := List.take_prefix firstPart string.bytes
      exact hpart.trans ((List.prefix_append_right_inj written).mpr htake)

/-- **One call of `buffered_write`.** -/
theorem advances_bufferedWrite (hmax : capacity ≤ INT_MAX) (hs : Sound s written) (hin : Inside s)
    (string : CString) (hlen : string.strlen ≤ capacity) :
    Advances s written string.bytes (s.bufferedWrite string) := by
  by_cases hover : capacity < string.strlen + s.writer.size
  · exact advances_of_overflow hmax hs hin string hlen hover
  · rw [Run.bufferedWrite, if_neg hover]
    exact advances_of_fits hs hin string (by omega)

/-! ## Whole runs -/

/-- The bytes of the strings, one after another. -/
def concat (strings : List CString) : List UInt8 := strings.flatMap CString.bytes

/-- **A sequence of calls of `buffered_write`**, by induction on the strings. -/
theorem advances_writeStrings (hmax : capacity ≤ INT_MAX) {strings : List CString}
    (hlen : ∀ string ∈ strings, string.strlen ≤ capacity) (hs : Sound s written) (hin : Inside s) :
    Advances s written (concat strings) (s.writeStrings strings) := by
  induction strings generalizing s written with
  | nil =>
    have hnil : written ++ concat [] = written := List.append_nil written
    refine ⟨hin, Or.inl ⟨rfl, ?_, le_rfl⟩⟩
    rw [hnil]
    exact hs
  | cons string strings ih =>
    obtain ⟨hhead, htail⟩ := List.forall_mem_cons.mp hlen
    exact (advances_bufferedWrite hmax hs hin string hhead).andThen
      fun t ht hint => ih htail ht hint

variable {junk : CArray UInt8 capacity} {answers : List WriteAnswer}

theorem sound_initBuffer (hgood : NoFailure answers) : Sound (initBuffer junk answers) [] :=
  sound_setSize_zero (s := initBuffer junk answers) hgood rfl

theorem inside_initBuffer : Inside (initBuffer junk answers) :=
  ⟨List.forall_mem_nil _, List.forall_mem_nil _, List.forall_mem_nil _⟩

theorem closeBuffer_spec (hmax : capacity ≤ INT_MAX) (hs : Sound s written) :
    (s.closeBuffer.1 = some () ∧ s.closeBuffer.2.fd.out = written) ∨
      (s.closeBuffer.1 = none ∧ accepts s.fd.answers < s.writer.size ∧
        s.closeBuffer.2.fd.out <+: written) := by
  have hsize := hs.size_le
  rw [Run.closeBuffer]
  split
  · rename_i hpos
    obtain ⟨-, ⟨hret, hout, -⟩ | ⟨hret, haccepts, hpre⟩⟩ :=
      flush_spec hs.noFailure hpos (hsize.trans hmax)
    · exact Or.inl ⟨hret, hout.trans hs.stream⟩
    · refine Or.inr ⟨hret, haccepts, ?_⟩
      rw [← hs.stream]
      exact hpre
  · rename_i hzero
    have hnil : s.writer.size = 0 := by omega
    have hstream := hs.stream
    rw [hnil, CArray.slice_self, List.append_nil] at hstream
    exact Or.inl ⟨rfl, hstream⟩

/-- The close of a run: all of the stream is on the descriptor, or a call is blocked. -/
theorem Advances.closeBuffer (hmax : capacity ≤ INT_MAX) (h : Advances s written new r) :
    ((Run.andThen r Run.closeBuffer).1 = some () ∧
        (Run.andThen r Run.closeBuffer).2.fd.out = written ++ new) ∨
      ((Run.andThen r Run.closeBuffer).1 = none ∧
        accepts s.fd.answers < s.writer.size + new.length ∧
        (Run.andThen r Run.closeBuffer).2.fd.out <+: written ++ new) := by
  obtain ⟨ret, t⟩ := r
  rcases h.outcome with ⟨hret, hsound, haccepts⟩ | ⟨hret, haccepts, hpre⟩
  · obtain rfl : ret = some () := hret
    rcases closeBuffer_spec hmax hsound with hclosed | ⟨hblocked, hfew, hpre⟩
    · exact Or.inl hclosed
    · refine Or.inr ⟨hblocked, ?_, hpre⟩
      dsimp only at haccepts hfew
      omega
  · obtain rfl : ret = none := hret
    exact Or.inr ⟨rfl, haccepts, hpre⟩

/-- **`BufferedWriter` neither loses nor reorders data.**  The strings are of any number
and any lengths up to the capacity, and `write` answers by any schedule without
failures, short writes and retries anywhere.  At every moment the descriptor holds
the beginning of the stream; the last clause says how many accepting answers are
enough for all calls to return. -/
theorem bufferedWriter_writes_stream (hmax : capacity ≤ INT_MAX) (junk : CArray UInt8 capacity)
    {strings : List CString} (hlen : ∀ string ∈ strings, string.strlen ≤ capacity)
    {answers : List WriteAnswer} (hgood : NoFailure answers) :
    let r := Run.writeStrings strings (initBuffer junk answers)
    let closed := session junk answers strings
    ((∀ c ∈ r.2.copies, c.Inside capacity) ∧ (∀ a ∈ r.2.fd.asked, a.Inside capacity) ∧
      ∀ size ∈ r.2.flushed, size = capacity) ∧
    (r.1 = some () → r.2.writer.size ≤ capacity ∧
      r.2.fd.out ++ r.2.writer.buffer.slice 0 r.2.writer.size = concat strings) ∧
    (closed.1 = some () → closed.2.fd.out = concat strings) ∧
    closed.2.fd.out <+: concat strings ∧
    ((concat strings).length ≤ accepts answers → r.1 = some () ∧ closed.1 = some ()) := by
  intro r closed
  have hrun : Advances (initBuffer junk answers) [] (concat strings) r :=
    advances_writeStrings hmax hlen (sound_initBuffer hgood) inside_initBuffer
  have hclose := hrun.closeBuffer hmax
  have hnothing : (initBuffer junk answers).writer.size + (concat strings).length =
      (concat strings).length := Nat.zero_add _
  refine ⟨⟨hrun.inside.copies, hrun.inside.asked, hrun.inside.flushed⟩, fun hret => ?_,
    fun hret => ?_, ?_, fun henough => ⟨?_, ?_⟩⟩
  · rcases hrun.outcome with ⟨-, hsound, -⟩ | ⟨hblocked, -⟩
    · exact ⟨hsound.size_le, hsound.stream⟩
    · rw [hret] at hblocked
      cases hblocked
  · rcases hclose with ⟨-, hout⟩ | ⟨hblocked, -⟩
    · exact hout
    · rw [show closed.1 = none from hblocked] at hret
      cases hret
  · rcases hclose with ⟨-, hout⟩ | ⟨-, -, hpre⟩
    · exact ⟨[], (List.append_nil _).trans hout⟩
    · exact hpre
  · rcases hrun.outcome with ⟨hret, -⟩ | ⟨-, hfew, -⟩
    · exact hret
    · exact absurd (hnothing ▸ hfew) (Nat.not_lt.mpr henough)
  · rcases hclose with ⟨hret, -⟩ | ⟨-, hfew, -⟩
    · exact hret
    · exact absurd (hnothing ▸ hfew) (Nat.not_lt.mpr henough)

/-- Answers with short writes and retries in both flushes. -/
def choppyAnswers : List WriteAnswer :=
  [.accept 0, .retry, .accept 1, .accept 9, .accept 0, .retry, .accept 5, .accept 0, .accept 0]

/-- `"ab"`, `"cde"` and `"f"`. -/
def shortStrings : List CString :=
  [⟨[97, 98], by decide⟩, ⟨[99, 100, 101], by decide⟩, ⟨[102], by decide⟩]

/-- A buffer of four bytes: the second string is split, and the third joins its rest. -/
theorem bufferedWriter_writes_stream_splitString :
    (session (CArray.replicate 4 0) choppyAnswers shortStrings).2.fd.out =
      [97, 98, 99, 100, 101, 102] := by
  obtain ⟨-, -, hclosed, -, hreturns⟩ :=
    @bufferedWriter_writes_stream 4 (by decide) (CArray.replicate 4 0) shortStrings (by decide)
      choppyAnswers (by decide)
  exact (hclosed (hreturns (by decide)).2).trans (by decide)

end LowLevelIo
end CaosSeminars
