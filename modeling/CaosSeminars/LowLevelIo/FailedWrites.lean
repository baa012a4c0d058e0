import CaosSeminars.Library.Pipe
import CaosSeminars.LowLevelIo.BufferedStream

/-!
# `BufferedWriter` when `write` fails

`write_retry` gives up on a failure, with a part of the block accepted, and says
so to its caller.  `buffered_write` does not look: it starts the next block in the
buffer, and what `write_retry` had left of the last one is gone.  If `write`
accepts bytes again after that, they follow the gap.

The writer is the pipe of `Library.Pipe`: strings are fed, what `write` accepts is
sent, and a failure loses the rest of the block.  So the output is the beginning
of what was written as long as `write` accepts nothing after a failure
(`StaysBroken`), and has a hole as soon as it does.

* `drains_writeRetryLoop` --- a call of `write_retry` sends and loses the bytes of its
  block.
* `Forwards` --- what a function does to the pipe; it composes along `Run.andThen` as
  `Advances` does.
* `drains_session` --- a whole session, whatever `write` answers.
* `failedWrites_leave_beginning` --- the two halves in one statement, about every moment of
  every session.
-/

namespace CaosSeminars
namespace LowLevelIo

/-- What an answer does to the block that is handed over. -/
def WriteAnswer.mark : WriteAnswer → Option Mark
  | .accept _ => some .sent
  | .zero | .fail => some .lost
  | .retry => none

/-- The marks of the answers, in order. -/
def marks (answers : List WriteAnswer) : List Mark := answers.filterMap WriteAnswer.mark

/-- Once `write` has returned `0` or failed for good, it accepts nothing more. -/
def StaysBroken (answers : List WriteAnswer) : Prop := NothingAfterLoss (marks answers)

instance (answers : List WriteAnswer) : Decidable (StaysBroken answers) :=
  inferInstanceAs (Decidable (NothingAfterLoss _))

theorem marks_append (used rest : List WriteAnswer) :
    marks (used ++ rest) = marks used ++ marks rest := List.filterMap_append

theorem StaysBroken.of_append {used rest : List WriteAnswer} (h : StaysBroken (used ++ rest)) :
    StaysBroken used := by
  rw [StaysBroken, marks_append] at h
  exact (List.pairwise_append.mp h).1

variable {n capacity off size : ℕ} {fd : Fd} {answers : List WriteAnswer} {ms : List Mark}
  {written : List UInt8}

/-! ## The writer is a pipe -/

/-- The attempt has used up some answers, and what was accepted is sent.  When it
returns, the rest is sent or lost; when it is blocked, something is held and the
answers are at their end. -/
def Drains (answers : List WriteAnswer) (ms : List Mark) (written : List UInt8) {β : Type}
    (ret : Option β) (fd : Fd) : Prop :=
  ∃ used held, answers = used ++ fd.answers ∧
    Pipe.Runs (ms ++ marks used) ⟨fd.out, held, written⟩ ∧ (ret.isSome → held = []) ∧
    (ret = none → fd.answers = [] ∧ held ≠ [])

theorem drains_writeRetryLoop (data : CArray UInt8 n) (hpos : 0 < size) (hmax : size ≤ INT_MAX)
    (hfit : off + size ≤ n) (hr : Pipe.Runs ms ⟨fd.out, data.slice off (off + size), written⟩) :
    Drains answers ms written (writeRetryLoop data off size answers fd).1
      (writeRetryLoop data off size answers fd).2 := by
  induction answers generalizing off size fd ms with
  | nil =>
    refine ⟨[], data.slice off (off + size), rfl, ?_, fun h => absurd h Bool.false_ne_true,
      fun _ => ⟨rfl, data.slice_ne_nil (by omega) hfit⟩⟩
    rw [marks, List.filterMap_nil, List.append_nil]
    exact hr
  | cons answer rest ih =>
    have hcount := toSizeT_of_le hmax
    have hne : data.slice off (off + size) ≠ [] := data.slice_ne_nil (by omega) hfit
    have hlost : Pipe.Runs (ms ++ [.lost]) ⟨fd.out ++ [], [], written⟩ := by
      rw [List.append_nil]
      exact Pipe.Runs.lose ((List.append_nil (data.slice off (off + size))).symm ▸ hr) hne
    cases answer with
    | zero => exact ⟨[.zero], [], rfl, hlost, fun _ => rfl, fun h => by cases h⟩
    | fail => exact ⟨[.fail], [], rfl, hlost, fun _ => rfl, fun h => by cases h⟩
    | retry =>
      rw [writeRetryLoop, hcount]
      have hr' : Pipe.Runs ms
          ⟨(fd.write rest ⟨off, size⟩ []).out, data.slice off (off + size), written⟩ := by
        show Pipe.Runs ms ⟨fd.out ++ [], _, _⟩
        rw [List.append_nil]
        exact hr
      obtain ⟨used, held, hused, hruns, hheld⟩ := ih hpos hmax hfit hr'
      exact ⟨.retry :: used, held, congrArg (WriteAnswer.retry :: ·) hused, hruns, hheld⟩
    | accept most =>
      have hw : min (most + 1) size ≠ 0 := by omega
      have hle : min (most + 1) size ≤ size := min_le_right _ _
      simp only [writeRetryLoop, hcount, if_neg hw]
      generalize min (most + 1) size = w at hw hle ⊢
      -- what is accepted is the front of the block
      have hcut := data.slice_append_slice (Nat.le_add_right off w) (Nat.add_le_add_left hle off)
      have hpart : data.slice off (off + w) ≠ [] := data.slice_ne_nil (by omega) (by omega)
      have hsent : Pipe.Runs (ms ++ [.sent])
          ⟨(fd.write rest ⟨off, size⟩ (data.slice off (off + w))).out,
            data.slice (off + w) (off + size), written⟩ :=
        Pipe.Runs.send (hcut.symm ▸ hr) hpart
      split
      · rename_i hall
        obtain rfl : w = size := by omega
        refine ⟨[.accept most], [], rfl, ?_, fun _ => rfl, fun h => by cases h⟩
        rw [CArray.slice_self] at hsent
        exact hsent
      · rename_i hrest
        have hcast : (size : ℤ) - (w : ℕ) = (size - w : ℕ) := by omega
        have hend : off + w + (size - w) = off + size := by omega
        rw [hcast]
        rw [← hend] at hsent
        obtain ⟨used, held, hused, hruns, hheld⟩ := ih (by omega) (by omega) (by omega) hsent
        have hused := congrArg (WriteAnswer.accept most :: ·) hused
        refine ⟨.accept most :: used, held, hused, ?_, hheld⟩
        rw [List.append_assoc] at hruns
        exact hruns

variable {s : Run capacity} {r : Option Unit × Run capacity} {more : List UInt8}

theorem drains_flush (hpos : 0 < size) (hfit : size ≤ capacity) (hmax : capacity ≤ INT_MAX)
    (hr : Pipe.Runs ms ⟨s.fd.out, s.writer.buffer.slice 0 size, written⟩) :
    Drains s.fd.answers ms written (s.flush size).1 (s.flush size).2.fd := by
  have hsize := hfit.trans hmax
  rw [← Nat.zero_add size] at hr
  obtain ⟨used, held, hused, hruns, hheld⟩ : Drains s.fd.answers ms written _ _ :=
    drains_writeRetryLoop s.writer.buffer hpos hsize ((Nat.zero_add size).symm ▸ hfit) hr
  rw [Run.flush, writeRetry, toInt_of_le hsize]
  refine ⟨used, held, hused, hruns, fun hret => hheld.1 ?_, fun hret => hheld.2 ?_⟩
  · rwa [Option.isSome_map] at hret
  · exact Option.map_eq_none_iff.mp hret

/-- The run has come to `r` with some of the answers used up, and the strings handed
to `buffered_write` are sent, lost, or held in the buffer. -/
def Forwards (answers : List WriteAnswer) (written : List UInt8)
    (r : Option Unit × Run capacity) : Prop :=
  ∃ used held, answers = used ++ r.2.fd.answers ∧
    Pipe.Runs (marks used) ⟨r.2.fd.out, held, written⟩ ∧
    (r.1 = some () → held = r.2.writer.buffer.slice 0 r.2.writer.size ∧
      r.2.writer.size ≤ capacity) ∧
    (r.1 = none → r.2.fd.answers = [] ∧ held ≠ [])

/-- One call after another; a blocked call holds the strings that come later. -/
theorem Forwards.andThen {next : Run capacity → Option Unit × Run capacity}
    (h : Forwards answers written r)
    (hnext : ∀ t, Forwards answers written (some (), t) →
      Forwards answers (written ++ more) (next t)) :
    Forwards answers (written ++ more) (Run.andThen r next) := by
  obtain ⟨ret, t⟩ := r
  cases ret with
  | none =>
    obtain ⟨used, held, hused, hruns, -, hblocked⟩ := h
    refine ⟨used, held ++ more, hused, hruns.feed more, fun hret => (by cases hret), fun _ => ?_⟩
    exact ⟨(hblocked rfl).1, List.append_ne_nil_of_left_ne_nil (hblocked rfl).2 more⟩
  | some _ => exact hnext t h

theorem Forwards.memcpy (h : Forwards answers written (some (), s)) {count : ℕ}
    {source : List UInt8} (hcount : count ≤ source.length)
    (hfit : s.writer.size + count ≤ capacity) :
    Forwards answers (written ++ source.take count)
      (some (), (s.memcpy s.writer.size source count).setSize (s.writer.size + count)) := by
  obtain ⟨used, held, hused, hruns, hheld, -⟩ := h
  obtain ⟨rfl, -⟩ := hheld rfl
  refine ⟨used, _, hused, hruns.feed (source.take count), fun _ => ⟨?_, hfit⟩,
    fun hret => by cases hret⟩
  exact (slice_memcpy hcount hfit).symm

theorem Forwards.flush (hmax : capacity ≤ INT_MAX) (hpos : 0 < s.writer.size)
    (h : Forwards answers written (some (), s)) :
    Drains answers [] written (s.flush s.writer.size).1 (s.flush s.writer.size).2.fd := by
  obtain ⟨used, held, hused, hruns, hheld, -⟩ := h
  obtain ⟨rfl, hsize⟩ := hheld rfl
  obtain ⟨used', held', hused', hruns', hheld'⟩ := drains_flush hpos hsize hmax hruns
  refine ⟨used ++ used', held', ?_, ?_, hheld'⟩
  · rw [List.append_assoc, ← hused']
    exact hused
  · rw [marks_append]
    exact hruns'

/-- **One call of `buffered_write`**, whether or not its flush fails. -/
theorem Forwards.bufferedWrite (hmax : capacity ≤ INT_MAX)
    (h : Forwards answers written (some (), s)) (string : CString)
    (hlen : string.strlen ≤ capacity) :
    Forwards answers (written ++ string.bytes) (s.bufferedWrite string) := by
  have hsize : s.writer.size ≤ capacity := by
    obtain ⟨used, held, -, -, hheld, -⟩ := h
    exact (hheld rfl).2
  by_cases hover : capacity < string.strlen + s.writer.size
  · rw [Run.bufferedWrite, if_pos hover]
    dsimp only
    generalize hfirst : capacity - s.writer.size = firstPart
    have hfill : s.writer.size + firstPart = capacity := by omega
    have hpos : 0 < s.writer.size + firstPart := by omega
    have hfirst_le : firstPart ≤ string.bytes.length := by
      rw [CString.strlen] at hover
      omega
    obtain ⟨used, held, hused, hruns, hheld, hblocked⟩ :=
      (h.memcpy hfirst_le (le_of_eq hfill)).flush hmax hpos
    have hall : written ++ string.bytes.take firstPart ++ string.bytes.drop firstPart =
        written ++ string.bytes := by
      rw [List.append_assoc, List.take_append_drop]
    -- the size of the writer does not matter to the flush of a full buffer
    have hflush : ∀ u : Run capacity, (u.setSize capacity).flush capacity =
        ((u.flush capacity).1, (u.flush capacity).2.setSize capacity) := fun _ => rfl
    simp only [Run.setSize_size, hfill, hflush] at hused hruns hheld hblocked
    generalize (s.memcpy s.writer.size string.bytes firstPart).flush capacity = r at *
    obtain ⟨ret, t⟩ := r
    rw [← hall]
    cases ret with
    | none =>
      refine ⟨used, held ++ _, hused, hruns.feed _, fun hret => (by cases hret), fun _ => ?_⟩
      exact ⟨(hblocked rfl).1, List.append_ne_nil_of_left_ne_nil (hblocked rfl).2 _⟩
    | some _ =>
      obtain rfl := hheld rfl
      have hempty : Forwards answers (written ++ string.bytes.take firstPart)
          (some (), t.setSize 0) :=
        ⟨used, [], hused, hruns, fun _ => ⟨(CArray.slice_self _).symm, Nat.zero_le _⟩,
          fun hret => by cases hret⟩
      have hrest : string.strlen - firstPart = (string.bytes.drop firstPart).length := by
        rw [List.length_drop, CString.strlen]
      have hnext := hempty.memcpy (le_of_eq hrest) (by simp only [Run.setSize_size]; omega)
      rw [hrest, List.take_length, Run.setSize_size, Nat.zero_add, ← hrest] at hnext
      exact hnext
  · rw [Run.bufferedWrite, if_neg hover]
    have hnext := h.memcpy (le_refl string.bytes.length) (by
      rw [CString.strlen] at hover
      omega)
    rw [List.take_length] at hnext
    exact hnext

/-- **A sequence of calls of `buffered_write`**, by induction on the strings. -/
theorem Forwards.writeStrings (hmax : capacity ≤ INT_MAX) {strings : List CString}
    (hlen : ∀ string ∈ strings, string.strlen ≤ capacity)
    (h : Forwards answers written (some (), s)) :
    Forwards answers (written ++ concat strings) (s.writeStrings strings) := by
  induction strings generalizing s written with
  | nil =>
    have hnil : written ++ concat [] = written := List.append_nil written
    rw [hnil]
    exact h
  | cons string strings ih =>
    obtain ⟨hhead, htail⟩ := List.forall_mem_cons.mp hlen
    have hcons : written ++ concat (string :: strings) =
        written ++ string.bytes ++ concat strings := by
      rw [List.append_assoc]
      rfl
    rw [hcons]
    exact (h.bufferedWrite hmax string hhead).andThen fun t ht => ih htail ht

theorem forwards_initBuffer {junk : CArray UInt8 capacity} :
    Forwards answers [] (some (), initBuffer junk answers) := by
  refine ⟨[], [], rfl, Pipe.Runs.empty, fun _ => ⟨?_, Nat.zero_le _⟩, fun hret => by cases hret⟩
  exact (CArray.slice_self junk).symm

/-- The close of a run. -/
theorem Forwards.closeBuffer (hmax : capacity ≤ INT_MAX) (h : Forwards answers written r) :
    Drains answers [] written (Run.andThen r Run.closeBuffer).1
      (Run.andThen r Run.closeBuffer).2.fd := by
  obtain ⟨ret, t⟩ := r
  cases ret with
  | none =>
    obtain ⟨used, held, hused, hruns, -, hblocked⟩ := h
    exact ⟨used, held, hused, hruns, fun hret => absurd hret Bool.false_ne_true, hblocked⟩
  | some _ =>
    show Drains answers [] written t.closeBuffer.1 t.closeBuffer.2.fd
    rw [Run.closeBuffer]
    split
    · rename_i hpos
      exact h.flush hmax hpos
    · rename_i hzero
      have hnil : t.writer.size = 0 := by omega
      obtain ⟨used, held, hused, hruns, hheld, -⟩ := h
      have hempty := (hheld rfl).1
      rw [hnil, CArray.slice_self] at hempty
      exact ⟨used, held, hused, hruns, fun _ => hempty, fun hret => by cases hret⟩

/-- **A whole session**, whatever `write` answers. -/
theorem drains_session (hmax : capacity ≤ INT_MAX) (junk : CArray UInt8 capacity)
    {strings : List CString} (hlen : ∀ string ∈ strings, string.strlen ≤ capacity)
    (answers : List WriteAnswer) :
    Drains answers [] (concat strings) (session junk answers strings).1
      (session junk answers strings).2.fd :=
  (forwards_initBuffer.writeStrings hmax hlen).closeBuffer hmax

/-- What a run has come to, the writer aside. -/
def Forwarded (answers : List WriteAnswer) (written : List UInt8) (fd : Fd) : Prop :=
  ∃ used held, answers = used ++ fd.answers ∧ Pipe.Runs (marks used) ⟨fd.out, held, written⟩

theorem Drains.forwarded {β : Type} {ret : Option β} (h : Drains answers [] written ret fd) :
    Forwarded answers written fd := by
  obtain ⟨used, held, hused, hruns, -⟩ := h
  exact ⟨used, held, hused, hruns⟩

theorem Forwards.forwarded (h : Forwards answers written r) : Forwarded answers written r.2.fd := by
  obtain ⟨used, held, hused, hruns, -⟩ := h
  exact ⟨used, held, hused, hruns⟩

/-- What is on the descriptor, in terms of the answers that were used up. -/
theorem Forwarded.prefix_and_hole (h : Forwarded answers written fd) :
    (StaysBroken answers → fd.out <+: written) ∧
      ∀ used, answers = used ++ fd.answers → ¬StaysBroken used → Hole fd.out written := by
  obtain ⟨used, held, rfl, hruns⟩ := h
  refine ⟨fun hbroken => hruns.sent_isPrefix hbroken.of_append, fun used' hused' hnot => ?_⟩
  obtain rfl := List.append_cancel_right hused'
  exact hruns.hole hnot

variable {strings : List CString}

/-- **When a failing `write` leaves no hole.**  As long as `write` accepts nothing after
it has returned `0` or failed for good, the output is at every moment the beginning
of the strings handed to `buffered_write`, before the close and after it.  As soon as
it does accept something, bytes in the middle of the output are missing. -/
theorem failedWrites_leave_beginning (hmax : capacity ≤ INT_MAX) (junk : CArray UInt8 capacity)
    (hlen : ∀ string ∈ strings, string.strlen ≤ capacity) (answers : List WriteAnswer) :
    let r := Run.writeStrings strings (initBuffer junk answers)
    let closed := session junk answers strings
    (StaysBroken answers → r.2.fd.out <+: concat strings ∧ closed.2.fd.out <+: concat strings) ∧
    ∀ used, answers = used ++ closed.2.fd.answers → ¬StaysBroken used →
      Hole closed.2.fd.out (concat strings) := by
  intro r closed
  have hrun : Forwards answers (concat strings) r :=
    forwards_initBuffer.writeStrings hmax hlen
  have hclosed : Forwarded answers (concat strings) closed.2.fd :=
    (drains_session hmax junk hlen answers).forwarded
  refine ⟨fun hbroken => ⟨?_, ?_⟩, hclosed.prefix_and_hole.2⟩
  · exact hrun.forwarded.prefix_and_hole.1 hbroken
  · exact hclosed.prefix_and_hole.1 hbroken

/-- The device fills up inside the first block and stays full. -/
theorem failedWrites_leave_beginning_fullDevice :
    (session (CArray.replicate 4 0) [.accept 0, .fail, .fail] shortStrings).2.fd.out <+:
      concat shortStrings :=
  ((@failedWrites_leave_beginning 4 shortStrings (by decide) (CArray.replicate 4 0) (by decide)
    [.accept 0, .fail, .fail]).1 (by decide)).2

/-- **The device fills up inside the first block and is relieved before the last**:
`"a"` of `"abcd"` is out, and then comes `"ef"`. -/
theorem failedWrites_leave_hole_relievedDevice :
    let closed := session (CArray.replicate 4 0) [.accept 0, .fail, .accept 9] shortStrings
    closed.1 = some () ∧ closed.2.fd.out = [97, 101, 102] ∧
      concat shortStrings = [97, 98, 99, 100, 101, 102] ∧
      ¬closed.2.fd.out <+: concat shortStrings := by
  decide

end LowLevelIo
end CaosSeminars
