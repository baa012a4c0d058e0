import CaosSeminars.Library.Schedule
import CaosSeminars.LowLevelIo.WriteRetry

/-!
# `read_retry` of `smart_reprinter.c`

`read_retry` calls `read` until the buffer is full or the stream has ended, calls
again on `EAGAIN` and `EINTR`, and gives up on any other error.

How the stream is cut is not up to the code.  An answer `give most` hands over what
there is and what is asked for, but not more than `most + 1` bytes; when nothing is
left of the stream it hands over nothing, and `read` returns `0`.  Every list of
answers is thus one that a kernel can give, and every cut of a stream into chunks is a
list of answers.  A call of `read` that finds no answer is blocked.

* `Fills` --- what a call does: the buffer gets the beginning of the stream, by induction on
  the answers (`fills_readRetryLoop`).
* `Schedule` --- the schedules in which nothing fails for good and the end comes.
* `readRetry_of_schedules` --- any two cuts of one stream, with any retries: the call
  returns with the same count and the same bytes.
-/

namespace CaosSeminars
namespace LowLevelIo

/-- What `read` answers. -/
inductive ReadAnswer where
  /-- It hands over some of the bytes, and none at the end of the stream. -/
  | give (most : ℕ)
  /-- `-1` with `EAGAIN` or `EINTR`. -/
  | retry
  /-- `-1` with another `errno`. -/
  | fail
  deriving DecidableEq

/-- The caller's buffer, what is still to come on the descriptor, and the history of
what `read` was asked for, as offsets into the buffer. -/
structure Reading (n : ℕ) where
  stream : List UInt8
  buffer : CArray UInt8 n
  asked : List Span

variable {n : ℕ}

/-- A call of `read` that hands over `got`. -/
def Reading.read (r : Reading n) (asked : Span) (off : ℕ) (got : List UInt8) : Reading n :=
  ⟨r.stream.drop got.length, r.buffer.store off got, r.asked ++ [asked]⟩

/-- The loop of `read_retry`, where `off` is `cdata - data`; `none` is a call that is
blocked. -/
def readRetryLoop : ℕ → ℤ → List ReadAnswer → Reading n → Option ℤ × Reading n
  | _, _, [], r => (none, r)
  | off, size, answer :: rest, r =>
    match answer with
    | .fail => (some (-1), r.read ⟨off, toSizeT size⟩ off [])
    | .retry => readRetryLoop off size rest (r.read ⟨off, toSizeT size⟩ off [])
    | .give most =>
      let got := r.stream.take (min (most + 1) (toSizeT size))
      let r := r.read ⟨off, toSizeT size⟩ off got
      if got.length = 0 then (some off, r)
      else if size - got.length = 0 then (some ((off + got.length : ℕ) : ℤ), r)
      else readRetryLoop (off + got.length) (size - got.length) rest r

/-- `read_retry` on a descriptor with `stream` to come. -/
def readRetry (stream : List UInt8) (buffer : CArray UInt8 n) (size : ℤ)
    (answers : List ReadAnswer) : Option ℤ × Reading n :=
  readRetryLoop 0 size answers ⟨stream, buffer, []⟩

/-! ## What a call does -/

/-- The answer is not an error. -/
def ReadAnswer.gives : ReadAnswer → Bool
  | .give _ => true
  | _ => false

/-- What `read_retry` does with `size` bytes at `off`.  It asks for no byte behind them;
when it returns it has stored what the stream has for them, and it is blocked only as long
as not more answers have handed over bytes than the stream has. -/
structure Fills (off size : ℕ) (answers : List ReadAnswer) (r : Reading n)
    (result : Option ℤ × Reading n) : Prop where
  asked : ∀ s ∈ result.2.asked, s ∈ r.asked ∨ ((off : ℤ) ≤ s.off ∧ 0 ≤ s.count ∧
    s.off + s.count = off + size)
  returned : ∀ count, result.1 = some count →
    count = (off + min size r.stream.length : ℕ) ∧ result.2.stream = r.stream.drop size ∧
      result.2.buffer = r.buffer.store off (r.stream.take size)
  blocked : result.1 = none → answers.countP ReadAnswer.gives ≤ r.stream.length

variable {off size : ℕ} {r : Reading n}

/-- A call that hands over a part, and then the attempt at the rest. -/
theorem Fills.of_call {answer : ReadAnswer} {rest : List ReadAnswer} {w : ℕ}
    {result : Option ℤ × Reading n} (hfit : off + size ≤ n) (hw : w ≤ size)
    (hstream : w ≤ r.stream.length) (hgives : answer.gives = true → 0 < w)
    (h : Fills (off + w) (size - w) rest (r.read ⟨off, size⟩ off (r.stream.take w)) result) :
    Fills off size (answer :: rest) r result := by
  have hlen : (r.stream.take w).length = w := List.length_take_of_le hstream
  have hafter : (r.read ⟨off, size⟩ off (r.stream.take w)).stream = r.stream.drop w :=
    congrArg (r.stream.drop ·) hlen
  refine ⟨fun s hs => ?_, fun count hcount => ?_, fun hblocked => ?_⟩
  · rcases h.asked s hs with hmem | hrange
    · exact mem_asked_snoc s hmem
    · refine Or.inr ⟨?_, ?_, ?_⟩ <;> omega
  · obtain ⟨hret, hleft, hstore⟩ := h.returned count hcount
    rw [hafter] at hret hleft hstore
    rw [List.length_drop] at hret
    refine ⟨by rw [hret]; congr 1; omega, ?_, ?_⟩
    · rw [hleft, List.drop_drop, Nat.add_sub_cancel' hw]
    · have hsplit : r.stream.take size =
          r.stream.take w ++ (r.stream.drop w).take (size - w) := by
        rw [← List.take_add, Nat.add_sub_cancel' hw]
      have hrest : ((r.stream.drop w).take (size - w)).length ≤ size - w := List.length_take_le _ _
      rw [hstore, hsplit, ← CArray.store_store _ (by omega), hlen]
      rfl
  · have hcount := h.blocked hblocked
    rw [hafter, List.length_drop] at hcount
    rw [List.countP_cons]
    split
    · have hpos := hgives ‹_›
      omega
    · omega

theorem Fills.of_last {answers : List ReadAnswer} {w : ℕ} (hw : w = min size r.stream.length) :
    Fills off size answers r
      (some ((off + w : ℕ) : ℤ), r.read ⟨off, size⟩ off (r.stream.take w)) := by
  have htake : r.stream.take w = r.stream.take size := by
    rw [hw, ← List.take_eq_take_min]
  refine ⟨mem_asked_snoc, fun count hcount => ?_, fun hblocked => by cases hblocked⟩
  obtain rfl := Option.some.inj hcount
  refine ⟨by rw [hw], ?_, congrArg (r.buffer.store off) htake⟩
  show r.stream.drop (r.stream.take w).length = r.stream.drop size
  rw [htake, List.length_take]
  rcases Nat.le_total size r.stream.length with hle | hle
  · rw [min_eq_left hle]
  · rw [min_eq_right hle, List.drop_length, List.drop_of_length_le hle]

/-- **What the loop does**, by induction on the answers. -/
theorem fills_readRetryLoop {answers : List ReadAnswer} (hfail : .fail ∉ answers)
    (hfit : off + size ≤ n) (hmax : size ≤ INT_MAX) :
    Fills off size answers r (readRetryLoop off size answers r) := by
  induction answers generalizing off size r with
  | nil =>
    exact ⟨fun s hs => Or.inl hs, fun count hcount => (by cases hcount), fun _ => Nat.zero_le _⟩
  | cons answer rest ih =>
    have hcount := toSizeT_of_le hmax
    rw [List.mem_cons, not_or] at hfail
    cases answer with
    | fail => exact absurd rfl hfail.1
    | retry =>
      rw [readRetryLoop, hcount]
      exact Fills.of_call hfit (Nat.zero_le _) (Nat.zero_le _) (fun h => by cases h)
        (ih hfail.2 hfit hmax)
    | give most =>
      simp only [readRetryLoop, hcount]
      -- the bytes handed over are the first `w` of the stream
      obtain ⟨w, hw⟩ : ∃ w, w = min (min (most + 1) size) r.stream.length := ⟨_, rfl⟩
      have htake : r.stream.take (min (most + 1) size) = r.stream.take w := by
        rw [hw, List.take_eq_take_min]
      have hlen : (r.stream.take w).length = w := List.length_take_of_le (by omega)
      rw [htake, hlen]
      split
      · rename_i hzero
        have hlast : Fills off size (.give most :: rest) r _ :=
          Fills.of_last (show w = min size r.stream.length by omega)
        rwa [hzero] at hlast ⊢
      · split
        · exact Fills.of_last (by omega)
        · have hcast : (size : ℤ) - (w : ℕ) = (size - w : ℕ) := by omega
          rw [hcast]
          exact Fills.of_call hfit (by omega) (by omega) (fun _ => by omega)
            (ih hfail.2 (by omega) (by omega))

/-! ## Schedules -/

/-- A schedule that delivers the stream: an endless sequence of answers without errors other
than `EAGAIN` and `EINTR`, which do not go on for ever. -/
structure Schedule (s : ℕ → ReadAnswer) : Prop where
  noFailure : ∀ i, s i ≠ .fail
  gives : ∀ i, ∃ j, i ≤ j ∧ s j ≠ .retry

variable {s s' : ℕ → ReadAnswer} (stream : List UInt8) (buffer : CArray UInt8 n)

theorem Schedule.fills (h : Schedule s) (hmax : n ≤ INT_MAX) (j : ℕ) :
    Fills 0 n (firsts s j) ⟨stream, buffer, []⟩ (readRetry stream buffer n (firsts s j)) := by
  refine fills_readRetryLoop (fun hmem => ?_) (Nat.zero_add n).le hmax
  obtain ⟨i, -, hi⟩ := mem_firsts.mp hmem
  exact h.noFailure i hi

/-- On such a schedule the call returns after some of the answers. -/
theorem Schedule.returns (h : Schedule s) (hmax : n ≤ INT_MAX) :
    ∃ k, ∀ j, k ≤ j → (readRetry stream buffer n (firsts s j)).1 ≠ none := by
  have hgives : ∀ i, ∃ j, i ≤ j ∧ (s j).gives = true := fun i => by
    obtain ⟨j, hle, hj⟩ := h.gives i
    refine ⟨j, hle, ?_⟩
    cases hans : s j with
    | give most => rfl
    | retry => exact absurd hans hj
    | fail => exact absurd hans (h.noFailure j)
  obtain ⟨k, hk⟩ := exists_le_countP_firsts hgives (stream.length + 1)
  refine ⟨k, fun j hle hblocked => ?_⟩
  obtain ⟨more, hmore⟩ := exists_firsts_eq_append (s := s) hle
  have hcount := (h.fills stream buffer hmax j).blocked hblocked
  rw [hmore, List.countP_append] at hcount
  dsimp only at hcount
  omega

theorem Fills.buffer_eq {stream : List UInt8} {buffer : CArray UInt8 n}
    {answers : List ReadAnswer} {result : Option ℤ × Reading n}
    (h : Fills 0 n answers ⟨stream, buffer, []⟩ result) (hret : result.1 ≠ none) :
    result.1 = some ((min n stream.length : ℕ) : ℤ) ∧
      result.2.buffer = buffer.store 0 (stream.take n) := by
  obtain ⟨count, hcount⟩ := Option.ne_none_iff_exists'.mp hret
  obtain ⟨rfl, -, hbuffer⟩ := h.returned count hcount
  rw [Nat.zero_add] at hcount
  exact ⟨hcount, hbuffer⟩

/-- **`read_retry` does not depend on how the stream is cut.**  On any two schedules the call
returns the same count, the smaller of the size and the length of the stream; it leaves
the same buffer, whose first bytes are those of the stream and whose rest is as it was;
and at no moment has it asked for a byte behind the buffer. -/
theorem readRetry_of_schedules (hmax : n ≤ INT_MAX) (hs : Schedule s) (hs' : Schedule s') :
    (∀ j, ∀ span ∈ (readRetry stream buffer n (firsts s j)).2.asked, span.Inside n) ∧
      ∃ k, ∀ j j', k ≤ j → k ≤ j' →
        let r := readRetry stream buffer n (firsts s j)
        let r' := readRetry stream buffer n (firsts s' j')
        r.1 = some ((min n stream.length : ℕ) : ℤ) ∧ r'.1 = r.1 ∧ r'.2.buffer = r.2.buffer ∧
          r.2.buffer.toList = stream.take n ++ buffer.toList.drop (min n stream.length) := by
  constructor
  · intro j span hspan
    rcases (hs.fills stream buffer hmax j).asked span hspan with hmem | ⟨hoff, hcount, hsum⟩
    · cases hmem
    · refine ⟨?_, hcount, ?_⟩ <;> omega
  · obtain ⟨k, hk⟩ := hs.returns stream buffer hmax
    obtain ⟨k', hk'⟩ := hs'.returns stream buffer hmax
    refine ⟨max k k', fun j j' hj hj' => ?_⟩
    obtain ⟨hret, hbuffer⟩ :=
      (hs.fills stream buffer hmax j).buffer_eq (hk j (le_of_max_le_left hj))
    obtain ⟨hret', hbuffer'⟩ :=
      (hs'.fills stream buffer hmax j').buffer_eq (hk' j' (le_of_max_le_right hj'))
    refine ⟨hret, hret'.trans hret.symm, hbuffer'.trans hbuffer.symm, ?_⟩
    have hfit : 0 + (stream.take n).length ≤ n := by
      rw [Nat.zero_add]
      exact List.length_take_le _ _
    rw [hbuffer, CArray.toList_store _ hfit, List.length_take, Nat.zero_add, List.take_zero,
      List.nil_append]

/-- Three bytes for a buffer of two, in one piece, or one byte at a time after a retry. -/
theorem readRetry_of_schedules_hello :
    ∃ k, ∀ j j', k ≤ j → k ≤ j' →
      (readRetry [104, 105, 10] (CArray.replicate 2 0) 2
        (firsts (fun _ => .give 4095) j)).2.buffer =
        (readRetry [104, 105, 10] (CArray.replicate 2 0) 2
          (firsts (fun i => if i = 0 then .retry else .give 0) j')).2.buffer := by
  have honce : Schedule fun _ => .give 4095 := ⟨fun _ => by simp, fun i => ⟨i, le_rfl, by simp⟩⟩
  have hbytes : Schedule fun i => if i = 0 then .retry else .give 0 :=
    ⟨fun i => by split <;> simp, fun i => ⟨i + 1, by omega, by simp⟩⟩
  obtain ⟨-, k, hk⟩ := readRetry_of_schedules [104, 105, 10] (CArray.replicate 2 0) (by decide)
    honce hbytes
  exact ⟨k, fun j j' hj hj' => (hk j j' hj hj').2.2.1.symm⟩

end LowLevelIo
end CaosSeminars
