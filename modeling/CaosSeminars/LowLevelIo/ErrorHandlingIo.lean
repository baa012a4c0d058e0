import CaosSeminars.Library.Schedule
import CaosSeminars.LowLevelIo.WriteRetry

/-!
# `error_handling_io.c` and `sized_io.c`

Both programs fill a buffer of `buffer_size` bytes from one file and write what they have
to another.  Each of their two loops ends on a result of `0` and on nothing else; they
differ in the failures they put up with.  `sized_io` calls again on every `-1`,
`error_handling_io` on `EINTR` and `EAGAIN`, and on any other `errno` it returns `-1`.

What a call answers is not up to the code.  An answer `count most` hands over, or accepts,
what there is and what is asked for, but not more than `most + 1` bytes.  So `read` answers
`0` when nothing is asked for or nothing is left of the file, `write` when nothing is asked
for, and every list of answers is one that a kernel can give.  A program that finds no
answer is inside its call.

* `Copies` --- the invariant of a turn of either loop: both cursors are in the buffer, and
  what is on the output is what was read up to the second one.
* `Copies.turn` --- one turn, whatever the answer; `Copies.foldl` any number of them.
* `exists_uses` --- a run uses up a list of answers, and `ioTurn_congr` says that it does
  not depend on what comes behind it.
* `errorHandlingIo_copies` --- the program at every moment of every list of answers, beside
  `sized_io`; and that it returns on every endless sequence without a failure for good on
  which the calls do not fail for ever.
-/

namespace CaosSeminars
namespace LowLevelIo

/-- `errno` after a call that returned `-1`. -/
inductive Errno where
  | EINTR
  | EAGAIN
  | other (code : ℕ)
  deriving DecidableEq

/-- What `read` or `write` answers. -/
inductive IoAnswer where
  /-- A count. -/
  | count (most : ℕ)
  /-- `-1`. -/
  | error (errno : Errno)
  deriving DecidableEq

/-- Where `main` is: the call it is at, or what it has returned. -/
inductive IoPc where
  | reading
  | writing
  | returned (value : ℤ)
  deriving DecidableEq

/-- The variables of `main`, what is left of the input, the output, and the history of what
the calls were asked for, as offsets into the buffer. -/
structure IoState (n : ℕ) where
  pc : IoPc
  readBytes : ℕ
  writtenBytes : ℕ
  buffer : CArray UInt8 n
  input : List UInt8
  output : List UInt8
  asked : List Span
  deriving DecidableEq

variable {n : ℕ}

/-- After `malloc`, whatever is in the buffer. -/
def IoState.init (buffer : CArray UInt8 n) (input : List UInt8) : IoState n :=
  ⟨.reading, 0, 0, buffer, input, [], []⟩

/-- A turn of the first loop; `givesUp` is the test on `errno`. -/
def readTurn (givesUp : Errno → Bool) (s : IoState n) (answer : IoAnswer) : IoState n :=
  let count := toSizeT (n - s.readBytes)
  let s := { s with asked := s.asked ++ [⟨s.readBytes, count⟩] }
  match answer with
  | .error errno => if givesUp errno then { s with pc := .returned (-1) } else s
  | .count most =>
    let got := s.input.take (min (most + 1) count)
    { s with
      input := s.input.drop got.length
      buffer := s.buffer.store s.readBytes got
      readBytes := s.readBytes + got.length
      pc := if got.length ≠ 0 then .reading else .writing }

/-- A turn of the second loop. -/
def writeTurn (givesUp : Errno → Bool) (s : IoState n) (answer : IoAnswer) : IoState n :=
  let count := toSizeT (s.readBytes - s.writtenBytes)
  let s := { s with asked := s.asked ++ [⟨s.writtenBytes, count⟩] }
  match answer with
  | .error errno => if givesUp errno then { s with pc := .returned (-1) } else s
  | .count most =>
    let written := min (most + 1) count
    { s with
      output := s.output ++ s.buffer.slice s.writtenBytes (s.writtenBytes + written)
      writtenBytes := s.writtenBytes + written
      pc := if written ≠ 0 then .writing else .returned 0 }

/-- What `main` does with an answer to the call it is at. -/
def ioTurn (givesUp : Errno → Bool) (s : IoState n) (answer : IoAnswer) : IoState n :=
  match s.pc with
  | .reading => readTurn givesUp s answer
  | .writing => writeTurn givesUp s answer
  | .returned _ => s

/-- The test of `error_handling_io`: `(errno != EINTR) && (errno != EAGAIN)`. -/
def Errno.isOther (errno : Errno) : Bool := errno != .EINTR && errno != .EAGAIN

/-- `main` of `error_handling_io.c` after some answers. -/
def errorHandlingIo (buffer : CArray UInt8 n) (input : List UInt8) (answers : List IoAnswer) :
    IoState n :=
  answers.foldl (ioTurn Errno.isOther) (.init buffer input)

/-- `main` of `sized_io.c`, which does not look at `errno`. -/
def sizedIo (buffer : CArray UInt8 n) (input : List UInt8) (answers : List IoAnswer) :
    IoState n :=
  answers.foldl (ioTurn fun _ => false) (.init buffer input)

/-! ## The invariant of a turn -/

/-- What holds between two calls, `input` being the whole input. -/
structure Copies (input : List UInt8) (s : IoState n) : Prop where
  fits : s.readBytes ≤ n
  rest : s.input = input.drop s.readBytes
  there : s.readBytes ≤ input.length
  buffer : s.buffer.slice 0 s.readBytes = input.take s.readBytes
  order : s.writtenBytes ≤ s.readBytes
  output : s.output = input.take s.writtenBytes
  inside : ∀ span ∈ s.asked, span.Inside n
  full : s.pc ≠ .reading → s.pc ≠ .returned (-1) → s.readBytes = min n input.length
  ended : ∀ value, s.pc = .returned value → value = 0 ∧ s.writtenBytes = s.readBytes ∨ value = -1

variable {input : List UInt8} {s : IoState n} {givesUp : Errno → Bool}

theorem Copies.init (buffer : CArray UInt8 n) (input : List UInt8) :
    Copies input (IoState.init buffer input) where
  fits := Nat.zero_le _
  rest := List.drop_zero.symm
  there := Nat.zero_le _
  buffer := by simp [IoState.init]
  order := le_rfl
  output := List.take_zero.symm
  inside := by simp [IoState.init]
  full h := absurd rfl h
  ended _ h := by cases h

/-- What is left to ask for, as the code computes it. -/
theorem toSizeT_sub {a b : ℕ} (hle : b ≤ a) (hmax : a ≤ INT_MAX) :
    toSizeT ((a : ℤ) - b) = a - b := by
  rw [← Nat.cast_sub hle]
  exact toSizeT_of_le (by omega)

theorem Copies.ask (h : Copies input s) {lo hi : ℕ} (hle : lo ≤ hi) (hn : hi ≤ n) :
    Copies input { s with asked := s.asked ++ [⟨lo, (hi - lo : ℕ)⟩] } := by
  refine { h with inside := fun span hspan => ?_ }
  rcases List.mem_append.mp hspan with hold | hnew
  · exact h.inside span hold
  · obtain rfl := List.mem_singleton.mp hnew
    refine ⟨?_, ?_, ?_⟩ <;> dsimp only <;> omega

theorem Copies.giveUp (h : Copies input s) : Copies input { s with pc := .returned (-1) } :=
  { h with
    full := fun _ hne => absurd rfl hne
    ended := fun _ hvalue => Or.inr (IoPc.returned.inj hvalue).symm }

theorem Copies.readTurn (h : Copies input s) (hmax : n ≤ INT_MAX) (answer : IoAnswer) :
    Copies input (readTurn givesUp s answer) := by
  have hasked := h.ask h.fits le_rfl
  simp only [LowLevelIo.readTurn, toSizeT_sub h.fits hmax]
  cases answer with
  | error errno =>
    dsimp only
    split
    · exact hasked.giveUp
    · exact hasked
  | count most =>
    dsimp only
    obtain ⟨k, hk⟩ : ∃ k, k = min (min (most + 1) (n - s.readBytes)) s.input.length := ⟨_, rfl⟩
    have hrest := congrArg List.length h.rest
    rw [List.length_drop] at hrest
    have htake : s.input.take (min (most + 1) (n - s.readBytes)) = s.input.take k := by
      rw [hk, List.take_eq_take_min]
    have hlen : (s.input.take k).length = k := List.length_take_of_le (by omega)
    have hfits := h.fits
    have hthere := h.there
    rw [htake, hlen]
    refine { hasked with
      fits := (by dsimp only; omega), rest := ?_, there := (by dsimp only; omega), buffer := ?_,
      order := h.order.trans (Nat.le_add_right _ _), full := fun hne _ => ?_,
      ended := fun value hvalue => ?_ }
    · show s.input.drop k = input.drop (s.readBytes + k)
      rw [h.rest, List.drop_drop]
    · show (s.buffer.store s.readBytes (s.input.take k)).slice 0 (s.readBytes + k) = _
      have hstore := s.buffer.slice_store (Nat.zero_le s.readBytes)
        (show s.readBytes + (s.input.take k).length ≤ n by omega)
      rw [hlen] at hstore
      rw [hstore, h.buffer, h.rest, ← List.take_add]
    · -- the loop ends when the buffer is full or the input has ended
      by_cases hzero : k = 0
      · show s.readBytes + k = min n input.length
        omega
      · exact absurd (if_pos hzero) hne
    · dsimp only at hvalue
      split at hvalue <;> cases hvalue

theorem Copies.writeTurn (h : Copies input s) (hmax : n ≤ INT_MAX) (hpc : s.pc = .writing)
    (answer : IoAnswer) : Copies input (writeTurn givesUp s answer) := by
  have hasked := h.ask h.order h.fits
  simp only [LowLevelIo.writeTurn, toSizeT_sub h.order (h.fits.trans hmax)]
  cases answer with
  | error errno =>
    dsimp only
    split
    · exact hasked.giveUp
    · exact hasked
  | count most =>
    dsimp only
    obtain ⟨k, hk⟩ : ∃ k, k = min (most + 1) (s.readBytes - s.writtenBytes) := ⟨_, rfl⟩
    have horder := h.order
    rw [← hk]
    refine { hasked with
      order := (by dsimp only; omega), output := ?_, full := fun _ _ => ?_,
      ended := fun value hvalue => ?_ }
    · have hslice : s.buffer.slice s.writtenBytes (s.writtenBytes + k) =
          (input.drop s.writtenBytes).take k := by
        have hpart := s.buffer.take_drop_slice (show 0 + s.writtenBytes + k ≤ s.readBytes by omega)
        rw [Nat.zero_add, h.buffer, List.drop_take, List.take_take, min_eq_left (by omega)] at hpart
        exact hpart.symm
      show s.output ++ s.buffer.slice s.writtenBytes (s.writtenBytes + k) = _
      rw [h.output, hslice, ← List.take_add]
    · exact h.full (by simp [hpc]) (by simp [hpc])
    · dsimp only at hvalue
      split at hvalue
      · cases hvalue
      · obtain rfl := IoPc.returned.inj hvalue
        refine Or.inl ⟨rfl, ?_⟩
        dsimp only
        omega

theorem Copies.turn (h : Copies input s) (hmax : n ≤ INT_MAX) (answer : IoAnswer) :
    Copies input (ioTurn givesUp s answer) := by
  rw [ioTurn]
  split
  · exact h.readTurn hmax answer
  · exact h.writeTurn hmax ‹_› answer
  · exact h

theorem Copies.foldl (h : Copies input s) (hmax : n ≤ INT_MAX) (answers : List IoAnswer) :
    Copies input (answers.foldl (ioTurn givesUp) s) := by
  induction answers generalizing s with
  | nil => exact h
  | cons answer rest ih => exact ih (h.turn hmax answer)

/-! ## The answers that are used -/

/-- After its return the program makes no call. -/
theorem foldl_returned {value : ℤ} (h : s.pc = .returned value) (answers : List IoAnswer) :
    answers.foldl (ioTurn givesUp) s = s := by
  induction answers with
  | nil => rfl
  | cons answer rest ih =>
    have hturn : ioTurn givesUp s answer = s := by rw [ioTurn, h]
    rw [List.foldl_cons, hturn, ih]

/-- What a turn does, whichever call it is about: it asks once, and it gives up exactly
on the failures that are given up on. -/
theorem ioTurn_cases (givesUp : Errno → Bool) (h : ∀ value, s.pc ≠ .returned value)
    (answer : IoAnswer) :
    (ioTurn givesUp s answer).asked.length = s.asked.length + 1 ∧
      ((ioTurn givesUp s answer).pc = .returned (-1) ↔
        ∃ errno, answer = .error errno ∧ givesUp errno = true) := by
  cases hpc : s.pc with
  | returned value => exact absurd hpc (h value)
  | reading | writing =>
    cases answer with
    | error errno =>
      cases hgives : givesUp errno <;> simp [ioTurn, hpc, readTurn, writeTurn, hgives]
    | count most =>
      simp only [ioTurn, hpc, readTurn, writeTurn]
      constructor
      · simp
      · split <;> simp

theorem ioTurn_congr {givesUp' : Errno → Bool} {answer : IoAnswer}
    (h : ∀ errno, answer = .error errno → givesUp' errno = givesUp errno) :
    ioTurn givesUp' s answer = ioTurn givesUp s answer := by
  cases answer with
  | error errno => simp only [ioTurn, readTurn, writeTurn, h errno rfl]
  | count most => rfl

/-- What a run from `s` to `r` has used of the answers. -/
structure Uses (givesUp : Errno → Bool) (answers used : List IoAnswer) (s r : IoState n) :
    Prop where
  isPrefix : used <+: answers
  length : r.asked.length = s.asked.length + used.length
  givesUp_iff : s.pc ≠ .returned (-1) →
    (r.pc = .returned (-1) ↔ ∃ errno, .error errno ∈ used ∧ givesUp errno = true)
  last : ∀ i errno, used[i]? = some (.error errno) → givesUp errno = true → i + 1 = used.length
  congr : ∀ givesUp' : Errno → Bool, (∀ errno, .error errno ∈ used →
    givesUp' errno = givesUp errno) → answers.foldl (ioTurn givesUp') s = r

/-- **What a run uses**, by induction on the answers. -/
theorem exists_uses (givesUp : Errno → Bool) (s : IoState n) (answers : List IoAnswer) :
    ∃ used, Uses givesUp answers used s (answers.foldl (ioTurn givesUp) s) := by
  induction answers generalizing s with
  | nil => exact ⟨[], List.nil_prefix, rfl, by simp, by simp, fun _ _ => rfl⟩
  | cons answer rest ih =>
    by_cases hret : ∃ value, s.pc = .returned value
    · obtain ⟨value, hvalue⟩ := hret
      rw [foldl_returned hvalue]
      exact ⟨[], List.nil_prefix, rfl, by simp, by simp, fun _ _ => foldl_returned hvalue _⟩
    · obtain ⟨hasked, hpc⟩ := ioTurn_cases givesUp (not_exists.mp hret) answer
      obtain ⟨used, hused⟩ := ih (ioTurn givesUp s answer)
      -- nothing is used after a failure that is given up on
      have hnil : (∃ errno, answer = .error errno ∧ givesUp errno = true) → used = [] := by
        intro hanswer
        have hlength := hused.length
        rw [foldl_returned (hpc.mpr hanswer)] at hlength
        exact List.length_eq_zero_iff.mp (by omega)
      refine ⟨answer :: used, List.cons_prefix_cons.mpr ⟨rfl, hused.isPrefix⟩, ?_, fun _ => ?_,
        fun i errno hi hgives => ?_, fun givesUp' hsame => ?_⟩
      · rw [List.foldl_cons, hused.length, hasked, List.length_cons]
        omega
      · rw [List.foldl_cons]
        by_cases hanswer : ∃ errno, answer = .error errno ∧ givesUp errno = true
        · rw [foldl_returned (hpc.mpr hanswer)]
          obtain ⟨errno, rfl, hgives⟩ := hanswer
          exact iff_of_true (hpc.mpr ⟨errno, rfl, hgives⟩) ⟨errno, List.mem_cons_self, hgives⟩
        · rw [hused.givesUp_iff fun h => hanswer (hpc.mp h)]
          constructor
          · rintro ⟨errno, hmem, hgives⟩
            exact ⟨errno, List.mem_cons_of_mem _ hmem, hgives⟩
          · rintro ⟨errno, hmem, hgives⟩
            rcases List.mem_cons.mp hmem with heq | hmem
            · exact absurd ⟨errno, heq.symm, hgives⟩ hanswer
            · exact ⟨errno, hmem, hgives⟩
      · cases i with
        | zero =>
          rw [hnil ⟨errno, Option.some.inj hi, hgives⟩]
          rfl
        | succ i => rw [hused.last i errno hi hgives, List.length_cons]
      · rw [List.foldl_cons, ioTurn_congr fun errno h => hsame errno (h ▸ List.mem_cons_self)]
        exact hused.congr givesUp' fun errno hmem => hsame errno (List.mem_cons_of_mem _ hmem)

/-! ## Progress -/

/-- The answer is a count. -/
def IoAnswer.isCount : IoAnswer → Bool
  | .count _ => true
  | .error _ => false

/-- How far the program has come: the bytes it has moved, and the loop it is in. -/
def progress (s : IoState n) : ℕ :=
  s.readBytes + s.writtenBytes + if s.pc = .reading then 0 else 1

/-- A turn after which the program has not returned takes it further, if it is a count. -/
theorem progress_turn (h : ∀ value, (ioTurn givesUp s answer).pc ≠ .returned value) :
    progress s + [answer].countP IoAnswer.isCount ≤ progress (ioTurn givesUp s answer) := by
  cases hpc : s.pc with
  | returned value => exact absurd (by simp only [ioTurn, hpc]) (h value)
  | reading =>
    cases answer with
    | error errno =>
      simp only [ioTurn, hpc, readTurn] at h ⊢
      split
      · exact absurd (by simp [*]) (h (-1))
      · simp [progress, hpc, IoAnswer.isCount]
    | count most =>
      simp only [ioTurn, hpc, readTurn, progress, List.countP_singleton, IoAnswer.isCount]
      generalize (s.input.take (min (most + 1) (toSizeT (n - s.readBytes)))).length = k
      by_cases hk : k = 0
      · simp [hk]
      · simp [hk]
        omega
  | writing =>
    cases answer with
    | error errno =>
      simp only [ioTurn, hpc, writeTurn] at h ⊢
      split
      · exact absurd (by simp [*]) (h (-1))
      · simp [progress, hpc, IoAnswer.isCount]
    | count most =>
      simp only [ioTurn, hpc, writeTurn, progress, List.countP_singleton, IoAnswer.isCount] at h ⊢
      generalize min (most + 1) (toSizeT (s.readBytes - s.writtenBytes)) = k at h ⊢
      by_cases hk : k = 0
      · exact absurd (by simp [hk]) (h 0)
      · simp [hk]
        omega

theorem progress_foldl (answers : List IoAnswer)
    (h : ∀ value, (answers.foldl (ioTurn givesUp) s).pc ≠ .returned value) :
    progress s + answers.countP IoAnswer.isCount ≤ progress (answers.foldl (ioTurn givesUp) s) := by
  induction answers generalizing s with
  | nil => exact le_rfl
  | cons answer rest ih =>
    have hturn : ∀ value, (ioTurn givesUp s answer).pc ≠ .returned value := fun value hvalue => by
      refine h value ?_
      rw [List.foldl_cons, foldl_returned hvalue, hvalue]
    have hfirst := progress_turn hturn
    have hrest := ih h
    rw [List.countP_cons]
    rw [List.countP_singleton] at hfirst
    rw [List.foldl_cons]
    omega

theorem Copies.progress_le (h : Copies input s) : progress s ≤ 2 * n + 1 := by
  have hfits := h.fits
  have horder := h.order
  rw [progress]
  split <;> omega

/-! ## The whole program -/

/-- **`error_handling_io` copies what fits.**  At every moment of every run each call has asked
for a part of the buffer and the output is a beginning of the first `n` bytes of the input.  A
run that has returned `0` has written all of them.  As long as no call has failed with
anything but `EINTR` and `EAGAIN` the run is that of `sized_io`; the program returns `-1`
exactly if one has, and makes no call after that one.  It returns `0` on every endless
sequence of answers without such a failure on which the calls do not fail for ever. -/
theorem errorHandlingIo_copies (hmax : n ≤ INT_MAX) (buffer : CArray UInt8 n)
    (input : List UInt8) :
    (∀ answers,
      let r := errorHandlingIo buffer input answers
      let used := answers.take r.asked.length
      (∀ span ∈ r.asked, span.Inside n) ∧ r.output <+: input.take n ∧
        (r.pc = .returned 0 → r.output = input.take n) ∧
        ((∀ errno, .error errno ∈ used → errno = .EINTR ∨ errno = .EAGAIN) →
          sizedIo buffer input answers = r) ∧
        (r.pc = .returned (-1) ↔
          ∃ errno, .error errno ∈ used ∧ errno ≠ .EINTR ∧ errno ≠ .EAGAIN) ∧
        ∀ i errno, used[i]? = some (.error errno) → errno ≠ .EINTR → errno ≠ .EAGAIN →
          i + 1 = used.length) ∧
      ∀ s : ℕ → IoAnswer, (∀ i errno, s i = .error errno → errno = .EINTR ∨ errno = .EAGAIN) →
        (∀ i, ∃ j, i ≤ j ∧ ∃ most, s j = .count most) →
        ∃ k, ∀ j, k ≤ j → (errorHandlingIo buffer input (firsts s j)).pc = .returned 0 ∧
          (errorHandlingIo buffer input (firsts s j)).output = input.take n := by
  have hother : ∀ errno : Errno, errno.isOther = true ↔ errno ≠ .EINTR ∧ errno ≠ .EAGAIN :=
    fun errno => by simp [Errno.isOther]
  have hreturned : ∀ {answers : List IoAnswer},
      (errorHandlingIo buffer input answers).pc = .returned 0 →
        (errorHandlingIo buffer input answers).output = input.take n := by
    intro answers hpc
    have h : Copies input (errorHandlingIo buffer input answers) :=
      (Copies.init buffer input).foldl hmax answers
    obtain ⟨-, hall⟩ | hneg := h.ended 0 hpc
    · rw [h.output, hall, h.full (by simp [hpc]) (by simp [hpc]), ← List.take_eq_take_min]
    · cases hneg
  constructor
  · intro answers r used
    have h : Copies input r := (Copies.init buffer input).foldl hmax answers
    obtain ⟨used', hused⟩ := exists_uses Errno.isOther (.init buffer input) answers
    have hlength : r.asked.length = used'.length := hused.length.trans (Nat.zero_add _)
    have hsame : used = used' := by
      obtain ⟨rest, hrest⟩ := hused.isPrefix
      show answers.take r.asked.length = used'
      rw [hlength, ← hrest, List.take_left]
    rw [hsame]
    refine ⟨h.inside, ?_, hreturned, fun herrors => ?_, ?_, fun i errno hi hintr hagain => ?_⟩
    · rw [h.output]
      exact List.take_prefix_take_left (h.order.trans h.fits)
    · refine hused.congr _ fun errno hmem => ?_
      rcases herrors errno hmem with rfl | rfl <;> rfl
    · refine (hused.givesUp_iff (by simp [IoState.init])).trans ?_
      simp only [hother]
    · exact hused.last i errno hi ((hother errno).mpr ⟨hintr, hagain⟩)
  · intro s hretried hcounts
    have hisCount : ∀ i, ∃ j, i ≤ j ∧ (s j).isCount = true := fun i => by
      obtain ⟨j, hle, most, hj⟩ := hcounts i
      exact ⟨j, hle, by rw [hj]; rfl⟩
    obtain ⟨k, hk⟩ := exists_le_countP_firsts hisCount (2 * n + 2)
    refine ⟨k, fun j hle => ?_⟩
    have h : Copies input (errorHandlingIo buffer input (firsts s j)) :=
      (Copies.init buffer input).foldl hmax _
    have hzero : (errorHandlingIo buffer input (firsts s j)).pc = .returned 0 := by
      by_contra hnot
      -- it has not returned `-1` either, so it would have come too far
      have hrunning : ∀ value,
          (errorHandlingIo buffer input (firsts s j)).pc ≠ .returned value := by
        intro value hvalue
        rcases h.ended value hvalue with ⟨rfl, -⟩ | rfl
        · exact hnot hvalue
        · obtain ⟨used, hused⟩ := exists_uses Errno.isOther (.init buffer input) (firsts s j)
          obtain ⟨errno, hmem, hgives⟩ := (hused.givesUp_iff (by simp [IoState.init])).mp hvalue
          obtain ⟨i, -, hi⟩ := mem_firsts.mp (hused.isPrefix.subset hmem)
          rcases hretried i errno hi with rfl | rfl <;> cases hgives
      have hprogress := progress_foldl _ hrunning
      have hbound := h.progress_le
      obtain ⟨more, hmore⟩ := exists_firsts_eq_append (s := s) hle
      rw [hmore, List.countP_append] at hprogress
      rw [errorHandlingIo, hmore] at hbound
      omega
    exact ⟨hzero, hreturned hzero⟩

/-- A file of three bytes and a buffer of two: a byte, an `EINTR`, a byte, no room for more;
then both bytes, and nothing left. -/
theorem errorHandlingIo_copies_abc :
    (errorHandlingIo (CArray.replicate 2 0) [97, 98, 99]
      [.count 0, .error .EINTR, .count 5, .count 5, .count 5, .count 5]).output = [97, 98] := by
  obtain ⟨hruns, -⟩ :=
    errorHandlingIo_copies (n := 2) (by decide) (CArray.replicate 2 0) [97, 98, 99]
  obtain ⟨-, -, hreturned, -⟩ :=
    hruns [.count 0, .error .EINTR, .count 5, .count 5, .count 5, .count 5]
  exact hreturned (by decide)

end LowLevelIo
end CaosSeminars
