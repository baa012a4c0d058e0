import CaosSeminars.Library.Schedule
import CaosSeminars.LowLevelIo.WriteRetry

/-!
# Every schedule of `write_retry`

`WriteRetry` says what a call has delivered once it has used up a list of answers.  Here a
call is followed from one answer to the next: what it asks for is the part of the block
that was not accepted up to that moment (`asks_writeRetryLoop`), and it comes to its
end when the retryable errors do.

A block of no bytes is a case of its own.  The code calls `write` for it all the same, so
that an error of that call is reported though there was nothing to accept.

* `Asks` --- each call asks for the block without what was accepted before it.
* `Exits` --- what a call has come to: it has returned, with what was accepted, or it is
  inside `write`.
* `countP_settles_le_accepts` --- an answer that is no retryable error accepts a byte at
  least, so that there are at most as many as the block has bytes.
* `writeRetry_delivers` --- for every block and every schedule; `writeRetry_empty_fails` is
  the failure on a block of no bytes.
-/

namespace CaosSeminars
namespace LowLevelIo

variable {n : ℕ} {data : CArray UInt8 n} {off size : ℕ} {answers : List WriteAnswer} {fd : Fd}

/-! ## What is asked for -/

/-- The answers a descriptor is said to have to come are those the loop is given. -/
theorem writeRetryLoop_answers (rest : List WriteAnswer) (size : ℤ) :
    writeRetryLoop data off size answers { fd with answers := rest } =
      writeRetryLoop data off size answers fd := by
  cases answers with
  | nil => rfl
  | cons answer _ => cases answer <;> rfl

/-- One call for each answer used up, all of them when the run is blocked, and each call asks
for what the run up to there has left of the `size` bytes at `off`. -/
def Asks (data : CArray UInt8 n) (off size : ℕ) (answers : List WriteAnswer) (fd : Fd)
    (r : Option ℤ × Fd) : Prop :=
  ∃ used spans, answers = used ++ r.2.answers ∧ r.2.asked = fd.asked ++ spans ∧
    spans.length = used.length ∧ (r.1 = none → r.2.answers = []) ∧
    ∀ i s, spans[i]? = some s → ∃ m ≤ size,
      (writeRetryLoop data off size (answers.take i) fd).2.out.length = fd.out.length + m ∧
        s = ⟨(off + m : ℕ), (size - m : ℕ)⟩

theorem Asks.of_call {answer : WriteAnswer} {rest : List WriteAnswer} {w : ℕ}
    {r : Option ℤ × Fd} (hfit : off + size ≤ n) (hw : w ≤ size)
    (hnext : ∀ more, writeRetryLoop data off size (answer :: more) fd =
      writeRetryLoop data (off + w) (size - w : ℕ) more
        (fd.write more ⟨off, size⟩ (data.slice off (off + w))))
    (h : Asks data (off + w) (size - w) rest
      (fd.write rest ⟨off, size⟩ (data.slice off (off + w))) r) :
    Asks data off size (answer :: rest) fd r := by
  obtain ⟨used, spans, hused, hasked, hlen, hblocked, hspans⟩ := h
  refine ⟨answer :: used, ⟨off, size⟩ :: spans, congrArg (answer :: ·) hused, ?_,
    congrArg Nat.succ hlen, hblocked, fun i s hs => ?_⟩
  · rw [hasked, Fd.write, List.append_assoc, List.singleton_append]
  · cases i with
    | zero =>
      obtain rfl := Option.some.inj hs
      exact ⟨0, Nat.zero_le _, rfl, rfl⟩
    | succ i =>
      obtain ⟨m, hm, hout, rfl⟩ := hspans i s hs
      refine ⟨w + m, by omega, ?_, ?_⟩
      · rw [List.take_succ_cons, hnext, ← writeRetryLoop_answers rest]
        have hslice : (data.slice off (off + w)).length = w := by
          rw [data.length_slice (by omega), Nat.add_sub_cancel_left]
        refine hout.trans ?_
        rw [Fd.write, List.length_append, hslice, Nat.add_assoc]
      · rw [Nat.add_assoc, Nat.sub_sub]

theorem Asks.of_last {answer : WriteAnswer} {rest : List WriteAnswer} {bytes : List UInt8}
    {ret : ℤ} : Asks data off size (answer :: rest) fd
      (some ret, fd.write rest ⟨off, size⟩ bytes) := by
  refine ⟨[answer], [⟨off, size⟩], rfl, rfl, rfl, fun h => (by cases h), fun i s hs => ?_⟩
  cases i with
  | zero =>
    obtain rfl := Option.some.inj hs
    exact ⟨0, Nat.zero_le _, rfl, rfl⟩
  | succ i => cases hs

/-- **What the loop asks for**, by induction on the answers. -/
theorem asks_writeRetryLoop (data : CArray UInt8 n) (answers : List WriteAnswer) (fd : Fd)
    (hfit : off + size ≤ n) (hmax : size ≤ INT_MAX) :
    Asks data off size answers fd (writeRetryLoop data off size answers fd) := by
  induction answers generalizing off size fd with
  | nil =>
    exact ⟨[], [], rfl, (List.append_nil _).symm, rfl, fun _ => rfl, fun i s hs => (by cases hs)⟩
  | cons answer rest ih =>
    have hcount := toSizeT_of_le hmax
    cases answer with
    | zero =>
      rw [writeRetryLoop, hcount]
      exact Asks.of_last
    | fail =>
      rw [writeRetryLoop, hcount]
      exact Asks.of_last
    | retry =>
      have hnext : ∀ more, writeRetryLoop data off size (.retry :: more) fd =
          writeRetryLoop data (off + 0) (size - 0 : ℕ) more
            (fd.write more ⟨off, size⟩ (data.slice off (off + 0))) := fun more => by
        rw [writeRetryLoop, hcount, Nat.add_zero, Nat.sub_zero, CArray.slice_self]
      rw [hnext]
      exact Asks.of_call hfit (Nat.zero_le _) hnext (ih _ hfit hmax)
    | accept most =>
      by_cases hzero : min (most + 1) size = 0
      · simp only [writeRetryLoop, hcount, if_pos hzero]
        exact Asks.of_last
      · by_cases hall : (size : ℤ) - (min (most + 1) size : ℕ) = 0
        · simp only [writeRetryLoop, hcount, if_neg hzero, if_pos hall]
          exact Asks.of_last
        · have hcast : (size : ℤ) - (min (most + 1) size : ℕ) =
            (size - min (most + 1) size : ℕ) := by omega
          have hnext : ∀ more, writeRetryLoop data off size (.accept most :: more) fd =
              writeRetryLoop data (off + min (most + 1) size) (size - min (most + 1) size : ℕ) more
                (fd.write more ⟨off, size⟩ (data.slice off (off + min (most + 1) size))) :=
            fun more => by
              simp only [writeRetryLoop, hcount, if_neg hzero, if_neg hall]
              rw [hcast]
          rw [hnext]
          exact Asks.of_call hfit (by omega) hnext (ih _ (by omega) (by omega))

/-! ## How it ends -/

/-- The answer is not a retryable error. -/
def WriteAnswer.settles : WriteAnswer → Bool
  | .retry => false
  | _ => true

/-- What a call has come to, the answers it has used up being `used`: whether it is blocked,
and what it returns otherwise. -/
structure Exits (data : CArray UInt8 n) (used : List WriteAnswer) (r : Option ℤ × Fd) : Prop where
  out : r.2.out <+: data.toList
  all : 0 < n → (r.1 = some (n : ℤ) ↔ r.2.out = data.toList)
  empty : n = 0 → (r.1 = some 0 ↔ r.1 ≠ none ∧ .fail ∉ used)
  zero : .zero ∈ used → r.1 = some (r.2.out.length : ℤ)
  fail : r.1 = some (-1) ↔ .fail ∈ used
  blocked : r.1 = none → used.countP WriteAnswer.settles ≤ n

theorem Exits.of_slice {used : List WriteAnswer} {r : Option ℤ × Fd} {m : ℕ} (hm : m ≤ n)
    (hout : r.2.out = data.slice 0 m)
    (all : 0 < n → (r.1 = some (n : ℤ) ↔ m = n))
    (empty : n = 0 → (r.1 = some 0 ↔ r.1 ≠ none ∧ .fail ∉ used))
    (zero : .zero ∈ used → r.1 = some (m : ℤ)) (fail : r.1 = some (-1) ↔ .fail ∈ used)
    (blocked : r.1 = none → used.countP WriteAnswer.settles ≤ n) : Exits data used r := by
  have hlen : r.2.out.length = m := by
    rw [hout, data.length_slice hm, Nat.sub_zero]
  refine ⟨?_, fun hpos => (all hpos).trans ?_, empty, fun hzero => ?_, fail, blocked⟩
  · rw [hout]
    exact List.take_prefix _ _
  · constructor
    · rintro rfl
      rw [hout]
      exact List.take_of_length_le data.length_eq.le
    · intro heq
      rw [← hlen, heq, data.length_eq]
  · rw [zero hzero, hlen]

theorem countP_settles_le_accepts (h : NoFailure answers) :
    answers.countP WriteAnswer.settles ≤ accepts answers := by
  refine List.countP_mono_left fun answer hmem hsettles => ?_
  obtain ⟨hzero, hfail⟩ := h answer hmem
  cases answer with
  | accept most => rfl
  | zero => exact absurd rfl hzero
  | retry => cases hsettles
  | fail => exact absurd rfl hfail

theorem NoFailure.mem_snoc {used : List WriteAnswer} {last answer : WriteAnswer}
    (h : NoFailure used) (hfailure : answer = .zero ∨ answer = .fail) :
    answer ∈ used ++ [last] ↔ answer = last := by
  rw [List.mem_append, List.mem_singleton]
  refine or_iff_right fun hmem => ?_
  rcases hfailure with rfl | rfl
  · exact (h _ hmem).1 rfl
  · exact (h _ hmem).2 rfl

theorem Attempts.exits (hpos : 0 < n) {r : Option ℤ × Fd}
    (h : Attempts data 0 n (Fd.new answers) r) {used : List WriteAnswer}
    (hused : answers = used ++ r.2.answers) : Exits data used r := by
  have hneg : ∀ m : ℕ, some (m : ℤ) ≠ some (-1) := fun m heq => by
    have := Option.some.inj heq
    omega
  have hempty : n = 0 → (r.1 = some 0 ↔ r.1 ≠ none ∧ .fail ∉ used) := fun hzero => by omega
  rcases h.outcome with ⟨hret, hout, -, used', hused', hgood⟩ | ⟨m, hm, hout, hcases⟩
  · obtain rfl := List.append_cancel_right (hused.symm.trans hused')
    rw [Nat.zero_add] at hret hout
    refine Exits.of_slice le_rfl hout (fun _ => iff_of_true hret rfl) hempty
      (fun hzero => absurd rfl (hgood _ hzero).1)
      (iff_of_false (hret ▸ hneg n) fun hfail => (hgood _ hfail).2 rfl) (fun hnone => ?_)
    rw [hret] at hnone
    cases hnone
  · rw [Nat.zero_add] at hout
    rcases hcases with ⟨hret, haccepts, hnil, hgood⟩ | ⟨used', last, hused', hgood, hlast⟩
    · rw [hnil, List.append_nil] at hused
      subst hused
      refine Exits.of_slice hm.le hout (fun _ => iff_of_false (by simp [hret]) hm.ne) hempty
        (fun hzero => absurd rfl (hgood _ hzero).1)
        (iff_of_false (by simp [hret]) fun hfail => (hgood _ hfail).2 rfl) fun _ => ?_
      exact (countP_settles_le_accepts hgood).trans haccepts.le
    · have hsnoc : used = used' ++ [last] := by
        refine List.append_cancel_right (hused.symm.trans (hused'.trans ?_))
        rw [List.append_assoc, List.singleton_append]
      subst hsnoc
      rw [Nat.zero_add] at hlast
      rcases hlast with ⟨rfl, hret⟩ | ⟨rfl, hret⟩
      · refine Exits.of_slice hm.le hout (fun _ => ?_) hempty (fun _ => hret) ?_ fun hnone => ?_
        · rw [hret, Option.some.injEq, Nat.cast_inj]
        · rw [hgood.mem_snoc (Or.inr rfl)]
          exact iff_of_false (hret ▸ hneg m) (by simp)
        · rw [hret] at hnone
          cases hnone
      · refine Exits.of_slice hm.le hout (fun _ => ?_) hempty (fun hzero => ?_) ?_ fun hnone => ?_
        · refine iff_of_false (fun heq => hneg n ?_) hm.ne
          rw [← heq, hret]
        · rw [hgood.mem_snoc (Or.inl rfl)] at hzero
          cases hzero
        · exact iff_of_true hret ((hgood.mem_snoc (Or.inr rfl)).mpr rfl)
        · rw [hret] at hnone
          cases hnone

theorem Exits.cons_retry {used : List WriteAnswer} {r : Option ℤ × Fd} (h : Exits data used r) :
    Exits data (.retry :: used) r where
  out := h.out
  all := h.all
  empty hzero := by simpa using h.empty hzero
  zero hzero := h.zero (by simpa using hzero)
  fail := by simpa using h.fail
  blocked hnone := by simpa [WriteAnswer.settles] using h.blocked hnone

/-- **A block of no bytes.**  The first answer that is no retryable error ends the call. -/
theorem exits_writeRetryLoop_zero {data : CArray UInt8 0} (answers : List WriteAnswer) (fd : Fd)
    (hout : fd.out = []) :
    ∃ used, answers = used ++ (writeRetryLoop data 0 0 answers fd).2.answers ∧
      Exits data used (writeRetryLoop data 0 0 answers fd) := by
  have hslice : ∀ fd : Fd, fd.out = [] → fd.out = data.slice 0 0 := fun fd hfd => by
    rw [hfd, CArray.slice_self]
  induction answers generalizing fd with
  | nil =>
    exact ⟨[], rfl, Exits.of_slice le_rfl (hslice _ hout) (by simp) (by simp [writeRetryLoop])
      (by simp) (by simp [writeRetryLoop]) (by simp)⟩
  | cons answer rest ih =>
    cases answer with
    | zero =>
      refine ⟨[.zero], rfl, Exits.of_slice le_rfl (hslice _ ?_) (by simp) ?_ ?_ ?_ ?_⟩ <;>
        simp [writeRetryLoop, Fd.write, hout]
    | fail =>
      refine ⟨[.fail], rfl, Exits.of_slice le_rfl (hslice _ ?_) (by simp) ?_ ?_ ?_ ?_⟩ <;>
        simp [writeRetryLoop, Fd.write, hout]
    | accept most =>
      have hcount : toSizeT 0 = 0 := rfl
      refine ⟨[.accept most], rfl, Exits.of_slice le_rfl (hslice _ ?_) (by simp) ?_ ?_ ?_ ?_⟩ <;>
        simp [writeRetryLoop, Fd.write, hout, hcount]
    | retry =>
      obtain ⟨used, hused, hexits⟩ := ih (fd.write rest ⟨(0 : ℕ), toSizeT 0⟩ [])
        (by rw [Fd.write, hout, List.append_nil])
      exact ⟨.retry :: used, congrArg (.retry :: ·) hused, hexits.cons_retry⟩

/-- **What a call has come to**, for a block of any size. -/
theorem exits_writeRetry (data : CArray UInt8 n) (hmax : n ≤ INT_MAX) {used : List WriteAnswer}
    (hused : answers = used ++ (writeRetry data n (Fd.new answers)).2.answers) :
    Exits data used (writeRetry data n (Fd.new answers)) := by
  rcases Nat.eq_zero_or_pos n with rfl | hpos
  · obtain ⟨used', hused', hexits⟩ := exits_writeRetryLoop_zero answers (Fd.new answers) rfl
    obtain rfl := List.append_cancel_right (hused.symm.trans hused')
    exact hexits
  · exact (attempts_writeRetryLoop data rfl hpos hmax).exits hpos hused

/-! ## The whole call -/

/-- **`write_retry` delivers exactly once, in order**, for a block of any size and any answers
of `write`.  The bytes accepted are the first of the block, and each call asks for what the
run up to there has left.  The call returns `n` exactly if all of a block that is not
empty was accepted --- an empty one counts as accepted unless `write` fails on it ---, the
number of bytes accepted after a `0`, and `-1` exactly if it has met another error.  It
returns whenever the retryable errors come to an end. -/
theorem writeRetry_delivers (data : CArray UInt8 n) (hmax : n ≤ INT_MAX) :
    (∀ answers,
      let run := fun k => writeRetry data n (Fd.new (answers.take k))
      let r := writeRetry data n (Fd.new answers)
      let used := answers.take r.2.asked.length
      answers = used ++ r.2.answers ∧ r.2.out <+: data.toList ∧
        (∀ i s, r.2.asked[i]? = some s → (run i).2.out.length ≤ n ∧
          s = ⟨(run i).2.out.length, (n - (run i).2.out.length : ℕ)⟩) ∧
        (0 < n → (r.1 = some (n : ℤ) ↔ r.2.out = data.toList)) ∧
        (n = 0 → (r.1 = some 0 ↔ r.1 ≠ none ∧ .fail ∉ used)) ∧
        (.zero ∈ used → r.1 = some (r.2.out.length : ℤ)) ∧ (r.1 = some (-1) ↔ .fail ∈ used)) ∧
      ∀ s : ℕ → WriteAnswer, (∃ N, ∀ i, N ≤ i → s i ≠ .retry) →
        ∃ k, (writeRetry data n (Fd.new (firsts s k))).1 ≠ none := by
  constructor
  · intro answers run r used
    obtain ⟨used', spans, hused', hasked, hlen, -, hspans⟩ :=
      asks_writeRetryLoop data answers (Fd.new answers) (Nat.zero_add n).le hmax
    change answers = used' ++ r.2.answers at hused'
    change r.2.asked = spans at hasked
    have hused : used = used' := by
      have htake : (used' ++ r.2.answers).take spans.length = used' := List.take_left' hlen.symm
      rwa [← hused', ← hasked] at htake
    rw [← hused] at hused'
    have hexits := exits_writeRetry data hmax hused'
    refine ⟨hused', hexits.out, fun i s hs => ?_, hexits.all, hexits.empty, hexits.zero,
      hexits.fail⟩
    rw [hasked] at hs
    obtain ⟨m, hm, hout, rfl⟩ := hspans i s hs
    have hrun : (run i).2.out.length = m := by
      refine Eq.trans ?_ (hout.trans (Nat.zero_add m))
      exact congrArg (·.2.out.length) (writeRetryLoop_answers answers n).symm
    rw [hrun]
    refine ⟨hm, ?_⟩
    rw [Nat.zero_add]
  · rintro s ⟨N, hN⟩
    have hsettles : ∀ i, ∃ j, i ≤ j ∧ (s j).settles = true := fun i => by
      refine ⟨max i N, le_max_left _ _, ?_⟩
      cases hans : s (max i N) with
      | retry => exact absurd hans (hN _ (le_max_right _ _))
      | _ => rfl
    obtain ⟨k, hk⟩ := exists_le_countP_firsts hsettles (n + 1)
    refine ⟨k, fun hblocked => ?_⟩
    obtain ⟨used, -, hused, -, -, hnil, -⟩ :=
      asks_writeRetryLoop data (firsts s k) (Fd.new (firsts s k)) (Nat.zero_add n).le hmax
    have hcount := (exits_writeRetry data hmax hused).blocked hblocked
    rw [hnil hblocked, List.append_nil] at hused
    rw [← hused] at hcount
    omega

/-- Three bytes in two pieces, with a retry between them. -/
theorem writeRetry_delivers_threeBytes :
    (writeRetry (⟨[1, 2, 3], rfl⟩ : CArray UInt8 3) 3
      (Fd.new [.accept 0, .retry, .accept 5])).1 = some 3 := by
  obtain ⟨hruns, -⟩ := writeRetry_delivers (⟨[1, 2, 3], rfl⟩ : CArray UInt8 3) (by decide)
  obtain ⟨-, -, -, hall, -⟩ := hruns [.accept 0, .retry, .accept 5]
  exact (hall (by decide)).mpr (by decide)

/-- **An empty block**: nothing of it is left to accept, and the call returns `-1`. -/
theorem writeRetry_empty_fails :
    let data : CArray UInt8 0 := ⟨[], rfl⟩
    let r := writeRetry data 0 (Fd.new [.fail])
    r.2.out = data.toList ∧ r.1 = some (-1) ∧ ¬(r.1 = some 0 ↔ r.2.out = data.toList) := by
  decide

end LowLevelIo
end CaosSeminars
