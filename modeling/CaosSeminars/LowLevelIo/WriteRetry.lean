import Mathlib.Data.Int.ModEq
import CaosSeminars.Library.CArray

/-!
# `write_retry` of `buffered_perf.c`

`write_retry` calls `write` on the rest of a block until all of it is accepted,
calls again on `EAGAIN` and `EINTR`, and gives up on `0` and on any other error.
How `write` answers is not up to the code: the answers to come are a list, and a
call that finds none is blocked, with whatever was accepted before accepted.  So
the prefixes of a list of answers are the moments of a run, and a theorem about
every list is one about every moment.

An answer `accept most` takes as much as it is asked for but not more than
`most + 1` bytes, so that every list of answers is one that a kernel can give.

* `Attempts` --- what a call does, whatever `write` answers; `attempts_writeRetryLoop` is
  the induction on the answers.
* `Delivers` --- the case without failures, in which the block is delivered or the call is
  blocked.
-/

namespace CaosSeminars
namespace LowLevelIo

/-- `INT_MAX`. -/
def INT_MAX : ℕ := 2 ^ 31 - 1

/-- A `size_t` passed as an `int`. -/
def toInt (n : ℕ) : ℤ := (n : ℤ).bmod (2 ^ 32)

/-- An `int` passed as a `size_t`. -/
def toSizeT (n : ℤ) : ℕ := (n % 2 ^ 64).toNat

/-- What `write` answers. -/
inductive WriteAnswer where
  /-- It accepts some of the bytes. -/
  | accept (most : ℕ)
  /-- `0`. -/
  | zero
  /-- `-1` with `EAGAIN` or `EINTR`. -/
  | retry
  /-- `-1` with another `errno`. -/
  | fail
  deriving DecidableEq

/-- A file descriptor: the answers to come, the bytes accepted, and the history of
what `write` was asked for, as offsets into the block. -/
structure Fd where
  answers : List WriteAnswer
  out : List UInt8
  asked : List Span

/-- A descriptor before the first `write`. -/
def Fd.new (answers : List WriteAnswer) : Fd := ⟨answers, [], []⟩

/-- A call of `write` that accepts `bytes`. -/
def Fd.write (fd : Fd) (rest : List WriteAnswer) (asked : Span) (bytes : List UInt8) : Fd :=
  ⟨rest, fd.out ++ bytes, fd.asked ++ [asked]⟩

variable {n : ℕ}

/-- The loop of `write_retry`, where `off` is `cdata - data`; `none` is a call that is
blocked. -/
def writeRetryLoop (data : CArray UInt8 n) :
    ℕ → ℤ → List WriteAnswer → Fd → Option ℤ × Fd
  | _, _, [], fd => (none, { fd with answers := [] })
  | off, size, answer :: rest, fd =>
    match answer with
    | .zero => (some off, fd.write rest ⟨off, toSizeT size⟩ [])
    | .fail => (some (-1), fd.write rest ⟨off, toSizeT size⟩ [])
    | .retry => writeRetryLoop data off size rest (fd.write rest ⟨off, toSizeT size⟩ [])
    | .accept most =>
      let written := min (most + 1) (toSizeT size)
      let fd := fd.write rest ⟨off, toSizeT size⟩ (data.slice off (off + written))
      if written = 0 then (some off, fd)
      else if size - written = 0 then (some ((off + written : ℕ) : ℤ), fd)
      else writeRetryLoop data (off + written) (size - written) rest fd

/-- `write_retry`. -/
def writeRetry (data : CArray UInt8 n) (size : ℤ) (fd : Fd) : Option ℤ × Fd :=
  writeRetryLoop data 0 size fd.answers fd

/-! ## Schedules without failures -/

/-- `write` neither returns `0` nor fails for good. -/
def NoFailure (answers : List WriteAnswer) : Prop := ∀ a ∈ answers, a ≠ .zero ∧ a ≠ .fail

instance (answers : List WriteAnswer) : Decidable (NoFailure answers) :=
  inferInstanceAs (Decidable (∀ a ∈ answers, _))

/-- The answer accepts bytes. -/
def WriteAnswer.accepts : WriteAnswer → Bool
  | .accept _ => true
  | _ => false

/-- How many answers accept bytes. -/
def accepts (answers : List WriteAnswer) : ℕ := answers.countP WriteAnswer.accepts

theorem toInt_of_le {size : ℕ} (h : size ≤ INT_MAX) : toInt size = size := by
  unfold INT_MAX at h
  exact Int.bmod_eq_of_le (by omega) (by omega)

theorem toSizeT_of_le {size : ℕ} (h : size ≤ INT_MAX) : toSizeT size = size := by
  unfold INT_MAX at h
  unfold toSizeT
  omega

/-! ## What a call does -/

/-- What `write_retry` does with a block of `size` bytes at `off`.  It asks for the rest
of the block each time, and the answers it has used up, but for the last, are no
failures.  It returns with all of the block accepted, or it is blocked, or the last
answer was a failure; then a part of the block is accepted, and not all. -/
structure Attempts (data : CArray UInt8 n) (off size : ℕ) (fd : Fd) (r : Option ℤ × Fd) : Prop where
  asked : ∀ s ∈ r.2.asked, s ∈ fd.asked ∨ ((off : ℤ) ≤ s.off ∧ 0 ≤ s.count ∧
    s.off + s.count = off + size)
  outcome : (r.1 = some ((off + size : ℕ) : ℤ) ∧ r.2.out = fd.out ++ data.slice off (off + size) ∧
      accepts fd.answers ≤ accepts r.2.answers + size ∧
      ∃ used, fd.answers = used ++ r.2.answers ∧ NoFailure used) ∨
    ∃ m < size, r.2.out = fd.out ++ data.slice off (off + m) ∧
      ((r.1 = none ∧ accepts fd.answers < size ∧ r.2.answers = [] ∧ NoFailure fd.answers) ∨
        ∃ used answer, fd.answers = used ++ answer :: r.2.answers ∧ NoFailure used ∧
          ((answer = .zero ∧ r.1 = some ((off + m : ℕ) : ℤ)) ∨
            (answer = .fail ∧ r.1 = some (-1))))

theorem mem_asked_snoc {asked : List Span} {off size : ℕ} :
    ∀ s ∈ asked ++ [⟨off, size⟩], s ∈ asked ∨ ((off : ℤ) ≤ s.off ∧ 0 ≤ s.count ∧
      s.off + s.count = off + size) := by
  intro s hs
  rcases List.mem_append.mp hs with hmem | hmem
  · exact Or.inl hmem
  · obtain rfl := List.mem_singleton.mp hmem
    exact Or.inr ⟨le_rfl, Int.natCast_nonneg _, rfl⟩

/-- A call that accepts `w` bytes, and then the attempt at the rest. -/
theorem Attempts.of_call {data : CArray UInt8 n} {off size w : ℕ} {fd : Fd} {answer : WriteAnswer}
    {rest : List WriteAnswer} {r : Option ℤ × Fd} (hw : w < size)
    (hfd : fd.answers = answer :: rest) (hanswer : answer ≠ .zero ∧ answer ≠ .fail)
    (haccepts : accepts fd.answers ≤ accepts rest + w)
    (h : Attempts data (off + w) (size - w)
      (fd.write rest ⟨off, size⟩ (data.slice off (off + w))) r) :
    Attempts data off size fd r where
  asked := by
    intro s hs
    rcases h.asked s hs with hmem | hrange
    · exact mem_asked_snoc s hmem
    · refine Or.inr ⟨?_, ?_, ?_⟩ <;> omega
  outcome := by
    have hsum : off + w + (size - w) = off + size := by omega
    have hcons : ∀ {used : List WriteAnswer}, NoFailure used → NoFailure (answer :: used) :=
      fun hused => List.forall_mem_cons.mpr ⟨hanswer, hused⟩
    have hslice : ∀ hi, off + w ≤ hi → fd.out ++ data.slice off (off + w) ++
        data.slice (off + w) hi = fd.out ++ data.slice off hi := fun hi hle => by
      rw [List.append_assoc, CArray.slice_append_slice _ (by omega) hle]
    rcases h.outcome with ⟨hret, hout, haccepts', used, hused, hgood⟩ | ⟨m, hm, hout, hcases⟩
    · refine Or.inl ⟨by rw [hret, hsum], ?_, ?_, answer :: used, ?_, hcons hgood⟩
      · rw [hout, hsum]
        exact hslice _ (by omega)
      · simp only [Fd.write] at haccepts'
        omega
      · rw [hfd, List.cons_append]
        exact congrArg (answer :: ·) hused
    · refine Or.inr ⟨w + m, by omega, ?_, ?_⟩
      · rw [hout, ← Nat.add_assoc]
        exact hslice _ (by omega)
      · rcases hcases with ⟨hret, haccepts', hnil, hgood⟩ | ⟨used, last, hused, hgood, hlast⟩
        · refine Or.inl ⟨hret, ?_, hnil, ?_⟩
          · simp only [Fd.write] at haccepts'
            omega
          · rw [hfd]
            exact hcons hgood
        · refine Or.inr ⟨answer :: used, last, ?_, hcons hgood, ?_⟩
          · rw [hfd, List.cons_append]
            exact congrArg (answer :: ·) hused
          · rw [← Nat.add_assoc]
            exact hlast

theorem Attempts.of_failure {data : CArray UInt8 n} {off size : ℕ} {fd : Fd} {answer : WriteAnswer}
    {rest : List WriteAnswer} {ret : ℤ} (hpos : 0 < size) (hfd : fd.answers = answer :: rest)
    (hret : (answer = .zero ∧ ret = off) ∨ (answer = .fail ∧ ret = -1)) :
    Attempts data off size fd (some ret, fd.write rest ⟨off, size⟩ []) where
  asked := mem_asked_snoc
  outcome := by
    refine Or.inr ⟨0, hpos, ?_, Or.inr ⟨[], answer, hfd, List.forall_mem_nil _, ?_⟩⟩
    · rw [Nat.add_zero, CArray.slice_self]
      rfl
    · rw [Nat.add_zero]
      exact hret.imp (And.imp_right (congrArg some)) (And.imp_right (congrArg some))

/-- **What the loop does**, by induction on the answers. -/
theorem attempts_writeRetryLoop (data : CArray UInt8 n) {off size : ℕ} {answers : List WriteAnswer}
    {fd : Fd} (hfd : fd.answers = answers) (hpos : 0 < size) (hmax : size ≤ INT_MAX) :
    Attempts data off size fd (writeRetryLoop data off size answers fd) := by
  induction answers generalizing off size fd with
  | nil =>
    refine ⟨fun s hs => Or.inl hs, Or.inr ⟨0, hpos, ?_, Or.inl ⟨rfl, ?_, rfl, ?_⟩⟩⟩
    · simp [writeRetryLoop]
    · rw [hfd]
      exact hpos
    · rw [hfd]
      exact List.forall_mem_nil _
  | cons answer rest ih =>
    have hcount := toSizeT_of_le hmax
    cases answer with
    | zero =>
      rw [writeRetryLoop, hcount]
      exact Attempts.of_failure hpos hfd (Or.inl ⟨rfl, rfl⟩)
    | fail =>
      rw [writeRetryLoop, hcount]
      exact Attempts.of_failure hpos hfd (Or.inr ⟨rfl, rfl⟩)
    | retry =>
      rw [writeRetryLoop, hcount]
      have hcall : accepts fd.answers ≤ accepts rest + 0 := by
        rw [hfd]
        rfl
      refine Attempts.of_call hpos hfd ⟨by simp, by simp⟩ hcall ?_
      rw [Nat.add_zero, Nat.sub_zero, CArray.slice_self]
      exact ih rfl hpos hmax
    | accept most =>
      have haccepts : accepts fd.answers = accepts rest + 1 := by
        rw [hfd]
        exact List.countP_cons_of_pos rfl
      simp only [writeRetryLoop, hcount]
      have hw : min (most + 1) size ≠ 0 := by omega
      rw [if_neg hw]
      split
      · rename_i hall
        have hsize : min (most + 1) size = size := by omega
        rw [hsize]
        refine ⟨mem_asked_snoc, Or.inl ⟨rfl, rfl, ?_, [.accept most], hfd, ?_⟩⟩
        · simp only [Fd.write]
          omega
        · exact List.forall_mem_singleton.mpr ⟨by simp, by simp⟩
      · rename_i hpart
        have hlt : min (most + 1) size < size := by omega
        have hcast : (size : ℤ) - (min (most + 1) size : ℕ) = (size - min (most + 1) size : ℕ) := by
          omega
        rw [hcast]
        exact Attempts.of_call hlt hfd ⟨by simp, by simp⟩ (by omega)
          (ih rfl (by omega) (by omega))

/-- **`write_retry`** on a block of `size` bytes, whatever `write` answers. -/
theorem attempts_writeRetry (data : CArray UInt8 n) {size : ℕ} (fd : Fd) (hpos : 0 < size)
    (hmax : size ≤ INT_MAX) : Attempts data 0 size fd (writeRetry data (toInt size) fd) := by
  rw [toInt_of_le hmax]
  exact attempts_writeRetryLoop data rfl hpos hmax

/-! ## Without failures -/

/-- What `write_retry` does with a block of `size` bytes at `off`: it returns with
all of it accepted, or it is blocked with a part accepted, after fewer accepting
answers than bytes; and it asks for the rest of the block each time. -/
structure Delivers (data : CArray UInt8 n) (off size : ℕ) (fd : Fd) (r : Option ℤ × Fd) : Prop where
  asked : ∀ s ∈ r.2.asked, s ∈ fd.asked ∨ ((off : ℤ) ≤ s.off ∧ 0 ≤ s.count ∧
    s.off + s.count = off + size)
  noFailure : NoFailure r.2.answers
  outcome : (r.1 = some ((off + size : ℕ) : ℤ) ∧ r.2.out = fd.out ++ data.slice off (off + size) ∧
      accepts fd.answers ≤ accepts r.2.answers + size) ∨
    (r.1 = none ∧ accepts fd.answers < size ∧
      ∃ m, m < size ∧ r.2.out = fd.out ++ data.slice off (off + m))

/-- Without failures an attempt delivers. -/
theorem Attempts.delivers {data : CArray UInt8 n} {off size : ℕ} {fd : Fd} {r : Option ℤ × Fd}
    (h : Attempts data off size fd r) (hgood : NoFailure fd.answers) :
    Delivers data off size fd r := by
  rcases h.outcome with ⟨hret, hout, haccepts, used, hused, -⟩ | ⟨m, hm, hout, hcases⟩
  · rw [hused] at hgood
    exact ⟨h.asked, (List.forall_mem_append.mp hgood).2, Or.inl ⟨hret, hout, haccepts⟩⟩
  · rcases hcases with ⟨hret, haccepts, hnil, -⟩ | ⟨used, answer, hused, -, hanswer⟩
    · refine ⟨h.asked, ?_, Or.inr ⟨hret, haccepts, m, hm, hout⟩⟩
      rw [hnil]
      exact List.forall_mem_nil _
    · obtain ⟨hzero, hfail⟩ := hgood answer (hused ▸ List.mem_append_right _ List.mem_cons_self)
      rcases hanswer with ⟨rfl, -⟩ | ⟨rfl, -⟩
      · exact absurd rfl hzero
      · exact absurd rfl hfail

theorem delivers_writeRetry (data : CArray UInt8 n) {size : ℕ} {fd : Fd}
    (hgood : NoFailure fd.answers) (hpos : 0 < size) (hmax : size ≤ INT_MAX) :
    Delivers data 0 size fd (writeRetry data (toInt size) fd) :=
  (attempts_writeRetry data fd hpos hmax).delivers hgood

end LowLevelIo
end CaosSeminars
