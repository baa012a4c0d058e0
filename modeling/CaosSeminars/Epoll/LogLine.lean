import CaosSeminars.Epoll.Bursts
import Mathlib.Data.List.Induction

/-!
# The line that is printed for a message

After every successful `read_buff` the server prints `data->buffer` with `%s`, which reads up
to the first zero byte.  The code puts none there.  What is in the buffer are the zeros of
`calloc` and what was received since; a message does not take away what a longer one has left
behind it.

The cursors go back to the front of the buffer when everything received has been echoed.  The
bytes received from one such moment to the next are a burst, and a burst is stored from the
front on.  So the byte at a position of the buffer is that of the last burst that was long
enough (`lastAt`).

* `getElem?_overlay` --- that byte, for a buffer on which any bursts were stored.
* `zero_mem_overlay_iff` --- there is a zero in the buffer **iff** at some position the last byte is
  one, or there was none yet.
* `logLine_terminated_iff` --- in every reachable state `printf` stays inside the buffer **iff** the
  bursts leave a zero somewhere, which is a condition on the bytes received.
-/

namespace CaosSeminars
namespace Epoll

/-! ## The last byte at a position -/

/-- The byte at position `i` of the last burst that has one there. -/
def lastAt (bursts : List (List UInt8)) (i : ℕ) : Option UInt8 :=
  bursts.foldl (fun last burst => burst[i]?.or last) none

/-- At some position no burst has a byte, or the last burst that does has a zero. -/
def Terminated (bursts : List (List UInt8)) : Prop :=
  ∃ i < BUFF_SIZE, lastAt bursts i = none ∨ lastAt bursts i = some 0

variable {bursts past : List (List UInt8)} {burst : List UInt8} {c : Conn}

theorem lastAt_snoc (i : ℕ) : lastAt (past ++ [burst]) i = burst[i]?.or (lastAt past i) := by
  rw [lastAt, List.foldl_append]
  rfl

/-- **The byte at a position** is that of the last burst that was long enough. -/
theorem getElem?_overlay (hfits : ∀ burst ∈ bursts, burst.length ≤ BUFF_SIZE) {i : ℕ}
    (hi : i < BUFF_SIZE) : (overlay bursts).toList[i]? = some ((lastAt bursts i).getD 0) := by
  induction bursts using List.reverseRecOn with
  | nil => exact List.getElem?_replicate_of_lt hi
  | append_singleton past burst ih =>
    rw [List.forall_mem_append, List.forall_mem_singleton] at hfits
    rw [overlay_snoc, lastAt_snoc, CArray.getElem?_store_zero _ hfits.2, ih hfits.1]
    cases burst[i]? <;> rfl

theorem zero_mem_overlay_iff (hfits : ∀ burst ∈ bursts, burst.length ≤ BUFF_SIZE) :
    0 ∈ (overlay bursts).toList ↔ Terminated bursts := by
  have hbyte : ∀ i < BUFF_SIZE, (overlay bursts).toList[i]? = some 0 ↔
      lastAt bursts i = none ∨ lastAt bursts i = some 0 := by
    intro i hi
    rw [getElem?_overlay hfits hi]
    cases lastAt bursts i <;> simp
  rw [List.mem_iff_getElem?]
  constructor
  · rintro ⟨i, hget⟩
    obtain ⟨hlen, -⟩ := List.getElem?_eq_some_iff.mp hget
    rw [(overlay bursts).length_eq] at hlen
    exact ⟨i, hlen, (hbyte i hlen).mp hget⟩
  · rintro ⟨i, hi, hlast⟩
    exact ⟨i, (hbyte i hi).mpr hlast⟩

/-! ## The line -/

/-- The server is at the `printf` after a successful `read_buff`. -/
def Prints (c : Conn) : Prop := ∃ m, c.pc = .rearming m

/-- **When the line ends inside the buffer.**  In every run, whatever is read and however it is
cut and echoed: where the server prints the buffer there is a zero byte in it, if and only if
at some position of the buffer no burst so far has had a byte, or the last one that did had a
zero there. -/
theorem logLine_terminated_iff (fd : ℤ) {as : List Act}
    (h : Trace Conn.step kernelAnswers (Conn.init fd) as c) :
    (Prints c → 0 ∈ c.data.buffer.toList) ↔ (Prints c → Terminated (burstsOf as).all) := by
  have htracks := tracks_of_trace h
  rw [htracks.buffer, zero_mem_overlay_iff htracks.fits]

/-- Bursts that are shorter than the buffer leave its last zero alone. -/
theorem terminated_of_short (h : ∀ burst ∈ bursts, burst.length < BUFF_SIZE) :
    Terminated bursts := by
  refine ⟨BUFF_SIZE - 1, by decide, Or.inl ?_⟩
  induction bursts using List.reverseRecOn with
  | nil => rfl
  | append_singleton past burst ih =>
    rw [List.forall_mem_append, List.forall_mem_singleton] at h
    rw [lastAt_snoc, ih h.1, List.getElem?_eq_none (by omega)]
    rfl

/-- Two messages, the second shorter than the first. -/
def shorterSecond : List Act :=
  [.event ⟨true, true, false, false, false⟩, .read (.bytes [104, 105, 33]), .rearm, .read .again,
    .write (.count 3), .disarm, .event ⟨true, false, false, false, false⟩,
    .read (.bytes [111, 107])]

/-- The line of the second message, `ok!`, ends inside the buffer. -/
theorem logLine_terminated_shorterSecond :
    ∃ c, Trace Conn.step kernelAnswers (Conn.init 5) shorterSecond c ∧
      (Prints c → 0 ∈ c.data.buffer.toList) := by
  obtain ⟨c, h, -⟩ := Trace.exists_of_eval Conn.step kernelAnswers (fun _ => true) (Conn.init 5)
    shorterSecond (by decide +kernel)
  refine ⟨c, h, (logLine_terminated_iff 5 h).mpr fun _ => terminated_of_short ?_⟩
  decide

/-- One read of `BUFF_SIZE` letters. -/
def fillWithLetters : List Act :=
  [.event ⟨true, false, false, false, false⟩, .read (.bytes (List.replicate BUFF_SIZE 65))]

/-- **A message of `BUFF_SIZE` letters** leaves no zero in the buffer that is printed. -/
theorem logLine_overrun_fillWithLetters :
    ∃ c, Trace Conn.step kernelAnswers (Conn.init 5) fillWithLetters c ∧ Prints c ∧
      0 ∉ c.data.buffer.toList := by
  obtain ⟨c, h, hp⟩ := Trace.exists_of_eval Conn.step kernelAnswers
    (fun c => c.pc = .rearming ⟨true, false, false, false, false⟩ ∧ 0 ∉ c.data.buffer.toList)
    (Conn.init 5) fillWithLetters (by decide +kernel)
  obtain ⟨hpc, hzero⟩ := of_decide_eq_true hp
  exact ⟨c, h, ⟨_, hpc⟩, hzero⟩

end Epoll
end CaosSeminars
