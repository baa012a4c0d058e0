import CaosSeminars.Epoll.Stream

/-!
# Bursts

The cursors go back to the front of the buffer when everything received has been echoed.  The
bytes received from one such moment to the next are a burst, and a burst is stored from the
front on.  So what is known of the cursors and of the buffer is known from the bytes received
and the counts echoed:

* `burstsOf`: the bursts of a run, told from the answers of `read` and `write` alone.
* `Tracks`: the cursors are in the last burst, and the buffer is made of all of them
  (`overlay`); every run keeps this up (`tracks_of_trace`).
* `Short`: no burst fills the buffer.

Nothing is assumed of the answers but the counts (`kernelAnswers`).  `Epoll.FullBuffer` and
`Epoll.HalfClose` read from this when a connection is kept, and `Epoll.LogLine` what is printed.
-/

namespace CaosSeminars
namespace Epoll

/-! ## Bursts -/

/-- The bursts that were echoed, the one after them, and how much of that is echoed. -/
structure Bursts where
  past : List (List UInt8)
  current : List UInt8
  echoed : ℕ
  deriving DecidableEq

/-- All of them, in order. -/
def Bursts.all (b : Bursts) : List (List UInt8) := b.past ++ [b.current]

/-- What an answer of `read` or `write` adds; without room, or with nothing to echo, there is
no call. -/
def Bursts.next (b : Bursts) : Act → Bursts
  | .read (.bytes bs) =>
    if BUFF_SIZE ≤ b.current.length then b else { b with current := b.current ++ bs }
  | .write (.count n) =>
    if b.current.length ≤ b.echoed then b
    else if b.echoed + n = b.current.length then ⟨b.all, [], 0⟩
    else { b with echoed := b.echoed + n }
  | _ => b

/-- The bursts of a run. -/
def burstsOf (as : List Act) : Bursts := as.foldl Bursts.next ⟨[], [], 0⟩

/-- No burst has filled the buffer. -/
def Short (b : Bursts) : Prop := ∀ burst ∈ b.all, burst.length < BUFF_SIZE

/-- The buffer after some bursts. -/
def overlay (bursts : List (List UInt8)) : CArray UInt8 BUFF_SIZE :=
  bursts.foldl (fun buffer burst => buffer.store 0 burst) (.replicate BUFF_SIZE 0)

variable {bursts past : List (List UInt8)} {burst : List UInt8}

theorem short_nil : Short (burstsOf []) := by
  simp [Short, burstsOf, Bursts.all, BUFF_SIZE]

theorem overlay_snoc : overlay (past ++ [burst]) = (overlay past).store 0 burst := by
  rw [overlay, List.foldl_append]
  rfl

/-! ## The invariant -/

/-- The cursors and the buffer are what the bursts so far have made them. -/
structure Tracks (b : Bursts) (d : FdData) : Prop where
  echoed : d.bufferBegin = b.echoed
  received : d.bufferEnd = b.current.length
  buffer : d.buffer = overlay b.all
  fits : ∀ burst ∈ b.all, burst.length ≤ BUFF_SIZE

variable {b : Bursts} {d : FdData} {c c' : Conn} {a : Act}

theorem tracks_new (fd : ℤ) : Tracks ⟨[], [], 0⟩ (FdData.new fd) where
  echoed := rfl
  received := rfl
  buffer := (CArray.store_nil _ _).symm
  fits := by simp [Bursts.all]

theorem Tracks.readBuff (h : Tracks b d) {r : ReadResult} (hr : readPromise d r) :
    Tracks (b.next (.read r)) (readBuff d r).1 := by
  have hend := h.received
  cases r with
  | bytes bs =>
    by_cases hfull : full d
    · have hlen : BUFF_SIZE ≤ b.current.length := by
        simp only [full] at hfull
        omega
      rw [readBuff_full hfull, Bursts.next, if_pos hlen]
      exact h
    · obtain ⟨-, hcount⟩ := hr hfull
      simp only [full] at hfull
      simp only [readSpan] at hcount
      rw [readBuff_bytes hfull, Bursts.next, if_neg (by omega)]
      have hfits := h.fits
      rw [Bursts.all, List.forall_mem_append, List.forall_mem_singleton] at hfits
      refine ⟨h.echoed, ?_, ?_, ?_⟩
      · simp [hend]
      · show d.buffer.store d.bufferEnd.toNat bs = overlay (b.past ++ [b.current ++ bs])
        have hoff : d.bufferEnd.toNat = 0 + b.current.length := by omega
        rw [h.buffer, Bursts.all, overlay_snoc, overlay_snoc, hoff]
        exact CArray.store_store _ (by omega)
      · rw [Bursts.all, List.forall_mem_append, List.forall_mem_singleton]
        refine ⟨hfits.1, ?_⟩
        rw [List.length_append]
        omega
  | _ =>
    rw [readBuff_other (by simp)]
    exact h

/-- `write_buff` echoes the burst, and starts the next one when it is done. -/
theorem Tracks.writeBuff (h : Tracks b d) (w : WriteResult) :
    Tracks (b.next (.write w)) (writeBuff d w).1 := by
  have hbegin := h.echoed
  have hend := h.received
  cases w with
  | count n =>
    by_cases hnone : nothingToWrite d
    · have hlen : b.current.length ≤ b.echoed := by
        simp only [nothingToWrite] at hnone
        omega
      rw [writeBuff_nothing hnone, Bursts.next, if_pos hlen]
      exact h
    · rw [writeBuff_count hnone]
      simp only [nothingToWrite] at hnone
      rw [Bursts.next, if_neg (by omega)]
      by_cases hmeet : b.echoed + n = b.current.length
      · rw [if_pos hmeet, if_pos (by omega)]
        refine ⟨rfl, rfl, ?_, ?_⟩
        · show d.buffer = overlay (b.all ++ [[]])
          rw [overlay_snoc, CArray.store_nil, h.buffer]
        · exact List.forall_mem_append.mpr ⟨h.fits, by simp⟩
      · rw [if_neg hmeet, if_neg (by omega)]
        exact ⟨by simp [hbegin], hend, h.buffer, h.fits⟩
  | _ =>
    rw [writeBuff_other (by simp)]
    exact h

theorem Tracks.moves (h : Tracks b c.data) (hok : kernelAnswers c a) (hm : Moves c a c') :
    Tracks (b.next a) c'.data := by
  cases hm with
  | read r hpc => exact h.readBuff hok
  | write w hpc => exact h.writeBuff w
  | _ => exact h

theorem tracks_of_trace {fd : ℤ} {as : List Act}
    (h : Trace Conn.step kernelAnswers (Conn.init fd) as c) : Tracks (burstsOf as) c.data := by
  have hpreserves : ∀ pre c a c', Tracks (burstsOf pre) c.data → kernelAnswers c a →
      c.step a = some c' → Tracks (burstsOf (pre ++ [a])) c'.data := by
    intro pre c a c' hc hok hstep
    rw [burstsOf, List.foldl_append]
    exact hc.moves hok (moves_of_step hstep)
  have hinit : Tracks (burstsOf []) (Conn.init fd).data := tracks_new fd
  exact Trace.history hpreserves h hinit

end Epoll
end CaosSeminars
