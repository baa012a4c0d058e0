import Mathlib.Data.List.TakeWhile
import CaosSeminars.Library.Lines
import CaosSeminars.LowLevelIo.FailedWrites

/-!
# `write_impl` of `buffered_perf.c`

`write_impl` reads a file line by line and hands each line to `buffered_write`.
`getline` says how long the line is, but the loop only looks whether there is one;
`buffered_write` takes the line for a string and ends it at its first `NUL`.

So the lines are the pieces of the file (`flatten_linesOf`), and what is written is
the file exactly if it has no `NUL` (`concat_cString_eq_iff`).

* `writeImpl_eq` --- `write_impl` is a session of `BufferedWriter` with the lines of the
  file.
* `Drains.out_eq_iff` --- a run that has returned leaves the file **iff** all of it was
  handed over and no answer `0` has lost a part.
* `writeImpl_copies_iff` --- for every file and all answers without a hard error: the call
  returns when enough answers accept bytes, and then the copy is the file **iff** there is
  no `NUL` in it and no answer was `0`.
-/

namespace CaosSeminars
namespace LowLevelIo

/-! ## Strings -/

variable {line : List UInt8}

/-- What a callee that takes a `char*` finds in the buffer of `getline`, which is the
line and a `NUL`. -/
def cString (line : List UInt8) : CString where
  bytes := line.takeWhile (· ≠ 0)
  noNul h := by simpa using List.mem_takeWhile_imp h

theorem strlen_cString_le : (cString line).strlen ≤ line.length :=
  (List.takeWhile_sublist _).length_le

/-- Of the lines only parts are handed over. -/
theorem concat_cString_sublist (lines : List (List UInt8)) :
    (concat (lines.map cString)).Sublist lines.flatten := by
  induction lines with
  | nil => exact List.Sublist.refl []
  | cons line lines ih => exact (List.takeWhile_sublist _).append ih

/-- **All of the lines is handed over exactly when there is no `NUL` in them.** -/
theorem concat_cString_eq_iff (lines : List (List UInt8)) :
    concat (lines.map cString) = lines.flatten ↔ 0 ∉ lines.flatten := by
  constructor
  · intro heq hmem
    rw [← heq, concat, List.mem_flatMap] at hmem
    obtain ⟨string, -, hzero⟩ := hmem
    exact string.noNul hzero
  · intro hnone
    induction lines with
    | nil => rfl
    | cons line lines ih =>
      rw [List.flatten_cons, List.mem_append, not_or] at hnone
      have hline : line.takeWhile (· ≠ 0) = line := by
        rw [List.takeWhile_eq_self_iff]
        intro b hb
        exact decide_eq_true fun hzero => hnone.1 (hzero ▸ hb)
      show line.takeWhile (· ≠ 0) ++ concat (lines.map cString) = line ++ lines.flatten
      rw [hline, ih hnone.2]

/-! ## The program -/

/-- The capacity of the writer. -/
def CAPACITY : ℕ := 1024 * 1024

variable {capacity : ℕ}

/-- The loop of `write_impl`. -/
def writeLines (file : List UInt8) (s : Run capacity) : Option Unit × Run capacity :=
  match _ : getline file with
  | none => (some (), s)
  | some (line, rest) => Run.andThen (s.bufferedWrite (cString line)) fun s => writeLines rest s
termination_by file.length
decreasing_by exact length_lt_of_getline ‹_›

/-- `write_impl`. -/
def writeImpl (junk : CArray UInt8 CAPACITY) (answers : List WriteAnswer) (file : List UInt8) :
    Option Unit × Run CAPACITY :=
  Run.andThen (writeLines file (initBuffer junk answers)) Run.closeBuffer

theorem writeLines_eq (file : List UInt8) (s : Run capacity) :
    writeLines file s = Run.writeStrings ((linesOf file).map cString) s := by
  induction file, s using writeLines.induct with
  | case1 file s h =>
    rw [writeLines, linesOf_eq_getline]
    split <;> simp_all [Run.writeStrings]
  | case2 file s line rest h ih =>
    rw [linesOf_eq_getline, h, List.map_cons, Run.writeStrings, writeLines]
    split
    · simp_all
    · rename_i line' rest' h'
      obtain ⟨rfl, rfl⟩ := Prod.mk.inj (Option.some.inj (h'.symm.trans h))
      exact congrArg (Run.andThen _) (funext fun t => ih t)

theorem writeImpl_eq (junk : CArray UInt8 CAPACITY) (answers : List WriteAnswer)
    (file : List UInt8) :
    writeImpl junk answers file = session junk answers ((linesOf file).map cString) := by
  rw [writeImpl, writeLines_eq, session]

/-! ## What it copies -/

theorem accepts_eq_count (answers : List WriteAnswer) :
    accepts answers = (marks answers).count .sent := by
  induction answers with
  | nil => rfl
  | cons answer answers ih =>
    rw [accepts, marks] at ih ⊢
    rw [List.countP_cons, ih]
    cases answer <;> simp [WriteAnswer.mark, WriteAnswer.accepts, List.filterMap_cons]

/-- Without hard errors the losses are the answers `0`. -/
theorem lost_mem_marks_iff {answers : List WriteAnswer} (hhard : .fail ∉ answers) :
    Mark.lost ∈ marks answers ↔ .zero ∈ answers := by
  rw [marks, List.mem_filterMap]
  constructor
  · rintro ⟨answer, hmem, hmark⟩
    cases answer with
    | zero => exact hmem
    | fail => exact absurd hmem hhard
    | accept most => cases hmark
    | retry => cases hmark
  · exact fun hmem => ⟨.zero, hmem, rfl⟩

/-- **What a run that has returned leaves on the descriptor.**  It is the file exactly when
all of the file was handed over and no loss has left its mark. -/
theorem Drains.out_eq_iff {written file : List UInt8} {answers : List WriteAnswer} {fd : Fd}
    (hhard : .fail ∉ answers) (hsub : written.Sublist file)
    (h : Drains answers [] written (some ()) fd) :
    fd.out = file ↔ written = file ∧ ∀ used, answers = used ++ fd.answers → .zero ∉ used := by
  obtain ⟨used, held, hused, hruns, hheld, -⟩ := h
  obtain rfl := hheld rfl
  rw [List.nil_append] at hruns
  have hmarks : Mark.lost ∈ marks used ↔ .zero ∈ used :=
    lost_mem_marks_iff fun hmem => hhard (hused ▸ List.mem_append_left _ hmem)
  have hlen := hruns.length_le
  have hsublen := hsub.length_le
  simp only [List.length_nil, Nat.add_zero] at hlen
  constructor
  · rintro rfl
    refine ⟨hsub.eq_of_length (by omega), fun used' hused' hzero => ?_⟩
    obtain rfl := List.append_cancel_right (hused'.symm.trans hused)
    have hlost := List.count_pos_iff.mpr (hmarks.mpr hzero)
    omega
  · rintro ⟨rfl, hzero⟩
    have hwhole := hruns.whole (mt hmarks.mp (hzero used hused))
    rwa [List.append_nil] at hwhole

/-- A run that is blocked has not been given as many accepting answers as there are bytes. -/
theorem Drains.returns {written : List UInt8} {answers : List WriteAnswer} {ret : Option Unit}
    {fd : Fd} (h : Drains answers [] written ret fd) (henough : written.length ≤ accepts answers) :
    ret = some () := by
  obtain ⟨used, held, rfl, hruns, -, hblocked⟩ := h
  cases ret with
  | some _ => rfl
  | none =>
    obtain ⟨hnil, hheld⟩ := hblocked rfl
    have hpos := List.length_pos_of_ne_nil hheld
    have hcount := hruns.count_sent_le
    have hlen := hruns.length_le
    rw [hnil, List.append_nil, accepts_eq_count] at henough
    rw [List.nil_append] at hcount
    dsimp only at hcount hlen
    omega

/-- **When the program copies its input.**  The lines are no longer than the capacity, and
`write` has no hard errors.  The program returns when enough of its calls of `write`
accept bytes; and then the output is the file exactly if the file has no `NUL` and no
call of `write` has returned `0`. -/
theorem writeImpl_copies_iff (junk : CArray UInt8 CAPACITY) {file : List UInt8}
    (hlines : ∀ line ∈ linesOf file, line.length ≤ CAPACITY) {answers : List WriteAnswer}
    (hhard : .fail ∉ answers) :
    let r := writeImpl junk answers file
    (file.length ≤ accepts answers → r.1 = some ()) ∧
      (r.1 = some () → (r.2.fd.out = file ↔
        0 ∉ file ∧ ∀ used, answers = used ++ r.2.fd.answers → .zero ∉ used)) := by
  intro r
  have hlen : ∀ string ∈ (linesOf file).map cString, string.strlen ≤ CAPACITY := by
    rintro string hmem
    obtain ⟨line, hline, rfl⟩ := List.mem_map.mp hmem
    exact strlen_cString_le.trans (hlines line hline)
  have hdrains := drains_session (by decide) junk hlen answers
  rw [← writeImpl_eq] at hdrains
  have hsub := concat_cString_sublist (linesOf file)
  have hall := concat_cString_eq_iff (linesOf file)
  rw [flatten_linesOf] at hsub hall
  refine ⟨fun henough => hdrains.returns (hsub.length_le.trans henough), fun hret => ?_⟩
  have hreturned : Drains answers [] (concat ((linesOf file).map cString)) (some ()) r.2.fd :=
    hret ▸ hdrains
  rw [hreturned.out_eq_iff hhard hsub, hall]

/-- What is not among the answers has not been used up. -/
theorem notMem_used {answer : WriteAnswer} {answers rest : List WriteAnswer}
    (h : answer ∉ answers) (used : List WriteAnswer) (hused : answers = used ++ rest) :
    answer ∉ used :=
  fun hmem => h (hused ▸ List.mem_append_left rest hmem)

/-- Two lines, the second without a newline, written with a short write and a retry. -/
theorem writeImpl_copies_twoLines :
    (writeImpl (CArray.replicate CAPACITY 0) [.accept 0, .retry, .accept 9, .accept 9, .accept 9]
      [97, 10, 98]).2.fd.out = [97, 10, 98] := by
  obtain ⟨hreturns, hout⟩ :=
    @writeImpl_copies_iff (CArray.replicate CAPACITY 0) [97, 10, 98] (by decide)
      [.accept 0, .retry, .accept 9, .accept 9, .accept 9] (by decide)
  exact (hout (hreturns (by decide))).mpr ⟨by decide, notMem_used (by decide)⟩

/-- **A file with a `NUL`**: of the line `"a\0b\n"` only `"a"` is copied. -/
theorem writeImpl_drops_afterNul :
    let r := writeImpl (CArray.replicate CAPACITY 0) [.accept 9] [97, 0, 98, 10]
    r.1 = some () ∧ r.2.fd.out = [97] ∧ r.2.fd.out ≠ [97, 0, 98, 10] := by
  have hdrains : Drains [.accept 9] [] (concat ((linesOf [97, 0, 98, 10]).map cString)) _ _ :=
    drains_session (by decide) (CArray.replicate CAPACITY 0) (by decide) _
  rw [← writeImpl_eq] at hdrains
  have hret := hdrains.returns (by decide)
  rw [hret] at hdrains
  have hout : (writeImpl (CArray.replicate CAPACITY 0) [.accept 9] [97, 0, 98, 10]).2.fd.out =
      [97] :=
    (hdrains.out_eq_iff (by decide) (List.Sublist.refl _)).mpr ⟨by decide, notMem_used (by decide)⟩
  exact ⟨hret, hout, by rw [hout]; decide⟩

end LowLevelIo
end CaosSeminars
