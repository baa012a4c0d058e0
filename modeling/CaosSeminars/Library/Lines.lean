import Mathlib.Data.List.Basic
import Mathlib.Tactic.Common

/-!
# The lines of a text

`getline` takes the first line off a text, with its newline; `linesOf` is all of them,
the last one possibly without a newline.  The lines are the text (`flatten_linesOf`),
and the first line does not depend on what follows its newline (`getline_append`).

* `length_lt_of_getline` --- a line is not empty, so that a loop over the lines ends.
* `getline_eq_none` --- there is no further line exactly at the end of the text.
* `getline_eq_append` --- the first line and the rest are the text.
-/

namespace CaosSeminars

/-- The bytes up to and including the next newline, and the rest of the file;
`none` is the end of the file. -/
def getline : List UInt8 → Option (List UInt8 × List UInt8)
  | [] => none
  | b :: file =>
    if b = 10 then some ([b], file)
    else match getline file with
      | none => some ([b], [])
      | some (line, rest) => some (b :: line, rest)

/-- The lines of a file, each with its newline; the last one may lack it. -/
def linesOf : List UInt8 → List (List UInt8)
  | [] => []
  | b :: file =>
    if b = 10 then [b] :: linesOf file
    else match linesOf file with
      | [] => [[b]]
      | line :: lines => (b :: line) :: lines

variable {file line rest : List UInt8}

theorem linesOf_eq_getline (file : List UInt8) :
    linesOf file = match getline file with
      | none => []
      | some (line, rest) => line :: linesOf rest := by
  induction file with
  | nil => rfl
  | cons b file ih =>
    rw [linesOf, getline]
    split
    · rfl
    · rw [ih]
      cases getline file <;> rfl

/-- A line is not empty, so what is left of the file is shorter. -/
theorem length_lt_of_getline (h : getline file = some (line, rest)) :
    rest.length < file.length := by
  induction file generalizing line rest with
  | nil => cases h
  | cons b file ih =>
    rw [getline] at h
    split at h
    · cases h
      exact Nat.lt_succ_self _
    · cases hnext : getline file with
      | none =>
        rw [hnext] at h
        cases h
        exact Nat.succ_pos _
      | some next =>
        rw [hnext] at h
        cases h
        exact Nat.lt_succ_of_lt (ih hnext)

theorem flatten_linesOf (file : List UInt8) : (linesOf file).flatten = file := by
  induction file with
  | nil => rfl
  | cons b file ih =>
    rw [linesOf]
    split
    · rw [List.flatten_cons, ih, List.singleton_append]
    · cases hlines : linesOf file with
      | nil =>
        rw [hlines] at ih
        exact congrArg (b :: ·) ih
      | cons line lines =>
        rw [hlines] at ih
        exact congrArg (b :: ·) ih

theorem getline_eq_append (h : getline file = some (line, rest)) : file = line ++ rest := by
  have hlines := linesOf_eq_getline file
  rw [h] at hlines
  rw [← flatten_linesOf file, hlines, List.flatten_cons, flatten_linesOf]

theorem getline_eq_none : getline file = none ↔ file = [] := by
  cases file with
  | nil => exact iff_of_true rfl rfl
  | cons b file =>
    refine iff_of_false ?_ (List.cons_ne_nil b file)
    rw [getline]
    split
    · exact Option.some_ne_none _
    · split <;> exact Option.some_ne_none _

/-- **The first line does not depend on what follows its newline.** -/
theorem getline_append (h : getline file = some (line, rest)) (hmem : 10 ∈ file)
    (more : List UInt8) : getline (file ++ more) = some (line, rest ++ more) := by
  induction file generalizing line rest with
  | nil => cases h
  | cons b file ih =>
    rw [getline] at h
    rw [List.cons_append, getline]
    split at h
    · rename_i hb
      cases h
      rw [if_pos hb]
    · rename_i hb
      have hmem' : 10 ∈ file := (List.mem_cons.mp hmem).resolve_left (Ne.symm hb)
      cases hnext : getline file with
      | none =>
        rw [getline_eq_none.mp hnext] at hmem'
        cases hmem'
      | some next =>
        rw [hnext] at h
        cases h
        rw [if_neg hb, ih hnext hmem']

end CaosSeminars
