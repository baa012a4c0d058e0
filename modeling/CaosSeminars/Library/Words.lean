import Mathlib.Data.List.TakeWhile
import Mathlib.Tactic.Common

/-!
# Words, and strings in memory

The words of a text are its maximal runs of elements that are no delimiters.  A text
consists of delimiters alone, or of a gap, a word and the end, or of a gap, a word, a
delimiter and a text (`cut`), and `runs` has an equation for each of the three.

A string in memory starts at an offset and ends before the first zero byte
(`HoldsString`).  It does not notice what happens behind its zero
(`HoldsString.of_take_eq`).

* `runs_word`, `runs_gap`, `runs_delimiters` --- the three equations.
* `flatten_runs` --- the words hold exactly what is no delimiter, in its order.
* `cString_eq` --- the string at an offset is what stands up to the zero.
-/

namespace CaosSeminars

/-! ## Words -/

section Words

variable {α : Type*} {p : α → Bool} {gap word text : List α} {d : α}

/-- The maximal runs of elements that do not satisfy `p`, in order. -/
def runs (p : α → Bool) (text : List α) : List (List α) := (text.splitOnP p).filter (· ≠ [])

theorem runs_append_cons (xs : List α) (hd : p d = true) :
    runs p (xs ++ d :: text) = runs p xs ++ runs p text := by
  rw [runs, List.splitOnP_append_cons xs text hd, List.filter_append]
  rfl

theorem runs_word (hne : word ≠ []) (hword : ∀ a ∈ word, p a = false) : runs p word = [word] := by
  rw [runs, List.splitOnP_eq_singleton hword]
  simp [hne]

theorem runs_gap (hgap : ∀ a ∈ gap, p a = true) (text : List α) :
    runs p (gap ++ text) = runs p text := by
  induction gap with
  | nil => rfl
  | cons d gap ih =>
    obtain ⟨hd, hgap⟩ := List.forall_mem_cons.mp hgap
    have hcons : runs p (d :: (gap ++ text)) = runs p [] ++ runs p (gap ++ text) :=
      runs_append_cons [] hd
    rw [List.cons_append, hcons, ih hgap]
    rfl

theorem runs_delimiters (hgap : ∀ a ∈ gap, p a = true) : runs p gap = [] := by
  have h := runs_gap hgap []
  rwa [List.append_nil] at h

/-- **How a text begins**: it is a gap, or a gap and a word, or a gap, a word and a delimiter
before another text. -/
theorem cut (p : α → Bool) (text : List α) :
    (∀ a ∈ text, p a = true) ∨
      ∃ gap word rest, text = gap ++ (word ++ rest) ∧ (∀ a ∈ gap, p a = true) ∧ word ≠ [] ∧
        (∀ a ∈ word, p a = false) ∧ (rest = [] ∨ ∃ d more, rest = d :: more ∧ p d = true) := by
  by_cases hall : ∀ a ∈ text, p a = true
  · exact Or.inl hall
  · refine Or.inr ⟨text.takeWhile p, (text.dropWhile p).takeWhile (!p ·),
      (text.dropWhile p).dropWhile (!p ·), ?_, fun a ha => List.mem_takeWhile_imp ha, ?_,
      fun a ha => ?_, ?_⟩
    · rw [List.takeWhile_append_dropWhile, List.takeWhile_append_dropWhile]
    · cases hbody : text.dropWhile p with
      | nil => exact absurd (List.dropWhile_eq_nil_iff.mp hbody) hall
      | cons a body =>
        have ha := List.head_dropWhile_not p (by rw [hbody]; exact List.cons_ne_nil _ _)
        simp only [hbody, List.head_cons] at ha
        rw [List.takeWhile_cons_of_pos (by rw [ha]; rfl)]
        exact List.cons_ne_nil _ _
    · have h := List.mem_takeWhile_imp ha
      rwa [Bool.not_eq_true'] at h
    · cases hrest : (text.dropWhile p).dropWhile (!p ·) with
      | nil => exact Or.inl rfl
      | cons d more =>
        have hd := List.head_dropWhile_not (!p ·) (by rw [hrest]; exact List.cons_ne_nil _ _)
        simp only [hrest, List.head_cons, Bool.not_eq_false'] at hd
        exact Or.inr ⟨d, more, rfl, hd⟩

/-- The words hold what is no delimiter. -/
theorem flatten_runs (p : α → Bool) (text : List α) :
    (runs p text).flatten = text.filter (!p ·) := by
  rw [runs, List.flatten_filter_ne_nil]
  induction text with
  | nil => rfl
  | cons a text ih =>
    rw [List.splitOnP_cons_eq_if_modifyHead]
    cases ha : p a with
    | true => simp [ha, ih]
    | false =>
      cases hsplit : text.splitOnP p with
      | nil => exact absurd hsplit (List.splitOnP_ne_nil p text)
      | cons word rest =>
        rw [hsplit, List.flatten_cons] at ih
        simp [ha, ih]

end Words

/-! ## Strings in memory -/

/-- From `off` on the memory holds the string `s` and its zero. -/
structure HoldsString (mem : List UInt8) (off : ℕ) (s : List UInt8) : Prop where
  nonzero : 0 ∉ s
  isPrefix : s ++ [0] <+: mem.drop off

/-- The string that starts at `off`. -/
def cString (mem : List UInt8) (off : ℕ) : List UInt8 := (mem.drop off).takeWhile (· ≠ 0)

namespace HoldsString

variable {mem mem' : List UInt8} {off bound : ℕ} {s : List UInt8}

theorem cString_eq (h : HoldsString mem off s) : cString mem off = s := by
  obtain ⟨rest, hrest⟩ := h.isPrefix
  have hs : ∀ b ∈ s, decide (b ≠ 0) = true := fun b hb =>
    decide_eq_true fun hzero => h.nonzero (hzero ▸ hb)
  rw [cString, ← hrest, List.append_assoc, List.takeWhile_append_of_pos hs]
  simp

/-- **What happens behind its zero** does not matter to a string. -/
theorem of_take_eq (h : HoldsString mem off s) (hbound : off + s.length < bound)
    (hsame : mem'.take bound = mem.take bound) : HoldsString mem' off s where
  nonzero := h.nonzero
  isPrefix := by
    have hpart : ∀ mem : List UInt8,
        (mem.take bound).drop off = (mem.drop off).take (bound - off) :=
      fun mem => List.drop_take
    have hshort : s ++ [0] <+: (mem.drop off).take (bound - off) :=
      List.prefix_take_iff.mpr ⟨h.isPrefix, by simp; omega⟩
    rw [← hpart, ← hsame, hpart] at hshort
    exact hshort.trans (List.take_prefix _ _)

end HoldsString

end CaosSeminars
