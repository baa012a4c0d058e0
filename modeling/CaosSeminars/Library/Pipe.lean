import Mathlib.Data.List.Basic
import Mathlib.Tactic.Common

/-!
# A stream forwarded through a place that may lose

What is fed into a `Pipe` is held there until it is sent on, in order; but the
front of what is held may also be lost.  Sending and losing leave a mark each,
and `Pipe.Runs marks p` says that `p` is reached by feeding, sending and losing
with these marks.

What arrives is the beginning of what was fed as long as nothing is sent after a
loss (`Pipe.Runs.sent_isPrefix`).  As soon as something is, there is a hole: a place
in the stream whose element did not arrive while later ones did
(`Pipe.Runs.hole`).  Whether the hole can be seen depends on what stands there;
where it is does not.  The lengths tell of every loss (`Pipe.Runs.length_le`).

* `Whole`, `Cut` --- nothing was lost, or the first loss was at some place and all that was
  sent since then comes from behind it.
* `Runs.whole_or_cut` --- every pipe is one of the two, by induction on the steps.
* `Runs.count_sent_le` --- every send sends something, so that the marks are bounded by what
  arrives.
-/

namespace CaosSeminars

variable {α : Type*}

/-- A step that takes elements out of the pipe. -/
inductive Mark where
  | sent
  | lost
  deriving DecidableEq

/-- Nothing is sent after a loss. -/
def NothingAfterLoss (marks : List Mark) : Prop :=
  marks.Pairwise fun a b => a = .lost → b ≠ .sent

instance (marks : List Mark) : Decidable (NothingAfterLoss marks) :=
  inferInstanceAs (Decidable (List.Pairwise _ _))

/-- What was sent on, what is held, and all that was fed. -/
structure Pipe (α : Type*) where
  sent : List α
  held : List α
  fed : List α

/-- An element of the stream is missing, and later ones are there. -/
def Hole (sent fed : List α) : Prop :=
  ∃ k rest, k < fed.length ∧ sent = fed.take k ++ rest ∧ rest ≠ [] ∧ rest.Sublist (fed.drop (k + 1))

namespace Pipe

/-- The pipes that are reached with the given marks. -/
inductive Runs : List Mark → Pipe α → Prop
  | empty : Runs [] ⟨[], [], []⟩
  | feed {ms : List Mark} {s h f : List α} (xs : List α) :
      Runs ms ⟨s, h, f⟩ → Runs ms ⟨s, h ++ xs, f ++ xs⟩
  | send {ms : List Mark} {s h f xs : List α} :
      Runs ms ⟨s, xs ++ h, f⟩ → xs ≠ [] → Runs (ms ++ [.sent]) ⟨s ++ xs, h, f⟩
  | lose {ms : List Mark} {s h f xs : List α} :
      Runs ms ⟨s, xs ++ h, f⟩ → xs ≠ [] → Runs (ms ++ [.lost]) ⟨s, h, f⟩

/-- Nothing was lost, and nothing is missing. -/
def Whole (ms : List Mark) (p : Pipe α) : Prop := .lost ∉ ms ∧ p.sent ++ p.held = p.fed

/-- The first loss was that of the element at `k`; what was sent since then, and what
is held, comes from behind it. -/
structure Cut (ms : List Mark) (p : Pipe α) (k : ℕ) (rest : List α) : Prop where
  lt : k < p.fed.length
  sent : p.sent = p.fed.take k ++ rest
  behind : (rest ++ p.held).Sublist (p.fed.drop (k + 1))
  since : ∃ pre post, ms = pre ++ .lost :: post ∧ .lost ∉ pre ∧ (rest = [] ↔ .sent ∉ post)

variable {ms : List Mark} {p : Pipe α} {k : ℕ} {s h f xs rest : List α}

theorem Whole.lose (hw : Whole ms ⟨s, xs ++ h, f⟩) (hxs : xs ≠ []) :
    Cut (ms ++ [.lost]) ⟨s, h, f⟩ s.length [] := by
  obtain ⟨hms, hf⟩ := hw
  obtain ⟨x, xs, rfl⟩ := List.exists_cons_of_ne_nil hxs
  obtain rfl : s ++ (x :: xs ++ h) = f := hf
  refine ⟨?_, ?_, ?_, ms, [], rfl, hms, by simp⟩
  · simp
  · simp
  · rw [List.nil_append, ← List.drop_drop, List.drop_left' rfl]
    exact List.sublist_append_right xs h

theorem Cut.feed (hc : Cut ms ⟨s, h, f⟩ k rest) (xs : List α) :
    Cut ms ⟨s, h ++ xs, f ++ xs⟩ k rest := by
  have hlt : k < f.length := hc.lt
  refine ⟨?_, ?_, ?_, hc.since⟩
  · show k < (f ++ xs).length
    rw [List.length_append]
    omega
  · show s = (f ++ xs).take k ++ rest
    rw [List.take_append_of_le_length (Nat.le_of_lt hlt)]
    exact hc.sent
  · show (rest ++ (h ++ xs)).Sublist ((f ++ xs).drop (k + 1))
    rw [List.drop_append_of_le_length hlt, ← List.append_assoc]
    exact hc.behind.append_right xs

theorem Cut.send (hc : Cut ms ⟨s, xs ++ h, f⟩ k rest) (hxs : xs ≠ []) :
    Cut (ms ++ [.sent]) ⟨s ++ xs, h, f⟩ k (rest ++ xs) := by
  obtain ⟨pre, post, rfl, hpre, -⟩ := hc.since
  refine ⟨hc.lt, ?_, ?_, pre, post ++ [.sent], ?_, hpre, ?_⟩
  · show s ++ xs = f.take k ++ (rest ++ xs)
    rw [← List.append_assoc]
    exact congrArg (· ++ xs) hc.sent
  · rw [List.append_assoc]
    exact hc.behind
  · rw [List.append_assoc, List.cons_append]
  · exact iff_of_false (by simp [hxs]) (by simp)

theorem Cut.lose (hc : Cut ms ⟨s, xs ++ h, f⟩ k rest) :
    Cut (ms ++ [.lost]) ⟨s, h, f⟩ k rest := by
  obtain ⟨pre, post, rfl, hpre, hrest⟩ := hc.since
  refine ⟨hc.lt, hc.sent, ?_, pre, post ++ [.lost], ?_, hpre, ?_⟩
  · exact (List.Sublist.append_left (List.sublist_append_right xs h) rest).trans hc.behind
  · rw [List.append_assoc, List.cons_append]
  · rw [hrest]
    simp

/-- **Every pipe is whole or cut**, by induction on the steps. -/
theorem Runs.whole_or_cut (hr : Runs ms p) : Whole ms p ∨ ∃ k rest, Cut ms p k rest := by
  induction hr with
  | empty => exact Or.inl ⟨List.not_mem_nil, rfl⟩
  | @feed ms s h f xs _ ih =>
    rcases ih with ⟨hms, hf⟩ | ⟨k, rest, hc⟩
    · refine Or.inl ⟨hms, ?_⟩
      show s ++ (h ++ xs) = f ++ xs
      rw [← List.append_assoc]
      exact congrArg (· ++ xs) hf
    · exact Or.inr ⟨k, rest, hc.feed xs⟩
  | @send ms s h f xs _ hxs ih =>
    rcases ih with ⟨hms, hf⟩ | ⟨k, rest, hc⟩
    · refine Or.inl ⟨by simpa using hms, ?_⟩
      show s ++ xs ++ h = f
      rw [List.append_assoc]
      exact hf
    · exact Or.inr ⟨k, rest ++ xs, hc.send hxs⟩
  | lose _ hxs ih =>
    rcases ih with hw | ⟨k, rest, hc⟩
    · exact Or.inr ⟨_, _, hw.lose hxs⟩
    · exact Or.inr ⟨k, rest, hc.lose⟩

theorem Runs.whole (hr : Runs ms p) (hms : .lost ∉ ms) : p.sent ++ p.held = p.fed := by
  rcases hr.whole_or_cut with ⟨-, hf⟩ | ⟨k, rest, hc⟩
  · exact hf
  · obtain ⟨pre, post, rfl, -⟩ := hc.since
    exact absurd (List.mem_append_right pre List.mem_cons_self) hms

theorem Runs.count_sent_le (hr : Runs ms p) : ms.count .sent ≤ p.sent.length := by
  induction hr with
  | empty => exact Nat.le_refl 0
  | feed _ _ ih => exact ih
  | send _ hxs ih =>
    have hpos := List.length_pos_of_ne_nil hxs
    simp only [List.count_append, List.count_singleton_self, List.length_append] at ih ⊢
    omega
  | lose _ _ ih => simpa [List.count_append] using ih

theorem Runs.length_le (hr : Runs ms p) :
    p.sent.length + p.held.length + ms.count .lost ≤ p.fed.length := by
  induction hr with
  | empty => exact Nat.le_refl 0
  | feed xs _ ih =>
    simp only [List.length_append] at ih ⊢
    omega
  | send _ _ ih =>
    simp only [List.length_append, List.count_append] at ih ⊢
    simpa [Nat.add_assoc] using ih
  | lose _ hxs ih =>
    have hpos := List.length_pos_of_ne_nil hxs
    simp only [List.length_append, List.count_append, List.count_singleton_self] at ih ⊢
    omega

/-- **As long as nothing is sent after a loss, the beginning of the stream arrives.** -/
theorem Runs.sent_isPrefix (hr : Runs ms p) (hms : NothingAfterLoss ms) : p.sent <+: p.fed := by
  rcases hr.whole_or_cut with ⟨-, hf⟩ | ⟨k, rest, hc⟩
  · exact ⟨p.held, hf⟩
  · obtain ⟨pre, post, rfl, -, hrest⟩ := hc.since
    have hpost : Mark.sent ∉ post := by
      intro hmem
      have hcons := (List.pairwise_append.mp hms).2.1
      exact (List.pairwise_cons.mp hcons).1 _ hmem rfl rfl
    rw [hc.sent, hrest.mpr hpost, List.append_nil]
    exact List.take_prefix k p.fed

/-- **Where something is sent after a loss, there is a hole.** -/
theorem Runs.hole (hr : Runs ms p) (hms : ¬NothingAfterLoss ms) : Hole p.sent p.fed := by
  rcases hr.whole_or_cut with ⟨hlost, -⟩ | ⟨k, rest, hc⟩
  · refine absurd (List.pairwise_of_forall_mem_list fun a ha b _ hab => ?_) hms
    exact absurd (hab ▸ ha) hlost
  · obtain ⟨pre, post, rfl, hpre, hrest⟩ := hc.since
    refine ⟨k, rest, hc.lt, hc.sent, fun hnil => hms ?_,
      (List.sublist_append_left rest p.held).trans hc.behind⟩
    have hpost : ∀ b ∈ post, b ≠ Mark.sent := fun b hb heq => hrest.mp hnil (heq ▸ hb)
    refine List.pairwise_append.mpr ⟨?_, List.pairwise_cons.mpr ⟨fun b hb _ => hpost b hb, ?_⟩, ?_⟩
    · exact List.pairwise_of_forall_mem_list fun a ha b _ hab => absurd (hab ▸ ha) hpre
    · exact List.pairwise_of_forall_mem_list fun a _ b hb _ => hpost b hb
    · intro a ha b _ hab
      exact absurd (hab ▸ ha) hpre

end Pipe

end CaosSeminars
