import Mathlib.Logic.Function.Basic
import Mathlib.Tactic.Common

/-!
# A memory with store buffers

Every thread has a queue of stores that have not reached the memory yet.  A store goes to the end
of the queue, the oldest entry goes to the memory at any later moment, and a load is answered from
the thread's own queue if it can be, and else from the memory.

What a thread sees is the memory with its own queue played over it (`view`).  Read this way the
queue is invisible to its owner: its store changes its view at once (`view_write`), and the moment
when an entry reaches the memory changes nothing in it (`view_commit`).  The others see that moment
only, since a view is made of the memory and of the thread's own queue.

* `view_of_drained`, `view_of_notMem` --- where the view is the memory.
* `view_write`, `view_commit` --- what the owner of a queue sees of its own stores.
* `mem_commit` --- what is in the memory afterwards was there before, or was in the queue.
-/

namespace CaosSeminars

/-- The memory and the queue of every thread, oldest entry first. -/
structure Buffered (ι L V : Type*) where
  mem : L → V
  buffer : ι → List (L × V)

namespace Buffered

variable {ι L V : Type*} {s s' : Buffered ι L V} {t u : ι} {l : L} {v : V}

section Queue

variable [DecidableEq ι]

/-- A store. -/
def write (s : Buffered ι L V) (t : ι) (l : L) (v : V) : Buffered ι L V :=
  { s with buffer := Function.update s.buffer t (s.buffer t ++ [(l, v)]) }

@[simp] theorem mem_write : (s.write t l v).mem = s.mem := rfl

theorem buffer_write : (s.write t l v).buffer t = s.buffer t ++ [(l, v)] :=
  Function.update_self _ _ _

theorem buffer_write_of_ne (h : u ≠ t) : (s.write t l v).buffer u = s.buffer u :=
  Function.update_of_ne h _ _

end Queue

section Memory

variable [DecidableEq L]

/-- A store that goes past the queue. -/
def writeThrough (s : Buffered ι L V) (l : L) (v : V) : Buffered ι L V :=
  { s with mem := Function.update s.mem l v }

@[simp] theorem mem_writeThrough : (s.writeThrough l v).mem = Function.update s.mem l v := rfl

@[simp] theorem buffer_writeThrough : (s.writeThrough l v).buffer = s.buffer := rfl

/-! ## What a thread sees -/

/-- A memory after some stores. -/
def play (m : L → V) (ws : List (L × V)) : L → V :=
  ws.foldl (fun m w => Function.update m w.1 w.2) m

theorem play_of_notMem {m : L → V} {ws : List (L × V)} (h : ∀ w ∈ ws, w.1 ≠ l) :
    play m ws l = m l := by
  induction ws generalizing m with
  | nil => rfl
  | cons w ws ih =>
    have hrest := ih (m := Function.update m w.1 w.2) fun x hx => h x (List.mem_cons_of_mem w hx)
    have hw : l ≠ w.1 := (h w List.mem_cons_self).symm
    rw [play, List.foldl_cons]
    exact hrest.trans (Function.update_of_ne hw _ _)

/-- The value of a location after some stores depends on the memory before them at that location
only. -/
theorem play_congr {m m' : L → V} (ws : List (L × V)) (h : m l = m' l) :
    play m ws l = play m' ws l := by
  induction ws generalizing m m' with
  | nil => exact h
  | cons w ws ih =>
    refine ih ?_
    show Function.update m w.1 w.2 l = Function.update m' w.1 w.2 l
    by_cases hw : l = w.1
    · rw [hw, Function.update_self, Function.update_self]
    · rw [Function.update_of_ne hw, Function.update_of_ne hw, h]

/-- What a thread sees. -/
def view (s : Buffered ι L V) (t : ι) : L → V := play s.mem (s.buffer t)

theorem view_of_drained (h : s.buffer t = []) : s.view t = s.mem := by
  rw [view, h]
  rfl

theorem view_of_notMem (h : ∀ w ∈ s.buffer t, w.1 ≠ l) : s.view t l = s.mem l :=
  play_of_notMem h

end Memory

variable [DecidableEq ι] [DecidableEq L]

theorem view_write : (s.write t l v).view t = Function.update (s.view t) l v := by
  simp only [view, write, Function.update_self, play, List.foldl_append, List.foldl_cons,
    List.foldl_nil]

/-! ## What reaches the memory -/

/-- The oldest entry of a queue reaches the memory. -/
def commit (s : Buffered ι L V) (t : ι) : Option (Buffered ι L V) :=
  match s.buffer t with
  | [] => none
  | w :: ws => some ⟨Function.update s.mem w.1 w.2, Function.update s.buffer t ws⟩

theorem commit_eq_some (h : s.commit t = some s') :
    ∃ w ws, s.buffer t = w :: ws ∧ s' =
      ⟨Function.update s.mem w.1 w.2, Function.update s.buffer t ws⟩ := by
  rw [commit] at h
  split at h
  · cases h
  · exact ⟨_, _, ‹_›, (Option.some.inj h).symm⟩

theorem exists_commit (h : s.buffer t ≠ []) : ∃ s', s.commit t = some s' := by
  cases hb : s.buffer t with
  | nil => exact absurd hb h
  | cons w ws => exact ⟨_, by rw [commit, hb]⟩

/-- **The owner of a queue does not notice** that an entry of it reaches the memory. -/
theorem view_commit (h : s.commit t = some s') : s'.view t = s.view t := by
  obtain ⟨w, ws, hb, rfl⟩ := commit_eq_some h
  simp only [view, Function.update_self, hb, play, List.foldl_cons]

theorem mem_commit (h : s.commit t = some s') (l : L) :
    s'.mem l = s.mem l ∨ (l, s'.mem l) ∈ s.buffer t := by
  obtain ⟨w, ws, hb, rfl⟩ := commit_eq_some h
  by_cases hl : l = w.1
  · right
    subst hl
    rw [hb]
    simp
  · exact Or.inl (Function.update_of_ne hl _ _)

theorem buffer_commit (h : s.commit t = some s') :
    ∃ w, s.buffer t = w :: s'.buffer t ∧ ∀ u, u ≠ t → s'.buffer u = s.buffer u := by
  obtain ⟨w, ws, hb, rfl⟩ := commit_eq_some h
  refine ⟨w, ?_, fun u hu => Function.update_of_ne hu _ _⟩
  show s.buffer t = w :: Function.update s.buffer t ws t
  rw [hb, Function.update_self]

end Buffered

end CaosSeminars
