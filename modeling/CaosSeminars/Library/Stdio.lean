import Mathlib.Data.List.Nodup
import Mathlib.Logic.Function.Basic
import Mathlib.Tactic.Common

/-!
# A fully buffered stream that is inherited

Several processes write to one file, each through a buffer of its own.  What a process
prints goes into its buffer; the front of the buffer goes to the file when there is no room,
and all of it when the process exits.  A process that is killed loses its buffer.  A new
process starts with a copy of the buffer of its parent.

`held p x` counts how often `x` is in the file and in the buffer of `p`.  Nothing that other
processes do makes it smaller, and printing moves things without a change of it.  A copy is
the only way to have an `x` twice that was printed once (`Single`), and only what is in the
buffer at that moment is doubled.

* `All` --- a property of everything in the file and in the buffers; each operation keeps it if what
  is printed has it.
* `held_copy` --- a copy doubles what is in the buffer, and nothing else.
* `count_le_count_print` --- what is in the file stays there.
* `Single.print`, `Single.copy` --- when nothing comes twice: what has not been printed before is
  printed, and the buffer that is copied is empty.
-/

namespace CaosSeminars

variable {α : Type*}

/-- A file, and the buffers of the processes. -/
structure Stdio (α : Type*) where
  file : List α
  buffer : ℕ → List α

/-- How much of `total` may go to the file when something is printed: nothing as long as it
is less than the capacity, and else as much as it takes for the rest to fit. -/
def HandsOver (capacity total k : ℕ) : Prop :=
  if total < capacity then k = 0 else k ≤ total ∧ total - k ≤ capacity

instance (capacity total k : ℕ) : Decidable (HandsOver capacity total k) :=
  inferInstanceAs (Decidable (if total < capacity then _ else _))

/-- Nothing, or everything. -/
def handOver (capacity total : ℕ) : ℕ := if total < capacity then 0 else total

theorem handsOver_handOver (capacity total : ℕ) :
    HandsOver capacity total (handOver capacity total) := by
  unfold HandsOver handOver
  split
  · rfl
  · exact ⟨Nat.le_refl total, by omega⟩

namespace Stdio

variable (st : Stdio α)

/-- Nothing is printed yet. -/
def empty : Stdio α := ⟨[], fun _ => []⟩

/-- `p` prints `new`, and the first `k` elements of its buffer go to the file. -/
def print (p : ℕ) (new : List α) (k : ℕ) : Stdio α :=
  ⟨st.file ++ (st.buffer p ++ new).take k,
    Function.update st.buffer p ((st.buffer p ++ new).drop k)⟩

/-- `p` makes a new process `q`. -/
def copy (p q : ℕ) : Stdio α := ⟨st.file, Function.update st.buffer q (st.buffer p)⟩

/-- `p` exits. -/
def flush (p : ℕ) : Stdio α := ⟨st.file ++ st.buffer p, Function.update st.buffer p []⟩

/-- `p` is killed. -/
def drop (p : ℕ) : Stdio α := ⟨st.file, Function.update st.buffer p []⟩

variable {p q : ℕ} {new : List α} {k : ℕ}

/-- To exit is to print nothing, and to hand everything over. -/
theorem flush_eq_print (p : ℕ) : st.flush p = st.print p [] (st.buffer p).length := by
  unfold flush print
  rw [List.append_nil, List.take_length, List.drop_length]

theorem buffer_print_of_ne (hpq : q ≠ p) (new : List α) (k : ℕ) :
    (st.print p new k).buffer q = st.buffer q := Function.update_of_ne hpq _ _

theorem buffer_copy_of_ne {r : ℕ} (hr : r ≠ q) :
    (st.copy p q).buffer r = st.buffer r := Function.update_of_ne hr _ _

theorem buffer_flush_of_ne (hpq : q ≠ p) :
    (st.flush p).buffer q = st.buffer q := Function.update_of_ne hpq _ _

theorem buffer_drop_of_ne (hpq : q ≠ p) :
    (st.drop p).buffer q = st.buffer q := Function.update_of_ne hpq _ _

variable {st}

/-! ## What is in the file and the buffers -/

/-- `P` holds of all that is in the file or in a buffer. -/
structure All (P : α → Prop) (st : Stdio α) : Prop where
  file : ∀ x ∈ st.file, P x
  buffer : ∀ p, ∀ x ∈ st.buffer p, P x

variable {P Q : α → Prop}

theorem all_empty : All P (empty : Stdio α) :=
  ⟨List.forall_mem_nil P, fun _ => List.forall_mem_nil P⟩

theorem All.mono (h : All P st) (hPQ : ∀ x, P x → Q x) : All Q st :=
  ⟨fun x hx => hPQ x (h.file x hx), fun p x hx => hPQ x (h.buffer p x hx)⟩

theorem forall_mem_update {buffer : ℕ → List α} (h : ∀ p, ∀ x ∈ buffer p, P x) {l : List α}
    (hl : ∀ x ∈ l, P x) (p : ℕ) : ∀ q, ∀ x ∈ Function.update buffer p l q, P x := by
  intro q
  by_cases hq : q = p
  · rwa [hq, Function.update_self]
  · rw [Function.update_of_ne hq]
    exact h q

theorem All.print (h : All P st) (hnew : ∀ x ∈ new, P x) : All P (st.print p new k) := by
  have hall : ∀ x ∈ st.buffer p ++ new, P x := List.forall_mem_append.mpr ⟨h.buffer p, hnew⟩
  refine ⟨List.forall_mem_append.mpr ⟨h.file, ?_⟩, forall_mem_update h.buffer ?_ p⟩
  · exact fun x hx => hall x (List.mem_of_mem_take hx)
  · exact fun x hx => hall x (List.mem_of_mem_drop hx)

theorem All.copy (h : All P st) : All P (st.copy p q) :=
  ⟨h.file, forall_mem_update h.buffer (h.buffer p) q⟩

theorem All.flush (h : All P st) : All P (st.flush p) :=
  ⟨List.forall_mem_append.mpr ⟨h.file, h.buffer p⟩,
    forall_mem_update h.buffer (List.forall_mem_nil P) p⟩

theorem All.drop (h : All P st) : All P (st.drop p) :=
  ⟨h.file, forall_mem_update h.buffer (List.forall_mem_nil P) p⟩

/-! ## Counting -/

variable [DecidableEq α] {x : α}

/-- How often `x` is in the file and in the buffer of `p`. -/
def held (st : Stdio α) (p : ℕ) (x : α) : ℕ := st.file.count x + (st.buffer p).count x

@[simp] theorem held_print_self (st : Stdio α) (p : ℕ) (new : List α) (k : ℕ) (x : α) :
    (st.print p new k).held p x = st.held p x + new.count x := by
  have hsplit := congrArg (List.count x) (List.take_append_drop k (st.buffer p ++ new))
  simp only [List.count_append] at hsplit
  simp only [held, print, Function.update_self, List.count_append]
  omega

@[simp] theorem held_copy (st : Stdio α) (p q : ℕ) (x : α) :
    (st.copy p q).held q x = st.held p x := by
  simp only [held, copy, Function.update_self]

@[simp] theorem count_flush (st : Stdio α) (p : ℕ) (x : α) :
    (st.flush p).file.count x = st.held p x := by
  simp only [held, flush, List.count_append]

theorem count_le_count_print (st : Stdio α) (p : ℕ) (new : List α) (k : ℕ) (x : α) :
    st.file.count x ≤ (st.print p new k).file.count x := by
  simp only [print, List.count_append]
  omega

/-! ## Once at most -/

/-- Nothing is twice in the file, nor in the file and a buffer, nor in two buffers. -/
def Single (st : Stdio α) : Prop :=
  ∀ x p q, p ≠ q → st.held p x + (st.buffer q).count x ≤ 1

theorem single_empty : Single (empty : Stdio α) := by
  intro x p q _
  simp only [held, empty, List.count_nil]
  omega

theorem Single.count_file_le (h : Single st) (x : α) : st.file.count x ≤ 1 := by
  have hpair := h x 0 1 Nat.zero_ne_one
  unfold held at hpair
  omega

theorem Single.drop (h : Single st) : Single (st.drop p) := by
  intro x q r hqr
  have hcount : ∀ r, ((st.drop p).buffer r).count x ≤ (st.buffer r).count x := by
    intro r
    by_cases hr : r = p
    · rw [hr]
      simp only [Stdio.drop, Function.update_self, List.count_nil, Nat.zero_le]
    · exact Nat.le_of_eq (congrArg (List.count x) (buffer_drop_of_ne st hr))
  have hold := h x q r hqr
  have hq := hcount q
  have hr := hcount r
  have hfile : (st.drop p).file = st.file := rfl
  unfold held at hold ⊢
  rw [hfile]
  omega

theorem Single.print (h : Single st) (hnew : new.Nodup) (hfresh : All (· ∉ new) st) :
    Single (st.print p new k) := by
  intro x q r hqr
  have hone : new.count x ≤ 1 := List.nodup_iff_count_le_one.mp hnew x
  have hself := held_print_self st p new k x
  have hfile := count_le_count_print st p new k x
  -- what is printed is nowhere else
  have hnone : 0 < new.count x → ∀ r, st.held r x = 0 := by
    intro hpos r
    have hmem := List.count_pos_iff.mp hpos
    have hno : x ∉ st.file := fun hx => hfresh.file x hx hmem
    have hno' : x ∉ st.buffer r := fun hx => hfresh.buffer r x hx hmem
    rw [held, List.count_eq_zero_of_not_mem hno, List.count_eq_zero_of_not_mem hno']
  have hp := fun hpos => hnone hpos p
  have hq := fun hpos => hnone hpos q
  have hr := fun hpos => hnone hpos r
  unfold held at *
  by_cases hqp : q = p
  · subst hqp
    rw [buffer_print_of_ne st hqr.symm]
    have hold := h x q r hqr
    unfold held at hold
    omega
  · rw [buffer_print_of_ne st hqp]
    have hpq := h x p q (Ne.symm hqp)
    unfold held at hpq
    by_cases hrp : r = p
    · subst hrp
      omega
    · rw [buffer_print_of_ne st hrp]
      have hpr := h x p r (Ne.symm hrp)
      have hold := h x q r hqr
      unfold held at hpr hold
      omega

theorem Single.flush (h : Single st) : Single (st.flush p) := by
  rw [flush_eq_print]
  exact h.print List.nodup_nil ⟨fun _ _ => List.not_mem_nil, fun _ _ _ => List.not_mem_nil⟩

/-- **An empty buffer may be copied.** -/
theorem Single.copy (h : Single st) (hempty : st.buffer p = []) : Single (st.copy p q) := by
  have hcopy : st.copy p q = st.drop q := by
    unfold Stdio.copy Stdio.drop
    rw [hempty]
  rw [hcopy]
  exact h.drop

end Stdio
end CaosSeminars
