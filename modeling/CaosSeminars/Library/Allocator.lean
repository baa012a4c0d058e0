import Mathlib.Data.Set.Insert
import CaosSeminars.Library.Trace

/-!
# Histories of an allocator

`malloc` hands out an address that is not allocated, and `free` takes one back that is.
`AllocStep` is an allocator that knows the allocated addresses and nothing else; a path of
it is a history in which nothing is freed twice and nothing is freed that was not handed out.

Of an address that is not allocated at the end such a history says `malloc`, `free`,
`malloc`, `free` and so on (`Path.freedOnce`): every `malloc` has had its one `free`, before
the address was handed out again.

The induction is on the history, for one address: the events that name it come in turn
(`inTurn`), and the last of them says whether it is allocated.
-/

namespace CaosSeminars

/-- An address is handed out, or taken back. -/
inductive AllocEvent (A : Type*) where
  | malloc (a : A)
  | free (a : A)
  deriving DecidableEq

variable {A : Type*}

/-- The address. -/
def AllocEvent.addr : AllocEvent A → A
  | malloc a => a
  | free a => a

/-- An allocator that knows which addresses are allocated. -/
inductive AllocStep : Set A → AllocEvent A → Set A → Prop
  | malloc {σ : Set A} {a : A} (ha : a ∉ σ) : AllocStep σ (.malloc a) (insert a σ)
  | free {σ : Set A} {a : A} (ha : a ∈ σ) : AllocStep σ (.free a) (σ \ {a})

/-- Two paths, one after the other. -/
theorem Path.append {Q E : Type*} {R : Q → E → Q → Prop} {σ τ υ : Q} {es es' : List E}
    (h : Path R σ es τ) (h' : Path R τ es' υ) : Path R σ (es ++ es') υ := by
  induction h with
  | nil => exact h'
  | cons hR _ ih => exact Path.cons hR (ih h')

/-- What a history says of the address `a` when each `malloc` is followed by its `free`. -/
def inTurn (a : A) (j : ℕ) : List (AllocEvent A) :=
  (List.replicate j [.malloc a, .free a]).flatten

theorem inTurn_succ (a : A) (j : ℕ) : inTurn a (j + 1) = .malloc a :: .free a :: inTurn a j := rfl

/-- **Every `malloc` has its one `free`.**  Of an address that is not allocated at the end a
history says `malloc` and `free` in turn, after the `free` of what was allocated before. -/
theorem Path.freedOnce [DecidableEq A] {σ τ : Set A} {es : List (AllocEvent A)}
    (h : Path AllocStep σ es τ) {a : A} (ha : a ∉ τ) :
    ∃ j, (a ∈ σ → es.filter (fun e => e.addr = a) = .free a :: inTurn a j) ∧
      (a ∉ σ → es.filter (fun e => e.addr = a) = inTurn a j) := by
  induction h with
  | nil => exact ⟨0, fun hmem => absurd hmem ha, fun _ => rfl⟩
  | @cons σ τ υ e es hstep _ ih =>
    obtain ⟨j, hin, hout⟩ := ih ha
    by_cases he : e.addr = a
    · have hfilter : (e :: es).filter (fun e => e.addr = a) = e :: es.filter fun e => e.addr = a :=
        List.filter_cons_of_pos (decide_eq_true he)
      rw [hfilter]
      cases hstep with
      | @malloc b hb =>
        obtain rfl : b = a := he
        refine ⟨j + 1, fun hmem => absurd hmem hb, fun _ => ?_⟩
        rw [hin (Set.mem_insert _ _), inTurn_succ]
      | @free b hb =>
        obtain rfl : b = a := he
        exact ⟨j, fun _ => by rw [hout (by simp)], fun hmem => absurd hb hmem⟩
    · have hfilter : (e :: es).filter (fun e => e.addr = a) = es.filter fun e => e.addr = a :=
        List.filter_cons_of_neg (by simpa using he)
      rw [hfilter]
      cases hstep with
      | @malloc b hb =>
        have hmem : a ∈ insert b σ ↔ a ∈ σ := by
          rw [Set.mem_insert_iff]
          exact or_iff_right (Ne.symm he)
        rw [hmem] at hin hout
        exact ⟨j, hin, hout⟩
      | @free b hb =>
        have hmem : a ∈ σ \ {b} ↔ a ∈ σ := by
          rw [Set.mem_sdiff, Set.mem_singleton_iff]
          exact and_iff_left (Ne.symm he)
        rw [hmem] at hin hout
        exact ⟨j, hin, hout⟩

end CaosSeminars
