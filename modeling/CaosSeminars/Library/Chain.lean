import Mathlib.Data.List.Nodup
import Mathlib.Logic.Function.Basic
import Mathlib.Algebra.Order.Group.Nat

/-!
# Singly linked chains in a heap

A heap maps addresses to nodes, and `next` reads a node's link; a null link is
`none`.  `Chain next val heap p l` says that following links from `p` visits the
addresses of `l` in order and then ends, `l` carrying the value of each node
beside its address.  It is an inductive predicate, so a chain is finite by
definition; that it is also acyclic is a theorem (`Chain.nodup`): the chain out
of an address is determined by the heap (`Chain.unique`), so an address that
occurred twice would have two chains of different lengths.

`Chain.congr` is the frame rule: writing at an address off the chain keeps it.

* `unique` --- a chain is determined by its start.
* `exists_suffix`, `length_lt` --- every address on a chain starts a shorter chain, which is how a
  repetition is refuted.
* `start_eq` --- two chains that start on each other start together.
* `update` --- the form of the frame rule for one write.
-/

namespace CaosSeminars

variable {A N V : Type*} {next : N → Option A} {val : N → V}

/-- Following `next` from `p` in `heap` visits the addresses of `l` and ends. -/
inductive Chain (next : N → Option A) (val : N → V) (heap : A → Option N) :
    Option A → List (A × V) → Prop
  | nil : Chain next val heap none []
  | cons {a : A} {n : N} {l : List (A × V)} :
      heap a = some n → Chain next val heap (next n) l →
        Chain next val heap (some a) ((a, val n) :: l)

variable {heap heap' : A → Option N} {p : Option A} {l l' : List (A × V)}

namespace Chain

/-- A null pointer starts the empty chain and no other. -/
theorem eq_nil (h : Chain next val heap none l) : l = [] := by
  cases h
  rfl

theorem eq_none (h : Chain next val heap p []) : p = none := by
  cases h
  rfl

theorem exists_cons {a : A} (h : Chain next val heap (some a) l) :
    ∃ n rest, heap a = some n ∧ l = (a, val n) :: rest ∧ Chain next val heap (next n) rest := by
  cases h with
  | cons hn hrest => exact ⟨_, _, hn, rfl, hrest⟩

/-- **A chain is determined by its start.** -/
theorem unique (h : Chain next val heap p l) (h' : Chain next val heap p l') : l = l' := by
  induction h generalizing l' with
  | nil => exact h'.eq_nil.symm
  | cons hn _ ih =>
    obtain ⟨n', rest, hn', rfl, hrest⟩ := h'.exists_cons
    obtain rfl := Option.some.inj (hn.symm.trans hn')
    rw [ih hrest]

/-- Every address on a chain starts a chain that is no longer. -/
theorem exists_suffix {a : A} (h : Chain next val heap p l) (ha : a ∈ l.map Prod.fst) :
    ∃ m, Chain next val heap (some a) m ∧ m.length ≤ l.length := by
  induction h with
  | nil => exact absurd ha (by simp)
  | @cons b n l hn hl ih =>
    rw [List.map_cons, List.mem_cons] at ha
    rcases ha with rfl | ha
    · exact ⟨_, Chain.cons hn hl, le_rfl⟩
    · obtain ⟨m, hm, hlen⟩ := ih ha
      exact ⟨m, hm, hlen.trans (Nat.le_succ _)⟩

/-- **A chain is acyclic.**  A second visit to an address would start, by
`unique`, a chain as long as the one from the first visit. -/
theorem nodup (h : Chain next val heap p l) : (l.map Prod.fst).Nodup := by
  induction h with
  | nil => simp
  | @cons a n l hn hl ih =>
    rw [List.map_cons, List.nodup_cons]
    refine ⟨fun ha => ?_, ih⟩
    obtain ⟨m, hm, hlen⟩ := hl.exists_suffix ha
    rw [← (Chain.cons hn hl).unique hm, List.length_cons] at hlen
    omega

theorem heap_ne_none {a : A} (h : Chain next val heap p l) (ha : a ∈ l.map Prod.fst) :
    heap a ≠ none := by
  obtain ⟨m, hm, -⟩ := h.exists_suffix ha
  obtain ⟨n, rest, hn, -, -⟩ := hm.exists_cons
  rw [hn]
  exact Option.some_ne_none n

/-- No address after the first starts a chain as long as the whole. -/
theorem length_lt {a b : A} (h : Chain next val heap (some b) l)
    (h' : Chain next val heap (some a) l') (ha : a ∈ l.map Prod.fst) (hne : a ≠ b) :
    l'.length < l.length := by
  obtain ⟨n, rest, -, rfl, hrest⟩ := h.exists_cons
  rw [List.map_cons, List.mem_cons] at ha
  obtain ⟨m, hm, hlen⟩ := hrest.exists_suffix (ha.resolve_left hne)
  rw [h'.unique hm, List.length_cons]
  omega

/-- **Two chains that start on each other start together.** -/
theorem start_eq {q : Option A} (h : Chain next val heap p l) (h' : Chain next val heap q l')
    (hp : ∀ a, p = some a → a ∈ l'.map Prod.fst) (hq : ∀ b, q = some b → b ∈ l.map Prod.fst) :
    p = q := by
  cases p with
  | none =>
    cases q with
    | none => rfl
    | some b =>
      rw [h.eq_nil] at hq
      exact absurd (hq b rfl) List.not_mem_nil
  | some a =>
    cases q with
    | none =>
      rw [h'.eq_nil] at hp
      exact absurd (hp a rfl) List.not_mem_nil
    | some b =>
      by_contra hne
      have hab : a ≠ b := fun hab => hne (congrArg some hab)
      have hlt := h'.length_lt h (hp a rfl) hab
      have hgt := h.length_lt h' (hq b rfl) hab.symm
      omega

/-- **The frame rule.**  A heap that agrees on the chain has the same chain. -/
theorem congr (h : Chain next val heap p l) (heq : ∀ a ∈ l.map Prod.fst, heap' a = heap a) :
    Chain next val heap' p l := by
  induction h with
  | nil => exact Chain.nil
  | @cons a n l hn _ ih =>
    have ha : heap' a = heap a := heq a (by simp)
    exact Chain.cons (ha.trans hn) (ih fun b hb => heq b (by simp [hb]))

theorem update [DecidableEq A] {a : A} (h : Chain next val heap p l)
    (ha : a ∉ l.map Prod.fst) (o : Option N) :
    Chain next val (Function.update heap a o) p l :=
  h.congr fun _ hb => Function.update_of_ne (ne_of_mem_of_not_mem hb ha) o heap

end Chain

end CaosSeminars
