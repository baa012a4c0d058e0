import CaosSeminars.Library.Chain
import CaosSeminars.Library.ForLoop

/-!
# The list of the latency benchmark

`latency/list_traversal.cpp` makes an array of nodes, shuffles the pointers to them, links each node
to the next one in that order, and then follows the links again and again while the clock is
running.  What it reports is the time divided by `N * iters`.

* `time`: the function with its two vectors, which need memory, and the divisor, which is a
  product of two `uint64_t`.
* `Shuffled.linkUp_eq`, `Shuffled.chain_drop`: whatever the order is, linking leaves one list
  through all nodes.
* `Shuffled.traverse_eq`: a pass goes over this list and comes to its end.
* `time_visits`: so every pass goes over every node once, and the reported number is the time for
  one node as long as the product does not overflow.

Without any node the bound `N - 1` of the linking loop is the largest number there is, and the loop
leaves the array.  With too many nodes there is no array.  How `double` rounds the divisor, and the
division, are left out.
-/

namespace CaosSeminars
namespace Memory
namespace ListTraversal

/-- `Node`, with the index in `memory` of the node that `next` points to. -/
structure Node where
  payload : UInt64
  next : Option ℕ
  deriving DecidableEq

/-- The nodes of `memory`. -/
abbrev Heap := ℕ → Option Node

/-- `vector<Node> memory(N)` -/
def memory (n : ℕ) : Heap := fun a => if a < n then some ⟨0, none⟩ else none

/-- `p->next = q` -/
def setNext (heap : Heap) (p q : ℕ) : Option Heap :=
  (heap p).map fun node => Function.update heap p (some { node with next := some q })

/-- The difference of two `uint64_t`. -/
def subInt (a b : ℕ) : ℕ := if b ≤ a then a - b else a + 2 ^ 64 - b

/-- The product of two `uint64_t`. -/
def mulInt (a b : ℕ) : ℕ := a * b % 2 ^ 64

/-- One round of the loop that links up the nodes; `none` is an access outside `nodes`. -/
def linkUp (nodes : List ℕ) (i : ℕ) (heap : Heap) : Option Heap :=
  match nodes[i]?, nodes[i + 1]? with
  | some p, some q => setNext heap p q
  | _, _ => none

/-- The list, for the order `nodes` that `shuffle` has made. -/
def linkedList (n : ℕ) (nodes : List ℕ) : Option Heap :=
  forLoop (subInt n 1) (fun i heap => linkUp nodes i heap) (memory n)

/-- `while (node) { node = node->next; }`, with the nodes that it comes to. -/
def traverse (heap : Heap) : ℕ → Option ℕ → Option (List ℕ)
  | _, none => some []
  | 0, some _ => none
  | fuel + 1, some node =>
    match heap node with
    | none => none
    | some found => (traverse heap fuel found.next).map fun rest => node :: rest

/-- The list and the passes over it, with the nodes that they come to. -/
def passes (n iters fuel : ℕ) (nodes : List ℕ) : Option (List ℕ) :=
  (linkedList n nodes).bind fun heap =>
    nodes[0]?.bind fun start =>
      forLoop iters
        (fun _ visited => (traverse heap fuel (some start)).map fun pass => visited ++ pass) []

/-- `max_size()` of a vector whose elements have `size` bytes. -/
def maxSize (size : ℕ) : ℕ := (2 ^ 63 - 1) / size

/-- A vector of `n` elements can be made: there may be so many, and `operator new`, where it is
called, returns. -/
def VectorFits (granted : Bool) (size n : ℕ) : Prop :=
  n ≤ maxSize size ∧ (n = 0 ∨ granted = true)

/-- What `operator new` answers for `memory` and for `nodes`. -/
structure Granted where
  memory : Bool
  nodes : Bool

/-- Both vectors of `time` can be made; a node has 16 bytes, and a pointer 8. -/
def Fits (granted : Granted) (n : ℕ) : Prop :=
  VectorFits granted.memory 16 n ∧ VectorFits granted.nodes 8 n

instance (granted : Granted) (n : ℕ) : Decidable (Fits granted n) :=
  inferInstanceAs (Decidable ((_ ∧ (_ ∨ _)) ∧ (_ ∧ (_ ∨ _))))

/-- How `time` ends. -/
inductive Outcome where
  /-- By the exception of a vector that cannot be made. -/
  | threw
  /-- With the nodes that the passes came to, and the number that the time is divided by. -/
  | returned (visits : List ℕ) (divisor : ℕ)

/-- `time`; `none` is an access outside `nodes`, or a pass that does not end. -/
def time (granted : Granted) (n iters fuel : ℕ) (nodes : List ℕ) : Option Outcome :=
  if Fits granted n then
    (passes n iters fuel nodes).map fun visits => .returned visits (mulInt n iters)
  else some .threw

variable {granted : Granted} {n iters fuel i : ℕ} {nodes : List ℕ}

/-! ## The loop that links -/

/-- The node at `a` after `i` rounds. -/
def linked (nodes : List ℕ) (i a : ℕ) : Option ℕ :=
  if nodes.idxOf a < i then nodes[nodes.idxOf a + 1]? else none

/-- The nodes after `i` rounds. -/
def linkedHeap (n : ℕ) (nodes : List ℕ) (i : ℕ) : Heap :=
  fun a => if a < n then some ⟨0, linked nodes i a⟩ else none

theorem linkedHeap_zero : linkedHeap n nodes 0 = memory n := by
  funext a
  simp [linkedHeap, memory, linked]

theorem setNext_eq {heap : Heap} {p q : ℕ} {node : Node} (h : heap p = some node) :
    setNext heap p q = some (Function.update heap p (some { node with next := some q })) := by
  rw [setNext, h]
  rfl

/-- Every node once. -/
structure Shuffled (n : ℕ) (nodes : List ℕ) : Prop where
  length_eq : nodes.length = n
  nodup : nodes.Nodup
  mem_iff : ∀ a, a ∈ nodes ↔ a < n

theorem shuffled_of_perm (h : nodes.Perm (List.range n)) : Shuffled n nodes where
  length_eq := by rw [h.length_eq, List.length_range]
  nodup := h.nodup_iff.mpr List.nodup_range
  mem_iff a := by rw [h.mem_iff, List.mem_range]

namespace Shuffled

theorem linkUp_eq (h : Shuffled n nodes) (hi : i + 1 < n) :
    linkUp nodes i (linkedHeap n nodes i) = some (linkedHeap n nodes (i + 1)) := by
  have hlen := h.length_eq
  have hp : nodes[i]? = some nodes[i] := List.getElem?_eq_getElem (by omega)
  have hq : nodes[i + 1]? = some nodes[i + 1] := List.getElem?_eq_getElem (by omega)
  have hmem : nodes[i] < n := (h.mem_iff _).mp (List.getElem_mem _)
  have hidx : nodes.idxOf nodes[i] = i := h.nodup.idxOf_getElem i (by omega)
  rw [linkUp, hp, hq]
  show setNext _ nodes[i] nodes[i + 1] = _
  rw [setNext_eq (if_pos hmem)]
  refine congrArg some (funext fun a => ?_)
  by_cases ha : a = nodes[i]
  · have hnext : linked nodes (i + 1) nodes[i] = some nodes[i + 1] := by
      rw [linked, hidx, if_pos (Nat.lt_succ_self i), hq]
    rw [ha, Function.update_self, linkedHeap, if_pos hmem, hnext]
  · rw [Function.update_of_ne ha, linkedHeap, linkedHeap]
    by_cases han : a < n
    · -- the node has another number
      have hne : nodes.idxOf a ≠ i := fun heq => ha (by
        have hidxa := List.idxOf_lt_length_of_mem ((h.mem_iff a).mpr han)
        have hget := List.getElem_idxOf hidxa
        simp only [heq] at hget
        exact hget.symm)
      rw [if_pos han, if_pos han, linked, linked]
      exact congrArg some (congrArg (Node.mk 0) (if_congr (by omega) rfl rfl))
    · rw [if_neg han, if_neg han]

theorem linkedList_eq (h : Shuffled n nodes) (hn : 0 < n) (hn64 : n < 2 ^ 64) :
    linkedList n nodes = some (linkedHeap n nodes (n - 1)) := by
  have hbound : subInt n 1 = n - 1 := if_pos hn
  rw [linkedList, hbound]
  exact forLoop_eq (linkedHeap n nodes) linkedHeap_zero fun i => h.linkUp_eq (by omega)

/-! ## One list of all nodes -/

theorem chain_drop (h : Shuffled n nodes) (k : ℕ) (hi : i + k = n) :
    Chain Node.next Node.payload (linkedHeap n nodes (n - 1)) nodes[i]?
      ((nodes.drop i).map fun a => (a, 0)) := by
  have hlen := h.length_eq
  induction k generalizing i with
  | zero =>
    rw [List.getElem?_eq_none (by omega), List.drop_of_length_le (by omega)]
    exact .nil
  | succ k ih =>
    have hp : nodes[i]? = some nodes[i] := List.getElem?_eq_getElem (by omega)
    have hmem : nodes[i] < n := (h.mem_iff _).mp (List.getElem_mem _)
    have hidx : nodes.idxOf nodes[i] = i := h.nodup.idxOf_getElem i (by omega)
    have hnext : linked nodes (n - 1) nodes[i] = nodes[i + 1]? := by
      rw [linked, hidx]
      split
      · rfl
      · exact (List.getElem?_eq_none (by omega)).symm
    have hnode : linkedHeap n nodes (n - 1) nodes[i] = some ⟨0, nodes[i + 1]?⟩ := by
      rw [linkedHeap, if_pos hmem, hnext]
    rw [hp, List.drop_eq_getElem_cons (by omega), List.map_cons]
    exact .cons hnode (ih (by omega))

end Shuffled

/-- Following the links of a chain goes over its nodes. -/
theorem traverse_of_chain {heap : Heap} {p : Option ℕ} {l : List (ℕ × UInt64)}
    (h : Chain Node.next Node.payload heap p l) (hfuel : l.length ≤ fuel) :
    traverse heap fuel p = some (l.map Prod.fst) := by
  induction h generalizing fuel with
  | nil => cases fuel <;> rfl
  | @cons a node l hnode _ ih =>
    obtain ⟨fuel, rfl⟩ := Nat.exists_eq_succ_of_ne_zero (Nat.ne_of_gt
      (Nat.lt_of_lt_of_le (Nat.succ_pos l.length) hfuel))
    have hrest : traverse heap fuel node.next = some (l.map Prod.fst) :=
      ih (Nat.le_of_succ_le_succ hfuel)
    rw [traverse, hnode]
    show (traverse heap fuel node.next).map _ = _
    rw [hrest]
    rfl

/-! ## The measurement -/

theorem Shuffled.traverse_eq (h : Shuffled n nodes) (hfuel : n ≤ fuel) :
    traverse (linkedHeap n nodes (n - 1)) fuel nodes[0]? = some nodes := by
  have hlen : (nodes.map fun a => (a, (0 : UInt64))).length ≤ fuel := by
    rw [List.length_map, h.length_eq]
    exact hfuel
  have hpass := traverse_of_chain (h.chain_drop n (Nat.zero_add n)) hlen
  rw [hpass, List.drop_zero, List.map_map]
  exact congrArg some (List.map_id nodes)

/-- All passes. -/
theorem Shuffled.passes_eq (h : Shuffled n nodes) (hn : 0 < n) (hn64 : n < 2 ^ 64)
    (hfuel : n ≤ fuel) :
    passes n iters fuel nodes = some (List.replicate iters nodes).flatten := by
  have hlen : 0 < nodes.length := by
    rw [h.length_eq]
    exact hn
  have hstart : nodes[0]? = some nodes[0] := List.getElem?_eq_getElem hlen
  have hpass := h.traverse_eq hfuel
  rw [hstart] at hpass
  rw [passes, h.linkedList_eq hn hn64, Option.bind_some, hstart, Option.bind_some]
  refine forLoop_eq (fun k => (List.replicate k nodes).flatten) rfl fun i => ?_
  rw [hpass, List.replicate_succ', List.flatten_append, List.flatten_singleton]
  rfl

/-- Without a node the first round of the linking loop already leaves the array. -/
theorem linkedList_zero : linkedList 0 [] = none :=
  forLoop_eq_none (by decide) _ fun _ _ => rfl

theorem fits_zero (granted : Granted) : Fits granted 0 :=
  ⟨⟨Nat.zero_le _, Or.inl rfl⟩, Nat.zero_le _, Or.inl rfl⟩

/-- There is no vector of so many nodes. -/
theorem not_fits (hn : 2 ^ 59 ≤ n) : ¬Fits granted n := fun h => by
  have hmax : n ≤ (2 ^ 63 - 1) / 16 := h.1.1
  omega

theorem mulInt_eq_iff (a b : ℕ) : mulInt a b = a * b ↔ a * b < 2 ^ 64 :=
  Nat.mod_eq_iff_lt (by decide)

/-- **What `time` measures.**  For every number of nodes, every order that `shuffle` makes of them
and every number of passes: if a vector cannot be made, as is the case from `2 ^ 59` nodes on, there
is an exception and no number; if there is no node, the function leaves its array; and else each
pass follows the links through all nodes in that order and ends.  Then `N * iters` nodes are
visited, each of them `iters` times, and this is what the time is divided by if and only if it is
less than `2 ^ 64`. -/
theorem time_visits (hperm : nodes.Perm (List.range n)) (hn64 : n < 2 ^ 64) (hfuel : n ≤ fuel)
    (granted : Granted) :
    (2 ^ 59 ≤ n → ¬Fits granted n) ∧
      (¬Fits granted n → time granted n iters fuel nodes = some .threw) ∧
      (n = 0 → time granted n iters fuel nodes = none) ∧
      (0 < n → Fits granted n → ∃ visits divisor,
        time granted n iters fuel nodes = some (.returned visits divisor) ∧
        visits = (List.replicate iters nodes).flatten ∧ visits.length = n * iters ∧
        (∀ a < n, visits.count a = iters) ∧
        (divisor = visits.length ↔ n * iters < 2 ^ 64)) := by
  have h := shuffled_of_perm hperm
  refine ⟨not_fits, fun hfits => if_neg hfits, ?_, fun hn hfits => ?_⟩
  · rintro rfl
    obtain rfl : nodes = [] := List.length_eq_zero_iff.mp h.length_eq
    rw [time, if_pos (fits_zero granted), passes, linkedList_zero]
    rfl
  · have hlen : (List.replicate iters nodes).flatten.length = n * iters := by
      rw [List.length_flatten, List.map_replicate, List.sum_replicate_nat, h.length_eq,
        Nat.mul_comm]
    refine ⟨_, mulInt n iters, ?_, rfl, hlen, fun a ha => ?_, ?_⟩
    · rw [time, if_pos hfits, h.passes_eq hn hn64 hfuel]
      rfl
    · have hone : nodes.count a = 1 := List.count_eq_one_of_mem h.nodup ((h.mem_iff a).mpr ha)
      rw [List.count_flatten, List.map_replicate, List.sum_replicate_nat, hone, Nat.mul_one]
    · rw [hlen]
      exact mulInt_eq_iff n iters

/-- Three nodes in the order `2, 0, 1`, and two passes. -/
theorem time_visits_threeNodes :
    Fits ⟨true, true⟩ 3 ∧ ∃ visits divisor,
      time ⟨true, true⟩ 3 2 3 [2, 0, 1] = some (.returned visits divisor) ∧
        visits = (List.replicate 2 [2, 0, 1]).flatten ∧ visits.length = 3 * 2 ∧
        (∀ a < 3, visits.count a = 2) ∧ (divisor = visits.length ↔ 3 * 2 < 2 ^ 64) := by
  have hperm : [2, 0, 1].Perm (List.range 3) := by decide
  have hfits : Fits ⟨true, true⟩ 3 := by decide
  exact ⟨hfits, (time_visits hperm (by decide) le_rfl ⟨true, true⟩).2.2.2 (by decide) hfits⟩

end ListTraversal
end Memory
end CaosSeminars
