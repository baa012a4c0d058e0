import Mathlib.Data.List.Nodup
import CaosSeminars.Fuse.Text

/-!
# JSON documents

A value as `json.load` returns it.  A `dict` keeps its keys in order and has none
twice, at any depth; `Document` is a value together with this fact.

A position is the list of keys and indices that lead to a value (`get?`), and
`nodes` lists all of them in the order in which a walk from the root meets them.
A container's `branches` are its members under one step each, for objects and
arrays alike; the two kinds of container differ nowhere else.

* `nodes_eq` --- the nodes of a value are the root and the nodes of its members.
* `branchInduction` --- the induction over values that the other modules use: from the members of a
  container to the container.
* `mem_nodes_iff`, `nodup_nodes` --- with distinct keys `nodes` lists every position, and each once.
-/

namespace CaosSeminars
namespace Fuse

/-- What `repr` makes of a `float`: ASCII text. -/
structure FloatText where
  text : PyStr
  ascii : ∀ c ∈ text, c.val < 0x80

/-- A value that is neither a `dict` nor a `list`. -/
inductive Scalar where
  | null
  | bool (b : Bool)
  | int (n : ℤ)
  | float (x : FloatText)
  | string (s : PyStr)

/-- `str(value)`. -/
def Scalar.str : Scalar → PyStr
  | .null => pyStr ['N', 'o', 'n', 'e']
  | .bool true => pyStr ['T', 'r', 'u', 'e']
  | .bool false => pyStr ['F', 'a', 'l', 's', 'e']
  | .int n => if n < 0 then pyStr ['-'] ++ strNat n.natAbs else strNat n.natAbs
  | .float x => x.text
  | .string s => s

/-- A value returned by `json.load`. -/
inductive Json where
  | scalar (x : Scalar)
  | arr (items : List Json)
  | obj (entries : List (PyStr × Json))

/-- A key of an object or an index of an array. -/
inductive Step where
  | key (k : PyStr)
  | index (i : ℕ)
  deriving DecidableEq

/-- A key is its own name, an index the name `str(i)`. -/
def Step.name : Step → PyStr
  | .key k => k
  | .index i => strNat i

namespace Json

/-- `isinstance(value, (dict, list))`. -/
def isContainer : Json → Bool
  | .scalar _ => false
  | .arr _ | .obj _ => true

/-- The members of a container, in order. -/
def branches : Json → List (Step × Json)
  | .scalar _ => []
  | .arr items => items.zipIdx.map fun x => (.index x.2, x.1)
  | .obj entries => entries.map fun e => (.key e.1, e.2)

/-- The names of the members of a container, in order. -/
def names (v : Json) : List PyStr := v.branches.map fun b => b.1.name

/-- The member under a key or an index. -/
def child? : Json → Step → Option Json
  | .obj entries, .key k => entries.lookup k
  | .arr items, .index i => items[i]?
  | _, _ => none

/-- The value at a position. -/
def get? (v : Json) : List Step → Option Json
  | [] => some v
  | s :: p => (v.child? s).bind fun c => c.get? p

/-- A node seen from one level up. -/
def under (s : Step) (n : List Step × Json) : List Step × Json := (s :: n.1, n.2)

mutual

/-- Every position with its value, a container before its members. -/
def nodes : Json → List (List Step × Json)
  | .scalar x => [([], .scalar x)]
  | .arr items => ([], .arr items) :: nodesOfItems 0 items
  | .obj entries => ([], .obj entries) :: nodesOfEntries entries

def nodesOfItems (i : ℕ) : List Json → List (List Step × Json)
  | [] => []
  | item :: rest => item.nodes.map (under (.index i)) ++ nodesOfItems (i + 1) rest

def nodesOfEntries : List (PyStr × Json) → List (List Step × Json)
  | [] => []
  | (key, value) :: rest => value.nodes.map (under (.key key)) ++ nodesOfEntries rest

end

/-- No object has a key twice. -/
def Distinct (v : Json) : Prop :=
  ∀ p entries, v.get? p = some (.obj entries) → (entries.map Prod.fst).Nodup

variable {v w c : Json} {s : Step} {p : List Step}

/-! ## Walking a value -/

theorem sizeOf_lt_of_branch (h : (s, c) ∈ v.branches) : sizeOf c < sizeOf v := by
  cases v with
  | scalar x => exact absurd h List.not_mem_nil
  | arr items =>
    obtain ⟨⟨item, i⟩, hmem, heq⟩ := List.mem_map.mp h
    obtain ⟨-, rfl⟩ := Prod.mk.inj heq
    have hitem : item ∈ items := List.mem_of_getElem? (List.mem_zipIdx_iff_getElem?.mp hmem)
    have hlt := List.sizeOf_lt_of_mem hitem
    simp only [Json.arr.sizeOf_spec]
    omega
  | obj entries =>
    obtain ⟨⟨key, value⟩, hmem, heq⟩ := List.mem_map.mp h
    obtain ⟨-, rfl⟩ := Prod.mk.inj heq
    have hlt := List.sizeOf_lt_of_mem hmem
    simp only [Prod.mk.sizeOf_spec, Json.obj.sizeOf_spec] at hlt ⊢
    omega

/-- **Induction over a value**: what holds of a value when it holds of its members
holds of every value. -/
theorem branchInduction {motive : Json → Prop}
    (h : ∀ v, (∀ s c, (s, c) ∈ v.branches → motive c) → motive v) (v : Json) : motive v :=
  h v fun _ c hc =>
    have : sizeOf c < sizeOf v := sizeOf_lt_of_branch hc
    branchInduction h c
termination_by sizeOf v

theorem nodes_eq (v : Json) :
    v.nodes = ([], v) :: v.branches.flatMap fun b => b.2.nodes.map (under b.1) := by
  cases v with
  | scalar x => simp [nodes, branches]
  | arr items =>
    have hitems : ∀ i, nodesOfItems i items =
        (items.zipIdx i).flatMap fun x => x.1.nodes.map (under (.index x.2)) := by
      induction items with
      | nil => simp [nodesOfItems]
      | cons item rest ih => simp [nodesOfItems, ih]
    rw [nodes, hitems, branches, List.flatMap_map]
  | obj entries =>
    have hentries : nodesOfEntries entries =
        entries.flatMap fun e => e.2.nodes.map (under (.key e.1)) := by
      induction entries with
      | nil => simp [nodesOfEntries]
      | cons e rest ih => simp [nodesOfEntries, ih]
    rw [nodes, hentries, branches, List.flatMap_map]

/-- `child?` finds branches. -/
theorem mem_branches_of_child? (h : v.child? s = some c) : (s, c) ∈ v.branches := by
  cases v with
  | scalar x => exact absurd h (by simp [child?])
  | arr items =>
    cases s with
    | key k => exact absurd h (by simp [child?])
    | index i => exact List.mem_map.mpr ⟨(c, i), List.mk_mem_zipIdx_iff_getElem?.mpr h, rfl⟩
  | obj entries =>
    cases s with
    | index i => exact absurd h (by simp [child?])
    | key k =>
      obtain ⟨l₁, l₂, hl, -⟩ := List.lookup_eq_some_iff.mp h
      refine List.mem_map.mpr ⟨(k, c), ?_, rfl⟩
      rw [hl]
      exact List.mem_append_right l₁ List.mem_cons_self

/-- With distinct keys `lookup` finds every entry. -/
theorem lookup_of_mem {entries : List (PyStr × Json)} {k : PyStr}
    (h : (entries.map Prod.fst).Nodup) (hmem : (k, c) ∈ entries) : entries.lookup k = some c := by
  induction entries with
  | nil => exact absurd hmem List.not_mem_nil
  | cons e rest ih =>
    rw [List.map_cons, List.nodup_cons] at h
    rw [List.lookup_cons]
    rcases List.mem_cons.mp hmem with rfl | hmem
    · simp
    · have hne : k ≠ e.1 := fun heq => h.1 (List.mem_map.mpr ⟨(k, c), hmem, heq⟩)
      rw [beq_false_of_ne hne]
      exact ih h.2 hmem

/-- With distinct keys `child?` finds every branch. -/
theorem child?_eq_some_iff (h : v.Distinct) : v.child? s = some c ↔ (s, c) ∈ v.branches := by
  refine ⟨mem_branches_of_child?, fun hmem => ?_⟩
  cases v with
  | scalar x => exact absurd hmem List.not_mem_nil
  | arr items =>
    obtain ⟨x, hx, heq⟩ := List.mem_map.mp hmem
    obtain ⟨rfl, rfl⟩ := Prod.mk.inj heq
    exact List.mem_zipIdx_iff_getElem?.mp hx
  | obj entries =>
    obtain ⟨e, he, heq⟩ := List.mem_map.mp hmem
    obtain ⟨rfl, rfl⟩ := Prod.mk.inj heq
    exact lookup_of_mem (h [] entries rfl) he

theorem get?_append (p q : List Step) : v.get? (p ++ q) = (v.get? p).bind fun c => c.get? q := by
  induction p generalizing v with
  | nil => rfl
  | cons s p ih =>
    rw [List.cons_append, get?, get?, Option.bind_assoc]
    exact congrArg _ (funext fun c => ih)

/-- The values inside a value with distinct keys have distinct keys. -/
theorem Distinct.at_position (h : v.Distinct) (hp : v.get? p = some w) : w.Distinct := by
  intro q entries hq
  refine h (p ++ q) entries ?_
  rw [get?_append, hp]
  exact hq

theorem Distinct.branch (h : v.Distinct) (hc : (s, c) ∈ v.branches) : c.Distinct := by
  refine h.at_position (p := [s]) ?_
  rw [get?, (child?_eq_some_iff h).mpr hc]
  rfl

/-- Every position is a node. -/
theorem mem_nodes_of_get? (h : v.get? p = some w) : (p, w) ∈ v.nodes := by
  induction p generalizing v with
  | nil =>
    obtain rfl := Option.some.inj h
    rw [nodes_eq]
    exact List.mem_cons_self
  | cons s p ih =>
    obtain ⟨c, hchild, hget⟩ := Option.bind_eq_some_iff.mp h
    rw [nodes_eq]
    refine List.mem_cons_of_mem _ (List.mem_flatMap.mpr ?_)
    exact ⟨(s, c), mem_branches_of_child? hchild, List.mem_map.mpr ⟨(p, w), ih hget, rfl⟩⟩

/-- **`nodes` lists the positions.** -/
theorem mem_nodes_iff (h : v.Distinct) : (p, w) ∈ v.nodes ↔ v.get? p = some w := by
  refine ⟨fun hmem => ?_, mem_nodes_of_get?⟩
  induction v using branchInduction generalizing p with
  | h v ih =>
    rw [nodes_eq, List.mem_cons] at hmem
    rcases hmem with heq | hmem
    · obtain ⟨rfl, rfl⟩ := Prod.mk.inj heq
      rfl
    · obtain ⟨⟨s, c⟩, hbranch, hmem⟩ := List.mem_flatMap.mp hmem
      obtain ⟨⟨q, w'⟩, hq, heq⟩ := List.mem_map.mp hmem
      obtain ⟨rfl, rfl⟩ := Prod.mk.inj heq
      rw [get?, (child?_eq_some_iff h).mpr hbranch]
      exact ih s c hbranch (h.branch hbranch) hq

theorem nodup_steps (h : v.Distinct) : (v.branches.map Prod.fst).Nodup := by
  cases v with
  | scalar x => simp [branches]
  | arr items =>
    have hsteps : (Json.arr items).branches.map Prod.fst =
        (List.range items.length).map Step.index := by
      rw [branches, List.map_map, List.range_eq_range', ← List.zipIdx_map_snd, List.map_map]
      rfl
    rw [hsteps]
    exact List.nodup_range.map fun i j hij => Step.index.inj hij
  | obj entries =>
    have hsteps : (Json.obj entries).branches.map Prod.fst =
        (entries.map Prod.fst).map Step.key := by
      rw [branches, List.map_map, List.map_map]
      rfl
    rw [hsteps]
    exact (h [] entries rfl).map fun k l hkl => Step.key.inj hkl

/-- **Every position is listed once.** -/
theorem nodup_nodes (h : v.Distinct) : (v.nodes.map Prod.fst).Nodup := by
  induction v using branchInduction with
  | h v ih =>
    have hsteps := List.pairwise_map.mp (nodup_steps h)
    rw [nodes_eq, List.map_cons, List.map_flatMap, List.nodup_cons, List.nodup_flatMap]
    refine ⟨fun hmem => ?_, fun b hb => ?_, hsteps.imp fun {a b} hne => ?_⟩
    · -- only the root has the empty position
      obtain ⟨b, -, hb⟩ := List.mem_flatMap.mp hmem
      simp [under] at hb
    · have hmap : (b.2.nodes.map (under b.1)).map Prod.fst =
          (b.2.nodes.map Prod.fst).map (b.1 :: ·) := by
        rw [List.map_map, List.map_map]
        rfl
      rw [hmap]
      exact (ih b.1 b.2 hb (h.branch hb)).map fun p q hpq => (List.cons.inj hpq).2
    · -- positions under two members differ in their first step
      intro p hpa hpb
      simp only [List.mem_map, under] at hpa hpb
      obtain ⟨_, ⟨m, -, rfl⟩, rfl⟩ := hpa
      obtain ⟨_, ⟨n, -, rfl⟩, heq⟩ := hpb
      exact hne (List.cons.inj heq).1.symm

end Json

/-- A value that `json.load` can return. -/
structure Document where
  value : Json
  distinct : value.Distinct

end Fuse
end CaosSeminars
