import CaosSeminars.Fuse.JsonFs
import CaosSeminars.Library.Writes

/-!
# What `_build_tree` builds

The two loops and the recursion between them come to this: every node of the
document, in the order of `nodes`, makes one assignment, a scalar to `files` and a
container to `dirs`, under the path that `os.path.join` makes of its position
(`new_eq`).  The placeholder `self.dirs[new_path] = []` is overwritten before
anything else happens.

So what is found under a path is what the last node with that path assigned.
Whether anything was overwritten is a question about the paths of positions
alone (`nodup_writesOf`), and when nothing was, every node's assignment is found
(`writeAll_of_mem`).

* `visit_eq` --- a visit makes the assignments of the nodes, in their order; `new_eq` says the
  same of the constructor.
* `encodable_of_new` --- the constructor returns only if every scalar can be encoded, since the
  first one that cannot be stops the walk.
* `files_built`, `dirs_built` --- what is found under a path is the content of a scalar, or the
  listing of a container, with that path; `files_built_of_nodup` and `dirs_built_of_nodup` are the
  converse where no path is assigned twice.
-/

namespace CaosSeminars
namespace Fuse

/-! ## The writes of `_build_tree`, in order -/

/-- `new_path` for a position below a node at `path`. -/
def walk (path : PyStr) (p : List Step) : PyStr := p.foldl (fun path s => joinPath path s.name) path

/-- The path under which `_build_tree` stores the value at a position. -/
def storedPath (p : List Step) : PyStr := walk [slash] p

/-- What is stored in `files` for a value. -/
def content? : Json → Option (List UInt8)
  | .scalar x => encode x.str
  | .arr _ | .obj _ => none

/-- What is stored in `dirs` for a value. -/
def listing? (v : Json) : Option (List PyStr) := if v.isContainer then some v.names else none

/-- The value can be stored. -/
def Encodable : Json → Prop
  | .scalar x => (encode x.str).isSome
  | .arr _ | .obj _ => True

/-- The assignment that a walk makes at a node. -/
def place (path : PyStr) (fs : JsonFs) : Json → Option JsonFs
  | .scalar x => (encode x.str).map (fs.setFile path)
  | v => some (fs.setListing path v.names)

/-- What a loop of `_build_tree` does for one member. -/
def visit (path : PyStr) (fs : JsonFs) : Json → Option JsonFs
  | .scalar x => (encode x.str).map (fs.setFile path)
  | v => JsonFs.buildTree path (fs.setDir path) v

/-- The assignments to a map, where `f` is what is stored for a value. -/
def writesOf {β : Type*} (f : Json → Option β) (path : PyStr) (ns : List (List Step × Json)) :
    List (PyStr × β) :=
  ns.filterMap fun n => (f n.2).map fun b => (walk path n.1, b)

/-- The maps after the assignments for a list of nodes. -/
def JsonFs.write (fs : JsonFs) (path : PyStr) (ns : List (List Step × Json)) : JsonFs where
  files := writeAll fs.files (writesOf content? path ns)
  dirs := writeAll fs.dirs (writesOf listing? path ns)
  stored := fs.stored ++ (writesOf content? path ns).map Prod.fst
  listed := fs.listed ++ (writesOf listing? path ns).map Prod.fst

variable {β : Type*} {f : Json → Option β} {fs fs' : JsonFs} {path : PyStr} {v w : Json}
  {s : Step} {p q : List Step} {ns : List (List Step × Json)}

theorem walk_cons : walk path (s :: p) = walk (joinPath path s.name) p := rfl

/-! ## A fold over the nodes -/

theorem setListing_setDir (names : List PyStr) :
    (fs.setDir path).setListing path names = fs.setListing path names := by
  simp [JsonFs.setListing, JsonFs.setDir]

theorem visit_container (hv : v.isContainer) :
    visit path fs v = JsonFs.buildTree path (fs.setDir path) v := by
  cases v with
  | scalar x => exact absurd hv Bool.false_ne_true
  | _ => rfl

theorem place_container (hv : v.isContainer) :
    place path fs v = some (fs.setListing path v.names) := by
  cases v with
  | scalar x => exact absurd hv Bool.false_ne_true
  | _ => rfl

theorem buildEntries_eq (entries : List (PyStr × Json)) :
    JsonFs.buildEntries path fs entries =
      entries.foldlM (fun fs e => visit (joinPath path e.1) fs e.2) fs := by
  induction entries generalizing fs with
  | nil => rfl
  | cons e rest ih =>
    obtain ⟨key, value⟩ := e
    cases value with
    | scalar x =>
      rw [List.foldlM_cons, visit, JsonFs.buildEntries]
      cases encode x.str with
      | none => rfl
      | some content => exact ih
    | _ =>
      rw [List.foldlM_cons, visit_container rfl, JsonFs.buildEntries]
      · exact congrArg _ (funext fun fs => ih)
      · simp

theorem buildItems_eq (i : ℕ) (items : List Json) :
    JsonFs.buildItems path i fs items =
      (items.zipIdx i).foldlM (fun fs x => visit (joinPath path (strNat x.2)) fs x.1) fs := by
  induction items generalizing fs i with
  | nil => rfl
  | cons item rest ih =>
    cases item with
    | scalar x =>
      rw [List.zipIdx_cons, List.foldlM_cons, visit, JsonFs.buildItems]
      cases encode x.str with
      | none => rfl
      | some content => exact ih _
    | _ =>
      rw [List.zipIdx_cons, List.foldlM_cons, visit_container rfl, JsonFs.buildItems]
      · exact congrArg _ (funext fun fs => ih _)
      · simp

/-- `_build_tree` on a container: its listing, then a visit of each member. -/
theorem buildTree_eq (hv : v.isContainer) :
    JsonFs.buildTree path fs v =
      v.branches.foldlM (fun fs b => visit (joinPath path b.1.name) fs b.2)
        (fs.setListing path v.names) := by
  cases v with
  | scalar x => exact absurd hv (by simp [Json.isContainer])
  | arr items =>
    have hnames : (Json.arr items).names = (List.range items.length).map strNat := by
      rw [Json.names, Json.branches, List.map_map, List.range_eq_range', ← List.zipIdx_map_snd,
        List.map_map]
      rfl
    rw [JsonFs.buildTree, buildItems_eq, hnames, Json.branches, List.foldlM_map]
    rfl
  | obj entries =>
    have hnames : (Json.obj entries).names = entries.map Prod.fst := by
      rw [Json.names, Json.branches, List.map_map]
      rfl
    rw [JsonFs.buildTree, buildEntries_eq, hnames, Json.branches, List.foldlM_map]
    rfl

/-- **A visit makes the assignments of the nodes, in their order.** -/
theorem visit_eq (v : Json) (path : PyStr) (fs : JsonFs) :
    visit path fs v = v.nodes.foldlM (fun fs n => place (walk path n.1) fs n.2) fs := by
  induction v using Json.branchInduction generalizing path fs with
  | h v ih =>
    have hmembers : ∀ l : List (Step × Json), l ⊆ v.branches → ∀ fs,
        l.foldlM (fun fs b => visit (joinPath path b.1.name) fs b.2) fs =
          (l.flatMap fun b => b.2.nodes.map (Json.under b.1)).foldlM
            (fun fs n => place (walk path n.1) fs n.2) fs := by
      intro l hl
      induction l with
      | nil => exact fun fs => rfl
      | cons b l ihl =>
        intro fs
        obtain ⟨hb, hl⟩ := List.cons_subset.mp hl
        rw [List.foldlM_cons, List.flatMap_cons, List.foldlM_append, List.foldlM_map,
          ih b.1 b.2 hb]
        exact congrArg _ (funext (ihl hl))
    rw [Json.nodes_eq, List.foldlM_cons]
    by_cases hv : v.isContainer
    · rw [visit_container hv, buildTree_eq hv, setListing_setDir,
        hmembers v.branches (List.Subset.refl _), place_container hv]
      rfl
    · cases v with
      | scalar x => simp [visit, place, walk, Json.branches]
      | _ => exact absurd rfl hv

/-! ## The maps after the fold -/

theorem foldlM_place (h : ∀ n ∈ ns, Encodable n.2) :
    ns.foldlM (fun fs n => place (walk path n.1) fs n.2) fs = some (fs.write path ns) := by
  induction ns generalizing fs with
  | nil => simp [JsonFs.write, writesOf, writeAll]
  | cons n ns ih =>
    obtain ⟨p, v⟩ := n
    rw [List.forall_mem_cons] at h
    rw [List.foldlM_cons]
    cases v with
    | scalar x =>
      obtain ⟨bs, hbs⟩ := Option.isSome_iff_exists.mp h.1
      have hplace : place (walk path p) fs (.scalar x) = some (fs.setFile (walk path p) bs) := by
        rw [place, hbs, Option.map_some]
      rw [hplace]
      exact (ih h.2).trans (by
        simp [JsonFs.write, writesOf, content?, listing?, Json.isContainer, hbs, JsonFs.setFile,
          writeAll])
    | _ =>
      rw [place_container rfl]
      exact (ih h.2).trans (by
        simp [JsonFs.write, writesOf, content?, listing?, Json.isContainer, JsonFs.setListing,
          writeAll])

/-- A scalar that cannot be encoded stops the walk. -/
theorem encodable_of_foldlM_place
    (h : ns.foldlM (fun fs n => place (walk path n.1) fs n.2) fs = some fs') :
    ∀ n ∈ ns, Encodable n.2 := by
  induction ns generalizing fs with
  | nil => simp
  | cons n ns ih =>
    rw [List.foldlM_cons] at h
    obtain ⟨fs₁, hplace, hrest⟩ := Option.bind_eq_some_iff.mp h
    refine List.forall_mem_cons.mpr ⟨?_, ih hrest⟩
    obtain ⟨p, v⟩ := n
    cases v with
    | scalar x =>
      obtain ⟨bs, hbs, -⟩ := Option.map_eq_some_iff.mp hplace
      exact Option.isSome_of_eq_some hbs
    | _ => trivial

/-- On a container at `'/'` the constructor visits it. -/
theorem new_eq_visit (hv : v.isContainer) : JsonFs.new v = visit [slash] JsonFs.empty v := by
  rw [JsonFs.new, visit_container hv, buildTree_eq hv, buildTree_eq hv, setListing_setDir]

/-- **The constructor writes what the nodes assign.** -/
theorem new_eq (hv : v.isContainer) (h : ∀ n ∈ v.nodes, Encodable n.2) :
    JsonFs.new v = some (JsonFs.empty.write [slash] v.nodes) := by
  rw [new_eq_visit hv, visit_eq, foldlM_place h]

theorem encodable_of_new (hv : v.isContainer) (h : JsonFs.new v = some fs) :
    ∀ n ∈ v.nodes, Encodable n.2 := by
  rw [new_eq_visit hv, visit_eq] at h
  exact encodable_of_foldlM_place h

/-! ## What is found under a path -/

theorem mem_writesOf {b : β} {path' : PyStr} :
    (path', b) ∈ writesOf f path ns ↔ ∃ p v, (p, v) ∈ ns ∧ f v = some b ∧ walk path p = path' := by
  simp only [writesOf, List.mem_filterMap, Option.map_eq_some_iff, Prod.mk.injEq]
  constructor
  · rintro ⟨⟨p, v⟩, hmem, b, hb, hpath, rfl⟩
    exact ⟨p, v, hmem, hb, hpath⟩
  · rintro ⟨p, v, hmem, hb, hpath⟩
    exact ⟨(p, v), hmem, b, hb, hpath, rfl⟩

/-- **Nothing is overwritten exactly when the positions that are stored have
different paths.** -/
theorem nodup_writesOf (h : (ns.map Prod.fst).Nodup) :
    ((writesOf f path ns).map Prod.fst).Nodup ↔
      ∀ p q v w, (p, v) ∈ ns → (q, w) ∈ ns → (f v).isSome → (f w).isSome →
        walk path p = walk path q → p = q := by
  have hmap : (writesOf f path ns).map Prod.fst =
      ((ns.filter fun n => (f n.2).isSome).map Prod.fst).map (walk path) := by
    clear h
    induction ns with
    | nil => rfl
    | cons n ns ih =>
      obtain ⟨p, v⟩ := n
      cases hv : f v <;> simp_all [writesOf]
  have hnodup : ((ns.filter fun n => (f n.2).isSome).map Prod.fst).Nodup :=
    h.sublist (List.filter_sublist.map Prod.fst)
  rw [hmap, List.nodup_map_iff_inj_on hnodup]
  simp only [List.mem_map, List.mem_filter]
  constructor
  · intro hinj p q v w hp hq hv hw hpath
    exact hinj p ⟨(p, v), ⟨hp, hv⟩, rfl⟩ q ⟨(q, w), ⟨hq, hw⟩, rfl⟩ hpath
  · rintro hinj _ ⟨⟨p, v⟩, ⟨hp, hv⟩, rfl⟩ _ ⟨⟨q, w⟩, ⟨hq, hw⟩, rfl⟩ hpath
    exact hinj p q v w hp hq hv hw hpath

/-! ## The maps of a document -/

/-- The maps of a document whose root is a container. -/
def built (v : Json) : JsonFs := JsonFs.empty.write [slash] v.nodes

variable {x : Scalar} {bs : List UInt8} {found : PyStr}

theorem files_built (h : v.Distinct) (hfound : (built v).files found = some bs) :
    ∃ p x, v.get? p = some (.scalar x) ∧ encode x.str = some bs ∧ storedPath p = found := by
  rcases mem_of_writeAll hfound with hmem | hnone
  · obtain ⟨p, w, hw, hbs, hpath⟩ := mem_writesOf.mp hmem
    rw [Json.mem_nodes_iff h] at hw
    cases w with
    | scalar x => exact ⟨p, x, hw, hbs, hpath⟩
    | _ => exact absurd hbs (by simp [content?])
  · exact absurd hnone (by simp [JsonFs.empty])

/-- The path of a scalar is a file. -/
theorem isSome_files_built (h : v.Distinct) (hx : v.get? p = some (.scalar x))
    (hbs : encode x.str = some bs) : ((built v).files (storedPath p)).isSome :=
  isSome_writeAll.mpr (Or.inl (List.mem_map.mpr ⟨(storedPath p, bs),
    mem_writesOf.mpr ⟨p, .scalar x, (Json.mem_nodes_iff h).mpr hx, hbs, rfl⟩, rfl⟩))

/-- With different paths for different scalars each is found. -/
theorem files_built_of_nodup (h : v.Distinct) (hnodup : (built v).stored.Nodup)
    (hx : v.get? p = some (.scalar x)) (hbs : encode x.str = some bs) :
    (built v).files (storedPath p) = some bs :=
  writeAll_of_mem hnodup
    (mem_writesOf.mpr ⟨p, .scalar x, (Json.mem_nodes_iff h).mpr hx, hbs, rfl⟩)

theorem dirs_built {l : List PyStr} (h : v.Distinct) (hv : v.isContainer)
    (hfound : (built v).dirs found = some l) :
    ∃ p w, v.get? p = some w ∧ w.isContainer ∧ storedPath p = found := by
  rcases mem_of_writeAll hfound with hmem | hroot
  · obtain ⟨p, w, hw, hl, hpath⟩ := mem_writesOf.mp hmem
    refine ⟨p, w, (Json.mem_nodes_iff h).mp hw, ?_, hpath⟩
    by_contra hnot
    exact absurd hl (by simp [listing?, hnot])
  · -- only the root is there before
    refine ⟨[], v, rfl, hv, ?_⟩
    by_contra hne
    have hnone : JsonFs.empty.dirs found = none := by
      show Function.update (fun _ => none) [slash] (some []) found = none
      exact Function.update_of_ne (Ne.symm hne) _ _
    rw [hnone] at hroot
    exact absurd hroot (by simp)

/-- The path of a container is a directory. -/
theorem isSome_dirs_built (h : v.Distinct) (hp : v.get? p = some w) (hw : w.isContainer) :
    ((built v).dirs (storedPath p)).isSome :=
  isSome_writeAll.mpr (Or.inl (List.mem_map.mpr ⟨(storedPath p, w.names),
    mem_writesOf.mpr ⟨p, w, (Json.mem_nodes_iff h).mpr hp, if_pos hw, rfl⟩, rfl⟩))

theorem dirs_built_of_nodup (h : v.Distinct) (hnodup : (built v).listed.Nodup)
    (hp : v.get? p = some w) (hw : w.isContainer) :
    (built v).dirs (storedPath p) = some w.names :=
  writeAll_of_mem hnodup
    (mem_writesOf.mpr ⟨p, w, (Json.mem_nodes_iff h).mpr hp, if_pos hw, rfl⟩)

end Fuse
end CaosSeminars
