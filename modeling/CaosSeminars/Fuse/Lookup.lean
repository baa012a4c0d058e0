import CaosSeminars.Fuse.Spelling

/-!
# Which documents lose nothing

Keys go into `os.path.join` unchecked, though the other branch of `_build_tree`
makes one safe component of every index.  A key with a slash in it, an empty one,
or one that starts with a slash gives a path that looks like that of another
position, and a name that no kernel accepts.

* `Kept` says what one expects of the mounted document: the constructor returns,
  every scalar can be read by walking from `'/'` through names that `readdir`
  returns, no two scalars are stored under one path, and no listing is overwritten
  by another.
* `Unambiguous` is a condition on the keys.  Positions along components are never
  confused, so it is about the others: a container with a bad key on its way must
  not spell what another container spells, and a scalar with a bad key is found by
  chance only, when its keys, cut at their slashes, are those of a container.
* `kept_iff_unambiguous`: the first holds exactly for the documents of the second.
* `PathsApart` stands between the two, in terms of the paths that `os.path.join`
  makes of positions (`kept_iff_pathsApart`, `pathsApart_iff_unambiguous`).

The walk goes through the document in step with the file system: as long as
listings are not overwritten, the directory a kernel has reached is the path of a
container whose keys and indices are the names taken (`visits_position`).

The longest name that the kernel takes is a parameter, `nameMax`, in bytes.

* `visits_storedPath`, `visits_position` --- the two directions of that walk.
* `PathsApart.kept`, `Kept.pathsApart` --- the first equivalence; `Unambiguous.pathsApart`,
  `PathsApart.unambiguous` --- the second one.
-/

namespace CaosSeminars
namespace Fuse

variable {nameMax : ℕ} {v w c : Json} {s t : Step} {p q r : List Step} {x : Scalar} {fs : JsonFs}
  {dir name path : PyStr} {content : List UInt8}

/-! ## What a kernel can reach -/

/-- A name that a kernel takes as one component of a path: it has bytes, not too many and
none of them a slash or a NUL, and is not `.` or `..`, which the kernel resolves itself. -/
structure Component (nameMax : ℕ) (name : PyStr) : Prop extends Plain name where
  noNul : 0 ∉ name
  ne_dot : name ≠ dot
  ne_dotdot : name ≠ dotdot
  bytes : ∃ bs, encode name = some bs ∧ bs.length ≤ nameMax

/-- The directories that a kernel reaches from `'/'`, one name of a listing at a
time. -/
inductive Visits (nameMax : ℕ) (fs : JsonFs) : PyStr → Prop
  | root : fs.getattr [slash] = .ok Attr.dir → Visits nameMax fs [slash]
  | enter {dir name : PyStr} : Visits nameMax fs dir → name ∈ fs.readdir dir →
      Component nameMax name → fs.getattr (below dir name) = .ok Attr.dir →
      Visits nameMax fs (below dir name)

/-- A kernel reaches a file at `path`, and reads `content` from it. -/
def Reads (nameMax : ℕ) (fs : JsonFs) (path : PyStr) (content : List UInt8) : Prop :=
  ∃ dir name, Visits nameMax fs dir ∧ name ∈ fs.readdir dir ∧ Component nameMax name ∧
    path = below dir name ∧ fs.getattr path = .ok (Attr.file content.length) ∧
    ∀ size, content.length ≤ size → fs.read path size 0 = .ok content

/-- **The mounted document loses nothing.** -/
def Kept (nameMax : ℕ) (doc : Document) : Prop :=
  ∃ fs, JsonFs.new doc.value = some fs ∧
    (∀ p x, doc.value.get? p = some (.scalar x) →
      ∃ content, encode x.str = some content ∧ Reads nameMax fs (storedPath p) content) ∧
    fs.stored.Nodup ∧ fs.listed.Nodup

/-! ## The documents for which this is so -/

/-- Every key and every index on the way to a position is one component. -/
def Proper (nameMax : ℕ) (p : List Step) : Prop := ∀ s ∈ p, Component nameMax s.name

/-- The root is a container, no string holds a surrogate, and the keys that are no components
do no harm.  A container with such a key on its way does not spell what another container
spells.  A scalar with such a key on its way spells the names of a container along components,
and no other scalar spells these names, nor more names behind them. -/
structure Unambiguous (nameMax : ℕ) (v : Json) : Prop where
  root : v.isContainer
  strings : v.NoSurrogates
  containers : ∀ p q w w', v.get? p = some w → v.get? q = some w' → w.isContainer →
    w'.isContainer → ¬Proper nameMax p → spelled p = spelled q → p = q
  scalars : ∀ p x, v.get? p = some (.scalar x) → ¬Proper nameMax p →
    (∃ q w, v.get? q = some w ∧ w.isContainer ∧ Proper nameMax q ∧
      spelled p = q.map Step.name) ∧
    ∀ p' x', v.get? p' = some (.scalar x') → spelled p <+: spelled p' → p' = p

/-- No scalar is stored under the path of the position. -/
def Unshadowed (v : Json) (p : List Step) : Prop :=
  ∀ q x, v.get? q = some (.scalar x) → storedPath q ≠ storedPath p

/-- In terms of paths: different scalars have different ones, and so have different
containers; and the path of each scalar is that of a position along components, below
containers whose paths are not those of scalars. -/
structure PathsApart (nameMax : ℕ) (v : Json) : Prop where
  root : v.isContainer
  strings : v.NoSurrogates
  scalars : ∀ p q x y, v.get? p = some (.scalar x) → v.get? q = some (.scalar y) →
    storedPath p = storedPath q → p = q
  containers : ∀ p q w w', v.get? p = some w → v.get? q = some w' → w.isContainer →
    w'.isContainer → storedPath p = storedPath q → p = q
  reached : ∀ p x, v.get? p = some (.scalar x) → ∃ q s, (v.get? (q ++ [s])).isSome ∧
    Proper nameMax (q ++ [s]) ∧ storedPath (q ++ [s]) = storedPath p ∧
    ∀ r, r <+: q → Unshadowed v r

theorem Proper.plain (h : Proper nameMax p) : ∀ s ∈ p, Plain s.name :=
  fun s hs => (h s hs).toPlain

theorem Proper.append_left (h : Proper nameMax (p ++ q)) : Proper nameMax p :=
  fun s hs => h s (List.mem_append_left q hs)

theorem Proper.mono (h : Proper nameMax q) (hp : p <+: q) : Proper nameMax p :=
  fun s hs => h s (hp.subset hs)

/-! ## Histories and positions -/

theorem isSome_content? (h : (content? v).isSome) : ∃ x, v = .scalar x := by
  cases v with
  | scalar x => exact ⟨x, rfl⟩
  | _ => exact absurd h (by simp [content?])

theorem isSome_listing? : (listing? v).isSome ↔ v.isContainer := by
  simp [listing?]

theorem nodup_stored (h : v.Distinct) (hencode : ∀ n ∈ v.nodes, Encodable n.2) :
    (built v).stored.Nodup ↔ ∀ p q x y, v.get? p = some (.scalar x) →
      v.get? q = some (.scalar y) → storedPath p = storedPath q → p = q := by
  refine (nodup_writesOf (f := content?) (Json.nodup_nodes h)).trans ?_
  simp only [Json.mem_nodes_iff h]
  constructor
  · intro hinj p q x y hp hq heq
    exact hinj p q _ _ hp hq (hencode _ ((Json.mem_nodes_iff h).mpr hp))
      (hencode _ ((Json.mem_nodes_iff h).mpr hq)) heq
  · intro hinj p q v w hp hq hv hw heq
    obtain ⟨x, rfl⟩ := isSome_content? hv
    obtain ⟨y, rfl⟩ := isSome_content? hw
    exact hinj p q x y hp hq heq

/-- No listing is overwritten exactly when different containers have different
paths. -/
theorem nodup_listed (h : v.Distinct) :
    (built v).listed.Nodup ↔ ∀ p q w w', v.get? p = some w → v.get? q = some w' →
      w.isContainer → w'.isContainer → storedPath p = storedPath q → p = q := by
  refine (nodup_writesOf (f := listing?) (Json.nodup_nodes h)).trans ?_
  simp only [Json.mem_nodes_iff h, isSome_listing?]
  rfl

/-- What has a member is a container. -/
theorem isContainer_of_branch (h : (s, c) ∈ v.branches) : v.isContainer := by
  cases v with
  | scalar x => exact absurd h List.not_mem_nil
  | _ => rfl

/-- On the way to a position there are containers. -/
theorem branch_of_prefix (h : (v.get? (r ++ t :: p)).isSome) :
    ∃ w c, v.get? r = some w ∧ (t, c) ∈ w.branches := by
  obtain ⟨u, hu⟩ := Option.isSome_iff_exists.mp h
  rw [Json.get?_append] at hu
  obtain ⟨w, hw, hrest⟩ := Option.bind_eq_some_iff.mp hu
  obtain ⟨c, hc, -⟩ := Option.bind_eq_some_iff.mp hrest
  exact ⟨w, c, hw, Json.mem_branches_of_child? hc⟩

/-- The path of a member, along components. -/
theorem below_storedPath (h : Proper nameMax (p ++ [s])) :
    below (storedPath p) s.name = storedPath (p ++ [s]) := by
  rw [storedPath_eq h.plain, storedPath_eq h.append_left.plain, List.map_append]
  exact below_slashJoin (List.forall_mem_map.mpr h.append_left.plain)

/-- `getattr` says directory where there is a listing and no file. -/
theorem getattr_dir_iff :
    fs.getattr path = .ok Attr.dir ↔ fs.files path = none ∧ (fs.dirs path).isSome := by
  rw [JsonFs.getattr]
  rcases fs.files path with _ | content
  · rcases fs.dirs path with _ | names <;> simp
  · simp [Attr.file, Attr.dir]

/-- The path of a position is not a file exactly when no scalar is stored there. -/
theorem files_eq_none_iff (h : v.Distinct) (hencode : ∀ n ∈ v.nodes, Encodable n.2) :
    (built v).files (storedPath p) = none ↔ Unshadowed v p := by
  constructor
  · intro hnone q x hq heq
    obtain ⟨content, hcontent⟩ :=
      Option.isSome_iff_exists.mp (hencode _ ((Json.mem_nodes_iff h).mpr hq))
    have hsome := isSome_files_built h hq hcontent
    rw [heq, hnone] at hsome
    exact absurd hsome (by simp)
  · intro hfree
    by_contra hne
    obtain ⟨content, hfound⟩ := Option.ne_none_iff_exists'.mp hne
    obtain ⟨q, x, hq, -, heq⟩ := files_built h hfound
    exact hfree q x hq heq

/-! ## From the document to the kernel -/

/-- The kernel follows components through unshadowed containers. -/
theorem visits_storedPath (hd : v.Distinct) (hv : PathsApart nameMax v)
    (hsome : (v.get? (q ++ [s])).isSome) (hnames : Proper nameMax (q ++ [s]))
    (hfree : ∀ r, r <+: q → Unshadowed v r) : Visits nameMax (built v) (storedPath q) := by
  have hencode := encodable_of_noSurrogates hd hv.strings
  have hlisted := (nodup_listed hd).mpr hv.containers
  -- every initial part of the way is a container that `getattr` reports as such
  have hdir : ∀ r u rest, r ++ u :: rest = q ++ [s] → r <+: q →
      (built v).getattr (storedPath r) = .ok Attr.dir := by
    intro r u rest heq hr
    obtain ⟨w, c, hw, hc⟩ := branch_of_prefix (heq ▸ hsome)
    exact getattr_dir_iff.mpr ⟨(files_eq_none_iff hd hencode).mpr (hfree r hr),
      isSome_dirs_built hd hw (isContainer_of_branch hc)⟩
  have hvisit : ∀ r, r <+: q → Visits nameMax (built v) (storedPath r) := by
    intro r
    induction r using List.reverseRecOn with
    | nil =>
      intro hr
      obtain ⟨u, rest, hrest⟩ := List.exists_cons_of_ne_nil (l := q ++ [s]) (by simp)
      exact Visits.root (hdir [] u rest hrest.symm hr)
    | append_singleton r t ih =>
      intro hr
      have hr' : r <+: q := (List.prefix_append r [t]).trans hr
      obtain ⟨rest, hrest⟩ := hr
      have hcons : r ++ t :: (rest ++ [s]) = q ++ [s] := by
        rw [← hrest]
        simp
      obtain ⟨w, c, hw, hc⟩ := branch_of_prefix (hcons ▸ hsome)
      have hrt : Proper nameMax (r ++ [t]) := hnames.append_left.mono ⟨rest, hrest⟩
      have hlist := dirs_built_of_nodup hd hlisted hw (isContainer_of_branch hc)
      have hname : t.name ∈ (built v).readdir (storedPath r) := by
        rw [JsonFs.readdir, hlist]
        exact List.mem_append_right _ (List.mem_map.mpr ⟨(t, c), hc, rfl⟩)
      obtain ⟨u, rest', hrest'⟩ := List.exists_cons_of_ne_nil (l := rest ++ [s]) (by simp)
      have hnext : (r ++ [t]) ++ u :: rest' = q ++ [s] := by
        rw [← hrest', ← hcons]
        simp
      have hget := hdir (r ++ [t]) u rest' hnext ⟨rest, hrest⟩
      rw [← below_storedPath hrt] at hget ⊢
      exact Visits.enter (ih hr') hname (hrt t (by simp)) hget
  exact hvisit q List.prefix_rfl

/-- **A document with paths apart is kept.** -/
theorem PathsApart.kept {doc : Document} (h : PathsApart nameMax doc.value) :
    Kept nameMax doc := by
  have hd := doc.distinct
  have hencode := encodable_of_noSurrogates hd h.strings
  have hstored := (nodup_stored hd hencode).mpr h.scalars
  have hlisted := (nodup_listed hd).mpr h.containers
  refine ⟨built doc.value, new_eq h.root hencode, fun p x hp => ?_, hstored, hlisted⟩
  obtain ⟨content, hcontent⟩ :=
    Option.isSome_iff_exists.mp (hencode _ ((Json.mem_nodes_iff hd).mpr hp))
  have hfile := files_built_of_nodup hd hstored hp hcontent
  obtain ⟨q, s, hsome, hnames, heq, hfree⟩ := h.reached p x hp
  obtain ⟨w, c, hw, hc⟩ := branch_of_prefix hsome
  have hlist := dirs_built_of_nodup hd hlisted hw (isContainer_of_branch hc)
  refine ⟨content, hcontent, storedPath q, s.name, visits_storedPath hd h hsome hnames hfree,
    ?_, hnames s (by simp), ?_, ?_, fun size hsize => ?_⟩
  · rw [JsonFs.readdir, hlist]
    exact List.mem_append_right _ (List.mem_map.mpr ⟨(s, c), hc, rfl⟩)
  · rw [below_storedPath hnames, heq]
  · simp [JsonFs.getattr, hfile]
  · rw [read_eq hfile, List.drop_zero, List.take_of_length_le hsize]

/-! ## From the kernel to the document -/

/-- A name of a listing, `.` and `..` aside, is that of a member. -/
theorem branch_of_mem_readdir (hd : v.Distinct) (hlisted : (built v).listed.Nodup)
    (hw : v.get? q = some w) (hcontainer : w.isContainer) (hname : Component nameMax name)
    (hmem : name ∈ (built v).readdir (storedPath q)) :
    ∃ s c, (s, c) ∈ w.branches ∧ s.name = name := by
  rw [JsonFs.readdir, dirs_built_of_nodup hd hlisted hw hcontainer] at hmem
  rcases List.mem_append.mp hmem with hdots | hentry
  · rcases List.mem_cons.mp hdots with hdot | hrest
    · exact absurd hdot hname.ne_dot
    · exact absurd (List.mem_singleton.mp hrest) hname.ne_dotdot
  · obtain ⟨⟨s, c⟩, hbranch, hs⟩ := List.mem_map.mp hentry
    exact ⟨s, c, hbranch, hs⟩

/-- **The kernel walks through the document**: the directory it has reached is the
path of a container, along components and unshadowed containers. -/
theorem visits_position (hd : v.Distinct) (hv : v.isContainer)
    (hencode : ∀ n ∈ v.nodes, Encodable n.2) (hlisted : (built v).listed.Nodup)
    (h : Visits nameMax (built v) dir) :
    ∃ q w, v.get? q = some w ∧ w.isContainer ∧ Proper nameMax q ∧
      storedPath q = dir ∧ ∀ r, r <+: q → Unshadowed v r := by
  induction h with
  | root hattr =>
    refine ⟨[], v, rfl, hv, List.forall_mem_nil _, rfl, fun r hr => ?_⟩
    obtain rfl := List.prefix_nil.mp hr
    exact (files_eq_none_iff hd hencode).mp (getattr_dir_iff.mp hattr).1
  | @enter dir name _ hmem hname hattr ih =>
    obtain ⟨q, w, hw, hcontainer, hnames, rfl, hfree⟩ := ih
    obtain ⟨s, c, hbranch, rfl⟩ := branch_of_mem_readdir hd hlisted hw hcontainer hname hmem
    have hpos := get?_snoc hd hw hbranch
    have hnames' : Proper nameMax (q ++ [s]) :=
      List.forall_mem_append.mpr ⟨hnames, List.forall_mem_singleton.mpr hname⟩
    rw [below_storedPath hnames'] at hattr ⊢
    have hfree' := (files_eq_none_iff hd hencode).mp (getattr_dir_iff.mp hattr).1
    refine ⟨q ++ [s], c, hpos, ?_, hnames', rfl, fun r hr => ?_⟩
    · cases c with
      | scalar x => exact absurd rfl (hfree' _ x hpos)
      | _ => rfl
    · rcases List.prefix_concat_iff.mp hr with rfl | hr
      · exact hfree'
      · exact hfree r hr

theorem Kept.pathsApart {doc : Document} (h : Kept nameMax doc) :
    PathsApart nameMax doc.value := by
  obtain ⟨fs, hnew, hreads, hstored, hlisted⟩ := h
  have hd := doc.distinct
  have hroot : doc.value.isContainer := by
    by_contra hnot
    -- a scalar at the root is stored nowhere
    rcases hvalue : doc.value with x | _ | _
    · rw [hvalue] at hnew
      obtain rfl := Option.some.inj hnew
      obtain ⟨content, -, dir, name, -, -, -, -, -, hread⟩ := hreads [] x (by rw [hvalue]; rfl)
      exact absurd (hread content.length le_rfl) (by simp [JsonFs.read, JsonFs.empty])
    all_goals exact hnot (by rw [hvalue]; rfl)
  have hencode := encodable_of_new hroot hnew
  rw [new_eq hroot hencode] at hnew
  obtain rfl := Option.some.inj hnew
  refine ⟨hroot, fun p str hp => ?_, (nodup_stored hd hencode).mp hstored,
    (nodup_listed hd).mp hlisted, fun p x hp => ?_⟩
  · exact isSome_encode_str.mp (hencode _ ((Json.mem_nodes_iff hd).mpr hp)) str rfl
  · obtain ⟨content, -, dir, name, hvisits, hmem, hname, hpath, -, -⟩ := hreads p x hp
    obtain ⟨q, w, hw, hcontainer, hnames, rfl, hfree⟩ :=
      visits_position hd hroot hencode hlisted hvisits
    obtain ⟨s, c, hbranch, rfl⟩ := branch_of_mem_readdir hd hlisted hw hcontainer hname hmem
    have hnames' : Proper nameMax (q ++ [s]) :=
      List.forall_mem_append.mpr ⟨hnames, List.forall_mem_singleton.mpr hname⟩
    refine ⟨q, s, ?_, hnames', ?_, hfree⟩
    · rw [get?_snoc hd hw hbranch]
      rfl
    · rw [hpath, below_storedPath hnames']

theorem kept_iff_pathsApart (doc : Document) : Kept nameMax doc ↔ PathsApart nameMax doc.value :=
  ⟨Kept.pathsApart, PathsApart.kept⟩

/-! ## From paths to keys -/

theorem Proper.eq_of_spelled (hp : Proper nameMax p) (hq : Proper nameMax q)
    (hsome : (v.get? p).isSome) (hsome' : (v.get? q).isSome) (h : spelled p = spelled q) :
    p = q :=
  Fuse.eq_of_spelled hsome hsome' hp.plain hq.plain h

theorem isSome_above (h : (v.get? q).isSome) (hp : p <+: q) : (v.get? p).isSome := by
  obtain ⟨r, rfl⟩ := hp
  rw [Json.get?_append] at h
  exact Option.isSome_of_isSome_bind h

theorem not_scalar_above (h : (v.get? (q ++ [s])).isSome) (hr : r <+: q) :
    v.get? r ≠ some (.scalar x) := by
  obtain ⟨l, rfl⟩ := hr
  obtain ⟨u, rest, hrest⟩ := List.exists_cons_of_ne_nil (l := l ++ [s]) (by simp)
  rw [List.append_assoc, hrest] at h
  obtain ⟨w, c, hw, hc⟩ := branch_of_prefix h
  rw [hw]
  rintro ⟨rfl⟩
  exact absurd hc List.not_mem_nil

/-- In an unambiguous document no scalar is stored above the proper position that another one
spells: it would be found at a container there, whose names those of the position continue. -/
theorem Unambiguous.unshadowed (h : Unambiguous nameMax v) (hp : v.get? p = some (.scalar x))
    (hsome : (v.get? (q ++ [s])).isSome) (hnames : Proper nameMax (q ++ [s]))
    (hspelled : spelled p = (q ++ [s]).map Step.name) (hr : r <+: q) : Unshadowed v r := by
  intro p' x' hp' heq
  have heq' := storedPath_eq_iff.mp heq
  have hrsome : (v.get? r).isSome :=
    isSome_above hsome (hr.trans (List.prefix_append q [s]))
  have hrnames : Proper nameMax r := hnames.append_left.mono hr
  by_cases hproper : Proper nameMax p'
  · obtain rfl :=
      hproper.eq_of_spelled hrnames (Option.isSome_of_eq_some hp') hrsome heq'
    exact not_scalar_above hsome hr hp'
  · obtain ⟨⟨q', w, hq', -, hnames', hspelled'⟩, hother⟩ := h.scalars p' x' hp' hproper
    have hne : r ≠ [] := by
      rintro rfl
      -- the root spells one empty name, which is no component
      have hempty : q'.map Step.name = [[]] := hspelled'.symm.trans heq'
      obtain ⟨s', hs', hs''⟩ := List.mem_map.mp (hempty ▸ List.mem_singleton_self ([] : PyStr))
      exact (hnames' s' hs').ne_nil hs''
    have hrspelled := heq'.trans (spelled_plain hrnames.plain hne)
    have hpre : spelled p' <+: spelled p := by
      rw [hrspelled, hspelled]
      exact (hr.trans (List.prefix_append q [s])).map Step.name
    obtain rfl := hother p x hp hpre
    -- but then the position is as long as what is above it
    have hlen := congrArg List.length (hspelled.symm.trans hrspelled)
    have hle := hr.length_le
    rw [List.length_map, List.length_map, List.length_append, List.length_singleton] at hlen
    omega

/-- **An unambiguous document has its paths apart.** -/
theorem Unambiguous.pathsApart (h : Unambiguous nameMax v) : PathsApart nameMax v where
  root := h.root
  strings := h.strings
  scalars := by
    intro p q x y hp hq heq
    have heq' := storedPath_eq_iff.mp heq
    by_cases hp' : Proper nameMax p
    · by_cases hq' : Proper nameMax q
      · exact hp'.eq_of_spelled hq' (Option.isSome_of_eq_some hp) (Option.isSome_of_eq_some hq) heq'
      · exact (h.scalars q y hq hq').2 p x hp (heq' ▸ List.prefix_rfl)
    · exact ((h.scalars p x hp hp').2 q y hq (heq' ▸ List.prefix_rfl)).symm
  containers := by
    intro p q w w' hp hq hw hw' heq
    have heq' := storedPath_eq_iff.mp heq
    by_cases hp' : Proper nameMax p
    · by_cases hq' : Proper nameMax q
      · exact hp'.eq_of_spelled hq' (Option.isSome_of_eq_some hp) (Option.isSome_of_eq_some hq) heq'
      · exact (h.containers q p w' w hq hp hw' hw hq' heq'.symm).symm
    · exact h.containers p q w w' hp hq hw hw' hp' heq'
  reached := by
    intro p x hp
    -- a proper scalar spells itself, another one a container
    obtain ⟨q, hsome, hnames, hspelled⟩ :
        ∃ q, (v.get? q).isSome ∧ Proper nameMax q ∧ spelled p = q.map Step.name := by
      by_cases hp' : Proper nameMax p
      · refine ⟨p, Option.isSome_of_eq_some hp, hp', spelled_plain hp'.plain ?_⟩
        rintro rfl
        obtain rfl := Option.some.inj hp
        exact absurd h.root Bool.false_ne_true
      · obtain ⟨⟨q, w, hq, -, hnames, hspelled⟩, -⟩ := h.scalars p x hp hp'
        exact ⟨q, Option.isSome_of_eq_some hq, hnames, hspelled⟩
    rcases List.eq_nil_or_concat' q with rfl | ⟨q, s, rfl⟩
    · exact absurd hspelled (spelled_ne_nil p)
    · refine ⟨q, s, hsome, hnames, storedPath_eq_iff.mpr ?_, fun r hr =>
        h.unshadowed hp hsome hnames hspelled hr⟩
      rw [hspelled, spelled_plain hnames.plain (by simp)]

theorem PathsApart.unambiguous (h : PathsApart nameMax v) : Unambiguous nameMax v where
  root := h.root
  strings := h.strings
  containers := fun p q w w' hp hq hw hw' _ heq =>
    h.containers p q w w' hp hq hw hw' (storedPath_eq_iff.mpr heq)
  scalars := by
    intro p x hp hproper
    obtain ⟨q, s, hsome, hnames, heq, -⟩ := h.reached p x hp
    have hspelled := spelled_plain hnames.plain (by simp)
    obtain ⟨w, hw⟩ := Option.isSome_iff_exists.mp hsome
    have hcontainer : w.isContainer := by
      cases w with
      | scalar y =>
        obtain rfl := h.scalars p (q ++ [s]) x y hp hw heq.symm
        exact absurd hnames hproper
      | _ => rfl
    have hp' : spelled p = (q ++ [s]).map Step.name :=
      (storedPath_eq_iff.mp heq).symm.trans hspelled
    refine ⟨⟨q ++ [s], w, hw, hcontainer, hnames, hp'⟩, fun p' x' hscalar hpre => ?_⟩
    -- the names that the other one spells lead through the container
    obtain ⟨q', s', hsome', hnames', heq', hfree⟩ := h.reached p' x' hscalar
    have hother : spelled p' = (q' ++ [s']).map Step.name :=
      (storedPath_eq_iff.mp heq').symm.trans
        (spelled_plain hnames'.plain (by simp))
    rw [hp', hother] at hpre
    obtain ⟨l, hl, hnamesEq⟩ := List.prefix_map_iff.mp hpre
    have hl' : l = q ++ [s] :=
      (position_eq_of_names hsome (isSome_above hsome' hl) hnamesEq).symm
    subst hl'
    rcases List.prefix_concat_iff.mp hl with hsame | habove
    · refine h.scalars p' p x' x hscalar hp (heq'.symm.trans ?_)
      rw [← hsame, heq]
    · exact absurd heq.symm (hfree _ habove p x hp)

theorem pathsApart_iff_unambiguous : PathsApart nameMax v ↔ Unambiguous nameMax v :=
  ⟨PathsApart.unambiguous, Unambiguous.pathsApart⟩

/-- **Which documents lose nothing.**  The mounted document keeps every scalar
readable from `'/'`, stores no two under one path and overwrites no listing
exactly when it is unambiguous. -/
theorem kept_iff_unambiguous (nameMax : ℕ) (doc : Document) :
    Kept nameMax doc ↔ Unambiguous nameMax doc.value :=
  (kept_iff_pathsApart doc).trans pathsApart_iff_unambiguous

/-- With plain keys nothing is confused, and what is left of the condition is that the names
on the way to the scalars are components. -/
theorem kept_iff_of_plainKeys {doc : Document} (hkeys : doc.value.PlainKeys) :
    Kept nameMax doc ↔ doc.value.isContainer ∧ doc.value.NoSurrogates ∧
      ∀ p x, doc.value.get? p = some (.scalar x) → Proper nameMax p := by
  refine (kept_iff_pathsApart doc).trans (pathsApart_iff_unambiguous.trans ⟨fun h => ?_, ?_⟩)
  · refine ⟨h.root, h.strings, fun p x hp => ?_⟩
    by_contra hproper
    obtain ⟨⟨q, w, hq, -, hnames, hspelled⟩, -⟩ := h.scalars p x hp hproper
    have hne : p ≠ [] := by
      rintro rfl
      exact hproper (List.forall_mem_nil _)
    rw [spelled_plain (plain_names hkeys hp) hne] at hspelled
    obtain rfl := position_eq_of_names (Option.isSome_of_eq_some hp)
      (Option.isSome_of_eq_some hq) hspelled
    exact hproper hnames
  · rintro ⟨hroot, hstrings, hscalars⟩
    refine ⟨hroot, hstrings, fun p q w w' hp hq _ _ _ heq => ?_, fun p x hp hproper => ?_⟩
    · exact eq_of_spelled (Option.isSome_of_eq_some hp) (Option.isSome_of_eq_some hq)
        (plain_names hkeys hp) (plain_names hkeys hq) heq
    · exact absurd (hscalars p x hp) hproper

/-- `{"a/b": 1, "a": {"b": 2}}`. -/
def collidingValue : Json :=
  .obj [(pyStr ['a', '/', 'b'], .scalar (.int 1)),
    (pyStr ['a'], .obj [(pyStr ['b'], .scalar (.int 2))])]

/-- `{"a/b": 1, "a": {"b": 2}}` as a document. -/
def collidingDocument : Document where
  value := collidingValue
  distinct := by
    intro p entries h
    have hmem := Json.mem_nodes_of_get? h
    simp only [collidingValue, Json.nodes, Json.nodesOfEntries, Json.under, List.map_cons,
      List.map_nil, List.append_nil, List.singleton_append, List.mem_cons, Prod.mk.injEq,
      reduceCtorEq, and_false, false_or, List.not_mem_nil, or_false] at hmem
    rcases hmem with ⟨-, heq⟩ | ⟨-, heq⟩
    · obtain rfl := Json.obj.inj heq
      decide
    · obtain rfl := Json.obj.inj heq
      decide

/-- **Two scalars of the document are stored under `/a/b`**, and the first is
overwritten. -/
theorem not_kept_collidingDocument :
    ¬Kept 1024 collidingDocument ∧
      (JsonFs.new collidingDocument.value).map (fun fs => fs.stored) =
        some [pyStr ['/', 'a', '/', 'b'], pyStr ['/', 'a', '/', 'b']] ∧
      (JsonFs.new collidingDocument.value).bind (fun fs => fs.files (pyStr ['/', 'a', '/', 'b'])) =
        encode (pyStr ['2']) := by
  have hstored : (JsonFs.new collidingDocument.value).map (fun fs => fs.stored) =
      some [pyStr ['/', 'a', '/', 'b'], pyStr ['/', 'a', '/', 'b']] := by
    decide +kernel
  refine ⟨?_, hstored, by decide +kernel⟩
  rintro ⟨fs, hnew, -, hnodup, -⟩
  rw [hnew, Option.map_some] at hstored
  rw [Option.some.inj hstored] at hnodup
  exact absurd hnodup (by decide)

end Fuse
end CaosSeminars
