import CaosSeminars.Fuse.Built

/-!
# Documents with plain keys are represented faithfully

When every key is a plain name, the path of a position is its keys and indices
behind a slash each, so different positions have different paths: nothing is
overwritten, every node's assignment is found, and a path is a file or a
directory according to the value there.  The three operations then agree about
every path, and every name that `readdir` adds resolves.

* `storedPath_injective` --- different positions have different paths.
* `JsonFs.Agree` --- the three operations agree about a path: a file has its size and its
  content and no entries, a directory has entries each of which resolves, and of anything else
  `getattr` and `read` raise `ENOENT`.
* `jsonFs_represents_document` --- for every container with plain keys and no surrogates: the
  constructor returns, the operations agree about every path, and what is found at the path of
  a position is what the document has there.
-/

namespace CaosSeminars
namespace Fuse

variable {v w c : Json} {s t : Step} {p q : List Step} {x : Scalar}

namespace Json

/-- Every object key is a plain name, at any depth. -/
def PlainKeys (v : Json) : Prop := ∀ p w, v.get? p = some w → ∀ k, Step.key k ∈ p → Plain k

/-- No string value holds a surrogate. -/
def NoSurrogates (v : Json) : Prop :=
  ∀ p str, v.get? p = some (.scalar (.string str)) → ∀ c ∈ str, ¬surrogate c

end Json

/-! ## Scalars can be encoded -/

theorem isSome_encode_str :
    (encode x.str).isSome ↔ ∀ str, x = .string str → ∀ c ∈ str, ¬surrogate c := by
  have hascii : ∀ {l : PyStr}, (∀ c ∈ l, c.val < 0x80) → (encode l).isSome := fun h =>
    isSome_encode.mpr fun c hc hs => absurd hs.1 (by have hlt := h c hc; omega)
  have hdigits : ∀ n, ∀ c ∈ strNat n, c.val < 0x80 := fun n c hc => by
    have hlt := (mem_strNat hc).2
    omega
  cases x with
  | null => exact iff_of_true (by decide +kernel) (by simp)
  | bool b => cases b <;> exact iff_of_true (by decide +kernel) (by simp)
  | int n =>
    refine iff_of_true (hascii ?_) (by simp)
    show ∀ c ∈ if n < 0 then pyStr ['-'] ++ strNat n.natAbs else strNat n.natAbs, c.val < 0x80
    split
    · exact List.forall_mem_append.mpr ⟨List.forall_mem_singleton.mpr (by decide), hdigits _⟩
    · exact hdigits _
  | float y => exact iff_of_true (hascii y.ascii) (by simp)
  | string str => simp [Scalar.str, isSome_encode]

theorem encodable_of_noSurrogates (h : v.Distinct) (hstrings : v.NoSurrogates) :
    ∀ n ∈ v.nodes, Encodable n.2 := by
  rintro ⟨p, w⟩ hmem
  have hp := (Json.mem_nodes_iff h).mp hmem
  cases w with
  | scalar x =>
    refine isSome_encode_str.mpr fun str hx => hstrings p str ?_
    rw [hp, hx]
  | _ => trivial

/-! ## Plain positions -/

/-- A walk along plain names puts each of them behind a slash. -/
theorem walk_slashJoin {names : List PyStr} (hnames : ∀ n ∈ names, Plain n)
    (h : ∀ s ∈ p, Plain s.name) :
    walk (slashJoin names) p = slashJoin (names ++ p.map Step.name) := by
  induction p generalizing names with
  | nil =>
    rw [List.map_nil, List.append_nil]
    rfl
  | cons s p ih =>
    obtain ⟨hs, hp⟩ := List.forall_mem_cons.mp h
    rw [walk_cons, joinPath_slashJoin hnames hs, ih ?_ hp, List.append_assoc]
    · rfl
    · exact List.forall_mem_append.mpr ⟨hnames, List.forall_mem_singleton.mpr hs⟩

/-- Along plain names the path of a position is its names behind a slash each. -/
theorem storedPath_eq (h : ∀ s ∈ p, Plain s.name) :
    storedPath p = slashJoin (p.map Step.name) :=
  walk_slashJoin (List.forall_mem_nil _) h

/-- Two members of a container have different names. -/
theorem step_eq_of_name (hs : (v.child? s).isSome) (ht : (v.child? t).isSome)
    (h : s.name = t.name) : s = t := by
  cases v with
  | scalar x => exact absurd hs (by simp [Json.child?])
  | arr items =>
    cases s with
    | key k => exact absurd hs (by simp [Json.child?])
    | index i =>
      cases t with
      | key k => exact absurd ht (by simp [Json.child?])
      | index j => exact congrArg Step.index (strNat_injective h)
  | obj entries =>
    cases s with
    | index i => exact absurd hs (by simp [Json.child?])
    | key k =>
      cases t with
      | index j => exact absurd ht (by simp [Json.child?])
      | key l => exact congrArg Step.key h

theorem position_eq_of_names (hp : (v.get? p).isSome) (hq : (v.get? q).isSome)
    (h : p.map Step.name = q.map Step.name) : p = q := by
  induction p generalizing v q with
  | nil => exact (List.map_eq_nil_iff.mp h.symm).symm
  | cons s p ih =>
    cases q with
    | nil => exact absurd h (by simp)
    | cons t q =>
      obtain ⟨hname, hrest⟩ := List.cons.inj h
      obtain ⟨w, hw⟩ := Option.isSome_iff_exists.mp hp
      obtain ⟨w', hw'⟩ := Option.isSome_iff_exists.mp hq
      obtain ⟨c, hc, hcp⟩ := Option.bind_eq_some_iff.mp hw
      obtain ⟨c', hc', hcq⟩ := Option.bind_eq_some_iff.mp hw'
      obtain rfl :=
        step_eq_of_name (Option.isSome_of_eq_some hc) (Option.isSome_of_eq_some hc') hname
      rw [hc] at hc'
      obtain rfl := Option.some.inj hc'
      rw [ih (Option.isSome_of_eq_some hcp) (Option.isSome_of_eq_some hcq) hrest]

theorem plain_names (h : v.PlainKeys) (hp : v.get? p = some w) : ∀ s ∈ p, Plain s.name := by
  intro s hs
  cases s with
  | key k => exact h p w hp k hs
  | index i => exact plain_strNat i

/-- **With plain keys different positions have different paths.** -/
theorem storedPath_injective {w' : Json} (h : v.PlainKeys) (hp : v.get? p = some w)
    (hq : v.get? q = some w') (heq : storedPath p = storedPath q) : p = q := by
  have hplain := plain_names h hp
  have hplain' := plain_names h hq
  rw [storedPath_eq hplain, storedPath_eq hplain'] at heq
  exact position_eq_of_names (Option.isSome_of_eq_some hp) (Option.isSome_of_eq_some hq)
    (slashJoin_injective (List.forall_mem_map.mpr hplain) (List.forall_mem_map.mpr hplain') heq)

theorem nodup_writes {β : Type*} (f : Json → Option β) (h : v.Distinct) (hkeys : v.PlainKeys) :
    ((writesOf f [slash] v.nodes).map Prod.fst).Nodup :=
  (nodup_writesOf (Json.nodup_nodes h)).mpr fun _ _ _ _ hp hq _ _ heq =>
    storedPath_injective hkeys ((Json.mem_nodes_iff h).mp hp) ((Json.mem_nodes_iff h).mp hq) heq

theorem get?_snoc (h : v.Distinct) (hp : v.get? p = some w) (hbranch : (s, c) ∈ w.branches) :
    v.get? (p ++ [s]) = some c := by
  have hw : w.Distinct := h.at_position hp
  rw [Json.get?_append, hp, Option.bind_some, Json.get?, (Json.child?_eq_some_iff hw).mpr hbranch]
  rfl

/-! ## The operations agree -/

/-- What `getattr`, `read` and `readdir` say about a path. -/
structure JsonFs.Agree (fs : JsonFs) (path : PyStr) : Prop where
  /-- A file has its size and its content, and no entries. -/
  file : ∀ content, fs.files path = some content →
    fs.getattr path = .ok (Attr.file content.length) ∧
    (∀ size offset, fs.read path size offset = .ok ((content.drop offset).take size)) ∧
    fs.readdir path = [dot, dotdot]
  /-- A directory has entries, and each of them resolves. -/
  dir : ∀ names, fs.dirs path = some names →
    fs.getattr path = .ok Attr.dir ∧
    (∀ size offset, fs.read path size offset = .error .ENOENT) ∧
    fs.readdir path = dot :: dotdot :: names ∧
    ∀ name ∈ names, ∃ attr, fs.getattr (below path name) = .ok attr
  /-- Nothing else is there. -/
  absent : fs.files path = none → fs.dirs path = none →
    fs.getattr path = .error .ENOENT ∧
    (∀ size offset, fs.read path size offset = .error .ENOENT) ∧
    fs.readdir path = [dot, dotdot]

/-- `read` past the end is a slice, too. -/
theorem read_eq {fs : JsonFs} {path : PyStr} {content : List UInt8}
    (h : fs.files path = some content) (size offset : ℕ) :
    fs.read path size offset = .ok ((content.drop offset).take size) := by
  simp only [JsonFs.read, h]
  split
  · rename_i hlt
    rw [List.drop_eq_nil_of_le hlt.le, List.take_nil]
  · rfl

/-- Where no path is both a file and a directory and every entry is one of the
two, the operations agree. -/
theorem JsonFs.agree {fs : JsonFs} {path : PyStr}
    (hdisj : (fs.files path).isSome → (fs.dirs path) = none)
    (hentries : ∀ names, fs.dirs path = some names → ∀ name ∈ names,
      (fs.files (below path name)).isSome ∨ (fs.dirs (below path name)).isSome) :
    fs.Agree path where
  file := by
    intro content hfile
    have hdir := hdisj (Option.isSome_of_eq_some hfile)
    exact ⟨by simp [JsonFs.getattr, hfile], read_eq hfile, by simp [JsonFs.readdir, hdir]⟩
  dir := by
    intro names hdir
    have hfile : fs.files path = none := by
      by_contra hne
      rw [hdisj (Option.isSome_iff_ne_none.mpr hne)] at hdir
      exact absurd hdir (by simp)
    refine ⟨by simp [JsonFs.getattr, hfile, hdir], by simp [JsonFs.read, hfile],
      by simp [JsonFs.readdir, hdir], fun name hname => ?_⟩
    rw [JsonFs.getattr]
    rcases h : fs.files (below path name) with _ | content
    · rcases hentries names hdir name hname with hsome | hsome
      · exact absurd hsome (by simp [h])
      · obtain ⟨l, hl⟩ := Option.isSome_iff_exists.mp hsome
        exact ⟨_, by rw [hl]⟩
    · exact ⟨_, rfl⟩
  absent := fun hfile hdir =>
    ⟨by simp [JsonFs.getattr, hfile, hdir], by simp [JsonFs.read, hfile],
      by simp [JsonFs.readdir, hdir]⟩

/-! ## The built maps -/

/-- With plain keys no path is both a file and a directory. -/
theorem dirs_built_eq_none (hd : v.Distinct) (hroot : v.isContainer) (hkeys : v.PlainKeys)
    {path : PyStr} (hsome : ((built v).files path).isSome) : (built v).dirs path = none := by
  obtain ⟨content, hcontent⟩ := Option.isSome_iff_exists.mp hsome
  obtain ⟨p, x, hp, -, hpp⟩ := files_built hd hcontent
  by_contra hne
  obtain ⟨l, hl⟩ := Option.ne_none_iff_exists'.mp hne
  obtain ⟨q, w, hq, hw, hqp⟩ := dirs_built hd hroot hl
  obtain rfl := storedPath_injective hkeys hp hq (hpp.trans hqp.symm)
  rw [hp] at hq
  obtain rfl := Option.some.inj hq
  exact absurd hw Bool.false_ne_true

theorem exists_encode (hd : v.Distinct) (hstrings : v.NoSurrogates)
    (hp : v.get? p = some (.scalar x)) : ∃ content, encode x.str = some content :=
  Option.isSome_iff_exists.mp
    (encodable_of_noSurrogates hd hstrings (p, .scalar x) ((Json.mem_nodes_iff hd).mpr hp))

/-- Every name in a listing is that of a file or a directory. -/
theorem isSome_of_listed (hd : v.Distinct) (hroot : v.isContainer) (hkeys : v.PlainKeys)
    (hstrings : v.NoSurrogates) {path name : PyStr} {names : List PyStr}
    (hl : (built v).dirs path = some names) (hname : name ∈ names) :
    ((built v).files (below path name)).isSome ∨ ((built v).dirs (below path name)).isSome := by
  obtain ⟨p, w, hp, hw, rfl⟩ := dirs_built hd hroot hl
  rw [dirs_built_of_nodup hd (nodup_writes listing? hd hkeys) hp hw] at hl
  obtain rfl := Option.some.inj hl
  obtain ⟨⟨s, c⟩, hbranch, rfl⟩ := List.mem_map.mp hname
  have hps : v.get? (p ++ [s]) = some c := get?_snoc hd hp hbranch
  have hbelow : below (storedPath p) s.name = storedPath (p ++ [s]) := by
    rw [storedPath_eq (plain_names hkeys hp), storedPath_eq (plain_names hkeys hps),
      List.map_append]
    exact below_slashJoin (List.forall_mem_map.mpr (plain_names hkeys hp))
  rw [hbelow]
  cases c with
  | scalar x =>
    obtain ⟨content, hbs⟩ := exists_encode hd hstrings hps
    exact Or.inl (isSome_files_built hd hps hbs)
  | _ => exact Or.inr (isSome_dirs_built hd hps rfl)

/-- **The file system represents the document.**  For a document whose root is an
object or an array, whose keys are plain names and whose strings hold no
surrogate: under the path of a container its names are listed and there is no
file; under the path of a scalar is the UTF-8 of `str(value)` and there is no
listing; no other path is in either map; and the operations agree about every
path. -/
theorem jsonFs_represents_document (doc : Document) (hroot : doc.value.isContainer)
    (hkeys : doc.value.PlainKeys) (hstrings : doc.value.NoSurrogates) :
    ∃ fs, JsonFs.new doc.value = some fs ∧
      (∀ p w, doc.value.get? p = some w → w.isContainer →
        fs.dirs (slashJoin (p.map Step.name)) = some w.names ∧
        fs.files (slashJoin (p.map Step.name)) = none) ∧
      (∀ p x, doc.value.get? p = some (.scalar x) →
        (∃ content, encode x.str = some content ∧
          fs.files (slashJoin (p.map Step.name)) = some content) ∧
        fs.dirs (slashJoin (p.map Step.name)) = none) ∧
      (∀ path, (fs.files path).isSome ∨ (fs.dirs path).isSome →
        ∃ p w, doc.value.get? p = some w ∧ path = slashJoin (p.map Step.name)) ∧
      ∀ path, fs.Agree path := by
  have hd := doc.distinct
  have hencode := encodable_of_noSurrogates hd hstrings
  have hfiles : (built doc.value).stored.Nodup := nodup_writes content? hd hkeys
  have hdirs : (built doc.value).listed.Nodup := nodup_writes listing? hd hkeys
  have hpath : ∀ {p w}, doc.value.get? p = some w →
      storedPath p = slashJoin (p.map Step.name) := fun hp => storedPath_eq (plain_names hkeys hp)
  have hdisj : ∀ path, ((built doc.value).files path).isSome →
      (built doc.value).dirs path = none := fun _ => dirs_built_eq_none hd hroot hkeys
  refine ⟨built doc.value, new_eq hroot hencode, fun p w hp hw => ?_, fun p x hp => ?_,
    fun path hsome => ?_, fun path => JsonFs.agree (hdisj path) fun names hl name =>
      isSome_of_listed hd hroot hkeys hstrings hl⟩
  · have hlist := dirs_built_of_nodup hd hdirs hp hw
    rw [← hpath hp]
    refine ⟨hlist, ?_⟩
    by_contra hne
    rw [hdisj _ (Option.isSome_iff_ne_none.mpr hne)] at hlist
    exact absurd hlist (by simp)
  · obtain ⟨content, hbs⟩ := exists_encode hd hstrings hp
    have hfile := files_built_of_nodup hd hfiles hp hbs
    rw [← hpath hp]
    exact ⟨⟨content, hbs, hfile⟩, hdisj _ (Option.isSome_of_eq_some hfile)⟩
  · rcases hsome with hsome | hsome
    · obtain ⟨content, hfound⟩ := Option.isSome_iff_exists.mp hsome
      obtain ⟨p, x, hp, -, rfl⟩ := files_built hd hfound
      exact ⟨p, _, hp, hpath hp⟩
    · obtain ⟨l, hfound⟩ := Option.isSome_iff_exists.mp hsome
      obtain ⟨p, w, hp, -, rfl⟩ := dirs_built hd hroot hfound
      exact ⟨p, w, hp, hpath hp⟩

/-- `{"a": [true]}`. -/
def nestedValue : Json := .obj [(pyStr ['a'], .arr [.scalar (.bool true)])]

theorem mem_nestedValue (h : nestedValue.get? p = some w) :
    (p = [] ∧ w = nestedValue) ∨
      (p = [.key (pyStr ['a'])] ∧ w = .arr [.scalar (.bool true)]) ∨
      (p = [.key (pyStr ['a']), .index 0] ∧ w = .scalar (.bool true)) := by
  have hmem := Json.mem_nodes_of_get? h
  simpa [nestedValue, Json.nodes, Json.nodesOfEntries, Json.nodesOfItems, Json.under] using hmem

/-- `{"a": [true]}` as a document. -/
def nestedDocument : Document where
  value := nestedValue
  distinct := by
    intro p entries h
    rcases mem_nestedValue h with ⟨-, heq⟩ | ⟨-, heq⟩ | ⟨-, heq⟩
    · obtain rfl := Json.obj.inj heq
      exact List.nodup_singleton _
    · exact absurd heq (by simp)
    · exact absurd heq (by simp)

/-- Its scalar is the file `/a/0`. -/
theorem jsonFs_represents_nestedDocument :
    ∃ fs, JsonFs.new nestedDocument.value = some fs ∧
      ∃ content, encode (Scalar.bool true).str = some content ∧
        fs.files (pyStr ['/', 'a', '/', '0']) = some content := by
  have hplain : Plain (pyStr ['a']) := ⟨by decide, by decide⟩
  have hkeys : nestedDocument.value.PlainKeys := by
    intro p w h k hk
    rcases mem_nestedValue h with ⟨rfl, -⟩ | ⟨rfl, -⟩ | ⟨rfl, -⟩
    · exact absurd hk List.not_mem_nil
    · obtain rfl : k = pyStr ['a'] := by simpa using hk
      exact hplain
    · obtain rfl : k = pyStr ['a'] := by simpa using hk
      exact hplain
  have hstrings : nestedDocument.value.NoSurrogates := by
    intro p str h
    rcases mem_nestedValue h with ⟨-, heq⟩ | ⟨-, heq⟩ | ⟨-, heq⟩
    · exact absurd heq (by simp [nestedValue])
    · exact absurd heq (by simp)
    · exact absurd heq (by simp)
  obtain ⟨fs, hnew, -, hscalars, -⟩ :=
    jsonFs_represents_document nestedDocument rfl hkeys hstrings
  obtain ⟨⟨content, hcontent, hfile⟩, -⟩ :=
    hscalars [.key (pyStr ['a']), .index 0] (.bool true) rfl
  exact ⟨fs, hnew, content, hcontent, hfile⟩

end Fuse
end CaosSeminars
