import Mathlib.Data.List.Induction
import CaosSeminars.Fuse.Faithful

/-!
# What the keys of a position spell

`os.path.join` glues the keys and indices on the way to a position together, and a slash
inside a key counts like one between two keys.  What is left of the keys is the list of
pieces between slashes, and it can be told from the keys alone:

* `cut`: a key is cut at its slashes, into one piece more than it has slashes.
* `spell`: the pieces of the next key go behind those that are there.  A key that starts
  with a slash throws away everything before it; an empty last piece, which a key that ends
  in a slash has left, is taken by the next key.
* `spelled`: the pieces of all keys on the way to a position.
* `storedPath_eq_iff`: two positions are stored under one path exactly if they spell the
  same pieces.
* `spelled_plain`: plain names spell themselves, so that only a key which is empty or has a
  slash in it can make two positions spell the same (`eq_of_spelled`).

The proof goes along the steps of a position.  A path that ends in a slash is the one case
in which `os.path.join` adds none, and there the last piece is empty (`getLast?_of_cut`).
-/

namespace CaosSeminars
namespace Fuse

variable {v : Json} {p q : List Step} {body : PyStr}

/-- The pieces of a name between its slashes. -/
def cut (name : PyStr) : List PyStr := name.splitOn slash

/-- What is spelled behind some pieces by the name of the next step. -/
def spell (pieces : List PyStr) (name : PyStr) : List PyStr :=
  if name.head? = some slash then cut name.tail
  else (if pieces.getLast? = some [] then pieces.dropLast else pieces) ++ cut name

/-- The pieces that the keys and indices of a position spell; the root spells one empty
piece. -/
def spelled (p : List Step) : List PyStr := p.foldl (fun pieces s => spell pieces s.name) [[]]

example : spelled [.key (pyStr ['a', '/']), .index 0, .key (pyStr ['b', '/', 'c'])] =
    [pyStr ['a'], pyStr ['0'], pyStr ['b'], pyStr ['c']] := by decide +kernel

example : spelled [.key (pyStr ['a']), .key (pyStr ['/', 'b'])] = [pyStr ['b']] := by decide +kernel

/-! ## Pieces and the path -/

theorem cut_append (a b : PyStr) : cut (a ++ slash :: b) = cut a ++ cut b :=
  List.splitOn_append_cons_self a b

/-- The path is the pieces behind a slash each. -/
theorem slashJoin_cut (body : PyStr) : slashJoin (cut body) = slash :: body :=
  congrArg _ (List.intercalate_splitOn slash)

/-- Behind a slash at the end of the path a name takes the place of the empty last piece. -/
theorem cut_append_of_getLast? (name : PyStr) (h : (slash :: body).getLast? = some slash) :
    (cut body).getLast? = some [] ∧ cut (body ++ name) = (cut body).dropLast ++ cut name := by
  rcases List.eq_nil_or_concat' body with rfl | ⟨b, c, rfl⟩
  · exact ⟨rfl, rfl⟩
  · rw [← List.cons_append, List.getLast?_concat, Option.some.injEq] at h
    have hcut : cut (b ++ [c]) = cut b ++ [[]] := by
      rw [h, cut_append]
      rfl
    rw [hcut, List.dropLast_concat, ← cut_append, h, List.append_assoc]
    exact ⟨List.getLast?_concat, rfl⟩

/-- An empty last piece comes from a slash at the end. -/
theorem getLast?_of_cut (h : (cut body).getLast? = some []) :
    (slash :: body).getLast? = some slash := by
  obtain ⟨l, hl⟩ := List.getLast?_eq_some_iff.mp h
  rw [← slashJoin_cut, hl]
  rcases eq_or_ne l [] with rfl | hne
  · rfl
  · rw [slashJoin_append hne]
    exact List.getLast?_concat

/-- **`os.path.join` spells**: joined to a path that starts with a slash, a name gives one
that does, whose pieces are the old ones with those of the name. -/
theorem exists_joinPath (body name : PyStr) :
    ∃ body', joinPath (slash :: body) name = slash :: body' ∧
      spell (cut body) name = cut body' := by
  rw [joinPath, spell]
  by_cases hhead : name.head? = some slash
  · rw [if_pos hhead, if_pos hhead]
    exact ⟨name.tail, (List.cons_head?_tail hhead).symm, rfl⟩
  rw [if_neg hhead, if_neg hhead]
  by_cases hlast : (slash :: body).getLast? = some slash
  · obtain ⟨hempty, hcut⟩ := cut_append_of_getLast? name hlast
    rw [if_pos (Or.inr hlast), if_pos hempty, ← hcut]
    exact ⟨body ++ name, rfl, rfl⟩
  · have hjoin : ¬(slash :: body = [] ∨ (slash :: body).getLast? = some slash) :=
      not_or.mpr ⟨List.cons_ne_nil _ _, hlast⟩
    rw [if_neg hjoin, if_neg fun h => hlast (getLast?_of_cut h), ← cut_append]
    exact ⟨body ++ slash :: name, rfl, rfl⟩

/-- By induction on the steps: what is spelled is the path, cut at its slashes. -/
theorem exists_storedPath (p : List Step) :
    ∃ body, storedPath p = slash :: body ∧ spelled p = cut body := by
  induction p using List.reverseRecOn with
  | nil => exact ⟨[], rfl, rfl⟩
  | append_singleton p s ih =>
    obtain ⟨body, hpath, hspelled⟩ := ih
    obtain ⟨body', hjoin, hspell⟩ := exists_joinPath body s.name
    refine ⟨body', ?_, ?_⟩
    · rw [← hjoin, ← hpath]
      exact List.foldl_append
    · rw [← hspell, ← hspelled]
      exact List.foldl_append

/-- **Positions are stored under one path exactly if they spell the same.** -/
theorem storedPath_eq_iff : storedPath p = storedPath q ↔ spelled p = spelled q := by
  obtain ⟨body, hp, hp'⟩ := exists_storedPath p
  obtain ⟨body', hq, hq'⟩ := exists_storedPath q
  rw [hp, hq, hp', hq', List.cons.injEq, eq_self_iff_true, true_and]
  refine ⟨congrArg cut, fun h => ?_⟩
  have hjoin := congrArg slashJoin h
  rw [slashJoin_cut, slashJoin_cut] at hjoin
  exact List.tail_eq_of_cons_eq hjoin

/-! ## Plain names -/

theorem spelled_ne_nil (p : List Step) : spelled p ≠ [] := by
  obtain ⟨body, -, hbody⟩ := exists_storedPath p
  rw [hbody]
  exact List.splitOn_ne_nil slash body

theorem spelled_plain (h : ∀ s ∈ p, Plain s.name) (hne : p ≠ []) :
    spelled p = p.map Step.name := by
  obtain ⟨body, hpath, hbody⟩ := exists_storedPath p
  rw [storedPath_eq h] at hpath
  rw [hbody, ← List.tail_eq_of_cons_eq hpath]
  refine List.splitOn_intercalate slash (List.forall_mem_map.mpr fun s hs => ?_) ?_
  · exact (h s hs).noSlash
  · simpa using hne

theorem eq_of_spelled (hp : (v.get? p).isSome) (hq : (v.get? q).isSome)
    (hp' : ∀ s ∈ p, Plain s.name) (hq' : ∀ s ∈ q, Plain s.name)
    (h : spelled p = spelled q) : p = q := by
  have hpath := storedPath_eq_iff.mpr h
  rw [storedPath_eq hp', storedPath_eq hq'] at hpath
  exact position_eq_of_names hp hq
    (slashJoin_injective (List.forall_mem_map.mpr hp') (List.forall_mem_map.mpr hq') hpath)

end Fuse
end CaosSeminars
