import Mathlib.Data.List.Nodup
import Mathlib.Logic.Function.Basic

/-!
# A map filled by a list of writes

`writeAll m ws` is the map `m` after the assignments `ws` in order, a later one
overwriting an earlier one to the same key.  Without a hypothesis on the keys
what is found under a key was written there (`mem_of_writeAll`); when no key is
written twice, everything that was written is found (`writeAll_of_mem`).

* `writeAll_of_notMem` --- a key that is not written keeps its value.
* `isSome_writeAll` --- a key has a value **iff** it was written or had one before.
-/

namespace CaosSeminars

variable {K V : Type*} [DecidableEq K]

/-- The map after the assignments, in order. -/
def writeAll (m : K → Option V) : List (K × V) → K → Option V
  | [] => m
  | w :: ws => writeAll (Function.update m w.1 (some w.2)) ws

variable {m : K → Option V} {ws : List (K × V)} {k : K} {v : V}

theorem writeAll_of_notMem (h : k ∉ ws.map Prod.fst) : writeAll m ws k = m k := by
  induction ws generalizing m with
  | nil => rfl
  | cons w ws ih =>
    rw [List.map_cons, List.mem_cons, not_or] at h
    rw [writeAll, ih h.2, Function.update_of_ne h.1]

theorem mem_of_writeAll (h : writeAll m ws k = some v) : (k, v) ∈ ws ∨ m k = some v := by
  induction ws generalizing m with
  | nil => exact Or.inr h
  | cons w ws ih =>
    rcases ih h with hmem | hm
    · exact Or.inl (List.mem_cons_of_mem w hmem)
    · rcases eq_or_ne k w.1 with rfl | hne
      · rw [Function.update_self] at hm
        obtain rfl := Option.some.inj hm
        exact Or.inl List.mem_cons_self
      · rw [Function.update_of_ne hne] at hm
        exact Or.inr hm

/-- **When no key is written twice, what was written is found.** -/
theorem writeAll_of_mem (hnodup : (ws.map Prod.fst).Nodup) (h : (k, v) ∈ ws) :
    writeAll m ws k = some v := by
  induction ws generalizing m with
  | nil => exact absurd h List.not_mem_nil
  | cons w ws ih =>
    rw [List.map_cons, List.nodup_cons] at hnodup
    rcases List.mem_cons.mp h with rfl | hmem
    · rw [writeAll, writeAll_of_notMem hnodup.1, Function.update_self]
    · exact ih hnodup.2 hmem

theorem isSome_writeAll : (writeAll m ws k).isSome ↔ k ∈ ws.map Prod.fst ∨ (m k).isSome := by
  induction ws generalizing m with
  | nil => simp [writeAll]
  | cons w ws ih =>
    rw [writeAll, ih, List.map_cons, List.mem_cons]
    rcases eq_or_ne k w.1 with rfl | hne
    · simp
    · rw [Function.update_of_ne hne]
      simp [hne]

end CaosSeminars
