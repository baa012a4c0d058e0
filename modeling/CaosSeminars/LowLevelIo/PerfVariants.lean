import Mathlib.Data.List.TakeWhile
import CaosSeminars.Library.Lines

/-!
# The two variants of `perf.c`

`impl` reads a file line by line and puts each line on standard output, with `printf`
or with `write`, as the build says.  Between them stands the buffer of `getline`: it
begins with the line and a `NUL`, and behind that is whatever lines before it and the
allocator have left.  `printf` takes it for a string; `write` is given `len`, which is
the size of the buffer and not the length of the line.

So the one variant copies a file without `NUL` (`impl_usePrintf`), and the other puts out
at least one byte more for each of its lines (`length_implLoop_useWrite`).

* `LineBuffer` --- what is known of the buffer of `getline` after a call, and nothing of the
  bytes behind the terminator.
* `impl_useWrite_eq_usePrintf_iff` --- for every file without `NUL` and every such buffer
  the two variants put out the same **iff** the file is empty.
-/

namespace CaosSeminars
namespace LowLevelIo

/-- How `getline` keeps its buffer: what the buffer, whose length is `len`, holds after a
call that has found `old` in it and has read `line`.  The calls are numbered, since the
allocator may hand out other bytes each time. -/
structure LineBuffer where
  refill : (call : ℕ) → (old line : List UInt8) → List UInt8
  /-- The buffer only grows. -/
  length_le : ∀ call old line, old.length ≤ (refill call old line).length
  /-- It begins with the line and its terminator. -/
  holds : ∀ call old line, line ++ [0] <+: refill call old line
  /-- What was behind the terminator stays. -/
  keeps : ∀ call old line i, line.length < i → i < old.length →
    (refill call old line)[i]? = old[i]?

/-- What the program is built with. -/
inductive Variant where
  /-- `_USE_PRINTF`. -/
  | usePrintf
  /-- `_USE_WRITE`. -/
  | useWrite
  deriving DecidableEq

/-- What the body of the loop puts out when the buffer holds `line`. -/
def Variant.output (line : List UInt8) : Variant → List UInt8
  | usePrintf => line.takeWhile (· ≠ 0)
  | useWrite => line

variable (v : Variant) (b : LineBuffer)

/-- The loop of `impl`, at its `call`-th call of `getline`. -/
def implLoop (call : ℕ) (line source : List UInt8) : List UInt8 :=
  match _ : getline source with
  | none => []
  | some (read, rest) =>
    v.output (b.refill call line read) ++ implLoop (call + 1) (b.refill call line read) rest
termination_by source.length
decreasing_by exact length_lt_of_getline ‹_›

/-- `impl`: what it puts on standard output. -/
def impl (source : List UInt8) : List UInt8 := implLoop v b 0 [] source

variable {v b} {call : ℕ} {line source : List UInt8}

/-! ## One call of `getline` -/

theorem implLoop_of_none (h : getline source = none) : implLoop v b call line source = [] := by
  rw [implLoop]
  split
  · rfl
  · simp_all

theorem implLoop_of_some {read rest : List UInt8} (h : getline source = some (read, rest)) :
    implLoop v b call line source = v.output (b.refill call line read) ++
      implLoop v b (call + 1) (b.refill call line read) rest := by
  rw [implLoop]
  split
  · simp_all
  · rename_i read' rest' h'
    obtain ⟨rfl, rfl⟩ := Prod.mk.inj (Option.some.inj (h'.symm.trans h))
    rfl

theorem output_usePrintf {read : List UInt8} (hnul : 0 ∉ read) :
    Variant.usePrintf.output (b.refill call line read) = read := by
  obtain ⟨more, hmore⟩ := b.holds call line read
  have hread : ∀ x ∈ read, decide (x ≠ 0) = true := fun x hx =>
    decide_eq_true fun hzero => hnul (hzero ▸ hx)
  rw [Variant.output, ← hmore, List.append_assoc, List.singleton_append,
    List.takeWhile_append_of_pos hread, List.takeWhile_cons_of_neg (by simp), List.append_nil]

/-- The buffer has room for the terminator. -/
theorem length_lt_output_useWrite (b : LineBuffer) (call : ℕ) (line read : List UInt8) :
    read.length < (Variant.useWrite.output (b.refill call line read)).length := by
  have hlen := (b.holds call line read).length_le
  rw [List.length_append, List.length_singleton] at hlen
  exact hlen

/-! ## The whole file -/

/-- **`printf` copies** a file without `NUL`. -/
theorem implLoop_usePrintf (hnul : 0 ∉ source) :
    implLoop .usePrintf b call line source = source := by
  induction hn : source.length using Nat.strong_induction_on generalizing call line source with
  | _ n ih =>
    subst hn
    cases h : getline source with
    | none => rw [implLoop_of_none h, getline_eq_none.mp h]
    | some next =>
      obtain ⟨read, rest⟩ := next
      have hsource := getline_eq_append h
      rw [hsource, List.mem_append, not_or] at hnul
      rw [implLoop_of_some h, output_usePrintf hnul.1,
        ih rest.length (length_lt_of_getline h) hnul.2 rfl, ← hsource]

/-- **`write` puts out more than the file**, at least one byte more for each line. -/
theorem length_implLoop_useWrite (b : LineBuffer) (call : ℕ) (line source : List UInt8) :
    source.length + (linesOf source).length ≤ (implLoop .useWrite b call line source).length := by
  induction hn : source.length using Nat.strong_induction_on generalizing call line source with
  | _ n ih =>
    subst hn
    rw [linesOf_eq_getline]
    cases h : getline source with
    | none =>
      rw [implLoop_of_none h, getline_eq_none.mp h]
      rfl
    | some next =>
      obtain ⟨read, rest⟩ := next
      have hsource := congrArg List.length (getline_eq_append h)
      have hout := length_lt_output_useWrite b call line read
      have hrest := ih rest.length (length_lt_of_getline h) (call + 1) (b.refill call line read)
        rest rfl
      rw [implLoop_of_some h, List.length_append]
      rw [List.length_append] at hsource
      dsimp only
      rw [List.length_cons]
      omega

/-- **When the two variants do the same**: on the empty file alone.  The two runs may differ
in what the allocator hands out. -/
theorem impl_useWrite_eq_usePrintf_iff (b b' : LineBuffer) {source : List UInt8}
    (hnul : 0 ∉ source) : impl .useWrite b source = impl .usePrintf b' source ↔ source = [] := by
  constructor
  · intro heq
    rw [impl, impl, implLoop_usePrintf hnul] at heq
    have hlen := length_implLoop_useWrite b 0 [] source
    rw [heq] at hlen
    have hlines : linesOf source = [] := List.length_eq_zero_iff.mp (by omega)
    rw [← flatten_linesOf source, hlines]
    rfl
  · rintro rfl
    rw [impl, impl, implLoop_of_none rfl, implLoop_of_none rfl]

/-! ## A buffer -/

/-- A buffer that starts with 120 bytes, and is at least doubled when a line does not fit. -/
def doublingBuffer : LineBuffer where
  refill _ old line :=
    let size := if line.length < old.length then old.length
      else max (2 * old.length) (max 120 (line.length + 1))
    line ++ [0] ++ (old.drop (line.length + 1) ++
      List.replicate (size - max (line.length + 1) old.length) 0)
  length_le _ old line := by
    simp only [List.length_append, List.length_drop, List.length_singleton]
    omega
  holds _ old line := List.prefix_append _ _
  keeps _ old line i hi hlt := by
    have hlen : (line ++ [0] : List UInt8).length = line.length + 1 := List.length_append
    rw [List.getElem?_append_right (by omega), hlen,
      List.getElem?_append_left (by rw [List.length_drop]; omega), List.getElem?_drop]
    congr 1
    omega

theorem impl_useWrite_eq_usePrintf_twoLines :
    impl .useWrite doublingBuffer [] = impl .usePrintf doublingBuffer [] ∧
      impl .useWrite doublingBuffer [97, 10, 98] ≠ impl .usePrintf doublingBuffer [97, 10, 98] :=
  ⟨(impl_useWrite_eq_usePrintf_iff doublingBuffer doublingBuffer (by decide)).mpr rfl,
    fun heq => absurd ((impl_useWrite_eq_usePrintf_iff doublingBuffer doublingBuffer
      (by decide)).mp heq) (by decide)⟩

/-- **A file of one line**: `"a\n"` is followed by the rest of a buffer of 120 bytes. -/
theorem impl_useWrite_ne_usePrintf :
    impl .usePrintf doublingBuffer [97, 10] = [97, 10] ∧
      impl .useWrite doublingBuffer [97, 10] = 97 :: 10 :: List.replicate 118 0 ∧
        impl .useWrite doublingBuffer [97, 10] ≠ impl .usePrintf doublingBuffer [97, 10] := by
  have hprintf : impl .usePrintf doublingBuffer [97, 10] = [97, 10] :=
    implLoop_usePrintf (by decide)
  have hwrite : impl .useWrite doublingBuffer [97, 10] = 97 :: 10 :: List.replicate 118 0 := by
    rw [impl, implLoop_of_some (show getline [97, 10] = some ([97, 10], []) by decide),
      implLoop_of_none rfl]
    rfl
  refine ⟨hprintf, hwrite, ?_⟩
  rw [hprintf, hwrite]
  decide

end LowLevelIo
end CaosSeminars
