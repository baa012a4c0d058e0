import CaosSeminars.Library.SizeLoop
import Mathlib.Algebra.BigOperators.Intervals
import Mathlib.Data.List.GetD
import Mathlib.Data.List.TakeWhile

/-!
# The cache benchmark

`latency/cache_line_benchmark.cpp` goes over an array of `size_bytes / sizeof(int)` numbers in one
of six ways and reports how many of them it has incremented.  Each of the six functions is given
the number of bytes and works out the bound of its loop for itself, and `main` works out the number
of increments once more.

Two things go wrong.  `benchmark_stride` takes the number of bytes for the bound, and leaves the
array in all but a few cases (`accesses_inBounds_iff`).  And where a loop takes steps that need not
divide the length, `main` rounds down what the loop rounds up (`operations_eq_iff`).

* `Access` --- an access of the loops to the array, by its index; the six functions are
  lists of them, with the wrap-around of `size_t` (`Library.SizeLoop`).
* `inBounds_stride_iff`, `exists_multiple` --- when the strided loop stays inside, and the
  index that shows it where it does not.
* `countP_block`, `sum_blocks` --- the increments in the blocks of one cache line, and in
  all of them.
* `StepsDivide` --- the condition under which the two roundings agree.
-/

namespace CaosSeminars
namespace Memory
namespace CacheLine

/-- `sizeof(int)` -/
def sizeofInt : ℕ := 4

/-- `CACHE_LINE_SIZE` -/
def cacheLineSize : ℕ := 64

/-- `INTS_PER_CACHE_LINE` -/
def intsPerCacheLine : ℕ := cacheLineSize / sizeofInt

/-- An element of one of the two arrays: it is `memory[i]++` for the one and a read of
`offsets[i]` for the other. -/
inductive Access where
  | memory (i : ℕ)
  | offsets (i : ℕ)
  deriving DecidableEq

/-- The sum of two `size_t`. -/
def addSize (a b : ℕ) : ℕ := (a + b) % 2 ^ 64

/-! ## The benchmark functions -/

section Functions

variable (size stride iterations fuel : ℕ) (offsets : List ℕ)

/-- `benchmark_stride` -/
def benchmarkStride : Run Access :=
  (sizeLoop size stride (fun i => [.memory i]) fuel 0).repeated iterations

/-- `benchmark_cache_line_fully` -/
def benchmarkCacheLineFully : Run Access :=
  let elements := size / sizeofInt
  (sizeLoop elements intsPerCacheLine (fun block =>
      ((List.range intsPerCacheLine).takeWhile fun offset => addSize block offset < elements).map
        fun offset => .memory (addSize block offset))
    fuel 0).repeated iterations

/-- `benchmark_one_per_cache_line` -/
def benchmarkOnePerCacheLine : Run Access :=
  let elements := size / sizeofInt
  (sizeLoop elements intsPerCacheLine (fun i => [.memory i]) fuel 0).repeated iterations

/-- `benchmark_random_within_cache_line` -/
def benchmarkRandomWithinCacheLine : Run Access :=
  let elements := size / sizeofInt
  let cacheLines := elements / intsPerCacheLine
  (sizeLoop cacheLines 1 (fun line =>
      let base := line * intsPerCacheLine % 2 ^ 64
      let offset := offsets.getD (line % intsPerCacheLine) 0
      .offsets (line % intsPerCacheLine) ::
        if addSize base offset < elements then [.memory (addSize base offset)] else [])
    fuel 0).repeated iterations

/-- `benchmark_false_sharing_pattern` -/
def benchmarkFalseSharingPattern : Run Access :=
  let elements := size / sizeofInt
  let falseSharingPositions := 4
  (sizeLoop (elements / intsPerCacheLine) 1 (fun line =>
      (List.range falseSharingPositions).flatMap fun thread =>
        let idx := addSize (line * intsPerCacheLine % 2 ^ 64) thread
        if idx < elements then [.memory idx] else [])
    fuel 0).repeated iterations

/-- `benchmark_varying_stride` -/
def benchmarkVaryingStride : Run Access :=
  let elements := size / sizeofInt
  (sizeLoop elements stride (fun i => [.memory i]) fuel 0).repeated iterations

end Functions

/-! ## The calls in `main` -/

/-- The types for which there is a branch: `stride`, `full_line`, `one_per_line`, `random_line`,
`false_sharing` and `varying_stride`. -/
inductive BenchmarkType where
  | stride
  | fullLine
  | onePerLine
  | randomLine
  | falseSharing
  | varyingStride
  deriving DecidableEq

/-- What the command line says, and what the shuffle has made of the offsets. -/
structure Args where
  benchmarkType : BenchmarkType
  sizeBytes : ℕ
  iterations : ℕ
  parameter : ℕ
  randomOffsets : List ℕ
  /-- a `size_t` -/
  sizeBytes_lt : sizeBytes < 2 ^ 64
  /-- an `int` -/
  iterations_lt : iterations < 2 ^ 31
  /-- an `int` -/
  parameter_lt : parameter < 2 ^ 31
  parameter_pos : 0 < parameter
  /-- `std::shuffle` of the numbers below sixteen -/
  perm : randomOffsets.Perm (List.range intsPerCacheLine)

namespace Args

variable (c : Args)

/-- The number of elements of `memory`. -/
def elements : ℕ := c.sizeBytes / sizeofInt

/-- What the benchmark executes of its accesses when each loop over the array has fuel for so many
rounds. -/
def benchmark (fuel : ℕ) : Run Access :=
  match c.benchmarkType with
  | .stride => benchmarkStride c.sizeBytes c.parameter c.iterations fuel
  | .fullLine => benchmarkCacheLineFully c.sizeBytes c.iterations fuel
  | .onePerLine => benchmarkOnePerCacheLine c.sizeBytes c.iterations fuel
  | .randomLine => benchmarkRandomWithinCacheLine c.sizeBytes c.iterations fuel c.randomOffsets
  | .falseSharing => benchmarkFalseSharingPattern c.sizeBytes c.iterations fuel
  | .varyingStride => benchmarkVaryingStride c.sizeBytes c.parameter c.iterations fuel

/-- The product that `main` computes, before it is cut to a `size_t`. -/
def product : ℕ :=
  match c.benchmarkType with
  | .fullLine => c.elements * c.iterations
  | .onePerLine => c.elements / intsPerCacheLine * c.iterations
  | .randomLine => c.elements / intsPerCacheLine * c.iterations
  | .falseSharing => c.elements / intsPerCacheLine * 4 * c.iterations
  | .stride | .varyingStride => c.elements / c.parameter * c.iterations

/-- `operations` -/
def operations : ℕ := c.product % 2 ^ 64

end Args

/-! ## Where the accesses are -/

/-- The access is to an element there is. -/
def Access.InBounds (elements : ℕ) : Access → Prop
  | .memory i => i < elements
  | .offsets i => i < intsPerCacheLine

variable {size stride iterations fuel : ℕ} {offsets : List ℕ} {a : Access}

theorem inBounds_cacheLineFully (h : a ∈ (benchmarkCacheLineFully size iterations fuel).events) :
    a.InBounds (size / sizeofInt) := by
  obtain ⟨block, -, ha⟩ := exists_lt_of_mem_sizeLoop (Run.mem_repeated.mp h).2
  obtain ⟨offset, hoffset, rfl⟩ := List.mem_map.mp ha
  show addSize block offset < size / sizeofInt
  simpa using List.mem_takeWhile_imp hoffset

theorem inBounds_strided (h : a ∈ ((sizeLoop (size / sizeofInt) stride
    (fun i => [Access.memory i]) fuel 0).repeated iterations).events) :
    a.InBounds (size / sizeofInt) := by
  obtain ⟨i, hi, ha⟩ := exists_lt_of_mem_sizeLoop (Run.mem_repeated.mp h).2
  obtain rfl := List.mem_singleton.mp ha
  exact hi

theorem inBounds_of_mem_ite {elements i : ℕ}
    (h : a ∈ if i < elements then [Access.memory i] else []) : a.InBounds elements := by
  split at h
  · obtain rfl := List.mem_singleton.mp h
    assumption
  · cases h

theorem inBounds_randomWithinCacheLine
    (h : a ∈ (benchmarkRandomWithinCacheLine size iterations fuel offsets).events) :
    a.InBounds (size / sizeofInt) := by
  obtain ⟨line, -, ha⟩ := exists_lt_of_mem_sizeLoop (Run.mem_repeated.mp h).2
  rcases List.mem_cons.mp ha with rfl | ha
  · exact Nat.mod_lt _ (by decide)
  · exact inBounds_of_mem_ite ha

theorem inBounds_falseSharingPattern
    (h : a ∈ (benchmarkFalseSharingPattern size iterations fuel).events) :
    a.InBounds (size / sizeofInt) := by
  obtain ⟨line, -, ha⟩ := exists_lt_of_mem_sizeLoop (Run.mem_repeated.mp h).2
  obtain ⟨thread, -, ha⟩ := List.mem_flatMap.mp ha
  exact inBounds_of_mem_ite ha

/-- There is a multiple of the stride that is a byte but not an element. -/
theorem exists_multiple (hstride : 0 < stride) (hpos : 0 < size)
    (hless : sizeofInt ≤ size → stride < size) :
    ∃ m, m * stride < size ∧ size / sizeofInt ≤ m * stride := by
  unfold sizeofInt at *
  rcases lt_or_ge size 4 with hsmall | hsmall
  · exact ⟨0, by omega, by omega⟩
  have hbyte := hless hsmall
  rcases lt_or_ge stride (size / 4) with hshort | hlong
  · -- the first multiple that is not below the number of elements
    refine ⟨(size / 4 + stride - 1) / stride, ?_, ?_⟩
    · have := Nat.div_mul_le_self (size / 4 + stride - 1) stride
      omega
    · have := Nat.lt_div_mul_add (a := size / 4 + stride - 1) hstride
      omega
  · exact ⟨1, by omega, by omega⟩

/-- **Where `benchmark_stride` stays in the array**: if it is not to go over it at all, or if the
first step leads past the last byte. -/
theorem inBounds_stride_iff (hstride : 0 < stride) (hwrap : stride < 2 ^ 31)
    (hsize : size < 2 ^ 64) :
    (∀ fuel, ∀ a ∈ (benchmarkStride size stride iterations fuel).events,
      a.InBounds (size / sizeofInt)) ↔
    iterations = 0 ∨ size = 0 ∨ sizeofInt ≤ size ∧ size ≤ stride := by
  constructor
  · intro h
    by_contra! hnot
    obtain ⟨hiter, hpos, hless⟩ := hnot
    obtain ⟨m, hm, hmout⟩ := exists_multiple hstride (Nat.pos_of_ne_zero hpos) hless
    have hmem : .memory (m * stride) ∈ (benchmarkStride size stride iterations (m + 1)).events := by
      refine Run.mem_repeated.mpr ⟨hiter, ?_⟩
      refine mem_sizeLoop (k := m) hsize.le ?_ (Nat.lt_succ_self m) ?_
      · rwa [Nat.zero_add]
      · rw [Nat.zero_add]
        exact List.mem_singleton_self _
    exact absurd (h (m + 1) _ hmem) hmout.not_gt
  · intro h fuel a ha
    obtain ⟨hiter, ha⟩ := Run.mem_repeated.mp ha
    -- the variable is `0`, or else the loop is over
    obtain ⟨i, hi, hzero, ha⟩ := exists_of_mem_sizeLoop (fun i => i = 0 ∨ size ≤ i) (.inl rfl)
      (fun j hj hinv => by omega) ha
    obtain rfl := List.mem_singleton.mp ha
    show i < size / sizeofInt
    unfold sizeofInt at *
    omega

namespace Args

/-- **When the benchmark stays inside its arrays.** -/
theorem accesses_inBounds_iff (c : Args) :
    (∀ fuel, ∀ a ∈ (c.benchmark fuel).events, a.InBounds c.elements) ↔
      (c.benchmarkType = .stride → c.iterations = 0 ∨ c.sizeBytes = 0 ∨
        sizeofInt ≤ c.sizeBytes ∧ c.sizeBytes ≤ c.parameter) := by
  unfold benchmark elements
  cases c.benchmarkType with
  | stride =>
    rw [inBounds_stride_iff c.parameter_pos c.parameter_lt c.sizeBytes_lt]
    exact ⟨fun h _ => h, fun h => h rfl⟩
  | fullLine => exact iff_of_true (fun _ _ ha => inBounds_cacheLineFully ha) nofun
  | onePerLine => exact iff_of_true (fun _ _ ha => inBounds_strided ha) nofun
  | randomLine => exact iff_of_true (fun _ _ ha => inBounds_randomWithinCacheLine ha) nofun
  | falseSharing => exact iff_of_true (fun _ _ ha => inBounds_falseSharingPattern ha) nofun
  | varyingStride => exact iff_of_true (fun _ _ ha => inBounds_strided ha) nofun

/-- Eight bytes, which are two elements, by steps of one. -/
def twoElements : Args where
  benchmarkType := .stride
  sizeBytes := 8
  iterations := 1
  parameter := 1
  randomOffsets := List.range 16
  sizeBytes_lt := by decide
  iterations_lt := by decide
  parameter_lt := by decide
  parameter_pos := by decide
  perm := .refl _

theorem not_inBounds_twoElements :
    .memory 2 ∈ (twoElements.benchmark 3).events ∧
      ¬∀ fuel, ∀ a ∈ (twoElements.benchmark fuel).events, a.InBounds twoElements.elements := by
  have hmem : .memory 2 ∈ (twoElements.benchmark 3).events := by decide
  exact ⟨hmem, fun h => absurd (h 3 _ hmem) (show ¬2 < 2 by decide)⟩

end Args

/-! ## How many increments there are -/

/-- The access is an increment. -/
def Access.isMemory : Access → Bool
  | .memory _ => true
  | .offsets _ => false

theorem takeWhile_range {p : ℕ → Bool} {m t : ℕ} (hp : ∀ o < m, p o = decide (o < t)) :
    (List.range m).takeWhile p = List.range (min m t) := by
  induction m with
  | zero => rw [Nat.zero_min, List.range_zero, List.takeWhile_nil]
  | succ m ih =>
    rw [List.range_succ, List.takeWhile_append, ih fun o ho => hp o (by omega), List.length_range,
      List.length_range, List.takeWhile_cons, hp m (Nat.lt_succ_self m)]
    rcases lt_or_ge m t with hlt | hge
    · rw [if_pos (by omega), decide_eq_true hlt, if_pos rfl, List.takeWhile_nil,
        show min (m + 1) t = m + 1 by omega, List.range_succ]
    · rw [decide_eq_false hge.not_gt, if_neg Bool.false_ne_true, List.append_nil,
        show min (m + 1) t = t by omega]
      split_ifs with hall
      · rw [show m = t by omega]
      · rw [show min m t = t by omega]

/-- The increments in one cache line: sixteen, or what is left of the array. -/
theorem countP_block {elements block : ℕ} (he : elements < 2 ^ 62) (hblock : block < elements) :
    ((((List.range intsPerCacheLine).takeWhile fun offset => addSize block offset < elements).map
        fun offset => Access.memory (addSize block offset)).countP Access.isMemory) =
      min 16 (elements - block) := by
  have hp : ∀ o < intsPerCacheLine,
      decide (addSize block o < elements) = decide (o < elements - block) := fun o ho => by
    have ho' : o < 16 := ho
    rw [decide_eq_decide, addSize, Nat.mod_eq_of_lt (by omega)]
    omega
  rw [takeWhile_range hp, List.countP_map]
  show (List.range (min 16 (elements - block))).countP (fun _ => true) = _
  rw [List.countP_true, List.length_range]

theorem sum_blocks (elements n : ℕ) :
    ∑ k ∈ Finset.range n, min 16 (elements - k * 16) = min (16 * n) elements := by
  induction n with
  | zero => rw [Finset.sum_range_zero, Nat.mul_zero, Nat.zero_min]
  | succ n ih =>
    rw [Finset.sum_range_succ, ih]
    omega

theorem ceil_eq_floor_iff {e d : ℕ} (hd : 0 < d) : (e + d - 1) / d = e / d ↔ d ∣ e := by
  have hfloor := Nat.div_add_mod e d
  have hless := Nat.mod_lt e hd
  rw [Nat.dvd_iff_mod_eq_zero]
  rcases Nat.eq_zero_or_pos (e % d) with hzero | hpos
  · refine iff_of_true ?_ hzero
    rw [Nat.div_eq_iff hd]
    rw [Nat.mul_comm] at hfloor
    omega
  · refine iff_of_false (fun heq => ?_) hpos.ne'
    rw [Nat.div_eq_iff hd] at heq
    rw [Nat.mul_comm] at hfloor
    omega

theorem strided_countP_iff {bound step m x : ℕ} (hstep : 0 < step)
    (hwrap : bound + step ≤ 2 ^ 64) :
    (∃ fuel,
      ((sizeLoop bound step (fun i => [Access.memory i]) fuel 0).repeated m).finished = true ∧
        ((sizeLoop bound step (fun i => [Access.memory i]) fuel 0).repeated m).events.countP
          Access.isMemory = x) ↔
      m * ((bound + step - 1) / step) = x := by
  rw [finished_countP_iff Access.isMemory hwrap (lt_ceil_iff hstep)]
  simp [Access.isMemory]

theorem lines_countP_iff {elements m x per : ℕ} {body : ℕ → List Access} (he : elements < 2 ^ 62)
    (hbody : ∀ line < elements / intsPerCacheLine, (body line).countP Access.isMemory = per) :
    (∃ fuel, ((sizeLoop (elements / intsPerCacheLine) 1 body fuel 0).repeated m).finished = true ∧
        ((sizeLoop (elements / intsPerCacheLine) 1 body fuel 0).repeated m).events.countP
          Access.isMemory = x) ↔
      elements / intsPerCacheLine * per * m = x := by
  have hlines : elements / intsPerCacheLine ≤ elements := Nat.div_le_self _ _
  have hrounds (k : ℕ) :
      0 + k * 1 < elements / intsPerCacheLine ↔ k < elements / intsPerCacheLine := by
    omega
  have hsum : ∑ k ∈ Finset.range (elements / intsPerCacheLine),
      (body (k * 1)).countP Access.isMemory = elements / intsPerCacheLine * per := by
    rw [Finset.sum_congr rfl fun k hk => ?_, Finset.sum_const, Finset.card_range, smul_eq_mul]
    rw [Nat.mul_one]
    exact hbody k (Finset.mem_range.mp hk)
  rw [finished_countP_iff Access.isMemory (by omega) hrounds, hsum, Nat.mul_comm]

/-- The loop of `benchmark_cache_line_fully` increments every element. -/
theorem cacheLineFully_countP_iff {m x : ℕ} (hsize : size / sizeofInt < 2 ^ 62) :
    (∃ fuel, (benchmarkCacheLineFully size m fuel).finished = true ∧
        (benchmarkCacheLineFully size m fuel).events.countP Access.isMemory = x) ↔
      size / sizeofInt * m = x := by
  have hwrap : size / sizeofInt + intsPerCacheLine ≤ 2 ^ 64 := by
    unfold intsPerCacheLine cacheLineSize sizeofInt at *
    omega
  refine (finished_countP_iff Access.isMemory hwrap (lt_ceil_iff (by decide))).trans ?_
  have hall : size / sizeofInt ≤
      16 * ((size / sizeofInt + intsPerCacheLine - 1) / intsPerCacheLine) := by
    show _ ≤ 16 * ((size / sizeofInt + 16 - 1) / 16)
    omega
  rw [Finset.sum_congr rfl fun k hk => countP_block hsize ?_]
  · show m * ∑ k ∈ Finset.range _, min 16 (size / sizeofInt - k * 16) = x ↔ _
    rw [sum_blocks, Nat.min_eq_right hall, Nat.mul_comm]
  · rw [← Nat.zero_add (k * _)]
    exact (lt_ceil_iff (by decide) k).mpr (Finset.mem_range.mp hk)

theorem countP_random {elements line : ℕ}
    (hperm : offsets.Perm (List.range intsPerCacheLine))
    (hline : line < elements / intsPerCacheLine) :
    ((Access.offsets (line % intsPerCacheLine) ::
        if addSize (line * intsPerCacheLine % 2 ^ 64)
            (offsets.getD (line % intsPerCacheLine) 0) < elements then
          [Access.memory (addSize (line * intsPerCacheLine % 2 ^ 64)
            (offsets.getD (line % intsPerCacheLine) 0))]
        else []).countP Access.isMemory) = 1 := by
  have hline' : line < elements / 16 := hline
  have hoffset : offsets.getD (line % intsPerCacheLine) 0 < 16 := by
    have hlen : offsets.length = 16 := hperm.length_eq
    have hlt : line % intsPerCacheLine < offsets.length := hlen ▸ Nat.mod_lt line (by decide)
    rw [List.getD_eq_getElem _ _ hlt]
    exact List.mem_range.mp (hperm.mem_iff.mp (List.getElem_mem hlt))
  have hinside : addSize (line * intsPerCacheLine % 2 ^ 64)
      (offsets.getD (line % intsPerCacheLine) 0) < elements := by
    show (line * 16 % 2 ^ 64 + _) % 2 ^ 64 < elements
    omega
  rw [if_pos hinside]
  rfl

theorem countP_falseSharing {elements line : ℕ} (hline : line < elements / intsPerCacheLine) :
    (((List.range 4).flatMap fun thread =>
        if addSize (line * intsPerCacheLine % 2 ^ 64) thread < elements then
          [Access.memory (addSize (line * intsPerCacheLine % 2 ^ 64) thread)]
        else []).countP Access.isMemory) = 4 := by
  have hline' : line < elements / 16 := hline
  have hinside (thread : ℕ) (hthread : thread < 4) :
      addSize (line * intsPerCacheLine % 2 ^ 64) thread < elements := by
    show (line * 16 % 2 ^ 64 + thread) % 2 ^ 64 < elements
    omega
  have hrange : List.range 4 = [0, 1, 2, 3] := rfl
  simp only [hrange, List.flatMap_cons, List.flatMap_nil, if_pos (hinside 0 (by decide)),
    if_pos (hinside 1 (by decide)), if_pos (hinside 2 (by decide)), if_pos (hinside 3 (by decide))]
  rfl

theorem mul_ceil_eq_iff {e d m : ℕ} (hd : 0 < d) :
    m * ((e + d - 1) / d) = e / d * m ↔ m = 0 ∨ d ∣ e := by
  rw [Nat.mul_comm (e / d), mul_eq_mul_left_iff, ceil_eq_floor_iff hd, or_comm]

namespace Args

/-- The loop's steps divide the length, where `main` takes that for granted. -/
def StepsDivide (c : Args) : Prop :=
  match c.benchmarkType with
  | .onePerLine => intsPerCacheLine ∣ c.elements
  | .varyingStride => c.parameter ∣ c.elements
  | .stride | .fullLine | .randomLine | .falseSharing => True

/-- **When the benchmark reports what it did.** -/
theorem operations_eq_iff (c : Args) (htype : c.benchmarkType ≠ .stride)
    (hproduct : c.product < 2 ^ 64) :
    (∃ fuel, (c.benchmark fuel).finished = true ∧
        (c.benchmark fuel).events.countP Access.isMemory = c.operations) ↔
      c.iterations = 0 ∨ c.StepsDivide := by
  have he : c.elements < 2 ^ 62 := by
    have := c.sizeBytes_lt
    unfold elements sizeofInt
    omega
  have hparameter := c.parameter_lt
  rw [operations, Nat.mod_eq_of_lt hproduct]
  unfold benchmark product StepsDivide
  cases hcase : c.benchmarkType with
  | stride => exact absurd hcase htype
  | fullLine => exact iff_of_true ((cacheLineFully_countP_iff he).mpr rfl) (.inr trivial)
  | onePerLine =>
    have hwrap : c.elements + intsPerCacheLine ≤ 2 ^ 64 := by
      unfold intsPerCacheLine cacheLineSize sizeofInt
      omega
    exact (strided_countP_iff (by decide) hwrap).trans (mul_ceil_eq_iff (by decide))
  | randomLine =>
    refine iff_of_true ((lines_countP_iff he fun _ => countP_random c.perm).mpr ?_) (.inr trivial)
    rw [Nat.mul_one]
  | falseSharing =>
    exact iff_of_true ((lines_countP_iff he fun _ => countP_falseSharing).mpr rfl) (.inr trivial)
  | varyingStride =>
    have hwrap : c.elements + c.parameter ≤ 2 ^ 64 := by omega
    exact (strided_countP_iff c.parameter_pos hwrap).trans (mul_ceil_eq_iff c.parameter_pos)

/-- One element for each of two cache lines, three times. -/
def twoLines : Args where
  benchmarkType := .onePerLine
  sizeBytes := 128
  iterations := 3
  parameter := 1
  randomOffsets := List.range 16
  sizeBytes_lt := by decide
  iterations_lt := by decide
  parameter_lt := by decide
  parameter_pos := by decide
  perm := .refl _

theorem operations_eq_iff_twoLines :
    (∃ fuel, (twoLines.benchmark fuel).finished = true ∧
        (twoLines.benchmark fuel).events.countP Access.isMemory = twoLines.operations) ↔
      twoLines.iterations = 0 ∨ twoLines.StepsDivide :=
  operations_eq_iff twoLines (by decide) (by decide)

/-- A cache line and one element more, once. -/
def oneMore : Args where
  benchmarkType := .onePerLine
  sizeBytes := 68
  iterations := 1
  parameter := 1
  randomOffsets := List.range 16
  sizeBytes_lt := by decide
  iterations_lt := by decide
  parameter_lt := by decide
  parameter_pos := by decide
  perm := .refl _

/-- There are two increments, and one is reported. -/
theorem operations_ne_oneMore :
    oneMore.product < 2 ^ 64 ∧ oneMore.operations = 1 ∧
      ((oneMore.benchmark 3).finished = true ∧
        (oneMore.benchmark 3).events.countP Access.isMemory = 2) ∧
      ¬∃ fuel, (oneMore.benchmark fuel).finished = true ∧
        (oneMore.benchmark fuel).events.countP Access.isMemory = oneMore.operations := by
  refine ⟨by decide, by decide, by decide, fun h => ?_⟩
  have hcount := (strided_countP_iff (by decide) (by decide)).mp h
  exact absurd hcount (by decide)

end Args

end CacheLine
end Memory
end CaosSeminars
