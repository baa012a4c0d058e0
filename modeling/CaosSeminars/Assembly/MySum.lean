import CaosSeminars.Library.X86ReadOnly
import Mathlib.Algebra.BigOperators.Group.Finset.Basic
import Mathlib.Algebra.Ring.Parity

/-!
# The alternating sum

`memory/sum.s` adds one element and subtracts the next.  Its loop is unrolled once and has a
test in front of each half; neither test has a comparison of its own but reads the flags
that `dec edi` left two instructions earlier, or, on the way in, the comparison of `edi`
with `0`.  One invariant does for both tests (`AtTest`): the number of elements taken so far
tells by its parity which of the two it is.

The routine counts in `edi`, the 32-bit half of the register the caller put the number in.

* `AtTest.next`, `half` --- half a round takes one more element, and leads to the other test.
* `runs_inArray` --- the routine returns the alternating sum, and every line that reads memory
  reads an element of the array or the return address.
* `alternating_eq_sum` --- the sum that the loop forms is the sum over the indices with their signs.
* `sums_array` --- the contract for the flat memory: the result depends on the array and the length
  alone, and no byte is written.
-/

namespace CaosSeminars
namespace Assembly

open X86

namespace MySum

inductive Label where
  | mySum
  | startLoop
  | returnEax
  deriving DecidableEq

/-- `memory/sum.s` -/
def code : List (Line Label (Instr Label)) :=
  [ .label .mySum,
    .instr (.mov .dword .rax (.imm 0)),
    .instr (.cmp .dword .rdi (.imm 0)),
    .label .startLoop,
    .instr (.j .le .returnEax),
    .instr (.add .dword .rax (.mem .rsi)),
    .instr (.add .qword .rsi (.imm 4)),
    .instr (.dec .dword .rdi),
    .instr (.j .le .returnEax),
    .instr (.sub .dword .rax (.mem .rsi)),
    .instr (.add .qword .rsi (.imm 4)),
    .instr (.dec .dword .rdi),
    .instr (.jmp .startLoop),
    .label .returnEax,
    .instr .ret ]

/-- The registers the routine uses. -/
def used : List Reg := [.rax, .rsi, .rdi]

theorem not_mem_used {r : Reg} : r ∉ used ↔ r ≠ .rax ∧ r ≠ .rsi ∧ r ≠ .rdi := by
  simp [used]

/-- The number of elements to come. -/
def edi (s : State) : BitVec 32 := (s.regs .rdi).setWidth 32

/-- The element number `i` of the array a call entered in `s` was given. -/
def element (s : State) (i : ℕ) : BitVec 32 :=
  BitVec.ofNat 32 (load s.mem (s.regs .rsi + BitVec.ofNat 64 (4 * i)) 4)

/-- The first `n` elements, added and subtracted in turn. -/
def alternating (x : ℕ → BitVec 32) : ℕ → BitVec 32
  | 0 => 0
  | i + 1 => if i % 2 = 0 then alternating x i + x i else alternating x i - x i

/-- What holds at a test of a call entered in `s` that has `n` elements to sum, `i` of which it
has taken. -/
structure AtTest (s : State) (n i : ℕ) (t : State) : Prop where
  line : t.line = if i % 2 = 0 then 4 else 8
  keeps : Keeps used s t
  test : t.flags.le = true ↔ (edi t).toInt ≤ 0
  count : i + (edi t).toInt.toNat = n
  rsi : t.regs .rsi = s.regs .rsi + BitVec.ofNat 64 (4 * i)
  rax : t.regs .rax = (alternating (element s) i).setWidth 64

/-- A call entered in `s` run where nothing but the first `n` elements of the array and the
return address can be read. -/
def stepInArray (s : State) (n : ℕ) : State → Option State :=
  stepReading (InBytes (s.regs .rsi) (4 * n)) code s.rsp

variable {s t : State} {n i : ℕ} {P : State → Prop}

theorem enter (hs : s.line = 0) (hn : (edi s).toInt.toNat = n)
    (hnext : ∀ t, AtTest s n 0 t → Eventually (stepInArray s n) P t) :
    Eventually (stepInArray s n) P s := by
  suffices h : Eventually (stepInArray s n) P (s.goto 0) by rwa [State.goto_of_line hs] at h
  refine reading_label rfl (reading_regs rfl rfl (reading_regs rfl rfl ?_))
  refine reading_label rfl (hnext _ ⟨rfl, ⟨rfl, fun r hr => ?_, rfl, rfl⟩, ?_, ?_, ?_, ?_⟩)
  · simp [exec, State.next, not_mem_used.mp hr]
  · exact Flags.le_sub (edi s) 0#32
  · simpa [exec, State.next, edi] using hn
  · simp [exec, State.next]
  · simp [exec, State.next, alternating]

/-- What half a round does to the registers takes one more element. -/
theorem AtTest.next {u : State} (h : AtTest s n i t) (hpos : 0 < (edi t).toInt)
    (hline : u.line = if (i + 1) % 2 = 0 then 4 else 8) (hkeeps : Keeps used t u)
    (hflags : u.flags = .sub (edi t) 1#32) (hedi : edi u = edi t - 1#32)
    (hrsi : u.regs .rsi = t.regs .rsi + 4#64)
    (hrax : u.regs .rax = (if i % 2 = 0
      then (t.regs .rax).setWidth 32 + BitVec.ofNat 32 (load t.mem (t.regs .rsi) 4)
      else (t.regs .rax).setWidth 32 - BitVec.ofNat 32 (load t.mem (t.regs .rsi) 4)).setWidth 64) :
    AtTest s n (i + 1) u where
  line := hline
  keeps := h.keeps.trans hkeeps
  test := by
    have hone : (1#32).toInt = 1 := by decide
    rw [hflags, Flags.le_sub, hedi, toInt_sub_one hpos, hone]
    omega
  count := by
    have := h.count
    rw [hedi, toInt_sub_one hpos]
    omega
  rsi := by
    rw [hrsi, h.rsi, Nat.mul_succ, BitVec.ofNat_add, BitVec.add_assoc]
  rax := by
    have hsum : (t.regs .rax).setWidth 32 = alternating (element s) i := by
      rw [h.rax]
      exact BitVec.setWidth_setWidth_of_le _ (by decide)
    have helement : BitVec.ofNat 32 (load t.mem (t.regs .rsi) 4) = element s i := by
      rw [h.keeps.mem, h.rsi, element]
    rw [hrax, hsum, helement, alternating]

theorem AtTest.inArray (h : AtTest s n i t) (hn : n < 2 ^ 31) (hpos : 0 < (edi t).toInt) :
    ∀ x ∈ bytesFrom (t.regs .rsi) 4, InBytes (s.regs .rsi) (4 * n) x := by
  intro x hx
  have hcount := h.count
  rw [h.rsi] at hx
  exact inBytes_add (by omega) (by omega) hx

/-- **Half a round**: one more element, added or subtracted. -/
theorem half (h : AtTest s n i t) (hn : n < 2 ^ 31) (hpos : 0 < (edi t).toInt)
    (hnext : ∀ u, AtTest s n (i + 1) u → Eventually (stepInArray s n) P u) :
    Eventually (stepInArray s n) P t := by
  have harray := h.inArray hn hpos
  have hmore : ¬ t.flags.le = true := fun hle => by
    have := h.test.mp hle
    omega
  have hline := h.line
  rcases Nat.mod_two_eq_zero_or_one i with heven | hodd
  · have hnext' : (i + 1) % 2 = 1 := by omega
    rw [if_pos heven] at hline
    rw [← State.goto_of_line hline]
    refine reading_skip rfl hmore (reading_instr rfl harray (reading_regs rfl rfl ?_))
    refine reading_regs rfl rfl (hnext _
      (h.next hpos ?_ ⟨rfl, fun r hr => ?_, rfl, rfl⟩ ?_ ?_ ?_ ?_))
    · rw [if_neg (by omega)]
      rfl
    · simp [exec, State.next, not_mem_used.mp hr]
    · simp [exec, State.next, edi]
    · simp [exec, State.next, edi]
    · simp [exec, State.next]
    · simp [exec, State.next, heven]
  · have hnext' : (i + 1) % 2 = 0 := by omega
    rw [if_neg (by omega)] at hline
    rw [← State.goto_of_line hline]
    refine reading_skip rfl hmore (reading_instr rfl harray (reading_regs rfl rfl ?_))
    refine reading_regs rfl rfl (reading_regs rfl rfl (reading_label rfl (hnext _
      (h.next hpos ?_ ⟨rfl, fun r hr => ?_, rfl, rfl⟩ ?_ ?_ ?_ ?_))))
    · rw [if_pos hnext']
      rfl
    · simp [exec, State.next, not_mem_used.mp hr]
    · simp [exec, State.next, edi]
    · simp [exec, State.next, edi]
    · simp [exec, State.next]
    · simp [exec, State.next, hodd]

/-- The jump out of the loop and the return. -/
theorem leave (h : AtTest s n i t) (hpos : (edi t).toInt ≤ 0) :
    Eventually (stepInArray s n) (Returned s ((alternating (element s) n).setWidth 64)) t := by
  have hdone : t.flags.le = true := h.test.mpr hpos
  obtain rfl : i = n := by
    have := h.count
    omega
  have hline := h.line
  have hlast : Eventually (stepInArray s i)
      (Returned s ((alternating (element s) i).setWidth 64)) (t.goto 13) := by
    refine reading_label rfl (reading_instr rfl h.keeps.rsp (.now ?_))
    refine Restored.returned (Keeps.restored (h.keeps.trans ?_) (by decide)) h.rax
    exact ⟨rfl, fun _ _ => rfl, rfl, rfl⟩
  split at hline
  · rw [← State.goto_of_line hline]
    exact reading_jump rfl hdone hlast
  · rw [← State.goto_of_line hline]
    exact reading_jump rfl hdone hlast

/-- **What the routine returns**, and from what. -/
theorem runs_inArray (hs : s.line = 0) (hn : (edi s).toInt.toNat = n) :
    Eventually (stepInArray s n)
      (Returned s ((alternating (element s) n).setWidth 64)) s := by
  have hsmall : n < 2 ^ 31 := by
    have := (edi s).toInt_lt
    omega
  refine enter hs hn fun t ht => ?_
  refine Eventually.loop (fun t => ∃ i, AtTest s n i t) (fun t => (edi t).toInt.toNat)
    (fun t ht => ?_) ⟨0, ht⟩
  obtain ⟨i, hi⟩ := ht
  rcases lt_or_ge 0 (edi t).toInt with hpos | hpos
  · refine half hi hsmall hpos fun u hu => .now (.inr ⟨⟨i + 1, hu⟩, ?_⟩)
    have := hi.count
    have := hu.count
    omega
  · exact (leave hi hpos).mono fun _ => .inl

theorem runs (hs : s.line = 0) :
    Eventually (step code) (Returned s
      ((alternating (element s) (edi s).toInt.toNat).setWidth 64)) s :=
  (runs_inArray hs rfl).of_guarded

theorem returns (c : Call code) :
    c.Returns ((alternating (element c.state) (edi c.state).toInt.toNat).setWidth 64) :=
  runs c.atEntry

/-! ## The array and the stack in memory -/

theorem alternating_eq_sum (x : ℕ → BitVec 32) (n : ℕ) :
    alternating x n = BitVec.ofInt 32 (∑ i ∈ Finset.range n, (-1) ^ i * (x i).toInt) := by
  induction n with
  | zero => rfl
  | succ n ih =>
    rw [alternating, ih, Finset.sum_range_succ, BitVec.ofInt_add]
    split
    · rw [(Nat.even_iff.mpr ‹_›).neg_one_pow, one_mul, BitVec.ofInt_toInt]
    · rw [(Nat.not_even_iff_odd.mp (mt Nat.even_iff.mp ‹_›)).neg_one_pow, neg_one_mul,
        BitVec.ofInt_neg, BitVec.ofInt_toInt, BitVec.sub_eq_add_neg]

/-- **What a call of `my_sum` does**, for every `int` `n` and every array `x` of so many elements,
and whatever else the registers and the memory hold. -/
theorem sums_array (t : Flat) (n : BitVec 32) (x : ℕ → BitVec 32) (hentry : t.line = 0)
    (hn : (t.regs .rdi).setWidth 32 = n)
    (hx : ∀ i < n.toInt.toNat,
      BitVec.ofNat 32 (load t.mem (t.regs .rsi + BitVec.ofNat 64 (4 * i)) 4) = x i) :
    Eventually
      (Flat.stepReading
        (fun a => InBytes (t.regs .rsi) (4 * n.toInt.toNat) a ∨ InBytes t.rsp 8 a) code)
      (fun u => u.mem = t.mem ∧ FlatReturned t ((BitVec.ofInt 32
        (∑ i ∈ Finset.range n.toInt.toNat, (-1) ^ i * (x i).toInt)).setWidth 64) u) t := by
  have hsum : alternating (element t.split) n.toInt.toNat =
      BitVec.ofInt 32 (∑ i ∈ Finset.range n.toInt.toNat, (-1) ^ i * (x i).toInt) := by
    rw [alternating_eq_sum]
    refine congrArg _ (Finset.sum_congr rfl fun i hi => ?_)
    rw [← hx i (Finset.mem_range.mp hi)]
    rfl
  have hrun := runs_inArray (s := t.split) hentry (congrArg (fun m => m.toInt.toNat) hn)
  rw [hsum] at hrun
  exact (Flat.returned_of_reading t hrun).mono fun u hu => hu.symm

/-- A call of the test program, with the array `100`, `2`, `200`. -/
def callOfTest : Flat where
  line := 0
  regs := fun r => if r = .rdi then 0xFFFFFFFF00000003 else if r = .rsi then 0x1000 else 0
  flags := ⟨false, false, false⟩
  mem := fun a =>
    if a = 0x1000 then 100 else if a = 0x1004 then 2 else if a = 0x1008 then 200 else 0
  rsp := 0x2000

/-- `100 - 2 + 200` is returned. -/
theorem sums_array_callOfTest :
    Eventually (Flat.stepReading (fun a => InBytes 0x1000 12 a ∨ InBytes 0x2000 8 a) code)
      (fun u => u.mem = callOfTest.mem ∧ FlatReturned callOfTest 298 u) callOfTest :=
  sums_array callOfTest 3 (fun i => [100, 2, 200].getD i 0) rfl (by decide) (by decide)

end MySum
end Assembly
end CaosSeminars
