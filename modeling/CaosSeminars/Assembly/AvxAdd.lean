import CaosSeminars.Library.Avx
import Mathlib.Order.Interval.Finset.Nat
import Mathlib.Tactic.Linarith

/-!
# The sum of two arrays, by hand and by intrinsics

`avx-sum/add.S` and the loop of `intrinsics/add.c` add two arrays of floats, eight at a time.  The
one counts down from the end and tests after the round, the other counts up and tests before it.
Both leave the sums of the indices they have been at (`added`); for the first these are the ones
from `rdi` on, for the second the ones below `i`.

The test at the end of the round makes the difference: the routine goes through its loop once even
if there is nothing to add, and then it works on the 32 bytes before the arrays.

* `adds_added` --- the memory with the sums stored in it (`added`) is one in which the third array
  holds the sums and every other byte is as before.
* `round` --- one round of the routine adds eight more elements and leaves the flags of the
  comparison of `rdi` with `0`.
* `runs`, `not_returned` --- the routine returns with the sums if there is something to add; if
  there is nothing it faults at its first move, which is outside the arrays.
* `loop_added` --- the loop with intrinsics, which tests first, leaves the sums in any case.
* `adds_iff` --- so the two agree **iff** `n ≠ 0`.

Of the addition of two floats nothing is used; it is a parameter.
-/

namespace CaosSeminars
namespace Assembly

open X86 (Reg Src Cond InBytes bytesFrom calleeSaved)
open Avx

namespace AvxAdd

variable {mem : BitVec 64 → BitVec 8} {a b r x : BitVec 64} {n i k : ℕ} {I : Finset ℕ}

/-! ## Arrays of floats -/

/-- The float number `i` of an array. -/
def single (mem : BitVec 64 → BitVec 8) (a : BitVec 64) (i : ℕ) : Single := fun k =>
  mem (a + BitVec.ofNat 64 (4 * i + k))

/-- Three arrays of `n` floats each, the third apart from the others. -/
structure Arrays (n : ℕ) (a b r : BitVec 64) : Prop where
  alignedA : a.toNat % 32 = 0
  alignedB : b.toNat % 32 = 0
  alignedR : r.toNat % 32 = 0
  apartA : ∀ x, InBytes a (4 * n) x → ¬InBytes r (4 * n) x
  apartB : ∀ x, InBytes b (4 * n) x → ¬InBytes r (4 * n) x

/-- `mem'` is `mem` with the sums of the first two arrays in the third. -/
structure Adds (add : Single → Single → Single) (n : ℕ) (a b r : BitVec 64)
    (mem mem' : BitVec 64 → BitVec 8) : Prop where
  sums : ∀ i < n, single mem' r i = add (single mem a i) (single mem b i)
  rest : ∀ x, ¬InBytes r (4 * n) x → mem' x = mem x

/-- The memory once the sums with the indices in `I` are in the third array. -/
def added (add : Single → Single → Single) (mem : BitVec 64 → BitVec 8) (a b r : BitVec 64)
    (I : Finset ℕ) : BitVec 64 → BitVec 8 := fun x =>
  if (x - r).toNat / 4 ∈ I then
    add (single mem a ((x - r).toNat / 4)) (single mem b ((x - r).toNat / 4))
      ⟨(x - r).toNat % 4, Nat.mod_lt _ (by decide)⟩
  else mem x

variable {add : Single → Single → Single}

theorem added_empty : added add mem a b r ∅ = mem := by
  funext x
  exact if_neg (Finset.notMem_empty _)

theorem added_of_outside (hI : I ⊆ Finset.range n) (hx : ¬InBytes r (4 * n) x) :
    added add mem a b r I x = mem x := by
  refine if_neg fun hmem => hx ?_
  have hlt := Finset.mem_range.mp (hI hmem)
  show (x - r).toNat < 4 * n
  omega

theorem toNat_sub_of_inBytes {m : ℕ} (hm : m < 2 ^ 64) :
    (a + BitVec.ofNat 64 m - a).toNat = m := by
  rw [add_sub_cancel_left, BitVec.toNat_ofNat, Nat.mod_eq_of_lt hm]

/-- The offset from a place further on in the array. -/
theorem toNat_sub_add {m : ℕ} (hm : m < 2 ^ 64) :
    (x - (r + BitVec.ofNat 64 m)).toNat = (2 ^ 64 - m + (x - r).toNat) % 2 ^ 64 := by
  rw [show x - (r + BitVec.ofNat 64 m) = x - r - BitVec.ofNat 64 m by ring, BitVec.toNat_sub,
    BitVec.toNat_ofNat, Nat.mod_eq_of_lt hm]

/-- **What the sums are**, and that nothing else is changed. -/
theorem adds_added (hsize : 4 * n < 2 ^ 64) :
    Adds add n a b r mem (added add mem a b r (Finset.range n)) where
  sums i hi := by
    funext k
    have hoff : (r + BitVec.ofNat 64 (4 * i + k) - r).toNat = 4 * i + k :=
      toNat_sub_of_inBytes (by omega)
    have hdiv : (4 * i + k) / 4 = i := by omega
    have hmod : (⟨(4 * i + k) % 4, Nat.mod_lt _ (by decide)⟩ : Fin 4) = k := by
      apply Fin.ext
      show (4 * i + k) % 4 = k
      omega
    simp only [single, added, hoff, hdiv, hmod]
    exact if_pos (Finset.mem_range.mpr hi)
  rest x hx := added_of_outside subset_rfl hx

/-- The floats to be added are still what they were. -/
theorem lane_loadPs_added (hI : I ⊆ Finset.range n) (hsize : 4 * n < 2 ^ 64)
    (hapart : ∀ x, InBytes a (4 * n) x → ¬InBytes r (4 * n) x) {c d : BitVec 64}
    (hi : i + 8 ≤ n) (l : Fin 8) :
    lane (loadPs (added add mem c d r I) (a + BitVec.ofNat 64 (4 * i))) l =
      single mem a (i + l) := by
  funext k
  have haddr : a + BitVec.ofNat 64 (4 * i) + BitVec.ofNat 64 (4 * l + k) =
      a + BitVec.ofNat 64 (4 * (i + l) + k) := by
    rw [add_assoc, ← BitVec.ofNat_add]
    congr 2
    ring
  have hinside : InBytes a (4 * n) (a + BitVec.ofNat 64 (4 * (i + l) + k)) := by
    rw [InBytes, toNat_sub_of_inBytes (by omega)]
    omega
  show added add mem c d r I (a + BitVec.ofNat 64 (4 * i) + BitVec.ofNat 64 (4 * l + k)) = _
  rw [haddr, added_of_outside hI (hapart _ hinside)]
  rfl

theorem storePs_addPs (h : Arrays n a b r) (hsize : 4 * n < 2 ^ 64) (hI : I ⊆ Finset.range n)
    (hi : i + 8 ≤ n) :
    storePs (added add mem a b r I) (r + BitVec.ofNat 64 (4 * i))
        (addPs add (loadPs (added add mem a b r I) (a + BitVec.ofNat 64 (4 * i)))
          (loadPs (added add mem a b r I) (b + BitVec.ofNat 64 (4 * i)))) =
      added add mem a b r (I ∪ Finset.Ico i (i + 8)) := by
  funext x
  have hoff := toNat_sub_add (x := x) (r := r) (m := 4 * i) (by omega)
  have hlt := (x - r).isLt
  rw [storePs]
  split_ifs with hx
  · obtain ⟨j, hj, hxj⟩ : ∃ j, ∃ hj : j < 32, (x - (r + BitVec.ofNat 64 (4 * i))).toNat = j :=
      ⟨_, hx, rfl⟩
    have hindex : (x - r).toNat = 4 * i + j := by omega
    have hmem : (x - r).toNat / 4 ∈ I ∪ Finset.Ico i (i + 8) := by
      refine Finset.mem_union_right _ (Finset.mem_Ico.mpr ?_)
      omega
    rw [added, if_pos hmem, addPs, lane_loadPs_added hI hsize h.apartA hi,
      lane_loadPs_added hI hsize h.apartB hi]
    simp only [hxj, hindex]
    have hdiv : (4 * i + j) / 4 = i + j / 4 := by omega
    have hmod : (4 * i + j) % 4 = j % 4 := by omega
    simp only [hdiv, hmod]
  · have hiff : (x - r).toNat / 4 ∈ I ∪ Finset.Ico i (i + 8) ↔ (x - r).toNat / 4 ∈ I := by
      rw [Finset.mem_union, Finset.mem_Ico]
      refine ⟨fun hor => hor.resolve_right fun hIco => hx ?_, .inl⟩
      omega
    rw [added, added]
    exact (if_congr hiff rfl rfl).symm

/-! ## The routine -/

inductive Label where
  | veryImportantFunction
  | loop
  deriving DecidableEq

/-- `avx-sum/add.S` -/
def code : List (Line Label (Instr Label)) :=
  [ .label .veryImportantFunction,
    .instr (.scalar (.mov .qword .r8 (.reg .rdi))),
    .label .loop,
    .instr (.scalar (.sub .qword .rdi (.imm 8))),
    .instr (.vmovapsLoad 0 .rsi .rdi),
    .instr (.vmovapsLoad 1 .rdx .rdi),
    .instr (.vaddps 0 0 1),
    .instr (.vmovapsStore .rcx .rdi 0),
    .instr (.scalar (.cmp .qword .rdi (.imm 0))),
    .instr (.jg .loop),
    .instr (.scalar .ret) ]

/-- A call with `n`, which fills the whole of `rdi`, and three arrays, from outside the listing. -/
structure Call (n : ℕ) (a b r : BitVec 64) (s : State) : Prop where
  line : s.core.line = 0
  fromOutside : code.length ≤ s.core.top.toNat
  rdi : s.core.regs .rdi = BitVec.ofNat 64 n
  rsi : s.core.regs .rsi = a
  rdx : s.core.regs .rdx = b
  rcx : s.core.regs .rcx = r

/-- A listing entered in `s` run where the first two arrays can be read and the third written. -/
def stepInArrays (add : Single → Single → Single) (n : ℕ) (a b r : BitVec 64) (s : State) :
    State → Option State :=
  stepAllowed add (fun x => InBytes a (4 * n) x ∨ InBytes b (4 * n) x) (InBytes r (4 * n)) code
    s.core.rsp

/-- What holds of a call entered in `s` that has added the elements from `k` on. -/
structure Added (add : Single → Single → Single) (n : ℕ) (a b r : BitVec 64) (s : State) (k : ℕ)
    (t : State) : Prop where
  rsp : t.core.rsp = s.core.rsp
  stack : t.core.stack = s.core.stack
  regs : ∀ c, c ≠ .rdi → c ≠ .r8 → t.core.regs c = s.core.regs c
  rdi : t.core.regs .rdi = BitVec.ofNat 64 k
  mem : t.core.mem = added add s.core.mem a b r (Finset.Ico k n)

variable {s t : State} {P : State → Prop}

/-- The 32 bytes of a round are in the array. -/
theorem canMove {M : BitVec 64 → Prop} (ha : a.toNat % 32 = 0) (hsize : 4 * n < 2 ^ 64)
    (hM : ∀ x, InBytes a (4 * n) x → M x) (hk : k + 8 ≤ n) (h8 : 8 ∣ k) :
    CanMove M (a + BitVec.ofNat 64 (4 * k)) := by
  refine ⟨?_, fun x hx => hM x (X86.inBytes_add hsize (by omega) hx)⟩
  rw [BitVec.toNat_add, BitVec.toNat_ofNat]
  omega

theorem ofNat_add_sub (k m : ℕ) :
    BitVec.ofNat 64 (k + m) - BitVec.ofNat 64 m = BitVec.ofNat 64 k := by
  rw [BitVec.ofNat_add, BitVec.add_sub_cancel]

theorem ofNat_mul_four (k : ℕ) : BitVec.ofNat 64 k * 4#64 = BitVec.ofNat 64 (4 * k) := by
  rw [mul_comm 4, BitVec.ofNat_mul]

theorem canMove_address {M : BitVec 64 → Prop} {c : Reg} (hreg : t.core.regs c = a)
    (hrdi : t.core.regs .rdi = BitVec.ofNat 64 k) (ha : a.toNat % 32 = 0)
    (hsize : 4 * n < 2 ^ 64) (hM : ∀ x, InBytes a (4 * n) x → M x) (hk : k + 8 ≤ n)
    (h8 : 8 ∣ k) : CanMove M (t.address c .rdi) := by
  rw [State.address, hreg, hrdi, ofNat_mul_four]
  exact canMove ha hsize hM hk h8

/-- **A round** adds eight more elements and compares the number of those that are left with `0`. -/
theorem round (hc : Call n a b r s) (h : Arrays n a b r) (hn : n < 2 ^ 31) (hk : k + 8 ≤ n)
    (h8 : 8 ∣ k) (hline : t.core.line = 2) (ht : Added add n a b r s (k + 8) t)
    (hnext : ∀ u, u.core.line = 9 → Added add n a b r s k u →
      (u.core.flags.le = true ↔ k = 0) → Eventually (stepInArrays add n a b r s) P u) :
    Eventually (stepInArrays add n a b r s) P t := by
  have hrdi : t.core.regs .rdi - 8#64 = BitVec.ofNat 64 k := by
    rw [ht.rdi, ofNat_add_sub]
  have hrsi : t.core.regs .rsi = a := by rw [ht.regs _ (by decide) (by decide), hc.rsi]
  have hrdx : t.core.regs .rdx = b := by rw [ht.regs _ (by decide) (by decide), hc.rdx]
  have hrcx : t.core.regs .rcx = r := by rw [ht.regs _ (by decide) (by decide), hc.rcx]
  have hsize : 4 * n < 2 ^ 64 := by omega
  have hIco : Finset.Ico (k + 8) n ⊆ Finset.range n := fun j hj =>
    Finset.mem_range.mpr (Finset.mem_Ico.mp hj).2
  rw [← State.goto_of_line hline]
  refine allowed_label rfl (allowed_regs rfl rfl ?_)
  refine allowed_instr rfl ?_ (allowed_instr rfl ?_ (allowed_instr rfl trivial
    (allowed_instr rfl ?_ (allowed_regs rfl rfl ?_))))
  · exact canMove_address hrsi hrdi h.alignedA hsize (fun x => .inl) hk h8
  · exact canMove_address hrdx hrdi h.alignedB hsize (fun x => .inr) hk h8
  · exact canMove_address hrcx hrdi h.alignedR hsize (fun x => id) hk h8
  refine hnext _ rfl ⟨?_, ?_, fun c h₁ h₂ => ?_, ?_, ?_⟩ ?_
  · exact ht.rsp
  · exact ht.stack
  · simpa [exec, X86.exec, State.next, X86.State.next, h₁] using ht.regs c h₁ h₂
  · simp [exec, X86.exec, State.next, X86.State.next, hrdi]
  · simp [exec, X86.exec, State.next, X86.State.next, State.address, hrdi, hrsi, hrdx, hrcx,
      ofNat_mul_four]
    rw [ht.mem, storePs_addPs h hsize hIco hk, Finset.union_comm,
      Finset.Ico_union_Ico_eq_Ico (Nat.le_add_right k 8) hk]
  · have hint : (BitVec.ofNat 64 k).toInt = k := toInt_ofNat_of_lt (by omega)
    have hzero : (0#64).toInt = 0 := rfl
    simp [exec, X86.exec, State.next, X86.State.next, hrdi]
    rw [Flags.le_sub, hint, hzero]
    omega

theorem Added.returned (h : Added add n a b r s 0 t) :
    Returned s (added add s.core.mem a b r (Finset.range n))
      (exec add (target code) (.scalar .ret) t) where
  line := by
    show (t.core.stack t.core.rsp).toNat = (s.core.stack s.core.rsp).toNat
    rw [h.rsp, h.stack]
  rsp := congrArg (· + 1) h.rsp
  saved c hc := h.regs c (X86.ne_of_mem_calleeSaved hc (by decide))
    (X86.ne_of_mem_calleeSaved hc (by decide))
  mem := by
    rw [Finset.range_eq_Ico]
    exact h.mem
  stack i _ := congrFun h.stack i

/-- **What the routine does when there is something to add.** -/
theorem runs (hc : Call n a b r s) (h : Arrays n a b r) (hn : n < 2 ^ 31) (h8 : 8 ∣ n)
    (hpos : n ≠ 0) :
    Eventually (stepInArrays add n a b r s)
      (Returned s (added add s.core.mem a b r (Finset.range n))) s := by
  suffices hgoto : Eventually (stepInArrays add n a b r s)
      (Returned s (added add s.core.mem a b r (Finset.range n))) (s.goto 0) by
    rwa [State.goto_of_line hc.line] at hgoto
  refine allowed_label rfl (allowed_regs rfl rfl ?_)
  refine Eventually.loop
    (fun t => t.core.line = 2 ∧ ∃ k, 8 ∣ k ∧ k + 8 ≤ n ∧ Added add n a b r s (k + 8) t)
    (fun t => (t.core.regs .rdi).toNat) (fun t ht => ?_) ⟨rfl, n - 8, by omega, by omega, ?_⟩
  · obtain ⟨hline, k, hk8, hk, ht⟩ := ht
    refine round hc h hn hk hk8 hline ht fun u huline hu htest => ?_
    rw [← State.goto_of_line huline]
    by_cases hlast : k = 0
    · refine allowed_skip rfl (htest.mpr hlast) (allowed_instr rfl hu.rsp (.now (.inl ?_)))
      rw [hlast] at hu
      exact Added.returned ⟨hu.rsp, hu.stack, hu.regs, hu.rdi, hu.mem⟩
    · obtain ⟨j, rfl⟩ : ∃ j, k = j + 8 := ⟨k - 8, by omega⟩
      refine allowed_jump rfl (mt htest.mp hlast) (.now (.inr ⟨?_, ?_⟩))
      · refine ⟨rfl, j, by omega, by omega, ?_⟩
        exact ⟨hu.rsp, hu.stack, hu.regs, hu.rdi, hu.mem⟩
      · show (u.core.regs .rdi).toNat < (t.core.regs .rdi).toNat
        rw [hu.rdi, ht.rdi, BitVec.toNat_ofNat, BitVec.toNat_ofNat]
        omega
  · rw [Nat.sub_add_cancel (by omega)]
    refine ⟨rfl, rfl, fun c _ h₂ => ?_, ?_, ?_⟩
    · simp [exec, X86.exec, State.next, X86.State.next, h₂]
    · simpa [exec, X86.exec, State.next, X86.State.next] using hc.rdi
    · rw [Finset.Ico_self, added_empty]
      rfl

/-- **What it does when there is not**: it faults at the first move. -/
theorem not_returned (hc : Call 0 a b r s) (mem' : BitVec 64 → BitVec 8) :
    ¬Eventually (stepInArrays add 0 a b r s) (Returned s mem') s := by
  rintro ⟨v, hsv, hv⟩
  have hfault : Eventually (stepInArrays add 0 a b r s)
      (fun t => stepInArrays add 0 a b r s t = none ∧ t.core.line = 4) (s.goto 0) := by
    refine allowed_label rfl (allowed_regs rfl rfl ?_)
    refine allowed_label rfl (allowed_regs rfl rfl (.now ⟨?_, rfl⟩))
    refine (machine add).stepGuarded_eq_none rfl fun hmove => ?_
    obtain ⟨-, hinside⟩ : CanMove _ _ := hmove
    rcases hinside _ (List.mem_map.mpr ⟨0, by decide, rfl⟩) with hx | hx <;> cases hx
  rw [State.goto_of_line hc.line] at hfault
  obtain ⟨u, hsu, hu, hline⟩ := hfault
  have hout : code.length ≤ v.core.line := hc.fromOutside.trans hv.line.ge
  obtain rfl : u = v := Eventually.unique hsu hu hsv ((machine add).stepGuarded_outside hout)
  rw [hline] at hout
  exact absurd hout (by decide)

/-! ## The loop with intrinsics -/

/-- `_mm256_load_ps`, where `M` can be read. -/
def mm256LoadPs (M : BitVec 64 → Prop) [DecidablePred M] (mem : BitVec 64 → BitVec 8)
    (a : BitVec 64) : Option Ymm :=
  if CanMove M a then some (loadPs mem a) else none

/-- `_mm256_store_ps`, where `M` can be written. -/
def mm256StorePs (M : BitVec 64 → Prop) [DecidablePred M] (mem : BitVec 64 → BitVec 8)
    (a : BitVec 64) (v : Ymm) : Option (BitVec 64 → BitVec 8) :=
  if CanMove M a then some (storePs mem a v) else none

/-- The loop of `intrinsics/add.c` from `i` on. -/
def loop (add : Single → Single → Single) (n : ℕ) (a b c : BitVec 64) (i : ℕ)
    (mem : BitVec 64 → BitVec 8) : Option (BitVec 64 → BitVec 8) :=
  if i < n then do
    let r1 ← mm256LoadPs (InBytes a (4 * n)) mem (a + BitVec.ofNat 64 (4 * i))
    let r2 ← mm256LoadPs (InBytes b (4 * n)) mem (b + BitVec.ofNat 64 (4 * i))
    let r3 := addPs add r1 r2
    let mem ← mm256StorePs (InBytes c (4 * n)) mem (c + BitVec.ofNat 64 (4 * i)) r3
    loop add n a b c (i + 8) mem
  else some mem
termination_by n - i

theorem loop_added (h : Arrays n a b r) (hsize : 4 * n < 2 ^ 64) (h8 : 8 ∣ n) (hi : 8 ∣ i)
    (hin : i ≤ n) :
    loop add n a b r i (added add mem a b r (Finset.range i)) =
      some (added add mem a b r (Finset.range n)) := by
  induction hm : n - i using Nat.strong_induction_on generalizing i with
  | _ m ih =>
    rw [loop]
    split_ifs with hless
    · have hnext : i + 8 ≤ n := by omega
      have hrange : Finset.range i ∪ Finset.Ico i (i + 8) = Finset.range (i + 8) := by
        rw [Finset.range_eq_Ico, Finset.range_eq_Ico]
        exact Finset.Ico_union_Ico_eq_Ico (Nat.zero_le i) (Nat.le_add_right i 8)
      have hbefore : Finset.range i ⊆ Finset.range n := Finset.range_subset_range.mpr hin
      have hA : CanMove (InBytes a (4 * n)) (a + BitVec.ofNat 64 (4 * i)) :=
        canMove h.alignedA hsize (fun _ => id) hnext hi
      have hB : CanMove (InBytes b (4 * n)) (b + BitVec.ofNat 64 (4 * i)) :=
        canMove h.alignedB hsize (fun _ => id) hnext hi
      have hR : CanMove (InBytes r (4 * n)) (r + BitVec.ofNat 64 (4 * i)) :=
        canMove h.alignedR hsize (fun _ => id) hnext hi
      simp only [mm256LoadPs, mm256StorePs, if_pos hA, if_pos hB, if_pos hR, Option.bind_eq_bind,
        Option.bind_some]
      rw [storePs_addPs h hsize hbefore hnext, hrange]
      exact ih (n - (i + 8)) (by omega) (by omega) hnext rfl
    · obtain rfl : i = n := by omega
      rfl

/-- **When the routine and the loop with intrinsics agree**: they leave the same memory, which is
the one with the sums in the third array, and touch nothing but the arrays. -/
theorem adds_iff (add : Single → Single → Single) (hc : Call n a b r s) (h : Arrays n a b r)
    (hn : n < 2 ^ 31) (h8 : 8 ∣ n) :
    (∃ mem', Eventually (stepInArrays add n a b r s) (Returned s mem') s ∧
      loop add n a b r 0 s.core.mem = some mem' ∧ Adds add n a b r s.core.mem mem') ↔ n ≠ 0 := by
  have hsize : 4 * n < 2 ^ 64 := by omega
  constructor
  · rintro ⟨mem', hrun, -, -⟩ rfl
    exact not_returned hc mem' hrun
  · intro hpos
    have hloop : loop add n a b r 0 (added add s.core.mem a b r (Finset.range 0)) = _ :=
      loop_added h hsize h8 (dvd_zero 8) n.zero_le
    rw [Finset.range_zero, added_empty] at hloop
    exact ⟨_, runs hc h hn h8 hpos, hloop, adds_added hsize⟩

/-- A call with `n` and arrays at fixed places. -/
def callOf (n : ℕ) : State where
  core :=
    { line := 0
      regs := fun c => if c = .rdi then BitVec.ofNat 64 n else if c = .rsi then 0x1000
        else if c = .rdx then 0x2000 else if c = .rcx then 0x3000 else 0
      flags := ⟨false, false, false⟩
      mem := fun x => x.setWidth 8
      rsp := 0
      stack := fun _ => 11 }
  ymm := fun _ _ => 0

theorem call_callOf (n : ℕ) : Call n 0x1000 0x2000 0x3000 (callOf n) where
  line := rfl
  fromOutside := show code.length ≤ (11#64).toNat by decide
  rdi := rfl
  rsi := rfl
  rdx := rfl
  rcx := rfl

theorem not_inBytes_of_le {m : ℕ} (hle : a.toNat + m ≤ r.toNat) (hr : r.toNat + m ≤ 2 ^ 64)
    (hx : InBytes a m x) : ¬InBytes r m x := by
  have halt := a.isLt
  have hxlt := x.isLt
  unfold InBytes at *
  rw [BitVec.toNat_sub] at *
  omega

theorem arrays_of_le {n : ℕ} (hn : n ≤ 1024) : Arrays n 0x1000 0x2000 0x3000 := by
  have hroom {m : ℕ} : m + 4 * n ≤ m + 4096 := by omega
  refine ⟨by decide, by decide, by decide, fun x hx => ?_, fun x hx => ?_⟩
  · exact not_inBytes_of_le (hroom.trans (by decide)) (hroom.trans (by decide)) hx
  · exact not_inBytes_of_le (hroom.trans (by decide)) (hroom.trans (by decide)) hx

/-- Eight elements, as in the test program. -/
theorem adds_iff_eight :
    (∃ mem', Eventually (stepInArrays (fun v w k => v k + w k) 8 0x1000 0x2000 0x3000 (callOf 8))
        (Returned (callOf 8) mem') (callOf 8) ∧
      loop (fun v w k => v k + w k) 8 0x1000 0x2000 0x3000 0 (callOf 8).core.mem = some mem' ∧
      Adds (fun v w k => v k + w k) 8 0x1000 0x2000 0x3000 (callOf 8).core.mem mem') ↔ 8 ≠ 0 :=
  adds_iff _ (call_callOf 8) (arrays_of_le (by decide)) (by decide) (by decide)

/-- No elements: the loop with intrinsics does nothing, and the routine moves what lies before the
arrays. -/
theorem not_adds_zero :
    Call 0 0x1000 0x2000 0x3000 (callOf 0) ∧ Arrays 0 0x1000 0x2000 0x3000 ∧
      (∀ add, loop add 0 0x1000 0x2000 0x3000 0 (callOf 0).core.mem = some (callOf 0).core.mem) ∧
      ∀ add, ¬∃ mem', Eventually (stepInArrays add 0 0x1000 0x2000 0x3000 (callOf 0))
        (Returned (callOf 0) mem') (callOf 0) := by
  refine ⟨call_callOf 0, arrays_of_le (by decide), fun add => ?_, fun add => ?_⟩
  · rw [loop, if_neg (lt_irrefl 0)]
  · rintro ⟨mem', hrun⟩
    exact not_returned (call_callOf 0) mem' hrun

end AvxAdd
end Assembly
end CaosSeminars
