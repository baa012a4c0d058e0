import CaosSeminars.Library.FibMod
import CaosSeminars.Library.X86Flat

/-!
# The recursive `fib`

`fib-rec/fib.s` calls itself twice.  Its argument and the first of the two results have to
outlive a call, so they are kept in `r12` and `r13`, and what a caller had there is pushed
at the entry and popped again before either of the two returns.

The sequence starts at `2`: an argument below `2` gives `0`, the argument `2` gives `1`, and
so the argument `n` gives the Fibonacci number of `n - 1` (`runs`).  A call inside is a call
like any other, so that the induction carries the whole contract `Returned` of a call, saved
registers and stack included, and how far down the stack the call gets (`runs_within`).

That is what it takes for the stack to be in memory: `returns_in_memory` is the contract of a call
with `rsp` an address and room for the call below it.

* `kept_pushes`, `Kept.call`, `Kept.restored` --- what is pushed at the entry is there after a call
  inside, and is popped again at either of the two places.
* `body_small`, `body_two`, `body_large` --- the three ways through the body; the last one is
  given what the two calls return.
* `runs`, `returns` --- by induction on the argument; `returns_in_memory` for the flat memory.
-/

namespace CaosSeminars
namespace Assembly

open X86
open Nat (fib)

namespace FibRec

/-- `return0` is the source's `.return`. -/
inductive Label where
  | fib
  | return0
  | return1
  deriving DecidableEq

/-- `fib-rec/fib.s` -/
def code : List (Line Label (Instr Label)) :=
  [ .label .fib,
    .instr (.push .r12),
    .instr (.push .r13),
    .instr (.mov .qword .rax (.imm 0)),
    .instr (.cmp .qword .rdi (.imm 2)),
    .instr (.j .l .return0),
    .instr (.j .e .return1),
    .instr (.dec .qword .rdi),
    .instr (.mov .qword .r12 (.reg .rdi)),
    .instr (.call .fib),
    .instr (.mov .qword .r13 (.reg .rax)),
    .instr (.mov .qword .rdi (.reg .r12)),
    .instr (.dec .qword .rdi),
    .instr (.call .fib),
    .instr (.add .qword .rax (.reg .r13)),
    .label .return0,
    .instr (.pop .r13),
    .instr (.pop .r12),
    .instr .ret,
    .label .return1,
    .instr (.pop .r13),
    .instr (.pop .r12),
    .instr (.mov .qword .rax (.imm 1)),
    .instr .ret ]

variable {s t u : State} {v : BitVec 64} {P : State → Prop} {lo hi : ℤ}

/-- What the two pushes of a call entered in `s` have put away is still there. -/
structure Kept (s t : State) : Prop where
  rsp : t.rsp = s.rsp - 2
  r12 : t.stack (s.rsp - 1) = s.regs .r12
  r13 : t.stack (s.rsp - 2) = s.regs .r13
  saved : ∀ r ∈ calleeSaved, r ≠ .r12 → r ≠ .r13 → t.regs r = s.regs r
  mem : t.mem = s.mem
  stack : ∀ i, s.rsp ≤ i → t.stack i = s.stack i

/-- The registers, the flags and the line do not matter to it, apart from those registers
that are not pushed. -/
theorem Kept.congr (h : Kept s t) (hrsp : u.rsp = t.rsp) (hstack : u.stack = t.stack)
    (hmem : u.mem = t.mem)
    (hsaved : ∀ r ∈ calleeSaved, r ≠ .r12 → r ≠ .r13 → u.regs r = t.regs r) : Kept s u where
  rsp := hrsp.trans h.rsp
  r12 := hstack ▸ h.r12
  r13 := hstack ▸ h.r13
  saved r hr h12 h13 := (hsaved r hr h12 h13).trans (h.saved r hr h12 h13)
  mem := hmem.trans h.mem
  stack := hstack ▸ h.stack

/-- **A call inside** leaves it alone. -/
theorem Kept.call (h : Kept s t) (hret : AfterCall t v u) : Kept s u := by
  have habove : ∀ i, s.rsp - 2 ≤ i → u.stack i = t.stack i := fun i hi =>
    hret.stack i (h.rsp.trans_le hi)
  constructor
  · exact hret.rsp.trans h.rsp
  · exact (habove _ (by omega)).trans h.r12
  · exact (habove _ le_rfl).trans h.r13
  · intro r hr h12 h13
    exact (hret.saved r hr).trans (h.saved r hr h12 h13)
  · exact hret.mem.trans h.mem
  · intro i hi
    exact (habove i (by omega)).trans (h.stack i hi)

/-! ## The two returns -/

theorem Kept.restored {target : Label → ℕ} (h : Kept s t) :
    Restored s (exec target (.pop .r12) (exec target (.pop .r13) t)) where
  rsp := by
    have := h.rsp
    simp only [exec, State.next, State.goto_rsp, State.setReg_rsp, State.pop_rsp]
    omega
  saved r hr := by
    by_cases h12 : r = .r12
    · subst h12
      have hslot : t.rsp + 1 = s.rsp - 1 := by
        rw [h.rsp]
        omega
      simp [exec, State.next, State.top, hslot, h.r12]
    by_cases h13 : r = .r13
    · subst h13
      simp [exec, State.next, State.top, h.rsp, h.r13]
    simp [exec, State.next, h12, h13, h.saved r hr h12 h13]
  mem := h.mem
  stack := h.stack

theorem Kept.within (h : Kept s t) (hlo : lo ≤ s.rsp - 2) (hhi : s.rsp + 1 ≤ hi) :
    Within lo hi t ∧ Within lo hi t.pop ∧ Within lo hi t.pop.pop ∧ Within lo hi t.pop.pop.pop := by
  have hrsp := h.rsp
  simp only [Within, State.pop_rsp]
  omega

theorem leave (h : Kept s t) (hline : t.line = 15) (hrax : t.regs .rax = v)
    (hlo : lo ≤ s.rsp - 2) (hhi : s.rsp + 1 ≤ hi) :
    Eventually (stepWithin lo hi code) (Returned s v) t := by
  obtain ⟨hw, hw₁, hw₂, hw₃⟩ := h.within hlo hhi
  rw [← State.goto_of_line hline]
  refine within_label rfl hw (within_instr rfl hw₁ (within_instr rfl hw₂ ?_))
  refine within_instr rfl hw₃ (.now (Restored.returned (Kept.restored ?_) ?_))
  · exact h.congr rfl rfl rfl fun _ _ _ _ => rfl
  · simpa [exec, State.next] using hrax

theorem leave_one (h : Kept s t) (hline : t.line = 19) (hlo : lo ≤ s.rsp - 2)
    (hhi : s.rsp + 1 ≤ hi) : Eventually (stepWithin lo hi code) (Returned s 1) t := by
  obtain ⟨hw, hw₁, hw₂, hw₃⟩ := h.within hlo hhi
  rw [← State.goto_of_line hline]
  refine within_label rfl hw (within_instr rfl hw₁ (within_instr rfl hw₂ ?_))
  refine within_instr rfl hw₂ (within_instr rfl hw₃ (.now (Restored.returned ?_ ?_)))
  · exact Restored.mov (Kept.restored (h.congr rfl rfl rfl fun _ _ _ _ => rfl)) (by decide)
  · simp [exec, State.next]

/-! ## The body -/

theorem kept_pushes (target : Label → ℕ) (s : State) :
    Kept s (exec target (.push .r13) (exec target (.push .r12) s)) where
  rsp := by
    simp only [exec, State.next, State.goto_rsp, State.push_rsp]
    omega
  r12 := by
    have hne : s.rsp - 1 ≠ s.rsp - 1 - 1 := by omega
    simp [exec, State.next, hne]
  r13 := by simp [exec, State.next, Int.sub_sub]
  saved _ _ _ _ := rfl
  mem := rfl
  stack i hi := by
    have hfst : i ≠ s.rsp - 1 := by omega
    have hsnd : i ≠ s.rsp - 1 - 1 := by omega
    simp [exec, State.next, hfst, hsnd]

/-- What comes before the comparison. -/
theorem enter (hs : s.line = 0) (hlo : lo ≤ s.rsp - 2) (hhi : s.rsp + 1 ≤ hi)
    (hnext : ∀ t, t.line = 4 → Kept s t → t.regs .rax = 0#64 → t.regs .rdi = s.regs .rdi →
      Eventually (stepWithin lo hi code) P t) : Eventually (stepWithin lo hi code) P s := by
  have hw : Within lo hi s := ⟨by omega, by omega⟩
  have hw₁ : lo ≤ s.rsp - 1 ∧ s.rsp - 1 ≤ hi := ⟨by omega, by omega⟩
  have hw₂ : lo ≤ s.rsp - 1 - 1 ∧ s.rsp - 1 - 1 ≤ hi := ⟨by omega, by omega⟩
  rw [← State.goto_of_line hs]
  refine within_label rfl hw (within_instr rfl hw₁ (within_instr rfl hw₂ ?_))
  refine within_instr rfl hw₂ (hnext _ rfl ?_ ?_ ?_)
  · have hpush := kept_pushes (target code) (s.goto 0).next
    refine ⟨hpush.rsp, hpush.r12, hpush.r13, fun r hr _ _ => ?_, rfl, hpush.stack⟩
    have hne : r ≠ .rax := ne_of_mem_calleeSaved hr (by decide)
    simp [exec, State.next, hne]
  · simp [exec, State.next]
  · simp [exec, State.next]

theorem body_small (h : Kept s t) (hline : t.line = 4) (hrax : t.regs .rax = 0#64)
    (hrdi : (t.regs .rdi).toInt < 2) (hlo : lo ≤ s.rsp - 2) (hhi : s.rsp + 1 ≤ hi) :
    Eventually (stepWithin lo hi code) (Returned s 0#64) t := by
  have hw := (h.within hlo hhi).1
  rw [← State.goto_of_line hline]
  refine within_instr rfl hw (within_jump rfl hw ?_ (leave ?_ rfl hrax hlo hhi))
  · simpa [exec, Cond.holds, State.next, Flags.lt_sub] using hrdi
  · exact h.congr rfl rfl rfl fun _ _ _ _ => rfl

theorem body_two (h : Kept s t) (hline : t.line = 4) (hrdi : t.regs .rdi = 2#64)
    (hlo : lo ≤ s.rsp - 2) (hhi : s.rsp + 1 ≤ hi) :
    Eventually (stepWithin lo hi code) (Returned s 1#64) t := by
  have hw := (h.within hlo hhi).1
  rw [← State.goto_of_line hline]
  refine within_instr rfl hw (within_skip rfl hw ?_ (within_jump rfl hw ?_
    (leave_one ?_ rfl hlo hhi)))
  · simp [exec, Cond.holds, State.next, Flags.lt_sub, hrdi]
  · simp [exec, Cond.holds, State.next, Flags.eq_sub, hrdi]
  · exact h.congr rfl rfl rfl fun _ _ _ _ => rfl

/-- **A larger argument**, given what the two calls return. -/
theorem body_large {v v' : BitVec 64} (h : Kept s t) (hline : t.line = 4)
    (hrdi : 2 < (t.regs .rdi).toInt) (hlo : lo ≤ s.rsp - 3) (hhi : s.rsp + 1 ≤ hi)
    (hfst : ∀ u, u.line = 0 → u.rsp = s.rsp - 3 → u.regs .rdi = t.regs .rdi - 1#64 →
      Eventually (stepWithin lo hi code) (Returned u v) u)
    (hsnd : ∀ u, u.line = 0 → u.rsp = s.rsp - 3 → u.regs .rdi = t.regs .rdi - 1#64 - 1#64 →
      Eventually (stepWithin lo hi code) (Returned u v') u) :
    Eventually (stepWithin lo hi code) (Returned s (v' + v)) t := by
  have hlo' : lo ≤ s.rsp - 2 := by omega
  have hw := (h.within hlo' hhi).1
  have hrsp := h.rsp
  rw [← State.goto_of_line hline]
  refine within_instr rfl hw (within_skip rfl hw ?_ (within_skip rfl hw ?_ ?_))
  · simp [exec, Cond.holds, State.next, Flags.lt_sub]
    omega
  · have hne : t.regs .rdi ≠ 2#64 := fun heq => by simp [heq] at hrdi
    simpa [exec, Cond.holds, State.next, Flags.eq_sub] using hne
  refine within_instr rfl hw (within_instr rfl hw ?_)
  refine within_call rfl (show 9 + 1 < 2 ^ 64 by decide) (show lo ≤ t.rsp - 1 by omega) hw.2
    (hfst _ rfl (show t.rsp - 1 = s.rsp - 3 by omega) ?_) fun t₁ ht₁ => ?_
  · simp [exec, State.next]
  have hkept₁ : Kept s t₁ := by
    refine Kept.call ?_ ht₁
    refine h.congr rfl rfl rfl fun r hr h12 _ => ?_
    have hne : r ≠ .rdi := ne_of_mem_calleeSaved hr (by decide)
    simp [exec, State.next, h12, hne]
  have hw₁ := (hkept₁.within hlo' hhi).1
  have hrsp₁ := hkept₁.rsp
  have hr12 : t₁.regs .r12 = t.regs .rdi - 1#64 := by
    rw [ht₁.saved .r12 (by decide)]
    simp [exec, State.next]
  rw [← State.goto_of_line ht₁.line]
  refine within_instr rfl hw₁ (within_instr rfl hw₁ (within_instr rfl hw₁ ?_))
  refine within_call rfl (show 13 + 1 < 2 ^ 64 by decide) (show lo ≤ t₁.rsp - 1 by omega) hw₁.2
    (hsnd _ rfl (show t₁.rsp - 1 = s.rsp - 3 by omega) ?_) fun t₂ ht₂ => ?_
  · simp [exec, State.next, hr12]
  have hkept₂ : Kept s t₂ := by
    refine Kept.call ?_ ht₂
    refine hkept₁.congr rfl rfl rfl fun r hr _ h13 => ?_
    have hne : r ≠ .rdi := ne_of_mem_calleeSaved hr (by decide)
    simp [exec, State.next, h13, hne]
  have hr13 : t₂.regs .r13 = v := by
    rw [ht₂.saved .r13 (by decide), ← ht₁.rax]
    simp [exec, State.next]
  rw [← State.goto_of_line ht₂.line]
  refine within_instr rfl (hkept₂.within hlo' hhi).1
    (leave (hkept₂.congr rfl rfl rfl fun r hr _ _ => ?_) rfl ?_ hlo' hhi)
  · have hne : r ≠ .rax := ne_of_mem_calleeSaved hr (by decide)
    simp [exec, State.next, hne]
  · simp [exec, State.next, hr13, ht₂.rax]

/-! ## The whole routine -/

/-- The slots below its return address that a call with the argument `n` uses: two for the
registers, and one more for the return address of each call inside. -/
def slots (n : ℤ) : ℤ := 3 * max (n - 1) 1 - 1

/-- **What the recursive routine returns**, by induction on the number of calls below the
first: the Fibonacci number before the argument's.  It stays in its part of the stack. -/
theorem runs_within (k : ℕ) (hs : s.line = 0) (hk : ((s.regs .rdi).toInt - 1).toNat = k)
    (hlo : lo ≤ s.rsp - slots (s.regs .rdi).toInt) (hhi : s.rsp + 1 ≤ hi) :
    Eventually (stepWithin lo hi code) (Returned s (BitVec.ofNat 64 (fib k))) s := by
  induction k using Nat.strong_induction_on generalizing s with
  | _ k ih =>
    unfold slots at hlo
    have hlo' : lo ≤ s.rsp - 2 := by omega
    refine enter hs hlo' hhi fun t hline hkept hrax hrdi => ?_
    rcases lt_trichotomy (s.regs .rdi).toInt 2 with hless | htwo | hmore
    · obtain rfl : k = 0 := by omega
      exact body_small hkept hline hrax (hrdi ▸ hless) hlo' hhi
    · obtain rfl : k = 1 := by omega
      refine body_two hkept hline (hrdi.trans (BitVec.eq_of_toInt_eq ?_)) hlo' hhi
      exact htwo
    · obtain ⟨m, rfl⟩ : ∃ m, k = m + 2 := ⟨k - 2, by omega⟩
      have hfst : (s.regs .rdi - 1#64).toInt = (s.regs .rdi).toInt - 1 :=
        toInt_sub_one (by omega)
      have hsnd : (s.regs .rdi - 1#64 - 1#64).toInt = (s.regs .rdi).toInt - 1 - 1 := by
        rw [toInt_sub_one (by omega), hfst]
      rw [Nat.fib_add_two, BitVec.ofNat_add]
      refine body_large hkept hline (hrdi ▸ hmore) (by omega) hhi (fun u hu hursp hurdi => ?_)
        fun u hu hursp hurdi => ?_
      · have harg : (u.regs .rdi).toInt = (s.regs .rdi).toInt - 1 := by rw [hurdi, hrdi, hfst]
        refine ih (m + 1) (by omega) hu (by omega) ?_ (by omega)
        unfold slots
        omega
      · have harg : (u.regs .rdi).toInt = (s.regs .rdi).toInt - 1 - 1 := by
          rw [hurdi, hrdi, hsnd]
        refine ih m (by omega) hu (by omega) ?_ (by omega)
        unfold slots
        omega

theorem runs (k : ℕ) (hs : s.line = 0) (hk : ((s.regs .rdi).toInt - 1).toNat = k) :
    Eventually (step code) (Returned s (BitVec.ofNat 64 (fib k))) s :=
  (runs_within k hs hk le_rfl le_rfl).of_inside

theorem returns (c : Call code) :
    c.Returns (BitVec.ofNat 64 (fib ((c.state.regs .rdi).toInt - 1).toNat)) :=
  runs _ c.atEntry rfl

/-! ## The stack in memory -/

/-- The sequence, by its own recurrence. -/
def f (n : ℤ) : ℕ :=
  if n < 2 then 0 else if n = 2 then 1 else f (n - 1) + f (n - 2)
termination_by n.toNat
decreasing_by all_goals omega

theorem f_eq_fib (n : ℤ) : f n = fib (n - 1).toNat := by
  induction n using f.induct with
  | case1 n hless =>
    rw [f, if_pos hless, Int.toNat_of_nonpos (by omega), Nat.fib_zero]
  | case2 hless =>
    rw [f, if_neg hless, if_pos rfl]
    rfl
  | case3 n hless hne ih₁ ih₂ =>
    obtain ⟨m, hm⟩ : ∃ m : ℕ, n = m + 3 := ⟨(n - 3).toNat, by omega⟩
    have hn : (n - 1).toNat = m + 2 := by omega
    have hfst : (n - 1 - 1).toNat = m + 1 := by omega
    have hsnd : (n - 2 - 1).toNat = m := by omega
    rw [f, if_neg hless, if_neg hne, ih₁, ih₂, hn, hfst, hsnd, Nat.fib_add_two, Nat.add_comm]

/-- **What a call of `fib` does**, for every argument and whatever the registers and the memory
hold, when there is room below the return address. -/
theorem returns_in_memory (t : Flat) (hentry : t.line = 0)
    (hroom : 8 * slots (t.regs .rdi).toInt ≤ t.rsp.toNat) :
    Eventually (Flat.step code) (FlatReturned t (BitVec.ofNat 64 (f (t.regs .rdi).toInt))) t := by
  obtain ⟨depth, hdepth⟩ : ∃ depth : ℕ, (depth : ℤ) = slots (t.regs .rdi).toInt :=
    ⟨(slots (t.regs .rdi).toInt).toNat, Int.toNat_of_nonneg (by unfold slots; omega)⟩
  have hlo : -(depth : ℤ) ≤ t.split.rsp - slots (t.split.regs .rdi).toInt := by
    show _ ≤ 0 - slots (t.regs .rdi).toInt
    omega
  rw [f_eq_fib]
  exact t.returned_of_within depth (by omega) (by decide)
    (runs_within _ hentry rfl hlo le_rfl)

/-- The argument `7`, with just the room it takes. -/
def callOfSeven : Flat where
  line := 0
  regs := fun r => if r = .rdi then 7 else 0
  flags := ⟨false, false, false⟩
  mem := fun _ => 255
  rsp := 136

theorem returns_in_memory_callOfSeven :
    Eventually (Flat.step code) (FlatReturned callOfSeven 8) callOfSeven := by
  have hf : f ((callOfSeven.regs .rdi).toInt) = 8 := by
    rw [f_eq_fib]
    decide
  have h := returns_in_memory callOfSeven rfl (by decide)
  rw [hf] at h
  exact h

end FibRec
end Assembly
end CaosSeminars
