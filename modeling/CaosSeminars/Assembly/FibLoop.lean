import CaosSeminars.Library.FibMod
import CaosSeminars.Library.X86ReadOnly

/-!
# The iterative `fib`

`fib-loop/fib.s` keeps two neighbouring Fibonacci numbers in `rax` and `r8` and moves them
on once for every count of `rdi`.  The test that ends the loop is a signed one and comes
first, so that a negative argument ends it at once.

Everything is computed modulo `2 ^ 64`, and nothing else is touched: no register a caller
expects to keep, no memory, and of the stack only the return address is read.

* `AtLoop` --- the invariant at the label of the loop, with the number of rounds made so far.
* `enter`, `round`, `leave` --- the three parts of the listing, one lemma each.
* `runs`, `returns` --- the routine returns the Fibonacci number of its argument, `0` for a
  negative one, and keeps what a caller expects to be kept.
* `returns_untouched` --- the same with the stack in memory: no byte of the memory is written, and
  none is read but the return address.
-/

namespace CaosSeminars
namespace Assembly

open X86
open Nat (fib)

namespace FibLoop

inductive Label where
  | fib
  | loop
  | exit
  deriving DecidableEq

/-- `fib-loop/fib.s` -/
def code : List (Line Label (Instr Label)) :=
  [ .label .fib,
    .instr (.mov .qword .rax (.imm 0)),
    .instr (.mov .qword .r8 (.imm 1)),
    .label .loop,
    .instr (.cmp .qword .rdi (.imm 0)),
    .instr (.j .le .exit),
    .instr (.dec .qword .rdi),
    .instr (.mov .qword .r9 (.reg .rax)),
    .instr (.mov .qword .rax (.reg .r8)),
    .instr (.add .qword .r8 (.reg .r9)),
    .instr (.jmp .loop),
    .label .exit,
    .instr .ret ]

/-- The registers the routine uses. -/
def used : List Reg := [.rax, .rdi, .r8, .r9]

theorem not_mem_used {r : Reg} : r ∉ used ↔ r ≠ .rax ∧ r ≠ .rdi ∧ r ≠ .r8 ∧ r ≠ .r9 := by
  simp [used]

/-- What holds at `.loop` of a call entered in `s` with the argument `n`: after `m` rounds,
the `m`-th Fibonacci number and the one after it. -/
structure AtLoop (s : State) (n : ℕ) (t : State) : Prop where
  line : t.line = 3
  keeps : Keeps used s t
  pair : ∃ m, m + (t.regs .rdi).toInt.toNat = n ∧
    t.regs .rax = BitVec.ofNat 64 (fib m) ∧ t.regs .r8 = BitVec.ofNat 64 (fib (m + 1))

/-- A call entered in `s` run where nothing but the return address can be read. -/
def stepAlone (s : State) : State → Option State := stepReading (fun _ => False) code s.rsp

variable {s t : State} {n : ℕ} {P : State → Prop}

/-- The two moves before the loop. -/
theorem enter (hs : s.line = 0) (hn : (s.regs .rdi).toInt.toNat = n)
    (hnext : ∀ t, AtLoop s n t → Eventually (stepAlone s) P t) : Eventually (stepAlone s) P s := by
  suffices h : Eventually (stepAlone s) P (s.goto 0) by rwa [State.goto_of_line hs] at h
  refine reading_label rfl (reading_regs rfl rfl (reading_regs rfl rfl (hnext _ ?_)))
  refine ⟨rfl, ⟨rfl, fun r hr => ?_, rfl, rfl⟩, 0, ?_, ?_, ?_⟩
  · simp [exec, State.next, not_mem_used.mp hr]
  · simpa [exec, State.next] using hn
  · simp [exec, State.next]
  · simp [exec, State.next]

/-- **A round** counts `rdi` down and moves the pair on. -/
theorem round (h : AtLoop s n t) (hpos : 0 < (t.regs .rdi).toInt)
    (hnext : ∀ u, AtLoop s n u → u.regs .rdi = t.regs .rdi - 1#64 →
      Eventually (stepAlone s) P u) : Eventually (stepAlone s) P t := by
  obtain ⟨hline, hkeeps, m, hm, hrax, hr8⟩ := h
  rw [← State.goto_of_line hline]
  refine reading_label rfl (reading_regs rfl rfl (reading_skip rfl ?_ ?_))
  · simpa [exec, Cond.holds, State.next, Flags.le_sub] using hpos
  refine reading_regs rfl rfl (reading_regs rfl rfl (reading_regs rfl rfl ?_))
  refine reading_regs rfl rfl (reading_regs rfl rfl (hnext _ ?_ (by simp [exec, State.next])))
  refine ⟨rfl, hkeeps.trans ⟨rfl, fun r hr => ?_, rfl, rfl⟩, m + 1, ?_, ?_, ?_⟩
  · simp [exec, State.next, not_mem_used.mp hr]
  · simp [exec, State.next, -BitVec.toInt_sub, toInt_sub_one hpos]
    omega
  · simpa [exec, State.next] using hr8
  · simp [exec, State.next, hrax, hr8, Nat.fib_add_two, BitVec.ofNat_add, BitVec.add_comm]

/-- The jump out of the loop and the return. -/
theorem leave (h : AtLoop s n t) (hpos : (t.regs .rdi).toInt ≤ 0) :
    Eventually (stepAlone s) (Returned s (BitVec.ofNat 64 (fib n))) t := by
  obtain ⟨hline, hkeeps, m, hm, hrax, -⟩ := h
  rw [← State.goto_of_line hline]
  refine reading_label rfl (reading_regs rfl rfl (reading_jump rfl ?_ ?_))
  · simpa [exec, Cond.holds, State.next, Flags.le_sub] using hpos
  refine reading_label rfl (reading_instr rfl hkeeps.rsp (.now ?_))
  obtain rfl : m = n := by omega
  refine Restored.returned (Keeps.restored (hkeeps.trans ?_) (by decide)) hrax
  exact ⟨rfl, fun _ _ => rfl, rfl, rfl⟩

/-- **What the iterative routine returns**, whatever the registers, the memory and the stack
hold and wherever it was called from. -/
theorem runs_alone (hs : s.line = 0) :
    Eventually (stepAlone s)
      (Returned s (BitVec.ofNat 64 (fib (s.regs .rdi).toInt.toNat))) s := by
  refine enter hs rfl fun t ht => ?_
  refine Eventually.loop (AtLoop s (s.regs .rdi).toInt.toNat)
    (fun t => (t.regs .rdi).toInt.toNat) (fun t ht => ?_) ht
  rcases lt_or_ge 0 (t.regs .rdi).toInt with hpos | hpos
  · refine round ht hpos fun u hu hrdi => .now (.inr ⟨hu, ?_⟩)
    rw [hrdi, toInt_sub_one hpos]
    omega
  · exact (leave ht hpos).mono fun _ => .inl

theorem runs (hs : s.line = 0) :
    Eventually (step code)
      (Returned s (BitVec.ofNat 64 (fib (s.regs .rdi).toInt.toNat))) s :=
  (runs_alone hs).of_guarded

theorem returns (c : Call code) :
    c.Returns (BitVec.ofNat 64 (fib (c.state.regs .rdi).toInt.toNat)) :=
  runs c.atEntry

/-! ## The stack in memory -/

/-- **What a call of the iterative `fib` does**, for every argument and whatever the registers and
the memory hold: the return address is the one word of memory it reads, it writes none, and no
line of it names a register that has to be saved. -/
theorem returns_untouched (t : Flat) (hentry : t.line = 0) :
    Eventually (Flat.stepReading (InBytes t.rsp 8) code)
        (fun u => u.mem = t.mem ∧
          FlatReturned t (BitVec.ofNat 64 (fib (max (t.regs .rdi).toInt 0).toNat)) u) t ∧
      ∀ l ∈ code, ∀ r ∈ calleeSaved, lineNames r l = false := by
  refine ⟨?_, by decide⟩
  have hmax : (max (t.regs .rdi).toInt 0).toNat = (t.split.regs .rdi).toInt.toNat := by
    show (max (t.regs .rdi).toInt 0).toNat = (t.regs .rdi).toInt.toNat
    omega
  have hrun := Flat.returned_of_reading t (runs_alone (s := t.split) hentry)
  rw [hmax]
  refine (Flat.reading_mono (fun x hx => ?_) hrun).mono fun u hu => hu.symm
  exact hx.resolve_left id

/-- The call with the argument `-3`. -/
def callOfNegative : Flat where
  line := 0
  regs := fun r => if r = .rdi then -3 else 0
  flags := ⟨false, false, false⟩
  mem := fun _ => 255
  rsp := 0x2000

theorem returns_untouched_callOfNegative :
    Eventually (Flat.stepReading (InBytes 0x2000 8) code)
        (fun u => u.mem = callOfNegative.mem ∧ FlatReturned callOfNegative 0 u) callOfNegative ∧
      ∀ l ∈ code, ∀ r ∈ calleeSaved, lineNames r l = false :=
  returns_untouched callOfNegative rfl

end FibLoop
end Assembly
end CaosSeminars
