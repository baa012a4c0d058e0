import CaosSeminars.Library.Flags
import CaosSeminars.Library.Listing
import Mathlib.Data.Int.Basic

/-!
# The integer part of x86-64

The instructions a small routine is written in, at the two widths at which such a routine
works: a 32-bit result clears the upper half of its register.  Data memory is addressed by
bytes and holds words with the lowest byte first.

The stack is kept apart from the data memory and from the numbered registers.  It consists
of slots of eight bytes, `rsp` counts slots, a push goes to the slot below, and there is no
last slot: a routine is given as much stack as it asks for.  A return address is the number
of a line.  `stepWithin` runs a listing with the stack pointer kept between two slots, and
`X86Flat` puts such a stack into memory.

The System V convention is what a routine owes its caller: `Returned s v t` says that `t` is
what becomes of a call entered in `s` when it returns `v`.

* `exec` --- one instruction; `machine`, `step` --- the machine, as an instance of `Listing`.
* `Restored` --- all that a caller is owed is in place but for the result; `Keeps` --- nothing
  but some registers and the flags has changed, which is enough for a routine that uses no
  other.
* `within_label`, `within_instr`, `within_jump`, `within_skip`, `within_call` --- the rules
  for a line between two slots.
* `Call.Returns.unique` --- a call returns one value at most.
-/

namespace CaosSeminars
namespace X86

/-- The numbered registers and the others but `rsp`. -/
inductive Reg where
  | rax | rbx | rcx | rdx | rsi | rdi | rbp
  | r8 | r9 | r10 | r11 | r12 | r13 | r14 | r15
  deriving DecidableEq

/-- How much of a register an instruction works on: `edi` or `rdi`. -/
inductive Width where
  | dword
  | qword

@[reducible] def Width.bits : Width → ℕ
  | dword => 32
  | qword => 64

/-- What a source operand is: a register, a number, or the memory a register points to. -/
inductive Src where
  | reg (r : Reg)
  | imm (n : ℤ)
  | mem (r : Reg)

/-- The conditions of the conditional jumps. -/
inductive Cond where
  | e
  | l
  | le

def Cond.holds : Cond → Flags → Bool
  | e => Flags.eq
  | l => Flags.lt
  | le => Flags.le

inductive Instr (L : Type) where
  | mov (w : Width) (d : Reg) (src : Src)
  | add (w : Width) (d : Reg) (src : Src)
  | sub (w : Width) (d : Reg) (src : Src)
  | cmp (w : Width) (d : Reg) (src : Src)
  | dec (w : Width) (d : Reg)
  | push (r : Reg)
  | pop (r : Reg)
  | jmp (l : L)
  | j (c : Cond) (l : L)
  | call (l : L)
  | ret

/-! ## States -/

structure State where
  line : ℕ
  regs : Reg → BitVec 64
  flags : Flags
  mem : BitVec 64 → BitVec 8
  rsp : ℤ
  stack : ℤ → BitVec 64

/-- The number the `k` bytes from `a` on hold, lowest byte first. -/
def load (mem : BitVec 64 → BitVec 8) (a : BitVec 64) : ℕ → ℕ
  | 0 => 0
  | k + 1 => (mem a).toNat + 256 * load mem (a + 1) k

namespace State

/-- The value a source operand has. -/
def read (s : State) (w : Width) : Src → BitVec w.bits
  | .reg r => (s.regs r).setWidth w.bits
  | .imm n => BitVec.ofInt w.bits n
  | .mem r => BitVec.ofNat w.bits (load s.mem (s.regs r) (w.bits / 8))

/-- Control goes to line `n`. -/
@[simps -fullyApplied] def goto (s : State) (n : ℕ) : State := { s with line := n }

/-- Control goes to the next line. -/
def next (s : State) : State := s.goto (s.line + 1)

/-- A result goes to a register; the upper half of a register is cleared by a 32-bit one. -/
@[simps -fullyApplied] def setReg (s : State) (w : Width) (r : Reg) (v : BitVec w.bits) : State :=
  { s with regs := Function.update s.regs r (v.setWidth 64) }

@[simps -fullyApplied] def setFlags (s : State) (f : Flags) : State := { s with flags := f }

@[simps -fullyApplied] def push (s : State) (v : BitVec 64) : State :=
  { s with rsp := s.rsp - 1, stack := Function.update s.stack (s.rsp - 1) v }

/-- The slot `rsp` points to. -/
def top (s : State) : BitVec 64 := s.stack s.rsp

@[simps -fullyApplied] def pop (s : State) : State := { s with rsp := s.rsp + 1 }

@[simp] theorem read_qword_reg (s : State) (r : Reg) : s.read .qword (.reg r) = s.regs r :=
  BitVec.setWidth_eq _

@[simp] theorem read_dword_reg (s : State) (r : Reg) :
    s.read .dword (.reg r) = (s.regs r).setWidth 32 := rfl

@[simp] theorem read_dword_imm (s : State) (n : ℤ) :
    s.read .dword (.imm n) = BitVec.ofInt 32 n := rfl

@[simp] theorem read_dword_mem (s : State) (r : Reg) :
    s.read .dword (.mem r) = BitVec.ofNat 32 (load s.mem (s.regs r) 4) := rfl

@[simp] theorem read_qword_imm (s : State) (n : ℤ) :
    s.read .qword (.imm n) = BitVec.ofInt 64 n := rfl

theorem goto_of_line {s : State} {n : ℕ} (h : s.line = n) : s.goto n = s := by
  subst h
  rfl

end State

/-! ## Execution -/

variable {L : Type}

/-- One instruction. -/
def exec (target : L → ℕ) : Instr L → State → State
  | .mov w d src, s => (s.setReg w d (s.read w src)).next
  | .add w d src, s =>
    let a := s.read w (.reg d)
    let b := s.read w src
    ((s.setReg w d (a + b)).setFlags (.add a b)).next
  | .sub w d src, s =>
    let a := s.read w (.reg d)
    let b := s.read w src
    ((s.setReg w d (a - b)).setFlags (.sub a b)).next
  | .cmp w d src, s => (s.setFlags (.sub (s.read w (.reg d)) (s.read w src))).next
  | .dec w d, s =>
    let a := s.read w (.reg d)
    ((s.setReg w d (a - 1)).setFlags (.sub a 1)).next
  | .push r, s => (s.push (s.regs r)).next
  | .pop r, s => (s.pop.setReg .qword r s.top).next
  | .jmp l, s => s.goto (target l)
  | .j c l, s => s.goto (if c.holds s.flags then target l else s.line + 1)
  | .call l, s => (s.push (BitVec.ofNat 64 (s.line + 1))).goto (target l)
  | .ret, s => s.pop.goto s.top.toNat

/-! ## What a routine owes its caller -/

/-- The registers a routine leaves as they were. -/
def calleeSaved : List Reg := [.rbx, .rbp, .r12, .r13, .r14, .r15]

theorem ne_of_mem_calleeSaved {r d : Reg} (hr : r ∈ calleeSaved) (hd : d ∉ calleeSaved) : r ≠ d :=
  fun h => hd (h ▸ hr)

/-- `t` is the state after a call that was entered in `s` and returned `v`. -/
structure Returned (s : State) (v : BitVec 64) (t : State) : Prop where
  line : t.line = s.top.toNat
  rsp : t.rsp = s.rsp + 1
  rax : t.regs .rax = v
  saved : ∀ r ∈ calleeSaved, t.regs r = s.regs r
  mem : t.mem = s.mem
  stack : ∀ i, s.rsp ≤ i → t.stack i = s.stack i

/-- `t` is the state at the line below a call instruction that stands where `s` is, once the
call has returned `v`. -/
structure AfterCall (s : State) (v : BitVec 64) (t : State) : Prop where
  line : t.line = s.line + 1
  rsp : t.rsp = s.rsp
  rax : t.regs .rax = v
  saved : ∀ r ∈ calleeSaved, t.regs r = s.regs r
  mem : t.mem = s.mem
  stack : ∀ i, s.rsp ≤ i → t.stack i = s.stack i

/-- The slot of the return address is below what the caller has on the stack. -/
theorem Returned.afterCall {s t : State} {v : BitVec 64} {target : L → ℕ} {l : L}
    (hline : s.line + 1 < 2 ^ 64) (h : Returned (exec target (.call l) s) v t) :
    AfterCall s v t where
  line := by
    rw [h.line, State.top]
    simpa [exec] using hline
  rsp := by simpa [exec] using h.rsp
  rax := h.rax
  saved := h.saved
  mem := h.mem
  stack i hi := by
    rw [h.stack i (show s.rsp - 1 ≤ i by omega)]
    exact Function.update_of_ne (by omega) _ _

/-- What a caller is owed, but for the result, is in place, and the return address is on top
of the stack again. -/
structure Restored (s t : State) : Prop where
  rsp : t.rsp = s.rsp
  saved : ∀ r ∈ calleeSaved, t.regs r = s.regs r
  mem : t.mem = s.mem
  stack : ∀ i, s.rsp ≤ i → t.stack i = s.stack i

/-- **The return**. -/
theorem Restored.returned {s t : State} {v : BitVec 64} {target : L → ℕ} (h : Restored s t)
    (hv : t.regs .rax = v) : Returned s v (exec target .ret t) where
  line := by
    change (t.stack t.rsp).toNat = (s.stack s.rsp).toNat
    rw [h.rsp, h.stack _ le_rfl]
  rsp := congrArg (· + 1) h.rsp
  rax := hv
  saved := h.saved
  mem := h.mem
  stack := h.stack

theorem Restored.mov {s t : State} {target : L → ℕ} {w : Width} {d : Reg} {src : Src}
    (h : Restored s t) (hd : d ∉ calleeSaved) : Restored s (exec target (.mov w d src) t) where
  rsp := h.rsp
  saved r hr := by
    simp [exec, State.next, ne_of_mem_calleeSaved hr hd, h.saved r hr]
  mem := h.mem
  stack := h.stack

/-- Nothing but the registers `rs`, the flags and the line has changed. -/
structure Keeps (rs : List Reg) (s t : State) : Prop where
  rsp : t.rsp = s.rsp
  regs : ∀ r ∉ rs, t.regs r = s.regs r
  mem : t.mem = s.mem
  stack : t.stack = s.stack

theorem Keeps.trans {rs : List Reg} {s t u : State} (h : Keeps rs s t) (h' : Keeps rs t u) :
    Keeps rs s u where
  rsp := h'.rsp.trans h.rsp
  regs r hr := (h'.regs r hr).trans (h.regs r hr)
  mem := h'.mem.trans h.mem
  stack := h'.stack.trans h.stack

/-- A routine that uses neither a saved register nor the stack. -/
theorem Keeps.restored {rs : List Reg} {s t : State} (h : Keeps rs s t)
    (hrs : ∀ r ∈ calleeSaved, r ∉ rs) : Restored s t where
  rsp := h.rsp
  saved r hr := h.regs r (hrs r hr)
  mem := h.mem
  stack i _ := congrFun h.stack i

/-! ## Runs -/

def machine : Machine L (Instr L) State where
  pc := State.line
  pass := State.next
  exec := exec

variable [DecidableEq L] {code : List (Line L (Instr L))} {P : State → Prop} {s t : State}

/-- A listing run on this machine. -/
def step (code : List (Line L (Instr L))) : State → Option State := machine.step code

/-! ## Runs on a stack with two ends -/

/-- The stack pointer is neither below `lo` nor above `hi`. -/
def Within (lo hi : ℤ) (s : State) : Prop := lo ≤ s.rsp ∧ s.rsp ≤ hi

instance (lo hi : ℤ) : DecidablePred (Within lo hi) := fun _ => inferInstanceAs (Decidable (_ ∧ _))

/-- A listing run with the stack pointer kept within bounds. -/
def stepWithin (lo hi : ℤ) (code : List (Line L (Instr L))) : State → Option State :=
  inside (Within lo hi) (step code)

variable {lo hi : ℤ}

theorem within_label {l : L} (h : code[s.line]? = some (.label l)) (hw : Within lo hi s)
    (hnext : Eventually (stepWithin lo hi code) P s.next) :
    Eventually (stepWithin lo hi code) P s :=
  .step_inside (machine.step_label h) hw hnext

theorem within_instr {i : Instr L} (h : code[s.line]? = some (.instr i))
    (hw : Within lo hi (exec (target code) i s))
    (hnext : Eventually (stepWithin lo hi code) P (exec (target code) i s)) :
    Eventually (stepWithin lo hi code) P s :=
  .step_inside (machine.step_instr h) hw hnext

theorem within_jump {c : Cond} {l : L} (h : code[s.line]? = some (.instr (.j c l)))
    (hw : Within lo hi s) (hc : c.holds s.flags = true)
    (hnext : Eventually (stepWithin lo hi code) P (s.goto (target code l))) :
    Eventually (stepWithin lo hi code) P s := by
  refine within_instr h hw ?_
  rwa [exec, if_pos hc]

theorem within_skip {c : Cond} {l : L} (h : code[s.line]? = some (.instr (.j c l)))
    (hw : Within lo hi s) (hc : ¬c.holds s.flags = true)
    (hnext : Eventually (stepWithin lo hi code) P s.next) :
    Eventually (stepWithin lo hi code) P s := by
  refine within_instr h hw ?_
  rwa [exec, if_neg hc]

/-- **The rule of a call**: what the routine does, from its first line to its return, and
then the line below the call. -/
theorem within_call {l : L} {v : BitVec 64} (h : code[s.line]? = some (.instr (.call l)))
    (hline : s.line + 1 < 2 ^ 64) (hlo : lo ≤ s.rsp - 1) (hhi : s.rsp ≤ hi)
    (hcall : Eventually (stepWithin lo hi code) (Returned (exec (target code) (.call l) s) v)
      (exec (target code) (.call l) s))
    (hnext : ∀ t, AfterCall s v t → Eventually (stepWithin lo hi code) P t) :
    Eventually (stepWithin lo hi code) P s := by
  refine within_instr h ⟨hlo, ?_⟩ (hcall.bind fun t ht => hnext t (ht.afterCall hline))
  show s.rsp - 1 ≤ hi
  omega

/-! ## Calls -/

/-- A call from outside the listing: control is at the first line, where the routine's own
label stands, and the return address on top of the stack is not in the listing. -/
structure Call (code : List (Line L (Instr L))) where
  state : State
  atEntry : state.line = 0
  fromOutside : code.length ≤ state.top.toNat

/-- The call with these arguments from the line after the listing, with nothing else in the
registers and on the stack. -/
def Call.ofArgs (code : List (Line L (Instr L))) (hlen : code.length < 2 ^ 64)
    (rdi rsi : BitVec 64) (mem : BitVec 64 → BitVec 8) : Call code where
  state :=
    { line := 0
      regs := fun r => if r = .rdi then rdi else if r = .rsi then rsi else 0
      flags := ⟨false, false, false⟩
      mem := mem
      rsp := 0
      stack := fun _ => BitVec.ofNat 64 code.length }
  atEntry := rfl
  fromOutside := by
    rw [State.top, BitVec.toNat_ofNat, Nat.mod_eq_of_lt hlen]

/-- The call returns `v`. -/
def Call.Returns (c : Call code) (v : BitVec 64) : Prop :=
  Eventually (step code) (Returned c.state v) c.state

/-- **A call returns one value at most.** -/
theorem Call.Returns.unique {c : Call code} {v v' : BitVec 64} (h : c.Returns v)
    (h' : c.Returns v') : v = v' := by
  obtain ⟨t, hreach, ht⟩ := h
  obtain ⟨t', hreach', ht'⟩ := h'
  obtain rfl : t = t' := machine.unique_outside hreach (c.fromOutside.trans ht.line.ge) hreach'
    (c.fromOutside.trans ht'.line.ge)
  rw [← ht.rax, ht'.rax]

end X86
end CaosSeminars
