import CaosSeminars.Library.Flags
import CaosSeminars.Library.Listing

/-!
# A corner of AArch64

The 64-bit arithmetic of the numbered registers, a comparison and the jump that follows it.
A call leaves its return address in `x30`, so that a routine that calls nothing has nothing
to do with the stack.  As on the other machine a return address is the number of a line.

* `machine`, `step` --- the machine, as an instance of `Listing`.
* `eventually_label`, `eventually_instr`, `eventually_blt`, `eventually_skip` --- the rules
  for a line: a label, an instruction, a conditional jump that is taken and one that is not.
* `Returned`, `Call.Returns` --- what a routine owes its caller; a call returns one value at most.
-/

namespace CaosSeminars
namespace AArch64

/-- `x0` to `x30`. -/
abbrev Reg := Fin 31

instance neZeroRegs : NeZero 31 := ⟨by decide⟩

/-- The second operand of an instruction: a register or a number. -/
inductive Src where
  | reg (r : Reg)
  | imm (n : ℤ)

inductive Instr (L : Type) where
  | mov (d : Reg) (src : Src)
  | add (d n : Reg) (src : Src)
  | cmp (n : Reg) (src : Src)
  | blt (l : L)
  | ret

structure State where
  line : ℕ
  regs : Reg → BitVec 64
  flags : Flags

namespace State

/-- The value an operand has. -/
def read (s : State) : Src → BitVec 64
  | .reg r => s.regs r
  | .imm n => BitVec.ofInt 64 n

@[simp] theorem read_reg (s : State) (r : Reg) : s.read (.reg r) = s.regs r := rfl

@[simp] theorem read_imm (s : State) (n : ℤ) : s.read (.imm n) = BitVec.ofInt 64 n := rfl

@[simps -fullyApplied] def goto (s : State) (n : ℕ) : State := { s with line := n }

/-- Control goes to the next line. -/
def next (s : State) : State := s.goto (s.line + 1)

@[simps -fullyApplied] def setReg (s : State) (r : Reg) (v : BitVec 64) : State :=
  { s with regs := Function.update s.regs r v }

@[simps -fullyApplied] def setFlags (s : State) (f : Flags) : State := { s with flags := f }

theorem goto_of_line {s : State} {n : ℕ} (h : s.line = n) : s.goto n = s := by
  subst h
  rfl

end State

variable {L : Type}

/-- One instruction; an `add` leaves the flags alone. -/
def exec (target : L → ℕ) : Instr L → State → State
  | .mov d src, s => (s.setReg d (s.read src)).next
  | .add d n src, s => (s.setReg d (s.regs n + s.read src)).next
  | .cmp n src, s => (s.setFlags (.sub (s.regs n) (s.read src))).next
  | .blt l, s => s.goto (if s.flags.lt then target l else s.line + 1)
  | .ret, s => s.goto (s.regs 30).toNat

def machine : Machine L (Instr L) State where
  pc := State.line
  pass := State.next
  exec := exec

variable [DecidableEq L] {code : List (Line L (Instr L))} {P : State → Prop} {s : State}

/-- A listing run on this machine. -/
def step (code : List (Line L (Instr L))) : State → Option State := machine.step code

theorem eventually_label {l : L} (h : code[s.line]? = some (.label l))
    (hnext : Eventually (step code) P s.next) : Eventually (step code) P s :=
  machine.eventually_label h hnext

theorem eventually_instr {i : Instr L} (h : code[s.line]? = some (.instr i))
    (hnext : Eventually (step code) P (exec (target code) i s)) : Eventually (step code) P s :=
  machine.eventually_instr h hnext

theorem eventually_blt {l : L} (h : code[s.line]? = some (.instr (.blt l)))
    (hlt : s.flags.lt = true) (hnext : Eventually (step code) P (s.goto (target code l))) :
    Eventually (step code) P s := by
  refine eventually_instr h ?_
  rwa [exec, if_pos hlt]

theorem eventually_skip {l : L} (h : code[s.line]? = some (.instr (.blt l)))
    (hlt : ¬ s.flags.lt = true) (hnext : Eventually (step code) P s.next) :
    Eventually (step code) P s := by
  refine eventually_instr h ?_
  rwa [exec, if_neg hlt]

/-! ## Calls -/

theorem ne_of_saved {r d : Reg} (hr : 19 ≤ r) (hd : d < 19) : r ≠ d := (hd.trans_le hr).ne'

/-- `t` is the state after a call that was entered in `s` and returned `v`; the registers from
`x19` on are the caller's. -/
structure Returned (s : State) (v : BitVec 64) (t : State) : Prop where
  line : t.line = (s.regs 30).toNat
  x0 : t.regs 0 = v
  saved : ∀ r, 19 ≤ r → t.regs r = s.regs r

/-- A call from outside the listing: control is at the first line, where the routine's own
label stands, and the return address is not in the listing. -/
structure Call (code : List (Line L (Instr L))) where
  state : State
  atEntry : state.line = 0
  fromOutside : code.length ≤ (state.regs 30).toNat

/-- The call with this argument from the line after the listing, with nothing else in the
registers. -/
def Call.ofArg (code : List (Line L (Instr L))) (hlen : code.length < 2 ^ 64) (x0 : BitVec 64) :
    Call code where
  state :=
    { line := 0
      regs := fun r => if r = 0 then x0 else BitVec.ofNat 64 code.length
      flags := ⟨false, false, false⟩ }
  atEntry := rfl
  fromOutside := by
    change code.length ≤ (BitVec.ofNat 64 code.length).toNat
    rw [BitVec.toNat_ofNat, Nat.mod_eq_of_lt hlen]

/-- The call returns `v`. -/
def Call.Returns (c : Call code) (v : BitVec 64) : Prop :=
  Eventually (step code) (Returned c.state v) c.state

/-- **A call returns one value at most.** -/
theorem Call.Returns.unique {c : Call code} {v v' : BitVec 64} (h : c.Returns v)
    (h' : c.Returns v') : v = v' := by
  obtain ⟨t, hreach, ht⟩ := h
  obtain ⟨t', hreach', ht'⟩ := h'
  obtain rfl : t = t' := machine.unique_outside hreach (c.fromOutside.trans ht.line.ge) hreach'
    (c.fromOutside.trans ht'.line.ge)
  rw [← ht.x0, ht'.x0]

end AArch64
end CaosSeminars
