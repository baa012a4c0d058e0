import CaosSeminars.Library.X86ReadOnly

/-!
# Eight floats at a time

The AVX instructions that move eight floats from memory to a register and back and that add them
lane by lane, together with the integer part of the machine (`X86`).  A register is its 32 bytes
and a float its four bytes; what the sum of two floats is, is a parameter.

The moves are the aligned ones: at an address that is not a multiple of 32 they fault.  So does,
on the machine of `stepAllowed`, a move that reads a byte which is not in `R` or writes one that
is not in `W`.

* `loadPs`, `storePs`, `addPs` --- the three instructions, on bytes.
* `allowed_label`, `allowed_instr`, `allowed_regs`, `allowed_jump`, `allowed_skip` --- the rules for
  a line on the machine that guards its moves.
* `Returned` --- what a routine owes its caller, the memory included.
-/

namespace CaosSeminars
namespace Avx

open X86

variable {L : Type}

/-- The bytes of a `float`. -/
abbrev Single : Type := Fin 4 → BitVec 8

/-- The bytes of a 256-bit register. -/
abbrev Ymm : Type := Fin 32 → BitVec 8

/-- One of the eight floats of a register. -/
def lane (v : Ymm) (i : Fin 8) : Single := fun k => v ⟨4 * i + k, by omega⟩

/-- The sums of the floats of two registers. -/
def addPs (add : Single → Single → Single) (v w : Ymm) : Ymm := fun j =>
  add (lane v ⟨j / 4, by omega⟩) (lane w ⟨j / 4, by omega⟩) ⟨j % 4, by omega⟩

/-- The 32 bytes from `a` on. -/
def loadPs (mem : BitVec 64 → BitVec 8) (a : BitVec 64) : Ymm := fun j =>
  mem (a + BitVec.ofNat 64 j)

/-- The memory with 32 bytes stored from `a` on. -/
def storePs (mem : BitVec 64 → BitVec 8) (a : BitVec 64) (v : Ymm) : BitVec 64 → BitVec 8 :=
  fun x => if h : (x - a).toNat < 32 then v ⟨(x - a).toNat, h⟩ else mem x

/-- An aligned move at `a` is possible where `M` is the memory. -/
def CanMove (M : BitVec 64 → Prop) (a : BitVec 64) : Prop :=
  a.toNat % 32 = 0 ∧ ∀ x ∈ bytesFrom a 32, M x

instance (M : BitVec 64 → Prop) [DecidablePred M] : DecidablePred (CanMove M) :=
  fun _ => inferInstanceAs (Decidable (_ ∧ _))

/-! ## The machine -/

inductive Instr (L : Type) where
  | scalar (i : X86.Instr L)
  | vmovapsLoad (d : Fin 16) (base index : Reg)
  | vmovapsStore (base index : Reg) (src : Fin 16)
  | vaddps (d v w : Fin 16)
  | jg (l : L)

structure State where
  core : X86.State
  ymm : Fin 16 → Ymm

namespace State

/-- `[base + index * 4]` -/
def address (s : State) (base index : Reg) : BitVec 64 :=
  s.core.regs base + s.core.regs index * 4#64

@[simps -fullyApplied] def setYmm (s : State) (d : Fin 16) (v : Ymm) : State :=
  { s with ymm := Function.update s.ymm d v }

@[simps -fullyApplied] def setMem (s : State) (mem : BitVec 64 → BitVec 8) : State :=
  { s with core := { s.core with mem := mem } }

@[simps -fullyApplied] def goto (s : State) (n : ℕ) : State := { s with core := s.core.goto n }

/-- Control goes to the next line. -/
def next (s : State) : State := s.goto (s.core.line + 1)

theorem goto_of_line {s : State} {n : ℕ} (h : s.core.line = n) : s.goto n = s := by
  subst h
  rfl

end State

/-- One instruction. -/
def exec (add : Single → Single → Single) (target : L → ℕ) : Instr L → State → State
  | .scalar i, s => { s with core := X86.exec target i s.core }
  | .vmovapsLoad d base index, s => (s.setYmm d (loadPs s.core.mem (s.address base index))).next
  | .vmovapsStore base index src, s =>
    (s.setMem (storePs s.core.mem (s.address base index) (s.ymm src))).next
  | .vaddps d v w, s => (s.setYmm d (addPs add (s.ymm v) (s.ymm w))).next
  | .jg l, s => s.goto (if s.core.flags.le then s.core.line + 1 else target l)

def machine (add : Single → Single → Single) : Machine L (Instr L) State where
  pc s := s.core.line
  pass := State.next
  exec := exec add

/-- The line reads bytes in `R`, writes bytes in `W` and is aligned; of the stack it reads the
slot `k`. -/
def Allowed (R W : BitVec 64 → Prop) (k : ℤ) (s : State) : Line L (Instr L) → Prop
  | .label _ => True
  | .instr (.scalar i) => ReadsOnly R k s.core (.instr i)
  | .instr (.vmovapsLoad _ base index) => CanMove R (s.address base index)
  | .instr (.vmovapsStore base index _) => CanMove W (s.address base index)
  | .instr (.vaddps _ _ _) | .instr (.jg _) => True

variable (add : Single → Single → Single) (R W : BitVec 64 → Prop) [DecidablePred R]
  [DecidablePred W] {k : ℤ} {s : State}

instance : DecidablePred (Allowed (L := L) R W k s)
  | .label _ | .instr (.vaddps _ _ _) | .instr (.jg _) => inferInstanceAs (Decidable True)
  | .instr (.scalar _) => inferInstanceAs (Decidable (ReadsOnly _ _ _ _))
  | .instr (.vmovapsLoad _ _ _) | .instr (.vmovapsStore _ _ _) =>
    inferInstanceAs (Decidable (CanMove _ _))

variable [DecidableEq L] (code : List (Line L (Instr L)))

/-- A listing run where `R` can be read and `W` written. -/
def stepAllowed (k : ℤ) : State → Option State := (machine add).stepGuarded (Allowed R W k) code

variable {add R W code} {P : State → Prop}

theorem allowed_label {l : L} (h : code[s.core.line]? = some (.label l))
    (hnext : Eventually (stepAllowed add R W code k) P s.next) :
    Eventually (stepAllowed add R W code k) P s :=
  (machine add).guarded_label h trivial hnext

theorem allowed_instr {i : Instr L} (h : code[s.core.line]? = some (.instr i))
    (hs : Allowed R W k s (.instr i))
    (hnext : Eventually (stepAllowed add R W code k) P (exec add (target code) i s)) :
    Eventually (stepAllowed add R W code k) P s :=
  (machine add).guarded_instr h hs hnext

/-- An instruction on the numbered registers. -/
theorem allowed_regs {i : X86.Instr L} (h : code[s.core.line]? = some (.instr (.scalar i)))
    (hregs : i.onRegs = true)
    (hnext : Eventually (stepAllowed add R W code k) P (exec add (target code) (.scalar i) s)) :
    Eventually (stepAllowed add R W code k) P s :=
  allowed_instr h (readsOnly_of_onRegs hregs) hnext

theorem allowed_jump {l : L} (h : code[s.core.line]? = some (.instr (.jg l)))
    (hle : ¬s.core.flags.le = true)
    (hnext : Eventually (stepAllowed add R W code k) P (s.goto (target code l))) :
    Eventually (stepAllowed add R W code k) P s := by
  refine allowed_instr h trivial ?_
  rwa [exec, if_neg hle]

theorem allowed_skip {l : L} (h : code[s.core.line]? = some (.instr (.jg l)))
    (hle : s.core.flags.le = true) (hnext : Eventually (stepAllowed add R W code k) P s.next) :
    Eventually (stepAllowed add R W code k) P s := by
  refine allowed_instr h trivial ?_
  rwa [exec, if_pos hle]

/-- What becomes of a call that was entered in `s` and left the memory `mem`. -/
structure Returned (s : State) (mem : BitVec 64 → BitVec 8) (t : State) : Prop where
  line : t.core.line = s.core.top.toNat
  rsp : t.core.rsp = s.core.rsp + 1
  saved : ∀ r ∈ calleeSaved, t.core.regs r = s.core.regs r
  mem : t.core.mem = mem
  stack : ∀ i, s.core.rsp ≤ i → t.core.stack i = s.core.stack i

end Avx
end CaosSeminars
