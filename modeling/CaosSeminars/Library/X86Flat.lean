import CaosSeminars.Library.X86
import Mathlib.Tactic.Ring

/-!
# x86-64 with the stack in memory

On the machine of `X86` the stack is a thing of its own, without an end.  On a real one it is a
part of the memory: `rsp` is an address, a push stores eight bytes below it, and the address
space goes round.  `Flat` is that machine.

A run of a listing on the first machine, with the stack pointer kept between two slots, is a run
on the second one, as long as the slots fit into the address space and the listing reads no data
memory (`Rep.eventually`).  So a routine that returns on the first machine with a known number of
slots returns on the second one when there is room for them below `rsp`
(`Flat.returned_of_within`).

* `load_eq_mod`, `load_div_mod` --- a word and its bytes, in both directions.
* `storeWord_inside`, `storeWord_outside` --- what a store leaves.
* `Rep` --- the memory has the words of the stack in the slots; `Rep.exec` is one instruction,
  `Rep.step` one line.
-/

namespace CaosSeminars
namespace X86

variable {L : Type} {mem : BitVec 64 → BitVec 8} {a base : BitVec 64} {j k n : ℕ}

/-! ## Words in memory -/

/-- A byte of a word. -/
def byte (v : BitVec 64) (k : ℕ) : BitVec 8 := BitVec.ofNat 8 (v.toNat / 256 ^ k)

/-- The word at an address. -/
def word (mem : BitVec 64 → BitVec 8) (a : BitVec 64) : BitVec 64 := BitVec.ofNat 64 (load mem a 8)

/-- The memory with a word stored at an address. -/
def storeWord (mem : BitVec 64 → BitVec 8) (a v : BitVec 64) : BitVec 64 → BitVec 8 :=
  fun x => if (x - a).toNat < 8 then byte v (x - a).toNat else mem x

theorem byte_toNat (v : BitVec 64) (k : ℕ) : (byte v k).toNat = v.toNat / 256 ^ k % 256 :=
  BitVec.toNat_ofNat _ _

theorem add_one_add_ofNat (a : BitVec 64) (j : ℕ) :
    a + 1 + BitVec.ofNat 64 j = a + BitVec.ofNat 64 (j + 1) := by
  rw [Nat.add_comm j 1, BitVec.ofNat_add, ← add_assoc]
  rfl

/-- Bytes that are the digits of a number make up the number. -/
theorem load_eq_mod (h : ∀ j < k, (mem (a + BitVec.ofNat 64 j)).toNat = n / 256 ^ j % 256) :
    load mem a k = n % 256 ^ k := by
  induction k generalizing a n with
  | zero => rw [load, pow_zero, Nat.mod_one]
  | succ k ih =>
    have hfirst := h 0 (Nat.succ_pos k)
    rw [pow_zero, Nat.div_one, show a + BitVec.ofNat 64 0 = a from BitVec.add_zero a] at hfirst
    have hrest : load mem (a + 1) k = n / 256 % 256 ^ k := by
      refine ih fun j hj => ?_
      have hnext := h (j + 1) (Nat.succ_lt_succ hj)
      rw [pow_succ', ← Nat.div_div_eq_div_mul] at hnext
      rw [← hnext, add_one_add_ofNat]
    rw [load, hfirst, hrest, pow_succ', Nat.mod_mul]

/-- The digits of the number that bytes make up. -/
theorem load_div_mod (mem : BitVec 64 → BitVec 8) (a : BitVec 64) (h : j < k) :
    load mem a k / 256 ^ j % 256 = (mem (a + BitVec.ofNat 64 j)).toNat := by
  induction k generalizing a j with
  | zero => exact absurd h (Nat.not_lt_zero j)
  | succ k ih =>
    have hbyte := (mem a).isLt
    rw [load]
    cases j with
    | zero =>
      rw [pow_zero, Nat.div_one, show a + BitVec.ofNat 64 0 = a from BitVec.add_zero a]
      omega
    | succ j =>
      have hrest := ih (a + 1) (Nat.lt_of_succ_lt_succ h)
      have hdiv : ((mem a).toNat + 256 * load mem (a + 1) k) / 256 = load mem (a + 1) k := by
        omega
      rw [pow_succ', ← Nat.div_div_eq_div_mul, hdiv, hrest, add_one_add_ofNat]

theorem word_eq {v : BitVec 64} (h : ∀ j < 8, mem (a + BitVec.ofNat 64 j) = byte v j) :
    word mem a = v := by
  have hload : load mem a 8 = v.toNat % 256 ^ 8 := load_eq_mod fun j hj => by
    rw [h j hj, byte_toNat]
  apply BitVec.eq_of_toNat_eq
  have hlt := v.isLt
  rw [word, BitVec.toNat_ofNat, hload]
  omega

theorem byte_word (mem : BitVec 64 → BitVec 8) (a : BitVec 64) (h : j < 8) :
    byte (word mem a) j = mem (a + BitVec.ofNat 64 j) := by
  have hload : load mem a 8 < 2 ^ 64 := by
    have hmod := load_eq_mod (n := load mem a 8) fun j hj => (load_div_mod mem a hj).symm
    omega
  apply BitVec.eq_of_toNat_eq
  rw [byte_toNat, word, BitVec.toNat_ofNat, Nat.mod_eq_of_lt hload]
  exact load_div_mod mem a h

theorem storeWord_inside (mem : BitVec 64 → BitVec 8) (a v : BitVec 64) (h : j < 8) :
    storeWord mem a v (a + BitVec.ofNat 64 j) = byte v j := by
  have hoff : (a + BitVec.ofNat 64 j - a).toNat = j := by
    rw [add_sub_cancel_left, BitVec.toNat_ofNat]
    omega
  rw [storeWord, hoff, if_pos h]

theorem storeWord_outside {x : BitVec 64} (v : BitVec 64) (h : 8 ≤ (x - a).toNat) :
    storeWord mem a v x = mem x := if_neg (Nat.not_lt.mpr h)

/-! ## The machine -/

/-- A state with the stack in memory. -/
structure Flat where
  line : ℕ
  regs : Reg → BitVec 64
  flags : Flags
  mem : BitVec 64 → BitVec 8
  /-- An address. -/
  rsp : BitVec 64

namespace Flat

def goto (t : Flat) (n : ℕ) : Flat := { t with line := n }

def push (t : Flat) (v : BitVec 64) : Flat :=
  { t with rsp := t.rsp - 8, mem := storeWord t.mem (t.rsp - 8) v }

/-- The word `rsp` points to. -/
def top (t : Flat) : BitVec 64 := word t.mem t.rsp

def pop (t : Flat) : Flat := { t with rsp := t.rsp + 8 }

def setReg (t : Flat) (r : Reg) (v : BitVec 64) : Flat :=
  { t with regs := Function.update t.regs r v }

/-- All but the stack. -/
def core (t : Flat) : State := ⟨t.line, t.regs, t.flags, t.mem, 0, fun _ => 0⟩

def withCore (t : Flat) (s : State) : Flat := ⟨s.line, s.regs, s.flags, s.mem, t.rsp⟩

/-- One instruction; those that do not use the stack do what they do on the other machine. -/
def exec (target : L → ℕ) (i : Instr L) (t : Flat) : Flat :=
  match i with
  | .push r => (t.push (t.regs r)).goto (t.line + 1)
  | .pop r => (t.pop.setReg r t.top).goto (t.line + 1)
  | .call l => (t.push (BitVec.ofNat 64 (t.line + 1))).goto (target l)
  | .ret => t.pop.goto t.top.toNat
  | i => t.withCore (X86.exec target i t.core)

def machine : Machine L (Instr L) Flat where
  pc := Flat.line
  pass t := t.goto (t.line + 1)
  exec := exec

/-- A listing run on this machine. -/
def step [DecidableEq L] (code : List (Line L (Instr L))) : Flat → Option Flat := machine.step code

end Flat

/-- What becomes of a call entered in `s` when it returns `v`. -/
structure FlatReturned (s : Flat) (v : BitVec 64) (t : Flat) : Prop where
  line : t.line = s.top.toNat
  rsp : t.rsp = s.rsp + 8
  rax : t.regs .rax = v
  saved : ∀ r ∈ calleeSaved, t.regs r = s.regs r
  mem : ∀ a, s.rsp.toNat ≤ a.toNat → t.mem a = s.mem a

/-! ## Slots in memory -/

/-- The address of a slot. -/
def slot (base : BitVec 64) (i : ℤ) : BitVec 64 := base + BitVec.ofInt 64 (8 * i)

theorem slot_zero (base : BitVec 64) : slot base 0 = base := by
  simp [slot]

theorem slot_sub_one (base : BitVec 64) (i : ℤ) : slot base (i - 1) = slot base i - 8 := by
  have height : BitVec.ofInt 64 (-(8 * 1)) = -8 := by decide
  rw [slot, slot, mul_sub, sub_eq_add_neg (8 * i), BitVec.ofInt_add, height, ← add_assoc,
    ← sub_eq_add_neg]

theorem slot_add_one (base : BitVec 64) (i : ℤ) : slot base (i + 1) = slot base i + 8 := by
  rw [slot, slot, mul_add, BitVec.ofInt_add, ← add_assoc]
  rfl

variable {lo hi : ℤ}

/-- No byte of a slot is one of another slot. -/
theorem le_slot_sub_slot {i i' : ℤ} (hsize : 8 * (hi - lo) ≤ 2 ^ 64) (hlo : lo ≤ i) (hhi : i < hi)
    (hlo' : lo ≤ i') (hhi' : i' < hi) (hne : i' ≠ i) (hj : j < 8) :
    8 ≤ (slot base i' + BitVec.ofNat 64 j - slot base i).toNat := by
  have hdiff : slot base i' + BitVec.ofNat 64 j - slot base i =
      BitVec.ofInt 64 (8 * (i' - i) + j) := by
    unfold slot
    rw [mul_sub, sub_eq_add_neg (8 * i')]
    simp only [BitVec.ofInt_add, BitVec.ofInt_neg, BitVec.ofInt_natCast]
    ring
  rw [hdiff, BitVec.toNat_ofInt]
  omega

/-- The flat state `t` represents `s`: the slots from `lo` to below `hi` are in memory, and the
rest of the memory is the data memory. -/
structure Rep (base : BitVec 64) (lo hi : ℤ) (s : State) (t : Flat) : Prop where
  line : t.line = s.line
  regs : t.regs = s.regs
  flags : t.flags = s.flags
  rsp : t.rsp = slot base s.rsp
  within : Within lo hi s
  stack : ∀ i, lo ≤ i → i < hi → ∀ j < 8,
    t.mem (slot base i + BitVec.ofNat 64 j) = byte (s.stack i) j
  mem : ∀ a, (∀ i, lo ≤ i → i < hi → 8 ≤ (a - slot base i).toNat) → t.mem a = s.mem a

namespace Rep

variable {s s' : State} {t : Flat}

theorem goto (h : Rep base lo hi s t) (n : ℕ) : Rep base lo hi (s.goto n) (t.goto n) where
  line := rfl
  regs := h.regs
  flags := h.flags
  rsp := h.rsp
  within := h.within
  stack := h.stack
  mem := h.mem

theorem push (h : Rep base lo hi s t) (hsize : 8 * (hi - lo) ≤ 2 ^ 64) (hlo : lo ≤ s.rsp - 1)
    (v : BitVec 64) : Rep base lo hi (s.push v) (t.push v) := by
  have haddr : t.rsp - 8 = slot base (s.rsp - 1) := by rw [h.rsp, slot_sub_one]
  have hhi : s.rsp - 1 < hi := by
    have := h.within.2
    omega
  refine ⟨h.line, h.regs, h.flags, haddr, ⟨hlo, hhi.le⟩, fun i hi₁ hi₂ j hj => ?_, fun a ha => ?_⟩
  · show storeWord t.mem (t.rsp - 8) v _ = byte (Function.update s.stack (s.rsp - 1) v i) j
    rw [haddr]
    by_cases hi₀ : i = s.rsp - 1
    · rw [hi₀, Function.update_self]
      exact storeWord_inside _ _ _ hj
    · rw [Function.update_of_ne hi₀,
        storeWord_outside v (le_slot_sub_slot hsize hlo hhi hi₁ hi₂ hi₀ hj)]
      exact h.stack i hi₁ hi₂ j hj
  · show storeWord t.mem (t.rsp - 8) v a = s.mem a
    rw [haddr, storeWord_outside v (ha _ hlo hhi)]
    exact h.mem a ha

theorem top (h : Rep base lo hi s t) (hhi : s.rsp < hi) : t.top = s.top := by
  rw [Flat.top, h.rsp]
  exact word_eq fun j hj => h.stack _ h.within.1 hhi j hj

theorem pop (h : Rep base lo hi s t) (hhi : s.rsp < hi) : Rep base lo hi s.pop t.pop where
  line := h.line
  regs := h.regs
  flags := h.flags
  rsp := by
    show t.rsp + 8 = slot base (s.rsp + 1)
    rw [h.rsp, slot_add_one]
  within := by
    have hlo := h.within.1
    refine ⟨?_, ?_⟩ <;> rw [State.pop_rsp] <;> omega
  stack := h.stack
  mem := h.mem

theorem setReg (h : Rep base lo hi s t) (r : Reg) (v : BitVec 64) :
    Rep base lo hi (s.setReg .qword r v) (t.setReg r v) where
  line := h.line
  regs := by
    show Function.update t.regs r v = Function.update s.regs r (v.setWidth 64)
    rw [h.regs, BitVec.setWidth_eq]
  flags := h.flags
  rsp := h.rsp
  within := h.within
  stack := h.stack
  mem := h.mem

theorem withCore (h : Rep base lo hi s t) {u : State} {c : State} (hline : c.line = u.line)
    (hregs : c.regs = u.regs) (hflags : c.flags = u.flags) (hmem : c.mem = t.mem)
    (hmem' : u.mem = s.mem) (hrsp : u.rsp = s.rsp) (hstack : u.stack = s.stack) :
    Rep base lo hi u (t.withCore c) where
  line := hline
  regs := hregs
  flags := hflags
  rsp := by rw [hrsp]; exact h.rsp
  within := by
    unfold Within
    rw [hrsp]
    exact h.within
  stack i hi₁ hi₂ j hj := by
    show c.mem _ = _
    rw [hmem, hstack]
    exact h.stack i hi₁ hi₂ j hj
  mem a ha := by
    show c.mem a = _
    rw [hmem, hmem']
    exact h.mem a ha

end Rep

/-- The source operand is in memory. -/
def Src.isMem : Src → Bool
  | .mem _ => true
  | .reg _ | .imm _ => false

/-- The instruction reads data memory. -/
def Instr.readsMem : Instr L → Bool
  | .mov _ _ src | .add _ _ src | .sub _ _ src | .cmp _ _ src => src.isMem
  | .dec _ _ | .push _ | .pop _ | .jmp _ | .j _ _ | .call _ | .ret => false

/-- The line reads data memory. -/
def lineReadsMem : Line L (Instr L) → Bool
  | .label _ => false
  | .instr i => i.readsMem

variable {s s' : State} {t : Flat}

theorem Rep.read (h : Rep base lo hi s t) (w : Width) {src : Src} (hsrc : src.isMem = false) :
    t.core.read w src = s.read w src := by
  cases src with
  | reg r =>
    show (t.regs r).setWidth _ = (s.regs r).setWidth _
    rw [h.regs]
  | imm n => rfl
  | mem r => cases hsrc

theorem Rep.result (h : Rep base lo hi s t) (w : Width) (d : Reg) (v : BitVec w.bits) (f : Flags) :
    Rep base lo hi ((s.setReg w d v).setFlags f).next
      (t.withCore ((t.core.setReg w d v).setFlags f).next) := by
  refine h.withCore (congrArg (· + 1) h.line) ?_ rfl rfl rfl rfl rfl
  show Function.update t.regs d (v.setWidth 64) = Function.update s.regs d (v.setWidth 64)
  rw [h.regs]

/-- **One instruction.** -/
theorem Rep.exec (h : Rep base lo hi s t) (hsize : 8 * (hi - lo) ≤ 2 ^ 64) (target : L → ℕ)
    {i : Instr L} (hi₀ : i.readsMem = false) (hw : Within lo hi (X86.exec target i s)) :
    Rep base lo hi (X86.exec target i s) (t.exec target i) := by
  have hline : t.line + 1 = s.line + 1 := by rw [h.line]
  have hreg : ∀ (w : Width) (d : Reg), t.core.read w (.reg d) = s.read w (.reg d) :=
    fun w _ => h.read w rfl
  cases i with
  | mov w d src =>
    refine h.withCore hline ?_ h.flags rfl rfl rfl rfl
    show Function.update t.regs d ((t.core.read w src).setWidth 64) =
      Function.update s.regs d ((s.read w src).setWidth 64)
    rw [h.regs, h.read w hi₀]
  | add w d src =>
    simp only [X86.exec, Flat.exec, hreg, h.read w hi₀]
    exact h.result w d _ _
  | sub w d src =>
    simp only [X86.exec, Flat.exec, hreg, h.read w hi₀]
    exact h.result w d _ _
  | cmp w d src =>
    refine h.withCore hline h.regs ?_ rfl rfl rfl rfl
    show Flags.sub (t.core.read w (.reg d)) (t.core.read w src) = Flags.sub _ _
    rw [hreg, h.read w hi₀]
  | dec w d =>
    simp only [X86.exec, Flat.exec, hreg]
    exact h.result w d _ _
  | push r =>
    show Rep base lo hi ((s.push (s.regs r)).goto (s.line + 1))
      ((t.push (t.regs r)).goto (t.line + 1))
    rw [h.regs, h.line]
    exact (h.push hsize hw.1 _).goto _
  | pop r =>
    have hlt : s.rsp < hi := hw.2
    show Rep base lo hi ((s.pop.setReg .qword r s.top).goto (s.line + 1))
      ((t.pop.setReg r t.top).goto (t.line + 1))
    rw [h.top hlt, h.line]
    exact ((h.pop hlt).setReg r _).goto _
  | jmp l => exact h.withCore rfl h.regs h.flags rfl rfl rfl rfl
  | j c l =>
    refine h.withCore ?_ h.regs h.flags rfl rfl rfl rfl
    show (if c.holds t.flags then target l else t.line + 1) = _
    rw [h.flags, h.line]
    rfl
  | call l =>
    show Rep base lo hi ((s.push (BitVec.ofNat 64 (s.line + 1))).goto (target l))
      ((t.push (BitVec.ofNat 64 (t.line + 1))).goto (target l))
    rw [h.line]
    exact (h.push hsize hw.1 _).goto _
  | ret =>
    have hlt : s.rsp < hi := hw.2
    show Rep base lo hi (s.pop.goto s.top.toNat) (t.pop.goto t.top.toNat)
    rw [h.top hlt]
    exact (h.pop hlt).goto _

variable [DecidableEq L] {code : List (Line L (Instr L))} {P : State → Prop} {v : BitVec 64}

theorem Rep.step (h : Rep base lo hi s t) (hsize : 8 * (hi - lo) ≤ 2 ^ 64)
    (hcode : ∀ l ∈ code, lineReadsMem l = false)
    (hstep : stepWithin lo hi code s = some s') :
    ∃ t', Flat.step code t = some t' ∧ Rep base lo hi s' t' := by
  obtain ⟨hmove, hw⟩ := inside_eq_some.mp hstep
  rcases hl : code[s.line]? with _ | ⟨l⟩ | ⟨i⟩
  · have hnone : X86.step code s = none :=
      machine.step_eq_none (List.getElem?_eq_none_iff.mp hl)
    rw [hnone] at hmove
    cases hmove
  · have hl' : code[t.line]? = some (.label l) := by rw [h.line, hl]
    obtain rfl := Option.some.inj ((machine.step_label hl).symm.trans hmove)
    refine ⟨_, Flat.machine.step_label hl', ?_⟩
    show Rep base lo hi (s.goto (s.line + 1)) (t.goto (t.line + 1))
    rw [h.line]
    exact h.goto _
  · have hl' : code[t.line]? = some (.instr i) := by rw [h.line, hl]
    obtain rfl := Option.some.inj ((machine.step_instr hl).symm.trans hmove)
    exact ⟨_, Flat.machine.step_instr hl', h.exec hsize _ (hcode _ (List.mem_of_getElem? hl)) hw⟩

/-- **A run between two slots is a run with the stack in memory.** -/
theorem Rep.eventually (h : Rep base lo hi s t) (hsize : 8 * (hi - lo) ≤ 2 ^ 64)
    (hcode : ∀ l ∈ code, lineReadsMem l = false)
    (hrun : Eventually (stepWithin lo hi code) P s) :
    Eventually (Flat.step code) (fun t' => ∃ s', P s' ∧ Rep base lo hi s' t') t :=
  hrun.simulate (fun _ _ _ hrel hstep => hrel.step hsize hcode hstep) h

/-! ## Calls -/

namespace Flat

/-- The state with the stack on its own; the return address is in slot `0`. -/
def split (t : Flat) : State where
  line := t.line
  regs := t.regs
  flags := t.flags
  mem := t.mem
  rsp := 0
  stack i := word t.mem (slot t.rsp i)

theorem rep_split (t : Flat) (depth : ℕ) : Rep t.rsp (-depth) 1 t.split t where
  line := rfl
  regs := rfl
  flags := rfl
  rsp := (slot_zero t.rsp).symm
  within := by
    refine ⟨?_, ?_⟩ <;> show _ ≤ _ <;> simp [split]
  stack _ _ _ _ hj := (byte_word _ _ hj).symm
  mem _ _ := rfl

/-- **A routine that keeps to so many slots returns**, when there is room for them below the
return address. -/
theorem returned_of_within (t : Flat) (depth : ℕ) (hroom : 8 * depth ≤ t.rsp.toNat)
    (hcode : ∀ l ∈ code, lineReadsMem l = false)
    (hrun : Eventually (stepWithin (-depth) 1 code) (Returned t.split v) t.split) :
    Eventually (step code) (FlatReturned t v) t := by
  have hlt := t.rsp.isLt
  have hsize : 8 * (1 - -(depth : ℤ)) ≤ 2 ^ 64 := by omega
  refine ((t.rep_split depth).eventually hsize hcode hrun).mono ?_
  rintro t' ⟨s', hs', hrep⟩
  refine ⟨?_, ?_, ?_, fun r hr => ?_, fun a ha => ?_⟩
  · rw [hrep.line, hs'.line]
    show (word t.mem (slot t.rsp 0)).toNat = _
    rw [slot_zero]
    rfl
  · rw [hrep.rsp, hs'.rsp]
    show slot t.rsp (0 + 1) = _
    rw [slot_add_one, slot_zero]
  · rw [hrep.regs, hs'.rax]
  · rw [hrep.regs, hs'.saved r hr]
    rfl
  · by_cases hinside : (a - t.rsp).toNat < 8
    · -- the return address is still there
      have haddr : a = slot t.rsp 0 + BitVec.ofNat 64 (a - t.rsp).toNat := by
        rw [slot_zero, BitVec.ofNat_toNat, BitVec.setWidth_eq]
        ring
      rw [haddr, hrep.stack 0 (by omega) (by omega) _ hinside, hs'.stack 0 le_rfl]
      exact byte_word _ _ hinside
    · -- no other byte from there on is in a slot
      rw [hrep.mem a ?_, hs'.mem]
      · rfl
      intro i hlo hhi
      have hdiff : a - slot t.rsp i = (a - t.rsp) + BitVec.ofInt 64 (-(8 * i)) := by
        rw [slot, BitVec.ofInt_neg]
        ring
      have hoff : (a - t.rsp).toNat = a.toNat - t.rsp.toNat := BitVec.toNat_sub_of_le ha
      have halt := a.isLt
      rw [hdiff, BitVec.toNat_add, BitVec.toNat_ofInt]
      omega

end Flat

end X86
end CaosSeminars
