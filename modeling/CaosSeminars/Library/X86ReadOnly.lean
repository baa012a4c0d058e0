import CaosSeminars.Library.X86Flat

/-!
# Routines that write no memory

What an instruction reads and what it writes are lists of addresses (`Flat.reads`,
`Flat.writes`).  They say what they should: an instruction changes no byte that is not on its
second list (`Flat.exec_mem`), and what it does depends on no byte that is not on its first
(`Flat.exec_congr`).

`Flat.stepReading M` is the machine on which memory is read-only and has no other bytes than
those in `M`: a line that writes, or that reads another byte, is not executed.  A routine that
returns on it needs no more memory than that.  As with the slots of `X86Flat` there is a
machine with the stack on its own, `stepReading`, on which such a run is easier to follow; there
the stack is read in one slot, that of the return address.

* `reading_label`, `reading_instr`, `reading_jump`, `reading_skip` --- the rules for a line.
* `Same` --- the two machines are in one state, the slots of the one being words in the memory
  of the other; `Same.step` is one line.
* `Flat.returned_of_reading` --- a routine that returns on the easier machine returns on `Flat`, and
  has changed no byte.
-/

namespace CaosSeminars
namespace X86

variable {L : Type} {a x : BitVec 64} {k : ℕ}

/-- The addresses of the `k` bytes from `a` on. -/
def bytesFrom (a : BitVec 64) (k : ℕ) : List (BitVec 64) :=
  (List.range k).map fun j => a + BitVec.ofNat 64 j

/-- The address is one of the `k` from `a` on. -/
def InBytes (a : BitVec 64) (k : ℕ) (x : BitVec 64) : Prop := (x - a).toNat < k

instance (a : BitVec 64) (k : ℕ) : DecidablePred (InBytes a k) :=
  fun _ => inferInstanceAs (Decidable (_ < _))

theorem inBytes_add {off size : ℕ} (hsize : size < 2 ^ 64) (hoff : off + k ≤ size)
    (hx : x ∈ bytesFrom (a + BitVec.ofNat 64 off) k) : InBytes a size x := by
  obtain ⟨j, hj, rfl⟩ := List.mem_map.mp hx
  have hlt := List.mem_range.mp hj
  have hdiff : a + BitVec.ofNat 64 off + BitVec.ofNat 64 j - a = BitVec.ofNat 64 (off + j) := by
    rw [BitVec.ofNat_add]
    ring
  rw [InBytes, hdiff, BitVec.toNat_ofNat, Nat.mod_eq_of_lt (by omega)]
  omega

theorem inBytes_of_mem (hk : k < 2 ^ 64) (hx : x ∈ bytesFrom a k) : InBytes a k x := by
  have hzero : a + BitVec.ofNat 64 0 = a := BitVec.add_zero a
  rw [← hzero] at hx
  exact inBytes_add hk (Nat.zero_add k).le hx

theorem load_congr {mem mem' : BitVec 64 → BitVec 8} (h : ∀ x ∈ bytesFrom a k, mem' x = mem x) :
    load mem' a k = load mem a k := by
  induction k generalizing a with
  | zero => rfl
  | succ k ih =>
    have hmem {j : ℕ} (hj : j < k + 1) : a + BitVec.ofNat 64 j ∈ bytesFrom a (k + 1) :=
      List.mem_map.mpr ⟨j, List.mem_range.mpr hj, rfl⟩
    have hfirst : mem' a = mem a := by
      have := h _ (hmem (Nat.succ_pos k))
      rwa [show a + BitVec.ofNat 64 0 = a from BitVec.add_zero a] at this
    have hrest : load mem' (a + 1) k = load mem (a + 1) k := by
      refine ih fun x hx => ?_
      obtain ⟨j, hj, rfl⟩ := List.mem_map.mp hx
      rw [add_one_add_ofNat]
      exact h _ (hmem (Nat.succ_lt_succ (List.mem_range.mp hj)))
    rw [load, load, hfirst, hrest]

/-! ## What an instruction touches -/

/-- The bytes an operand is read from. -/
def Src.reads (regs : Reg → BitVec 64) (w : Width) : Src → List (BitVec 64)
  | .reg _ | .imm _ => []
  | .mem r => bytesFrom (regs r) (w.bits / 8)

/-- The bytes an instruction reads by its operand. -/
def Instr.dataReads (regs : Reg → BitVec 64) : Instr L → List (BitVec 64)
  | .mov w _ src | .add w _ src | .sub w _ src | .cmp w _ src => src.reads regs w
  | .dec _ _ | .push _ | .pop _ | .jmp _ | .j _ _ | .call _ | .ret => []

/-- The instruction has to do with the numbered registers and the flags alone. -/
def Instr.onRegs : Instr L → Bool
  | .mov _ _ src | .add _ _ src | .sub _ _ src | .cmp _ _ src => !src.isMem
  | .dec _ _ | .jmp _ | .j _ _ => true
  | .push _ | .pop _ | .call _ | .ret => false

theorem Src.reads_of_not_isMem {regs : Reg → BitVec 64} {w : Width} {src : Src}
    (h : (!src.isMem) = true) : src.reads regs w = [] := by
  cases src with
  | reg | imm => rfl
  | mem => cases h

/-- The numbered registers an instruction names. -/
def Instr.names : Instr L → List Reg
  | .mov _ d src | .add _ d src | .sub _ d src | .cmp _ d src =>
    match src with
    | .reg r | .mem r => [d, r]
    | .imm _ => [d]
  | .dec _ r | .push r | .pop r => [r]
  | .jmp _ | .j _ _ | .call _ | .ret => []

/-- The line names the register. -/
def lineNames (r : Reg) : Line L (Instr L) → Bool
  | .label _ => false
  | .instr i => r ∈ i.names

namespace Flat

/-- The bytes an instruction reads. -/
def reads (i : Instr L) (t : Flat) : List (BitVec 64) :=
  match i with
  | .pop _ | .ret => bytesFrom t.rsp 8
  | i => i.dataReads t.regs

/-- The bytes an instruction writes. -/
def writes (i : Instr L) (t : Flat) : List (BitVec 64) :=
  match i with
  | .push _ | .call _ => bytesFrom (t.rsp - 8) 8
  | _ => []

variable {target : L → ℕ} {i : Instr L} {t t' : Flat}

theorem storeWord_of_notMem {mem : BitVec 64 → BitVec 8} {v : BitVec 64}
    (h : x ∉ bytesFrom a 8) : storeWord mem a v x = mem x := by
  refine storeWord_outside v (not_lt.mp fun hlt => h (List.mem_map.mpr ⟨(x - a).toNat, ?_, ?_⟩))
  · exact List.mem_range.mpr hlt
  · rw [BitVec.ofNat_toNat, BitVec.setWidth_eq]
    ring

/-- **Nothing else is written.** -/
theorem exec_mem (h : x ∉ writes i t) : (t.exec target i).mem x = t.mem x := by
  cases i with
  | push r => exact storeWord_of_notMem h
  | call l => exact storeWord_of_notMem h
  | mov | add | sub | cmp | dec | pop | jmp | j | ret => rfl

/-- A state with other contents of the memory. -/
def withMem (t : Flat) (mem : BitVec 64 → BitVec 8) : Flat := { t with mem := mem }

variable {mem : BitVec 64 → BitVec 8}

theorem read_withMem {w : Width} {src : Src} (h : ∀ x ∈ src.reads t.regs w, mem x = t.mem x) :
    (t.withMem mem).core.read w src = t.core.read w src := by
  cases src with
  | reg r => rfl
  | imm n => rfl
  | mem r => exact congrArg (BitVec.ofNat w.bits) (load_congr h)

theorem top_withMem (h : ∀ x ∈ bytesFrom t.rsp 8, mem x = t.mem x) :
    (t.withMem mem).top = t.top :=
  congrArg (BitVec.ofNat 64) (load_congr h)

/-- **Nothing else is read**: with other contents of the rest of the memory the same is done. -/
theorem exec_congr (h : ∀ x ∈ reads i t, mem x = t.mem x) :
    ((t.withMem mem).exec target i).withMem (t.exec target i).mem = t.exec target i := by
  cases i with
  | mov w d src =>
    have hread := read_withMem h
    simp only [exec, X86.exec, hread]
    rfl
  | add w d src =>
    have hread := read_withMem h
    simp only [exec, X86.exec, hread]
    rfl
  | sub w d src =>
    have hread := read_withMem h
    simp only [exec, X86.exec, hread]
    rfl
  | cmp w d src =>
    have hread := read_withMem h
    simp only [exec, X86.exec, hread]
    rfl
  | pop r =>
    have htop := top_withMem h
    simp only [exec, htop]
    rfl
  | ret =>
    have htop := top_withMem h
    simp only [exec, htop]
    rfl
  | dec | push | jmp | j | call => rfl

end Flat

/-! ## Runs without a write -/

/-- The line keeps to reading, and to bytes in `M`. -/
def Flat.ReadsOnly (M : BitVec 64 → Prop) (t : Flat) : Line L (Instr L) → Prop
  | .label _ => True
  | .instr i => (∀ x ∈ reads i t, M x) ∧ writes i t = []

/-- The line keeps to reading, data in `M` and of the stack the slot `k`. -/
def ReadsOnly (M : BitVec 64 → Prop) (k : ℤ) (s : State) : Line L (Instr L) → Prop
  | .label _ => True
  | .instr (.push _) | .instr (.call _) => False
  | .instr (.pop _) | .instr .ret => s.rsp = k
  | .instr i => ∀ x ∈ i.dataReads s.regs, M x

variable {M : BitVec 64 → Prop} {k : ℤ} {s s' : State}

theorem readsOnly_of_onRegs {i : Instr L} (h : i.onRegs = true) : ReadsOnly M k s (.instr i) := by
  cases i with
  | mov | add | sub | cmp =>
    intro x hx
    rw [Instr.dataReads, Src.reads_of_not_isMem h] at hx
    cases hx
  | dec | jmp | j =>
    intro x hx
    cases hx
  | push | pop | call | ret => cases h

theorem Flat.ReadsOnly.mono {M' : BitVec 64 → Prop} (hM : ∀ x, M x → M' x) {t : Flat}
    {l : Line L (Instr L)} (h : t.ReadsOnly M l) : t.ReadsOnly M' l := by
  rcases l with l | i
  · trivial
  · exact ⟨fun x hx => hM x (h.1 x hx), h.2⟩

/-! ## The stack in read-only memory -/

/-- The flat state `t` is `s`, with slot `0` at `base`. -/
structure Same (base : BitVec 64) (s : State) (t : Flat) : Prop where
  line : t.line = s.line
  regs : t.regs = s.regs
  flags : t.flags = s.flags
  mem : t.mem = s.mem
  rsp : t.rsp = slot base s.rsp
  stack : ∀ i, s.stack i = word t.mem (slot base i)

namespace Same

variable {base : BitVec 64} {t : Flat}

theorem top (h : Same base s t) : t.top = s.top := by
  rw [Flat.top, State.top, h.rsp, h.stack]

theorem core_eq (h : Same base s t) : t.core = { s with rsp := 0, stack := fun _ => 0 } := by
  rw [Flat.core, h.line, h.regs, h.flags, h.mem]

theorem withCore (h : Same base s t) {u : State} (hmem : u.mem = s.mem) (hrsp : u.rsp = s.rsp)
    (hstack : u.stack = s.stack) :
    Same base u (t.withCore { u with rsp := 0, stack := fun _ => 0 }) where
  line := rfl
  regs := rfl
  flags := rfl
  mem := rfl
  rsp := by rw [hrsp]; exact h.rsp
  stack i := by
    show _ = word u.mem _
    rw [hstack, hmem, ← h.mem, h.stack]

theorem pop (h : Same base s t) : Same base s.pop t.pop where
  line := h.line
  regs := h.regs
  flags := h.flags
  mem := h.mem
  rsp := by
    show t.rsp + 8 = slot base (s.rsp + 1)
    rw [h.rsp, slot_add_one]
  stack := h.stack

/-- **One line.** -/
theorem exec (h : Same base s t) (target : L → ℕ) {i : Instr L}
    (hreads : X86.ReadsOnly M k s (.instr i)) :
    Same base (X86.exec target i s) (t.exec target i) := by
  have hcore := h.core_eq
  cases i with
  | mov | add | sub | cmp | dec | jmp | j =>
    show Same base _ (t.withCore (X86.exec target _ t.core))
    rw [hcore]
    exact h.withCore rfl rfl rfl
  | push | call => exact hreads.elim
  | pop r =>
    have hpop := h.pop
    have hregs : Function.update t.regs r t.top =
        Function.update s.regs r (s.top.setWidth 64) := by
      rw [h.regs, h.top, BitVec.setWidth_eq]
    exact ⟨congrArg (· + 1) h.line, hregs, hpop.flags, hpop.mem, hpop.rsp, hpop.stack⟩
  | ret =>
    have hpop := h.pop
    exact ⟨congrArg BitVec.toNat h.top, hpop.regs, hpop.flags, hpop.mem, hpop.rsp, hpop.stack⟩

/-- What a line reads is in `M` or is the word in slot `k`. -/
theorem readsOnly (h : Same base s t) {l : Line L (Instr L)} (hreads : X86.ReadsOnly M k s l) :
    t.ReadsOnly (fun x => M x ∨ InBytes (slot base k) 8 x) l := by
  have hslot (hk : s.rsp = k) {x : BitVec 64} (hx : x ∈ bytesFrom t.rsp 8) :
      InBytes (slot base k) 8 x := by
    rw [h.rsp, hk] at hx
    exact inBytes_of_mem (by decide) hx
  have hregs := h.regs
  rcases l with l | i
  · trivial
  · cases i with
    | mov | add | sub | cmp | dec | jmp | j =>
      refine ⟨fun x hx => .inl (hreads x ?_), rfl⟩
      rwa [← hregs]
    | push | call => exact hreads.elim
    | pop | ret => exact ⟨fun x hx => .inr (hslot hreads hx), rfl⟩

end Same

/-! ## Runs -/

variable (M : BitVec 64 → Prop) [DecidablePred M]

instance (t : Flat) : DecidablePred (Flat.ReadsOnly (L := L) M t)
  | .label _ => inferInstanceAs (Decidable True)
  | .instr _ => inferInstanceAs (Decidable (_ ∧ _))

instance : DecidablePred (ReadsOnly (L := L) M k s)
  | .label _ => inferInstanceAs (Decidable True)
  | .instr (.push _) | .instr (.call _) => inferInstanceAs (Decidable False)
  | .instr (.pop _) | .instr .ret => inferInstanceAs (Decidable (_ = _))
  | .instr (.mov _ _ _) | .instr (.add _ _ _) | .instr (.sub _ _ _) | .instr (.cmp _ _ _)
  | .instr (.dec _ _) | .instr (.jmp _) | .instr (.j _ _) =>
    inferInstanceAs (Decidable (∀ x ∈ Instr.dataReads _ _, M x))

variable [DecidableEq L] (code : List (Line L (Instr L)))

/-- A listing run on read-only memory that consists of the bytes in `M`. -/
def Flat.stepReading : Flat → Option Flat := Flat.machine.stepGuarded (Flat.ReadsOnly M) code

/-- A listing run on read-only data memory that consists of the bytes in `M`, with a stack of
which only the slot `k` can be read. -/
def stepReading (k : ℤ) : State → Option State := machine.stepGuarded (ReadsOnly M k) code

variable {M code} {P : State → Prop}

theorem reading_label {l : L} (h : code[s.line]? = some (.label l))
    (hnext : Eventually (stepReading M code k) P s.next) :
    Eventually (stepReading M code k) P s :=
  machine.guarded_label h trivial hnext

theorem reading_instr {i : Instr L} (h : code[s.line]? = some (.instr i))
    (hreads : ReadsOnly M k s (.instr i))
    (hnext : Eventually (stepReading M code k) P (exec (target code) i s)) :
    Eventually (stepReading M code k) P s :=
  machine.guarded_instr h hreads hnext

theorem reading_regs {i : Instr L} (h : code[s.line]? = some (.instr i)) (hregs : i.onRegs = true)
    (hnext : Eventually (stepReading M code k) P (exec (target code) i s)) :
    Eventually (stepReading M code k) P s :=
  reading_instr h (readsOnly_of_onRegs hregs) hnext

theorem reading_jump {c : Cond} {l : L} (h : code[s.line]? = some (.instr (.j c l)))
    (hc : c.holds s.flags = true)
    (hnext : Eventually (stepReading M code k) P (s.goto (target code l))) :
    Eventually (stepReading M code k) P s := by
  refine reading_regs h rfl ?_
  rwa [exec, if_pos hc]

theorem reading_skip {c : Cond} {l : L} (h : code[s.line]? = some (.instr (.j c l)))
    (hc : ¬c.holds s.flags = true) (hnext : Eventually (stepReading M code k) P s.next) :
    Eventually (stepReading M code k) P s := by
  refine reading_regs h rfl ?_
  rwa [exec, if_neg hc]

theorem Flat.reading_mono {M' : BitVec 64 → Prop} [DecidablePred M'] (hM : ∀ x, M x → M' x)
    {P : Flat → Prop} {t : Flat} (h : Eventually (Flat.stepReading M code) P t) :
    Eventually (Flat.stepReading M' code) P t :=
  h.guarded_mono fun _ hreads l hl => (hreads l hl).mono hM

theorem Same.step {base : BitVec 64} {t : Flat} (h : Same base s t)
    (hstep : X86.stepReading M code k s = some s') :
    ∃ t', Flat.stepReading (fun x => M x ∨ InBytes (slot base k) 8 x) code t = some t' ∧
      Same base s' t' := by
  have hline {l : Line L (Instr L)} (hl : code[s.line]? = some l) : code[t.line]? = some l := by
    rw [h.line, hl]
  rcases machine.stepGuarded_cases hstep with ⟨l, hl, -, rfl⟩ | ⟨i, hl, hreads, rfl⟩
  · refine ⟨_, Flat.machine.stepGuarded_label (hline hl) trivial, ?_⟩
    exact ⟨congrArg (· + 1) h.line, h.regs, h.flags, h.mem, h.rsp, h.stack⟩
  · exact ⟨_, Flat.machine.stepGuarded_instr (hline hl) (h.readsOnly hreads), h.exec _ hreads⟩

/-- **A routine that keeps to reading returns** without a write, having read what it was given
and the return address. -/
theorem Flat.returned_of_reading (t : Flat) {v : BitVec 64}
    (hrun : Eventually (X86.stepReading M code 0) (Returned t.split v) t.split) :
    Eventually (Flat.stepReading (fun x => M x ∨ InBytes t.rsp 8 x) code)
      (fun u => FlatReturned t v u ∧ u.mem = t.mem) t := by
  have hsame : Same t.rsp t.split t :=
    ⟨rfl, rfl, rfl, rfl, (slot_zero t.rsp).symm, fun _ => rfl⟩
  have hsim := hrun.simulate (fun _ _ _ hrel hstep => hrel.step hstep) hsame
  rw [slot_zero] at hsim
  refine hsim.mono ?_
  rintro u ⟨s', hs', hrel⟩
  have hmem : u.mem = t.mem := hrel.mem.trans hs'.mem
  refine ⟨⟨?_, ?_, ?_, fun r hr => ?_, fun a _ => congrFun hmem a⟩, hmem⟩
  · rw [hrel.line, hs'.line]
    show (word t.mem (slot t.rsp 0)).toNat = _
    rw [slot_zero]
    rfl
  · rw [hrel.rsp, hs'.rsp]
    show slot t.rsp (0 + 1) = _
    rw [slot_add_one, slot_zero]
  · rw [hrel.regs, hs'.rax]
  · rw [hrel.regs, hs'.saved r hr]
    rfl

end X86
end CaosSeminars
