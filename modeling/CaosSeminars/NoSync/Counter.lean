import CaosSeminars.Library.Trace
import Mathlib.Algebra.BigOperators.Group.Finset.Basic
import Mathlib.Algebra.Group.Action.Defs
import Mathlib.Algebra.Order.BigOperators.Group.Finset

/-!
# The counter without a lock

`no-sync.c` has `T` threads that increment one counter `K` times each.  An increment is a load and
a later store, and between the two any number of other increments may come and go: the store throws
the counter back by as much.

It is never thrown back to `0`.  Nor is it back at `1` in the end: the last store of the run is the
last of its thread, which has stored before (`K` is at least `2`), and so what it loaded was not
`0`.  From above, the counter is bounded by the number of stores (`counter_bounds`).

* `Inv` --- the invariant: the counter is at most the number of stores, and what a thread
  holds back is not `0` unless it has not stored yet.
* `Inv.move`, `Inv.load`, `Inv.store` --- the steps of a thread; `Inv.create`, `Inv.goMain`
  those of `main`.
* `counter_bounds` --- for all `T` and all `K` from `2` on, and every interleaving.
-/

namespace CaosSeminars
namespace NoSync

/-- Where a thread is. -/
inductive ThreadPc where
  | notCreated
  /-- The load of the increment number `i` comes next. -/
  | loading (i : ℕ)
  /-- Its store comes next; `v` has been loaded. -/
  | storing (i : ℕ) (v : BitVec 32)
  | finished
  deriving DecidableEq

/-- Where `main` is. -/
inductive MainPc where
  /-- In the loop that creates the threads. -/
  | creating (i : ℕ)
  /-- In the loop that joins them. -/
  | joining (i : ℕ)
  /-- `printf` comes next. -/
  | printing
  | finished
  deriving DecidableEq

/-- At the head of the loop in `thread_func`, with `K` increments to be made. -/
def ThreadPc.loop (K i : ℕ) : ThreadPc := if i < K then .loading i else .finished

/-- The increments a thread has stored. -/
def ThreadPc.progress (K : ℕ) : ThreadPc → ℕ
  | .notCreated => 0
  | .loading i | .storing i _ => i
  | .finished => K

/-- The loop variable. -/
def ThreadPc.index : ThreadPc → Option ℕ
  | .loading i | .storing i _ => some i
  | .notCreated | .finished => none

structure State (T : ℕ) where
  main : MainPc
  threads : Fin T → ThreadPc
  /-- `shared_counter` -/
  counter : BitVec 32
  /-- What has been printed. -/
  output : Option (BitVec 32)

variable {T K n i : ℕ}

/-- The first line of `main`. -/
def State.init (T : ℕ) : State T := ⟨.creating 0, fun _ => .notCreated, 0, none⟩

def State.setThread (s : State T) (t : Fin T) (pc : ThreadPc) : State T :=
  { s with threads := Function.update s.threads t pc }

/-- Who makes a step. -/
inductive Act (T : ℕ) where
  | main
  | load (t : Fin T)
  | store (t : Fin T)
  deriving DecidableEq

def Act.isStore : Act T → Bool
  | .store _ => true
  | .main | .load _ => false

namespace State

/-- One step of `main`. -/
def stepMain (K : ℕ) (s : State T) : Option (State T) :=
  match s.main with
  | .creating i =>
    if h : i < T then some { s.setThread ⟨i, h⟩ (.loop K 0) with main := .creating (i + 1) }
    else some { s with main := .joining 0 }
  | .joining i =>
    if h : i < T then
      if s.threads ⟨i, h⟩ = .finished then some { s with main := .joining (i + 1) } else none
    else some { s with main := .printing }
  | .printing => some { s with main := .finished, output := some s.counter }
  | .finished => none

/-- One step. -/
def step (K : ℕ) (s : State T) : Act T → Option (State T)
  | .main => s.stepMain K
  | .load t =>
    match s.threads t with
    | .loading i => some (s.setThread t (.storing i s.counter))
    | .notCreated | .storing _ _ | .finished => none
  | .store t =>
    match s.threads t with
    | .storing i v => some { s.setThread t (.loop K (i + 1)) with counter := v + 1 }
    | .notCreated | .loading _ | .finished => none

end State

/-- Every order of steps. -/
def anyOrder (_ : State T) (_ : Act T) : Prop := True

instance (s : State T) (a : Act T) : Decidable (anyOrder s a) := inferInstanceAs (Decidable True)

/-! ## The invariant -/

/-- What is known after `n` stores. -/
structure Inv (K n : ℕ) (s : State T) : Prop where
  fresh : ∀ i, s.main = .creating i → ∀ t : Fin T, i ≤ t → s.threads t = .notCreated
  count : ∑ t, (s.threads t).progress K = n
  inLoop : ∀ t i, (s.threads t).index = some i → i < K
  counter_le : s.counter.toNat ≤ n
  counter_pos : 0 < n → 0 < s.counter.toNat
  value_le : ∀ t i v, s.threads t = .storing i v → v.toNat ≤ n
  value_pos : ∀ t i v, s.threads t = .storing i v → 0 < i → 0 < v.toNat
  last : (∀ t, s.threads t = .finished) → 2 ≤ s.counter.toNat
  joined : ∀ i, s.main = .joining i → ∀ t : Fin T, (t : ℕ) < i → s.threads t = .finished
  printing : s.main = .printing → ∀ t, s.threads t = .finished
  output : ∀ v, s.output = some v → v = s.counter ∧ ∀ t, s.threads t = .finished

variable {s s' : State T} {t : Fin T} {pc : ThreadPc}

theorem inv_init (hT : 0 < T) : Inv K 0 (State.init T) where
  fresh _ _ _ _ := rfl
  count := Finset.sum_const_zero
  inLoop _ _ h := by cases h
  counter_le := Nat.le_refl 0
  counter_pos h := absurd h (lt_irrefl 0)
  value_le _ _ _ h := by cases h
  value_pos _ _ _ h := by cases h
  last h := by cases h ⟨0, hT⟩
  joined _ h := by cases h
  printing h := by cases h
  output _ h := by cases h

theorem Inv.le_total (h : Inv K n s) : n ≤ T * K := by
  have hbound : ∀ t ∈ Finset.univ, (s.threads t).progress K ≤ K := by
    intro t _
    cases hpc : s.threads t with
    | notCreated => exact Nat.zero_le K
    | loading i => exact (h.inLoop t i (by rw [hpc]; rfl)).le
    | storing i v => exact (h.inLoop t i (by rw [hpc]; rfl)).le
    | finished => exact le_rfl
  calc n = ∑ t, (s.threads t).progress K := h.count.symm
    _ ≤ Finset.univ.card • K := Finset.sum_le_card_nsmul _ _ K hbound
    _ = T * K := by rw [Finset.card_univ, Fintype.card_fin, smul_eq_mul]

@[simp] theorem setThread_self (s : State T) (t : Fin T) (pc : ThreadPc) :
    (s.setThread t pc).threads t = pc := Function.update_self _ _ _

theorem setThread_of_ne {u : Fin T} (s : State T) (pc : ThreadPc) (h : u ≠ t) :
    (s.setThread t pc).threads u = s.threads u := Function.update_of_ne h _ _

/-- What a thread's move adds to the number of stores. -/
theorem sum_progress_setThread (s : State T) (t : Fin T) (pc : ThreadPc) :
    ∑ u, ((s.setThread t pc).threads u).progress K + (s.threads t).progress K =
      ∑ u, (s.threads u).progress K + pc.progress K := by
  have hrest : ∑ u ∈ Finset.univ.erase t, ((s.setThread t pc).threads u).progress K =
      ∑ u ∈ Finset.univ.erase t, (s.threads u).progress K :=
    Finset.sum_congr rfl fun u hu => by rw [setThread_of_ne s pc (Finset.ne_of_mem_erase hu)]
  rw [← Finset.add_sum_erase _ _ (Finset.mem_univ t), hrest, setThread_self,
    ← Finset.add_sum_erase Finset.univ (fun u => (s.threads u).progress K) (Finset.mem_univ t)]
  omega

theorem threads_setThread {u : Fin T} {p : ThreadPc → Prop} (hpc : u = t → p pc)
    (hold : u ≠ t → p (s.threads u)) : p ((s.setThread t pc).threads u) := by
  by_cases hu : u = t
  · rw [hu, setThread_self]
    exact hpc hu
  · rw [setThread_of_ne s pc hu]
    exact hold hu

/-! ## The steps -/

theorem loop_progress (hi : i ≤ K) : (ThreadPc.loop K i).progress K = i := by
  unfold ThreadPc.loop
  split
  · rfl
  · exact (Nat.le_antisymm hi (not_lt.mp ‹_›)).symm

theorem loop_index {j : ℕ} (h : (ThreadPc.loop K i).index = some j) : j < K := by
  unfold ThreadPc.loop at h
  split at h
  · obtain rfl := Option.some.inj h
    assumption
  · cases h

theorem loop_ne_storing {j : ℕ} {v : BitVec 32} : ThreadPc.loop K i ≠ .storing j v := by
  unfold ThreadPc.loop
  split <;> nofun

theorem progress_of_index (h : pc.index = some i) : pc.progress K = i := by
  cases pc with
  | loading j => exact Option.some.inj h
  | storing j v => exact Option.some.inj h
  | notCreated => cases h
  | finished => cases h

theorem Inv.move (h : Inv K n s) (ht : (s.threads t).index = some i) {c : BitVec 32} {m : ℕ}
    (hcount : pc.progress K + n = m + i) (hm : n ≤ m)
    (hindex : ∀ j, pc.index = some j → j < K) (hcle : c.toNat ≤ m) (hcpos : 0 < m → 0 < c.toNat)
    (hvle : ∀ j v, pc = .storing j v → v.toNat ≤ m)
    (hvpos : ∀ j v, pc = .storing j v → 0 < j → 0 < v.toNat)
    (hlast : pc = .finished → 2 ≤ c.toNat) :
    Inv K m { s.setThread t pc with counter := c } := by
  have hne {u : Fin T} {q : ThreadPc} (hq : q.index = none) (hu : s.threads u = q) : u ≠ t := by
    rintro rfl
    rw [hu, hq] at ht
    cases ht
  have hrunning : ¬∀ u, s.threads u = .finished := fun hall => hne rfl (hall t) rfl
  exact
    { fresh := fun j hj u hu => by
        have hold := h.fresh j hj u hu
        exact (setThread_of_ne s pc (hne rfl hold)).trans hold
      count := by
        have hsum := sum_progress_setThread (K := K) s t pc
        rw [progress_of_index ht, h.count] at hsum
        show ∑ u, ((s.setThread t pc).threads u).progress K = m
        omega
      inLoop := fun u j => threads_setThread (p := fun q => q.index = some j → j < K)
        (fun _ => hindex j) fun _ => h.inLoop u j
      counter_le := hcle
      counter_pos := hcpos
      value_le := fun u j v => threads_setThread (p := fun q => q = .storing j v → v.toNat ≤ m)
        (fun _ => hvle j v) fun _ hq => (h.value_le u j v hq).trans hm
      value_pos := fun u j v =>
        threads_setThread (p := fun q => q = .storing j v → 0 < j → 0 < v.toNat)
          (fun _ => hvpos j v) fun _ => h.value_pos u j v
      last := fun hall => hlast ((setThread_self s t pc).symm.trans (hall t))
      joined := fun j hj u hu => by
        have hold := h.joined j hj u hu
        exact (setThread_of_ne s pc (hne rfl hold)).trans hold
      printing := fun hp => absurd (h.printing hp) hrunning
      output := fun v hv => absurd (h.output v hv).2 hrunning }

theorem Inv.load (h : Inv K n s) (ht : s.threads t = .loading i) :
    Inv K n (s.setThread t (.storing i s.counter)) := by
  have hindex : (s.threads t).index = some i := by rw [ht]; rfl
  have hi : i ≤ n := by
    rw [← h.count, ← progress_of_index (K := K) hindex]
    exact Finset.single_le_sum (f := fun u => (s.threads u).progress K) (fun _ _ => Nat.zero_le _)
      (Finset.mem_univ t)
  refine h.move hindex (Nat.add_comm i n) le_rfl (fun j hj => ?_) h.counter_le h.counter_pos
    (fun j v hv => ?_) (fun j v hv hj => ?_) nofun
  · obtain rfl := Option.some.inj hj
    exact h.inLoop t i hindex
  · cases hv
    exact h.counter_le
  · cases hv
    exact h.counter_pos (by omega)

/-- **A thread stores**: what it has loaded was not `0`, except for its first increment. -/
theorem Inv.store (h : Inv K n s) (hK : 2 ≤ K) (hTK : T * K < 2 ^ 31) {v : BitVec 32}
    (ht : s.threads t = .storing i v) :
    Inv K (n + 1) { s.setThread t (.loop K (i + 1)) with counter := v + 1 } := by
  have hindex : (s.threads t).index = some i := by rw [ht]; rfl
  have hi := h.inLoop t i hindex
  have hv := h.value_le t i v ht
  have hone : (v + 1).toNat = v.toNat + 1 := by
    have hn := h.le_total
    rw [BitVec.toNat_add, show (1 : BitVec 32).toNat = 1 from rfl]
    exact Nat.mod_eq_of_lt (by omega)
  refine h.move hindex ?_ (Nat.le_succ n) (fun j => loop_index) (by omega) (fun _ => by omega)
    (fun j v hj => absurd hj loop_ne_storing) (fun j v hj => absurd hj loop_ne_storing)
    fun hlast => ?_
  · rw [loop_progress hi]
    omega
  · -- the last increment of a thread is not its first
    have hi : 0 < i := by
      unfold ThreadPc.loop at hlast
      split at hlast
      · cases hlast
      · omega
    have hpos := h.value_pos t i v ht hi
    omega

theorem Inv.create (h : Inv K n s) (hK : 2 ≤ K) (hmain : s.main = .creating i) (hi : i < T) :
    Inv K n { s.setThread ⟨i, hi⟩ (.loop K 0) with main := .creating (i + 1) } := by
  have hnew : s.threads ⟨i, hi⟩ = .notCreated := h.fresh i hmain ⟨i, hi⟩ le_rfl
  exact
    { fresh := fun j hj u hu => by
        obtain rfl := MainPc.creating.inj hj
        have hne : u ≠ ⟨i, hi⟩ := fun heq => by
          rw [heq] at hu
          exact absurd hu (Nat.not_succ_le_self i)
        exact (setThread_of_ne s _ hne).trans (h.fresh i hmain u (by omega))
      count := by
        have hsum := sum_progress_setThread (K := K) s ⟨i, hi⟩ (.loop K 0)
        rw [hnew, loop_progress (Nat.zero_le K), h.count] at hsum
        exact hsum
      inLoop := fun u j => threads_setThread (p := fun q => q.index = some j → j < K)
        (fun _ => loop_index) fun _ => h.inLoop u j
      counter_le := h.counter_le
      counter_pos := h.counter_pos
      value_le := fun u j v => threads_setThread (p := fun q => q = .storing j v → v.toNat ≤ n)
        (fun _ hq => absurd hq loop_ne_storing) fun _ => h.value_le u j v
      value_pos := fun u j v =>
        threads_setThread (p := fun q => q = .storing j v → 0 < j → 0 < v.toNat)
          (fun _ hq => absurd hq loop_ne_storing) fun _ => h.value_pos u j v
      last := fun hall => by
        have hlast := (setThread_self s ⟨i, hi⟩ (.loop K 0)).symm.trans (hall ⟨i, hi⟩)
        rw [ThreadPc.loop, if_pos (by omega)] at hlast
        cases hlast
      joined := fun j hj => by cases hj
      printing := fun hp => by cases hp
      output := fun v hv => by
        have hall := (h.output v hv).2 ⟨i, hi⟩
        rw [hnew] at hall
        cases hall }

/-- `main` goes on to another place, with all the threads finished if it is to print. -/
theorem Inv.goMain (h : Inv K n s) {pc : MainPc} (hpc : ∀ i, pc ≠ .creating i)
    (hjoined : ∀ i, pc = .joining i → ∀ t : Fin T, (t : ℕ) < i → s.threads t = .finished)
    (hprinting : pc = .printing → ∀ t, s.threads t = .finished) :
    Inv K n { s with main := pc } :=
  { h with
    fresh := fun i hi => absurd hi (hpc i)
    joined := hjoined
    printing := hprinting }

theorem Inv.stepMain (h : Inv K n s) (hK : 2 ≤ K) (hstep : s.stepMain K = some s') :
    Inv K n s' := by
  unfold State.stepMain at hstep
  cases hmain : s.main with
  | creating i =>
    simp only [hmain] at hstep
    split at hstep
    · cases hstep
      exact h.create hK hmain ‹_›
    · cases hstep
      refine h.goMain nofun (fun j hj t ht => ?_) nofun
      obtain rfl := MainPc.joining.inj hj
      exact absurd ht (Nat.not_lt_zero t)
  | joining i =>
    simp only [hmain] at hstep
    split at hstep
    · rename_i hi
      split at hstep
      · rename_i hfinished
        cases hstep
        refine h.goMain nofun (fun j hj t ht => ?_) nofun
        obtain rfl := MainPc.joining.inj hj
        rcases Nat.lt_succ_iff_lt_or_eq.mp ht with hlt | heq
        · exact h.joined i hmain t hlt
        · rwa [show t = ⟨i, hi⟩ from Fin.ext heq]
      · cases hstep
    · cases hstep
      refine h.goMain nofun nofun fun _ t => h.joined i hmain t ?_
      omega
  | printing =>
    simp only [hmain] at hstep
    cases hstep
    have hgo : Inv K n { s with main := .finished } := h.goMain nofun nofun nofun
    exact { hgo with
      output := fun v hv => ⟨(Option.some.inj hv).symm, h.printing hmain⟩ }
  | finished =>
    simp only [hmain] at hstep
    cases hstep

theorem Inv.step (h : Inv K n s) (hK : 2 ≤ K) (hTK : T * K < 2 ^ 31) {a : Act T}
    (hstep : s.step K a = some s') : Inv K (n + [a].countP Act.isStore) s' := by
  cases a with
  | main => exact h.stepMain hK hstep
  | load t =>
    rw [State.step] at hstep
    split at hstep
    · cases hstep
      exact h.load ‹_›
    all_goals cases hstep
  | store t =>
    rw [State.step] at hstep
    split at hstep
    · cases hstep
      exact h.store hK hTK ‹_›
    all_goals cases hstep

/-! ## Every run -/

/-- **How much can be lost**: after any steps in any order, the counter is at most the number of
stores; once all threads have finished it is at least `2` and at most `T * K`, and so is what is
printed. -/
theorem counter_bounds (hT : 2 ≤ T) (hK : 2 ≤ K) (hTK : T * K < 2 ^ 31) {as : List (Act T)}
    {s : State T} (h : Trace (State.step K) anyOrder (State.init T) as s) :
    s.counter.toInt ≤ as.countP Act.isStore ∧
      ((∀ t, s.threads t = .finished) → 2 ≤ s.counter.toInt ∧ s.counter.toInt ≤ T * K) ∧
      ∀ v, s.output = some v → 2 ≤ v.toInt ∧ v.toInt ≤ T * K := by
  have hinv : Inv K (([] ++ as).countP Act.isStore) s := by
    refine h.history (P := fun pre s => Inv K (pre.countP Act.isStore) s)
      (fun pre s a t hs _ hstep => ?_) (inv_init (by omega))
    rw [List.countP_append]
    exact hs.step hK hTK hstep
  rw [List.nil_append] at hinv
  have hle := hinv.counter_le
  have htotal := hinv.le_total
  have hint : s.counter.toInt = s.counter.toNat := BitVec.toInt_eq_toNat_of_lt (by omega)
  have hfinal : (∀ t, s.threads t = .finished) →
      2 ≤ s.counter.toInt ∧ s.counter.toInt ≤ T * K := fun hall => by
    have hlast := hinv.last hall
    rw [hint]
    exact ⟨by omega, by exact_mod_cast hle.trans htotal⟩
  refine ⟨by omega, hfinal, fun v hv => ?_⟩
  obtain ⟨rfl, hall⟩ := hinv.output v hv
  exact hfinal hall

/-- Two threads and two increments each, of which one thread's first and the other's last take
all there is in between. -/
def lossy : List (Act 2) :=
  let a : Fin 2 := ⟨0, Nat.two_pos⟩
  let b : Fin 2 := ⟨1, Nat.one_lt_two⟩
  [.main, .main, .load a, .load b, .store b, .store a, .load b, .load a, .store a, .store b,
    .main, .main, .main, .main, .main]

/-- Four increments, and `2` is printed. -/
theorem counter_bounds_lossy :
    ∃ s, Trace (State.step 2) anyOrder (State.init 2) lossy s ∧ s.output = some 2 ∧
      s.counter.toInt ≤ lossy.countP Act.isStore ∧
        ((∀ t, s.threads t = .finished) → 2 ≤ s.counter.toInt ∧ s.counter.toInt ≤ 2 * 2) ∧
        ∀ v, s.output = some v → 2 ≤ v.toInt ∧ v.toInt ≤ 2 * 2 := by
  obtain ⟨s, htrace, hs⟩ := Trace.exists_of_eval (State.step 2) anyOrder
    (fun s => decide (s.output = some 2)) (State.init 2) lossy (by decide)
  exact ⟨s, htrace, of_decide_eq_true hs,
    counter_bounds (by decide) (by decide) (by decide) htrace⟩

end NoSync
end CaosSeminars
