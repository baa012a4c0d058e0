import CaosSeminars.Library.Potential
import CaosSeminars.NoSync.Counter

/-!
# The counter with atomic increments

`no-sync-fix.c` is `no-sync.c` with `_Atomic int* counter` in place of `int* counter`, by which the
load and the store of an increment become one access.  Nothing else is different, so a run of the
new program is a run of the old one in which nothing comes between a load and its store
(`atomic_refines`).  In these runs nothing is lost: the counter is the number of increments so far,
the program cannot get stuck, and it prints `T * K` (`atomic_prints`).

* `apart` --- an atomic action as the actions of the old program; `stepAtomic_apart` says
  that it does the same.
* `AtomicInv.step` --- every step keeps the invariant, that the counter is the sum of what
  the threads have done.
* `AtomicInv.exists_step`, `AtomicInv.steps_le` --- nothing gets stuck, and the number of
  steps is known.
-/

namespace CaosSeminars
namespace NoSync

variable {T K n k i : ℕ}

/-- Who makes a step. -/
inductive AtomicAct (T : ℕ) where
  | main
  | increment (t : Fin T)
  deriving DecidableEq

namespace AtomicAct

def isIncrement : AtomicAct T → Bool
  | .increment _ => true
  | .main => false

/-- The step in the program without `_Atomic`. -/
def apart : AtomicAct T → List (Act T)
  | .main => [.main]
  | .increment t => [.load t, .store t]

end AtomicAct

/-- One step of `no-sync-fix.c`. -/
def State.stepAtomic (K : ℕ) (s : State T) : AtomicAct T → Option (State T)
  | .main => s.stepMain K
  | .increment t =>
    match s.threads t with
    | .loading i => some { s.setThread t (.loop K (i + 1)) with counter := s.counter + 1 }
    | .notCreated | .storing _ _ | .finished => none

/-- Every order of increments. -/
def anyAtomicOrder (_ : State T) (_ : AtomicAct T) : Prop := True

instance (s : State T) (a : AtomicAct T) : Decidable (anyAtomicOrder s a) :=
  inferInstanceAs (Decidable True)

variable {s s' : State T} {t : Fin T}

/-! ## Fewer runs -/

/-- An atomic step is a load and a store with nothing in between. -/
theorem stepAtomic_apart {a : AtomicAct T} (h : s.stepAtomic K a = some s') :
    Trace (State.step K) anyOrder s a.apart s' := by
  cases a with
  | main => exact .cons trivial h (.nil s')
  | increment t =>
    rw [State.stepAtomic] at h
    split at h
    · rename_i i ht
      obtain rfl := Option.some.inj h
      have hload : s.step K (.load t) = some (s.setThread t (.storing i s.counter)) := by
        simp [State.step, ht]
      refine .cons trivial hload (.cons trivial ?_ (.nil _))
      simp only [State.step, setThread_self]
      simp [State.setThread]
    all_goals cases h

/-- **The fixed program has no new behaviour**: its runs are runs of the program without `_Atomic`
through the same states, taken two accesses at a time. -/
theorem atomic_refines {as : List (AtomicAct T)}
    (h : Trace (State.stepAtomic K) anyAtomicOrder s as s') :
    Trace (State.step K) anyOrder s (as.flatMap AtomicAct.apart) s' := by
  induction h with
  | nil s => exact .nil s
  | cons _ hstep _ ih => exact (stepAtomic_apart hstep).append ih

/-- Two threads and two increments each. -/
def lossless : List (AtomicAct 2) :=
  let a : Fin 2 := ⟨0, Nat.two_pos⟩
  let b : Fin 2 := ⟨1, Nat.one_lt_two⟩
  [.main, .main, .increment a, .increment b, .increment b, .main, .increment a, .main, .main,
    .main, .main]

theorem atomic_refines_lossless :
    ∃ s, Trace (State.stepAtomic 2) anyAtomicOrder (State.init 2) lossless s ∧
      s.output = some 4 ∧
      Trace (State.step 2) anyOrder (State.init 2) (lossless.flatMap AtomicAct.apart) s := by
  obtain ⟨s, htrace, hs⟩ := Trace.exists_of_eval (State.stepAtomic 2) anyAtomicOrder
    (fun s => decide (s.output = some 4)) (State.init 2) lossless (by decide)
  exact ⟨s, htrace, of_decide_eq_true hs, atomic_refines htrace⟩

/-! ## The invariant -/

/-- The steps `main` has made. -/
def MainPc.steps (T : ℕ) : MainPc → ℕ
  | .creating i => i
  | .joining i => T + 1 + i
  | .printing => 2 * T + 2
  | .finished => 2 * T + 3

/-- What is known after `n` steps, of which `k` were increments. -/
structure AtomicInv (K n k : ℕ) (s : State T) : Prop where
  steps : n = k + s.main.steps T
  count : ∑ t, (s.threads t).progress K = k
  counter : s.counter = BitVec.ofNat 32 k
  apart : ∀ t i v, s.threads t ≠ .storing i v
  inLoop : ∀ t i, (s.threads t).index = some i → i < K
  created : ∀ t : Fin T, s.threads t = .notCreated ↔ ∃ i, s.main = .creating i ∧ i ≤ t
  creating_le : ∀ i, s.main = .creating i → i ≤ T
  joining_le : ∀ i, s.main = .joining i → i ≤ T
  joined : ∀ t : Fin T, T + 1 + t < s.main.steps T → s.threads t = .finished
  output : s.output = if s.main = .finished then some (BitVec.ofNat 32 (T * K)) else none

theorem atomicInv_init : AtomicInv K 0 0 (State.init T) where
  steps := rfl
  count := Finset.sum_const_zero
  counter := rfl
  apart _ _ _ := nofun
  inLoop _ _ h := by cases h
  created t := ⟨fun _ => ⟨0, rfl, Nat.zero_le _⟩, fun _ => rfl⟩
  creating_le i h := by obtain rfl := MainPc.creating.inj h; exact Nat.zero_le T
  joining_le _ h := by cases h
  joined t h := absurd h (Nat.not_lt_zero _)
  output := rfl

theorem loop_ne_notCreated : ThreadPc.loop K i ≠ .notCreated := by
  unfold ThreadPc.loop
  split <;> nofun

namespace AtomicInv

/-- All threads have finished when `main` has joined them, and then no increment is left. -/
theorem count_eq (h : AtomicInv K n k s) (hmain : 2 * T + 2 ≤ s.main.steps T) : k = T * K := by
  have hall : ∀ t, s.threads t = .finished := fun t => h.joined t (by omega)
  rw [← h.count]
  simp [hall, ThreadPc.progress]

/-- A thread increments. -/
theorem increment (h : AtomicInv K n k s) (ht : s.threads t = .loading i) :
    AtomicInv K (n + 1) (k + 1)
      { s.setThread t (.loop K (i + 1)) with counter := s.counter + 1 } := by
  have hi : i < K := h.inLoop t i (by rw [ht]; rfl)
  have hmain : s.main.steps T ≤ T + 1 + t := by
    by_contra hlt
    have := h.joined t (by omega)
    rw [ht] at this
    cases this
  exact
    { steps := by
        have := h.steps
        show n + 1 = k + 1 + s.main.steps T
        omega
      count := by
        have hsum := sum_progress_setThread (K := K) s t (.loop K (i + 1))
        rw [h.count, loop_progress hi, ht] at hsum
        show ∑ u, ((s.setThread t (.loop K (i + 1))).threads u).progress K = k + 1
        have : (ThreadPc.loading i).progress K = i := rfl
        omega
      counter := by
        show s.counter + 1 = _
        rw [h.counter, BitVec.ofNat_add]
        rfl
      apart := fun u j v => threads_setThread (p := fun q => q ≠ .storing j v)
        (fun _ => loop_ne_storing) fun _ => h.apart u j v
      inLoop := fun u j => threads_setThread (p := fun q => q.index = some j → j < K)
        (fun _ => loop_index) fun _ => h.inLoop u j
      created := fun u => by
        refine threads_setThread (p := fun q => q = .notCreated ↔ ∃ i, s.main = .creating i ∧ i ≤ u)
          (fun hu => ?_) fun _ => h.created u
        subst hu
        have hnew : s.threads u ≠ .notCreated := by rw [ht]; nofun
        exact ⟨fun hq => absurd hq loop_ne_notCreated,
          fun hex => absurd ((h.created u).mpr hex) hnew⟩
      creating_le := h.creating_le
      joining_le := h.joining_le
      joined := fun u hu => by
        refine threads_setThread (p := fun q => q = .finished) (fun heq => ?_)
          fun _ => h.joined u hu
        subst heq
        exact absurd hu (by show ¬ T + 1 + (u : ℕ) < s.main.steps T; omega)
      output := h.output }

theorem create (h : AtomicInv K n k s) (hmain : s.main = .creating i) (hi : i < T) :
    AtomicInv K (n + 1) k
      { s.setThread ⟨i, hi⟩ (.loop K 0) with main := .creating (i + 1) } := by
  have hnew : s.threads ⟨i, hi⟩ = .notCreated := (h.created ⟨i, hi⟩).mpr ⟨i, hmain, le_rfl⟩
  have hsteps : s.main.steps T = i := by rw [hmain]; rfl
  exact
    { steps := by
        have := h.steps
        show n + 1 = k + (i + 1)
        omega
      count := by
        have hsum := sum_progress_setThread (K := K) s ⟨i, hi⟩ (.loop K 0)
        rwa [hnew, loop_progress (Nat.zero_le K), h.count] at hsum
      counter := h.counter
      apart := fun u j v => threads_setThread (p := fun q => q ≠ .storing j v)
        (fun _ => loop_ne_storing) fun _ => h.apart u j v
      inLoop := fun u j => threads_setThread (p := fun q => q.index = some j → j < K)
        (fun _ => loop_index) fun _ => h.inLoop u j
      created := fun u => by
        show (s.setThread ⟨i, hi⟩ (.loop K 0)).threads u = _ ↔ _
        refine threads_setThread (p := fun q => q = .notCreated ↔
          ∃ j, MainPc.creating (i + 1) = .creating j ∧ j ≤ u) (fun hu => ?_) fun hu => ?_
        · subst hu
          refine ⟨fun hq => absurd hq loop_ne_notCreated, ?_⟩
          rintro ⟨j, hj, hle⟩
          obtain rfl := MainPc.creating.inj hj
          exact absurd hle (Nat.not_succ_le_self i)
        · have hne : (u : ℕ) ≠ i := fun heq => hu (Fin.ext heq)
          rw [h.created u, hmain]
          constructor
          · rintro ⟨j, hj, hle⟩
            obtain rfl := MainPc.creating.inj hj
            exact ⟨i + 1, rfl, by omega⟩
          · rintro ⟨j, hj, hle⟩
            obtain rfl := MainPc.creating.inj hj
            exact ⟨i, rfl, by omega⟩
      creating_le := fun j hj => by
        obtain rfl := MainPc.creating.inj hj
        exact hi
      joining_le := fun j hj => by cases hj
      joined := fun u hu => by
        have hu : T + 1 + (u : ℕ) < i + 1 := hu
        omega
      output := by
        have hout := h.output
        rw [hmain] at hout
        exact hout }

/-- `main` makes a step that creates no thread, when all are created. -/
theorem goMain (h : AtomicInv K n k s) {main : MainPc} {output : Option (BitVec 32)}
    (hcreated : ∀ t, s.threads t ≠ .notCreated)
    (hnext : main.steps T = s.main.steps T + 1) (hpast : ∀ i, main ≠ .creating i)
    (hle : ∀ i, main = .joining i → i ≤ T)
    (hjoined : ∀ t : Fin T, T + 1 + t = s.main.steps T → s.threads t = .finished)
    (hout : output = if main = .finished then some (BitVec.ofNat 32 (T * K)) else none) :
    AtomicInv K (n + 1) k { s with main := main, output := output } :=
    { h with
      steps := by
        have := h.steps
        show n + 1 = k + main.steps T
        omega
      created := fun u => by
        refine ⟨fun hq => absurd hq (hcreated u), ?_⟩
        rintro ⟨i, hi, -⟩
        exact absurd hi (hpast i)
      creating_le := fun i hi => absurd hi (hpast i)
      joining_le := hle
      joined := fun u hu => by
        have hu : T + 1 + (u : ℕ) < main.steps T := hu
        rcases Nat.lt_or_eq_of_le (Nat.le_of_lt_succ (hnext ▸ hu)) with hlt | heq
        · exact h.joined u hlt
        · exact hjoined u heq
      output := hout }

theorem stepMain (h : AtomicInv K n k s) (hstep : s.stepMain K = some s') :
    AtomicInv K (n + 1) k s' := by
  have hcreated : (∀ i, s.main = .creating i → T ≤ i) → ∀ t, s.threads t ≠ .notCreated := by
    intro hge t ht
    obtain ⟨i, hi, hle⟩ := (h.created t).mp ht
    have := hge i hi
    omega
  unfold State.stepMain at hstep
  cases hmain : s.main with
  | creating i =>
    simp only [hmain] at hstep
    split at hstep <;> rename_i hi <;> cases hstep
    · exact h.create hmain hi
    · have hT : i = T := Nat.le_antisymm (h.creating_le i hmain) (not_lt.mp hi)
      refine h.goMain (hcreated fun j hj => ?_) ?_ nofun (fun j hj => ?_) (fun t ht => ?_) ?_
      · rw [hmain] at hj
        exact hT ▸ (MainPc.creating.inj hj).le
      · rw [hmain, hT]
        rfl
      · obtain rfl := MainPc.joining.inj hj
        exact Nat.zero_le T
      · rw [hmain, hT] at ht
        exact absurd ht (by show T + 1 + (t : ℕ) ≠ T; omega)
      · rw [h.output, hmain]
        rfl
  | joining i =>
    simp only [hmain] at hstep
    have hall := hcreated fun j hj => by rw [hmain] at hj; cases hj
    split at hstep
    · rename_i hi
      split at hstep <;> cases hstep
      rename_i hfinished
      refine h.goMain hall (by rw [hmain]; rfl) nofun (fun j hj => ?_) (fun t ht => ?_) ?_
      · obtain rfl := MainPc.joining.inj hj
        exact hi
      · rw [hmain] at ht
        have ht : T + 1 + (t : ℕ) = T + 1 + i := ht
        have hti : (t : ℕ) = i := by omega
        rwa [show t = ⟨i, hi⟩ from Fin.ext hti]
      · rw [h.output, hmain]
        rfl
    · rename_i hi
      cases hstep
      have hT : i = T := Nat.le_antisymm (h.joining_le i hmain) (not_lt.mp hi)
      refine h.goMain hall ?_ nofun nofun (fun t ht => ?_) ?_
      · rw [hmain, hT]
        show 2 * T + 2 = T + 1 + T + 1
        omega
      · rw [hmain, hT] at ht
        have ht : T + 1 + (t : ℕ) = T + 1 + T := ht
        omega
      · rw [h.output, hmain]
        rfl
  | printing =>
    simp only [hmain] at hstep
    cases hstep
    have hk := h.count_eq (by rw [hmain]; rfl)
    refine h.goMain (hcreated fun j hj => by rw [hmain] at hj; cases hj) (by rw [hmain]; rfl) nofun
      nofun (fun t ht => ?_) ?_
    · rw [hmain] at ht
      have ht : T + 1 + (t : ℕ) = 2 * T + 2 := ht
      omega
    · rw [h.counter, hk]
      rfl
  | finished =>
    simp only [hmain] at hstep
    cases hstep

theorem step (h : AtomicInv K n k s) {a : AtomicAct T} (hstep : s.stepAtomic K a = some s') :
    AtomicInv K (n + 1) (k + [a].countP AtomicAct.isIncrement) s' := by
  cases a with
  | main => exact h.stepMain hstep
  | increment t =>
    rw [State.stepAtomic] at hstep
    split at hstep
    · cases hstep
      exact h.increment ‹_›
    all_goals cases hstep

/-- **Nothing gets stuck**: until the counter is printed, somebody can make a step. -/
theorem exists_step (h : AtomicInv K n k s) (hmain : s.main ≠ .finished) :
    ∃ a s', s.stepAtomic K a = some s' := by
  cases hm : s.main with
  | creating i =>
    refine ⟨.main, ?_⟩
    by_cases hi : i < T <;> simp [State.stepAtomic, State.stepMain, hm, hi]
  | joining i =>
    by_cases hi : i < T
    · cases ht : s.threads ⟨i, hi⟩ with
      | notCreated =>
        obtain ⟨j, hj, -⟩ := (h.created ⟨i, hi⟩).mp ht
        rw [hm] at hj
        cases hj
      | loading j => exact ⟨.increment ⟨i, hi⟩, by simp [State.stepAtomic, ht]⟩
      | storing j v => exact absurd ht (h.apart _ j v)
      | finished => exact ⟨.main, by simp [State.stepAtomic, State.stepMain, hm, hi, ht]⟩
    · exact ⟨.main, by simp [State.stepAtomic, State.stepMain, hm, hi]⟩
  | printing => exact ⟨.main, by simp [State.stepAtomic, State.stepMain, hm]⟩
  | finished => exact absurd hm hmain

end AtomicInv

/-! ## Every run -/

theorem AtomicInv.le_total (h : AtomicInv K n k s) : k ≤ T * K := by
  have hbound : ∀ t, (s.threads t).progress K ≤ K := by
    intro t
    cases hpc : s.threads t with
    | notCreated => exact Nat.zero_le K
    | loading i => exact (h.inLoop t i (by rw [hpc]; rfl)).le
    | storing i v => exact (h.inLoop t i (by rw [hpc]; rfl)).le
    | finished => exact le_rfl
  have hsum := sum_le_card_mul hbound
  rwa [h.count, Fintype.card_fin, Nat.mul_comm] at hsum

/-- There are only so many steps, and the last of them is the one that prints. -/
theorem AtomicInv.steps_le (h : AtomicInv K n k s) :
    n ≤ T * K + 2 * T + 3 ∧ (s.main = .finished ↔ n = T * K + 2 * T + 3) := by
  have hk := h.le_total
  have hn := h.steps
  cases hmain : s.main with
  | creating i =>
    have hi := h.creating_le i hmain
    rw [hmain, MainPc.steps] at hn
    exact ⟨by omega, nofun, by omega⟩
  | joining i =>
    have hi := h.joining_le i hmain
    rw [hmain, MainPc.steps] at hn
    exact ⟨by omega, nofun, by omega⟩
  | printing =>
    rw [hmain, MainPc.steps] at hn
    exact ⟨by omega, nofun, by omega⟩
  | finished =>
    have hlast := h.count_eq (by rw [hmain, MainPc.steps]; omega)
    rw [hmain, MainPc.steps] at hn
    exact ⟨by omega, fun _ => by omega, fun _ => rfl⟩

/-- **Nothing is lost**: in every run of `T` threads with `K` increments each, the counter is the
number of increments so far.  Every run goes on until it has made `T * K + 2 * T + 3` steps; the
last of them prints `T * K`, and no other prints anything. -/
theorem atomic_prints {as : List (AtomicAct T)}
    (h : Trace (State.stepAtomic K) anyAtomicOrder (State.init T) as s) :
    s.counter = BitVec.ofNat 32 (as.countP AtomicAct.isIncrement) ∧
      as.length ≤ T * K + 2 * T + 3 ∧
      (as.length < T * K + 2 * T + 3 → ∃ a s', s.stepAtomic K a = some s') ∧
      s.output =
        if as.length = T * K + 2 * T + 3 then some (BitVec.ofNat 32 (T * K)) else none := by
  have hinv : AtomicInv K ([] ++ as).length (([] ++ as).countP AtomicAct.isIncrement) s := by
    refine h.history
      (P := fun pre s => AtomicInv K pre.length (pre.countP AtomicAct.isIncrement) s)
      (fun pre s a t hs _ hstep => ?_) atomicInv_init
    rw [List.countP_append, List.length_append]
    exact hs.step hstep
  rw [List.nil_append] at hinv
  obtain ⟨hle, hfinished⟩ := hinv.steps_le
  refine ⟨hinv.counter, hle, fun hlt => hinv.exists_step fun hmain => ?_, ?_⟩
  · have := hfinished.mp hmain
    omega
  · rw [hinv.output]
    simp only [hfinished]

theorem atomic_prints_lossless :
    ∃ s, Trace (State.stepAtomic 2) anyAtomicOrder (State.init 2) lossless s ∧
      s.counter = BitVec.ofNat 32 (lossless.countP AtomicAct.isIncrement) ∧
      lossless.length ≤ 2 * 2 + 2 * 2 + 3 ∧
      (lossless.length < 2 * 2 + 2 * 2 + 3 → ∃ a s', s.stepAtomic 2 a = some s') ∧
      s.output =
        if lossless.length = 2 * 2 + 2 * 2 + 3 then some (BitVec.ofNat 32 (2 * 2)) else none := by
  obtain ⟨s, htrace, -⟩ := Trace.exists_of_eval (State.stepAtomic 2) anyAtomicOrder
    (fun _ => true) (State.init 2) lossless (by decide)
  exact ⟨s, htrace, atomic_prints htrace⟩

end NoSync
end CaosSeminars
