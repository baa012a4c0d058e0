import Mathlib.Algebra.BigOperators.Fin
import CaosSeminars.NoSync.Counter

/-!
# Which values the unsynchronised counter prints

Between the two bounds nothing is excluded.  A thread `a` loads the counter and keeps what it has
loaded while `lost₁` increments of other threads come and go; later a thread `b` loads for its last
increment, and keeps it while `lost₂` of the remaining increments of `a` come and go.  The stores of
`a` and `b` lose these, and nothing else is lost.  As `b` has one increment left over for the second
part and `a` has made one in the first, `lost₁ + lost₂` is any number up to `T * K - 2`.

A state of such a run is a `Row`: how far each thread has got, and what it holds.

* `Row.load`, `Row.store`, `Row.increment`, `Row.burst` --- the moves of one thread, and
  increments one after another in the order of a list of threads.
* `Row.overtaken` --- a load, increments of others, and the store that throws the counter
  back.
* `exists_created`, `Row.exists_printed` --- the part of `main` before the increments and
  the part after.
* `output_iff` --- both inclusions: the values printed are those from `2` to `T * K`.
-/

namespace CaosSeminars
namespace NoSync

variable {T K : ℕ}

/-- While all the threads run: `p` counts what each has stored, and `held` is what it has loaded
and not stored. -/
structure Row (K : ℕ) (p : Fin T → ℕ) (held : Fin T → Option (BitVec 32)) (c : BitVec 32)
    (s : State T) : Prop where
  main : s.main = .joining 0
  place : ∀ t, s.threads t = (held t).elim (.loop K (p t)) (.storing (p t))
  counter : s.counter = c
  output : s.output = none

variable {p : Fin T → ℕ} {held : Fin T → Option (BitVec 32)} {c : BitVec 32} {s : State T}
  {t : Fin T}

namespace Row

theorem load (h : Row K p held c s) (ht : held t = none) (hp : p t < K) :
    ∃ s', s.step K (.load t) = some s' ∧ Row K p (Function.update held t (some c)) c s' := by
  have hplace : s.threads t = .loading (p t) := by
    rw [h.place t, ht, Option.elim_none, ThreadPc.loop, if_pos hp]
  refine ⟨s.setThread t (.storing (p t) s.counter), by simp [State.step, hplace],
    h.main, fun u => ?_, h.counter, h.output⟩
  by_cases hu : u = t
  · rw [hu, setThread_self, Function.update_self, Option.elim_some, h.counter]
  · rw [setThread_of_ne s _ hu, Function.update_of_ne hu, h.place u]

theorem store (h : Row K p held c s) {v : BitVec 32} (ht : held t = some v) :
    ∃ s', s.step K (.store t) = some s' ∧
      Row K (Function.update p t (p t + 1)) (Function.update held t none) (v + 1) s' := by
  have hplace : s.threads t = .storing (p t) v := by rw [h.place t, ht, Option.elim_some]
  refine ⟨{ s.setThread t (.loop K (p t + 1)) with counter := v + 1 },
    by simp [State.step, hplace], h.main, fun u => ?_, rfl, h.output⟩
  show (s.setThread t _).threads u = _
  by_cases hu : u = t
  · rw [hu, setThread_self, Function.update_self, Function.update_self, Option.elim_none]
  · rw [setThread_of_ne s _ hu, Function.update_of_ne hu, Function.update_of_ne hu, h.place u]

/-- An increment that nobody comes between. -/
theorem increment (h : Row K p held c s) (ht : held t = none) (hp : p t < K) :
    ∃ s', Trace (State.step K) anyOrder s [.load t, .store t] s' ∧
      Row K (Function.update p t (p t + 1)) held (c + 1) s' := by
  obtain ⟨s₁, hload, h₁⟩ := h.load ht hp
  obtain ⟨s₂, hstore, h₂⟩ := h₁.store (Function.update_self t (some c) held)
  rw [Function.update_idem, ← ht, Function.update_eq_self] at h₂
  exact ⟨s₂, .cons trivial hload (.cons trivial hstore (.nil s₂)), h₂⟩

/-- **Increments one after the other**, in the order of a list of threads. -/
theorem burst (ts : List (Fin T)) (h : Row K p held c s) (hfree : ∀ t ∈ ts, held t = none)
    (hroom : ∀ t, p t + ts.count t ≤ K) :
    ∃ as s', Trace (State.step K) anyOrder s as s' ∧
      Row K (fun t => p t + ts.count t) held (c + BitVec.ofNat 32 ts.length) s' := by
  induction ts generalizing p c s with
  | nil =>
    have hrow : Row K (fun t => p t + ([] : List (Fin T)).count t) held
        (c + BitVec.ofNat 32 ([] : List (Fin T)).length) s := by simpa using h
    exact ⟨[], s, .nil s, hrow⟩
  | cons t ts ih =>
    have hp : p t < K := by
      have := hroom t
      rw [List.count_cons_self] at this
      omega
    obtain ⟨s₁, hfirst, h₁⟩ := h.increment (hfree t List.mem_cons_self) hp
    have hp₁ : ∀ u, Function.update p t (p t + 1) u + ts.count u = p u + (t :: ts).count u := by
      intro u
      by_cases hu : u = t
      · rw [hu, Function.update_self, List.count_cons_self]
        omega
      · rw [Function.update_of_ne hu, List.count_cons_of_ne (Ne.symm hu)]
    obtain ⟨as, s₂, hrest, h₂⟩ := ih h₁ (fun u hu => hfree u (List.mem_cons_of_mem t hu))
      (fun u => (hp₁ u).le.trans (hroom u))
    refine ⟨_, s₂, hfirst.append hrest, ?_⟩
    simp only [hp₁] at h₂
    have hc : c + 1 + BitVec.ofNat 32 ts.length = c + BitVec.ofNat 32 (t :: ts).length := by
      rw [List.length_cons, Nat.add_comm, BitVec.ofNat_add, BitVec.add_assoc]
      rfl
    rwa [hc] at h₂

/-- **A stale store.**  While `a` keeps what it has loaded, other threads make their increments;
the store of `a` loses all of them. -/
theorem overtaken {a : Fin T} (ts : List (Fin T)) (h : Row K p held c s) (hnot : a ∉ ts)
    (hfree : ∀ t ∈ a :: ts, held t = none) (hroom : ∀ t, p t + (a :: ts).count t ≤ K) :
    ∃ as s', Trace (State.step K) anyOrder s as s' ∧
      Row K (fun t => p t + (a :: ts).count t) held (c + 1) s' := by
  have ha : held a = none := hfree a List.mem_cons_self
  have hpa : p a + 1 ≤ K := by
    have := hroom a
    rw [List.count_cons_self] at this
    omega
  obtain ⟨s₁, hload, h₁⟩ := h.load ha hpa
  obtain ⟨as, s₂, hburst, h₂⟩ := h₁.burst ts
    (fun t ht => by
      rw [Function.update_of_ne (ne_of_mem_of_not_mem ht hnot)]
      exact hfree t (List.mem_cons_of_mem a ht))
    (fun t => (Nat.add_le_add_left (List.count_le_count_cons) _).trans (hroom t))
  obtain ⟨s₃, hstore, h₃⟩ := h₂.store (Function.update_self a _ _)
  refine ⟨_, s₃, (Trace.cons trivial hload hburst).append (.cons trivial hstore (.nil s₃)), ?_⟩
  have hp : Function.update (fun t => p t + ts.count t) a (p a + ts.count a + 1) =
      fun t => p t + (a :: ts).count t := by
    funext t
    by_cases ht : t = a
    · rw [ht, Function.update_self, List.count_cons_self, Nat.add_assoc]
    · rw [Function.update_of_ne ht, List.count_cons_of_ne (Ne.symm ht)]
  have hheld : Function.update (Function.update held a (some c)) a none = held := by
    rw [Function.update_idem, ← ha, Function.update_eq_self]
  rwa [hp, hheld] at h₃

end Row

/-! ## The first and the last steps of `main` -/

theorem exists_created (K : ℕ) {i : ℕ} (hi : i ≤ T) :
    ∃ as s, Trace (State.step K) anyOrder (State.init T) as s ∧ s.main = .creating i ∧
      (∀ t : Fin T, (t : ℕ) < i → s.threads t = .loop K 0) ∧ s.counter = 0 ∧ s.output = none := by
  induction i with
  | zero => exact ⟨[], _, .nil _, rfl, fun t ht => absurd ht (Nat.not_lt_zero t), rfl, rfl⟩
  | succ i ih =>
    obtain ⟨as, s, hrun, hmain, hthreads, hcounter, houtput⟩ := ih (Nat.le_of_succ_le hi)
    have hstep : s.step K .main =
        some { s.setThread ⟨i, hi⟩ (.loop K 0) with main := .creating (i + 1) } := by
      simp only [State.step, State.stepMain, hmain, dif_pos (Nat.lt_of_succ_le hi)]
    refine ⟨_, _, hrun.append (.cons trivial hstep (.nil _)), rfl, fun t ht => ?_, hcounter,
      houtput⟩
    show (s.setThread ⟨i, hi⟩ (.loop K 0)).threads t = _
    by_cases htt : t = ⟨i, hi⟩
    · rw [htt, setThread_self]
    · have hne : (t : ℕ) ≠ i := fun heq => htt (Fin.ext heq)
      rw [setThread_of_ne s _ htt, hthreads t (by omega)]

theorem exists_row (T K : ℕ) :
    ∃ as s, Trace (State.step K) anyOrder (State.init T) as s ∧
      Row K (fun _ => 0) (fun _ => none) 0 s := by
  obtain ⟨as, s, hrun, hmain, hthreads, hcounter, houtput⟩ := exists_created K (le_refl T)
  have hstep : s.step K .main = some { s with main := .joining 0 } := by
    simp [State.step, State.stepMain, hmain]
  exact ⟨_, _, hrun.append (.cons trivial hstep (.nil _)), rfl,
    fun t => hthreads t t.isLt, hcounter,
    houtput⟩

theorem exists_joined (hmain : s.main = .joining 0) (hall : ∀ t, s.threads t = .finished) {i : ℕ}
    (hi : i ≤ T) :
    ∃ as, Trace (State.step K) anyOrder s as { s with main := .joining i } := by
  induction i with
  | zero => exact ⟨[], by rw [← hmain]; exact .nil s⟩
  | succ i ih =>
    obtain ⟨as, hrun⟩ := ih (Nat.le_of_succ_le hi)
    have hstep : State.step K { s with main := .joining i } .main =
        some { s with main := .joining (i + 1) } := by
      simp [State.step, State.stepMain, Nat.lt_of_succ_le hi, hall]
    exact ⟨_, hrun.append (.cons trivial hstep (.nil _))⟩

/-- When every thread has made its increments, `main` prints the counter. -/
theorem Row.exists_printed (h : Row K (fun _ => K) (fun _ => none) c s) :
    ∃ as s', Trace (State.step K) anyOrder s as s' ∧ s'.output = some c := by
  have hall : ∀ t, s.threads t = .finished := by
    intro t
    rw [h.place t, Option.elim_none, ThreadPc.loop, if_neg (Nat.lt_irrefl K)]
  obtain ⟨as, hrun⟩ := exists_joined (K := K) h.main hall (le_refl T)
  have hjoined : State.step K { s with main := .joining T } .main =
      some { s with main := .printing } := by
    simp [State.step, State.stepMain]
  have hprint : State.step K { s with main := .printing } .main =
      some { s with main := .finished, output := some s.counter } := rfl
  exact ⟨_, _, hrun.append (.cons trivial hjoined (.cons trivial hprint (.nil _))),
    congrArg some h.counter⟩

/-! ## The schedule -/

/-- A list of threads in which each comes as often as it is told. -/
theorem exists_list_count (n : Fin T → ℕ) :
    ∃ ts : List (Fin T), (∀ t, ts.count t = n t) ∧ ts.length = ∑ t, n t := by
  refine ⟨(∑ t, Multiset.replicate (n t) t).toList, fun t => ?_, ?_⟩
  · rw [← Multiset.coe_count, Multiset.coe_toList, Multiset.count_sum']
    simp [Multiset.count_replicate]
  · rw [Multiset.length_toList, Multiset.card_sum]
    simp

/-- What the threads other than `a` increment, but for the last increment of `b`. -/
def others (K : ℕ) (a b : Fin T) (t : Fin T) : ℕ := if t = a then 0 else if t = b then K - 1 else K

theorem sum_others {a b : Fin T} (hab : a ≠ b) (hK : 0 < K) :
    ∑ t, others K a b t + (K + 1) = T * K := by
  have hpoint : ∀ t, others K a b t + ((if t = a then K else 0) + if t = b then 1 else 0) = K := by
    intro t
    unfold others
    by_cases hta : t = a
    · simp [hta, hab]
    · by_cases htb : t = b
      · simp [htb, hab.symm, Nat.sub_add_cancel hK]
      · simp [hta, htb]
  calc ∑ t, others K a b t + (K + 1)
      = ∑ t, (others K a b t + ((if t = a then K else 0) + if t = b then 1 else 0)) := by
        rw [Finset.sum_add_distrib, Finset.sum_add_distrib, Finset.sum_ite_eq', Finset.sum_ite_eq',
          if_pos (Finset.mem_univ a), if_pos (Finset.mem_univ b)]
    _ = T * K := by simp [hpoint]

/-- **Two stale stores.**  `a` loses `lost₁` increments of the others and `b` loses `lost₂` of
`a`. -/
theorem exists_lost {a b : Fin T} (hab : a ≠ b) (hK : 0 < K) {lost₁ lost₂ : ℕ}
    (hlost₁ : lost₁ + (K + 1) ≤ T * K) (hlost₂ : lost₂ < K) :
    ∃ as s, Trace (State.step K) anyOrder (State.init T) as s ∧
      s.output = some (BitVec.ofNat 32 (T * K - (lost₁ + lost₂))) := by
  obtain ⟨ts, hcount, hlength⟩ := exists_list_count (others K a b)
  have hsum := sum_others hab hK
  have hsplit : ∀ t, (ts.take lost₁).count t + (ts.drop lost₁).count t = others K a b t := by
    intro t
    rw [← List.count_append, List.take_append_drop, hcount]
  have hnot : a ∉ ts.take lost₁ := fun hmem => by
    have hpos := List.count_pos_iff.mpr hmem
    have := hsplit a
    rw [others, if_pos rfl] at this
    omega
  have hall : ∀ t, (a :: ts.take lost₁).count t + (ts.drop lost₁).count t +
      (b :: List.replicate lost₂ a).count t + (List.replicate (K - 1 - lost₂) a).count t = K := by
    intro t
    have := hsplit t
    unfold others at this
    by_cases hta : t = a
    · subst hta
      simp only [if_true, List.count_cons_self, List.count_cons_of_ne hab.symm,
        List.count_replicate_self] at this ⊢
      omega
    · by_cases htb : t = b
      · subst htb
        simp only [if_neg hta, if_true, List.count_cons_self, List.count_cons_of_ne hab,
          List.count_replicate, beq_iff_eq, if_neg hab] at this ⊢
        omega
      · simp only [if_neg hta, if_neg htb, List.count_cons_of_ne (Ne.symm hta),
          List.count_cons_of_ne (Ne.symm htb), List.count_replicate, beq_iff_eq,
          if_neg (Ne.symm hta)] at this ⊢
        omega
  obtain ⟨as₀, s₀, run₀, row₀⟩ := exists_row T K
  obtain ⟨as₁, s₁, run₁, row₁⟩ := row₀.overtaken (ts.take lost₁) hnot (fun _ _ => rfl)
    (fun t => by have := hall t; omega)
  obtain ⟨as₂, s₂, run₂, row₂⟩ := row₁.burst (ts.drop lost₁) (fun _ _ => rfl)
    (fun t => by have := hall t; omega)
  obtain ⟨as₃, s₃, run₃, row₃⟩ := row₂.overtaken (a := b) (List.replicate lost₂ a)
    (fun hmem => hab (List.eq_of_mem_replicate hmem).symm) (fun _ _ => rfl)
    (fun t => by have := hall t; omega)
  obtain ⟨as₄, s₄, run₄, row₄⟩ := row₃.burst (List.replicate (K - 1 - lost₂) a) (fun _ _ => rfl)
    (fun t => by have := hall t; omega)
  have hp : (fun t => 0 + (a :: ts.take lost₁).count t + (ts.drop lost₁).count t +
      (b :: List.replicate lost₂ a).count t + (List.replicate (K - 1 - lost₂) a).count t) =
      fun _ => K := by
    funext t
    rw [Nat.zero_add, hall t]
  have hc : (0 + 1 + BitVec.ofNat 32 (ts.drop lost₁).length + 1 +
      BitVec.ofNat 32 (List.replicate (K - 1 - lost₂) a).length : BitVec 32) =
      BitVec.ofNat 32 (T * K - (lost₁ + lost₂)) := by
    have htotal : T * K - (lost₁ + lost₂) =
        1 + (ts.drop lost₁).length + 1 + (List.replicate (K - 1 - lost₂) a).length := by
      rw [List.length_drop, List.length_replicate, hlength]
      omega
    rw [htotal, BitVec.ofNat_add, BitVec.ofNat_add, BitVec.ofNat_add]
    rfl
  rw [hp, hc] at row₄
  obtain ⟨as₅, s₅, run₅, hout⟩ := row₄.exists_printed
  exact ⟨_, s₅, (((run₀.append run₁).append run₂).append run₃).append run₄ |>.append run₅, hout⟩

/-- **Exactly these values are printed**: every number from `2` to `T * K`, and no other. -/
theorem output_iff (hT : 2 ≤ T) (hK : 2 ≤ K) (hTK : T * K < 2 ^ 31) (v : ℤ) :
    (∃ as s w, Trace (State.step K) anyOrder (State.init T) as s ∧ s.output = some w ∧
      w.toInt = v) ↔ 2 ≤ v ∧ v ≤ T * K := by
  constructor
  · rintro ⟨as, s, w, hrun, hout, rfl⟩
    have hinv : Inv K (([] ++ as).countP Act.isStore) s := by
      refine hrun.history (P := fun pre s => Inv K (pre.countP Act.isStore) s)
        (fun pre s a t hs _ hstep => ?_) (inv_init (by omega))
      rw [List.countP_append]
      exact hs.step hK hTK hstep
    obtain ⟨rfl, hall⟩ := hinv.output w hout
    have hle := hinv.counter_le.trans hinv.le_total
    have hlast := hinv.last hall
    rw [BitVec.toInt_eq_toNat_of_lt (by omega)]
    exact ⟨by omega, by exact_mod_cast hle⟩
  · rintro ⟨h2, hle⟩
    obtain ⟨n, rfl⟩ := Int.eq_ofNat_of_zero_le (by omega : 0 ≤ v)
    have hle : n ≤ T * K := by exact_mod_cast hle
    have hlarge : 2 * K ≤ T * K := Nat.mul_le_mul_right K hT
    -- as many of the lost increments as possible are lost by the first stale store
    obtain ⟨lost₁, lost₂, hlost, h₁, h₂⟩ : ∃ lost₁ lost₂, lost₁ + lost₂ = T * K - n ∧
        lost₁ + (K + 1) ≤ T * K ∧ lost₂ < K :=
      ⟨min (T * K - n) (T * K - (K + 1)), T * K - n - min (T * K - n) (T * K - (K + 1)),
        by omega, by omega, by omega⟩
    obtain ⟨as, s, hrun, hout⟩ := exists_lost (a := ⟨0, by omega⟩) (b := ⟨1, by omega⟩)
      (by simp) (by omega) h₁ h₂
    refine ⟨as, s, _, hrun, hout, ?_⟩
    have hn : (BitVec.ofNat 32 n).toNat = n := by
      rw [BitVec.toNat_ofNat]
      exact Nat.mod_eq_of_lt (by omega)
    rw [hlost, Nat.sub_sub_self hle, BitVec.toInt_eq_toNat_of_lt (by omega), hn]

/-- The ten threads of the program make `30000` increments each and may print `2`. -/
theorem output_iff_program :
    ∃ as s w, Trace (State.step 30000) anyOrder (State.init 10) as s ∧ s.output = some w ∧
      w.toInt = 2 :=
  (output_iff (by decide) (by decide) (by decide) 2).mpr (by decide)

end NoSync
end CaosSeminars
