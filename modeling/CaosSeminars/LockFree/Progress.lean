import CaosSeminars.Library.Potential
import CaosSeminars.LockFree.Machine

/-!
# The stack is lock-free, and not wait-free

A compare-exchange of `stack_push` or `stack_pop` fails for two reasons: `stack->top` is no longer
what the thread loaded, or the exchange is weak and fails for no reason.  The first kind is paid
for by somebody else's success.  A thread is *stale* when it goes by a value of `stack->top` that
is out of date; only a success makes threads stale, at most all the others, and a thread that
fails is stale no more.

Give a thread the number of steps to the end of its operation if nothing comes in between, and the
length of one turn of its loop on top when it is stale.  The sum over the threads is lowered by
every step that is neither a success nor a weak failure (`weight_step`), and so the whole machine
cannot go on for long without the end of an operation (`lock_freedom`), however the steps are
ordered and whatever `malloc` returns.

Nothing of this helps one particular thread: it may lose every race (`starved`).

* `Turn`, `turn_of_moves` --- what a step is as far as progress goes: a call, a turn, a
  success, a failure, or the end of an operation.
* `weight_step`, `stale_step` --- the two potentials under one step, from which
  `lock_freedom` and `misses_le` follow by the rule of `Library.Potential`.
* `Scored`, `Arena` --- a run together with what it has scored, and the states from which a
  round can be played.
* `exists_round` --- a round in which everybody but `w` loses; `starved` plays any number of
  them.
-/

namespace CaosSeminars
namespace LockFree

namespace Pc

/-- The value of `stack->top` that the compare-exchange to come will be given. -/
@[simp] def expected : Pc → Option (Option Addr)
  | .pushPrev _ _ top | .pushCas _ _ top => some top
  | .popPrev top | .popCas top _ => some (some top)
  | _ => none

/-- The thread goes by a value of `stack->top` that is out of date. -/
def stale (top : Option Addr) (pc : Pc) : Bool := pc.expected.any fun seen => decide (seen ≠ top)

/-- The steps to the end of the operation and, between operations, to the end of the next one, if
the first turn of its loop is the last one. -/
@[simp] def stepsLeft : Pc → ℕ
  | .popped _ => 8
  | .printed _ => 7
  | .idle => 6
  | .pushMalloc _ => 5
  | .pushPayload _ _ => 4
  | .pushLoad _ _ | .popLoad => 3
  | .pushPrev _ _ _ | .popPrev _ => 2
  | .pushCas _ _ _ | .popCas _ _ | .popEnd => 1
  | .crashed => 0

/-- The steps left, with the turn that a stale thread has to make again. -/
def weight (top : Option Addr) (pc : Pc) : ℕ := pc.stepsLeft + if pc.stale top then 3 else 0

/-- What is stale in the eyes of one value of `stack->top` may be fresh in the eyes of another. -/
theorem weight_le (top top' : Option Addr) (pc : Pc) : pc.weight top' ≤ pc.weight top + 3 := by
  unfold weight
  split <;> omega

theorem weight_le_eight (top : Option Addr) (pc : Pc) : pc.weight top ≤ 8 := by
  cases pc <;> simp [weight, stepsLeft, stale, expected] <;> split <;> omega

end Pc

variable {ι : Type*}

/-- Whether the compare-exchange that a thread makes finds what it expects. -/
def State.finds (s : State ι) (x : ι × Act) : Option Bool :=
  match s.pc x.1, x.2 with
  | .pushCas _ _ top, .cas _ => some (decide (s.top = top))
  | .popCas top _, .cas _ => some (decide (s.top = some top))
  | _, _ => none

/-- A successful compare-exchange. -/
def wins (s : State ι) (x : ι × Act) : ℕ :=
  if s.finds x = some true ∧ x.2 = .cas false then 1 else 0

/-- A compare-exchange that fails because `stack->top` has changed. -/
def misses (s : State ι) (x : ι × Act) : ℕ := if s.finds x = some false then 1 else 0

/-- A weak compare-exchange that fails though it finds what it expects. -/
def weakFailures (s : State ι) (x : ι × Act) : ℕ :=
  if s.finds x = some true ∧ x.2 = .cas true then 1 else 0

/-- A `stack_pop` that runs off its end. -/
def fallsOff (s : State ι) (x : ι × Act) : ℕ :=
  match s.pc x.1, x.2 with
  | .popEnd, .fallOff _ => 1
  | _, _ => 0

/-- The end of an operation. -/
def completes (s : State ι) (x : ι × Act) : ℕ := wins s x + fallsOff s x

/-- Any order of steps, with any answer of `malloc` and of the weak compare-exchange. -/
def anyOrder (_ : State ι) (_ : ι × Act) : Prop := True

instance (s : State ι) (x : ι × Act) : Decidable (anyOrder s x) := inferInstanceAs (Decidable True)

/-! ## What one step does to the threads -/

variable [DecidableEq ι]

/-- A step moves one thread; what it does to that thread and to `stack->top` is one of four
things. -/
inductive Turn (s : State ι) (t : ι) (a : Act) (s' : State ι) : Prop
  /-- A step on the way to the end of an operation. -/
  | forward (pc' : Pc) (hpc : s'.pc = Function.update s.pc t pc') (htop : s'.top = s.top)
      (hw : pc'.weight s.top < (s.pc t).weight s.top)
      (hstale : pc'.stale s.top = true → (s.pc t).stale s.top = true)
      (hfinds : s.finds (t, a) = none) (hoff : fallsOff s (t, a) = 0)
  /-- Back to the top of the loop, with a value that was out of date. -/
  | again (pc' : Pc) (hpc : s'.pc = Function.update s.pc t pc') (htop : s'.top = s.top)
      (hw : pc'.weight s.top < (s.pc t).weight s.top) (hnew : pc'.stale s.top = false)
      (hold : (s.pc t).stale s.top = true)
      (hfinds : s.finds (t, a) = some false) (hoff : fallsOff s (t, a) = 0)
  /-- Back to the top of the loop for no reason. -/
  | weak (pc' : Pc) (hpc : s'.pc = Function.update s.pc t pc') (htop : s'.top = s.top)
      (hw : pc'.weight s.top < (s.pc t).weight s.top + 3) (hnew : pc'.stale s.top = false)
      (hfinds : s.finds (t, a) = some true) (hcas : a = .cas true) (hoff : fallsOff s (t, a) = 0)
  /-- A successful compare-exchange. -/
  | win (pc' : Pc) (hpc : s'.pc = Function.update s.pc t pc')
      (hw : ∀ top, pc'.weight top < (s.pc t).weight s.top + 8)
      (hnew : ∀ top, pc'.stale top = false)
      (hfinds : s.finds (t, a) = some true) (hcas : a = .cas false) (hoff : fallsOff s (t, a) = 0)
  /-- A `stack_pop` runs off its end. -/
  | off (pc' : Pc) (hpc : s'.pc = Function.update s.pc t pc') (htop : s'.top = s.top)
      (hw : pc'.weight s.top < (s.pc t).weight s.top + 8) (hnew : pc'.stale s.top = false)
      (hfinds : s.finds (t, a) = none) (hoff : fallsOff s (t, a) = 1)

variable {s s' : State ι} {t : ι} {a : Act}

/-- The inversion of a step as far as progress goes. -/
theorem turn_of_moves (h : Moves s t a s') : Turn s t a s' := by
  cases h with
  | callPush _ hpc | malloc _ _ hpc _ | storePayload hpc _ | loadPush hpc | storePrev hpc _
  | callPop hpc | loadNull hpc _ | readPrev hpc _ | drop hpc | print hpc _ | free hpc _
  | doubleFree hpc _ =>
    exact .forward _ rfl rfl (by simp [hpc, Pc.weight, Pc.stale]) (by simp [hpc, Pc.stale])
      (by simp [State.finds, hpc]) (by simp [fallsOff, hpc])
  | loadPop hpc htop =>
    exact .forward _ rfl rfl (by simp [hpc, htop, Pc.weight, Pc.stale]) (by simp [htop, Pc.stale])
      (by simp [State.finds, hpc]) (by simp [fallsOff, hpc])
  | casPush hpc htop | casPop hpc htop =>
    exact .win _ rfl (by simp [hpc, htop, Pc.weight, Pc.stale]) (by simp [Pc.stale])
      (by simp [State.finds, hpc, htop]) rfl (by simp [fallsOff, hpc])
  | @casPushFail node value top spurious hpc hfail =>
    by_cases htop : s.top = top
    · obtain rfl : spurious = true := by simpa [htop] using hfail
      exact .weak _ rfl rfl (by simp [hpc, htop, Pc.weight, Pc.stale]) (by simp [Pc.stale])
        (by simp [State.finds, hpc, htop]) rfl (by simp [fallsOff, hpc])
    · have hold : (s.pc t).stale s.top = true := by simp [hpc, Pc.stale, Ne.symm htop]
      exact .again _ rfl rfl (by simp [hpc, Ne.symm htop, Pc.weight, Pc.stale])
        (by simp [Pc.stale]) hold (by simp [State.finds, hpc, htop]) (by simp [fallsOff, hpc])
  | @casPopFail top prev spurious hpc hfail =>
    by_cases htop : s.top = some top
    · obtain rfl : spurious = true := by simpa [htop] using hfail
      exact .weak _ rfl rfl (by simp [hpc, htop, Pc.weight, Pc.stale]) (by simp [Pc.stale])
        (by simp [State.finds, hpc, htop]) rfl (by simp [fallsOff, hpc])
    · have hold : (s.pc t).stale s.top = true := by simp [hpc, Pc.stale, Ne.symm htop]
      exact .again _ rfl rfl (by simp [hpc, Ne.symm htop, Pc.weight, Pc.stale])
        (by simp [Pc.stale]) hold (by simp [State.finds, hpc, htop]) (by simp [fallsOff, hpc])
  | fallOff ret hpc =>
    exact .off _ rfl rfl (by simp [hpc, Pc.weight, Pc.stale]) (by simp [Pc.stale])
      (by simp [State.finds, hpc]) (by simp [fallsOff, hpc])
  | writeFreed hpc hn =>
    rcases hpc with hpc | ⟨top, hpc⟩ <;>
      exact .forward .crashed rfl rfl (by simp [hpc, Pc.weight, Pc.stale]) (by simp [Pc.stale])
        (by simp [State.finds, hpc]) (by simp [fallsOff, hpc])
  | readFreed hpc hn =>
    rcases hpc with ⟨-, hpc⟩ | ⟨-, hpc⟩ <;>
      exact .forward .crashed rfl rfl (by simp [hpc, Pc.weight, Pc.stale]) (by simp [Pc.stale])
        (by simp [State.finds, hpc]) (by simp [fallsOff, hpc])

/-! ## The bounds -/

variable [Fintype ι]

/-- The steps there can be before the end of the next operation. -/
def State.weight (s : State ι) : ℕ := ∑ t, (s.pc t).weight s.top

/-- The number of threads that go by an old `stack->top`. -/
def State.stale (s : State ι) : ℕ := ∑ t, ((s.pc t).stale s.top).toNat

/-- **One step.**  Whoever moves, the weight goes down, unless an operation ends or a weak
compare-exchange fails for no reason. -/
theorem weight_step (h : step s (t, a) = some s') :
    s'.weight + 1 ≤
      s.weight + ((3 * Fintype.card ι + 5) * completes s (t, a) + 3 * weakFailures s (t, a)) := by
  have hcard : 0 < Fintype.card ι := Fintype.card_pos_iff.mpr ⟨t⟩
  have hsame : ∀ pc', s'.pc = Function.update s.pc t pc' → s'.top = s.top →
      s'.weight + (s.pc t).weight s.top = s.weight + pc'.weight s.top := by
    intro pc' hpc htop
    rw [State.weight, hpc, htop]
    exact sum_moved (Pc.weight s.top) s.pc t pc'
  cases turn_of_moves (moves_of_step h) with
  | forward pc' hpc htop hw | again pc' hpc htop hw =>
    have := hsame pc' hpc htop
    omega
  | weak pc' hpc htop hw hnew hfinds hcas hoff =>
    subst hcas
    have := hsame pc' hpc htop
    have hweak : weakFailures s (t, .cas true) = 1 := by simp [weakFailures, hfinds]
    omega
  | off pc' hpc htop hw hnew hfinds hoff =>
    have := hsame pc' hpc htop
    have hdone : completes s (t, a) = 1 := by simp [completes, wins, hfinds, hoff]
    rw [hdone]
    omega
  | win pc' hpc hw hnew hfinds hcas hoff =>
    subst hcas
    have hsum := sum_moved_le (Pc.weight s.top) (Pc.weight s'.top) 3
      (Pc.weight_le s.top s'.top) s.pc t pc'
    have hdone : completes s (t, .cas false) = 1 := by simp [completes, wins, hfinds, hoff]
    have hlt := hw s'.top
    rw [← hpc] at hsum
    rw [hdone]
    unfold State.weight
    omega

/-- **One step.**  A thread that fails was stale and is stale no more; a success makes the others
stale. -/
theorem stale_step (h : step s (t, a) = some s') :
    s'.stale + misses s (t, a) ≤ s.stale + (Fintype.card ι - 1) * wins s (t, a) := by
  have hsame : ∀ pc', s'.pc = Function.update s.pc t pc' → s'.top = s.top →
      s'.stale + ((s.pc t).stale s.top).toNat = s.stale + (pc'.stale s.top).toNat := by
    intro pc' hpc htop
    rw [State.stale, hpc, htop]
    exact sum_moved (fun pc => (pc.stale s.top).toNat) s.pc t pc'
  cases turn_of_moves (moves_of_step h) with
  | forward pc' hpc htop hw hstale hfinds =>
    have := hsame pc' hpc htop
    have hmiss : misses s (t, a) = 0 := by simp [misses, hfinds]
    have hle : (pc'.stale s.top).toNat ≤ ((s.pc t).stale s.top).toNat :=
      Bool.toNat_le_toNat hstale
    omega
  | again pc' hpc htop hw hnew hold hfinds =>
    have := hsame pc' hpc htop
    have hmiss : misses s (t, a) = 1 := by simp [misses, hfinds]
    rw [hnew, hold, Bool.toNat_false, Bool.toNat_true] at this
    omega
  | weak pc' hpc htop hw hnew hfinds =>
    have := hsame pc' hpc htop
    have hmiss : misses s (t, a) = 0 := by simp [misses, hfinds]
    rw [hnew, Bool.toNat_false] at this
    omega
  | off pc' hpc htop hw hnew hfinds =>
    have := hsame pc' hpc htop
    have hmiss : misses s (t, a) = 0 := by simp [misses, hfinds]
    rw [hnew, Bool.toNat_false] at this
    omega
  | win pc' hpc hw hnew hfinds hcas =>
    subst hcas
    have hone : ∀ pc : Pc, (pc.stale s'.top).toNat ≤ (pc.stale s.top).toNat + 1 := fun pc =>
      Nat.le_add_left_of_le (Bool.toNat_le _)
    have hsum := sum_moved_le (fun pc => (pc.stale s.top).toNat)
      (fun pc => (pc.stale s'.top).toNat) 1 hone s.pc t pc'
    have hmiss : misses s (t, .cas false) = 0 := by simp [misses, hfinds]
    have hwin : wins s (t, .cas false) = 1 := by simp [wins, hfinds]
    rw [← hpc] at hsum
    simp only [hnew, Bool.toNat_false] at hsum
    rw [hmiss, hwin]
    unfold State.stale
    omega

/-- **Lock-freedom.**  Between any two moments of a run of `n` threads, `steps` steps apart, at
least `(steps - 8n) / (3n + 5)` operations end, up to the steps that weak failures cost. -/
theorem lock_freedom {s s' : State ι} {as : List (ι × Act)} (h : Trace step anyOrder s as s') :
    as.length ≤ 8 * Fintype.card ι +
      (3 * Fintype.card ι + 5) * tally step completes s as +
      3 * tally step weakFailures s as := by
  have hstep : ∀ (s : State ι) (x : ι × Act) (s' : State ι), anyOrder s x → step s x = some s' →
      s'.weight + 1 ≤ s.weight +
        ((3 * Fintype.card ι + 5) * completes s x + 3 * weakFailures s x) :=
    fun _ _ _ _ => weight_step
  have hrun := h.amortise hstep
  rw [h.tally_one, h.tally_add, h.tally_mul, h.tally_mul] at hrun
  have hstart : s.weight ≤ 8 * Fintype.card ι :=
    sum_le_card_mul fun t => Pc.weight_le_eight s.top (s.pc t)
  omega

/-- One thread pushes while the other one is about to, and has to try again. -/
def overtaken : List (Bool × Act) :=
  [(true, .callPush 1), (true, .malloc 1 ⟨0, none⟩), (true, .storePayload), (true, .load),
    (true, .storePrev), (false, .callPush 2), (false, .malloc 2 ⟨0, none⟩), (false, .storePayload),
    (false, .load), (false, .storePrev), (false, .cas false), (true, .cas false), (true, .load),
    (true, .storePrev), (true, .cas true), (true, .load), (true, .storePrev), (true, .cas false)]

theorem overtaken_runs : ∃ s, Trace step anyOrder (init : State Bool) overtaken s := by
  obtain ⟨s, h, -⟩ := Trace.exists_of_eval step anyOrder (fun _ => true) (init : State Bool)
    overtaken (by decide)
  exact ⟨s, h⟩

theorem lock_freedom_overtaken :
    ∃ s, Trace step anyOrder (init : State Bool) overtaken s ∧
      tally step completes init overtaken = 2 ∧ tally step weakFailures init overtaken = 1 ∧
      overtaken.length ≤ 8 * Fintype.card Bool + (3 * Fintype.card Bool + 5) *
        tally step completes init overtaken + 3 * tally step weakFailures init overtaken := by
  obtain ⟨s, h⟩ := overtaken_runs
  exact ⟨s, h, by decide, by decide, lock_freedom h⟩

/-- **Who fails has been overtaken.**  In a run of `n` threads there are at most `n - 1` failures
of a compare-exchange on a changed `stack->top` for each success. -/
theorem misses_le {s : State ι} {as : List (ι × Act)} (h : Trace step anyOrder init as s) :
    tally step misses init as ≤ (Fintype.card ι - 1) * tally step wins init as := by
  have hstep : ∀ (s : State ι) (x : ι × Act) (s' : State ι), anyOrder s x → step s x = some s' →
      s'.stale + misses s x ≤ s.stale + (Fintype.card ι - 1) * wins s x :=
    fun _ _ _ _ => stale_step
  have hrun := h.amortise hstep
  rw [h.tally_mul] at hrun
  have hstart : (init : State ι).stale = 0 := by simp [State.stale, init, Pc.stale]
  omega

theorem misses_le_overtaken :
    ∃ s, Trace step anyOrder (init : State Bool) overtaken s ∧
      tally step misses init overtaken = 1 ∧ tally step wins init overtaken = 2 ∧
      tally step misses init overtaken ≤
        (Fintype.card Bool - 1) * tally step wins init overtaken := by
  obtain ⟨s, h⟩ := overtaken_runs
  exact ⟨s, h, by decide, by decide, misses_le h⟩

/-! ## Starvation -/

/-- What the steps of one thread are worth. -/
def ofThread (u : ι) (f : State ι → ι × Act → ℕ) (s : State ι) (x : ι × Act) : ℕ :=
  if x.1 = u then f s x else 0

/-- A run of calls of `stack_push` without weak failures, in which the thread `u` has ended
`won u` of them and failed `missed u` times. -/
structure Scored (s : State ι) (as : List (ι × Act)) (s' : State ι) (won missed : ι → ℕ) :
    Prop where
  run : Trace step anyOrder s as s'
  noPop : ∀ x ∈ as, x.2 ≠ .callPop
  weak : tally step weakFailures s as = 0
  won : ∀ u, tally step (ofThread u completes) s as = won u
  missed : ∀ u, tally step (ofThread u misses) s as = missed u

namespace Scored

variable {s s' s'' : State ι} {as bs : List (ι × Act)} {won missed won' missed' : ι → ℕ}

omit [Fintype ι]

theorem nil (s : State ι) : Scored s [] s (fun _ => 0) (fun _ => 0) where
  run := Trace.nil s
  noPop := List.forall_mem_nil _
  weak := rfl
  won _ := rfl
  missed _ := rfl

theorem append (h : Scored s as s' won missed) (h' : Scored s' bs s'' won' missed') :
    Scored s (as ++ bs) s'' (fun u => won u + won' u) (fun u => missed u + missed' u) where
  run := h.run.append h'.run
  noPop := List.forall_mem_append.mpr ⟨h.noPop, h'.noPop⟩
  weak := by rw [h.run.tally_append, h.weak, h'.weak]
  won u := by rw [h.run.tally_append, h.won, h'.won]
  missed u := by rw [h.run.tally_append, h.missed, h'.missed]

theorem single {t : ι} {a : Act} (h : step s (t, a) = some s') (hpop : a ≠ .callPop)
    (hweak : weakFailures s (t, a) = 0) :
    Scored s [(t, a)] s' (fun u => if t = u then completes s (t, a) else 0)
      (fun u => if t = u then misses s (t, a) else 0) where
  run := Trace.cons trivial h (Trace.nil s')
  noPop := List.forall_mem_singleton.mpr hpop
  weak := by rw [tally_cons h, hweak, tally_nil]
  won u := by rw [tally_cons h, tally_nil, ofThread, Nat.add_zero]
  missed u := by rw [tally_cons h, tally_nil, ofThread, Nat.add_zero]

theorem cons_quiet {t : ι} {a : Act} (h' : Scored s' as s'' won missed)
    (h : step s (t, a) = some s') (hpop : a ≠ .callPop) (hfinds : s.finds (t, a) = none)
    (hoff : fallsOff s (t, a) = 0) : Scored s ((t, a) :: as) s'' won missed := by
  have hone := (single h hpop (by simp [weakFailures, hfinds])).append h'
  simpa [completes, wins, misses, hfinds, hoff] using hone

end Scored

omit [Fintype ι]

/-- A call of `stack_push` up to the top of its loop. -/
theorem exists_enter {u : ι} (hidle : s.pc u = .idle) {node : Addr} (hfree : s.heap node = none) :
    ∃ as s', Scored s as s' (fun _ => 0) (fun _ => 0) ∧ s'.top = s.top ∧
      s'.pc = Function.update s.pc u (.pushLoad node 0) ∧
      s'.heap = Function.update s.heap node (some ⟨0, none⟩) := by
  obtain ⟨s₁, h₁, htop₁, hpc₁, hheap₁⟩ : ∃ s₁, step s (u, .callPush 0) = some s₁ ∧
      s₁.top = s.top ∧ s₁.pc = Function.update s.pc u (.pushMalloc 0) ∧ s₁.heap = s.heap :=
    ⟨s.goto u (.pushMalloc 0), by simp [step, hidle], rfl, rfl, rfl⟩
  have hu₁ : s₁.pc u = .pushMalloc 0 := by rw [hpc₁, Function.update_self]
  obtain ⟨s₂, h₂, htop₂, hpc₂, hheap₂⟩ : ∃ s₂, step s₁ (u, .malloc node ⟨0, none⟩) = some s₂ ∧
      s₂.top = s₁.top ∧ s₂.pc = Function.update s₁.pc u (.pushPayload node 0) ∧
      s₂.heap = Function.update s₁.heap node (some ⟨0, none⟩) :=
    ⟨(s₁.setNode node ⟨0, none⟩).goto u (.pushPayload node 0),
      by simp [step, hu₁, hheap₁, hfree], rfl, rfl, rfl⟩
  have hu₂ : s₂.pc u = .pushPayload node 0 := by rw [hpc₂, Function.update_self]
  have hn₂ : s₂.heap node = some ⟨0, none⟩ := by rw [hheap₂, Function.update_self]
  obtain ⟨s₃, h₃, htop₃, hpc₃, hheap₃⟩ : ∃ s₃, step s₂ (u, .storePayload) = some s₃ ∧
      s₃.top = s₂.top ∧ s₃.pc = Function.update s₂.pc u (.pushLoad node 0) ∧
      s₃.heap = Function.update s₂.heap node (some ⟨0, none⟩) :=
    ⟨(s₂.setNode node ⟨0, none⟩).goto u (.pushLoad node 0), by simp [step, hu₂, hn₂], rfl, rfl, rfl⟩
  have hlast := (Scored.nil s₃).cons_quiet h₃ (by simp) (by simp [State.finds, hu₂])
    (by simp [fallsOff, hu₂])
  refine ⟨_, s₃, (hlast.cons_quiet h₂ (by simp) ?_ ?_).cons_quiet h₁ (by simp) ?_ ?_, ?_, ?_, ?_⟩
  · simp [State.finds, hu₁]
  · simp [fallsOff, hu₁]
  · simp [State.finds, hidle]
  · simp [fallsOff, hidle]
  · rw [htop₃, htop₂, htop₁]
  · rw [hpc₃, hpc₂, hpc₁, Function.update_idem, Function.update_idem]
  · rw [hheap₃, hheap₂, hheap₁, Function.update_idem]

/-- One turn of the loop of `stack_push` up to its compare-exchange. -/
theorem exists_aim {u : ι} {node : Addr} {value : ℤ} {n : StackNode}
    (hload : s.pc u = .pushLoad node value) (hn : s.heap node = some n) :
    ∃ as s', Scored s as s' (fun _ => 0) (fun _ => 0) ∧ s'.top = s.top ∧
      s'.pc = Function.update s.pc u (.pushCas node value s.top) ∧
      s'.heap = Function.update s.heap node (some { n with prev := s.top }) := by
  obtain ⟨s₁, h₁, htop₁, hpc₁, hheap₁⟩ : ∃ s₁, step s (u, .load) = some s₁ ∧
      s₁.top = s.top ∧ s₁.pc = Function.update s.pc u (.pushPrev node value s.top) ∧
      s₁.heap = s.heap :=
    ⟨s.goto u (.pushPrev node value s.top), by simp [step, hload], rfl, rfl, rfl⟩
  have hu₁ : s₁.pc u = .pushPrev node value s.top := by rw [hpc₁, Function.update_self]
  obtain ⟨s₂, h₂, htop₂, hpc₂, hheap₂⟩ : ∃ s₂, step s₁ (u, .storePrev) = some s₂ ∧
      s₂.top = s₁.top ∧ s₂.pc = Function.update s₁.pc u (.pushCas node value s.top) ∧
      s₂.heap = Function.update s₁.heap node (some { n with prev := s.top }) :=
    ⟨(s₁.setNode node { n with prev := s.top }).goto u (.pushCas node value s.top),
      by simp [step, hu₁, hheap₁, hn], rfl, rfl, rfl⟩
  refine ⟨_, s₂, ((Scored.nil s₂).cons_quiet h₂ (by simp) ?_ ?_).cons_quiet h₁ (by simp) ?_ ?_,
    ?_, ?_, ?_⟩
  · simp [State.finds, hu₁]
  · simp [fallsOff, hu₁]
  · simp [State.finds, hload]
  · simp [fallsOff, hload]
  · rw [htop₂, htop₁]
  · rw [hpc₂, hpc₁, Function.update_idem]
  · rw [hheap₂, hheap₁]

/-- The compare-exchange of `stack_push`, against a `stack->top` that has changed or not. -/
theorem exists_cas {u : ι} {node : Addr} {value : ℤ} {top : Option Addr}
    (hcas : s.pc u = .pushCas node value top) :
    (s.top = top → ∃ as s', Scored s as s' (fun v => if u = v then 1 else 0) (fun _ => 0) ∧
      s'.top = some node ∧ s'.pc = Function.update s.pc u .idle ∧ s'.heap = s.heap) ∧
    (s.top ≠ top → ∃ as s', Scored s as s' (fun _ => 0) (fun v => if u = v then 1 else 0) ∧
      s'.top = s.top ∧ s'.pc = Function.update s.pc u (.pushLoad node value) ∧
      s'.heap = s.heap) := by
  constructor
  · intro htop
    have hstep : step s (u, .cas false) = some ((s.publish node).goto u .idle) := by
      simp [step, hcas, htop]
    have hone := Scored.single hstep (by simp) (by simp [weakFailures])
    refine ⟨[(u, .cas false)], (s.publish node).goto u .idle, ?_, rfl, rfl, rfl⟩
    simpa [completes, wins, misses, fallsOff, State.finds, hcas, htop] using hone
  · intro htop
    have hstep : step s (u, .cas false) = some (s.goto u (.pushLoad node value)) := by
      simp [step, hcas, htop]
    have hone := Scored.single hstep (by simp) (by simp [weakFailures])
    refine ⟨[(u, .cas false)], s.goto u (.pushLoad node value), ?_, rfl, rfl, rfl⟩
    simpa [completes, wins, misses, fallsOff, State.finds, hcas, htop] using hone

/-- Between the rounds of the race that `w` always wins. -/
structure Arena (w : ι) (top : Option Addr) (s : State ι) : Prop where
  idle : s.pc w = .idle
  top_eq : s.top = top
  room : ∃ b, (∀ a, b ≤ a → s.heap a = none) ∧ ∀ a, top = some a → a < b

/-- The thread `u` is at the place of its call that `place` says, with a node of its own. -/
def Waits (place : Addr → ℤ → Pc) (s : State ι) (u : ι) : Prop :=
  ∃ node value, s.pc u = place node value ∧ (s.heap node).isSome = true

/-- A thread does not notice what another one does to itself. -/
theorem Waits.frame {place : Addr → ℤ → Pc} {u v : ι} {pc' : Pc} (h : Waits place s v) (hv : v ≠ u)
    (hpc : s'.pc = Function.update s.pc u pc')
    (hheap : ∀ a, (s.heap a).isSome = true → (s'.heap a).isSome = true) : Waits place s' v := by
  obtain ⟨node, value, hplace, hn⟩ := h
  exact ⟨node, value, by rw [hpc, Function.update_of_ne hv, hplace], hheap node hn⟩

theorem isSome_update {heap : Addr → Option StackNode} {node a : Addr} {n : StackNode}
    (h : (heap a).isSome = true) : (Function.update heap node (some n) a).isSome = true := by
  by_cases ha : a = node
  · rw [ha, Function.update_self, Option.isSome_some]
  · rwa [Function.update_of_ne ha]

/-- **A round of visits.**  What every thread of a list can do on its own, they can do one after
the other. -/
theorem exists_sweep {J : State ι → Prop} {A B : State ι → ι → Prop} {m : ℕ}
    (hone : ∀ s u, J s → A s u → ∃ as s',
      Scored s as s' (fun _ => 0) (fun v => if u = v then m else 0) ∧ J s' ∧ B s' u ∧
        ∀ v, v ≠ u → (A s v → A s' v) ∧ (B s v → B s' v))
    {us : List ι} (hnodup : us.Nodup) {s : State ι} (hJ : J s) (hA : ∀ u ∈ us, A s u) :
    ∃ as s', Scored s as s' (fun _ => 0) (fun v => if v ∈ us then m else 0) ∧ J s' ∧
      (∀ u ∈ us, B s' u) ∧ ∀ v, v ∉ us → B s v → B s' v := by
  induction us generalizing s with
  | nil =>
    exact ⟨[], s, by simpa using Scored.nil s, hJ, fun u hu => absurd hu (List.not_mem_nil),
      fun v _ hv => hv⟩
  | cons u us ih =>
    obtain ⟨hu, hnodup⟩ := List.nodup_cons.mp hnodup
    obtain ⟨as, s₁, hfirst, hJ₁, hB₁, hframe⟩ := hone s u hJ (hA u List.mem_cons_self)
    obtain ⟨bs, s₂, hrest, hJ₂, hB₂, hkeep⟩ := ih hnodup hJ₁ fun v hv =>
      (hframe v (ne_of_mem_of_not_mem hv hu)).1 (hA v (List.mem_cons_of_mem u hv))
    refine ⟨as ++ bs, s₂, ?_, hJ₂, ?_, ?_⟩
    · have hmissed : (fun v => (if u = v then m else 0) + if v ∈ us then m else 0) =
          fun v => if v ∈ u :: us then m else 0 := by
        funext v
        by_cases hv : u = v
        · subst hv
          simp [hu]
        · simp [hv, Ne.symm hv]
      simpa only [hmissed] using hfirst.append hrest
    · intro v hv
      rcases List.mem_cons.mp hv with rfl | hv
      · exact hkeep v hu hB₁
      · exact hB₂ v hv
    · intro v hv hB
      obtain ⟨hvu, hvs⟩ := not_or.mp (mt List.mem_cons.mpr hv)
      exact hkeep v hvs ((hframe v hvu).2 hB)

variable {w : ι} {top : Option Addr} {u : ι}

theorem Arena.frame (h : Arena w top s) (hu : u ≠ w) {pc' : Pc} (htop : s'.top = s.top)
    (hpc : s'.pc = Function.update s.pc u pc') {b : Addr}
    (hroom : (∀ a, b ≤ a → s'.heap a = none) ∧ ∀ a, top = some a → a < b) : Arena w top s' where
  idle := by rw [hpc, Function.update_of_ne (Ne.symm hu), h.idle]
  top_eq := by rw [htop, h.top_eq]
  room := ⟨b, hroom⟩

theorem exists_enter_one (hu : u ≠ w) (h : Arena w top s) (hidle : s.pc u = .idle) :
    ∃ as s', Scored s as s' (fun _ => 0) (fun v => if u = v then 0 else 0) ∧ Arena w top s' ∧
      Waits .pushLoad s' u ∧ ∀ v, v ≠ u → (s.pc v = .idle → s'.pc v = .idle) ∧
        (Waits .pushLoad s v → Waits .pushLoad s' v) := by
  obtain ⟨b, hfree, hlt⟩ := h.room
  obtain ⟨as, s', hrun, htop, hpc, hheap⟩ := exists_enter hidle (hfree b le_rfl)
  refine ⟨as, s', by simpa using hrun, h.frame (b := b + 1) hu htop hpc ⟨?_, ?_⟩, ?_, ?_⟩
  · intro a ha
    rw [hheap, Function.update_of_ne (Nat.lt_of_succ_le ha).ne', hfree a (Nat.le_of_succ_le ha)]
  · intro a ha
    exact Nat.lt_succ_of_lt (hlt a ha)
  · exact ⟨b, 0, by rw [hpc, Function.update_self], by rw [hheap, Function.update_self]; rfl⟩
  · refine fun v hv => ⟨fun hi => by rw [hpc, Function.update_of_ne hv, hi], fun hw => ?_⟩
    exact hw.frame hv hpc fun a ha => by rw [hheap]; exact isSome_update ha

theorem exists_aim_one (hu : u ≠ w) (h : Arena w top s) (hload : Waits .pushLoad s u) :
    ∃ as s', Scored s as s' (fun _ => 0) (fun v => if u = v then 0 else 0) ∧ Arena w top s' ∧
      Waits (.pushCas · · top) s' u ∧
      ∀ v, v ≠ u → (Waits .pushLoad s v → Waits .pushLoad s' v) ∧
        (Waits (.pushCas · · top) s v → Waits (.pushCas · · top) s' v) := by
  obtain ⟨node, value, hplace, hn⟩ := hload
  obtain ⟨n, hn⟩ := Option.isSome_iff_exists.mp hn
  obtain ⟨b, hfree, hlt⟩ := h.room
  obtain ⟨as, s', hrun, htop, hpc, hheap⟩ := exists_aim hplace hn
  have hkeep : ∀ a, (s.heap a).isSome = true → (s'.heap a).isSome = true := by
    intro a ha
    rw [hheap]
    exact isSome_update ha
  rw [h.top_eq] at hpc
  refine ⟨as, s', by simpa using hrun, h.frame (b := b) hu htop hpc ⟨?_, hlt⟩, ?_, ?_⟩
  · intro a ha
    have hne : a ≠ node := by
      rintro rfl
      rw [hfree a ha] at hn
      cases hn
    rw [hheap, Function.update_of_ne hne, hfree a ha]
  · exact ⟨node, value, by rw [hpc, Function.update_self], hkeep node (by rw [hn]; rfl)⟩
  · exact fun v hv => ⟨fun hw => hw.frame hv hpc hkeep, fun hw => hw.frame hv hpc hkeep⟩

theorem exists_lose_one {old : Option Addr} (hne : top ≠ old) (hu : u ≠ w) (h : Arena w top s)
    (hcas : Waits (.pushCas · · old) s u) :
    ∃ as s', Scored s as s' (fun _ => 0) (fun v => if u = v then 1 else 0) ∧ Arena w top s' ∧
      Waits .pushLoad s' u ∧
      ∀ v, v ≠ u → (Waits (.pushCas · · old) s v → Waits (.pushCas · · old) s' v) ∧
        (Waits .pushLoad s v → Waits .pushLoad s' v) := by
  obtain ⟨node, value, hplace, hn⟩ := hcas
  obtain ⟨b, hroom⟩ := h.room
  obtain ⟨as, s', hrun, htop, hpc, hheap⟩ := (exists_cas hplace).2 (by rwa [h.top_eq])
  have hkeep : ∀ a, (s.heap a).isSome = true → (s'.heap a).isSome = true := by
    intro a ha
    rwa [hheap]
  refine ⟨as, s', hrun, h.frame (b := b) hu htop hpc (by rwa [hheap]), ?_, ?_⟩
  · exact ⟨node, value, by rw [hpc, Function.update_self], hkeep node hn⟩
  · exact fun v hv => ⟨fun hw => hw.frame hv hpc hkeep, fun hw => hw.frame hv hpc hkeep⟩

theorem exists_win (h : Arena w top s) :
    ∃ as s' node, Scored s as s' (fun v => if w = v then 1 else 0) (fun _ => 0) ∧
      Arena w (some node) s' ∧ some node ≠ top ∧
      ∀ v, v ≠ w → Waits (.pushCas · · top) s v → Waits (.pushCas · · top) s' v := by
  obtain ⟨b, hfree, hlt⟩ := h.room
  obtain ⟨as₁, s₁, hrun₁, htop₁, hpc₁, hheap₁⟩ := exists_enter h.idle (hfree b le_rfl)
  have hn₁ : s₁.heap b = some ⟨0, none⟩ := by rw [hheap₁, Function.update_self]
  obtain ⟨as₂, s₂, hrun₂, htop₂, hpc₂, hheap₂⟩ :=
    exists_aim (u := w) (by rw [hpc₁, Function.update_self]) hn₁
  obtain ⟨as₃, s₃, hrun₃, htop₃, hpc₃, hheap₃⟩ :=
    (exists_cas (s := s₂) (u := w) (by rw [hpc₂, Function.update_self])).1 htop₂
  have hpc : s₃.pc = Function.update s.pc w .idle := by
    rw [hpc₃, hpc₂, hpc₁, Function.update_idem, Function.update_idem]
  have hheap : s₃.heap = Function.update s.heap b (some ⟨0, s₁.top⟩) := by
    rw [hheap₃, hheap₂, hheap₁, Function.update_idem]
  refine ⟨_, s₃, b, by simpa using (hrun₁.append hrun₂).append hrun₃, ⟨?_, htop₃, b + 1, ?_, ?_⟩,
    ?_, ?_⟩
  · rw [hpc, Function.update_self]
  · intro a ha
    rw [hheap, Function.update_of_ne (Nat.lt_of_succ_le ha).ne', hfree a (Nat.le_of_succ_le ha)]
  · rintro a ha
    exact Nat.lt_succ_of_le (Option.some.inj ha).ge
  · intro hb
    exact lt_irrefl b (hlt b hb.symm)
  · exact fun v hv hw => hw.frame hv hpc fun a ha => by rw [hheap]; exact isSome_update ha

theorem exists_visit [Fintype ι] {J : State ι → Prop} {A B : State ι → ι → Prop} {m : ℕ}
    (hone : ∀ s u, u ≠ w → J s → A s u → ∃ as s',
      Scored s as s' (fun _ => 0) (fun v => if u = v then m else 0) ∧ J s' ∧ B s' u ∧
        ∀ v, v ≠ u → (A s v → A s' v) ∧ (B s v → B s' v))
    {s : State ι} (hJ : J s) (hA : ∀ u, u ≠ w → A s u) :
    ∃ as s', Scored s as s' (fun _ => 0) (fun v => if v ≠ w then m else 0) ∧ J s' ∧
      ∀ u, u ≠ w → B s' u := by
  have hmem : ∀ u, u ∈ (Finset.univ.erase w).toList ↔ u ≠ w := fun u => by simp
  obtain ⟨as, s', hrun, hJ', hB, -⟩ :=
    exists_sweep (A := fun s u => u ≠ w ∧ A s u) (B := B) (m := m)
      (fun s u hJ hA => by
        obtain ⟨as, s', hrun, hJ', hB, hkeep⟩ := hone s u hA.1 hJ hA.2
        exact ⟨as, s', hrun, hJ', hB, fun v hv =>
          ⟨fun hAv => ⟨hAv.1, (hkeep v hv).1 hAv.2⟩, (hkeep v hv).2⟩⟩)
      (Finset.nodup_toList (Finset.univ.erase w)) hJ
      (fun u hu => ⟨(hmem u).mp hu, hA u ((hmem u).mp hu)⟩)
  exact ⟨as, s', by simpa only [hmem] using hrun, hJ', fun u hu => hB u ((hmem u).mpr hu)⟩

variable [Fintype ι]

/-- One round: everybody aims, `w` pushes, and everybody else loses. -/
theorem exists_round (h : Arena w top s) (hload : ∀ u, u ≠ w → Waits .pushLoad s u) :
    ∃ as s' top',
      Scored s as s' (fun v => if v ≠ w then 0 else 1) (fun v => if v ≠ w then 1 else 0) ∧
      Arena w top' s' ∧ ∀ u, u ≠ w → Waits .pushLoad s' u := by
  obtain ⟨as₁, s₁, hrun₁, h₁, haim⟩ :=
    exists_visit (fun _ _ hu h hload => exists_aim_one hu h hload) h hload
  obtain ⟨as₂, s₂, node, hrun₂, h₂, hne, hkeep⟩ := exists_win h₁
  obtain ⟨as₃, s₃, hrun₃, h₃, hload₃⟩ :=
    exists_visit (fun _ _ hu h hcas => exists_lose_one hne hu h hcas) h₂
      (fun u hu => hkeep u hu (haim u hu))
  refine ⟨as₁ ++ as₂ ++ as₃, s₃, some node, ?_, h₃, hload₃⟩
  have hwon : (fun v => 0 + (if w = v then 1 else 0) + 0) = fun v => if v ≠ w then 0 else 1 := by
    funext v
    by_cases hv : v = w
    · simp [hv]
    · simp [hv, Ne.symm hv]
  have hmissed : (fun v => (if v ≠ w then 0 else 0) + 0 + if v ≠ w then 1 else 0) =
      fun v => if v ≠ w then 1 else 0 := by
    funext v
    simp
  simpa only [hwon, hmissed] using (hrun₁.append hrun₂).append hrun₃

/-- **Starvation.**  For every thread `w` and every number `k` there is a run without weak failures
in which nobody calls anything but `stack_push`, `w` ends `k` calls, and the first call of every
other thread fails `k` times and does not return. -/
theorem starved (w : ι) (k : ℕ) :
    ∃ as s, Trace step anyOrder init as s ∧ (∀ x ∈ as, x.2 ≠ .callPop) ∧
      tally step weakFailures init as = 0 ∧
      ∀ u : ι, tally step (ofThread u completes) init as = (if u ≠ w then 0 else k) ∧
        tally step (ofThread u misses) init as = (if u ≠ w then k else 0) := by
  have hstart : Arena w none (init : State ι) := ⟨rfl, rfl, 0, fun _ _ => rfl, by simp⟩
  obtain ⟨as₀, s₀, hrun₀, h₀, hload₀⟩ :=
    exists_visit (fun _ _ hu h hidle => exists_enter_one hu h hidle) hstart (fun _ _ => rfl)
  have hrounds : ∃ as s top, Scored init as s (fun v => if v ≠ w then 0 else k)
      (fun v => if v ≠ w then k else 0) ∧ Arena w top s ∧ ∀ u, u ≠ w → Waits .pushLoad s u := by
    induction k with
    | zero => exact ⟨as₀, s₀, none, by simpa using hrun₀, h₀, hload₀⟩
    | succ k ih =>
      obtain ⟨as, s, top, hrun, h, hload⟩ := ih
      obtain ⟨bs, s', top', hround, h', hload'⟩ := exists_round h hload
      have hwon : (fun v => (if v ≠ w then 0 else k) + if v ≠ w then 0 else 1) =
          fun v => if v ≠ w then 0 else k + 1 := by
        funext v
        split <;> rfl
      have hmissed : (fun v => (if v ≠ w then k else 0) + if v ≠ w then 1 else 0) =
          fun v => if v ≠ w then k + 1 else 0 := by
        funext v
        split <;> rfl
      exact ⟨as ++ bs, s', top', by simpa only [hwon, hmissed] using hrun.append hround, h', hload'⟩
  obtain ⟨as, s, -, hrun, -, -⟩ := hrounds
  exact ⟨as, s, hrun.run, hrun.noPop, hrun.weak, fun u => ⟨hrun.won u, hrun.missed u⟩⟩

end LockFree
end CaosSeminars
