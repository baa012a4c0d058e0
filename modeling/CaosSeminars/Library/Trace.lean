import Mathlib.Logic.Function.Basic
import Mathlib.Tactic.Common

/-!
# Runs of a partial step function

A program that shares its state with an environment is modelled, throughout this
development, by a partial step function `step : S → A → Option S`: an action
names who moves and what the outside world answers, and `none` says that the
action is not possible there.  What the surroundings promise --- which thread may
make which call, what a kernel may answer --- is a predicate `ok` on the state
before the step and the action.

`Trace step ok s as t` is a run: from `s`, the actions `as`, every one of them
promised by `ok`, lead to `t`.  Every safety theorem about such a program is then
two small goals, and the induction is done here once (`Trace.invariant`).

## Refinement

`Path R σ es σ'` is a run of an abstract relation whose steps are labelled by
events.  `observe` reads a run of the concrete program as the list of events it
shows, a silent step showing none, and `Trace.simulate` is the forward
simulation: if every concrete step is matched by the abstract step of the event
it shows (by no step when it is silent), then every run is matched by a path
carrying exactly the events the run shows.

## The other rules

* `Trace.history` --- an invariant that speaks of the actions so far.
* `Trace.met_or_doomed` --- a condition that is met at every step, or missed once and for good.
* `Trace.iff_of_invariant` --- two conditions on the steps that agree along a run.
* `Trace.met_iff_observe` --- a condition on the steps that can be told from the events.
* `Trace.lockstep` --- two programs that take the same actions and show the same.
* `evalTrace` --- a run by evaluation, for a list of actions that is given.
-/

namespace CaosSeminars

variable {S A E Q : Type*}

/-! ## Runs -/

/-- A run of `step` through actions that `ok` allows. -/
inductive Trace (step : S → A → Option S) (ok : S → A → Prop) : S → List A → S → Prop
  | nil (s : S) : Trace step ok s [] s
  | cons {s t u : S} {a : A} {as : List A} :
      ok s a → step s a = some t → Trace step ok t as u → Trace step ok s (a :: as) u

variable {step : S → A → Option S} {ok : S → A → Prop}

/-- **The invariant rule.**  What one promised step preserves, a run preserves. -/
theorem Trace.invariant {P : S → Prop}
    (hP : ∀ s a t, P s → ok s a → step s a = some t → P t) {s t : S} {as : List A}
    (h : Trace step ok s as t) (hs : P s) : P t := by
  induction h with
  | nil => exact hs
  | cons hok hstep _ ih => exact ih (hP _ _ _ hs hok hstep)

theorem Trace.append {s t u : S} {as bs : List A} (h : Trace step ok s as t)
    (h' : Trace step ok t bs u) : Trace step ok s (as ++ bs) u := by
  induction h with
  | nil s => exact h'
  | cons hok hstep _ ih => exact Trace.cons hok hstep (ih h')

theorem Trace.mono {ok' : S → A → Prop} (hok : ∀ s a, ok s a → ok' s a) {s t : S} {as : List A}
    (h : Trace step ok s as t) : Trace step ok' s as t := by
  induction h with
  | nil s => exact Trace.nil s
  | cons ha hstep _ ih => exact Trace.cons (hok _ _ ha) hstep ih

/-- An invariant can be told to every step of the run. -/
theorem Trace.through {P : S → Prop}
    (hP : ∀ s a t, P s → ok s a → step s a = some t → P t) {s t : S} {as : List A}
    (h : Trace step ok s as t) (hs : P s) : Trace step (fun s a => ok s a ∧ P s) s as t := by
  induction h with
  | nil s => exact Trace.nil s
  | cons hok hstep _ ih => exact Trace.cons ⟨hok, hs⟩ hstep (ih (hP _ _ _ hs hok hstep))

/-- **The history rule.**  The invariant may speak of the actions so far. -/
theorem Trace.history {P : List A → S → Prop}
    (hP : ∀ pre s a t, P pre s → ok s a → step s a = some t → P (pre ++ [a]) t) {s t : S}
    {pre as : List A} (h : Trace step ok s as t) (hs : P pre s) : P (pre ++ as) t := by
  induction h generalizing pre with
  | nil => rwa [List.append_nil]
  | @cons s t u a as hok hstep _ ih =>
    have hrest := ih (hP pre s a t hs hok hstep)
    rwa [List.append_assoc, List.singleton_append] at hrest

/-- **The rule of a condition that is met or missed for good.**  `P` is what the run knows
as long as every step meets `met`; the first step that misses it dooms the run. -/
theorem Trace.met_or_doomed {met : S → A → Prop} {P Doomed : S → Prop}
    (hP : ∀ s a t, P s → ok s a → met s a → step s a = some t → P t)
    (hmiss : ∀ s a t, P s → ok s a → ¬met s a → step s a = some t → Doomed t)
    (hdoomed : ∀ s a t, Doomed s → ok s a → step s a = some t → Doomed t) {s t : S} {as : List A}
    (h : Trace step ok s as t) (hs : P s) :
    (P t ∧ Trace step (fun s a => ok s a ∧ met s a) s as t) ∨ Doomed t := by
  induction h with
  | nil s => exact Or.inl ⟨hs, Trace.nil s⟩
  | @cons s t u a as hok hstep hrest ih =>
    by_cases hmet : met s a
    · rcases ih (hP s a t hs hok hmet hstep) with ⟨hu, htrace⟩ | hu
      · exact Or.inl ⟨hu, Trace.cons ⟨hok, hmet⟩ hstep htrace⟩
      · exact Or.inr hu
    · exact Or.inr (hrest.invariant hdoomed (hmiss s a t hs hok hmet hstep))

/-- **Two conditions that agree along a run.**  While every step meets `met`, the run keeps
`P`; and where `P` holds, a step meets the one condition exactly when it meets the other. -/
theorem Trace.iff_of_invariant {met met' : S → A → Prop} {P : S → Prop}
    (hP : ∀ s a t, P s → ok s a → met s a → step s a = some t → P t)
    (hiff : ∀ s a t, P s → ok s a → step s a = some t → (met' s a ↔ met s a)) {s t : S}
    {as : List A} (h : Trace step ok s as t) (hs : P s) :
    Trace step met' s as t ↔ Trace step met s as t := by
  induction h with
  | nil s => exact ⟨fun _ => Trace.nil s, fun _ => Trace.nil s⟩
  | @cons s t u a as hok hstep _ ih =>
    constructor
    · intro h
      cases h with
      | cons hmet' hstep' hrest =>
        obtain rfl := Option.some.inj (hstep.symm.trans hstep')
        have hmet := (hiff s a t hs hok hstep).mp hmet'
        exact Trace.cons hmet hstep ((ih (hP s a t hs hok hmet hstep)).mp hrest)
    · intro h
      cases h with
      | cons hmet hstep' hrest =>
        obtain rfl := Option.some.inj (hstep.symm.trans hstep')
        have hmet' := (hiff s a t hs hok hstep).mpr hmet
        exact Trace.cons hmet' hstep ((ih (hP s a t hs hok hmet hstep)).mpr hrest)

/-! ## Runs by evaluation -/

/-- The run of a list of actions, `none` as soon as an action is not possible or
not promised. -/
def evalTrace (step : S → A → Option S) (ok : S → A → Prop) [∀ s a, Decidable (ok s a)] :
    S → List A → Option S
  | s, [] => some s
  | s, a :: as =>
    if ok s a then (step s a).bind fun t => evalTrace step ok t as else none

theorem Trace.of_eval [∀ s a, Decidable (ok s a)] {s t : S} {as : List A}
    (h : evalTrace step ok s as = some t) : Trace step ok s as t := by
  induction as generalizing s with
  | nil =>
    obtain rfl := Option.some.inj h
    exact Trace.nil s
  | cons a as ih =>
    rw [evalTrace] at h
    split at h
    · rename_i hok
      obtain ⟨u, hu, hrest⟩ := Option.bind_eq_some_iff.mp h
      exact Trace.cons hok hu (ih hrest)
    · exact absurd h (by simp)

/-- A computed run, known by what a test says of its last state. -/
theorem Trace.exists_of_eval (step : S → A → Option S) (ok : S → A → Prop)
    [∀ s a, Decidable (ok s a)] (p : S → Bool) (s : S) (as : List A)
    (h : (evalTrace step ok s as).map p = some true) :
    ∃ t, Trace step ok s as t ∧ p t = true := by
  obtain ⟨t, ht, hp⟩ := Option.map_eq_some_iff.mp h
  exact ⟨t, Trace.of_eval ht, hp⟩

/-! ## Forward simulation -/

/-- A path of a relation whose steps are labelled by events. -/
inductive Path (R : Q → E → Q → Prop) : Q → List E → Q → Prop
  | nil (σ : Q) : Path R σ [] σ
  | cons {σ τ υ : Q} {e : E} {es : List E} :
      R σ e τ → Path R τ es υ → Path R σ (e :: es) υ

/-- The events a run shows, where `obs` is what one step shows. -/
def observe (step : S → A → Option S) (obs : S → A → Option E) : S → List A → List E
  | _, [] => []
  | s, a :: as =>
    match step s a with
    | none => []
    | some t => (obs s a).toList ++ observe step obs t as

/-- **The simulation rule.**  A run that starts related to an abstract state is
matched by a path of the abstract relation carrying the events the run shows, and
ends related. -/
theorem Trace.simulate {obs : S → A → Option E} {R : Q → E → Q → Prop} {Rel : S → Q → Prop}
    (hsim : ∀ s a t σ, Rel s σ → ok s a → step s a = some t →
      (obs s a = none ∧ Rel t σ) ∨ ∃ e τ, obs s a = some e ∧ R σ e τ ∧ Rel t τ)
    {s t : S} {as : List A} (h : Trace step ok s as t) {σ : Q} (hσ : Rel s σ) :
    ∃ τ, Path R σ (observe step obs s as) τ ∧ Rel t τ := by
  induction h generalizing σ with
  | nil => exact ⟨σ, Path.nil σ, hσ⟩
  | @cons s t u a as hok hstep _ ih =>
    rcases hsim s a t σ hσ hok hstep with ⟨hobs, hrel⟩ | ⟨e, τ, hobs, hR, hrel⟩
    · obtain ⟨υ, hpath, hυ⟩ := ih hrel
      refine ⟨υ, ?_, hυ⟩
      simpa only [observe, hstep, hobs, Option.toList_none, List.nil_append] using hpath
    · obtain ⟨υ, hpath, hυ⟩ := ih hrel
      refine ⟨υ, ?_, hυ⟩
      simpa only [observe, hstep, hobs, Option.toList_some, List.singleton_append] using
        Path.cons hR hpath

/-! ## Conditions that the events tell -/

theorem Trace.observe_self {s t : S} {as : List A} (h : Trace step ok s as t) :
    observe step (fun _ a => some a) s as = as := by
  induction h with
  | nil => rfl
  | cons _ hstep _ ih => simp only [observe, hstep, ih, Option.toList_some, List.singleton_append]

/-- **The rule of a condition on the events.**  `P` is known of the events so far and the state.
If the events of one more step meet `Q` exactly when those before it do and the step meets
`met`, then every step of a run meets `met` exactly when the events of the run meet `Q`. -/
theorem Trace.met_iff_observe {obs : S → A → Option E} {met : S → A → Prop}
    {P : List E → S → Prop} {Q : List E → Prop}
    (hP : ∀ pre s a t, P pre s → ok s a → step s a = some t → P (pre ++ (obs s a).toList) t)
    (hQ : ∀ pre s a t, P pre s → ok s a → step s a = some t →
      (Q (pre ++ (obs s a).toList) ↔ Q pre ∧ met s a))
    {s t : S} {as : List A} (h : Trace step ok s as t) {pre : List E} (hs : P pre s) :
    Trace step (fun s a => ok s a ∧ met s a) s as t ∧ Q pre ↔
      Q (pre ++ observe step obs s as) := by
  induction h generalizing pre with
  | nil s =>
    rw [observe, List.append_nil]
    exact and_iff_right (Trace.nil s)
  | @cons s t u a as hok hstep _ ih =>
    simp only [observe, hstep]
    rw [← List.append_assoc, ← ih (hP pre s a t hs hok hstep), hQ pre s a t hs hok hstep]
    constructor
    · rintro ⟨htrace, hpre⟩
      cases htrace with
      | cons hmet hstep' hrest =>
        obtain rfl := Option.some.inj (hstep.symm.trans hstep')
        exact ⟨hrest, hpre, hmet.2⟩
    · rintro ⟨hrest, hpre, hmet⟩
      exact ⟨Trace.cons ⟨hok, hmet⟩ hstep hrest, hpre⟩

/-! ## Lockstep -/

/-- **The lockstep rule.**  Two programs under the same actions: if from related states a step
of the one can be matched by a step of the other under the same action that shows the same,
then a run of the one is a run of the other, and shows the same. -/
theorem Trace.lockstep {S' : Type*} {step' : S' → A → Option S'} {ok' : S' → A → Prop}
    {obs : S → A → Option E} {obs' : S' → A → Option E} {Rel : S → S' → Prop}
    (hstep : ∀ s s' a t, Rel s s' → ok s a → step s a = some t →
      ok' s' a ∧ obs' s' a = obs s a ∧ ∃ t', step' s' a = some t' ∧ Rel t t')
    {s t : S} {as : List A} (h : Trace step ok s as t) {s' : S'} (hs : Rel s s') :
    ∃ t', Trace step' ok' s' as t' ∧ Rel t t' ∧
      observe step' obs' s' as = observe step obs s as := by
  induction h generalizing s' with
  | nil => exact ⟨s', Trace.nil s', hs, rfl⟩
  | @cons s t u a as hok hmove _ ih =>
    obtain ⟨hok', hobs, t', hmove', hrel⟩ := hstep s s' a t hs hok hmove
    obtain ⟨u', htrace, hu, hshow⟩ := ih hrel
    refine ⟨u', Trace.cons hok' hmove' htrace, hu, ?_⟩
    simp only [observe, hmove, hmove', hobs, hshow]

end CaosSeminars
