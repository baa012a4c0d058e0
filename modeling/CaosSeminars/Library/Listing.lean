import Mathlib.Computability.StateTransition
import Mathlib.Tactic.Common

/-!
# Assembler listings

An assembler source is a list of lines, each a label or an instruction.  What an
instruction does is up to the architecture; that control passes over a label to the line
below it, that a jump goes to the line of its label, and that nothing runs past the last
line holds of all of them.  A `Machine` adds to this what one architecture has: where its
state keeps the number of the line to come, and what one instruction does to the state.

`Eventually f P s` says that the run from `s` gets to a state with the property `P`.  It is
total: a run that goes round for ever gets nowhere.  A proof about a listing follows the
control through it, one rule for each line (`Machine.eventually_instr`,
`Machine.eventually_label`), and closes each loop with a measure that falls
(`Eventually.loop`).  `Eventually.simulate` carries it over to another machine; where that
takes bounds which the run keeps, the run is one of the steps `inside` them.  What a run must
not do is a fault of the steps `guarded` against it.

* `Eventually.bind`, `Eventually.mono`, `Eventually.loop` --- the rules for runs: one after another,
  a weaker goal, and a loop with a measure.
* `Eventually.unique` --- a run ends in one state at most, so that a routine returns one value.
* `Eventually.of_inside`, `Eventually.of_guarded` --- a run that keeps to its bounds is a run.
-/

namespace CaosSeminars

/-! ## Runs that get somewhere -/

section Eventually

variable {σ : Type*} {f : σ → Option σ} {P Q : σ → Prop} {s t : σ}

/-- The run from `s` comes to a state with the property `P`. -/
def Eventually (f : σ → Option σ) (P : σ → Prop) (s : σ) : Prop :=
  ∃ t, StateTransition.Reaches f s t ∧ P t

namespace Eventually

theorem now (h : P s) : Eventually f P s := ⟨s, .refl, h⟩

theorem step (hst : f s = some t) (h : Eventually f P t) : Eventually f P s := by
  obtain ⟨u, hreach, hu⟩ := h
  exact ⟨u, .head hst hreach, hu⟩

theorem bind (h : Eventually f P s) (hnext : ∀ t, P t → Eventually f Q t) : Eventually f Q s := by
  obtain ⟨t, hst, ht⟩ := h
  obtain ⟨u, htu, hu⟩ := hnext t ht
  exact ⟨u, hst.trans htu, hu⟩

theorem mono (h : Eventually f P s) (himp : ∀ t, P t → Q t) : Eventually f Q s :=
  h.bind fun t ht => now (himp t ht)

/-- **The rule of a loop.**  Each round that does not end the loop keeps the invariant and
takes something off the measure. -/
theorem loop (Inv : σ → Prop) (μ : σ → ℕ)
    (hround : ∀ s, Inv s → Eventually f (fun t => Q t ∨ Inv t ∧ μ t < μ s) s) (h : Inv s) :
    Eventually f Q s := by
  induction hn : μ s using Nat.strong_induction_on generalizing s with
  | _ n ih =>
    refine (hround s h).bind fun t ht => ?_
    rcases ht with hexit | ⟨hinv, hless⟩
    · exact now hexit
    · exact ih (μ t) (hn ▸ hless) hinv rfl

/-- **A run ends in one state at most.** -/
theorem unique (hs : StateTransition.Reaches f s t) (ht : f t = none) {u : σ}
    (hs' : StateTransition.Reaches f s u) (hu : f u = none) : t = u :=
  Part.mem_unique (StateTransition.mem_eval.mpr ⟨hs, ht⟩) (StateTransition.mem_eval.mpr ⟨hs', hu⟩)

/-- **The simulation rule.**  If a step from related states can be matched, so can a run. -/
theorem simulate {τ : Type*} {g : τ → Option τ} {R : σ → τ → Prop}
    (hsim : ∀ s s' t, R s t → f s = some s' → ∃ t', g t = some t' ∧ R s' t')
    (h : Eventually f P s) {t : τ} (hst : R s t) :
    Eventually g (fun t' => ∃ s', P s' ∧ R s' t') t := by
  obtain ⟨u, hreach, hu⟩ := h
  induction hreach using Relation.ReflTransGen.head_induction_on generalizing t with
  | refl => exact now ⟨u, hu, hst⟩
  | head hstep _ ih =>
    obtain ⟨t', hstep', hrel⟩ := hsim _ _ t hst hstep
    exact step hstep' (ih hrel)

/-- What takes the same steps, and perhaps others, gets there as well. -/
theorem of_steps {g : σ → Option σ} (hsteps : ∀ s t, f s = some t → g s = some t)
    (h : Eventually f P s) : Eventually g P s := by
  refine (h.simulate (R := Eq) (fun s s' t hst hstep => ⟨s', ?_, rfl⟩) rfl).mono ?_
  · rw [← hst]
    exact hsteps s s' hstep
  · rintro t ⟨s', hs', rfl⟩
    exact hs'

end Eventually

/-- The steps that do not lead out of `W`. -/
def inside (W : σ → Prop) [DecidablePred W] (f : σ → Option σ) (s : σ) : Option σ :=
  (f s).filter fun t => decide (W t)

variable {W : σ → Prop} [DecidablePred W]

theorem inside_eq_some : inside W f s = some t ↔ f s = some t ∧ W t := by
  rw [inside, Option.filter_eq_some_iff, decide_eq_true_iff]

theorem Eventually.step_inside (hst : f s = some t) (ht : W t)
    (h : Eventually (inside W f) P t) : Eventually (inside W f) P s :=
  h.step (inside_eq_some.mpr ⟨hst, ht⟩)

theorem Eventually.of_inside (h : Eventually (inside W f) P s) : Eventually f P s :=
  h.of_steps fun _ _ hstep => (inside_eq_some.mp hstep).1

/-- The steps that are taken where `G` holds; elsewhere the run ends, as with a fault. -/
def guarded (G : σ → Prop) [DecidablePred G] (f : σ → Option σ) (s : σ) : Option σ :=
  if G s then f s else none

variable {G : σ → Prop} [DecidablePred G]

theorem guarded_eq_some : guarded G f s = some t ↔ G s ∧ f s = some t := by
  unfold guarded
  split <;> simp [*]

/-- A weaker guard lets the run pass as well. -/
theorem Eventually.guarded_mono {G' : σ → Prop} [DecidablePred G'] (hG : ∀ s, G s → G' s)
    (h : Eventually (guarded G f) P s) : Eventually (guarded G' f) P s := by
  refine h.of_steps fun s t hstep => ?_
  obtain ⟨hs, hmove⟩ := guarded_eq_some.mp hstep
  exact guarded_eq_some.mpr ⟨hG s hs, hmove⟩

theorem Eventually.of_guarded (h : Eventually (guarded G f) P s) : Eventually f P s :=
  h.of_steps fun _ _ hstep => (guarded_eq_some.mp hstep).2

end Eventually

/-! ## Lines and labels -/

/-- A line of an assembler source. -/
inductive Line (L I : Type) where
  | label (l : L)
  | instr (i : I)

variable {L I σ : Type} [DecidableEq L]

/-- The line is the label `l`. -/
def Line.isLabel (l : L) : Line L I → Bool
  | label l' => decide (l' = l)
  | instr _ => false

/-- The number of the line a label names. -/
def target (code : List (Line L I)) (l : L) : ℕ := code.findIdx (Line.isLabel l)

/-- What an architecture adds to its listings. -/
structure Machine (L I σ : Type) where
  /-- the number of the line to come -/
  pc : σ → ℕ
  /-- control passes over a line that does nothing -/
  pass : σ → σ
  /-- one instruction, given the lines the labels name -/
  exec : (L → ℕ) → I → σ → σ

namespace Machine

variable (M : Machine L I σ) (code : List (Line L I))

/-- One line; `none` when there is no line to come, as after the return to a caller that is
not in the listing. -/
def step (s : σ) : Option σ :=
  match code[M.pc s]? with
  | none => none
  | some (.label _) => some (M.pass s)
  | some (.instr i) => some (M.exec (target code) i s)

variable {M code} {P : σ → Prop} {s : σ}

theorem step_eq_none (h : code.length ≤ M.pc s) : M.step code s = none := by
  unfold step
  rw [List.getElem?_eq_none h]

/-- A run leaves the listing once at most. -/
theorem unique_outside {t t' : σ} (hs : StateTransition.Reaches (M.step code) s t)
    (ht : code.length ≤ M.pc t) (hs' : StateTransition.Reaches (M.step code) s t')
    (ht' : code.length ≤ M.pc t') : t = t' :=
  Eventually.unique hs (step_eq_none ht) hs' (step_eq_none ht')

theorem step_label {l : L} (h : code[M.pc s]? = some (.label l)) :
    M.step code s = some (M.pass s) := by
  unfold step
  rw [h]

theorem step_instr {i : I} (h : code[M.pc s]? = some (.instr i)) :
    M.step code s = some (M.exec (target code) i s) := by
  unfold step
  rw [h]

theorem eventually_label {l : L} (h : code[M.pc s]? = some (.label l))
    (hnext : Eventually (M.step code) P (M.pass s)) : Eventually (M.step code) P s :=
  .step (step_label h) hnext

theorem eventually_instr {i : I} (h : code[M.pc s]? = some (.instr i))
    (hnext : Eventually (M.step code) P (M.exec (target code) i s)) :
    Eventually (M.step code) P s :=
  .step (step_instr h) hnext

/-! ### Lines that may not be executed everywhere -/

section Guarded

/-- A listing run as long as each line may be executed where it comes. -/
def stepGuarded (M : Machine L I σ) (G : σ → Line L I → Prop) [∀ s, DecidablePred (G s)]
    (code : List (Line L I)) : σ → Option σ :=
  guarded (fun s => ∀ l ∈ code[M.pc s]?, G s l) (M.step code)

variable {G : σ → Line L I → Prop} [∀ s, DecidablePred (G s)] {s' : σ}

theorem stepGuarded_of_line {l : Line L I} (h : code[M.pc s]? = some l) (hs : G s l) :
    M.stepGuarded G code s = M.step code s := by
  refine if_pos fun l' hl' => ?_
  obtain rfl : l = l' := Option.some.inj (h.symm.trans hl')
  exact hs

theorem stepGuarded_label {l : L} (h : code[M.pc s]? = some (.label l)) (hs : G s (.label l)) :
    M.stepGuarded G code s = some (M.pass s) := by
  rw [stepGuarded_of_line h hs, step_label h]

theorem stepGuarded_instr {i : I} (h : code[M.pc s]? = some (.instr i)) (hs : G s (.instr i)) :
    M.stepGuarded G code s = some (M.exec (target code) i s) := by
  rw [stepGuarded_of_line h hs, step_instr h]

theorem guarded_label {l : L} (h : code[M.pc s]? = some (.label l)) (hs : G s (.label l))
    (hnext : Eventually (M.stepGuarded G code) P (M.pass s)) :
    Eventually (M.stepGuarded G code) P s :=
  .step (stepGuarded_label h hs) hnext

theorem guarded_instr {i : I} (h : code[M.pc s]? = some (.instr i)) (hs : G s (.instr i))
    (hnext : Eventually (M.stepGuarded G code) P (M.exec (target code) i s)) :
    Eventually (M.stepGuarded G code) P s :=
  .step (stepGuarded_instr h hs) hnext

theorem stepGuarded_eq_none {l : Line L I} (h : code[M.pc s]? = some l) (hs : ¬G s l) :
    M.stepGuarded G code s = none :=
  if_neg fun hall => hs (hall l h)

theorem stepGuarded_outside (h : code.length ≤ M.pc s) : M.stepGuarded G code s = none := by
  unfold stepGuarded guarded
  rw [step_eq_none h]
  exact ite_self _

/-- What a step was: over a label, or by an instruction that may be executed. -/
theorem stepGuarded_cases (h : M.stepGuarded G code s = some s') :
    (∃ l, code[M.pc s]? = some (.label l) ∧ G s (.label l) ∧ s' = M.pass s) ∨
      ∃ i, code[M.pc s]? = some (.instr i) ∧ G s (.instr i) ∧
        s' = M.exec (target code) i s := by
  obtain ⟨hall, hmove⟩ := guarded_eq_some.mp h
  rcases hl : code[M.pc s]? with _ | ⟨l⟩ | ⟨i⟩
  · rw [step_eq_none (List.getElem?_eq_none_iff.mp hl)] at hmove
    cases hmove
  · exact .inl ⟨l, rfl, hall _ hl, Option.some.inj (hmove.symm.trans (step_label hl))⟩
  · exact .inr ⟨i, rfl, hall _ hl, Option.some.inj (hmove.symm.trans (step_instr hl))⟩

end Guarded

end Machine
end CaosSeminars
