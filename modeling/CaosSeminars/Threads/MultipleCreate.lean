import CaosSeminars.Library.Trace
import Mathlib.Data.List.Basic
import Mathlib.Order.Nat

/-!
# What `multiple-create.c` prints

`main` starts `N` threads, each of which is given the address of a counter of its own and prints two
lines with the number it finds there; then it joins them all.  Each `printf` is one step.

The lines of a thread come in order and between the two lines of `main`.  Nothing more is true:
every list of lines in which each thread has its two lines in order is printed by some run, and no
other list is (`prints_iff`).

* `Shuffle` --- the lists in which each thread has its two lines in order, said thread by
  thread of the lines that are its own.
* `Inv` --- the invariant: the output is the first line of `main` and what the threads have
  printed so far.
* `Row` --- the states from which any shuffle can be printed; `Row.exists_printed` is by
  induction on it.
* `prints_iff` --- both inclusions, for every number of threads.
-/

namespace CaosSeminars
namespace MultipleCreate

/-- Where a thread is. -/
inductive ThreadPc where
  | notCreated
  /-- Before `int id = *(int*)arg`, where `arg` is `&counter[k]`. -/
  | created (k : ℕ)
  /-- The first `printf` comes next. -/
  | starting (id : ℕ)
  /-- The second `printf` comes next. -/
  | finishing (id : ℕ)
  | finished
  deriving DecidableEq

/-- Where `main` is. -/
inductive MainPc where
  /-- The first `printf` comes next. -/
  | starting
  /-- The condition of the first loop, and then `counter[i] = i`. -/
  | creating (i : ℕ)
  /-- `pthread_create` for `&thread[i]` comes next. -/
  | spawning (i : ℕ)
  /-- The condition of the second loop, and then `pthread_join`. -/
  | joining (i : ℕ)
  /-- The last `printf` comes next. -/
  | finishing
  | finished
  deriving DecidableEq

/-- A line, which says that somebody has started, or finished. -/
inductive Line where
  | main (finished : Bool)
  | thread (id : ℕ) (finished : Bool)
  deriving DecidableEq

structure State where
  main : MainPc
  counter : ℕ → ℕ
  threads : ℕ → ThreadPc
  output : List Line

/-- `main` or a thread makes a step. -/
inductive Act where
  | main
  | thread (i : ℕ)
  deriving DecidableEq

namespace State

/-- Before the first line; `counter` is not initialised. -/
def init (junk : ℕ → ℕ) : State := ⟨.starting, junk, fun _ => .notCreated, []⟩

def setThread (s : State) (i : ℕ) (pc : ThreadPc) : State :=
  { s with threads := Function.update s.threads i pc }

def print (s : State) (line : Line) : State := { s with output := s.output ++ [line] }

/-- One step of `main`, for `N` threads. -/
def stepMain (n : ℕ) (s : State) : Option State :=
  match s.main with
  | .starting => some { s.print (.main false) with main := .creating 0 }
  | .creating i =>
    if i < n then some { s with main := .spawning i, counter := Function.update s.counter i i }
    else some { s with main := .joining 0 }
  | .spawning i => some { s.setThread i (.created i) with main := .creating (i + 1) }
  | .joining i =>
    if i < n then
      if s.threads i = .finished then some { s with main := .joining (i + 1) } else none
    else some { s with main := .finishing }
  | .finishing => some { s.print (.main true) with main := .finished }
  | .finished => none

/-- One step of `thread_func`. -/
def stepThread (s : State) (i : ℕ) : Option State :=
  match s.threads i with
  | .created k => some (s.setThread i (.starting (s.counter k)))
  | .starting id => some ((s.setThread i (.finishing id)).print (.thread id false))
  | .finishing id => some ((s.setThread i .finished).print (.thread id true))
  | .notCreated | .finished => none

def step (n : ℕ) (s : State) : Act → Option State
  | .main => s.stepMain n
  | .thread i => s.stepThread i

end State

/-- Any order of steps. -/
def anyOrder (_ : State) (_ : Act) : Prop := True

instance (s : State) (a : Act) : Decidable (anyOrder s a) := inferInstanceAs (Decidable True)

variable {n i : ℕ} {s s' : State} {a : Act} {junk : ℕ → ℕ} {lines : List (ℕ × Bool)}

/-! ## Shuffles -/

/-- The lines of the thread `i`. -/
def linesOf (i : ℕ) (lines : List (ℕ × Bool)) : List Bool :=
  (lines.filter fun line => line.1 == i).map Prod.snd

/-- Each of the `n` threads has its two lines, in order. -/
def Shuffle (n : ℕ) (lines : List (ℕ × Bool)) : Prop :=
  ∀ i, linesOf i lines = if i < n then [false, true] else []

theorem linesOf_append (i : ℕ) (lines lines' : List (ℕ × Bool)) :
    linesOf i (lines ++ lines') = linesOf i lines ++ linesOf i lines' := by
  rw [linesOf, List.filter_append, List.map_append, linesOf, linesOf]

theorem linesOf_cons_self (i : ℕ) (b : Bool) (lines : List (ℕ × Bool)) :
    linesOf i ((i, b) :: lines) = b :: linesOf i lines := by
  rw [linesOf, List.filter_cons_of_pos (p := fun line : ℕ × Bool => line.1 == i)
    (beq_self_eq_true i), List.map_cons, linesOf]

theorem linesOf_cons_of_ne {j : ℕ} (b : Bool) (lines : List (ℕ × Bool)) (h : j ≠ i) :
    linesOf i ((j, b) :: lines) = linesOf i lines := by
  rw [linesOf, List.filter_cons_of_neg (p := fun line : ℕ × Bool => line.1 == i)
    (by simpa using h), linesOf]

theorem eq_nil_of_linesOf (h : ∀ i, linesOf i lines = []) : lines = [] := by
  cases lines with
  | nil => rfl
  | cons line lines =>
    have hline := h line.1
    rw [linesOf_cons_self] at hline
    cases hline

/-- What the threads have printed. -/
def toLines (lines : List (ℕ × Bool)) : List Line := lines.map fun line => .thread line.1 line.2

/-! ## Every run prints a shuffle -/

/-- What a thread has printed. -/
def ThreadPc.printed : ThreadPc → List Bool
  | .notCreated | .created _ | .starting _ => []
  | .finishing _ => [false]
  | .finished => [false, true]

/-- The thread `i` knows itself by its own number. -/
def ThreadPc.knows (i : ℕ) (counter : ℕ → ℕ) : ThreadPc → Prop
  | .created k => k = i ∧ counter k = i
  | .starting id | .finishing id => id = i
  | .notCreated | .finished => True

/-- The threads that have been created. -/
def MainPc.created (n : ℕ) : MainPc → ℕ
  | .starting => 0
  | .creating i | .spawning i => i
  | .joining _ | .finishing | .finished => n

/-- The threads that have been joined. -/
def MainPc.joined (n : ℕ) : MainPc → ℕ
  | .starting | .creating _ | .spawning _ => 0
  | .joining i => i
  | .finishing | .finished => n

/-- The output, of which `lines` are the lines of the threads. -/
def MainPc.frame (lines : List (ℕ × Bool)) : MainPc → List Line
  | .starting => toLines lines
  | .finished => .main false :: toLines lines ++ [.main true]
  | _ => .main false :: toLines lines

structure Inv (n : ℕ) (s : State) : Prop where
  created : ∀ i, s.threads i ≠ .notCreated ↔ i < s.main.created n
  bound : s.main.created n ≤ n
  spawning : ∀ i, s.main = .spawning i → i < n ∧ s.counter i = i
  knows : ∀ i, (s.threads i).knows i s.counter
  joined : ∀ i < s.main.joined n, s.threads i = .finished
  output : ∃ lines, s.output = s.main.frame lines ∧
    ∀ i, linesOf i lines = (s.threads i).printed

theorem inv_init (n : ℕ) (junk : ℕ → ℕ) : Inv n (State.init junk) where
  created _ := ⟨fun h => absurd rfl h, nofun⟩
  bound := Nat.zero_le n
  spawning := nofun
  knows _ := trivial
  joined := nofun
  output := ⟨[], rfl, fun _ => rfl⟩

theorem frame_append {main : MainPc} (h : main ≠ .finished) (lines : List (ℕ × Bool)) (id : ℕ)
    (b : Bool) : main.frame (lines ++ [(id, b)]) = main.frame lines ++ [.thread id b] := by
  cases main with
  | finished => exact absurd rfl h
  | starting | creating i | spawning i | joining i | finishing => simp [MainPc.frame, toLines]

namespace Inv

theorem moveThread (h : Inv n s) {pc : ThreadPc} (pc' : ThreadPc) (hpc : s.threads i = pc)
    (hlive : pc ≠ .notCreated) (hnot : pc ≠ .finished) (hborn : pc' ≠ .notCreated)
    (hknows : pc'.knows i s.counter) {output : List Line}
    (houtput : ∃ lines, output = s.main.frame lines ∧
      ∀ j, linesOf j lines = (Function.update s.threads i pc' j).printed) :
    Inv n { s.setThread i pc' with output := output } where
  created j := by
    show Function.update s.threads i pc' j ≠ _ ↔ j < s.main.created n
    rw [← h.created j]
    by_cases hj : j = i
    · rw [hj, Function.update_self, hpc]
      exact ⟨fun _ => hlive, fun _ => hborn⟩
    · rw [Function.update_of_ne hj]
  bound := h.bound
  spawning := h.spawning
  knows j := by
    show (Function.update s.threads i pc' j).knows j s.counter
    by_cases hj : j = i
    · rw [hj, Function.update_self]
      exact hknows
    · rw [Function.update_of_ne hj]
      exact h.knows j
  joined j hj := by
    have hne : j ≠ i := by
      rintro rfl
      exact hnot (hpc.symm.trans (h.joined j hj))
    exact (Function.update_of_ne hne _ _).trans (h.joined j hj)
  output := houtput

theorem printThread (h : Inv n s) {pc : ThreadPc} (pc' : ThreadPc) (hpc : s.threads i = pc)
    (b : Bool)
    (hlive : pc ≠ .notCreated) (hnot : pc ≠ .finished) (hborn : pc' ≠ .notCreated)
    (hknows : pc'.knows i s.counter) (hprinted : pc'.printed = pc.printed ++ [b]) :
    Inv n ((s.setThread i pc').print (.thread i b)) := by
  have hmain : s.main ≠ .finished := fun hmain => by
    have hi := (h.created i).mp (by rw [hpc]; exact hlive)
    have hjoined := h.joined i
    rw [hmain] at hi hjoined
    exact hnot (hpc.symm.trans (hjoined hi))
  obtain ⟨lines, houtput, hlines⟩ := h.output
  refine h.moveThread pc' hpc hlive hnot hborn hknows ⟨lines ++ [(i, b)], ?_, fun j => ?_⟩
  · rw [frame_append hmain, ← houtput]
    rfl
  · rw [linesOf_append, hlines]
    by_cases hj : j = i
    · rw [hj, Function.update_self, linesOf_cons_self, hprinted, hpc]
      rfl
    · rw [Function.update_of_ne hj, linesOf_cons_of_ne b [] (Ne.symm hj)]
      exact List.append_nil _

theorem stepThread (h : Inv n s) (hstep : s.stepThread i = some s') : Inv n s' := by
  have hknows := h.knows i
  unfold State.stepThread at hstep
  split at hstep
  · rename_i k hpc
    obtain rfl := Option.some.inj hstep
    rw [hpc] at hknows
    obtain ⟨lines, houtput, hlines⟩ := h.output
    refine h.moveThread (.starting (s.counter k)) hpc nofun nofun nofun hknows.2
      ⟨lines, houtput, fun j => ?_⟩
    rw [hlines]
    by_cases hj : j = i
    · rw [hj, Function.update_self, hpc]
      rfl
    · rw [Function.update_of_ne hj]
  · rename_i id hpc
    obtain rfl := Option.some.inj hstep
    rw [hpc] at hknows
    obtain rfl : id = i := hknows
    exact h.printThread (.finishing id) hpc false nofun nofun nofun rfl rfl
  · rename_i id hpc
    obtain rfl := Option.some.inj hstep
    rw [hpc] at hknows
    obtain rfl : id = i := hknows
    exact h.printThread .finished hpc true nofun nofun nofun trivial rfl
  all_goals cases hstep

/-- `main` moves, and neither creates a thread nor prints. -/
theorem moveMain (h : Inv n s) (main' : MainPc) (hcreated : main'.created n = s.main.created n)
    (hspawning : ∀ i, main' ≠ .spawning i)
    (hjoined : ∀ i < main'.joined n, s.threads i = .finished)
    (hframe : ∀ lines, main'.frame lines = s.main.frame lines) :
    Inv n { s with main := main' } where
  created i := by
    rw [h.created i, ← hcreated]
  bound := hcreated.le.trans h.bound
  spawning i hi := absurd hi (hspawning i)
  knows := h.knows
  joined := hjoined
  output := by
    obtain ⟨lines, houtput, hlines⟩ := h.output
    exact ⟨lines, houtput.trans (hframe lines).symm, hlines⟩

theorem output_starting (h : Inv n s) (hmain : s.main = .starting) : s.output = [] := by
  obtain ⟨lines, houtput, hlines⟩ := h.output
  have hnone (j : ℕ) : linesOf j lines = [] := by
    have hj : s.threads j = .notCreated := by
      by_contra hlive
      have hlt := (h.created j).mp hlive
      rw [hmain] at hlt
      exact absurd hlt (Nat.not_lt_zero j)
    rw [hlines, hj]
    rfl
  rw [houtput, hmain, eq_nil_of_linesOf hnone]
  rfl

/-- `counter[i] = i`. -/
theorem setCounter (h : Inv n s) (hmain : s.main = .creating i) (hi : i < n) :
    Inv n { s with main := .spawning i, counter := Function.update s.counter i i } where
  created j := by
    have hj := h.created j
    rwa [hmain] at hj
  bound := hi.le
  spawning j hj := by
    obtain rfl : i = j := MainPc.spawning.inj hj
    exact ⟨hi, Function.update_self ..⟩
  knows j := by
    have hj := h.knows j
    have hlive := h.created j
    rw [hmain] at hlive
    cases hpc : s.threads j with
    | created k =>
      rw [hpc] at hj hlive
      obtain ⟨rfl, hcounter⟩ := hj
      -- the thread has been created, and its counter is another one
      have hlt : k < i := hlive.mp nofun
      exact ⟨rfl, (Function.update_of_ne hlt.ne ..).trans hcounter⟩
    | notCreated => trivial
    | starting id =>
      rw [hpc] at hj
      exact hj
    | finishing id =>
      rw [hpc] at hj
      exact hj
    | finished => trivial
  joined := nofun
  output := by
    obtain ⟨lines, houtput, hlines⟩ := h.output
    rw [hmain] at houtput
    exact ⟨lines, houtput, hlines⟩

theorem spawn (h : Inv n s) (hmain : s.main = .spawning i) :
    Inv n { s.setThread i (.created i) with main := .creating (i + 1) } where
  created j := by
    show Function.update s.threads i _ j ≠ _ ↔ j < i + 1
    have hj := h.created j
    rw [hmain] at hj
    by_cases hji : j = i
    · rw [hji, Function.update_self]
      exact ⟨fun _ => i.lt_succ_self, fun _ => nofun⟩
    · rw [Function.update_of_ne hji, hj]
      show j < i ↔ j < i + 1
      omega
  bound := (h.spawning i hmain).1
  spawning := nofun
  knows j := by
    show (Function.update s.threads i _ j).knows j s.counter
    by_cases hji : j = i
    · rw [hji, Function.update_self]
      exact ⟨rfl, (h.spawning i hmain).2⟩
    · rw [Function.update_of_ne hji]
      exact h.knows j
  joined := nofun
  output := by
    obtain ⟨lines, houtput, hlines⟩ := h.output
    rw [hmain] at houtput
    refine ⟨lines, houtput, fun j => ?_⟩
    show _ = (Function.update s.threads i _ j).printed
    by_cases hji : j = i
    · have hnew : s.threads i = .notCreated := by
        by_contra hlive
        have hlt := (h.created i).mp hlive
        rw [hmain] at hlt
        exact absurd hlt i.lt_irrefl
      rw [hlines, hji, Function.update_self, hnew]
      rfl
    · rw [hlines, Function.update_of_ne hji]

theorem stepMain (h : Inv n s) (hstep : s.stepMain n = some s') : Inv n s' := by
  have hjoined := h.joined
  unfold State.stepMain at hstep
  split at hstep
  · rename_i hmain
    obtain rfl := Option.some.inj hstep
    have hoff (j : ℕ) : s.threads j = .notCreated := by
      by_contra hlive
      have hlt := (h.created j).mp hlive
      rw [hmain] at hlt
      exact absurd hlt (Nat.not_lt_zero j)
    refine ⟨fun j => ⟨fun hj => absurd (hoff j) hj, nofun⟩, n.zero_le, nofun, h.knows, nofun, [],
      ?_, fun j => ?_⟩
    · show s.output ++ _ = _
      rw [h.output_starting hmain]
      rfl
    · show _ = (s.threads j).printed
      rw [hoff j]
      rfl
  · rename_i i hmain
    split at hstep
    · rename_i hi
      obtain rfl := Option.some.inj hstep
      exact h.setCounter hmain hi
    · rename_i hi
      obtain rfl := Option.some.inj hstep
      have hn : i = n := by
        have hbound := h.bound
        rw [hmain] at hbound
        exact le_antisymm hbound (not_lt.mp hi)
      refine h.moveMain _ ?_ nofun nofun fun lines => ?_
      · rw [hmain]
        exact hn.symm
      · rw [hmain]
        rfl
  · rename_i i hmain
    obtain rfl := Option.some.inj hstep
    exact h.spawn hmain
  · rename_i i hmain
    rw [hmain] at hjoined
    split at hstep
    · split at hstep
      · rename_i hfinished
        obtain rfl := Option.some.inj hstep
        refine h.moveMain _ ?_ nofun (fun j hj => ?_) fun lines => ?_
        · rw [hmain]
          rfl
        · obtain hlt | rfl := Nat.lt_succ_iff_lt_or_eq.mp hj
          · exact hjoined j hlt
          · exact hfinished
        · rw [hmain]
          rfl
      · cases hstep
    · rename_i hi
      obtain rfl := Option.some.inj hstep
      refine h.moveMain _ ?_ nofun (fun j hj => ?_) fun lines => ?_
      · rw [hmain]
        rfl
      · exact hjoined j (lt_of_lt_of_le hj (not_lt.mp hi))
      · rw [hmain]
        rfl
  · rename_i hmain
    obtain rfl := Option.some.inj hstep
    rw [hmain] at hjoined
    obtain ⟨lines, houtput, hlines⟩ := h.output
    have hcreated := h.created
    rw [hmain] at hcreated houtput
    refine ⟨hcreated, le_rfl, nofun, h.knows, hjoined, lines, ?_, hlines⟩
    show s.output ++ _ = _
    rw [houtput]
    rfl
  · cases hstep

end Inv

theorem inv_of_trace {as : List Act} (h : Trace (State.step n) anyOrder (State.init junk) as s) :
    Inv n s := by
  refine h.invariant (fun s a t hs _ hstep => ?_) (inv_init n junk)
  cases a with
  | main => exact hs.stepMain hstep
  | thread i => exact hs.stepThread hstep

/-! ## Every shuffle is printed -/

/-- Where the thread `i` stands with a part of its lines. -/
def ThreadPc.after (i : ℕ) : List Bool → ThreadPc
  | [] => .starting i
  | [_] => .finishing i
  | _ => .finished

/-- While `main` waits for the first thread, the threads have printed `lines`. -/
structure Row (n : ℕ) (lines : List (ℕ × Bool)) (s : State) : Prop where
  main : s.main = .joining 0
  place : ∀ i < n, s.threads i = .after i (linesOf i lines)
  output : s.output = .main false :: toLines lines

theorem exists_started (hmain : s.main = .creating i) (hi : i < n) :
    ∃ as s', Trace (State.step n) anyOrder s as s' ∧ s'.main = .creating (i + 1) ∧
      s'.threads = Function.update s.threads i (.starting i) ∧ s'.output = s.output := by
  have hset : s.step n .main = some { s with
      main := .spawning i, counter := Function.update s.counter i i } := by
    simp only [State.step, State.stepMain, hmain, if_pos hi]
  have hspawn : State.step n { s with
      main := .spawning i, counter := Function.update s.counter i i } .main = some { s with
      main := .creating (i + 1), counter := Function.update s.counter i i,
      threads := Function.update s.threads i (.created i) } := rfl
  have hread : State.step n { s with
      main := .creating (i + 1), counter := Function.update s.counter i i,
      threads := Function.update s.threads i (.created i) } (.thread i) = some { s with
      main := .creating (i + 1), counter := Function.update s.counter i i,
      threads := Function.update s.threads i (.starting i) } := by
    simp [State.step, State.stepThread, State.setThread]
  exact ⟨_, _, .cons trivial hset (.cons trivial hspawn (.cons trivial hread (.nil _))), rfl, rfl,
    rfl⟩

theorem exists_created (junk : ℕ → ℕ) (hi : i ≤ n) :
    ∃ as s, Trace (State.step n) anyOrder (State.init junk) as s ∧ s.main = .creating i ∧
      (∀ j < i, s.threads j = .starting j) ∧ s.output = [.main false] := by
  induction i with
  | zero =>
    exact ⟨[.main], _, .cons trivial rfl (.nil _), rfl, fun j hj => absurd hj j.not_lt_zero, rfl⟩
  | succ i ih =>
    obtain ⟨as, s, hrun, hmain, hthreads, houtput⟩ := ih (Nat.le_of_succ_le hi)
    obtain ⟨as', s', hrun', hmain', hthreads', houtput'⟩ :=
      exists_started hmain (Nat.lt_of_succ_le hi)
    refine ⟨_, s', hrun.append hrun', hmain', fun j hj => ?_, houtput'.trans houtput⟩
    rw [hthreads']
    by_cases hji : j = i
    · rw [hji, Function.update_self]
    · rw [Function.update_of_ne hji, hthreads j (by omega)]

theorem exists_row (n : ℕ) (junk : ℕ → ℕ) :
    ∃ as s, Trace (State.step n) anyOrder (State.init junk) as s ∧ Row n [] s := by
  obtain ⟨as, s, hrun, hmain, hthreads, houtput⟩ := exists_created junk (le_refl n)
  have hstep : s.step n .main = some { s with main := .joining 0 } := by
    simp [State.step, State.stepMain, hmain]
  exact ⟨_, _, hrun.append (.cons trivial hstep (.nil _)), rfl, hthreads, houtput⟩

/-- The next line of a shuffle is the next one of its thread. -/
theorem next_of_shuffle {line : ℕ × Bool} {rest : List (ℕ × Bool)}
    (h : Shuffle n (lines ++ line :: rest)) :
    line.1 < n ∧ (linesOf line.1 lines = [] ∧ line.2 = false ∨
      linesOf line.1 lines = [false] ∧ line.2 = true) := by
  have hall := h line.1
  rw [linesOf_append, linesOf_cons_self] at hall
  by_cases hi : line.1 < n
  · rw [if_pos hi] at hall
    refine ⟨hi, ?_⟩
    match hlines : linesOf line.1 lines with
    | [] =>
      rw [hlines] at hall
      exact .inl ⟨rfl, (List.cons.inj hall).1⟩
    | [b] =>
      rw [hlines] at hall
      obtain ⟨rfl, hrest⟩ := List.cons.inj hall
      exact .inr ⟨rfl, (List.cons.inj hrest).1⟩
    | b :: b' :: bs =>
      rw [hlines] at hall
      simp at hall
  · rw [if_neg hi] at hall
    simp at hall

theorem Row.print_line (h : Row n lines s) {line : ℕ × Bool} (hi : line.1 < n)
    (hline : linesOf line.1 lines = [] ∧ line.2 = false ∨
      linesOf line.1 lines = [false] ∧ line.2 = true) :
    ∃ s', s.step n (.thread line.1) = some s' ∧ Row n (lines ++ [line]) s' := by
  obtain ⟨i, b⟩ := line
  have hplace := h.place i hi
  have hmoved (pc : ThreadPc) (hpc : pc = .after i (linesOf i (lines ++ [(i, b)]))) :
      Row n (lines ++ [(i, b)]) ((s.setThread i pc).print (.thread i b)) := by
    refine ⟨h.main, fun j hj => ?_, ?_⟩
    · show Function.update s.threads i pc j = _
      by_cases hji : j = i
      · rw [hji, Function.update_self, hpc]
      · rw [Function.update_of_ne hji, h.place j hj, linesOf_append,
          linesOf_cons_of_ne b [] (Ne.symm hji)]
        exact congrArg _ (List.append_nil _).symm
    · show s.output ++ _ = _
      rw [h.output]
      simp [toLines]
  obtain ⟨hlines, rfl⟩ | ⟨hlines, rfl⟩ := hline
  · rw [show linesOf i lines = [] from hlines] at hplace
    refine ⟨_, ?_, hmoved (.finishing i) ?_⟩
    · simp only [State.step, State.stepThread, hplace, ThreadPc.after]
    · rw [linesOf_append, linesOf_cons_self, show linesOf i lines = [] from hlines]
      rfl
  · rw [show linesOf i lines = [false] from hlines] at hplace
    refine ⟨_, ?_, hmoved .finished ?_⟩
    · simp only [State.step, State.stepThread, hplace, ThreadPc.after]
    · rw [linesOf_append, linesOf_cons_self, show linesOf i lines = [false] from hlines]
      rfl

/-- The threads print what is left of a shuffle. -/
theorem Row.exists_printed (h : Row n lines s) (rest : List (ℕ × Bool))
    (hall : Shuffle n (lines ++ rest)) :
    ∃ as s', Trace (State.step n) anyOrder s as s' ∧ Row n (lines ++ rest) s' := by
  induction rest generalizing lines s with
  | nil =>
    rw [List.append_nil]
    exact ⟨[], s, .nil s, h⟩
  | cons line rest ih =>
    obtain ⟨hi, hline⟩ := next_of_shuffle hall
    obtain ⟨s₁, hstep, h₁⟩ := h.print_line hi hline
    rw [List.append_cons] at hall
    obtain ⟨as, s₂, hrun, h₂⟩ := ih h₁ hall
    rw [← List.append_cons] at h₂
    exact ⟨_, s₂, .cons trivial hstep hrun, h₂⟩

theorem exists_joined (hmain : s.main = .joining 0) (hall : ∀ j < n, s.threads j = .finished)
    (hi : i ≤ n) : ∃ as, Trace (State.step n) anyOrder s as { s with main := .joining i } := by
  induction i with
  | zero => exact ⟨[], by rw [← hmain]; exact .nil s⟩
  | succ i ih =>
    obtain ⟨as, hrun⟩ := ih (Nat.le_of_succ_le hi)
    have hstep : State.step n { s with main := .joining i } .main =
        some { s with main := .joining (i + 1) } := by
      simp [State.step, State.stepMain, Nat.lt_of_succ_le hi, hall i (Nat.lt_of_succ_le hi)]
    exact ⟨_, hrun.append (.cons trivial hstep (.nil _))⟩

/-- When the threads have printed all their lines, `main` prints its last one. -/
theorem Row.exists_finished (h : Row n lines s) (hall : Shuffle n lines) :
    ∃ as s', Trace (State.step n) anyOrder s as s' ∧ s'.main = .finished ∧
      s'.output = .main false :: toLines lines ++ [.main true] := by
  have hthreads (j : ℕ) (hj : j < n) : s.threads j = .finished := by
    rw [h.place j hj, hall j, if_pos hj]
    rfl
  obtain ⟨as, hrun⟩ := exists_joined h.main hthreads le_rfl
  have hjoined : State.step n { s with main := .joining n } .main =
      some { s with main := .finishing } := by
    simp [State.step, State.stepMain]
  have hprint : State.step n { s with main := .finishing } .main =
      some { s with main := .finished, output := s.output ++ [.main true] } := rfl
  exact ⟨_, _, hrun.append (.cons trivial hjoined (.cons trivial hprint (.nil _))), rfl,
    by rw [h.output]⟩

/-- **What the program prints.**  For any number of threads, the output of a finished run is the
first line of `main`, a shuffle of the lines of the threads and the last line of `main`; and
every shuffle is printed by some run. -/
theorem prints_iff (n : ℕ) (junk : ℕ → ℕ) (out : List Line) :
    (∃ as s, Trace (State.step n) anyOrder (State.init junk) as s ∧ s.main = .finished ∧
      s.output = out) ↔
    ∃ lines, Shuffle n lines ∧ out = .main false :: toLines lines ++ [.main true] := by
  constructor
  · rintro ⟨as, s, hrun, hmain, rfl⟩
    have hs := inv_of_trace hrun
    obtain ⟨lines, houtput, hlines⟩ := hs.output
    rw [hmain] at houtput
    refine ⟨lines, fun i => ?_, houtput⟩
    have hcreated := hs.created i
    have hjoined := hs.joined i
    rw [hmain] at hcreated hjoined
    rw [hlines]
    by_cases hi : i < n
    · rw [if_pos hi, hjoined hi]
      rfl
    · rw [if_neg hi, not_not.mp (mt hcreated.mp hi)]
      rfl
  · rintro ⟨lines, hall, rfl⟩
    obtain ⟨as, s, hrun, hrow⟩ := exists_row n junk
    obtain ⟨as', s', hrun', hrow'⟩ := hrow.exists_printed lines hall
    obtain ⟨as'', s'', hrun'', hmain, houtput⟩ := hrow'.exists_finished hall
    exact ⟨_, s'', (hrun.append hrun').append hrun'', hmain, houtput⟩

end MultipleCreate
end CaosSeminars
