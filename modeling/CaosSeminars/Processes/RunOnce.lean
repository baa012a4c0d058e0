import CaosSeminars.Processes.SimpleShell

/-!
# Which process runs a line

As long as `execvp` fails only when there is no input left, every process but the shell
itself is a program, or has nothing to read and terminates (`Solo`).  So the shell
launches all the lines, in order.

When `execvp` fails with input left, the child reads on.  A process that has forked
waits for its child, so the processes form a chain in which only the last one moves
(`Chained`), and here that is the child: nobody else can take the input from it, and
before the shell moves again the child has launched a line itself.

* `Solo.moves`, `Chained.moves`, `SecondShell.moves` --- one step keeps each of the three.
* `secondShell_of_not_endOfInput` --- the step with which a second shell begins.
* `SecondShell.launched` --- when the shell has terminated, a second shell has launched a
  line.
* `lines_run_once_iff` --- both directions, about every run: any script, any cut of it into
  reads, and any `execvp` that fails.
-/

namespace CaosSeminars
namespace Processes

variable {s s' : Sys} {a : Act} {p q c : ℕ} {x : Proc} {script source : List UInt8}

@[simp] theorem setProc_self : (s.setProc p x).procs p = x := Function.update_self _ _ _

theorem setProc_of_ne (h : q ≠ p) : (s.setProc p x).procs q = s.procs q :=
  Function.update_of_ne h _ _

/-! ## One shell -/

/-- A process other than the shell: it is a program, or there is nothing it can read. -/
def Idle (source : List UInt8) (x : Proc) : Prop :=
  match x.pc with
  | .reading => x.buffer = [] ∧ source = []
  | .tokenised _ | .overrun _ | .waiting _ => False
  | .none | .child | .command | .exited => True

/-- The lines that the shell has still to launch. -/
def Ahead (source : List UInt8) (x : Proc) (lines : List (List UInt8)) : Prop :=
  match x.pc with
  | .reading | .waiting _ => lines = linesOf (x.buffer ++ source)
  | .tokenised line | .overrun line => lines = line :: linesOf (x.buffer ++ source)
  | .exited => lines = []
  | .none | .child | .command => False

/-- What is known while `execvp` has failed at the end of the input only. -/
structure Solo (script : List UInt8) (s : Sys) : Prop where
  next_pos : 0 < s.next
  log_shell : ∀ e ∈ s.log, e.1 = 0
  others : ∀ p ≠ 0, Idle s.source (s.procs p)
  shell : ∃ lines, Ahead s.source (s.procs 0) lines ∧
    s.log.map Prod.snd ++ lines = linesOf script

/-- The shell neither returns from `fork` as a child nor becomes a program. -/
theorem Solo.ne_shell (h : Solo script s)
    (hpc : (s.procs p).pc = .child ∨ (s.procs p).pc = .command) : p ≠ 0 := by
  rintro rfl
  obtain ⟨lines, hlines, -⟩ := h.shell
  rcases hpc with hpc | hpc <;> rw [Ahead, hpc] at hlines <;> exact hlines

theorem solo_init (script : List UInt8) : Solo script (Sys.init script) where
  next_pos := Nat.one_pos
  log_shell _ he := absurd he List.not_mem_nil
  others p hp := by
    simp only [Sys.init, if_neg hp]
    trivial
  shell := ⟨linesOf script, rfl, rfl⟩

theorem ahead_afterGetline {line rest : List UInt8} :
    Ahead source ⟨afterGetline line, rest⟩ (line :: linesOf (rest ++ source)) := by
  unfold afterGetline
  split <;> exact rfl

theorem Solo.setShell (h : Solo script s)
    (hahead : ∀ lines, Ahead s.source (s.procs 0) lines → Ahead s.source x lines) :
    Solo script (s.setProc 0 x) where
  next_pos := h.next_pos
  log_shell := h.log_shell
  others q hq := by
    rw [setProc_of_ne hq]
    exact h.others q hq
  shell := by
    obtain ⟨lines, hlines, hall⟩ := h.shell
    rw [setProc_self]
    exact ⟨lines, hahead lines hlines, hall⟩

theorem Solo.setOther (h : Solo script s) (hp : p ≠ 0) (hidle : Idle s.source x) :
    Solo script (s.setProc p x) where
  next_pos := h.next_pos
  log_shell := h.log_shell
  others q hq := by
    by_cases hqp : q = p
    · rw [hqp, setProc_self]
      exact hidle
    · rw [setProc_of_ne hqp]
      exact h.others q hq
  shell := by
    rw [setProc_of_ne hp.symm]
    exact h.shell

/-- The shell reads from the pipe, which others do not. -/
theorem Solo.read (h : Solo script s) {bs : List UInt8} (hpc : (s.procs p).pc = .reading)
    (hne : bs ≠ []) (hpre : bs <+: s.source) :
    Solo script { s.setProc p ⟨.reading, (s.procs p).buffer ++ bs⟩ with
      source := s.source.drop bs.length } := by
  have hsource : s.source ≠ [] := fun hnil => hne (List.prefix_nil.mp (hnil ▸ hpre))
  have hshell : p = 0 := by
    by_contra hp
    have hidle := h.others p hp
    rw [Idle, hpc] at hidle
    exact hsource hidle.2
  subst hshell
  refine ⟨h.next_pos, h.log_shell, fun q hq => ?_, ?_⟩
  · show Idle _ ((s.setProc 0 _).procs q)
    have hidle := h.others q hq
    rw [setProc_of_ne hq]
    unfold Idle at hidle ⊢
    split <;> simp_all
  · obtain ⟨lines, hlines, hall⟩ := h.shell
    rw [Ahead, hpc] at hlines
    obtain rfl := hlines
    refine ⟨_, ?_, hall⟩
    show Ahead _ ((s.setProc 0 _).procs 0) _
    obtain ⟨more, hmore⟩ := hpre
    rw [setProc_self, ← hmore, List.drop_left' rfl]
    show _ = linesOf ((s.procs 0).buffer ++ bs ++ more)
    rw [List.append_assoc]

theorem Solo.fork (h : Solo script s) {line : List UInt8}
    (hpc : (s.procs p).pc = .tokenised line) : Solo script (s.onFork p line) := by
  have hshell : p = 0 := by
    by_contra hp
    have hidle := h.others p hp
    rw [Idle, hpc] at hidle
    exact hidle
  subst hshell
  have hchild : s.next ≠ 0 := Nat.ne_of_gt h.next_pos
  refine ⟨Nat.succ_pos _, fun e he => ?_, fun q hq => ?_, ?_⟩
  · rcases List.mem_append.mp he with he | he
    · exact h.log_shell e he
    · rw [List.mem_singleton.mp he]
  · show Idle s.source (((s.setProc 0 _).setProc s.next _).procs q)
    by_cases hqc : q = s.next
    · rw [hqc, setProc_self]
      trivial
    · rw [setProc_of_ne hqc, setProc_of_ne hq]
      exact h.others q hq
  · obtain ⟨lines, hlines, hall⟩ := h.shell
    rw [Ahead, hpc] at hlines
    obtain rfl := hlines
    refine ⟨linesOf ((s.procs 0).buffer ++ s.source), ?_, ?_⟩
    · show Ahead s.source (((s.setProc 0 _).setProc s.next _).procs 0) _
      rw [setProc_of_ne hchild.symm, setProc_self]
      exact rfl
    · show (s.log ++ [(0, line)]).map Prod.snd ++ _ = _
      rw [List.map_append, List.append_assoc]
      exact hall

/-- **One step** in which `execvp` does not fail with input left. -/
theorem Solo.moves (h : Solo script s) (hok : kernelAnswers s a) (hmet : endOfInput s a)
    (hm : Moves s a s') : Solo script s' := by
  cases hm with
  | read hpc => exact h.read hpc hok.1 hok.2
  | @eof p hpc hbuffer hsource =>
    by_cases hp : p = 0
    · subst hp
      refine h.setShell fun lines hlines => ?_
      rw [Ahead, hpc, hbuffer, hsource] at hlines
      exact hlines
    · exact h.setOther hp trivial
  | @line p line rest hpc hline =>
    by_cases hp : p = 0
    · subst hp
      refine h.setShell fun lines hlines => ?_
      rw [Ahead, hpc, hline] at hlines
      exact hlines ▸ ahead_afterGetline
    · have hidle := h.others p hp
      rw [Idle, hpc] at hidle
      rw [hidle.1, hidle.2] at hline
      cases hline
  | fork hpc => exact h.fork hpc
  | @exec p ok hpc =>
    have hp := h.ne_shell (Or.inl hpc)
    refine h.setOther hp ?_
    cases ok with
    | true => trivial
    | false => exact hmet
  | @terminate p hpc =>
    have hp := h.ne_shell (Or.inr hpc)
    exact h.setOther hp trivial
  | @waitpid p c hpc hexited =>
    have hp : p = 0 := by
      by_contra hp
      have hidle := h.others p hp
      rw [Idle, hpc] at hidle
      exact hidle
    subst hp
    have hc : c ≠ 0 := by
      rintro rfl
      rw [hpc] at hexited
      cases hexited
    have hgone : Solo script (s.setProc c ⟨.none, []⟩) := h.setOther hc trivial
    refine hgone.setShell fun lines hlines => ?_
    rw [setProc_of_ne hc.symm, Ahead, hpc] at hlines
    exact hlines

/-! ## The chain of processes -/

/-- The processes of the list wait, each for the one before it, and the last one is the
shell. -/
def Waits (procs : ℕ → Proc) : ℕ → List ℕ → Prop
  | c, [] => c = 0
  | c, p :: rest => (procs p).pc = .waiting c ∧ Waits procs p rest

/-- The processes are `c`, which does not wait, and those of `rest`, which do. -/
structure Chained (s : Sys) (c : ℕ) (rest : List ℕ) : Prop where
  alive : ∀ p, (s.procs p).pc ≠ .none ↔ p ∈ c :: rest
  waits : Waits s.procs c rest
  active : ∀ q, (s.procs c).pc ≠ .waiting q
  nodup : (c :: rest).Nodup
  fresh : ∀ p, s.next ≤ p → (s.procs p).pc = .none

variable {procs procs' : ℕ → Proc} {rest : List ℕ}

/-- A process of the list waits for one in front of it. -/
theorem Waits.waiting (h : Waits procs c rest) (hp : p ∈ rest) :
    ∃ q ∈ c :: rest, (procs p).pc = .waiting q := by
  induction rest generalizing c with
  | nil => cases hp
  | cons p' rest ih =>
    rcases List.mem_cons.mp hp with rfl | hp
    · exact ⟨c, List.mem_cons_self, h.1⟩
    · obtain ⟨q, hq, hpc⟩ := ih h.2 hp
      exact ⟨q, List.mem_cons_of_mem c hq, hpc⟩

theorem Waits.congr (h : Waits procs c rest) (hsame : ∀ p ∈ rest, procs' p = procs p) :
    Waits procs' c rest := by
  induction rest generalizing c with
  | nil => exact h
  | cons p rest ih =>
    obtain ⟨hhead, htail⟩ := List.forall_mem_cons.mp hsame
    exact ⟨hhead ▸ h.1, ih h.2 htail⟩

theorem chained_init (script : List UInt8) : Chained (Sys.init script) 0 [] where
  alive p := by
    by_cases hp : p = 0 <;> simp [Sys.init, hp]
  waits := rfl
  active q := by simp [Sys.init]
  nodup := by simp
  fresh p hp := by
    have hne : p ≠ 0 := Nat.ne_of_gt hp
    simp [Sys.init, hne]

/-- **A process that does not wait is the last of the chain.** -/
theorem Chained.eq_of_active (h : Chained s c rest) (halive : (s.procs p).pc ≠ .none)
    (hactive : ∀ q, (s.procs p).pc ≠ .waiting q) : p = c := by
  rcases List.mem_cons.mp ((h.alive p).mp halive) with heq | hmem
  · exact heq
  · obtain ⟨q, -, hpc⟩ := h.waits.waiting hmem
    exact absurd hpc (hactive q)

/-- The last process moves on, and neither forks nor disappears. -/
theorem Chained.setLast (h : Chained s c rest) (halive : x.pc ≠ .none)
    (hactive : ∀ q, x.pc ≠ .waiting q) : Chained (s.setProc c x) c rest where
  alive q := by
    by_cases hq : q = c
    · rw [hq, setProc_self]
      exact iff_of_true halive List.mem_cons_self
    · rw [setProc_of_ne hq]
      exact h.alive q
  waits := by
    refine h.waits.congr fun q hq => setProc_of_ne ?_
    rintro rfl
    exact (List.nodup_cons.mp h.nodup).1 hq
  active := by
    rw [setProc_self]
    exact hactive
  nodup := h.nodup
  fresh q hq := by
    have hne : q ≠ c := by
      rintro rfl
      exact (h.alive q).mpr List.mem_cons_self (h.fresh q hq)
    rw [setProc_of_ne hne]
    exact h.fresh q hq

theorem Chained.fork (h : Chained s c rest) (line : List UInt8) :
    Chained (s.onFork c line) s.next (c :: rest) := by
  have hnew : s.next ∉ c :: rest := by
    rw [← h.alive, not_not]
    exact h.fresh s.next (Nat.le_refl _)
  have hc : c ≠ s.next := fun heq => hnew (heq ▸ List.mem_cons_self)
  have hchild : (s.onFork c line).procs s.next = ⟨.child, (s.procs c).buffer⟩ := setProc_self
  have hparent : (s.onFork c line).procs c = ⟨.waiting s.next, (s.procs c).buffer⟩ :=
    (setProc_of_ne hc).trans setProc_self
  have hother : ∀ q, q ≠ s.next → q ≠ c → (s.onFork c line).procs q = s.procs q :=
    fun q hq hqc => (setProc_of_ne hq).trans (setProc_of_ne hqc)
  refine ⟨fun q => ?_, ⟨by rw [hparent], ?_⟩, by rw [hchild]; simp,
    List.nodup_cons.mpr ⟨hnew, h.nodup⟩, fun q hq => ?_⟩
  · by_cases hq : q = s.next
    · rw [hq, hchild]
      exact iff_of_true (by simp) List.mem_cons_self
    · by_cases hqc : q = c
      · rw [hqc, hparent]
        exact iff_of_true (by simp) (List.mem_cons_of_mem _ List.mem_cons_self)
      · rw [hother q hq hqc, h.alive, List.mem_cons (a := q) (b := s.next)]
        exact (or_iff_right hq).symm
  · refine h.waits.congr fun q hq => hother q ?_ ?_
    · rintro rfl
      exact hnew (List.mem_cons_of_mem _ hq)
    · rintro rfl
      exact (List.nodup_cons.mp h.nodup).1 hq
  · have hlt : s.next ≤ q := Nat.le_of_succ_le hq
    have hqc : q ≠ c := by
      rintro rfl
      exact (h.alive q).mpr List.mem_cons_self (h.fresh q hlt)
    rw [hother q (Nat.ne_of_gt hq) hqc]
    exact h.fresh q hlt

/-- The last process has terminated, and the one before it goes on. -/
theorem Chained.waitpid {d : ℕ} (h : Chained s c rest) (hpc : (s.procs p).pc = .waiting d)
    (hexited : (s.procs d).pc = .exited) :
    ∃ rest', rest = p :: rest' ∧ Chained (s.onWaitpid p d) p rest' := by
  obtain rfl : d = c := h.eq_of_active (by simp [hexited]) (by simp [hexited])
  have hmem : p ∈ rest := by
    refine (List.mem_cons.mp ((h.alive p).mp (by simp [hpc]))).resolve_left ?_
    rintro rfl
    exact h.active p hpc
  cases rest with
  | nil => cases hmem
  | cons p' rest' =>
    have hd : d ∉ p' :: rest' := (List.nodup_cons.mp h.nodup).1
    have hnodup : (p' :: rest').Nodup := (List.nodup_cons.mp h.nodup).2
    obtain rfl : p = p' := by
      refine (List.mem_cons.mp hmem).resolve_right fun hlater => ?_
      obtain ⟨q, hq, hwaits⟩ := h.waits.2.waiting hlater
      obtain rfl := Pc.waiting.inj (hpc.symm.trans hwaits)
      exact hd hq
    have hdp : d ≠ p := fun heq => hd (heq ▸ List.mem_cons_self)
    have hgone : (s.onWaitpid p d).procs d = ⟨.none, []⟩ := (setProc_of_ne hdp).trans setProc_self
    have hback : (s.onWaitpid p d).procs p = { s.procs p with pc := .reading } := setProc_self
    have hother : ∀ q, q ≠ d → q ≠ p → (s.onWaitpid p d).procs q = s.procs q :=
      fun q hq hqp => (setProc_of_ne hqp).trans (setProc_of_ne hq)
    refine ⟨rest', rfl, fun q => ?_, ?_, by rw [hback]; simp, hnodup, fun q hq => ?_⟩
    · by_cases hqd : q = d
      · rw [hqd, hgone]
        exact iff_of_false (by simp) hd
      · by_cases hqp : q = p
        · rw [hqp, hback]
          exact iff_of_true (by simp) List.mem_cons_self
        · rw [hother q hqd hqp, h.alive, List.mem_cons]
          exact or_iff_right hqd
    · refine h.waits.2.congr fun q hq => hother q ?_ ?_
      · rintro rfl
        exact hd (List.mem_cons_of_mem _ hq)
      · rintro rfl
        exact (List.nodup_cons.mp hnodup).1 hq
    · have hnone := h.fresh q hq
      rw [hother q ?_ ?_]
      · exact hnone
      · rintro rfl
        rw [hexited] at hnone
        cases hnone
      · rintro rfl
        rw [hpc] at hnone
        cases hnone

theorem Chained.moves (h : Chained s c rest) (hm : Moves s a s') :
    ∃ c' rest', Chained s' c' rest' := by
  cases hm with
  | @read p bs hpc =>
    obtain rfl := h.eq_of_active (p := p) (by simp [hpc]) (by simp [hpc])
    have hnext := h.setLast (x := ⟨.reading, (s.procs p).buffer ++ bs⟩) (by simp) (by simp)
    exact ⟨p, rest, hnext.alive, hnext.waits, hnext.active, hnext.nodup, hnext.fresh⟩
  | @eof p hpc hbuffer hsource =>
    obtain rfl := h.eq_of_active (p := p) (by simp [hpc]) (by simp [hpc])
    exact ⟨p, rest, h.setLast (by simp) (by simp)⟩
  | @line p line more hpc hline =>
    obtain rfl := h.eq_of_active (p := p) (by simp [hpc]) (by simp [hpc])
    refine ⟨p, rest, h.setLast ?_ ?_⟩ <;> unfold afterGetline <;> split <;> simp
  | @fork p line hpc =>
    obtain rfl := h.eq_of_active (p := p) (by simp [hpc]) (by simp [hpc])
    exact ⟨s.next, p :: rest, h.fork line⟩
  | @exec p ok hpc =>
    obtain rfl := h.eq_of_active (p := p) (by simp [hpc]) (by simp [hpc])
    refine ⟨p, rest, h.setLast ?_ ?_⟩ <;> cases ok <;> simp
  | @terminate p hpc =>
    obtain rfl := h.eq_of_active (p := p) (by simp [hpc]) (by simp [hpc])
    exact ⟨p, rest, h.setLast (by simp) (by simp)⟩
  | @waitpid p d hpc hexited =>
    obtain ⟨rest', -, hnext⟩ := h.waitpid hpc hexited
    exact ⟨p, rest', hnext⟩

/-! ## A second shell -/

/-- A process that is going to launch a line. -/
def Hungry (source : List UInt8) (x : Proc) : Prop :=
  match x.pc with
  | .reading => x.buffer ++ source ≠ []
  | .tokenised _ | .overrun _ => True
  | _ => False

/-- Another process than the shell has launched a line, or is going to. -/
def SecondShell (s : Sys) : Prop :=
  ∃ c rest, Chained s c rest ∧ ((∃ e ∈ s.log, e.1 ≠ 0) ∨ (c ≠ 0 ∧ Hungry s.source (s.procs c)))

theorem hungry_afterGetline {line more : List UInt8} :
    Hungry source ⟨afterGetline line, more⟩ := by
  unfold afterGetline
  split <;> trivial

theorem log_prefix_of_moves (hm : Moves s a s') : s.log <+: s'.log := by
  cases hm with
  | fork hpc => exact List.prefix_append _ _
  | _ => exact List.prefix_refl _

/-- **A second shell launches a line before anything else happens.** -/
theorem SecondShell.moves (h : SecondShell s) (hok : kernelAnswers s a) (hm : Moves s a s') :
    SecondShell s' := by
  obtain ⟨c, rest, hchain, hcases⟩ := h
  obtain ⟨c', rest', hchain'⟩ := hchain.moves hm
  rcases hcases with ⟨e, he, hne⟩ | ⟨hc, hhungry⟩
  · exact ⟨c', rest', hchain', Or.inl ⟨e, (log_prefix_of_moves hm).subset he, hne⟩⟩
  · have hlast : ∀ p, (s.procs p).pc ≠ .none → (∀ q, (s.procs p).pc ≠ .waiting q) → p = c :=
      fun p halive hactive => hchain.eq_of_active halive hactive
    cases hm with
    | @read p bs hpc =>
      obtain rfl := hlast p (by simp [hpc]) (by simp [hpc])
      have hnext := hchain.setLast (x := ⟨.reading, (s.procs p).buffer ++ bs⟩) (by simp) (by simp)
      refine ⟨p, rest, ⟨hnext.alive, hnext.waits, hnext.active, hnext.nodup, hnext.fresh⟩,
        Or.inr ⟨hc, ?_⟩⟩
      show Hungry _ ((s.setProc p _).procs p)
      rw [setProc_self]
      show (s.procs p).buffer ++ bs ++ _ ≠ []
      simp [hok.1]
    | @eof p hpc hbuffer hsource =>
      obtain rfl := hlast p (by simp [hpc]) (by simp [hpc])
      rw [Hungry, hpc, hbuffer, hsource] at hhungry
      exact absurd rfl hhungry
    | @line p line more hpc hline =>
      obtain rfl := hlast p (by simp [hpc]) (by simp [hpc])
      refine ⟨p, rest, hchain.setLast ?_ ?_, Or.inr ⟨hc, ?_⟩⟩
      · unfold afterGetline
        split <;> simp
      · unfold afterGetline
        split <;> simp
      · rw [setProc_self]
        exact hungry_afterGetline
    | @fork p line hpc =>
      obtain rfl := hlast p (by simp [hpc]) (by simp [hpc])
      exact ⟨c', rest', hchain', Or.inl ⟨(p, line), by simp [Sys.onFork], hc⟩⟩
    | @exec p ok hpc =>
      obtain rfl := hlast p (by simp [hpc]) (by simp [hpc])
      rw [Hungry, hpc] at hhungry
      exact hhungry.elim
    | @terminate p hpc =>
      obtain rfl := hlast p (by simp [hpc]) (by simp [hpc])
      rw [Hungry, hpc] at hhungry
      exact hhungry.elim
    | @waitpid p d hpc hexited =>
      obtain rfl := hlast d (by simp [hexited]) (by simp [hexited])
      rw [Hungry, hexited] at hhungry
      exact hhungry.elim

theorem secondShell_of_not_endOfInput {c : ℕ} (h : Solo script s) (hchain : Chained s c rest)
    (hmiss : ¬endOfInput s a) (hm : Moves s a s') : SecondShell s' := by
  cases hm with
  | @exec p ok hpc =>
    obtain rfl := hchain.eq_of_active (p := p) (by simp [hpc]) (by simp [hpc])
    have hp := h.ne_shell (Or.inl hpc)
    cases ok with
    | true => exact absurd trivial hmiss
    | false =>
      have hleft : (s.procs p).buffer ++ s.source ≠ [] := by
        rw [Ne, List.append_eq_nil_iff]
        exact hmiss
      refine ⟨p, rest, hchain.setLast (by simp) (by simp), Or.inr ⟨hp, ?_⟩⟩
      rw [setProc_self]
      exact hleft
  | _ => exact absurd trivial hmiss

/-- When the shell has terminated, a second shell has launched a line. -/
theorem SecondShell.launched (h : SecondShell s) (hexited : (s.procs 0).pc = .exited) :
    ∃ e ∈ s.log, e.1 ≠ 0 := by
  obtain ⟨c, rest, hchain, hlaunched | ⟨hc, -⟩⟩ := h
  · exact hlaunched
  · exact absurd (hchain.eq_of_active (by simp [hexited]) (by simp [hexited])).symm hc

/-! ## Runs -/

/-- A process interprets commands: it has read a line. -/
def Pc.interprets : Pc → Bool
  | .tokenised _ | .overrun _ => true
  | _ => false

/-- Alone, the shell has launched everything that was launched. -/
theorem Solo.log_eq (h : Solo script s) : s.log = (s.log.map Prod.snd).map (Prod.mk 0) := by
  rw [List.map_map]
  refine (List.map_id s.log).symm.trans (List.map_congr_left fun e he => ?_)
  obtain ⟨p, line⟩ := e
  have hp : p = 0 := h.log_shell _ he
  rw [hp]
  rfl

theorem Solo.not_interprets (h : Solo script s) (hp : p ≠ 0) : ¬(s.procs p).pc.interprets := by
  have hidle := h.others p hp
  unfold Idle at hidle
  split at hidle <;> simp_all [Pc.interprets]

variable {as : List Act}

/-- **When each line is run once.**  The script, the way it is cut into reads, and the
`execvp` calls that fail are arbitrary.  As long as `execvp` fails only when there is no
input left, the shell itself launches the lines, in order, and no other process has read
one; and in a run in which the shell has come to its end, each line was launched once, by
the shell, exactly if every `execvp` that failed did so with no input left. -/
theorem lines_run_once_iff (script : List UInt8)
    (h : Trace Sys.step kernelAnswers (Sys.init script) as s) :
    (Trace Sys.step (fun s a => kernelAnswers s a ∧ endOfInput s a) (Sys.init script) as s →
      (∃ launched, launched <+: linesOf script ∧ s.log = launched.map (Prod.mk 0)) ∧
        ∀ p ≠ 0, ¬(s.procs p).pc.interprets) ∧
    ((s.procs 0).pc = .exited →
      (s.log = (linesOf script).map (Prod.mk 0) ↔
        Trace Sys.step (fun s a => kernelAnswers s a ∧ endOfInput s a) (Sys.init script)
          as s)) := by
  have hkeep : ∀ s a t, (Solo script s ∧ ∃ c rest, Chained s c rest) → kernelAnswers s a →
      endOfInput s a → s.step a = some t → Solo script t ∧ ∃ c rest, Chained t c rest := by
    rintro s a t ⟨hsolo, c, rest, hchain⟩ hok hmet hstep
    exact ⟨hsolo.moves hok hmet (moves_of_step hstep), hchain.moves (moves_of_step hstep)⟩
  have hmiss : ∀ s a t, (Solo script s ∧ ∃ c rest, Chained s c rest) → kernelAnswers s a →
      ¬endOfInput s a → s.step a = some t → SecondShell t := by
    rintro s a t ⟨hsolo, c, rest, hchain⟩ - hnot hstep
    exact secondShell_of_not_endOfInput hsolo hchain hnot (moves_of_step hstep)
  have hlater : ∀ s a t, SecondShell s → kernelAnswers s a → s.step a = some t → SecondShell t :=
    fun s a t hs hok hstep => hs.moves hok (moves_of_step hstep)
  have hstart : Solo script (Sys.init script) ∧ ∃ c rest, Chained (Sys.init script) c rest :=
    ⟨solo_init script, 0, [], chained_init script⟩
  have hsolo : Trace Sys.step (fun s a => kernelAnswers s a ∧ endOfInput s a) (Sys.init script)
      as s → Solo script s := fun hmet =>
    (hmet.invariant (fun s a t hs hok hstep => hkeep s a t hs hok.1 hok.2 hstep) hstart).1
  refine ⟨fun hmet => ⟨?_, fun p hp => (hsolo hmet).not_interprets hp⟩, fun hexited => ⟨?_, ?_⟩⟩
  · obtain ⟨lines, -, hall⟩ := (hsolo hmet).shell
    exact ⟨s.log.map Prod.snd, ⟨lines, hall⟩, (hsolo hmet).log_eq⟩
  · intro hlog
    rcases h.met_or_doomed hkeep hmiss hlater hstart with ⟨-, hmet⟩ | hsecond
    · exact hmet
    · obtain ⟨e, he, hne⟩ := hsecond.launched hexited
      rw [hlog] at he
      obtain ⟨line, -, rfl⟩ := List.mem_map.mp he
      exact absurd rfl hne
  · intro hmet
    obtain ⟨lines, hlines, hall⟩ := (hsolo hmet).shell
    rw [Ahead, hexited] at hlines
    rw [hlines, List.append_nil] at hall
    rw [(hsolo hmet).log_eq, hall]

/-- `"x\n"` and `"y\n"`. -/
def twoLines : List UInt8 := [120, 10, 121, 10]

/-- Both lines are read ahead, and the second program does not exist. -/
def lastFails : List Act :=
  [.read 0 [120, 10, 121, 10], .getline 0, .fork 0, .exec 1 true, .terminate 1, .waitpid 0,
    .getline 0, .fork 0, .exec 2 false, .getline 2, .waitpid 0, .getline 0]

/-- Each line is launched once. -/
theorem lines_run_once_lastFails :
    ∃ s, Trace Sys.step kernelAnswers (Sys.init twoLines) lastFails s ∧
      s.log = [(0, [120, 10]), (0, [121, 10])] := by
  obtain ⟨s, h, hp⟩ := Trace.exists_of_eval Sys.step
    (fun s a => kernelAnswers s a ∧ endOfInput s a) (fun s => (s.procs 0).pc = .exited)
    (Sys.init twoLines) lastFails (by decide)
  have hrun : Trace Sys.step kernelAnswers (Sys.init twoLines) lastFails s :=
    h.mono fun _ _ hok => hok.1
  exact ⟨s, hrun, ((lines_run_once_iff twoLines hrun).2 (of_decide_eq_true hp)).mpr h⟩

/-- Both lines are read ahead, and the first program does not exist. -/
def firstFails : List Act :=
  [.read 0 [120, 10, 121, 10], .getline 0, .fork 0, .exec 1 false, .getline 1, .fork 1,
    .exec 2 true, .terminate 2, .waitpid 1, .getline 1, .waitpid 0, .getline 0, .fork 0,
    .exec 3 true, .terminate 3, .waitpid 0, .getline 0]

/-- **The second line is launched twice**, by the child that could not start the first
program and by the shell. -/
theorem line_run_twice_firstFails :
    ∃ s, Trace Sys.step kernelAnswers (Sys.init twoLines) firstFails s ∧
      s.log = [(0, [120, 10]), (1, [121, 10]), (0, [121, 10])] := by
  obtain ⟨s, h, hp⟩ := Trace.exists_of_eval Sys.step kernelAnswers
    (fun s => s.log = [(0, [120, 10]), (1, [121, 10]), (0, [121, 10])])
    (Sys.init twoLines) firstFails (by decide)
  exact ⟨s, h, of_decide_eq_true hp⟩

end Processes
end CaosSeminars
