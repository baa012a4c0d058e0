import CaosSeminars.Signals.Sigprocmask

/-!
# Waiting for blocked signals

`sigwaitinfo_demo.c` and `signalfd_demo.c` install no handler.  They block the signals they are
interested in and take them one by one, the first with `sigwaitinfo`, the second by reading from a
descriptor.

There is no window in which a signal can get lost: each one that is sent is followed by a line of
its own number.  Real-time signals are counted, the others are merged while they wait.  What can
disappear are stop signals, which the kernel discards when the process is continued; and a
`sigwaitinfo` that is interrupted by this prints a line that reports nothing.

* `Demo.step`, `Demo.reaches`: the loops, and the signals that are blocked when they come.
* `Accounted`: what was sent is reported, in hand or waits, with one lemma for each step.
* `signals_reported`: the accounts of every run.

The signals 32 and 33 are not blocked, since `sigfillset` leaves them out.  How many real-time
signals can wait is limited; the limit is taken not to be reached.
-/

namespace CaosSeminars
namespace Signals
namespace Sigwait

/-! ## The programs -/

def SIGKILL : ℕ := 9

def SIGCONT : ℕ := 18

def SIGSTOP : ℕ := 19

/-- `SIGSTOP`, `SIGTSTP`, `SIGTTIN` and `SIGTTOU`. -/
def stops (signum : ℕ) : Bool := 19 ≤ signum && signum ≤ 22

/-- Signals of the number are queued, and not merged. -/
def queued (signum : ℕ) : Bool := 32 ≤ signum

/-- The two programs. -/
inductive Demo where
  | sigwaitinfoDemo
  | signalfdDemo
  deriving DecidableEq

/-- `mask`. -/
def Demo.mask : Demo → SigSet
  | sigwaitinfoDemo => Sigprocmask.sigaddset sigemptyset SIGINT
  | signalfdDemo => sigdelset sigfillset SIGCONT

/-- The signals blocked after `sigprocmask`; the kernel leaves out two of them. -/
def Demo.blocked (demo : Demo) : SigSet :=
  sigdelset (sigdelset (Sigprocmask.block demo.mask sigemptyset) SIGKILL) SIGSTOP

/-- Where the loop is. -/
inductive Pos where
  /-- In `sigwaitinfo`, or in `read`. -/
  | waiting
  /-- `printf` comes next; for `sigwaitinfo`, with what it has returned. -/
  | printing (signum : ℤ)
  deriving DecidableEq

/-- A line: the number in `info` or in `fdsi`, and for `sigwaitinfo` what it has returned. -/
structure Line where
  signo : ℤ
  signum : Option ℤ
  deriving DecidableEq

/-- The line reports a signal of the number. -/
def Line.reports (line : Line) (n : ℕ) : Bool :=
  line.signo = n && (line.signum = none || line.signum = some ↑n)

/-- A signal was sent, or a line was printed. -/
inductive Mark where
  | sent (n : ℕ)
  | printed (line : Line)
  deriving DecidableEq

/-- The loop, the number in `info` or in `fdsi`, the signals that wait, and the history. -/
structure State where
  pos : Pos
  signo : ℤ
  pending : List ℕ
  log : List Mark
  deriving DecidableEq

/-- In front of the loop; `info` and `fdsi` are not initialised. -/
def State.init (junk : ℤ) : State := ⟨.waiting, junk, [], []⟩

inductive Act where
  /-- A signal is sent. -/
  | send (n : ℕ)
  /-- The process is sent `SIGCONT`. -/
  | cont
  /-- The call returns with a signal. -/
  | take (n : ℕ)
  /-- `sigwaitinfo` fails with `EINTR`. -/
  | interrupt
  /-- `printf`. -/
  | print
  deriving DecidableEq

/-- A signal joins those that wait. -/
def raise (n : ℕ) (pending : List ℕ) : List ℕ :=
  if n ∈ pending ∧ queued n = false then pending else pending ++ [n]

/-- What `printf` shows. -/
def Demo.line (demo : Demo) (signo signum : ℤ) : Line :=
  match demo with
  | sigwaitinfoDemo => ⟨signo, some signum⟩
  | signalfdDemo => ⟨signo, none⟩

/-- One step.  Which of the signals that wait is taken is left to the kernel. -/
def Demo.step (demo : Demo) (s : State) : Act → Option State
  | .send n => some { s with pending := raise n s.pending, log := s.log ++ [.sent n] }
  | .cont => some { s with pending := s.pending.filter fun n => !stops n }
  | .take n =>
    if s.pos = .waiting ∧ n ∈ s.pending then
      some { s with pos := .printing n, signo := n, pending := s.pending.erase n }
    else none
  | .interrupt =>
    if s.pos = .waiting ∧ demo = .sigwaitinfoDemo then some { s with pos := .printing (-1) }
    else none
  | .print =>
    match s.pos with
    | .printing signum =>
      some { s with pos := .waiting, log := s.log ++ [.printed (demo.line s.signo signum)] }
    | .waiting => none

/-- Only signals that are blocked reach the loop. -/
def Demo.reaches (demo : Demo) (_ : State) : Act → Prop
  | .send n => demo.blocked n = true
  | .cont | .take _ | .interrupt | .print => True

instance (demo : Demo) (s : State) : (a : Act) → Decidable (demo.reaches s a)
  | .send _ => inferInstanceAs (Decidable (_ = true))
  | .cont | .take _ | .interrupt | .print => inferInstanceAs (Decidable True)

/-! ## The history -/

/-- How many signals of the number were sent. -/
def sent (n : ℕ) (log : List Mark) : ℕ := log.count (.sent n)

/-- The mark is a line that reports a signal of the number. -/
def Mark.reports (n : ℕ) : Mark → Bool
  | .sent _ => false
  | .printed line => line.reports n

/-- How many lines report a signal of the number. -/
def reported (n : ℕ) (log : List Mark) : ℕ := log.countP (Mark.reports n)

/-- A signal of the number was sent, and no line has reported it since. -/
def Owed (n : ℕ) (log : List Mark) : Prop :=
  ∃ before after, log = before ++ .sent n :: after ∧ ∀ m ∈ after, m.reports n = false

variable {demo : Demo} {s s' : State} {a : Act} {as : List Act} {m : Mark} {log : List Mark}
  {n : ℕ}

theorem sent_append (n : ℕ) (log : List Mark) (m : Mark) :
    sent n (log ++ [m]) = sent n log + if m = .sent n then 1 else 0 := by
  simp only [sent, List.count_append, List.count_singleton, beq_iff_eq]

theorem reported_append (n : ℕ) (log : List Mark) (m : Mark) :
    reported n (log ++ [m]) = reported n log + if m.reports n then 1 else 0 := by
  simp only [reported, List.countP_append, List.countP_singleton]

/-- A line is owed for the last mark, or was owed before it. -/
theorem Owed.of_append (h : Owed n (log ++ [m])) :
    m = .sent n ∨ Owed n log ∧ m.reports n = false := by
  obtain ⟨before, after, hlog, hafter⟩ := h
  rcases List.eq_nil_or_concat after with rfl | ⟨rest, m', rfl⟩
  · obtain ⟨-, hm⟩ := List.append_inj' hlog rfl
    exact .inl (List.singleton_inj.mp hm)
  · rw [List.concat_eq_append, ← List.cons_append, ← List.append_assoc] at hlog
    obtain ⟨hrest, hm⟩ := List.append_inj' hlog rfl
    obtain rfl := List.singleton_inj.mp hm
    refine .inr ⟨⟨before, rest, hrest, fun m' hm' => hafter m' ?_⟩, hafter m ?_⟩
    · rw [List.concat_eq_append]
      exact List.mem_append_left _ hm'
    · rw [List.concat_eq_append]
      exact List.mem_append_right _ (List.mem_singleton_self m)

/-! ## What waits -/

theorem mem_raise {k : ℕ} {pending : List ℕ} (h : n = k ∨ n ∈ pending) : n ∈ raise k pending := by
  unfold raise
  split
  · rename_i hmerged
    exact h.elim (fun heq => heq ▸ hmerged.1) id
  · refine h.elim (fun heq => ?_) fun hmem => List.mem_append_left _ hmem
    exact heq ▸ List.mem_append_right _ (List.mem_singleton_self n)

theorem count_raise_le (n k : ℕ) (pending : List ℕ) :
    (raise k pending).count n ≤ pending.count n + if k = n then 1 else 0 := by
  unfold raise
  split
  · exact Nat.le_add_right _ _
  · rw [List.count_append, List.count_singleton]
    simp only [beq_iff_eq, le_refl]

theorem count_raise (hn : queued n = true) (k : ℕ) (pending : List ℕ) :
    (raise k pending).count n = pending.count n + if k = n then 1 else 0 := by
  unfold raise
  split
  · rename_i hmerged
    have hne : k ≠ n := by
      rintro rfl
      rw [hmerged.2] at hn
      cases hn
    rw [if_neg hne, Nat.add_zero]
  · rw [List.count_append, List.count_singleton]
    simp only [beq_iff_eq]

theorem stops_of_queued (hn : queued n = true) : stops n = false := by
  simp only [queued, stops, decide_eq_true_eq, Bool.and_eq_false_iff, decide_eq_false_iff_not] at *
  omega

/-- A signal of the number was taken, and its line comes next. -/
def State.inHand (s : State) (n : ℕ) : ℕ := if s.pos = .printing n then 1 else 0

/-! ## The accounts -/

/-- Where the signals are that were sent. -/
structure Accounted (demo : Demo) (s : State) : Prop where
  /-- `printf` shows the signal that was taken, unless there was none. -/
  shown : ∀ r, s.pos = .printing r → s.signo = r ∨ demo = .sigwaitinfoDemo ∧ r < 0
  /-- No line is without a signal. -/
  bound : ∀ n, reported n s.log + s.inHand n + s.pending.count n ≤ sent n s.log
  /-- Real-time signals are counted. -/
  exact : ∀ n, queued n → reported n s.log + s.inHand n + s.pending.count n = sent n s.log
  /-- No signal is forgotten. -/
  owed : ∀ n, stops n = false → Owed n s.log → n ∈ s.pending ∨ s.pos = .printing n

theorem accounted_init (demo : Demo) (junk : ℤ) : Accounted demo (State.init junk) where
  shown _ h := by cases h
  bound _ := Nat.le_refl 0
  exact _ _ := rfl
  owed _ _ h := by
    obtain ⟨before, after, hlog, -⟩ := h
    exact absurd hlog.symm (List.append_ne_nil_of_right_ne_nil _ (List.cons_ne_nil _ _))

theorem Accounted.send (h : Accounted demo s) (k : ℕ) :
    Accounted demo { s with pending := raise k s.pending, log := s.log ++ [.sent k] } where
  shown := h.shown
  bound n := by
    show reported n (s.log ++ [.sent k]) + s.inHand n + (raise k s.pending).count n ≤
      sent n (s.log ++ [.sent k])
    have hbound := h.bound n
    have hraise := count_raise_le n k s.pending
    rw [reported_append, sent_append, Mark.reports, if_neg Bool.false_ne_true]
    simp only [Mark.sent.injEq]
    omega
  exact n hn := by
    show reported n (s.log ++ [.sent k]) + s.inHand n + (raise k s.pending).count n =
      sent n (s.log ++ [.sent k])
    have hexact := h.exact n hn
    rw [reported_append, sent_append, Mark.reports, if_neg Bool.false_ne_true, count_raise hn]
    simp only [Mark.sent.injEq]
    omega
  owed n hn howed := by
    rcases Owed.of_append howed with heq | ⟨hold, -⟩
    · exact .inl (mem_raise (.inl (Mark.sent.inj heq).symm))
    · exact (h.owed n hn hold).imp_left fun hmem => mem_raise (.inr hmem)

/-- The stop signals that wait are discarded. -/
theorem Accounted.cont (h : Accounted demo s) :
    Accounted demo { s with pending := s.pending.filter fun n => !stops n } where
  shown := h.shown
  bound n := by
    refine le_trans ?_ (h.bound n)
    exact Nat.add_le_add_left (List.filter_sublist.count_le n) _
  exact n hn := by
    rw [← h.exact n hn]
    refine congrArg (_ + ·) (List.count_filter ?_)
    rw [stops_of_queued hn]
    rfl
  owed n hn howed := by
    refine (h.owed n hn howed).imp_left fun hmem => List.mem_filter.mpr ⟨hmem, ?_⟩
    rw [hn]
    rfl

theorem Accounted.take (h : Accounted demo s) (hpos : s.pos = .waiting) {k : ℕ}
    (hk : k ∈ s.pending) :
    Accounted demo { s with pos := .printing k, signo := k, pending := s.pending.erase k } := by
  have hcount (n : ℕ) : (if (k : ℤ) = n then 1 else 0) + (s.pending.erase k).count n =
      s.inHand n + s.pending.count n := by
    have hidle : s.inHand n = 0 := by
      rw [State.inHand, hpos, if_neg (by simp)]
    rw [hidle, Nat.zero_add, List.count_erase]
    by_cases hkn : k = n
    · have hpos := List.count_pos_iff.mpr hk
      rw [hkn] at hpos ⊢
      simp only [if_true, beq_self_eq_true]
      omega
    · have hcast : (k : ℤ) ≠ n := fun heq => hkn (Int.ofNat_inj.mp heq)
      simp [hkn, hcast]
  have hhand (n : ℕ) : (if Pos.printing (k : ℤ) = .printing (n : ℤ) then 1 else 0) =
      if (k : ℤ) = n then 1 else 0 := by simp only [Pos.printing.injEq]
  refine ⟨fun r hr => .inl (Pos.printing.inj hr), fun n => ?_, fun n hn => ?_,
    fun n hn howed => ?_⟩
  · show reported n s.log + (if Pos.printing (k : ℤ) = .printing (n : ℤ) then 1 else 0) +
      (s.pending.erase k).count n ≤ sent n s.log
    rw [hhand, Nat.add_assoc, hcount, ← Nat.add_assoc]
    exact h.bound n
  · show reported n s.log + (if Pos.printing (k : ℤ) = .printing (n : ℤ) then 1 else 0) +
      (s.pending.erase k).count n = sent n s.log
    rw [hhand, Nat.add_assoc, hcount, ← Nat.add_assoc]
    exact h.exact n hn
  · rcases h.owed n hn howed with hmem | hprint
    · by_cases hnk : n = k
      · exact .inr (congrArg Pos.printing (by rw [hnk]))
      · exact .inl ((List.mem_erase_of_ne hnk).mpr hmem)
    · rw [hpos] at hprint
      cases hprint

theorem Accounted.interrupt (h : Accounted demo s) (hpos : s.pos = .waiting)
    (hdemo : demo = .sigwaitinfoDemo) :
    Accounted demo { s with pos := .printing (-1) } := by
  have hnot (n : ℕ) : Pos.printing (-1) ≠ .printing (n : ℤ) := fun heq => by
    have := Pos.printing.inj heq
    omega
  have hhand (n : ℕ) : (if Pos.printing (-1) = .printing (n : ℤ) then 1 else 0) = s.inHand n := by
    rw [if_neg (hnot n), State.inHand, hpos, if_neg (by simp)]
  refine ⟨fun r hr => .inr ⟨hdemo, ?_⟩, fun n => ?_, fun n hn => ?_, fun n hn howed => ?_⟩
  · rw [← Pos.printing.inj hr]
    decide
  · show reported n s.log + (if Pos.printing (-1) = .printing (n : ℤ) then 1 else 0) +
      s.pending.count n ≤ sent n s.log
    rw [hhand]
    exact h.bound n
  · show reported n s.log + (if Pos.printing (-1) = .printing (n : ℤ) then 1 else 0) +
      s.pending.count n = sent n s.log
    rw [hhand]
    exact h.exact n hn
  · refine (h.owed n hn howed).imp_right fun hprint => ?_
    rw [hpos] at hprint
    cases hprint

/-- The line reports what was taken, and nothing else. -/
theorem Accounted.reports_line (h : Accounted demo s) {r : ℤ} (hpos : s.pos = .printing r) (n : ℕ) :
    (demo.line s.signo r).reports n = decide (r = n) := by
  cases demo with
  | sigwaitinfoDemo =>
    rcases h.shown r hpos with hsigno | ⟨-, hr⟩
    · simp [Demo.line, Line.reports, hsigno]
    · have hne : r ≠ n := by omega
      simp [Demo.line, Line.reports, hne]
  | signalfdDemo =>
    rcases h.shown r hpos with hsigno | ⟨hdemo, -⟩
    · simp [Demo.line, Line.reports, hsigno]
    · cases hdemo

theorem Accounted.print (h : Accounted demo s) {r : ℤ} (hpos : s.pos = .printing r) :
    Accounted demo { s with
      pos := .waiting, log := s.log ++ [.printed (demo.line s.signo r)] } := by
  have hreports (n : ℕ) : (Mark.printed (demo.line s.signo r)).reports n = decide (r = n) :=
    h.reports_line hpos n
  have hcount (n : ℕ) : reported n (s.log ++ [.printed (demo.line s.signo r)]) =
      reported n s.log + s.inHand n := by
    rw [reported_append, hreports, State.inHand, hpos]
    simp only [decide_eq_true_eq, Pos.printing.injEq]
  have hsent (n : ℕ) : sent n (s.log ++ [.printed (demo.line s.signo r)]) = sent n s.log := by
    rw [sent_append, if_neg (by simp), Nat.add_zero]
  refine ⟨nofun, fun n => ?_, fun n hn => ?_, fun n hn howed => ?_⟩
  · show reported n (s.log ++ _) + 0 + s.pending.count n ≤ sent n (s.log ++ _)
    rw [hcount, hsent]
    exact h.bound n
  · show reported n (s.log ++ _) + 0 + s.pending.count n = sent n (s.log ++ _)
    rw [hcount, hsent]
    exact h.exact n hn
  · rcases Owed.of_append howed with heq | ⟨hold, hnot⟩
    · cases heq
    · refine (h.owed n hn hold).imp_right fun hprint => ?_
      rw [hreports, decide_eq_false_iff_not] at hnot
      rw [hpos] at hprint
      exact absurd (Pos.printing.inj hprint) hnot

theorem Accounted.step (h : Accounted demo s) (hstep : demo.step s a = some s') :
    Accounted demo s' := by
  cases a with
  | send n =>
    obtain rfl := Option.some.inj hstep
    exact h.send n
  | cont =>
    obtain rfl := Option.some.inj hstep
    exact h.cont
  | take n =>
    obtain ⟨⟨hpos, hmem⟩, ⟨⟩⟩ := Option.ite_none_right_eq_some.mp hstep
    exact h.take hpos hmem
  | interrupt =>
    obtain ⟨⟨hpos, hdemo⟩, ⟨⟩⟩ := Option.ite_none_right_eq_some.mp hstep
    exact h.interrupt hpos hdemo
  | print =>
    simp only [Demo.step] at hstep
    split at hstep
    · rename_i r hpos
      obtain rfl := Option.some.inj hstep
      exact h.print hpos
    · cases hstep

/-- **Blocked signals are not lost.**  In either program, at any moment of any run: there are no
more lines that report a signal than such signals were sent; a real-time signal that was sent is
reported, or about to be, or waits; and when nothing waits and the loop does, every signal but the
stop signals has been reported since it was sent for the last time, and each real-time signal as
often as it was sent. -/
theorem signals_reported (demo : Demo) (junk : ℤ)
    (h : Trace demo.step demo.reaches (State.init junk) as s) (n : ℕ) :
    reported n s.log ≤ sent n s.log ∧
      (queued n → reported n s.log + s.inHand n + s.pending.count n = sent n s.log) ∧
      (s.pos = .waiting → s.pending = [] →
        (stops n = false → ¬Owed n s.log) ∧ (queued n → reported n s.log = sent n s.log)) := by
  have hs := h.invariant (fun _ _ _ hs _ hstep => Accounted.step hs hstep)
    (accounted_init demo junk)
  refine ⟨?_, hs.exact n, fun hpos hpending => ⟨fun hn howed => ?_, fun hn => ?_⟩⟩
  · have hbound := hs.bound n
    omega
  · rcases hs.owed n hn howed with hmem | hprint
    · rw [hpending] at hmem
      cases hmem
    · rw [hpos] at hprint
      cases hprint
  · have hexact := hs.exact n hn
    rwa [State.inHand, hpos, if_neg (by simp), hpending] at hexact

/-- `SIGINT` and the first real-time signal, two of each. -/
def twoOfEach : List Act :=
  [.send 2, .send 34, .send 2, .send 34, .take 2, .print, .take 34, .print, .take 34, .print]

/-- There are three lines for the four signals. -/
theorem signals_reported_twoOfEach :
    ∃ s, Trace Demo.signalfdDemo.step Demo.signalfdDemo.reaches (State.init 0) twoOfEach s ∧
      (reported 2 s.log = 1 ∧ ¬Owed 2 s.log) ∧ reported 34 s.log = 2 := by
  obtain ⟨s, h, hp⟩ := Trace.exists_of_eval Demo.signalfdDemo.step Demo.signalfdDemo.reaches
    (fun s => s.pos = .waiting ∧ s.pending = [] ∧ reported 2 s.log = 1 ∧ sent 34 s.log = 2)
    (State.init 0) twoOfEach (by decide)
  obtain ⟨hpos, hpending, hlines, hsent⟩ := of_decide_eq_true hp
  exact ⟨s, h, ⟨hlines, ((signals_reported _ _ h 2).2.2 hpos hpending).1 rfl⟩,
    (((signals_reported _ _ h 34).2.2 hpos hpending).2 rfl).trans hsent⟩

end Sigwait
end Signals
end CaosSeminars
