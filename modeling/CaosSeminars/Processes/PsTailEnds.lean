import CaosSeminars.Processes.PsTailRuns
import CaosSeminars.Library.Potential

/-!
# `pipe.c` comes to an end

A process that waits is waited for by nobody who could help it.  When `tail` waits for bytes, the
pipe is empty, and whoever has the write end open is `main` on its way to close it or the first
child, which can write or exit.  When `ps` waits for room, the pipe is full, and `tail` can read.
When `main` waits for a child that has not ended, that child or the other one can make a step
(`exists_step_of_alive`).  So some process can always make a step until `main` has exited, and since
every step uses up one of a number of steps that is known in advance, `main` exits.

How it exits, and what its standard output has got by then, follows from how the children have ended
and from nothing else (`exit_report`).

* `Control.exists_read`, `Control.exists_write` --- a child at the pipe can go on, or is
  waited for by one that can.
* `Control.left_lt` --- the number of steps that are left falls with every step.
* `never_hangs` --- both together: a run is as long as that number at most, and no step is
  possible **iff** `main` has exited.
* `exit_report` --- how `main` exits and what its standard output has got, for each way in
  which the forks and the programs can fail.
-/

namespace CaosSeminars
namespace PsTail

variable {capacity : ℕ} {lastLines : List UInt8 → List UInt8} {listing : List UInt8}
  {s s' : State} {c : Bool} {pc : ChildPc}

/-! ## Nobody waits for ever -/

theorem Control.stdout_of_running (h : Control s) (hpc : s.children false = .running) :
    s.childFds false .stdout = some .writeEnd := by
  rw [h.childFds, hpc]
  rfl

theorem Control.stdin_of_running (h : Control s) (hpc : s.children true = .running) :
    s.childFds true .stdin = some .readEnd := by
  rw [h.childFds, hpc]
  rfl

theorem exists_step_of_ne_running (halive : (s.children c).alive = true)
    (hnot : s.children c ≠ .running) : ∃ a s', s.step capacity lastLines a = some s' := by
  refine ⟨.child c, ?_⟩
  show ∃ s', s.stepChild lastLines c = some s'
  cases hpc : s.children c with
  | notForked | zombie st | reaped st => rw [hpc] at halive; cases halive
  | running => exact absurd hpc hnot
  | dup2 | closeRead | closeWrite | exec | finishing => exact ⟨_, by rw [State.stepChild, hpc]⟩

/-- `tail` can read when there is something in the pipe. -/
theorem Control.exists_read (h : Control s) (hpc : s.children true = .running)
    (hcontent : s.content ≠ []) : ∃ a s', s.step capacity lastLines a = some s' := by
  have hread : s.childFds true .stdin = some .readEnd ∧ 0 < 1 ∧ 1 ≤ s.content.length :=
    ⟨h.stdin_of_running hpc, Nat.one_pos, List.length_pos_iff.mpr hcontent⟩
  refine ⟨.transfer true 1, ?_⟩
  show ∃ s', s.stepTransfer capacity true 1 = some s'
  exact ⟨_, by rw [State.stepTransfer, hpc]; exact if_pos hread⟩

/-- `ps` can write or exit when the pipe is not full, and is killed when nobody reads. -/
theorem Control.exists_write (h : Control s) (hpc : s.children false = .running)
    (hroom : s.isOpen .readEnd = true → s.content.length + 1 ≤ capacity) :
    ∃ a s', s.step capacity lastLines a = some s' := by
  have hfd := h.stdout_of_running hpc
  by_cases hend : s.toWrite = []
  · refine ⟨.child false, s.exit false .exited, ?_⟩
    show s.stepChild lastLines false = _
    rw [State.stepChild, hpc]
    exact if_pos hend
  by_cases hreaders : s.isOpen .readEnd = true
  · refine ⟨.transfer false 1, ?_⟩
    show ∃ s', s.stepTransfer capacity false 1 = some s'
    have hn : 0 < 1 ∧ 1 ≤ s.toWrite.length := ⟨Nat.one_pos, List.length_pos_iff.mpr hend⟩
    exact ⟨_, by
      rw [State.stepTransfer, hpc]
      refine (if_pos hn).trans ?_
      rw [hfd]
      exact if_pos ⟨hreaders, hroom hreaders⟩⟩
  · refine ⟨.child false, s.exit false .killed, ?_⟩
    show s.stepChild lastLines false = _
    rw [State.stepChild, hpc]
    exact (if_neg hend).trans (if_pos ⟨hfd, Bool.eq_false_iff.mpr hreaders⟩)

/-- **While `main` waits, a child that has not ended is not stuck**, or the other one is not. -/
theorem Control.exists_step_of_alive (h : Control s) (hcap : 0 < capacity)
    (hwaits : s.main.waits = true) (halive : (s.children c).alive = true) :
    ∃ a s', s.step capacity lastLines a = some s' := by
  by_cases hpc : s.children c = .running
  swap
  · exact exists_step_of_ne_running halive hpc
  cases c with
  | true =>
    by_cases hcontent : s.content = []
    swap
    · exact h.exists_read hpc hcontent
    by_cases hwriters : s.isOpen .writeEnd = true
    · -- the first child has the write end, for `main` has closed it
      rw [h.isOpen_writeEnd] at hwriters
      have hfirst : (s.children false).alive = true := by
        revert hwriters hwaits
        cases s.main <;> simp [MainPc.waits]
      by_cases hrun : s.children false = .running
      · refine h.exists_write hrun fun _ => ?_
        rw [hcontent]
        exact hcap
      · exact exists_step_of_ne_running hfirst hrun
    · have hend : s.childFds true .stdin = some .readEnd ∧ s.content = [] ∧
          s.isOpen .writeEnd = false :=
        ⟨h.stdin_of_running hpc, hcontent, Bool.eq_false_iff.mpr hwriters⟩
      refine ⟨.child true, s.setChild true .finishing (s.childFds true), ?_⟩
      show s.stepChild lastLines true = _
      rw [State.stepChild, hpc]
      exact if_pos hend
  | false =>
    by_cases hroom : s.content.length + 1 ≤ capacity
    · exact h.exists_write hpc fun _ => hroom
    have hcontent : s.content ≠ [] := by
      rintro hnil
      rw [hnil] at hroom
      exact hroom hcap
    by_cases hsecond : (s.children true).alive = true
    · by_cases hrun : s.children true = .running
      · exact h.exists_read hrun hcontent
      · exact exists_step_of_ne_running hsecond hrun
    · -- nobody has the read end
      refine h.exists_write hpc fun hreaders => ?_
      rw [h.isOpen_readEnd, hwaits, hpc, Bool.eq_false_iff.mpr hsecond, Bool.not_true,
        Bool.and_false] at hreaders
      cases hreaders

/-- `main` has a child to wait for, or nothing to wait for. -/
theorem Control.exists_step_main (h : Control s) (hcap : 0 < capacity)
    (hmain : s.main ≠ .returned ∧ s.main ≠ .aborted) :
    ∃ a s', s.step capacity lastLines a = some s' := by
  cases hpc : s.main with
  | pipe | forking c | closing c =>
    refine ⟨.main, ?_⟩
    show ∃ s', s.stepMain = some s'
    exact ⟨_, by rw [State.stepMain, hpc]⟩
  | returned => exact absurd hpc hmain.1
  | aborted => exact absurd hpc hmain.2
  | waiting c =>
    by_cases hnone : ∀ d, s.awaits c d = true → (s.children d).unreaped = false
    · refine ⟨.main, ?_⟩
      show ∃ s', s.stepMain = some s'
      exact ⟨_, by rw [State.stepMain, hpc]; exact if_pos hnone⟩
    push Not at hnone
    obtain ⟨d, hd, hunreaped⟩ := hnone
    by_cases halive : (s.children d).alive = true
    · exact h.exists_step_of_alive hcap (by rw [hpc]; rfl) halive
    · obtain ⟨st, hzombie⟩ : ∃ st, s.children d = .zombie st := by
        revert hunreaped halive
        cases s.children d <;> simp [ChildPc.unreaped, ChildPc.alive]
      refine ⟨.reap d, ?_⟩
      show ∃ s', s.stepReap d = some s'
      exact ⟨_, by rw [State.stepReap, hpc, hzombie]; exact if_pos hd⟩

/-- When `main` has exited, no child is left. -/
theorem Inv.gone (h : Inv lastLines listing s) (hmain : s.main = .returned ∨ s.main = .aborted)
    (c : Bool) : (s.children c).isReaped = s.pids c := by
  have hreaped := h.reaped.children c
  rcases hmain with hmain | hmain
  · have hpids := h.reaped.pids
    rw [hmain] at hpids hreaped
    obtain ⟨hfirst, hsecond⟩ := Bool.and_eq_true_iff.mp hpids
    rw [hreaped]
    cases c
    · exact hfirst.symm
    · exact hsecond.symm
  · rw [hmain] at hreaped
    exact hreaped

theorem Inv.notForked_or_reaped (h : Inv lastLines listing s)
    (hmain : s.main = .returned ∨ s.main = .aborted) (c : Bool) :
    s.children c = .notForked ∨ ∃ st, s.children c = .reaped st := by
  have hgone := h.gone hmain c
  cases hpid : s.pids c with
  | false => exact Or.inl ((h.control.forked c).mpr hpid)
  | true =>
    rw [hpid] at hgone
    cases hpc : s.children c with
    | reaped st => exact Or.inr ⟨st, rfl⟩
    | _ => rw [hpc] at hgone; cases hgone

theorem Inv.no_moves (h : Inv lastLines listing s) (hmain : s.main = .returned ∨ s.main = .aborted)
    (hmove : Moves capacity lastLines s s') : False := by
  have hchild {c : Bool} {pc : ChildPc} (hpc : s.children c = pc) (hborn : pc ≠ .notForked)
      (hpcs : pc.isReaped = false) : False := by
    have hreaped := h.gone hmain c
    rw [hpc, hpcs] at hreaped
    exact hborn (hpc.symm.trans ((h.control.forked c).mpr hreaped.symm))
  have hlive {main : MainPc} (hpc : s.main = main) (hr : main ≠ .returned) (ha : main ≠ .aborted) :
      False := by
    rcases hmain with hmain | hmain
    · exact hr (hpc.symm.trans hmain)
    · exact ha (hpc.symm.trans hmain)
  cases hmove with
  | pipe hpc | fork c hpc | forkFails c hpc | close c hpc | noChild c hpc hnone
  | reap c d st hpc => exact hlive hpc nofun nofun
  | dup2 c hpc | closeRead c hpc | closeWrite c hpc | exec c hpc | execFails c hpc
  | finish c hpc => exact hchild hpc nofun rfl
  | endOfStream hpc | written hpc | sigpipe hpc | write n hpc | print n hpc | read n hpc =>
    exact hchild hpc nofun rfl

/-! ## The number of steps -/

/-- The steps that `main` has left, and five for each child that it may still fork. -/
def MainPc.left : MainPc → ℕ
  | .pipe => 17
  | .forking false => 16
  | .closing false => 10
  | .forking true => 9
  | .closing true => 3
  | .waiting false => 2
  | .waiting true => 1
  | .returned | .aborted => 0

/-- The steps that a child has left, but for the bytes it moves. -/
def ChildPc.left (c : Bool) : ChildPc → ℕ
  | .dup2 => 5
  | .closeRead => 4
  | .closeWrite => 3
  | .exec => if c then 3 else 2
  | .running => if c then 2 else 1
  | .finishing => 1
  | .notForked | .zombie _ | .reaped _ => 0

/-- A byte is written once and read once. -/
def State.left (s : State) : ℕ :=
  s.main.left + (s.children false).left false + (s.children true).left true +
    (2 * s.toWrite.length + s.content.length)

theorem State.left_setChild (s : State) (c : Bool) (pc : ChildPc) (t : Table) :
    (s.setChild c pc t).left + (s.children c).left c = s.left + pc.left c := by
  cases c <;> simp [State.left, State.setChild] <;> omega

theorem State.left_goMain (s : State) (main : MainPc) (t : Table) (pids : Bool → Bool) :
    { s with main := main, mainFds := t, pids := pids }.left + s.main.left =
      s.left + main.left := by
  simp only [State.left]
  omega

theorem Control.left_lt (h : Control s) (hmove : Moves capacity lastLines s s') :
    s'.left < s.left := by
  have hgo {main main' : MainPc} (hpc : s.main = main) (hlt : main'.left < main.left) (t : Table) :
      { s with main := main', mainFds := t }.left < s.left := by
    have := s.left_goMain main' t s.pids
    rw [hpc] at this
    omega
  have hchild {c : Bool} {pc : ChildPc} (hpc : s.children c = pc) (pc' : ChildPc)
      (hlt : pc'.left c < pc.left c) (t : Table) : (s.setChild c pc' t).left < s.left := by
    have := s.left_setChild c pc' t
    rw [hpc] at this
    omega
  cases hmove with
  | pipe hmain => exact hgo hmain (by decide) _
  | fork c hmain =>
    have hset := s.left_setChild c .dup2 s.mainFds
    have hgo := (s.setChild c .dup2 s.mainFds).left_goMain (.closing c) s.mainFds
      (Function.update s.pids c true)
    have hmain : (s.setChild c .dup2 s.mainFds).main = .forking c := hmain
    rw [hmain] at hgo
    have hforked : (MainPc.closing c).left + 5 < (MainPc.forking c).left := by cases c <;> decide
    have hdup2 : ChildPc.dup2.left c = 5 := rfl
    refine Nat.lt_of_add_lt_add_right (hgo.trans_lt ?_)
    omega
  | forkFails c hmain => exact hgo hmain (by cases c <;> decide) _
  | close c hmain => exact hgo hmain (by cases c <;> decide) _
  | noChild c hmain hnone => exact hgo hmain (by cases c <;> decide) _
  | reap c d st hmain hpc hd =>
    have hset := s.left_setChild d (.reaped st) .empty
    have hgo := (s.setChild d (.reaped st) .empty).left_goMain (.afterWaiting c)
      (if c then .empty else s.mainFds) s.pids
    have hmain : (s.setChild d (.reaped st) .empty).main = .waiting c := hmain
    rw [hmain] at hgo
    rw [hpc] at hset
    have hwaited : (MainPc.afterWaiting c).left < (MainPc.waiting c).left := by cases c <;> decide
    have hzombie : (ChildPc.zombie st).left d = 0 := rfl
    have hreaped : (ChildPc.reaped st).left d = 0 := rfl
    refine Nat.lt_of_add_lt_add_right (hgo.trans_lt ?_)
    omega
  | dup2 c hpc => exact hchild hpc _ (by cases c <;> decide) _
  | closeRead c hpc => exact hchild hpc _ (by cases c <;> decide) _
  | closeWrite c hpc =>
    cases c with
    | false => exact hchild hpc _ (by decide) _
    | true => exact absurd hpc h.second
  | exec c hpc => exact hchild hpc _ (by cases c <;> decide) _
  | execFails c hpc => exact hchild hpc _ (by cases c <;> decide) _
  | endOfStream hpc hend hwriters => exact hchild hpc _ (by decide) _
  | finish c hpc => exact hchild hpc (.zombie .exited) (by cases c <;> decide) .empty
  | written hpc hend | sigpipe hpc hreaders => exact hchild hpc _ (by decide) _
  | write n hpc hpos hn =>
    simp only [State.left, List.length_append, List.length_take, List.length_drop]
    omega
  | print n hpc hfd hpos hn =>
    simp only [State.left, List.length_drop]
    omega
  | read n hpc hpos hn =>
    simp only [State.left, List.length_drop]
    omega

variable {as : List Act}

/-- **`pipe.c` does not hang.**  However the steps of the three processes interleave, whichever
`fork` and `execlp` fail, and however `ps` and `tail` cut what they write and read: somebody can
make a step until `main` has exited, and nobody after that, and a run has at most seventeen steps
and two for each byte of the listing. -/
theorem never_hangs (hcap : 0 < capacity)
    (h : Trace (State.step capacity lastLines) anyOrder (State.init listing) as s) :
    as.length ≤ 17 + 2 * listing.length ∧
      ((∀ a, s.step capacity lastLines a = none) ↔ s.main = .returned ∨ s.main = .aborted) := by
  have hinv := inv_of_trace h
  constructor
  · have hcontrol := h.through (P := Control)
      (fun s a t hs _ hstep => hs.moves (moves_of_step hstep)) (control_init listing)
    have hlt : ∀ s a t, anyOrder s a ∧ Control s → s.step capacity lastLines a = some t →
        t.left < s.left := fun s a t hs hstep => hs.2.left_lt (moves_of_step hstep)
    have hcount := hcontrol.length_add_le hlt
    have hinit : (State.init listing).left = 17 + 2 * listing.length := rfl
    omega
  · constructor
    · intro hstuck
      by_contra hmain
      rw [not_or] at hmain
      obtain ⟨a, s', hstep⟩ : ∃ a s', s.step capacity lastLines a = some s' :=
        hinv.control.exists_step_main hcap hmain
      rw [hstuck a] at hstep
      cases hstep
    · intro hmain a
      by_contra hstep
      obtain ⟨s', hstep⟩ := Option.ne_none_iff_exists'.mp hstep
      exact hinv.no_moves hmain (moves_of_step hstep)

/-- A run of `main` with both children, in which `ps` writes one line of three bytes at once
and `tail`, which gives back a single line as it is, reads it in two pieces. -/
def plainRun : List Act :=
  [.main, .main, .main, .main, .main, .child false, .child false, .child false, .child false,
    .child true, .transfer false 3, .child true, .child true, .child false, .transfer true 2,
    .reap false, .transfer true 1, .child true, .child true, .reap true]

theorem never_hangs_plainRun :
    ∃ s, Trace (State.step 4 id) anyOrder (State.init [97, 98, 10]) plainRun s ∧
      plainRun.length ≤ 17 + 2 * 3 ∧
      ((∀ a, s.step 4 id a = none) ↔ s.main = .returned ∨ s.main = .aborted) := by
  obtain ⟨s, h, -⟩ := Trace.exists_of_eval (State.step 4 id) anyOrder (fun _ => true)
    (State.init [97, 98, 10]) plainRun (by decide)
  exact ⟨s, h, never_hangs (by decide) h⟩

/-- What `tail` has read when it has ended as it should, and the first child has ended too. -/
theorem Stream.received_eq (h : Stream lastLines listing s)
    (hsecond : s.children true = .reaped .exited)
    (hfirst : s.children false = .notForked ∨ ∃ st, s.children false = .reaped st) :
    s.received = if s.children false = .reaped .exited then listing else [] := by
  have hcontent : s.content = [] := (h.ended (by rw [hsecond]; rfl)).1
  have hall := h.all
  rw [hcontent, List.append_nil] at hall
  have hnothing (hran : (s.children false).ran = false) : s.received = [] := by
    rw [h.unwritten hran] at hall
    exact List.self_eq_append_left.mp hall.symm
  rcases hfirst with hpc | ⟨st, hpc⟩
  · rw [hnothing (by rw [hpc]; rfl), hpc]
    rfl
  · cases st with
    | exited =>
      rw [if_pos hpc, ← hall, h.written (by rw [hpc]; rfl), List.append_nil]
    | aborted =>
      rw [hnothing (by rw [hpc]; rfl), hpc]
      rfl
    | killed =>
      -- then `tail` would not have seen the end
      have hsaw := (h.killed (by rw [hpc]; rfl)).2.2
      rw [hsecond] at hsaw
      cases hsaw

/-- **What is left when `main` has exited.**  The children that were forked have been waited for, no
end of the pipe is open, and `main` returns if both calls of `fork` have succeeded; else it ends by
the `assert` on its second `waitpid`, or on its first one.  On standard output there is what `tail`
makes of the whole listing if both programs ran to their end; what it makes of nothing if only
`tail` did; and nothing otherwise. -/
theorem exit_report
    (h : Trace (State.step capacity lastLines) anyOrder (State.init listing) as s)
    (hmain : s.main = .returned ∨ s.main = .aborted) :
    (∀ c, s.children c ≠ .notForked → ∃ st, s.children c = .reaped st) ∧
      s.isOpen .readEnd = false ∧ s.isOpen .writeEnd = false ∧
      (s.main = .returned ↔ ∀ c, s.children c ≠ .notForked) ∧
      s.output =
        if s.children true = .reaped .exited then
          lastLines (if s.children false = .reaped .exited then listing else [])
        else [] := by
  have hinv := inv_of_trace h
  have hgone := hinv.notForked_or_reaped hmain
  have hwaits : s.main.waits = true := by rcases hmain with hmain | hmain <;> rw [hmain] <;> rfl
  have hdead : ∀ c, (s.children c).alive = false := fun c => by
    rcases hgone c with hpc | ⟨st, hpc⟩ <;> rw [hpc] <;> rfl
  have hforked : ∀ c, s.children c ≠ .notForked ↔ s.pids c = true := fun c => by
    rw [Ne, hinv.control.forked c, Bool.not_eq_false]
  refine ⟨fun c hc => (hgone c).resolve_left hc, ?_, ?_, ?_, ?_⟩
  · rw [hinv.control.isOpen_readEnd, hdead, hwaits]
    rcases hgone false with hpc | ⟨st, hpc⟩ <;> rw [hpc] <;> simp
  · rw [hinv.control.isOpen_writeEnd, hdead]
    rcases hmain with hmain | hmain <;> rw [hmain] <;> rfl
  · have hpids := hinv.reaped.pids
    simp only [hforked, Bool.forall_bool]
    rcases hmain with hmain | hmain <;> rw [hmain] at hpids ⊢
    · exact ⟨fun _ => Bool.and_eq_true_iff.mp hpids, fun _ => rfl⟩
    · refine ⟨nofun, fun hboth => ?_⟩
      rw [MainPc.forks, hboth.1, hboth.2] at hpids
      cases hpids
  · rw [hinv.stream.output]
    by_cases hsecond : s.children true = .reaped .exited
    · rw [if_pos hsecond, if_pos (by rw [hsecond]; rfl),
        hinv.stream.received_eq hsecond (hgone false)]
    · rw [if_neg hsecond, if_neg]
      intro hended
      rcases hgone true with hpc | ⟨st, hpc⟩ <;> rw [hpc] at hended
      · cases hended
      · cases hended
        exact hsecond hpc

theorem exit_report_plainRun :
    ∃ s, Trace (State.step 4 id) anyOrder (State.init [97, 98, 10]) plainRun s ∧
      s.main = .returned ∧
      (∀ c, s.children c ≠ .notForked → ∃ st, s.children c = .reaped st) ∧
      s.isOpen .readEnd = false ∧ s.isOpen .writeEnd = false ∧
      (s.main = .returned ↔ ∀ c, s.children c ≠ .notForked) ∧
      s.output =
        if s.children true = .reaped .exited then
          id (if s.children false = .reaped .exited then [97, 98, 10] else [])
        else [] := by
  obtain ⟨s, h, hs⟩ := Trace.exists_of_eval (State.step 4 id) anyOrder
    (fun s => decide (s.main = .returned)) (State.init [97, 98, 10]) plainRun (by decide)
  have hmain := of_decide_eq_true hs
  exact ⟨s, h, hmain, exit_report h (Or.inl hmain)⟩

end PsTail
end CaosSeminars
