import CaosSeminars.Processes.PsTail

/-!
# Every run of `pipe.c`

Three things are known of every state a run reaches.  Which process has which end open depends on
where the processes are and on nothing else (`Control`).  What has been read, what is in the pipe
and what is still to be written make up the listing, and `tail` is past the end of the stream only
when the first child has ended (`Stream`).  And `main` has waited for the children it has forked,
and its last `waitpid` finds a child only if both were (`Reaped`).

* `Control.moves`, `Stream.moves`, `Reaped.moves` --- one step keeps each of them, one case
  for each move; `inv_of_trace` puts them together.
* `Control.isOpen_writeEnd`, `Control.isOpen_readEnd` --- when an end of the pipe is open,
  told from where the processes are.
* `Stream.not_killed` --- while `tail` is there `ps` is not killed by its pipe.
-/

namespace CaosSeminars
namespace PsTail

variable {capacity : ℕ} {lastLines : List UInt8 → List UInt8} {listing : List UInt8}
  {s s' : State} {a : Act} {c : Bool} {pc : ChildPc}

/-! ## Who has what open -/

/-- The descriptors of `main`. -/
def mainTable : MainPc → Table
  | .pipe => .inherited
  | .forking false | .closing false => Table.inherited.withPipe
  | .forking true | .closing true => Table.inherited.withPipe.close .fd1
  | .waiting _ => (Table.inherited.withPipe.close .fd1).close .fd0
  | .returned | .aborted => .empty

/-- The descriptors of a child after its `dup2`. -/
def dupped (c : Bool) : Table := (mainTable (.forking c)).dup2 (pipeEnd c).1 (pipeEnd c).2

/-- The descriptors of a child. -/
def childTable (c : Bool) : ChildPc → Table
  | .notForked | .zombie _ | .reaped _ => .empty
  | .dup2 => mainTable (.forking c)
  | .closeRead => dupped c
  | .closeWrite => (dupped c).close .fd0
  | .exec | .running | .finishing =>
    if c then (dupped c).close .fd0 else ((dupped c).close .fd0).close .fd1

/-- `main` has been at `fork()` for the child. -/
def MainPc.past (c : Bool) : MainPc → Bool
  | .pipe => false
  | .forking d => d && !c
  | .closing d => d || !c
  | .waiting _ | .returned | .aborted => true

structure Control (s : State) : Prop where
  mainFds : s.mainFds = mainTable s.main
  childFds : ∀ c, s.childFds c = childTable c (s.children c)
  forked : ∀ c, s.children c = .notForked ↔ s.pids c = false
  pids : ∀ c, s.pids c = true → s.main.past c = true
  first : s.children false ≠ .finishing
  second : s.children true ≠ .closeWrite

theorem control_init (listing : List UInt8) : Control (State.init listing) where
  mainFds := rfl
  childFds _ := rfl
  forked _ := ⟨fun _ => rfl, fun _ => rfl⟩
  pids _ h := by cases h
  first := nofun
  second := nofun

namespace Control

theorem setChild (h : Control s) (pc : ChildPc) (hlive : s.children c ≠ .notForked)
    (hborn : pc ≠ .notForked) (hfirst : c = false → pc ≠ .finishing)
    (hsecond : c = true → pc ≠ .closeWrite) {t : Table} (ht : t = childTable c pc) :
    Control (s.setChild c pc t) where
  mainFds := h.mainFds
  childFds d := by
    show Function.update s.childFds c t d = childTable d (Function.update s.children c pc d)
    by_cases hd : d = c
    · subst hd
      rw [Function.update_self, Function.update_self, ht]
    · rw [Function.update_of_ne hd, Function.update_of_ne hd, h.childFds d]
  forked d := by
    show Function.update s.children c pc d = .notForked ↔ s.pids d = false
    by_cases hd : d = c
    · subst hd
      rw [Function.update_self]
      exact ⟨fun hpc => absurd hpc hborn, fun hpid => absurd ((h.forked d).mpr hpid) hlive⟩
    · rw [Function.update_of_ne hd, h.forked d]
  pids := h.pids
  first := by
    show Function.update s.children c pc false ≠ .finishing
    cases c
    · rw [Function.update_self]
      exact hfirst rfl
    · exact h.first
  second := by
    show Function.update s.children c pc true ≠ .closeWrite
    cases c
    · exact h.second
    · rw [Function.update_self]
      exact hsecond rfl

theorem goMain (h : Control s) {main : MainPc} {t : Table} (ht : t = mainTable main)
    (hpast : ∀ c, s.main.past c = true → main.past c = true) :
    Control { s with main := main, mainFds := t } :=
  { h with
    mainFds := ht
    pids := fun c hc => hpast c (h.pids c hc) }

/-- **Every step keeps the tables.** -/
theorem moves (h : Control s) (hmove : Moves capacity lastLines s s') : Control s' := by
  have hne {c : Bool} {pc : ChildPc} (hpc : s.children c = pc) (hborn : pc ≠ .notForked) :
      s.children c ≠ .notForked := by rwa [hpc]
  cases hmove with
  | pipe hmain =>
    refine h.goMain ?_ fun c hc => ?_
    · rw [h.mainFds, hmain]
      rfl
    · rw [hmain] at hc
      cases hc
  | fork c hmain =>
    have hnew : s.children c = .notForked := by
      by_contra hc
      have hpid := (Bool.eq_false_or_eq_true (s.pids c)).resolve_right
        fun hpid => hc ((h.forked c).mpr hpid)
      have := h.pids c hpid
      rw [hmain] at this
      cases c <;> cases this
    exact
      { mainFds := by
          show s.mainFds = mainTable (.closing c)
          rw [h.mainFds, hmain]
          cases c <;> rfl
        childFds := fun d => by
          show Function.update s.childFds c s.mainFds d =
            childTable d (Function.update s.children c .dup2 d)
          by_cases hd : d = c
          · subst hd
            rw [Function.update_self, Function.update_self, h.mainFds, hmain]
            rfl
          · rw [Function.update_of_ne hd, Function.update_of_ne hd, h.childFds d]
        forked := fun d => by
          show Function.update s.children c .dup2 d = .notForked ↔
            Function.update s.pids c true d = false
          by_cases hd : d = c
          · subst hd
            rw [Function.update_self, Function.update_self]
            exact ⟨nofun, nofun⟩
          · rw [Function.update_of_ne hd, Function.update_of_ne hd, h.forked d]
        pids := fun d hd => by
          show (MainPc.closing c).past d = true
          by_cases hdc : d = c
          · subst hdc
            cases d <;> rfl
          · have hold := h.pids d ((Function.update_of_ne hdc _ _).symm.trans hd)
            rw [hmain] at hold
            revert hold
            cases c <;> cases d <;> simp [MainPc.past]
        first := by
          show Function.update s.children c .dup2 false ≠ .finishing
          cases c
          · rw [Function.update_self]
            nofun
          · exact h.first
        second := by
          show Function.update s.children c .dup2 true ≠ .closeWrite
          cases c
          · exact h.second
          · rw [Function.update_self]
            nofun }
  | forkFails c hmain =>
    refine h.goMain (h.mainFds.trans ?_) fun d hd => ?_
    · rw [hmain]
      cases c <;> rfl
    · rw [hmain] at hd
      revert hd
      cases c <;> cases d <;> simp [MainPc.past]
  | close c hmain =>
    refine h.goMain ?_ fun d hd => ?_
    · rw [h.mainFds, hmain]
      cases c <;> rfl
    · rw [hmain] at hd
      revert hd
      cases c <;> cases d <;> simp [MainPc.past, MainPc.afterClosing]
  | noChild c hmain hnone => exact h.goMain rfl fun _ _ => rfl
  | reap c d st hmain hpc hd =>
    refine (h.setChild (.reaped st) (hne hpc nofun) nofun (fun _ => nofun) (fun _ => nofun)
      rfl).goMain ?_ fun e he => ?_
    · rw [h.mainFds, hmain]
      cases c <;> rfl
    · cases c <;> rfl
  | dup2 c hpc =>
    refine h.setChild .closeRead (hne hpc nofun) nofun (fun _ => nofun) (fun _ => nofun) ?_
    rw [h.childFds c, hpc]
    rfl
  | closeRead c hpc =>
    refine h.setChild (.afterCloseRead c) (hne hpc nofun) (by cases c <;> nofun)
      (by cases c <;> nofun) (by cases c <;> nofun) ?_
    rw [h.childFds c, hpc]
    cases c <;> rfl
  | closeWrite c hpc =>
    have hc : c = false := by
      cases c
      · rfl
      · exact absurd hpc h.second
    subst hc
    refine h.setChild .exec (hne hpc nofun) nofun (fun _ => nofun) (fun _ => nofun) ?_
    rw [h.childFds false, hpc]
    rfl
  | exec c hpc =>
    refine h.setChild .running (hne hpc nofun) nofun (fun _ => nofun) (fun _ => nofun) ?_
    rw [h.childFds c, hpc]
    rfl
  | execFails c hpc =>
    exact h.setChild (.zombie .aborted) (hne hpc nofun) nofun (fun _ => nofun) (fun _ => nofun) rfl
  | endOfStream hpc hend hwriters =>
    refine h.setChild .finishing (hne hpc nofun) nofun nofun (fun _ => nofun) ?_
    rw [h.childFds true, hpc]
    rfl
  | finish c hpc =>
    have hset := h.setChild (.zombie .exited) (hne hpc nofun) nofun (fun _ => nofun)
      (fun _ => nofun) rfl
    exact { hset with }
  | written hpc hend =>
    exact h.setChild (.zombie .exited) (hne hpc nofun) nofun (fun _ => nofun) (fun _ => nofun) rfl
  | sigpipe hpc hreaders =>
    exact h.setChild (.zombie .killed) (hne hpc nofun) nofun (fun _ => nofun) (fun _ => nofun) rfl
  | write n hpc hpos hn | print n hpc hfd hpos hn | read n hpc hpos hn => exact { h with }

end Control

/-! ### Ends -/

/-- The child is a process and has not ended. -/
def ChildPc.alive : ChildPc → Bool
  | .notForked | .zombie _ | .reaped _ => false
  | _ => true

/-- How the child has ended. -/
def ChildPc.ended : ChildPc → Option Status
  | .zombie st | .reaped st => some st
  | _ => none

theorem ended_of_alive (h : pc.alive = true) : pc.ended = none := by
  cases pc <;> first | rfl | cases h

/-- `main` has no `fork()` or `close` left to do. -/
def MainPc.waits : MainPc → Bool
  | .waiting _ | .returned | .aborted => true
  | .pipe | .forking _ | .closing _ => false

/-- The write end is open in `main` up to its first `close`, and in the first child. -/
theorem Control.isOpen_writeEnd (h : Control s) :
    s.isOpen .writeEnd =
      (s.main == .forking false || s.main == .closing false || (s.children false).alive) := by
  have hmain : s.mainFds.holds .writeEnd =
      (s.main == .forking false || s.main == .closing false) := by
    rw [h.mainFds]
    rcases s.main with _ | (_ | _) | (_ | _) | _ | _ | _ <;> rfl
  have hfirst : (s.childFds false).holds .writeEnd = (s.children false).alive := by
    rw [h.childFds]
    cases s.children false <;> rfl
  have hsecond : (s.childFds true).holds .writeEnd = false := by
    rw [h.childFds]
    cases s.children true <;> rfl
  rw [State.isOpen, hmain, hfirst, hsecond, Bool.or_false]

/-- The read end is open in `main` until it waits, in the first child up to its first `close`, and
in the second child. -/
theorem Control.isOpen_readEnd (h : Control s) :
    s.isOpen .readEnd = ((s.main != .pipe && !s.main.waits) ||
      (s.children false == .dup2 || s.children false == .closeRead) ||
      (s.children true).alive) := by
  have hmain : s.mainFds.holds .readEnd = (s.main != .pipe && !s.main.waits) := by
    rw [h.mainFds]
    rcases s.main with _ | (_ | _) | (_ | _) | _ | _ | _ <;> rfl
  have hfirst : (s.childFds false).holds .readEnd =
      (s.children false == .dup2 || s.children false == .closeRead) := by
    rw [h.childFds]
    cases s.children false <;> rfl
  have hsecond : (s.childFds true).holds .readEnd = (s.children true).alive := by
    rw [h.childFds]
    cases s.children true <;> rfl
  rw [State.isOpen, hmain, hfirst, hsecond]

theorem Control.past (h : Control s) (hc : s.children c ≠ .notForked) : s.main.past c = true :=
  h.pids c ((Bool.eq_false_or_eq_true _).resolve_right fun hpid => hc ((h.forked c).mpr hpid))

/-! ## The stream -/

/-- `tail` has read to the end of its standard input. -/
def ChildPc.sawEnd : ChildPc → Bool
  | .finishing | .zombie .exited | .reaped .exited => true
  | _ => false

/-- The child has got past `execlp`. -/
def ChildPc.ran : ChildPc → Bool
  | .running | .finishing => true
  | .zombie st | .reaped st => st != .aborted
  | _ => false

structure Stream (lastLines : List UInt8 → List UInt8) (listing : List UInt8) (s : State) :
    Prop where
  all : s.received ++ s.content ++ s.toWrite = listing
  unwritten : (s.children false).ran = false → s.toWrite = listing
  written : (s.children false).ended = some .exited → s.toWrite = []
  ended : (s.children true).sawEnd = true → s.content = [] ∧ (s.children false).alive = false
  killed : (s.children false).ended = some .killed →
    s.main.waits = true ∧ (s.children true).alive = false ∧ (s.children true).sawEnd = false
  notKilled : (s.children true).ended ≠ some .killed
  output : s.output =
    if (s.children true).ended = some .exited then lastLines s.received else []

theorem stream_init : Stream lastLines listing (State.init listing) where
  all := rfl
  unwritten _ := rfl
  written := nofun
  ended := nofun
  killed := nofun
  notKilled := nofun
  output := rfl

namespace Stream

/-- What `main` does leaves the stream alone, and the children as they are. -/
theorem goMain (h : Stream lastLines listing s) {main : MainPc} {t : Table}
    (hwaits : s.main.waits = true → main.waits = true) :
    Stream lastLines listing { s with main := main, mainFds := t } :=
  { h with killed := fun hk => ⟨hwaits (h.killed hk).1, (h.killed hk).2⟩ }

theorem setFirst (h : Stream lastLines listing s) (pc : ChildPc) (t : Table)
    (hunwritten : pc.ran = false → (s.children false).ran = false)
    (hwritten : pc.ended = some .exited → s.toWrite = [])
    (hended : (s.children true).sawEnd = true → pc.alive = false)
    (hkilled : pc.ended = some .killed →
      s.main.waits = true ∧ (s.children true).alive = false ∧ (s.children true).sawEnd = false) :
    Stream lastLines listing (s.setChild false pc t) :=
  { h with
    unwritten := fun hran => h.unwritten (hunwritten hran)
    written := hwritten
    ended := fun hsaw => ⟨(h.ended hsaw).1, hended hsaw⟩
    killed := hkilled }

theorem setSecond (h : Stream lastLines listing s) (pc : ChildPc) (t : Table)
    (output : List UInt8)
    (hkilled : (s.children false).ended = some .killed → pc.alive = false ∧ pc.sawEnd = false)
    (hended : pc.sawEnd = true → s.content = [] ∧ (s.children false).alive = false)
    (hnot : pc.ended ≠ some .killed)
    (houtput : output = if pc.ended = some .exited then lastLines s.received else []) :
    Stream lastLines listing { s.setChild true pc t with output := output } :=
  { h with
    ended := hended
    killed := fun hk => ⟨(h.killed hk).1, hkilled hk⟩
    notKilled := hnot
    output := houtput }

/-- While the second child is there, the first one is not killed. -/
theorem not_killed (h : Stream lastLines listing s) (hsecond : (s.children true).alive = true) :
    (s.children false).ended ≠ some .killed := fun hk => by
  rw [(h.killed hk).2.1] at hsecond
  cases hsecond

theorem advance (h : Stream lastLines listing s) (pc : ChildPc) (t : Table)
    (hold : (s.children c).alive = true) (hran : (s.children c).ran = false)
    (hpc : pc.alive = true) (hsaw : pc.sawEnd = false) :
    Stream lastLines listing (s.setChild c pc t) := by
  have hended : pc.ended = none := ended_of_alive hpc
  cases c with
  | false =>
    refine h.setFirst pc t (fun _ => hran) (by rw [hended]; nofun) (fun hsaw => ?_)
      (by rw [hended]; nofun)
    rw [(h.ended hsaw).2] at hold
    cases hold
  | true =>
    refine h.setSecond pc t s.output (fun hk => absurd hk (h.not_killed hold))
      (by rw [hsaw]; nofun) (by rw [hended]; nofun) ?_
    rw [h.output, ended_of_alive hold, hended]

/-- **Every step keeps the stream.** -/
theorem moves (h : Stream lastLines listing s) (hc : Control s)
    (hmove : Moves capacity lastLines s s') : Stream lastLines listing s' := by
  cases hmove with
  | pipe hmain => exact h.goMain fun hw => by rw [hmain] at hw; cases hw
  | fork c hmain =>
    have hwaits : s.main.waits ≠ true := by rw [hmain]; nofun
    have hkilled : (s.children false).ended ≠ some .killed := fun hk => hwaits (h.killed hk).1
    have hfork : Stream lastLines listing (s.setChild c .dup2 s.mainFds) := by
      have hnew : ∀ d, (d || !c) = true → s.children d = .notForked := fun d hd => by
        by_contra hlive
        have hpast := hc.past hlive
        rw [hmain] at hpast
        revert hpast hd
        cases c <;> cases d <;> decide
      have hunborn := hnew true rfl
      cases c with
      | false =>
        refine h.setFirst .dup2 _ (fun _ => ?_) nofun (fun hsaw => ?_) nofun
        · rw [hnew false rfl]
          rfl
        rw [hunborn] at hsaw
        cases hsaw
      | true =>
        refine h.setSecond .dup2 _ s.output (fun hk => absurd hk hkilled) nofun nofun
          ?_
        rw [h.output, hunborn]
        rfl
    exact
      { hfork with
        killed := fun hk => absurd (hfork.killed hk).1 hwaits }
  | forkFails c hmain => exact h.goMain fun hw => by rw [hmain] at hw; cases hw
  | close c hmain => exact h.goMain fun hw => by rw [hmain] at hw; cases hw
  | noChild c hmain hnone => exact h.goMain fun _ => rfl
  | reap c d st hmain hpc hd =>
    have hset : Stream lastLines listing (s.setChild d (.reaped st) .empty) := by
      cases d with
      | false =>
        exact h.setFirst (.reaped st) _ (fun hran => by rw [hpc]; exact hran)
          (fun hst => h.written (by rw [hpc]; exact hst))
          (fun _ => rfl) (fun hst => h.killed (by rw [hpc]; exact hst))
      | true =>
        refine h.setSecond (.reaped st) _ s.output (fun hk => ⟨rfl, ?_⟩)
          (fun hsaw => h.ended ?_) (fun hst => h.notKilled (by rw [hpc]; exact hst)) ?_
        · have hsaw := (h.killed hk).2.2
          rw [hpc] at hsaw
          cases st <;> first | rfl | exact hsaw
        · rw [hpc]
          cases st <;> first | rfl | exact hsaw
        · rw [h.output, hpc]
          rfl
    exact hset.goMain fun _ => by cases c <;> rfl
  | dup2 c hpc | closeWrite c hpc | exec c hpc =>
    exact h.advance _ _ (by rw [hpc]; rfl) (by rw [hpc]; rfl) rfl rfl
  | closeRead c hpc =>
    exact h.advance _ _ (by rw [hpc]; rfl) (by rw [hpc]; rfl) (by cases c <;> rfl)
      (by cases c <;> rfl)
  | execFails c hpc =>
    cases c with
    | false => exact h.setFirst _ _ (fun _ => by rw [hpc]; rfl) nofun (fun _ => rfl) nofun
    | true =>
      refine h.setSecond _ _ s.output (fun _ => ⟨rfl, rfl⟩) nofun nofun ?_
      rw [h.output, hpc]
      rfl
  | endOfStream hpc hend hwriters =>
    have halive : (s.children true).alive = true := by rw [hpc]; rfl
    rw [hc.isOpen_writeEnd, Bool.or_eq_false_iff] at hwriters
    refine h.setSecond _ _ s.output (fun hk => absurd hk (h.not_killed halive))
      (fun _ => ⟨hend, hwriters.2⟩) nofun ?_
    rw [h.output, hpc]
    rfl
  | finish c hpc =>
    cases c with
    | false => exact absurd hpc hc.first
    | true =>
      have halive : (s.children true).alive = true := by rw [hpc]; rfl
      refine h.setSecond _ _ _ (fun hk => absurd hk (h.not_killed halive))
        (fun _ => h.ended (by rw [hpc]; rfl)) nofun ?_
      rw [h.output, hpc]
      rfl
  | written hpc hend => exact h.setFirst _ _ nofun (fun _ => hend) (fun _ => rfl) nofun
  | sigpipe hpc hreaders =>
    rw [hc.isOpen_readEnd, Bool.or_eq_false_iff, Bool.or_eq_false_iff] at hreaders
    obtain ⟨⟨hmain, -⟩, hsecond⟩ := hreaders
    refine h.setFirst _ _ nofun nofun (fun _ => rfl) fun _ => ⟨?_, hsecond, ?_⟩
    · have hpast := hc.past (c := false) (by rw [hpc]; nofun)
      revert hmain hpast
      cases s.main <;> simp [MainPc.waits, MainPc.past]
    · refine Bool.eq_false_iff.mpr fun hsaw => ?_
      have hdead := (h.ended hsaw).2
      rw [hpc] at hdead
      cases hdead
  | write n hpc hpos hn =>
    refine
      { h with
        all := ?_
        unwritten := fun hran => by
          have hran : (s.children false).ran = false := hran
          rw [hpc] at hran
          cases hran
        written := fun hend => by
          have hend : (s.children false).ended = some .exited := hend
          rw [hpc] at hend
          cases hend
        ended := fun hsaw => by
          have hdead := (h.ended hsaw).2
          rw [hpc] at hdead
          cases hdead }
    show s.received ++ (s.content ++ s.toWrite.take n) ++ s.toWrite.drop n = listing
    rw [List.append_assoc, List.append_assoc, List.take_append_drop, ← List.append_assoc, h.all]
  | print n hpc hfd hpos hn =>
    rw [hc.childFds false, hpc] at hfd
    cases hfd
  | read n hpc hpos hn =>
    refine
      { h with
        all := ?_
        ended := fun hsaw => by
          have hsaw : (s.children true).sawEnd = true := hsaw
          rw [hpc] at hsaw
          cases hsaw
        output := by
          have houtput := h.output
          rw [hpc] at houtput
          show s.output = if (s.children true).ended = some .exited then _ else []
          rw [hpc, houtput]
          rfl }
    show s.received ++ s.content.take n ++ s.content.drop n ++ s.toWrite = listing
    rw [List.append_assoc s.received, List.take_append_drop, h.all]

end Stream

/-! ## The children that `main` has waited for -/

def ChildPc.isReaped : ChildPc → Bool
  | .reaped _ => true
  | _ => false

/-- Whether the child `c` has been waited for.  When the first `fork()` has failed, the first
`waitpid` is for any child. -/
def MainPc.reaped (pids : Bool → Bool) (c : Bool) : MainPc → Bool
  | .waiting true => c != pids false
  | .returned => true
  | .aborted => pids c
  | _ => false

/-- The calls of `fork()` that have succeeded, as far as `main` shows it. -/
def MainPc.forks (pids : Bool → Bool) : MainPc → Bool
  | .waiting true => pids false || pids true
  | .returned => pids false && pids true
  | .aborted => !(pids false && pids true)
  | _ => true

structure Reaped (s : State) : Prop where
  children : ∀ c, (s.children c).isReaped = s.main.reaped s.pids c
  pids : s.main.forks s.pids = true

theorem reaped_init (listing : List UInt8) : Reaped (State.init listing) where
  children _ := rfl
  pids := rfl

/-- What `waitpid` may still return. -/
theorem Control.unreaped (h : Control s) (c : Bool) :
    (s.children c).unreaped = (s.pids c && !(s.children c).isReaped) := by
  have hforked := h.forked c
  cases hpc : s.children c <;> rw [hpc] at hforked <;>
    cases hpid : s.pids c <;> simp_all [ChildPc.unreaped, ChildPc.isReaped]

namespace Reaped

theorem setChild (h : Reaped s) (pc : ChildPc) (t : Table)
    (hold : (s.children c).isReaped = false) (hpc : pc.isReaped = false) :
    Reaped (s.setChild c pc t) where
  children d := by
    show (Function.update s.children c pc d).isReaped = s.main.reaped s.pids d
    rw [← h.children d]
    by_cases hd : d = c
    · subst hd
      rw [Function.update_self, hold, hpc]
    · rw [Function.update_of_ne hd]
  pids := h.pids

theorem reap (h : Reaped s) (hc : Control s) {d : Bool} {st : Status} {t t' : Table}
    (hmain : s.main = .waiting c) (hpc : s.children d = .zombie st) (hd : s.awaits c d = true) :
    Reaped { s.setChild d (.reaped st) t with main := .afterWaiting c, mainFds := t' } := by
  have hforked : s.pids d = true := by
    refine (Bool.eq_false_or_eq_true _).resolve_right fun hpid => ?_
    have := (hc.forked d).mpr hpid
    rw [hpc] at this
    cases this
  have hbefore := h.children
  have hzombie := hbefore d
  have hpids := h.pids
  rw [hmain] at hpids
  rw [hpc, hmain] at hzombie
  have hafter : ∀ e, (Function.update s.children d (.reaped st) e).isReaped =
      (e == d || (MainPc.waiting c).reaped s.pids e) := fun e => by
    by_cases he : e = d
    · subst he
      rw [Function.update_self, beq_self_eq_true]
      rfl
    · rw [Function.update_of_ne he, hbefore e, hmain, beq_eq_false_iff_ne.mpr he, Bool.false_or]
  cases c with
  | false =>
    -- the child is the first one, or the second one when there is no first one
    have hdpids : d = !s.pids false := by
      cases hfirst : s.pids false with
      | true => simpa [State.awaits, hfirst] using hd
      | false =>
        cases d with
        | true => rfl
        | false => rw [hfirst] at hforked; cases hforked
    refine ⟨fun e => (hafter e).trans ?_, ?_⟩
    · show (e == d || false) = (e != s.pids false)
      rw [hdpids]
      cases e <;> cases s.pids false <;> rfl
    · show (s.pids false || s.pids true) = true
      cases d with
      | false => rw [hforked, Bool.true_or]
      | true => rw [hforked, Bool.or_true]
  | true =>
    -- one child has been reaped, and the child is the other one
    have hdpids : d = s.pids false := by simpa [ChildPc.isReaped, MainPc.reaped] using hzombie
    have hd : d = true := by
      cases d with
      | true => rfl
      | false => rw [hdpids.symm] at hforked; cases hforked
    subst hd
    refine ⟨fun e => (hafter e).trans ?_, ?_⟩
    · show (e == true || e != s.pids false) = true
      rw [← hdpids]
      cases e <;> rfl
    · show (s.pids false && s.pids true) = true
      rw [← hdpids, hforked, Bool.true_and]

theorem noChild (h : Reaped s) (hc : Control s) {t : Table} (hmain : s.main = .waiting c)
    (hnone : ∀ d, s.awaits c d = true → (s.children d).unreaped = false) :
    Reaped { s with main := .aborted, mainFds := t } := by
  have hpids := h.pids
  rw [hmain] at hpids
  have hgone : ∀ d, s.awaits c d = true → s.pids d = true →
      (MainPc.waiting c).reaped s.pids d = true := fun d hd hpid => by
    have := hnone d hd
    rw [hc.unreaped, hpid, Bool.true_and, Bool.not_eq_false'] at this
    rw [← hmain, ← h.children, this]
  suffices hafter : (∀ d, (MainPc.waiting c).reaped s.pids d = s.pids d) ∧
      (s.pids false && s.pids true) = false from
    ⟨fun d => (h.children d).trans (by rw [hmain]; exact hafter.1 d), by
      show (!(s.pids false && s.pids true)) = true
      rw [hafter.2]
      rfl⟩
  have hfirst := hgone false
  have hsecond := hgone true
  rw [Bool.forall_bool]
  revert hfirst hsecond hpids
  cases c <;> simp only [State.awaits, MainPc.reaped, MainPc.forks] <;>
    cases s.pids false <;> cases s.pids true <;> simp

theorem moves (h : Reaped s) (hc : Control s) (hmove : Moves capacity lastLines s s') :
    Reaped s' := by
  have hstays {main : MainPc} {t : Table} (hbefore : ∀ c, s.main.reaped s.pids c = false)
      (hafter : ∀ c, main.reaped s.pids c = false) (hforks : main.forks s.pids = true) :
      Reaped { s with main := main, mainFds := t } :=
    ⟨fun c => (h.children c).trans ((hbefore c).trans (hafter c).symm), hforks⟩
  have hchild {c : Bool} {pc : ChildPc} (hpc : s.children c = pc) (hold : pc.isReaped = false)
      (pc' : ChildPc) (t : Table) (hnew : pc'.isReaped = false) : Reaped (s.setChild c pc' t) :=
    h.setChild pc' t (by rw [hpc, hold]) hnew
  cases hmove with
  | pipe hmain => exact hstays (fun _ => by rw [hmain]; rfl) (fun _ => rfl) rfl
  | fork c hmain =>
    have hbefore : ∀ d, (s.children d).isReaped = false := fun d => by
      rw [h.children, hmain]
      rfl
    have hset := h.setChild .dup2 s.mainFds (hbefore c) rfl
    refine ⟨fun d => (hset.children d).trans ?_, rfl⟩
    show s.main.reaped s.pids d = false
    rw [hmain]
    rfl
  | forkFails c hmain => exact hstays (fun _ => by rw [hmain]; rfl) (fun _ => rfl) rfl
  | close c hmain =>
    exact hstays (fun _ => by rw [hmain]; rfl) (fun _ => by cases c <;> rfl) (by cases c <;> rfl)
  | noChild c hmain hnone => exact h.noChild hc hmain hnone
  | reap c d st hmain hpc hd => exact h.reap hc hmain hpc hd
  | dup2 c hpc | closeWrite c hpc | exec c hpc | execFails c hpc => exact hchild hpc rfl _ _ rfl
  | closeRead c hpc => exact hchild hpc rfl _ _ (by cases c <;> rfl)
  | endOfStream hpc hend hwriters => exact hchild hpc rfl _ _ rfl
  | finish c hpc => exact { hchild hpc rfl (.zombie .exited) .empty rfl with }
  | written hpc hend | sigpipe hpc hreaders => exact hchild hpc rfl _ _ rfl
  | write n hpc hpos hn | print n hpc hfd hpos hn | read n hpc hpos hn => exact { h with }

end Reaped

/-! ## Together -/

/-- What is known of every state of a run. -/
structure Inv (lastLines : List UInt8 → List UInt8) (listing : List UInt8) (s : State) : Prop where
  control : Control s
  stream : Stream lastLines listing s
  reaped : Reaped s

/-- **The invariant of `pipe.c`.** -/
theorem inv_of_trace {as : List Act}
    (h : Trace (State.step capacity lastLines) anyOrder (State.init listing) as s) :
    Inv lastLines listing s := by
  refine h.invariant (fun s a t hs _ hstep => ?_)
    ⟨control_init listing, stream_init, reaped_init listing⟩
  have hmove := moves_of_step hstep
  exact ⟨hs.control.moves hmove, hs.stream.moves hs.control hmove,
    hs.reaped.moves hs.control hmove⟩

end PsTail
end CaosSeminars
