import CaosSeminars.Faulty.Machine

/-!
# When the program cannot abort

The program aborts when both threads have loaded `0`.  A load of `0` by one thread says that the
store of the other one has not reached the memory.  So it is enough that a thread's store is in the
memory by the time of its own load: then the second of the two loads cannot give `0`
(`Inv.load`).  This is so in `atomic.c`; in `faulty.c` it is so for a machine that does not delay
stores past loads; and in `mutex.c`, where the store may be late, the thread that is in the critical
section meets no other thread between its store and the end of its section.

* `ThreadOk` --- what is known of one thread: which of its two variables hold what, in its own view.
* `frame` --- what the other thread does is not noticed; `assign`, `goto`, `commit_self` --- what
  its own steps do.
* `Inv` --- the whole program; `load` is the step that matters, and the other steps are kept apart
  from it.
* `never_aborts` --- in every run of `atomic.c` and `mutex.c`, and in every run of `faulty.c` in
  which a load waits for the thread's own store.
-/

namespace CaosSeminars
namespace Faulty

/-! ## What is known of one thread -/

namespace ThreadPc

/-- The thread has made its store. -/
def hasStored : ThreadPc → Bool
  | .load | .save _ | .unlock | .finished => true
  | .notCreated | .lock | .store => false

/-- The thread has made its load. -/
def hasLoaded : ThreadPc → Bool
  | .save _ | .unlock | .finished => true
  | .notCreated | .lock | .store | .load => false

/-- Between the two operations of the mutex. -/
def critical : ThreadPc → Bool
  | .store | .load | .save _ | .unlock => true
  | .notCreated | .lock | .finished => false

end ThreadPc

variable {build : Build} {m m' : Buffered Who Loc ℤ} {x x' : Option Bool} {b c : Bool}
  {pc : ThreadPc} {s s' : State}

/-- What a thread at `pc` has loaded. -/
def loadedBy (m : Buffered Who Loc ℤ) (b : Bool) : ThreadPc → Option ℤ
  | .save v => some v
  | .unlock | .finished => some (m.view (.thread b) (result b))
  | .notCreated | .lock | .store | .load => none

/-- What is known of a thread at `pc`. -/
structure ThreadOk (build : Build) (m : Buffered Who Loc ℤ) (x : Option Bool) (b : Bool)
    (pc : ThreadPc) : Prop where
  pending : ∀ w ∈ m.buffer (.thread b), w = (own b, 1) ∨ w.1 = result b
  unborn : pc = .notCreated → m.buffer (.thread b) = []
  stored : pc.hasStored = true → m.view (.thread b) (own b) = 1
  /-- The store has reached the memory, or the thread is still alone. -/
  exposed : pc.hasLoaded = true → m.mem (own b) = 1 ∨ build = .mutex ∧ pc ≠ .finished
  critical : build = .mutex → (pc.critical = true ↔ x = some b)
  quiet : build = .mutex → pc.critical = false → m.buffer (.thread b) = []
  atomic : build = .atomic → m.buffer (.thread b) = []
  locks : pc = .lock ∨ pc = .unlock → build = .mutex

theorem own_ne_own (h : c ≠ b) : own c ≠ own b := by
  cases b <;> cases c <;> simp_all [own]

theorem result_ne_result (h : c ≠ b) : result c ≠ result b := by
  cases b <;> cases c <;> simp_all [result]

theorem own_ne_result (b c : Bool) : own c ≠ result b := by
  cases b <;> cases c <;> simp [own, result]

namespace ThreadOk

/-- What a thread does not see does not matter to it. -/
theorem frame (h : ThreadOk build m x b pc)
    (hbuffer : m'.buffer (.thread b) = m.buffer (.thread b))
    (hmem : m'.mem (own b) = m.mem (own b)) (hx : x' = some b ↔ x = some b) :
    ThreadOk build m' x' b pc where
  pending := by rw [hbuffer]; exact h.pending
  unborn := by rw [hbuffer]; exact h.unborn
  stored hpc := by
    rw [Buffered.view, hbuffer, Buffered.play_congr _ hmem]
    exact h.stored hpc
  exposed hpc := by rw [hmem]; exact h.exposed hpc
  critical hb := (h.critical hb).trans hx.symm
  quiet := by rw [hbuffer]; exact h.quiet
  atomic := by rw [hbuffer]; exact h.atomic
  locks := h.locks

/-- The queue of a thread holds no store to a variable of the other one. -/
theorem notMem_pending (h : ThreadOk build m x b pc) (hc : c ≠ b) :
    ∀ w ∈ m.buffer (.thread b), w.1 ≠ own c ∧ w.1 ≠ result c := by
  intro w hw
  rcases h.pending w hw with rfl | hres
  · exact ⟨(own_ne_own hc).symm, own_ne_result c b⟩
  · rw [hres]
    exact ⟨(own_ne_result b c).symm, (result_ne_result hc).symm⟩

/-- A thread that has no store left to come to the memory. -/
theorem exposed_of_drained (h : ThreadOk build m x b pc) (hd : m.buffer (.thread b) = [])
    (hpc : pc.hasStored = true) : m.mem (own b) = 1 := by
  rw [← Buffered.view_of_drained hd]
  exact h.stored hpc

/-- One store of the thread reaches the memory. -/
theorem commit_self (h : ThreadOk build m x b pc) (hcommit : m.commit (.thread b) = some m') :
    ThreadOk build m' x b pc := by
  obtain ⟨w, hbuffer, -⟩ := Buffered.buffer_commit hcommit
  have hne : m.buffer (.thread b) ≠ [] := by rw [hbuffer]; exact List.cons_ne_nil _ _
  refine
    { pending := fun w hw => h.pending w (by rw [hbuffer]; exact List.mem_cons_of_mem _ hw)
      unborn := fun hpc => absurd (h.unborn hpc) hne
      stored := fun hpc => by rw [Buffered.view_commit hcommit]; exact h.stored hpc
      exposed := fun hpc => ?_
      critical := h.critical
      quiet := fun hb hpc => absurd (h.quiet hb hpc) hne
      atomic := fun hb => absurd (h.atomic hb) hne
      locks := h.locks }
  rcases Buffered.mem_commit hcommit (own b) with hsame | hmem
  · rw [hsame]
    exact h.exposed hpc
  · rcases h.pending _ hmem with heq | hres
    · exact Or.inl (congrArg Prod.snd heq)
    · exact absurd hres (own_ne_result b b)

end ThreadOk

/-! ## Assignments -/

section Assign

variable {w u : Who} {l l' : Loc} {v : ℤ}

@[simp] theorem assign_threads : (s.assign build w l v).threads = s.threads := by
  cases build <;> rfl

@[simp] theorem assign_main : (s.assign build w l v).main = s.main := by cases build <;> rfl

@[simp] theorem assign_mutex : (s.assign build w l v).mutex = s.mutex := by cases build <;> rfl

/-- **An assignment in the eyes of its thread.** -/
theorem assign_view (h : build = .atomic → s.drained w) :
    (s.assign build w l v).memory.view w = Function.update (s.memory.view w) l v := by
  cases build with
  | faulty => exact Buffered.view_write
  | mutex => exact Buffered.view_write
  | atomic =>
    have hd : s.memory.buffer w = [] := h rfl
    have hd' : (s.memory.writeThrough l v).buffer w = [] := hd
    rw [Buffered.view_of_drained hd]
    exact Buffered.view_of_drained hd'

theorem assign_buffer_of_ne (h : u ≠ w) :
    (s.assign build w l v).memory.buffer u = s.memory.buffer u := by
  cases build with
  | faulty => exact Buffered.buffer_write_of_ne h
  | mutex => exact Buffered.buffer_write_of_ne h
  | atomic => rfl

theorem assign_mem_of_ne (h : l' ≠ l) : (s.assign build w l v).memory.mem l' = s.memory.mem l' := by
  cases build with
  | faulty => rfl
  | mutex => rfl
  | atomic => exact Function.update_of_ne h _ _

theorem assign_pending {e : Loc × ℤ} (h : e ∈ (s.assign build w l v).memory.buffer w) :
    e ∈ s.memory.buffer w ∨ e = (l, v) := by
  cases build with
  | faulty => rwa [State.assign, Buffered.buffer_write, List.mem_append, List.mem_singleton] at h
  | mutex => rwa [State.assign, Buffered.buffer_write, List.mem_append, List.mem_singleton] at h
  | atomic => exact Or.inl h

end Assign

/-! ## One step of a thread, for the thread itself -/

namespace ThreadOk

/-- `l = v` in a thread, for one of its own two variables. -/
theorem assign {l : Loc} {v : ℤ} {pc' : ThreadPc}
    (h : ThreadOk build s.memory x b pc) (hl : l = own b ∧ v = 1 ∨ l = result b)
    (hborn : pc' ≠ .notCreated) (hstored : pc'.hasStored = true → pc.hasStored = true ∨ l = own b)
    (hloaded : pc'.hasLoaded = true → pc.hasLoaded = true ∧ l = result b)
    (hfinished : build = .mutex → pc' ≠ .finished) (hcritical : pc.critical = true)
    (hcritical' : build = .mutex → pc'.critical = true)
    (hlocks : pc' = .lock ∨ pc' = .unlock → build = .mutex) :
    ThreadOk build (s.assign build (.thread b) l v).memory x b pc' where
  pending w hw := by
    rcases assign_pending hw with hw | rfl
    · exact h.pending w hw
    · rcases hl with ⟨rfl, rfl⟩ | rfl
      · exact Or.inl rfl
      · exact Or.inr rfl
  unborn hpc := absurd hpc hborn
  stored hpc := by
    rw [assign_view h.atomic]
    rcases hl with ⟨rfl, rfl⟩ | rfl
    · exact Function.update_self _ _ _
    · rw [Function.update_of_ne (own_ne_result b b)]
      exact h.stored ((hstored hpc).resolve_right (own_ne_result b b).symm)
  exposed hpc := by
    obtain ⟨hpc, rfl⟩ := hloaded hpc
    rw [assign_mem_of_ne (own_ne_result b b)]
    exact (h.exposed hpc).imp_right fun hb => ⟨hb.1, hfinished hb.1⟩
  critical hb := ⟨fun _ => (h.critical hb).mp hcritical, fun _ => hcritical' hb⟩
  quiet hb hpc := by
    rw [hcritical' hb] at hpc
    cases hpc
  atomic hb := by
    subst hb
    exact h.atomic rfl
  locks := hlocks

theorem goto {pc' : ThreadPc} (h : ThreadOk build m x b pc) (hborn : pc' ≠ .notCreated)
    (hstored : pc'.hasStored = true → pc.hasStored = true)
    (hexposed : pc'.hasLoaded = true → m.mem (own b) = 1 ∨ build = .mutex ∧ pc' ≠ .finished)
    (hcritical : build = .mutex → (pc'.critical = true ↔ x' = some b))
    (hquiet : build = .mutex → pc'.critical = false → m.buffer (.thread b) = [])
    (hlocks : pc' = .lock ∨ pc' = .unlock → build = .mutex) : ThreadOk build m x' b pc' where
  pending := h.pending
  unborn hpc := absurd hpc hborn
  stored hpc := h.stored (hstored hpc)
  exposed := hexposed
  critical := hcritical
  quiet := hquiet
  atomic := h.atomic
  locks := hlocks

end ThreadOk

/-! ## The whole program -/

namespace MainPc

/-- `main` has created the thread. -/
def hasCreated : MainPc → Bool → Bool
  | .clearing _, _ => false
  | .creating b, c => b && !c
  | .joining _, _ | .testing, _ | .testingBoth, _ | .aborted, _ => true

/-- `main` has joined the thread. -/
def hasJoined : MainPc → Bool → Bool
  | .clearing _, _ | .creating _, _ => false
  | .joining b, c => b && !c
  | .testing, _ | .testingBoth, _ | .aborted, _ => true

end MainPc

structure Inv (build : Build) (s : State) : Prop where
  thread : ∀ b, ThreadOk build s.memory s.mutex b (s.threads b)
  created : ∀ b, s.threads b ≠ .notCreated ↔ s.main.hasCreated b = true
  mainQuiet : ∀ b, s.main.hasCreated b = true → s.drained .main
  mainAtomic : build = .atomic → s.drained .main
  joined : ∀ b, s.main.hasJoined b = true → s.threads b = .finished ∧ s.drained (.thread b)
  notBoth : ¬∀ b, loadedBy s.memory b (s.threads b) = some 0
  first : s.main = .testingBoth → s.memory.mem .r1 = 0
  running : s.main ≠ .aborted

/-- Before the first thread of an iteration is created. -/
theorem inv_unborn (hmain : ∀ b, s.main.hasCreated b = false)
    (hthreads : ∀ b, s.threads b = .notCreated) (hbuffer : ∀ b, s.drained (.thread b))
    (hatomic : build = .atomic → s.drained .main)
    (hmutex : build = .mutex → ∀ b, s.mutex ≠ some b) : Inv build s where
  thread b := by
    rw [hthreads b]
    exact
      { pending := fun w hw => by rw [hbuffer b] at hw; cases hw
        unborn := fun _ => hbuffer b
        stored := nofun
        exposed := nofun
        critical := fun hb => ⟨nofun, fun hx => absurd hx (hmutex hb b)⟩
        quiet := fun _ _ => hbuffer b
        atomic := fun _ => hbuffer b
        locks := nofun }
  created b := ⟨fun h => absurd (hthreads b) h, fun h => by rw [hmain b] at h; cases h⟩
  mainQuiet b h := by rw [hmain b] at h; cases h
  mainAtomic := hatomic
  joined b h := by
    have := hmain b
    revert h this
    cases s.main <;> simp [MainPc.hasCreated, MainPc.hasJoined]
  notBoth h := by
    have := h false
    rw [hthreads false] at this
    cases this
  first h := by
    have := hmain false
    rw [h] at this
    cases this
  running h := by
    have := hmain false
    rw [h] at this
    cases this

theorem inv_init (build : Build) : Inv build State.init :=
  inv_unborn (fun _ => rfl) (fun _ => rfl) (fun _ => rfl) (fun _ => rfl) (fun _ _ => nofun)

theorem loadedBy_congr (hbuffer : m'.buffer (.thread c) = m.buffer (.thread c))
    (hmem : m'.mem (result c) = m.mem (result c)) : loadedBy m' c pc = loadedBy m c pc := by
  have hview : m'.view (.thread c) (result c) = m.view (.thread c) (result c) := by
    rw [Buffered.view, hbuffer]
    exact Buffered.play_congr _ hmem
  cases pc <;> simp only [loadedBy, hview]

namespace Inv

/-- **A thread moves, or one of its stores does.** -/
theorem moveThread (h : Inv build s) (pc : ThreadPc)
    (hthreads : s'.threads = Function.update s.threads b pc)
    (hmain : s'.main = s.main) (hlive : s.threads b ≠ .notCreated) (hborn : pc ≠ .notCreated)
    (hjoined : s.main.hasJoined b = false) (hself : ThreadOk build s'.memory s'.mutex b pc)
    (hbuffer : ∀ w, w ≠ .thread b → s'.memory.buffer w = s.memory.buffer w)
    (hmem : ∀ l, l ≠ own b → l ≠ result b → s'.memory.mem l = s.memory.mem l)
    (hmutex : ∀ c, c ≠ b → (s'.mutex = some c ↔ s.mutex = some c))
    (hloaded : loadedBy s'.memory b pc = some 0 → loadedBy s.memory b (s.threads b) = some 0 ∨
      ∃ c, c ≠ b ∧ loadedBy s.memory c (s.threads c) ≠ some 0) : Inv build s' := by
  have hother : ∀ c, c ≠ b → s'.threads c = s.threads c ∧
      s'.memory.buffer (.thread c) = s.memory.buffer (.thread c) ∧
      s'.memory.mem (own c) = s.memory.mem (own c) ∧
      s'.memory.mem (result c) = s.memory.mem (result c) := fun c hc =>
    ⟨by rw [hthreads, Function.update_of_ne hc],
      hbuffer _ fun heq => hc (Who.thread.inj heq),
      hmem _ (own_ne_own hc) (own_ne_result b c),
      hmem _ (own_ne_result c b).symm (result_ne_result hc)⟩
  have hsame : ∀ c, c ≠ b → loadedBy s'.memory c (s'.threads c) =
      loadedBy s.memory c (s.threads c) := fun c hc => by
    obtain ⟨hpc, hbuf, -, hres⟩ := hother c hc
    rw [hpc, loadedBy_congr hbuf hres]
  have hself' : s'.threads b = pc := by rw [hthreads, Function.update_self]
  refine
    { thread := fun c => ?_
      created := fun c => ?_
      mainQuiet := fun c hc => ?_
      mainAtomic := fun hb => (hbuffer .main nofun).trans (h.mainAtomic hb)
      joined := fun c hc => ?_
      notBoth := fun hboth => ?_
      first := fun ht => ?_
      running := hmain ▸ h.running }
  · by_cases hc : c = b
    · subst hc
      rw [hself']
      exact hself
    · obtain ⟨hpc, hbuf, hown, -⟩ := hother c hc
      rw [hpc]
      exact (h.thread c).frame hbuf hown (hmutex c hc)
  · rw [hmain, ← h.created c]
    by_cases hc : c = b
    · subst hc
      rw [hself']
      exact ⟨fun _ => hlive, fun _ => hborn⟩
    · rw [(hother c hc).1]
  · rw [hmain] at hc
    exact (hbuffer .main nofun).trans (h.mainQuiet c hc)
  · rw [hmain] at hc
    have hcb : c ≠ b := by
      rintro rfl
      rw [hjoined] at hc
      cases hc
    obtain ⟨hpc, hbuf, -⟩ := hother c hcb
    obtain ⟨hfinished, hdrained⟩ := h.joined c hc
    exact ⟨hpc.trans hfinished, hbuf.trans hdrained⟩
  · rcases hloaded (hself' ▸ hboth b) with hb | ⟨c, hc, hne⟩
    · refine h.notBoth fun c => ?_
      by_cases hc : c = b
      · rw [hc, hb]
      · rw [← hsame c hc, hboth c]
    · exact hne ((hsame c hc).symm.trans (hboth c))
  · rw [hmain] at ht
    rw [ht] at hjoined
    cases hjoined

/-- A thread that is not finished has not been joined. -/
theorem not_joined (h : Inv build s) (hb : s.threads b ≠ .finished) :
    s.main.hasJoined b = false :=
  Bool.eq_false_iff.mpr fun hj => hb (h.joined b hj).1

/-- **The second load.**  If the thread's own store has reached the memory or nobody else is in
the critical section, then not both threads load `0`. -/
theorem load (h : Inv build s) (hpc : s.threads b = .load)
    (horder : build = .faulty → s.drained (.thread b)) :
    Inv build (s.setThread b (.save (s.memory.view (.thread b) (own !b)))) := by
  have hok := h.thread b
  rw [hpc] at hok
  refine h.moveThread _ rfl rfl (by rw [hpc]; nofun) nofun (h.not_joined (by rw [hpc]; nofun)) ?_
    (fun _ _ => rfl) (fun _ _ _ => rfl) (fun _ _ => Iff.rfl) (fun hzero => Or.inr ⟨!b, by simp, ?_⟩)
  · refine hok.goto nofun (fun _ => rfl) (fun _ => ?_) (fun hb => hok.critical hb)
      (fun _ hc => by cases hc) nofun
    cases build with
    | faulty => exact Or.inl (hok.exposed_of_drained (horder rfl) rfl)
    | atomic => exact Or.inl (hok.exposed_of_drained (hok.atomic rfl) rfl)
    | mutex => exact Or.inr ⟨rfl, nofun⟩
  · -- a load of `0` has seen no store of the other thread
    intro hother
    have hzero : s.memory.view (.thread b) (own !b) = 0 := Option.some.inj hzero
    rw [Buffered.view_of_notMem fun w hw => (hok.notMem_pending (by simp) w hw).1] at hzero
    have hloaded : (s.threads !b).hasLoaded = true := by
      revert hother
      cases s.threads !b <;> simp [loadedBy, ThreadPc.hasLoaded]
    rcases (h.thread !b).exposed hloaded with hone | ⟨hb, hne⟩
    · rw [hone] at hzero
      cases hzero
    · have hcritical : (s.threads !b).critical = true := by
        revert hloaded hne
        cases s.threads !b <;> simp [ThreadPc.critical, ThreadPc.hasLoaded]
      have h₁ := (hok.critical hb).mp rfl
      rw [((h.thread !b).critical hb).mp hcritical] at h₁
      simp at h₁

theorem stepThread (h : Inv build s) (hok : build = .faulty → inProgramOrder s (.thread b))
    (hstep : s.stepThread build b = some s') : Inv build s' := by
  have hself := h.thread b
  rw [State.stepThread] at hstep
  split at hstep
  · rename_i hpc
    split at hstep <;> cases hstep
    rename_i hlock
    rw [hpc] at hself
    refine h.moveThread _ rfl rfl (by rw [hpc]; nofun) nofun (h.not_joined (by rw [hpc]; nofun)) ?_
      (fun _ _ => rfl) (fun _ _ _ => rfl) (fun c hc => ?_) nofun
    · exact hself.goto nofun nofun nofun (fun _ => ⟨fun _ => rfl, fun _ => rfl⟩)
        (fun _ hc => by cases hc) nofun
    · rw [hlock.2]
      exact ⟨fun hcb => absurd (Option.some.inj hcb).symm hc, nofun⟩
  · rename_i hpc
    cases hstep
    rw [hpc] at hself
    refine h.moveThread .load (by simp [State.setThread]) assign_main (by rw [hpc]; nofun)
      nofun (h.not_joined (by rw [hpc]; nofun)) ?_ (fun _ hw => assign_buffer_of_ne hw)
      (fun _ hl _ => assign_mem_of_ne hl) (fun _ _ => by simp [State.setThread]) nofun
    have hself : ThreadOk build s.memory (s.assign build (.thread b) (own b) 1).mutex b .store := by
      rwa [assign_mutex]
    exact hself.assign (Or.inl ⟨rfl, rfl⟩) nofun (fun _ => Or.inr rfl) nofun (fun _ => nofun) rfl
      (fun _ => rfl) nofun
  · rename_i hpc
    cases hstep
    exact h.load hpc fun hb => hok hb hpc
  · rename_i v hpc
    cases hstep
    rw [hpc] at hself
    have hborn : build.exit ≠ .notCreated := by cases build <;> nofun
    refine h.moveThread build.exit (by simp [State.setThread]) assign_main
      (by rw [hpc]; nofun) hborn (h.not_joined (by rw [hpc]; nofun)) ?_
      (fun _ hw => assign_buffer_of_ne hw) (fun _ _ hl => assign_mem_of_ne hl)
      (fun _ _ => by simp [State.setThread]) (fun hzero => Or.inl ?_)
    · have hself : ThreadOk build s.memory (s.assign build (.thread b) (result b) v).mutex b
          (.save v) := by rwa [assign_mutex]
      exact hself.assign (Or.inr rfl) hborn (fun _ => Or.inl rfl) (fun _ => ⟨rfl, rfl⟩)
        (fun hb => by rw [hb]; nofun) rfl (fun hb => by rw [hb]; rfl)
        (by cases build <;> simp [Build.exit])
    · have hview : (s.assign build (.thread b) (result b) v).memory.view (.thread b) (result b) =
          v := by rw [assign_view hself.atomic, Function.update_self]
      have hzero : some ((s.assign build (.thread b) (result b) v).memory.view (.thread b)
          (result b)) = some 0 := by
        revert hzero
        cases build <;> exact id
      rw [hview] at hzero
      rw [hpc]
      exact hzero
  · rename_i hpc
    split at hstep <;> cases hstep
    rename_i hlock
    rw [hpc] at hself
    refine h.moveThread _ rfl rfl (by rw [hpc]; nofun) nofun (h.not_joined (by rw [hpc]; nofun)) ?_
      (fun _ _ => rfl) (fun _ _ _ => rfl) (fun c hc => ?_) (fun hzero => Or.inl ?_)
    · exact hself.goto nofun (fun _ => rfl) (fun _ => Or.inl (hself.exposed_of_drained hlock.1 rfl))
        (fun _ => ⟨nofun, nofun⟩) (fun _ _ => hlock.1) nofun
    · rw [hlock.2]
      exact ⟨nofun, fun hcb => absurd (Option.some.inj hcb).symm hc⟩
    · rw [hpc]
      exact hzero
  all_goals cases hstep

theorem commit (h : Inv build s) {w : Who} (hcommit : s.memory.commit w = some m) :
    Inv build { s with memory := m } := by
  obtain ⟨e, hbuffer, hsame⟩ := Buffered.buffer_commit hcommit
  have hne : s.memory.buffer w ≠ [] := by rw [hbuffer]; exact List.cons_ne_nil _ _
  cases w with
  | main =>
    have hnone : ∀ b, s.main.hasCreated b = false := fun b =>
      Bool.eq_false_iff.mpr fun hb => hne (h.mainQuiet b hb)
    have hunborn : ∀ b, s.threads b = .notCreated := fun b => by
      by_contra hb
      have := (h.created b).mp hb
      rw [hnone b] at this
      cases this
    refine inv_unborn hnone hunborn (fun b => ?_) (fun hb => absurd (h.mainAtomic hb) hne)
      (fun hb b hx => ?_)
    · exact (hsame (.thread b) nofun).trans ((h.thread b).unborn (hunborn b))
    · have := ((h.thread b).critical hb).mpr hx
      rw [hunborn b] at this
      cases this
  | thread b =>
    have hlive : s.threads b ≠ .notCreated := fun hb => hne ((h.thread b).unborn hb)
    have hview : loadedBy m b (s.threads b) = loadedBy s.memory b (s.threads b) := by
      have hv := Buffered.view_commit hcommit
      cases s.threads b <;> simp only [loadedBy, hv]
    refine h.moveThread (s.threads b) (Function.update_eq_self _ _).symm rfl hlive hlive
      (Bool.eq_false_iff.mpr fun hj => hne (h.joined b hj).2) ((h.thread b).commit_self hcommit)
      hsame (fun l hown hres => ?_) (fun _ _ => Iff.rfl) (fun hzero => Or.inl (hview ▸ hzero))
    rcases Buffered.mem_commit hcommit l with heq | hmem
    · exact heq
    · rcases (h.thread b).pending _ hmem with heq | heq
      · exact absurd (congrArg Prod.fst heq) hown
      · exact absurd heq hres

theorem unborn (h : Inv build s) (hmain : ∀ b, s.main.hasCreated b = false) (b : Bool) :
    s.threads b = .notCreated := by
  by_contra hb
  have := (h.created b).mp hb
  rw [hmain b] at this
  cases this

/-- A thread that is not in the critical section does not hold the mutex. -/
theorem not_held (h : Inv build s) (hpc : (s.threads b).critical = false) (hb : build = .mutex) :
    s.mutex ≠ some b := fun hx => by
  have := ((h.thread b).critical hb).mpr hx
  rw [hpc] at this
  cases this

/-- `l = 0` in `main`. -/
theorem clear (h : Inv build s) {l : Loc} (hmain : s.main = .clearing l) :
    Inv build ((s.assign build .main l 0).goMain (.afterClearing l)) := by
  have hunborn := h.unborn fun b => by rw [hmain]; rfl
  refine inv_unborn (fun b => by cases l <;> rfl) (fun b => ?_) (fun b => ?_) (fun hb => ?_)
    (fun hb b => ?_)
  · exact (congrFun assign_threads b).trans (hunborn b)
  · have hne : Who.thread b ≠ .main := nofun
    exact (assign_buffer_of_ne hne).trans ((h.thread b).unborn (hunborn b))
  · subst hb
    exact h.mainAtomic rfl
  · have hnot : s.mutex ≠ some b := h.not_held (by rw [hunborn b]; rfl) hb
    exact fun hx => hnot (assign_mutex.symm.trans hx)

theorem create (h : Inv build s) (hmain : s.main = .creating b) (hd : s.drained .main) :
    Inv build ((s.setThread b build.entry).goMain (.afterCreating b)) := by
  have hcreated : ∀ c, s.threads c ≠ .notCreated ↔ (b && !c) = true := fun c => by
    rw [h.created c, hmain]
    rfl
  have hnew : s.threads b = .notCreated := by
    by_contra hb
    have := (hcreated b).mp hb
    simp at this
  have hafter : ∀ c, (MainPc.afterCreating b).hasCreated c = (b || !c) := by
    cases b <;> decide
  have hself := h.thread b
  rw [hnew] at hself
  exact
    { thread := fun c => by
        show ThreadOk build s.memory s.mutex c (Function.update s.threads b build.entry c)
        by_cases hc : c = b
        · subst hc
          rw [Function.update_self]
          exact hself.goto (by cases build <;> nofun) (by cases build <;> nofun)
            (by cases build <;> nofun)
            (fun hb => by subst hb; exact hself.critical rfl) (fun _ _ => hself.unborn rfl)
            (by cases build <;> simp [Build.entry])
        · rw [Function.update_of_ne hc]
          exact h.thread c
      created := fun c => by
        show Function.update s.threads b build.entry c ≠ _ ↔
          (MainPc.afterCreating b).hasCreated c = true
        by_cases hc : c = b
        · subst hc
          rw [Function.update_self, hafter]
          exact ⟨fun _ => by cases c <;> rfl, fun _ => by cases build <;> nofun⟩
        · rw [Function.update_of_ne hc, hcreated c, hafter]
          cases b <;> cases c <;> simp_all
      mainQuiet := fun _ _ => hd
      mainAtomic := h.mainAtomic
      joined := fun c hc => by
        revert hc
        cases b <;> cases c <;> nofun
      notBoth := fun hboth => by
        have hb : loadedBy s.memory b (Function.update s.threads b build.entry b) = some 0 :=
          hboth b
        rw [Function.update_self] at hb
        revert hb
        cases build <;> nofun
      first := fun ht => by
        revert ht
        cases b <;> nofun
      running := by cases b <;> nofun }

theorem goMain (h : Inv build s) {main : MainPc}
    (hold : ∀ b, s.main.hasCreated b = true) (hnew : ∀ b, main.hasCreated b = true)
    (hjoined : ∀ b, main.hasJoined b = true → s.threads b = .finished ∧ s.drained (.thread b))
    (hfirst : main = .testingBoth → s.memory.mem .r1 = 0) (hrunning : main ≠ .aborted) :
    Inv build (s.goMain main) :=
  { h with
    created := fun b => (h.created b).trans (by rw [hold b, State.goMain, hnew b])
    mainQuiet := fun b _ => h.mainQuiet b (hold b)
    joined := hjoined
    first := hfirst
    running := hrunning }

theorem again (h : Inv build s) (hjoined : ∀ b, s.main.hasJoined b = true) : Inv build s.again :=
  inv_unborn (fun _ => rfl) (fun _ => rfl) (fun b => (h.joined b (hjoined b)).2) h.mainAtomic
    fun hb b => h.not_held (by rw [(h.joined b (hjoined b)).1]; rfl) hb

/-- What a joined thread has loaded is in the memory. -/
theorem loadedBy_joined (h : Inv build s) (hb : s.main.hasJoined b = true) :
    loadedBy s.memory b (s.threads b) = some (s.memory.mem (result b)) := by
  obtain ⟨hfinished, hdrained⟩ := h.joined b hb
  rw [hfinished, loadedBy, Buffered.view_of_drained hdrained]

theorem stepMain (h : Inv build s) (hstep : s.stepMain build = some s') : Inv build s' := by
  have hcreated : (∀ b, s.main.hasJoined b = true) → ∀ b, s.main.hasCreated b = true := by
    intro hj b
    have := hj b
    revert this
    cases s.main <;> simp [MainPc.hasJoined, MainPc.hasCreated]
  have hview : (∀ b, s.main.hasCreated b = true) → s.memory.view .main = s.memory.mem := fun hc =>
    Buffered.view_of_drained (h.mainQuiet false (hc false))
  rw [State.stepMain] at hstep
  split at hstep
  · cases hstep
    exact h.clear ‹_›
  · split at hstep <;> cases hstep
    exact h.create ‹_› ‹_›
  · rename_i b hmain
    split at hstep <;> cases hstep
    rename_i hb
    refine h.goMain (fun c => by rw [hmain]; rfl) (fun c => by cases b <;> rfl) (fun c hc => ?_)
      (by cases b <;> nofun) (by cases b <;> nofun)
    by_cases hcb : c = b
    · rw [hcb]
      exact hb
    · refine h.joined c ?_
      rw [hmain]
      revert hc hcb
      cases b <;> cases c <;> simp [MainPc.hasJoined, MainPc.afterJoining]
  · rename_i hmain
    have hj : ∀ b, s.main.hasJoined b = true := fun b => by rw [hmain]; rfl
    split at hstep <;> cases hstep
    · rename_i hzero
      rw [hview (hcreated hj)] at hzero
      exact h.goMain (hcreated hj) (fun _ => rfl) (fun b _ => h.joined b (hj b)) (fun _ => hzero)
        nofun
    · exact h.again hj
  · rename_i hmain
    have hj : ∀ b, s.main.hasJoined b = true := fun b => by rw [hmain]; rfl
    split at hstep <;> cases hstep
    · rename_i hzero
      rw [hview (hcreated hj)] at hzero
      refine absurd (fun b => ?_) h.notBoth
      rw [h.loadedBy_joined (hj b)]
      cases b
      · exact congrArg some (h.first hmain)
      · exact congrArg some hzero
    · exact h.again hj
  · cases hstep

/-- **Every step keeps the invariant**, if the machine does not delay a store past a load or the
build does not let it. -/
theorem step (h : Inv build s) {a : Act} (hok : build = .faulty → inProgramOrder s a)
    (hstep : s.step build a = some s') : Inv build s' := by
  cases a with
  | main => exact h.stepMain hstep
  | thread b => exact h.stepThread hok hstep
  | commit w =>
    obtain ⟨m, hcommit, rfl⟩ := Option.map_eq_some_iff.mp hstep
    exact h.commit hcommit

end Inv

/-! ## Every run -/

/-- The loads of `faulty.c` wait for the thread's own store; those of the other two files come as
they may. -/
def loadsInOrder (build : Build) (s : State) (a : Act) : Prop :=
  build = .faulty → inProgramOrder s a

instance (build : Build) (s : State) (a : Act) : Decidable (loadsInOrder build s a) :=
  inferInstanceAs (Decidable (_ → _))

theorem inv_of_trace {as : List Act}
    (h : Trace (State.step build) (loadsInOrder build) State.init as s) : Inv build s :=
  h.invariant (P := Inv build) (fun _ _ _ hs hok hstep => hs.step hok hstep) (inv_init build)

/-- **The program does not abort**: `atomic.c` and `mutex.c` in no run, and `faulty.c` in no run
in which every load waits for the thread's own store. -/
theorem never_aborts {as : List Act}
    (h : Trace (State.step build) (loadsInOrder build) State.init as s) : s.main ≠ .aborted :=
  (inv_of_trace h).running

/-- The first thread keeps its store in the buffer while it loads, and the second one waits for the
mutex. -/
def delayedStore : List Act :=
  [.main, .main, .main, .main, .commit .main, .commit .main, .commit .main, .commit .main, .main,
    .main, .thread false, .thread false, .thread false, .thread false, .commit (.thread false),
    .commit (.thread false), .thread false, .thread true, .thread true, .thread true, .thread true,
    .commit (.thread true), .commit (.thread true), .thread true, .main, .main, .main, .main]

theorem never_aborts_delayedStore :
    ∃ s, Trace (State.step .mutex) (loadsInOrder .mutex) State.init delayedStore s ∧
      s.iteration = 1 ∧ s.main ≠ .aborted := by
  obtain ⟨s, h, hs⟩ := Trace.exists_of_eval (State.step .mutex) (loadsInOrder .mutex)
    (fun s => decide (s.iteration = 1)) State.init delayedStore (by decide)
  exact ⟨s, h, of_decide_eq_true hs, never_aborts h⟩

end Faulty
end CaosSeminars
