import CaosSeminars.Epoll.Readiness

/-!
# No lost wakeup

Edge-triggered readiness is reported once.  A handler that leaves work undone
must therefore leave an event queued for it, or the connection stalls.

Three facts make up the invariant: unread input has its event queued
(`inputQueued`), `EPOLLOUT` is registered exactly while bytes are pending
(`outputArmed`), and pending bytes wait either for send space or for an event
that is queued (`outputQueued`).  Between two events all three hold.  Inside an
event each is broken and restored at its own time, so the invariant is a
predicate for each place of the handler (`AwakeAt`): the read loop need not keep
`inputQueued`, because it ends only when nothing is unread, and after a read the
re-registration queues the event for the bytes that came in.

* `AwakeAt.of_client` --- whatever the client does keeps the invariant of every place.
* `awakeAt_onEvent`, `awakeAt_onRead`, `awakeAt_onWrite` and the rest --- one lemma for each place
  at which the handler goes on.
* `exists_deliver` --- with an event queued there is something for `epoll_wait` to return.
* `connection_never_stalls` --- between two events, in every run: if bytes are unread or can be
  sent, an event is queued for them.
-/

namespace CaosSeminars
namespace Epoll

variable {s s' : Sys} {a : SysAct} {m : Mask} {out : Bool}

/-! ## The invariant -/

namespace Sys

/-- Unread input has its event queued. -/
def inputQueued (s : Sys) : Prop := s.unread ≠ [] → s.queued.epollIn

/-- `EPOLLOUT` is registered exactly while bytes are pending. -/
def outputArmed (s : Sys) : Prop := s.conn.data.pending ≠ [] ↔ s.outRegistered

/-- Pending bytes wait for send space, for a queued event, or for the `EPOLLOUT`
part of the event being handled (`out`). -/
def outputQueued (s : Sys) (out : Bool) : Prop :=
  s.conn.data.pending ≠ [] → s.space = 0 ∨ s.queued.epollOut ∨ out

end Sys

/-- What holds at each place of the handler. -/
def AwakeAt (s : Sys) : Pc → Prop
  | .waiting => s.inputQueued ∧ s.outputArmed ∧ s.outputQueued false
  | .reading m => s.outputArmed ∧ s.outputQueued m.epollOut
  | .rearming _ => s.conn.data.pending ≠ []
  | .writing => s.inputQueued ∧ s.outputArmed
  | .disarming => s.inputQueued ∧ s.conn.data.pending = []
  | .closed => True

/-- The invariant. -/
structure Awake (s : Sys) : Prop where
  echoes : Echoes s.conn
  awake : AwakeAt s s.conn.pc

/-- The accept branch registers the connection, which queues what has arrived. -/
theorem awake_init (fd : ℤ) (bs : List UInt8) (fin : Bool) (space : ℕ) :
    Awake (Sys.init fd bs fin space) := by
  refine ⟨echoes_init fd, ?_, ?_, ?_⟩
  · intro hbs
    have hne : bs ≠ [] := hbs
    simp [Sys.init, Sys.modify, Sys.readiness, Mask.union, hne]
  · simp [Sys.outputArmed, Sys.init, Sys.modify, Conn.init]
  · intro hpending
    simp [Sys.init, Sys.modify, Conn.init] at hpending

/-! ## The client moves -/

/-- What the client does changes the queue of the kernel only, and keeps what
holds at every place. -/
theorem AwakeAt.of_client {pc : Pc} (hdata : s'.conn.data = s.conn.data)
    (hregistered : s'.outRegistered = s.outRegistered)
    (hin : s.inputQueued → s'.inputQueued)
    (hout : ∀ out, s.outputArmed → s.outputQueued out → s'.outputQueued out)
    (h : AwakeAt s pc) : AwakeAt s' pc := by
  have harmed : s'.outputArmed ↔ s.outputArmed := by
    rw [Sys.outputArmed, Sys.outputArmed, hdata, hregistered]
  cases pc with
  | waiting => exact ⟨hin h.1, harmed.mpr h.2.1, hout _ h.2.1 h.2.2⟩
  | reading m => exact ⟨harmed.mpr h.1, hout _ h.1 h.2⟩
  | rearming m =>
    show s'.conn.data.pending ≠ []
    rw [hdata]
    exact h
  | writing => exact ⟨hin h.1, harmed.mpr h.2⟩
  | disarming => exact ⟨hin h.1, hdata ▸ h.2⟩
  | closed => trivial

/-- Send space that comes back is announced, because `EPOLLOUT` is registered
while bytes are pending. -/
theorem outputQueued_recv {n : ℕ} (harmed : s.outputArmed) (h : s.outputQueued out) :
    Sys.outputQueued
      { s with
        space := s.space + n
        queued :=
          { s.queued with
              epollOut := s.queued.epollOut || (s.outRegistered && decide (s.space = 0)) } }
      out := by
  intro hpending
  have hregistered : s.outRegistered = true := harmed.mp hpending
  rcases h hpending with hspace | hqueued | hout
  · refine Or.inr (Or.inl ?_)
    simp [hregistered, hspace]
  · refine Or.inr (Or.inl ?_)
    simp [hqueued]
  · exact Or.inr (Or.inr hout)

/-! ## The handler moves -/

/-- The reads are over: with the `EPOLLOUT` bit the handler goes on to write, and
without it pending bytes do not wait for this event. -/
theorem awakeAt_afterReads (hin : s.inputQueued) (harmed : s.outputArmed)
    (hout : s.outputQueued m.epollOut) : AwakeAt s (afterReads m) := by
  rw [afterReads]
  split
  · exact ⟨hin, harmed⟩
  · rename_i hbit
    rw [Bool.eq_false_of_not_eq_true hbit] at hout
    exact ⟨hin, harmed, hout⟩

/-- An event carries every bit that was queued and still holds, so what it takes
off the queue it hands to the handler. -/
theorem awakeAt_onEvent (hm : delivers s m) (h : AwakeAt s .waiting) :
    AwakeAt { s with conn := { s.conn with pc := onEvent m }, queued := Mask.none }
      (onEvent m) := by
  obtain ⟨hin, harmed, hout⟩ := h
  obtain ⟨hbitIn, hbitOut, -⟩ := Mask.sub_iff.mp hm.2.1
  have hout' : Sys.outputQueued
      { s with conn := { s.conn with pc := onEvent m }, queued := Mask.none } m.epollOut := by
    intro hpending
    rcases Nat.eq_zero_or_pos s.space with hspace | hspace
    · exact Or.inl hspace
    · have hqueued : s.queued.epollOut = true := by
        rcases hout hpending with h₀ | h₀ | h₀
        · exact absurd h₀ hspace.ne'
        · exact h₀
        · exact absurd h₀ (by simp)
      have hregistered : s.outRegistered = true := harmed.mp hpending
      refine Or.inr (Or.inr (hbitOut ?_))
      simp [Mask.inter, Sys.readiness, hqueued, hregistered, hspace]
  rw [onEvent]
  split
  · trivial
  · split
    · exact ⟨harmed, hout'⟩
    · rename_i hbit
      -- unread input would have been queued, and so would be in the mask
      have hunread : s.unread = [] := by
        by_contra hne
        refine hbit (hbitIn ?_)
        simp [Mask.inter, Sys.readiness, hin hne, hne]
      exact awakeAt_afterReads (fun hne => absurd hunread hne) harmed hout'

/-- The read loop ends only when nothing is unread. -/
theorem awakeAt_onRead {k : ℕ} (hk : 0 < k) (h : AwakeAt s (.reading m)) (hb : Bounds s.conn.data)
    (hr : readPromise s.conn.data (s.readAnswer k)) {c : Conn}
    (hc : c.data = (readBuff s.conn.data (s.readAnswer k)).1) :
    AwakeAt
      { s with
        conn := c
        unread := s.unread.drop (bytesRead s.conn.data (s.readAnswer k)).length }
      (onRead m (readBuff s.conn.data (s.readAnswer k)).2) := by
  by_cases hfull : full s.conn.data
  · simp [readBuff_full hfull, onRead, AwakeAt]
  · by_cases hunread : s.unread = []
    · -- `EAGAIN` or the end of the stream: `0`, and nothing changes
      have hother : ∀ bs, s.readAnswer k ≠ .bytes bs := by
        intro bs
        rw [Sys.readAnswer, if_pos hunread]
        split <;> simp
      have hzero : (readBuff s.conn.data (s.readAnswer k)).2 = 0 := by
        rw [Sys.readAnswer, if_pos hunread]
        split <;> simp [readBuff, hfull]
      rw [readBuff_other hother] at hc
      rw [hzero, onRead, if_neg (lt_irrefl _), if_pos rfl]
      refine awakeAt_afterReads (fun hne => absurd (by simp [hunread]) hne) ?_ ?_
      · simpa only [Sys.outputArmed, hc] using h.1
      · simpa only [Sys.outputQueued, hc] using h.2
    · have hanswer : s.readAnswer k = .bytes (s.unread.take k) := if_neg hunread
      have hpos : 0 < (s.unread.take k).length := by
        rw [List.length_take]
        exact lt_min hk (List.length_pos_iff.mpr hunread)
      have hresult : (readBuff s.conn.data (s.readAnswer k)).2 = (s.unread.take k).length := by
        rw [hanswer, readBuff_bytes hfull]
      have hpending := (readBuff_spec hb hr).2
      rw [hresult, onRead, if_pos (Int.natCast_pos.mpr hpos)]
      show c.data.pending ≠ []
      rw [hc, hpending, hanswer, bytesRead, if_neg hfull]
      exact List.append_ne_nil_of_right_ne_nil _ (List.length_pos_iff.mp hpos)

/-- Registering `EPOLLOUT` queues the event if there is send space. -/
theorem awakeAt_rearm (h : s.conn.data.pending ≠ []) : AwakeAt (s.modify true) (.reading m) := by
  refine ⟨iff_of_true h rfl, fun _ => ?_⟩
  rcases Nat.eq_zero_or_pos s.space with hspace | hspace
  · exact Or.inl hspace
  · refine Or.inr (Or.inl ?_)
    simp [Sys.modify, Mask.union, Sys.readiness, hspace]

/-- A write that leaves bytes pending leaves no send space. -/
theorem space_eq_written (hb : Bounds s.conn.data)
    (hleft : (writeBuff s.conn.data s.writeAnswer).1.pending ≠ []) :
    s.space - (bytesWritten s.conn.data s.writeAnswer).length = 0 := by
  have hspec := (writeBuff_spec hb writePromise_writeAnswer).2
  have hlen := hb.length_pending
  rw [Sys.writeAnswer] at hspec hleft ⊢
  split at hspec
  · rename_i hspace
    rw [hspace, Nat.zero_sub]
  · rename_i hspace
    rw [if_neg hspace] at hleft ⊢
    by_cases hnone : nothingToWrite s.conn.data
    · -- nothing was pending to begin with
      refine absurd ?_ hleft
      rw [writeBuff_nothing hnone, hb.pending_eq_nil_iff]
      exact le_antisymm hb.begin_le_end hnone
    · have hleft' := List.length_pos_iff.mpr hleft
      have hlens := congrArg List.length hspec
      rw [List.length_append] at hlens
      have hcount : (writeSpan s.conn.data).count =
          s.conn.data.bufferEnd - s.conn.data.bufferBegin := rfl
      simp only [bytesWritten, if_neg hnone, List.length_take] at hlens ⊢
      omega

/-- After a write the cursors have met, or bytes are left and there is no send
space. -/
theorem awakeAt_onWrite (h : AwakeAt s .writing) (hb : Bounds s.conn.data) {c : Conn}
    (hc : c.data = (writeBuff s.conn.data s.writeAnswer).1) :
    AwakeAt
      { s with
        conn := c
        space := s.space - (bytesWritten s.conn.data s.writeAnswer).length }
      (onWrite (writeBuff s.conn.data s.writeAnswer).1
        (writeBuff s.conn.data s.writeAnswer).2) := by
  obtain ⟨hin, harmed⟩ := h
  obtain ⟨hb', hspec⟩ := writeBuff_spec hb writePromise_writeAnswer
  rw [onWrite]
  split
  · trivial
  · split
    · rename_i hmeet
      refine ⟨hin, ?_⟩
      rw [hc]
      exact hb'.pending_eq_nil_iff.mpr hmeet
    · rename_i hmeet
      have hleft : (writeBuff s.conn.data s.writeAnswer).1.pending ≠ [] :=
        mt hb'.pending_eq_nil_iff.mp hmeet
      have hwas : s.conn.data.pending ≠ [] := by
        rw [hspec]
        exact List.append_ne_nil_of_right_ne_nil _ hleft
      refine ⟨hin, iff_of_true ?_ (harmed.mp hwas), fun _ => Or.inl (space_eq_written hb hleft)⟩
      rw [hc]
      exact hleft

/-- Taking `EPOLLOUT` out of the interest queues the event of unread input. -/
theorem awakeAt_disarm (h : s.conn.data.pending = []) : AwakeAt (s.modify false) .waiting := by
  refine ⟨fun hunread => ?_, iff_of_false (not_not.mpr h) (by simp [Sys.modify]),
    fun hpending => absurd h hpending⟩
  have hne : s.unread ≠ [] := hunread
  simp [Sys.modify, Mask.union, Sys.readiness, hne]

theorem Awake.moves (h : Awake s) (hok : kernelPromises s a) (hm : SysMoves s a s') :
    Awake s' := by
  refine ⟨hm.echoes hok h.echoes, ?_⟩
  have hawake := h.awake
  have hb := h.echoes.bounds
  cases hm with
  | send hbs hfin =>
    exact AwakeAt.of_client (s := s) rfl rfl (fun _ _ => rfl) (fun _ _ hout => hout) hawake
  | shutdown hfin =>
    exact AwakeAt.of_client (s := s) rfl rfl (fun _ _ => rfl) (fun _ _ hout => hout) hawake
  | recv hn =>
    exact AwakeAt.of_client (s := s) rfl rfl (fun hin => hin) (fun _ => outputQueued_recv) hawake
  | deliver m hpc =>
    rw [hpc] at hawake
    exact awakeAt_onEvent hok hawake
  | read k hpc =>
    rw [hpc] at hawake
    exact awakeAt_onRead hok.1 hawake hb (readPromise_readAnswer hok) rfl
  | rearm hpc =>
    rw [hpc] at hawake
    exact awakeAt_rearm hawake
  | write hpc =>
    rw [hpc] at hawake
    exact awakeAt_onWrite hawake hb rfl
  | disarm hpc =>
    rw [hpc] at hawake
    exact awakeAt_disarm hawake.2

theorem awake_of_trace {fd : ℤ} {bs : List UInt8} {fin : Bool} {space : ℕ} {as : List SysAct}
    (h : Trace Sys.step kernelPromises (Sys.init fd bs fin space) as s) : Awake s :=
  h.invariant (fun _ _ _ hs hok hstep => hs.moves hok (sysMoves_of_step hstep))
    (awake_init fd bs fin space)

/-- With an event queued `epoll_wait` has something to hand out. -/
theorem exists_deliver (hpc : s.conn.pc = .waiting) (hqueued : s.queued ≠ Mask.none) :
    ∃ m s', kernelPromises s (.deliver m) ∧ s.step (.deliver m) = some s' := by
  refine ⟨s.queued,
    { s with conn := { s.conn with pc := onEvent s.queued }, queued := Mask.none },
    ⟨hqueued, ?_, ?_⟩, ?_⟩
  · simp +contextual [Mask.sub_iff, Mask.inter]
  · simp +contextual [Mask.sub_iff, Mask.union]
  · simp [Sys.step, Conn.step, clientStep, hpc, stepReceived, stepSent]

/-- **No lost wakeup.**  In every state between two events, however the client's
sends, its reads and the events fell: input is unread only if its event is
queued; `EPOLLOUT` is registered exactly while bytes are pending; pending bytes
wait for send space or for an event that is queued.  So while there is work to
do --- unread input, or pending bytes and send space --- an event can be handed
out. -/
theorem connection_never_stalls (fd : ℤ) (bs : List UInt8) (fin : Bool) (space : ℕ)
    {as : List SysAct} (h : Trace Sys.step kernelPromises (Sys.init fd bs fin space) as s)
    (hpc : s.conn.pc = .waiting) :
    (s.unread ≠ [] → s.queued.epollIn) ∧
    (s.conn.data.pending ≠ [] ↔ s.outRegistered) ∧
    (s.conn.data.pending ≠ [] → s.space = 0 ∨ s.queued.epollOut) ∧
    ((s.unread ≠ [] ∨ s.conn.data.pending ≠ [] ∧ 0 < s.space) →
      ∃ m s', kernelPromises s (.deliver m) ∧ s.step (.deliver m) = some s') := by
  have hawake := (awake_of_trace h).awake
  rw [hpc] at hawake
  obtain ⟨hin, harmed, hout⟩ := hawake
  have hout' : s.conn.data.pending ≠ [] → s.space = 0 ∨ s.queued.epollOut := by
    simpa [Sys.outputQueued] using hout
  refine ⟨hin, harmed, hout', fun hwork => exists_deliver hpc fun hnone => ?_⟩
  rcases hwork with hunread | ⟨hpending, hspace⟩
  · simpa [hnone, Mask.none] using hin hunread
  · rcases hout' hpending with h₀ | h₀
    · exact absurd h₀ hspace.ne'
    · simp [hnone, Mask.none] at h₀

/-- Four bytes come in while there is send space for two: one event reads them, the
next writes two, and the client then reads one. -/
def backPressure : List SysAct :=
  [.deliver ⟨true, false, false, false, false⟩, .read 100, .rearm, .read 100,
    .deliver ⟨false, true, false, false, false⟩, .write, .recv 1]

/-- Two bytes are pending, and the event for the new send space is queued. -/
theorem connection_never_stalls_backPressure :
    ∃ s, Trace Sys.step kernelPromises (Sys.init 5 [1, 2, 3, 4] false 2) backPressure s ∧
      s.conn.sent = [1, 2] ∧ s.outRegistered ∧
      ∃ m s', kernelPromises s (.deliver m) ∧ s.step (.deliver m) = some s' := by
  obtain ⟨s, h, hp⟩ := Trace.exists_of_eval Sys.step kernelPromises
    (fun s => s.conn.pc = .waiting ∧ s.conn.sent = [1, 2] ∧ s.conn.data.pending ≠ [] ∧
      0 < s.space) (Sys.init 5 [1, 2, 3, 4] false 2) backPressure (by decide +kernel)
  obtain ⟨hpc, hsent, hpending, hspace⟩ := of_decide_eq_true hp
  obtain ⟨-, harmed, -, hevent⟩ := connection_never_stalls 5 [1, 2, 3, 4] false 2 h hpc
  exact ⟨s, h, hsent, harmed.mp hpending, hevent (Or.inr ⟨hpending, hspace⟩)⟩

end Epoll
end CaosSeminars
