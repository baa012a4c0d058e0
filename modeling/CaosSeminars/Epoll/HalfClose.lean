import CaosSeminars.Epoll.FullBuffer
import CaosSeminars.Epoll.Readiness

/-!
# A client that shuts down its sending side

A client sends a message, shuts down only its sending side, and keeps reading:
it waits for the echo of the whole.  The interest the server registers includes
`EPOLLRDHUP`, and `process_epoll_event` looks at the hangup bits first, before
it reads and before it writes.  So the event that announces the end of the
client's input closes the connection, and with it go the bytes that are still in
the receive queue or between the cursors.

Nothing is lost exactly when that event finds both empty and, as in
`Epoll.FullBuffer`, every successful read leaves room (`drained`).  The proof
follows the run to the first step that breaks one of the two: from there on the
connection is `Doomed`, it sends nothing more, and it has sent less than the
message.

In terms of the bytes alone: the end of the input is announced only when all that
the client has sent is echoed (`announcedLate`), and every burst is shorter than the
buffer (`drained_iff_short`).

* `Keeps` --- where the bytes of the client are: echoed, between the cursors, unread, or to be sent.
* `Completes` --- the invariant while every step is drained; `Cut` --- what holds after the first
  one that is not.
* `halfCloser_echoed_iff_drained` --- in every run that has reached the close, the whole message is
  echoed **iff** every step was drained.
-/

namespace CaosSeminars
namespace Epoll

/-- The client sends a prefix of `msg` with at most `BUFF_SIZE - 1` bytes not yet
echoed, and shuts down when it has sent the whole. -/
def clientPromise (msg : List UInt8) (s : Sys) : SysAct → Prop
  | .send bs =>
    s.clientSent ++ bs <+: msg ∧ (s.clientSent ++ bs).length ≤ s.conn.sent.length + (BUFF_SIZE - 1)
  | .shutdown => s.clientSent = msg
  | _ => True

/-- What the kernel and this client promise.  There are no I/O errors. -/
structure halfCloser (msg : List UInt8) (s : Sys) (a : SysAct) : Prop where
  kernel : kernelPromises s a
  client : clientPromise msg s a

instance (msg : List UInt8) (s : Sys) : (a : SysAct) → Decidable (clientPromise msg s a)
  | .send _ => inferInstanceAs (Decidable (_ ∧ _))
  | .shutdown => inferInstanceAs (Decidable (_ = _))
  | .recv _ | .deliver _ | .read _ | .rearm | .write | .disarm => inferInstanceAs (Decidable True)

instance (msg : List UInt8) (s : Sys) (a : SysAct) : Decidable (halfCloser msg s a) :=
  decidable_of_iff (kernelPromises s a ∧ clientPromise msg s a)
    ⟨fun h => ⟨h.1, h.2⟩, fun h => ⟨h.kernel, h.client⟩⟩

/-- What the client may have done before its connection is accepted. -/
structure MayStart (msg bs : List UInt8) (fin : Bool) : Prop where
  pre : bs <+: msg
  unechoed : bs.length ≤ BUFF_SIZE - 1
  all : fin → bs = msg

/-- The end of the client's input is seen only with nothing unread and nothing
pending, and a successful read leaves room behind `buffer_end`. -/
def drained (s : Sys) : SysAct → Prop
  | .deliver m => m.epollRdhup → s.unread = [] ∧ s.conn.data.pending = []
  | .read k => leavesRoom s.conn (.read (s.readAnswer k))
  | _ => True

/-- The end of the client's input is seen only when all its bytes are echoed. -/
def announcedLate (s : Sys) : SysAct → Prop
  | .deliver m => m.epollRdhup → s.conn.sent = s.clientSent
  | _ => True

variable {msg bs : List UInt8} {fin : Bool} {s s' : Sys} {a : SysAct} {c c' : Conn}

/-! ## Where the client's bytes are -/

/-- A `read` takes bytes off the receive queue, and `read_buff` drops none. -/
theorem bytesRead_append_drop (d : FdData) (k : ℕ) :
    bytesRead d (s.readAnswer k) ++ s.unread.drop (bytesRead d (s.readAnswer k)).length =
      s.unread := by
  have htake : bytesRead d (s.readAnswer k) = [] ∨
      bytesRead d (s.readAnswer k) = s.unread.take k := by
    rw [Sys.readAnswer]
    split
    · split <;> exact Or.inl rfl
    · by_cases hfull : full d
      · exact Or.inl (if_pos hfull)
      · exact Or.inr (if_neg hfull)
  rcases htake with htake | htake
  · rw [htake, List.nil_append, List.length_nil, List.drop_zero]
  · rw [htake, List.length_take]
    rcases le_total k s.unread.length with hle | hle
    · rw [min_eq_left hle, List.take_append_drop]
    · rw [min_eq_right hle, List.take_of_length_le hle, List.drop_length, List.append_nil]

/-- The client's bytes are read or unread, the client keeps to its message, and
the hangup bits tell of its shutdown only. -/
structure Keeps (msg : List UInt8) (s : Sys) : Prop where
  echoes : Echoes s.conn
  arrived : s.conn.received ++ s.unread = s.clientSent
  pre : s.clientSent <+: msg
  all : s.fin → s.clientSent = msg
  rdhup : s.queued.epollRdhup → s.fin
  err : s.queued.epollErr = false
  hup : s.queued.epollHup = false

theorem keeps_init (fd : ℤ) (space : ℕ) (h : MayStart msg bs fin) :
    Keeps msg (Sys.init fd bs fin space) where
  echoes := echoes_init fd
  arrived := List.nil_append bs
  pre := h.pre
  all := h.all
  rdhup := by simp [Sys.init, Sys.modify, Mask.union, Mask.none, Sys.readiness]
  err := rfl
  hup := rfl

theorem Keeps.goto (h : Keeps msg s) (pc : Pc) :
    Keeps msg { s with conn := { s.conn with pc := pc } } :=
  ⟨⟨h.echoes.bounds, h.echoes.stream⟩, h.arrived, h.pre, h.all, h.rdhup, h.err, h.hup⟩

/-- Registering an interest queues no hangup but that of the client. -/
theorem Keeps.modify (h : Keeps msg s) (out : Bool) : Keeps msg (s.modify out) where
  echoes := h.echoes
  arrived := h.arrived
  pre := h.pre
  all := h.all
  rdhup := by
    intro hbit
    rcases Bool.or_eq_true_iff.mp hbit with hqueued | hready
    · exact h.rdhup hqueued
    · exact hready
  err := by simp [Sys.modify, Mask.union, Sys.readiness, h.err]
  hup := by simp [Sys.modify, Mask.union, Sys.readiness, h.hup]

theorem Keeps.moves (h : Keeps msg s) (hok : halfCloser msg s a) (hm : SysMoves s a s') :
    Keeps msg s' := by
  have hechoes := hm.echoes hok.kernel h.echoes
  cases hm with
  | @send bs hbs hfin =>
    refine ⟨hechoes, ?_, hok.client.1, fun hf => ?_, h.rdhup, h.err, h.hup⟩
    · simp only [← List.append_assoc, h.arrived]
    · exact absurd hf (by simp [hfin])
  | shutdown hfin =>
    exact ⟨hechoes, h.arrived, h.pre, fun _ => hok.client, fun _ => rfl, h.err, h.hup⟩
  | recv hn => exact ⟨hechoes, h.arrived, h.pre, h.all, h.rdhup, h.err, h.hup⟩
  | deliver m hpc =>
    exact ⟨hechoes, h.arrived, h.pre, h.all, fun hbit => absurd hbit Bool.false_ne_true, rfl, rfl⟩
  | read k hpc =>
    refine ⟨hechoes, ?_, h.pre, h.all, h.rdhup, h.err, h.hup⟩
    simp only [List.append_assoc, bytesRead_append_drop, h.arrived]
  | rearm hpc => exact (h.goto _).modify true
  | write hpc => exact ⟨hechoes, h.arrived, h.pre, h.all, h.rdhup, h.err, h.hup⟩
  | disarm hpc => exact (h.goto _).modify false

/-- Echoed, pending and unread bytes are what the client has sent. -/
theorem Keeps.account (h : Keeps msg s) :
    s.conn.sent ++ s.conn.data.pending ++ s.unread = s.clientSent := by
  rw [h.echoes.stream, h.arrived]

/-- While bytes are unread or pending the echo is not complete. -/
theorem Keeps.sent_lt (h : Keeps msg s) (hleft : s.unread ≠ [] ∨ s.conn.data.pending ≠ []) :
    s.conn.sent.length < msg.length := by
  have haccount := congrArg List.length h.account
  have hle := h.pre.length_le
  rw [List.length_append, List.length_append] at haccount
  rcases hleft with hne | hne
  · have hpos := List.length_pos_iff.mpr hne
    omega
  · have hpos := List.length_pos_iff.mpr hne
    omega

/-- An event with a hangup bit tells that the client has sent its whole message. -/
theorem Keeps.of_hangup {m : Mask} (h : Keeps msg s) (hm : delivers s m) (hbit : m.hangup = true) :
    m.epollRdhup = true ∧ s.clientSent = msg := by
  obtain ⟨-, -, herr, hhup, hrdhup⟩ := Mask.sub_iff.mp hm.2.2
  have hnoErr : m.epollErr = false := by
    by_contra hbit'
    simpa [Mask.union, Sys.readiness, h.err] using herr (Bool.eq_true_of_not_eq_false hbit')
  have hnoHup : m.epollHup = false := by
    by_contra hbit'
    simpa [Mask.union, Sys.readiness, h.hup] using hhup (Bool.eq_true_of_not_eq_false hbit')
  have hseen : m.epollRdhup = true := by
    simpa [Mask.hangup, hnoErr, hnoHup] using hbit
  refine ⟨hseen, h.all ?_⟩
  rcases Bool.or_eq_true_iff.mp (hrdhup hseen) with hqueued | hready
  · exact h.rdhup hqueued
  · exact hready

/-! ## Every step drained: the echo is complete -/

/-- The connection has room while it is open and has echoed the message when it is
closed. -/
structure Completes (msg : List UInt8) (s : Sys) : Prop where
  keeps : Keeps msg s
  room : s.conn.data.bufferEnd < BUFF_SIZE
  complete : s.conn.pc = .closed → s.conn.sent = msg

theorem Completes.hasRoom (h : Completes msg s) (hpc : s.conn.pc ≠ .closed) : HasRoom s.conn :=
  ⟨h.keeps.echoes, h.room, hpc⟩

theorem readAnswer_ne_error (k : ℕ) : s.readAnswer k ≠ .error := by
  rw [Sys.readAnswer]
  split
  · split <;> simp
  · simp

theorem writeAnswer_ne_error : s.writeAnswer ≠ .error := by
  rw [Sys.writeAnswer]
  split <;> simp

theorem Completes.moves (h : Completes msg s) (hok : halfCloser msg s a) (hdrained : drained s a)
    (hm : SysMoves s a s') : Completes msg s' := by
  have hkeeps := h.keeps.moves hok hm
  cases hm with
  | send hbs hfin => exact ⟨hkeeps, h.room, h.complete⟩
  | shutdown hfin => exact ⟨hkeeps, h.room, h.complete⟩
  | recv hn => exact ⟨hkeeps, h.room, h.complete⟩
  | deliver m hpc =>
    refine ⟨hkeeps, h.room, fun hclosed => ?_⟩
    have hbit : m.hangup = true := by
      by_contra hbit
      exact onEvent_ne_closed (Bool.eq_false_of_not_eq_true hbit) hclosed
    obtain ⟨hseen, hall⟩ := h.keeps.of_hangup hok.kernel hbit
    obtain ⟨hunread, hpending⟩ := hdrained hseen
    have haccount := h.keeps.account
    rwa [hunread, hpending, List.append_nil, List.append_nil, hall] at haccount
  | @read m k hpc =>
    have hroom := h.hasRoom (by rw [hpc]; exact Pc.noConfusion)
    refine ⟨hkeeps, hroom.bufferEnd_readBuff_lt hdrained, fun hclosed => ?_⟩
    exact absurd hclosed
      (onRead_ne_closed (readBuff_result_nonneg (not_le.mpr h.room) (readAnswer_ne_error k)))
  | rearm hpc => exact ⟨hkeeps, h.room, fun hclosed => absurd hclosed Pc.noConfusion⟩
  | write hpc =>
    refine ⟨hkeeps, (bufferEnd_writeBuff_le h.keeps.echoes.bounds _).trans_lt h.room,
      fun hclosed => ?_⟩
    exact absurd hclosed (onWrite_ne_closed (writeBuff_result_nonneg writeAnswer_ne_error))
  | disarm hpc => exact ⟨hkeeps, h.room, fun hclosed => absurd hclosed Pc.noConfusion⟩

/-! ## A step that is not drained: the rest is lost -/

/-- The connection will send nothing more, and has not sent the whole message. -/
structure Cut (msg : List UInt8) (s : Sys) : Prop where
  doomed : Doomed s.conn
  short : s.conn.sent.length < msg.length

/-- A doomed connection sends nothing. -/
theorem Doomed.sent_eq {b : Act} (h : Doomed c) (hm : Moves c b c') : c'.sent = c.sent := by
  cases hm with
  | write w hpc => rcases h with hclosed | ⟨⟨m, hpc' | hpc'⟩, -⟩ <;> simp_all
  | _ => rfl

theorem Cut.moves (h : Cut msg s) (hok : kernelPromises s a) (hm : SysMoves s a s') :
    Cut msg s' := by
  rcases hm.conn hok with heq | ⟨b, -, hmoves⟩
  · exact ⟨heq ▸ h.doomed, heq ▸ h.short⟩
  · exact ⟨h.doomed.moves hmoves, h.doomed.sent_eq hmoves ▸ h.short⟩

theorem cut_of_not_drained (h : Keeps msg s) (hok : halfCloser msg s a) (hnot : ¬drained s a)
    (hm : SysMoves s a s') : Cut msg s' := by
  cases hm with
  | deliver m hpc =>
    simp only [drained, Classical.not_imp, not_and_or] at hnot
    obtain ⟨hseen, hleft⟩ := hnot
    refine ⟨Or.inl ?_, h.sent_lt hleft⟩
    simp [onEvent, Mask.hangup, hseen]
  | read k hpc =>
    have hunread : s.unread ≠ [] := by
      intro hnil
      refine hnot ?_
      simp only [drained, Sys.readAnswer, if_pos hnil]
      split <;> trivial
    have hanswer : kernelAnswers s.conn (.read (s.readAnswer k)) :=
      readPromise_readAnswer hok.kernel
    exact ⟨doomed_of_not_leavesRoom hanswer hnot (.read _ hpc), h.sent_lt (Or.inl hunread)⟩
  | _ => exact absurd trivial hnot

/-- In a run that echoes the whole message every step is drained. -/
theorem drained_of_complete {as : List SysAct} (h : Trace Sys.step (halfCloser msg) s as s')
    (hs : Keeps msg s) (hsent : s'.conn.sent = msg) :
    Trace Sys.step (fun s a => halfCloser msg s a ∧ drained s a) s as s' := by
  have hsplit : (Keeps msg s' ∧
      Trace Sys.step (fun s a => halfCloser msg s a ∧ drained s a) s as s') ∨ Cut msg s' := by
    refine h.met_or_doomed ?_ ?_ ?_ hs
    · intro _ _ _ hkeeps hok _ hstep
      exact hkeeps.moves hok (sysMoves_of_step hstep)
    · intro _ _ _ hkeeps hok hnot hstep
      exact cut_of_not_drained hkeeps hok hnot (sysMoves_of_step hstep)
    · intro _ _ _ hcut hok hstep
      exact hcut.moves hok.kernel (sysMoves_of_step hstep)
  rcases hsplit with ⟨-, hdrained⟩ | hcut
  · exact hdrained
  · exact absurd (congrArg List.length hsent) hcut.short.ne

/-! ## In terms of the bytes -/

theorem Keeps.echoed_iff (h : Keeps msg s) :
    s.conn.sent = s.clientSent ↔ s.unread = [] ∧ s.conn.data.pending = [] := by
  rw [← h.account, List.append_assoc, List.self_eq_append_right, List.append_eq_nil_iff, and_comm]

theorem Keeps.drained_iff (h : Keeps msg s) :
    drained s a ↔ announcedLate s a ∧ ∀ b ∈ s.seen a, leavesRoom s.conn b := by
  cases a with
  | deliver m =>
    rw [drained, announcedLate, h.echoed_iff]
    exact (and_iff_left fun b hb => by cases hb; trivial).symm
  | read k =>
    refine ⟨fun hroom => ⟨trivial, fun b hb => ?_⟩, fun hb => hb.2 _ rfl⟩
    cases hb
    exact hroom
  | _ => exact iff_of_true trivial ⟨trivial, fun b hb => by cases hb <;> trivial⟩

/-- The bursts of a run. -/
def burstsIn (s : Sys) (as : List SysAct) : Bursts := burstsOf (observe Sys.step Sys.seen s as)

theorem leavesRoom_iff_burstsIn {fd : ℤ} {space : ℕ} {as : List SysAct}
    (h : Trace Sys.step (fun s a => halfCloser msg s a ∧ announcedLate s a)
      (Sys.init fd bs fin space) as s) :
    Trace Sys.step (fun s a => (halfCloser msg s a ∧ announcedLate s a) ∧
        ∀ b ∈ s.seen a, leavesRoom s.conn b) (Sys.init fd bs fin space) as s ↔
      Short (burstsIn (Sys.init fd bs fin space) as) := by
  have hkeep : ∀ pre (s : Sys) a s', Tracks (burstsOf pre) s.conn.data →
      halfCloser msg s a ∧ announcedLate s a → s.step a = some s' →
      Tracks (burstsOf (pre ++ (s.seen a).toList)) s'.conn.data := by
    intro pre s a s' hs hok hstep
    rw [burstsOf, List.foldl_append]
    rcases (sysMoves_of_step hstep).seen hok.1.kernel with ⟨hseen, hconn⟩ | ⟨b, hseen, hb, hmoves⟩
    · rw [hseen, hconn]
      exact hs
    · rw [hseen]
      exact hs.moves hb hmoves
  have hshort : ∀ pre (s : Sys) a s', Tracks (burstsOf pre) s.conn.data →
      halfCloser msg s a ∧ announcedLate s a → s.step a = some s' →
      (Short (burstsOf (pre ++ (s.seen a).toList)) ↔
        Short (burstsOf pre) ∧ ∀ b ∈ s.seen a, leavesRoom s.conn b) := by
    intro pre s a s' hs hok hstep
    rw [burstsOf, List.foldl_append]
    rcases (sysMoves_of_step hstep).seen hok.1.kernel with ⟨hseen, -⟩ | ⟨b, hseen, -⟩
    · rw [hseen]
      exact (and_iff_left fun b hb => by cases hb).symm
    · rw [hseen]
      refine (hs.short_next_iff b).trans (and_congr_right fun _ => ?_)
      exact ⟨fun hroom b' hb' => Option.some.inj hb' ▸ hroom, fun hroom => hroom b rfl⟩
  have hinit : Tracks (burstsOf []) (Sys.init fd bs fin space).conn.data := tracks_new fd
  have hmet := h.met_iff_observe
    (P := fun (pre : List Act) (s : Sys) => Tracks (burstsOf pre) s.conn.data)
    (Q := fun pre => Short (burstsOf pre)) hkeep hshort hinit
  rwa [and_iff_left short_nil, List.nil_append] at hmet

/-- **Every step is drained exactly if the end is announced late and every burst is short.** -/
theorem drained_iff_short (fd : ℤ) (space : ℕ) (hstart : MayStart msg bs fin) {as : List SysAct} :
    Trace Sys.step (fun s a => halfCloser msg s a ∧ drained s a) (Sys.init fd bs fin space) as s ↔
      Trace Sys.step (fun s a => halfCloser msg s a ∧ announcedLate s a)
          (Sys.init fd bs fin space) as s ∧
        Short (burstsIn (Sys.init fd bs fin space) as) := by
  have hkeeps : ∀ s a t, Keeps msg s → halfCloser msg s a → s.step a = some t → Keeps msg t :=
    fun s a t hs hok hstep => hs.moves hok (sysMoves_of_step hstep)
  have hinit : Keeps msg (Sys.init fd bs fin space) := keeps_init fd space hstart
  constructor
  · intro h
    have hknown := h.through (fun s a t hs hok => hkeeps s a t hs hok.1) hinit
    have hlate := hknown.mono fun s a hok => And.intro hok.1.1 (hok.2.drained_iff.mp hok.1.2).1
    exact ⟨hlate, (leavesRoom_iff_burstsIn hlate).mp (hknown.mono fun s a hok =>
      ⟨⟨hok.1.1, (hok.2.drained_iff.mp hok.1.2).1⟩, (hok.2.drained_iff.mp hok.1.2).2⟩)⟩
  · rintro ⟨hlate, hshort⟩
    have hroom := (leavesRoom_iff_burstsIn hlate).mpr hshort
    have hknown := hroom.through (fun s a t hs hok => hkeeps s a t hs hok.1.1) hinit
    exact hknown.mono fun s a hok =>
      ⟨hok.1.1.1, hok.2.drained_iff.mpr ⟨hok.1.1.2, hok.1.2⟩⟩

/-- **When a half-closing client gets its whole echo.**  Once the server has closed
the connection, it has written back all of `msg` exactly when no event announced
the end of the client's input while bytes were unread or pending, and every
successful read left room behind `buffer_end`.  This is so exactly when every such
event came after the whole echo, and every burst was shorter than the buffer. -/
theorem halfCloser_echoed_iff_drained (fd : ℤ) (space : ℕ) (hstart : MayStart msg bs fin)
    {as : List SysAct} (h : Trace Sys.step (halfCloser msg) (Sys.init fd bs fin space) as s)
    (hclosed : s.conn.pc = .closed) :
    (s.conn.sent = msg ↔
      Trace Sys.step (fun s a => halfCloser msg s a ∧ drained s a) (Sys.init fd bs fin space)
        as s) ∧
    (Trace Sys.step (fun s a => halfCloser msg s a ∧ drained s a) (Sys.init fd bs fin space) as s ↔
      Trace Sys.step (fun s a => halfCloser msg s a ∧ announcedLate s a)
          (Sys.init fd bs fin space) as s ∧
        Short (burstsIn (Sys.init fd bs fin space) as)) := by
  refine ⟨⟨drained_of_complete h (keeps_init fd space hstart), fun hdrained => ?_⟩,
    drained_iff_short fd space hstart⟩
  have hinit : Completes msg (Sys.init fd bs fin space) :=
    ⟨keeps_init fd space hstart, by simp [Sys.init, Sys.modify, Conn.init, FdData.new, BUFF_SIZE],
      fun hc => absurd hc Pc.noConfusion⟩
  exact (hdrained.invariant
    (fun _ _ _ hs hok hstep => Completes.moves hs hok.1 hok.2 (sysMoves_of_step hstep))
    hinit).complete hclosed

/-- Three bytes are read in one event and echoed in the next; then the client shuts
down. -/
def patientClient : List SysAct :=
  [.deliver ⟨true, false, false, false, false⟩, .read 100, .rearm, .read 100,
    .deliver ⟨false, true, false, false, false⟩, .write, .disarm,
    .shutdown, .deliver ⟨true, false, false, false, true⟩]

theorem halfCloser_echoed_patientClient :
    ∃ s, Trace Sys.step (halfCloser [1, 2, 3]) (Sys.init 5 [1, 2, 3] false 10) patientClient s ∧
      s.conn.pc = .closed ∧
      Trace Sys.step (fun s a => halfCloser [1, 2, 3] s a ∧ drained s a)
        (Sys.init 5 [1, 2, 3] false 10) patientClient s := by
  obtain ⟨s, h, hp⟩ := Trace.exists_of_eval Sys.step (halfCloser [1, 2, 3])
    (fun s => s.conn.pc = .closed ∧ s.conn.sent = [1, 2, 3])
    (Sys.init 5 [1, 2, 3] false 10) patientClient (by decide +kernel)
  obtain ⟨hclosed, hsent⟩ := of_decide_eq_true hp
  have hstart : MayStart [1, 2, 3] [1, 2, 3] false := ⟨List.prefix_rfl, by decide, by decide⟩
  exact ⟨s, h, hclosed, (halfCloser_echoed_iff_drained 5 10 hstart h hclosed).1.mp hsent⟩

/-- The client sends its message and shuts down before the server looks. -/
def hastyClient : List SysAct :=
  [.send [1, 2, 3], .shutdown, .deliver ⟨true, false, false, false, true⟩]

/-- **A client that sends and shuts down at once gets no echo.** -/
theorem halfCloser_unechoed_hastyClient :
    ∃ s, Trace Sys.step (halfCloser [1, 2, 3]) (Sys.init 5 [] false 10) hastyClient s ∧
      s.conn.pc = .closed ∧ s.conn.sent = [] := by
  obtain ⟨s, h, hp⟩ := Trace.exists_of_eval Sys.step (halfCloser [1, 2, 3])
    (fun s => s.conn.pc = .closed ∧ s.conn.sent = []) (Sys.init 5 [] false 10) hastyClient
    (by decide +kernel)
  exact ⟨s, h, of_decide_eq_true hp⟩

end Epoll
end CaosSeminars
