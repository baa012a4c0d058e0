import CaosSeminars.Epoll.Stream

/-!
# A connection, its client, and edge-triggered readiness

The answers of `Epoll.Connection` are arbitrary.  Here they come from a kernel
that holds a receive queue, some free send space, and the interest registered
for the descriptor, while a client sends, shuts down its sending side, and reads.

Readiness is edge-triggered: a mask of `queued` events is added to when input
arrives, when send space goes from zero to positive with `EPOLLOUT` registered,
when the client shuts down, and when `epoll_ctl` registers an interest whose
readiness holds at that moment.  An event takes the whole queue with it.  Its
mask (`delivers`) holds at least what was queued and is still so, and at most
what was queued or is so now; this covers a kernel that hands out what it queued
and one that looks at the descriptor again.

Client and kernel act between any two system calls of the handler.

* `SysMoves` --- what one step can do, one constructor for each.
* `readPromise_readAnswer`, `writePromise_writeAnswer` --- the kernel keeps the promises that
  `Epoll.Connection` asks for.
* `SysMoves.conn`, `SysMoves.seen` --- a step of the system is a step of the connection, or leaves
  it alone; so what is known of a connection is known here.
-/

namespace CaosSeminars
namespace Epoll

/-! ## Masks -/

namespace Mask

/-- No bit. -/
def none : Mask := ⟨false, false, false, false, false⟩

/-- The bits of either mask. -/
def union (m n : Mask) : Mask :=
  ⟨m.epollIn || n.epollIn, m.epollOut || n.epollOut, m.epollErr || n.epollErr,
    m.epollHup || n.epollHup, m.epollRdhup || n.epollRdhup⟩

/-- The bits of both masks. -/
def inter (m n : Mask) : Mask :=
  ⟨m.epollIn && n.epollIn, m.epollOut && n.epollOut, m.epollErr && n.epollErr,
    m.epollHup && n.epollHup, m.epollRdhup && n.epollRdhup⟩

/-- Every bit of `m` is one of `n`. -/
def Sub (m n : Mask) : Prop := m.inter n = m

instance (m n : Mask) : Decidable (m.Sub n) := inferInstanceAs (Decidable (_ = _))

variable {m n : Mask}

theorem sub_iff : m.Sub n ↔
    (m.epollIn → n.epollIn) ∧ (m.epollOut → n.epollOut) ∧ (m.epollErr → n.epollErr) ∧
      (m.epollHup → n.epollHup) ∧ (m.epollRdhup → n.epollRdhup) := by
  cases m
  cases n
  simp [Sub, inter]

end Mask

/-! ## The state -/

/-- A connection together with the kernel's side and its client. -/
structure Sys where
  conn : Conn
  /-- The receive queue of the socket. -/
  unread : List UInt8
  /-- How many bytes `write` can take at once. -/
  space : ℕ
  /-- The client has shut down its sending side. -/
  fin : Bool
  /-- `EPOLLOUT` is part of the registered interest; `EPOLLIN` and `EPOLLRDHUP`
  always are. -/
  outRegistered : Bool
  /-- What edge-triggered events are waiting to be handed out. -/
  queued : Mask
  /-- The bytes the client has sent. -/
  clientSent : List UInt8
  deriving DecidableEq

namespace Sys

/-- The registered readiness that holds now. -/
def readiness (s : Sys) : Mask :=
  ⟨!s.unread.isEmpty || s.fin, s.outRegistered && decide (0 < s.space), false, false, s.fin⟩

/-- `epoll_ctl` with `EPOLL_CTL_ADD` or `EPOLL_CTL_MOD`: an event is queued if a
registered readiness holds. -/
def modify (s : Sys) (out : Bool) : Sys :=
  { s with
      outRegistered := out
      queued := s.queued.union { s with outRegistered := out }.readiness }

/-- After the accept branch has added the connection; `bs` has arrived before, and
perhaps the client has shut down already. -/
def init (fd : ℤ) (bs : List UInt8) (fin : Bool) (space : ℕ) : Sys :=
  { conn := Conn.init fd, unread := bs, space := space, fin := fin, outRegistered := false,
    queued := Mask.none, clientSent := bs : Sys }.modify false

/-- What `read` answers; `k` bounds what it takes at once. -/
def readAnswer (s : Sys) (k : ℕ) : ReadResult :=
  if s.unread = [] then if s.fin then .eof else .again else .bytes (s.unread.take k)

/-- What `write` answers: it takes as much as there is space for. -/
def writeAnswer (s : Sys) : WriteResult :=
  if s.space = 0 then .again
  else .count (min (writeSpan s.conn.data).count.toNat s.space)

end Sys

/-- A step of the client, of the kernel, or of the handler. -/
inductive SysAct where
  /-- The client sends, and its bytes arrive. -/
  | send (bs : List UInt8)
  /-- The client shuts down its sending side. -/
  | shutdown
  /-- The client reads, which makes send space. -/
  | recv (n : ℕ)
  /-- `epoll_wait` hands out an event. -/
  | deliver (m : Mask)
  | read (k : ℕ)
  | rearm
  | write
  | disarm
  deriving DecidableEq

/-- One step of the whole. -/
def Sys.step (s : Sys) : SysAct → Option Sys
  | .send bs =>
    if bs = [] ∨ s.fin then none
    else
      some { s with
        unread := s.unread ++ bs
        clientSent := s.clientSent ++ bs
        queued := { s.queued with epollIn := true } }
  | .shutdown =>
    if s.fin then none
    else
      some { s with fin := true, queued := { s.queued with epollIn := true, epollRdhup := true } }
  | .recv n =>
    if n = 0 then none
    else
      some { s with
        space := s.space + n
        queued :=
          { s.queued with
              epollOut := s.queued.epollOut || (s.outRegistered && decide (s.space = 0)) } }
  | .deliver m => (s.conn.step (.event m)).map fun c => { s with conn := c, queued := Mask.none }
  | .read k =>
    (s.conn.step (.read (s.readAnswer k))).map fun c =>
      { s with
          conn := c
          unread := s.unread.drop (bytesRead s.conn.data (s.readAnswer k)).length }
  | .rearm => (s.conn.step .rearm).map fun c => { s with conn := c }.modify true
  | .write =>
    (s.conn.step (.write s.writeAnswer)).map fun c =>
      { s with
          conn := c
          space := s.space - (bytesWritten s.conn.data s.writeAnswer).length }
  | .disarm => (s.conn.step .disarm).map fun c => { s with conn := c }.modify false

/-- What `epoll_wait` may hand out. -/
def delivers (s : Sys) (m : Mask) : Prop :=
  s.queued ≠ Mask.none ∧ (s.queued.inter s.readiness).Sub m ∧ m.Sub (s.queued.union s.readiness)

/-- What the kernel promises: events as queued, and a `read` that takes at least
one byte and at most what it was asked for. -/
def kernelPromises (s : Sys) : SysAct → Prop
  | .deliver m => delivers s m
  | .read k => 0 < k ∧ (full s.conn.data ∨ (k : ℤ) ≤ (readSpan s.conn.data).count)
  | _ => True

instance (s : Sys) (m : Mask) : Decidable (delivers s m) :=
  inferInstanceAs (Decidable (_ ∧ _ ∧ _))

instance (s : Sys) : (a : SysAct) → Decidable (kernelPromises s a)
  | .deliver m => inferInstanceAs (Decidable (delivers s m))
  | .read _ => inferInstanceAs (Decidable (_ ∧ (_ ∨ _)))
  | .send _ | .shutdown | .recv _ | .rearm | .write | .disarm => inferInstanceAs (Decidable True)

variable {s s' : Sys} {a : SysAct}

/-- What one step can do. -/
inductive SysMoves (s : Sys) : SysAct → Sys → Prop
  | send {bs : List UInt8} (hbs : bs ≠ []) (hfin : s.fin = false) :
      SysMoves s (.send bs)
        { s with
          unread := s.unread ++ bs
          clientSent := s.clientSent ++ bs
          queued := { s.queued with epollIn := true } }
  | shutdown (hfin : s.fin = false) :
      SysMoves s .shutdown
        { s with fin := true, queued := { s.queued with epollIn := true, epollRdhup := true } }
  | recv {n : ℕ} (hn : n ≠ 0) :
      SysMoves s (.recv n)
        { s with
          space := s.space + n
          queued :=
            { s.queued with
                epollOut := s.queued.epollOut || (s.outRegistered && decide (s.space = 0)) } }
  | deliver (m : Mask) (hpc : s.conn.pc = .waiting) :
      SysMoves s (.deliver m)
        { s with conn := { s.conn with pc := onEvent m }, queued := Mask.none }
  | read {m : Mask} (k : ℕ) (hpc : s.conn.pc = .reading m) :
      SysMoves s (.read k)
        { s with
          conn :=
            ⟨onRead m (readBuff s.conn.data (s.readAnswer k)).2,
              (readBuff s.conn.data (s.readAnswer k)).1,
              s.conn.received ++ bytesRead s.conn.data (s.readAnswer k), s.conn.sent⟩
          unread := s.unread.drop (bytesRead s.conn.data (s.readAnswer k)).length }
  | rearm {m : Mask} (hpc : s.conn.pc = .rearming m) :
      SysMoves s .rearm ({ s with conn := { s.conn with pc := .reading m } }.modify true)
  | write (hpc : s.conn.pc = .writing) :
      SysMoves s .write
        { s with
          conn :=
            ⟨onWrite (writeBuff s.conn.data s.writeAnswer).1
                (writeBuff s.conn.data s.writeAnswer).2,
              (writeBuff s.conn.data s.writeAnswer).1,
              s.conn.received, s.conn.sent ++ bytesWritten s.conn.data s.writeAnswer⟩
          space := s.space - (bytesWritten s.conn.data s.writeAnswer).length }
  | disarm (hpc : s.conn.pc = .disarming) :
      SysMoves s .disarm ({ s with conn := { s.conn with pc := .waiting } }.modify false)

theorem sysMoves_of_step (h : s.step a = some s') : SysMoves s a s' := by
  cases a with
  | send bs =>
    simp only [Sys.step] at h
    split at h
    · exact absurd h (by simp)
    · rename_i hbs
      obtain rfl := Option.some.inj h
      rw [not_or, Bool.not_eq_true] at hbs
      exact .send hbs.1 hbs.2
  | shutdown =>
    simp only [Sys.step] at h
    split at h
    · exact absurd h (by simp)
    · rename_i hfin
      obtain rfl := Option.some.inj h
      exact .shutdown (Bool.not_eq_true _ ▸ hfin)
  | recv n =>
    simp only [Sys.step] at h
    split at h
    · exact absurd h (by simp)
    · rename_i hn
      obtain rfl := Option.some.inj h
      exact .recv hn
  | deliver m =>
    obtain ⟨c, hc, rfl⟩ := Option.map_eq_some_iff.mp h
    cases moves_of_step hc with
    | event _ hpc => exact .deliver m hpc
  | read k =>
    obtain ⟨c, hc, rfl⟩ := Option.map_eq_some_iff.mp h
    cases moves_of_step hc with
    | read _ hpc => exact .read k hpc
  | rearm =>
    obtain ⟨c, hc, rfl⟩ := Option.map_eq_some_iff.mp h
    cases moves_of_step hc with
    | rearm hpc => exact .rearm hpc
  | write =>
    obtain ⟨c, hc, rfl⟩ := Option.map_eq_some_iff.mp h
    cases moves_of_step hc with
    | write _ hpc => exact .write hpc
  | disarm =>
    obtain ⟨c, hc, rfl⟩ := Option.map_eq_some_iff.mp h
    cases moves_of_step hc with
    | disarm hpc => exact .disarm hpc

/-! ## The kernel keeps the promises of `Epoll.Connection` -/

theorem readPromise_readAnswer {k : ℕ} (hk : kernelPromises s (.read k)) :
    readPromise s.conn.data (s.readAnswer k) := by
  rw [Sys.readAnswer]
  split
  · split <;> trivial
  · rename_i hne
    intro hfull
    have hle := hk.2.resolve_left hfull
    have hlen : 0 < s.unread.length := List.length_pos_iff.mpr hne
    have hpos := hk.1
    rw [List.length_take]
    omega

theorem writePromise_writeAnswer : writePromise s.conn.data s.writeAnswer := by
  rw [Sys.writeAnswer]
  split
  · trivial
  · rename_i hspace
    intro hnone
    simp only [nothingToWrite, not_le] at hnone
    simp only [writeSpan]
    omega

/-- What the connection sees of a step of the whole. -/
def Sys.seen (s : Sys) : SysAct → Option Act
  | .deliver m => some (.event m)
  | .read k => some (.read (s.readAnswer k))
  | .rearm => some .rearm
  | .write => some (.write s.writeAnswer)
  | .disarm => some .disarm
  | .send _ | .shutdown | .recv _ => none

/-- A step of the whole is a step of the connection that keeps the promises, or
leaves the connection alone. -/
theorem SysMoves.seen (hm : SysMoves s a s') (hok : kernelPromises s a) :
    (s.seen a = none ∧ s'.conn = s.conn) ∨
      ∃ b, s.seen a = some b ∧ kernelAnswers s.conn b ∧ Moves s.conn b s'.conn := by
  cases hm with
  | send _ _ => exact Or.inl ⟨rfl, rfl⟩
  | shutdown _ => exact Or.inl ⟨rfl, rfl⟩
  | recv _ => exact Or.inl ⟨rfl, rfl⟩
  | deliver m hpc => exact Or.inr ⟨.event m, rfl, trivial, .event m hpc⟩
  | read k hpc => exact Or.inr ⟨.read _, rfl, readPromise_readAnswer hok, .read _ hpc⟩
  | rearm hpc => exact Or.inr ⟨.rearm, rfl, trivial, .rearm hpc⟩
  | write hpc => exact Or.inr ⟨.write _, rfl, writePromise_writeAnswer, .write _ hpc⟩
  | disarm hpc => exact Or.inr ⟨.disarm, rfl, trivial, .disarm hpc⟩

theorem SysMoves.conn (hm : SysMoves s a s') (hok : kernelPromises s a) :
    s'.conn = s.conn ∨ ∃ b, kernelAnswers s.conn b ∧ Moves s.conn b s'.conn :=
  (hm.seen hok).imp And.right fun ⟨b, _, hb⟩ => ⟨b, hb⟩

/-- The stream invariant under this kernel. -/
theorem SysMoves.echoes (hm : SysMoves s a s') (hok : kernelPromises s a) (h : Echoes s.conn) :
    Echoes s'.conn := by
  rcases hm.conn hok with heq | ⟨b, hb, hmoves⟩
  · rw [heq]
    exact h
  · exact h.moves hb hmoves

end Epoll
end CaosSeminars
