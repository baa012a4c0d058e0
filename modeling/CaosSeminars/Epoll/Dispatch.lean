import CaosSeminars.Epoll.Resources
import Mathlib.Algebra.Group.Int.Defs

/-!
# Which branch an event gets

`main` registers the listening descriptor with `data.fd`, the accept branch registers a client
with `data.ptr`, and both are parts of one `epoll_data` word.  `process_epoll_event` tells the
two kinds of events apart by the low half of the word alone: an event of a client is taken for
one of the listening descriptor when the low half of the address that `calloc` returned,
read as an `int`, is `server_fd`.

Here `calloc` may return any free address that is a multiple of `16`.

* `Separate` --- the invariant: no client has the listening descriptor, and every client is
  registered with a pointer that is not null.
* `accepts_iff` --- which branch an event gets, by the low half of its word; `handles_iff` the
  other one.
* `serverFd_of_step` --- no step changes `server_fd`.
* `dispatch_iff` --- in every state of every run all events that can be announced get the right
  branch **iff** no client is registered with an address whose low half is `server_fd`.
-/

namespace CaosSeminars
namespace Epoll

/-- The word `w` after `data.fd = fd`: the upper half is what it was. -/
def setDataFd (w : Ptr) (fd : ℤ) : Ptr := w.extractLsb' 32 32 ++ BitVec.ofInt 32 fd

/-- The event carries the data word that its descriptor is registered with; the upper half
of the listening descriptor's word was never written. -/
def Notifies (s : Server) (e : Event) : Prop :=
  if e.source = s.serverFd then e.data = setDataFd e.data s.serverFd
  else s.interest e.source = some e.data

instance (s : Server) (e : Event) : Decidable (Notifies s e) :=
  inferInstanceAs (Decidable (ite _ _ _))

/-- What the kernel and `calloc` promise when the low half of an address can be anything. -/
def anyAddress (s : Server) : ServerAct → Prop
  | .wait (.events l) =>
    l.length ≤ MAX_EVENTS ∧ (l.map Event.source).Nodup ∧ ∀ e ∈ l, Notifies s e
  | .accept fd => 0 ≤ fd → fd ∉ s.opened ∧ fd ≠ s.serverFd
  | .calloc p => p ≠ NULL → s.heap p = none ∧ p.toNat % 16 = 0
  | _ => True

instance (s : Server) : (a : ServerAct) → Decidable (anyAddress s a)
  | .wait (.events _) => inferInstanceAs (Decidable (_ ∧ _ ∧ _))
  | .wait .interrupted | .wait .error => inferInstanceAs (Decidable True)
  | .accept _ => inferInstanceAs (Decidable (_ → _ ∧ _))
  | .calloc _ => inferInstanceAs (Decidable (_ → _ ∧ _))
  | .next | .getFlags _ | .setFlags _ | .add _ | .client _ => inferInstanceAs (Decidable True)

namespace Server

variable (s : Server) (e : Event)

/-- `process_epoll_event` takes the accept branch. -/
def Accepts : Prop := s.processEpollEvent e = some (s.goto .accepting)

/-- `process_epoll_event` takes the client branch. -/
def Handles : Prop := s.processEpollEvent e = s.clientBranch e.data .waiting (.event e.events)

end Server

variable {s s' : Server} {e : Event} {p : Ptr} {d : FdData} {fd : ℤ} {w : Ptr}

/-! ## The two halves of the word -/

theorem dataFd_setDataFd (w : Ptr) (h0 : 0 ≤ fd) (hint : fd < 2 ^ 31) :
    dataFd (setDataFd w fd) = fd := by
  have hlow : (setDataFd w fd).setWidth 32 = BitVec.ofInt 32 fd := BitVec.setWidth_append_eq_right
  rw [dataFd, hlow, BitVec.toInt_ofInt]
  exact Int.bmod_eq_of_le (by omega) (by omega)

/-! ## The branches -/

/-- A connection that is closed leaves the handler in the loop, or stops the server. -/
theorem closeConnection_pc (h : s.pc ≠ .accepting) : (s.closeConnection p d).pc ≠ .accepting := by
  unfold Server.closeConnection
  split
  · unfold Server.free Server.close
    split <;> split <;> simp_all [Server.fault, Server.epollDel]
  · exact h

/-- The client branch does not lead to `accept`. -/
theorem clientBranch_pc {pc : Pc} {a : Act} (h : s.clientBranch p pc a = some s') :
    s'.pc ≠ .accepting := by
  unfold Server.clientBranch at h
  split at h
  · obtain rfl := Option.some.inj h
    simp [Server.fault]
  · obtain ⟨⟨pc', d'⟩, -, rfl⟩ := Option.map_eq_some_iff.mp h
    cases pc' with
    | closed => exact closeConnection_pc (by simp [Server.goto])
    | _ => simp [Server.goOn, Server.goto]

/-- **The branch of an event** is chosen by the low half of its word. -/
theorem accepts_iff : s.Accepts e ↔ dataFd e.data = s.serverFd := by
  unfold Server.Accepts Server.processEpollEvent
  constructor
  · intro h
    by_contra hne
    rw [if_neg hne] at h
    split at h
    · have hpc := congrArg Server.pc (Option.some.inj h)
      simp [Server.goto] at hpc
    · exact clientBranch_pc h rfl
  · intro h
    rw [if_pos h]

theorem handles_iff (hnull : e.data ≠ NULL) : s.Handles e ↔ dataFd e.data ≠ s.serverFd := by
  constructor
  · intro h hfd
    have haccepts : s.Accepts e := accepts_iff.mpr hfd
    exact clientBranch_pc (h.symm.trans haccepts) rfl
  · intro h
    rw [Server.Handles, Server.processEpollEvent, if_neg h, if_neg hnull]

/-! ## What is registered -/

/-- The clients in the epoll instance are registered with an address, under another
descriptor than the listening one. -/
def Apart (s : Server) : Prop :=
  ∀ fd p, s.interest fd = some p → fd ≠ s.serverFd ∧ p ≠ NULL

namespace Apart

theorem erase (h : Apart s) (hserver : s'.serverFd = s.serverFd)
    (hinterest : s'.interest = Function.update s.interest fd none) : Apart s' := by
  intro x q hx
  rw [hinterest] at hx
  rw [hserver]
  rcases eq_or_ne x fd with rfl | hne
  · simp at hx
  · rw [Function.update_of_ne hne] at hx
    exact h x q hx

theorem close (h : Apart s) (fd : ℤ) : Apart (s.close fd) := by
  unfold Server.close
  split
  · exact h.erase rfl rfl
  · exact h

theorem free (h : Apart s) (p : Ptr) : Apart (s.free p) := by
  unfold Server.free
  split <;> exact h

theorem epollAdd (h : Apart s) (hfd : fd ≠ s.serverFd) (hp : p ≠ NULL) :
    Apart (s.epollAdd fd p) := by
  intro x q hx
  change Function.update s.interest fd (some p) x = some q at hx
  rcases eq_or_ne x fd with rfl | hne
  · rw [Function.update_self] at hx
    exact ⟨hfd, Option.some.inj hx ▸ hp⟩
  · rw [Function.update_of_ne hne] at hx
    exact h x q hx

/-- What is registered again was registered. -/
theorem modify (h : Apart s) (hp : p ≠ NULL) (d : FdData) (a : Act) : Apart (s.modify p d a) := by
  have hmod : Apart (s.epollMod d.fd p) := by
    unfold Server.epollMod
    split
    · rename_i hsome
      obtain ⟨q, hq⟩ := Option.isSome_iff_exists.mp hsome
      exact h.epollAdd (h d.fd q hq).1 hp
    · exact h
  cases a with
  | rearm => exact hmod
  | disarm => exact hmod
  | _ => exact h

theorem closeConnection (h : Apart s) : Apart (s.closeConnection p d) := by
  unfold Server.closeConnection
  split
  · exact ((h.erase rfl rfl : Apart (s.epollDel d.fd)).close d.fd).free p
  · exact h

end Apart

/-- What holds between two steps, whatever addresses `calloc` returns. -/
structure Separate (s : Server) : Prop where
  apart : Apart s
  heldFd : ∀ fd, s.pc.heldFd = some fd → fd ≠ s.serverFd
  heldData : ∀ p, s.pc.heldData = some p → p ≠ NULL
  handled : ∀ p pc, s.pc = .handling p pc → p ≠ NULL

/-- Outside the accept branch, and in the client branch on an address that is not null,
nothing else is to show. -/
theorem Apart.separate (h : Apart s) (hfd : s.pc.heldFd = none) (hdata : s.pc.heldData = none)
    (hpc : ∀ p pc, s.pc = .handling p pc → p ≠ NULL) : Separate s :=
  ⟨h, by simp [hfd], by simp [hdata], hpc⟩

theorem Apart.separate_of_pc (h : Apart s) (hpc : s.pc = .looping ∨ s.pc = .exited) :
    Separate s := by
  refine h.separate ?_ ?_ fun p pc heq => ?_ <;> rcases hpc with hpc | hpc
  all_goals first | rw [hpc]; rfl | (rw [hpc] at heq; cases heq)

theorem close_pc (h : s.pc = .looping ∨ s.pc = .exited) (fd : ℤ) :
    (s.close fd).pc = .looping ∨ (s.close fd).pc = .exited := by
  unfold Server.close
  split
  · exact h
  · exact Or.inr rfl

theorem free_pc (h : s.pc = .looping ∨ s.pc = .exited) (p : Ptr) :
    (s.free p).pc = .looping ∨ (s.free p).pc = .exited := by
  unfold Server.free
  split
  · exact h
  · exact Or.inr rfl

theorem Apart.clientBranch {pc : Pc} {a : Act} (h : Apart s) (hp : p ≠ NULL)
    (hstep : s.clientBranch p pc a = some s') : Separate s' := by
  unfold Server.clientBranch at hstep
  split at hstep
  · obtain rfl := Option.some.inj hstep
    exact Apart.separate_of_pc h (Or.inr rfl)
  · obtain ⟨⟨pc', d'⟩, -, rfl⟩ := Option.map_eq_some_iff.mp hstep
    have hset : Apart (s.setData p d') := h
    have hmod := hset.modify hp d' a
    cases pc' with
    | waiting => exact Apart.separate_of_pc hmod (Or.inl rfl)
    | closed =>
      have hloop : Apart (((s.setData p d').modify p d' a).goto .looping) := hmod
      refine hloop.closeConnection.separate_of_pc ?_
      show (Server.closeConnection _ p d').pc = _ ∨ (Server.closeConnection _ p d').pc = _
      unfold Server.closeConnection
      split
      · exact free_pc (close_pc (Or.inl rfl) _) _
      · exact Or.inl rfl
    | _ =>
      refine Apart.separate hmod rfl rfl fun q pc heq => ?_
      obtain ⟨rfl, -⟩ := MainPc.handling.inj heq
      exact hp

/-- The accept branch gives its descriptor back. -/
theorem Apart.close_looping (h : Apart s) (fd : ℤ) : Separate ((s.goto .looping).close fd) := by
  have hloop : Apart (s.goto .looping) := h
  exact (hloop.close fd).separate_of_pc (close_pc (Or.inl rfl) fd)

/-- A call of `fcntl`, after which the accept branch goes on at `pc`. -/
theorem Apart.flags {ok : Bool} (h : Apart s) (hfd : fd ≠ s.serverFd) (pc : MainPc)
    (hheld : pc.heldFd = some fd) (hdata : pc.heldData = none) (hpc : ∀ p pc', pc ≠ .handling p pc')
    (hstep : (if ok then some (s.goto pc) else some ((s.goto .looping).close fd)) = some s') :
    Separate s' := by
  split at hstep
  · obtain rfl := Option.some.inj hstep
    refine ⟨h, fun x hx => ?_, fun p hp => ?_, fun p pc' heq => absurd heq (hpc p pc')⟩
    · obtain rfl := Option.some.inj (hheld.symm.trans hx)
      exact hfd
    · cases hdata.symm.trans hp
  · obtain rfl := Option.some.inj hstep
    exact h.close_looping fd

/-- One step keeps the clients apart. -/
theorem Separate.preserves {a : ServerAct} (h : Separate s) (hok : anyAddress s a)
    (hstep : s.step a = some s') : Separate s' := by
  have hapart := h.apart
  simp only [Server.step] at hstep
  split at hstep
  · -- `epoll_wait`
    rename_i r hpc
    split at hstep
    · cases hstep
    · cases r with
      | events l =>
        obtain rfl := Option.some.inj hstep
        exact Apart.separate_of_pc hapart (Or.inl hpc)
      | interrupted =>
        obtain rfl := Option.some.inj hstep
        exact h
      | error =>
        obtain rfl := Option.some.inj hstep
        exact Apart.separate_of_pc hapart (Or.inr rfl)
  · -- the next event
    rename_i hpc
    split at hstep
    · cases hstep
    · rename_i e rest hs
      unfold Server.processEpollEvent at hstep
      split at hstep
      · obtain rfl := Option.some.inj hstep
        exact Apart.separate hapart rfl rfl fun p pc heq => by cases heq
      · split at hstep
        · obtain rfl := Option.some.inj hstep
          exact Apart.separate_of_pc hapart (Or.inl rfl)
        · have hrest : Apart { s with batch := rest } := hapart
          exact hrest.clientBranch ‹_› hstep
  · -- `accept`
    rename_i fd hpc
    split at hstep
    · obtain rfl := Option.some.inj hstep
      exact Apart.separate_of_pc hapart (Or.inl rfl)
    · rename_i hneg
      obtain rfl := Option.some.inj hstep
      refine ⟨hapart, fun x hx => ?_, fun p hp => (by cases hp), fun p pc heq => (by cases heq)⟩
      obtain rfl := Option.some.inj hx
      exact (hok (not_lt.mp hneg)).2
  · -- `fcntl(F_GETFL)`
    rename_i fd ok hpc
    exact hapart.flags (h.heldFd fd (by rw [hpc]; rfl)) (.settingFlags fd) rfl rfl
      (fun _ _ heq => by cases heq) hstep
  · -- `fcntl(F_SETFL)`
    rename_i fd ok hpc
    exact hapart.flags (h.heldFd fd (by rw [hpc]; rfl)) (.allocating fd) rfl rfl
      (fun _ _ heq => by cases heq) hstep
  · -- `calloc`
    rename_i fd p hpc
    split at hstep
    · obtain rfl := Option.some.inj hstep
      exact hapart.close_looping fd
    · rename_i hnull
      obtain rfl := Option.some.inj hstep
      refine ⟨hapart, fun x hx => ?_, fun q hq => ?_, fun q pc heq => (by cases heq)⟩
      · obtain rfl := Option.some.inj hx
        exact h.heldFd fd (by rw [hpc]; rfl)
      · obtain rfl := Option.some.inj hq
        exact hnull
  · -- `epoll_ctl(EPOLL_CTL_ADD)`
    rename_i fd p ok hpc
    have hloop : Apart (s.goto .looping) := hapart
    split at hstep
    · obtain rfl := Option.some.inj hstep
      refine Apart.separate_of_pc ?_ (Or.inl rfl)
      exact hloop.epollAdd (h.heldFd fd (by rw [hpc]; rfl)) (h.heldData p (by rw [hpc]; rfl))
    · obtain rfl := Option.some.inj hstep
      exact ((hloop.free p).close fd).separate_of_pc (close_pc (free_pc (Or.inl rfl) p) fd)
  · -- the client branch
    rename_i p pc a hpc
    exact hapart.clientBranch (h.handled p pc hpc) hstep
  · cases hstep

/-! ## The listening descriptor is always the same -/

@[simp] theorem serverFd_close (fd : ℤ) : (s.close fd).serverFd = s.serverFd := by
  unfold Server.close
  split <;> rfl

@[simp] theorem serverFd_free (p : Ptr) : (s.free p).serverFd = s.serverFd := by
  unfold Server.free
  split <;> rfl

@[simp] theorem serverFd_modify (d : FdData) (a : Act) :
    (s.modify p d a).serverFd = s.serverFd := by
  have hmod : (s.epollMod d.fd p).serverFd = s.serverFd := by
    unfold Server.epollMod
    split <;> rfl
  cases a with
  | rearm => exact hmod
  | disarm => exact hmod
  | _ => rfl

@[simp] theorem serverFd_closeConnection : (s.closeConnection p d).serverFd = s.serverFd := by
  unfold Server.closeConnection
  split
  · simp [Server.epollDel]
  · rfl

theorem serverFd_clientBranch {pc : Pc} {a : Act} (h : s.clientBranch p pc a = some s') :
    s'.serverFd = s.serverFd := by
  unfold Server.clientBranch at h
  split at h
  · obtain rfl := Option.some.inj h
    rfl
  · obtain ⟨⟨pc', d'⟩, -, rfl⟩ := Option.map_eq_some_iff.mp h
    cases pc' <;> simp [Server.goOn, Server.goto, Server.setData]

theorem serverFd_of_step {a : ServerAct} (h : s.step a = some s') : s'.serverFd = s.serverFd := by
  unfold Server.step at h
  split at h
  case h_1 r _ =>
    split at h
    · cases h
    · cases r <;> (obtain rfl := Option.some.inj h; rfl)
  case h_2 =>
    split at h
    · cases h
    · unfold Server.processEpollEvent at h
      split at h
      · obtain rfl := Option.some.inj h
        rfl
      · split at h
        · obtain rfl := Option.some.inj h
          rfl
        · have hbranch := serverFd_clientBranch h
          exact hbranch
  case h_8 => exact serverFd_clientBranch h
  case h_9 => cases h
  -- the accept branch: each answer is good or bad
  all_goals
    split at h <;> (obtain rfl := Option.some.inj h; simp [Server.goto, Server.setData,
      Server.epollAdd])

/-- **When every event gets its branch.**  At any moment of any run, whatever fails and whatever
numbers and addresses come back: the events that the kernel can announce go to the accept
branch exactly if they are of the listening descriptor, and to the client branch exactly if they
are of a client, if and only if no client is registered with an address whose low half is
`server_fd`. -/
theorem dispatch_iff {serverFd : ℤ} (h0 : 0 ≤ serverFd) (hint : serverFd < 2 ^ 31)
    {as : List ServerAct} (h : Trace Server.step anyAddress (Server.init serverFd) as s) :
    (∀ e, Notifies s e →
        (s.Accepts e ↔ e.source = serverFd) ∧ (s.Handles e ↔ e.source ≠ serverFd)) ↔
      ∀ fd p, s.interest fd = some p → dataFd p ≠ serverFd := by
  obtain ⟨hsep, hserver⟩ : Separate s ∧ s.serverFd = serverFd := by
    refine h.invariant (P := fun s => Separate s ∧ s.serverFd = serverFd) ?_ ⟨?_, rfl⟩
    · rintro s a t ⟨hs, hfd⟩ hok hstep
      exact ⟨hs.preserves hok hstep, (serverFd_of_step hstep).trans hfd⟩
    · refine Apart.separate_of_pc (fun fd p hreg => ?_) (Or.inl rfl)
      cases hreg
  subst hserver
  constructor
  · intro hright fd p hreg hclash
    have hne := (hsep.apart fd p hreg).1
    have hnotifies : Notifies s ⟨fd, ⟨true, false, false, false, false⟩, p⟩ := by
      rw [Notifies, if_neg hne]
      exact hreg
    exact hne ((hright _ hnotifies).1.mp (accepts_iff.mpr hclash))
  · intro hdistinct e he
    unfold Notifies at he
    rw [accepts_iff]
    split at he
    · rename_i hsource
      have hfd : dataFd e.data = s.serverFd := by
        rw [he]
        exact dataFd_setDataFd _ h0 hint
      refine ⟨iff_of_true hfd hsource, iff_of_false (fun hhandles => ?_) (not_not.mpr hsource)⟩
      exact clientBranch_pc (hhandles.symm.trans (accepts_iff.mpr hfd)) rfl
    · rename_i hsource
      have hfd := hdistinct _ _ he
      refine ⟨iff_of_false hfd hsource, iff_of_true ?_ hsource⟩
      exact (handles_iff (hsep.apart _ _ he).2).mpr hfd

/-- A client is accepted, and `calloc` returns `p`. -/
def acceptAt (serverFd : ℤ) (p : Ptr) : List ServerAct :=
  [.wait (.events [⟨serverFd, ⟨true, false, false, false, false⟩, setDataFd 0 serverFd⟩]), .next,
    .accept 7, .getFlags true, .setFlags true, .calloc p, .add true]

/-- The server with this client. -/
def oneClient (serverFd : ℤ) (p : Ptr) : Server where
  serverFd := serverFd
  pc := .looping
  batch := []
  heap := Function.update (fun _ => none) p (some (FdData.new 7))
  opened := insert 7 ∅
  interest := Function.update (fun _ => none) 7 (some p)
  faults := []

/-- An address of which the low half is another number. -/
theorem dispatch_iff_farAddress :
    ∃ s, Trace Server.step anyAddress (Server.init 16) (acceptAt 16 0x100000020) s ∧
      s.interest 7 = some 0x100000020 ∧
      ∀ e, Notifies s e → (s.Accepts e ↔ e.source = 16) ∧ (s.Handles e ↔ e.source ≠ 16) := by
  have h : Trace Server.step anyAddress (Server.init 16) (acceptAt 16 0x100000020)
      (oneClient 16 0x100000020) := Trace.of_eval rfl
  refine ⟨_, h, rfl, (dispatch_iff (by decide) (by decide) h).mpr fun fd p hreg => ?_⟩
  change Function.update (fun _ => none) 7 (some 0x100000020) fd = some p at hreg
  rcases eq_or_ne fd 7 with rfl | hne
  · rw [Function.update_self] at hreg
    obtain rfl := Option.some.inj hreg
    decide
  · rw [Function.update_of_ne hne] at hreg
    cases hreg

/-- **The address `0x100000010` and the descriptor `16`**: an event of the client is taken for a
new connection. -/
theorem accepts_clientEvent :
    ∃ s e, Trace Server.step anyAddress (Server.init 16) (acceptAt 16 0x100000010) s ∧
      Notifies s e ∧ e.source = 7 ∧ s.Accepts e ∧ ¬s.Handles e := by
  have h : Trace Server.step anyAddress (Server.init 16) (acceptAt 16 0x100000010)
      (oneClient 16 0x100000010) := Trace.of_eval rfl
  have haccepts : (oneClient 16 0x100000010).Accepts
      ⟨7, ⟨true, false, false, false, false⟩, 0x100000010⟩ := accepts_iff.mpr (by decide)
  refine ⟨_, _, h, by decide, rfl, haccepts, fun hhandles => ?_⟩
  exact clientBranch_pc (hhandles.symm.trans haccepts) rfl

end Epoll
end CaosSeminars
