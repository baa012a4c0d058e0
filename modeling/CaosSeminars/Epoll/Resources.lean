import CaosSeminars.Epoll.Server

/-!
# Descriptors, registrations and `fd_data` objects correspond

Between two events the client descriptors that are open, those registered in the
epoll instance, and the `fd` fields of the live `fd_data` objects are the same,
with one object for each descriptor; and no fault has happened.

Inside an event the handler may hold a descriptor that is not registered yet or
not any more, and an `fd_data` that no registration names.  `Owns s fd p` is the
correspondence with these two exceptions.  Each acquisition and each release
moves it from one pair of exceptions to another: `accept` and `calloc` add one,
`EPOLL_CTL_ADD` takes both into the correspondence, `EPOLL_CTL_DEL` takes both
out, `close` and `free` drop one each, in either order.  The accept branch with
its five ways to fail and the closing of a connection are then walks along these
lemmas.

* `Owned` --- the invariant of every place of the server, with its exceptions (`heldFd`,
  `heldData`).
* `Owned.processEpollEvent`, `Owns.clientBranch`, `Owns.closeConnection` --- the walks.
* `server_owns_connections` --- the correspondence in every run, with descriptors and addresses used
  again, within one batch of events as well.

Addresses of which the low half looks like the listening descriptor are included.
-/

namespace CaosSeminars
namespace Epoll

variable {s s' : Server} {fd : ℤ} {p : Ptr} {hf : Option ℤ} {hp : Option Ptr} {d : FdData}

/-- The correspondence, except for a descriptor `hf` and an object `hp` that the
handler holds; and the rest of the batch announces what is registered. -/
structure Owns (s : Server) (hf : Option ℤ) (hp : Option Ptr) : Prop where
  clean : s.faults = []
  null : s.heap NULL = none
  nonneg : ∀ fd ∈ s.opened, 0 ≤ fd
  opened : ∀ fd, fd ∈ s.opened ↔ (∃ p, s.interest fd = some p) ∨ hf = some fd
  unregistered : ∀ fd, hf = some fd → s.interest fd = none
  live : ∀ fd p, s.interest fd = some p → ∃ d, s.heap p = some d ∧ d.fd = fd
  owner : ∀ p d, s.heap p = some d → s.interest d.fd = some p ∨ hp = some p
  held : ∀ p, hp = some p → ∃ d, s.heap p = some d ∧ ∀ fd, hf = some fd → d.fd = fd
  unnamed : ∀ p, hp = some p → ∀ fd, s.interest fd ≠ some p
  sources : (s.batch.map Event.source).Nodup
  announced : ∀ e ∈ s.batch, Announces s e

theorem owns_init (serverFd : ℤ) : Owns (Server.init serverFd) none none := by
  constructor <;> simp [Server.init]

/-- The place of the server does not matter. -/
theorem Owns.goto (h : Owns s hf hp) (pc : MainPc) : Owns (s.goto pc) hf hp := { h with }

/-- An announcement stays true where the registration of its descriptor does. -/
theorem Announces.congr {e : Event} (h : Announces s e) (hserver : s'.serverFd = s.serverFd)
    (hsame : s'.interest e.source = s.interest e.source) : Announces s' e := by
  rw [Announces, hserver, hsame]
  exact h

/-! ## Releases -/

theorem close_of_mem (h : fd ∈ s.opened) :
    s.close fd =
      { s with opened := s.opened.erase fd, interest := Function.update s.interest fd none } :=
  if_pos h

theorem free_of_live (h : s.heap p = some d) :
    s.free p = { s with heap := Function.update s.heap p none } :=
  if_pos (by rw [h]; rfl)

theorem Owns.close (h : Owns s (some fd) hp) : Owns (s.close fd) none hp := by
  have hnone := h.unregistered fd rfl
  have hsame : Function.update s.interest fd none = s.interest := by
    rw [← hnone, Function.update_eq_self]
  rw [close_of_mem ((h.opened fd).mpr (Or.inr rfl)), hsame]
  exact { h with
    nonneg := fun x hx => h.nonneg x (Finset.mem_of_mem_erase hx)
    opened := by
      intro x
      rw [Finset.mem_erase, h.opened x]
      constructor
      · rintro ⟨hne, hreg | heq⟩
        · exact Or.inl hreg
        · exact absurd (Option.some.inj heq).symm hne
      · rintro (⟨p, hreg⟩ | heq)
        · refine ⟨?_, Or.inl ⟨p, hreg⟩⟩
          rintro rfl
          exact absurd hreg (by rw [hnone]; simp)
        · exact absurd heq (by simp)
    unregistered := by simp
    held := fun p hp => (h.held p hp).imp fun d hd => ⟨hd.1, by simp⟩ }

theorem Owns.free (h : Owns s hf (some p)) : Owns (s.free p) hf none := by
  obtain ⟨d, hd, -⟩ := h.held p rfl
  have hother : ∀ q e, Function.update s.heap p none q = some e → q ≠ p ∧ s.heap q = some e := by
    intro q e hq
    rcases eq_or_ne q p with rfl | hne
    · simp at hq
    · rw [Function.update_of_ne hne] at hq
      exact ⟨hne, hq⟩
  rw [free_of_live hd]
  exact { h with
    null := by
      rcases eq_or_ne NULL p with heq | hne
      · simp [heq]
      · simpa [Function.update_of_ne hne] using h.null
    live := by
      intro x q hreg
      have hne : q ≠ p := fun heq => h.unnamed p rfl x (heq ▸ hreg)
      simpa [Function.update_of_ne hne] using h.live x q hreg
    owner := by
      intro q e hq
      obtain ⟨hne, hq⟩ := hother q e hq
      rcases h.owner q e hq with hreg | heq
      · exact Or.inl hreg
      · exact absurd (Option.some.inj heq).symm hne
    held := by simp
    unnamed := by simp }

/-- `EPOLL_CTL_DEL` of a registered descriptor that no event in the batch is about:
the handler holds the descriptor and its object. -/
theorem Owns.epollDel (h : Owns s none none) (hreg : s.interest fd = some p)
    (hbatch : ∀ e ∈ s.batch, e.source ≠ fd) : Owns (s.epollDel fd) (some fd) (some p) := by
  obtain ⟨d, hd, hfd⟩ := h.live fd p hreg
  have hother : ∀ x q, Function.update s.interest fd none x = some q →
      x ≠ fd ∧ s.interest x = some q := by
    intro x q hx
    rcases eq_or_ne x fd with rfl | hne
    · simp at hx
    · rw [Function.update_of_ne hne] at hx
      exact ⟨hne, hx⟩
  exact { h with
    opened := by
      intro x
      rcases eq_or_ne x fd with rfl | hne
      · exact iff_of_true ((h.opened x).mpr (Or.inl ⟨p, hreg⟩)) (Or.inr rfl)
      · simp only [Server.epollDel, Function.update_of_ne hne, h.opened x, Option.some.injEq,
          hne.symm, reduceCtorEq]
    unregistered := by
      rintro x hx
      obtain rfl := Option.some.inj hx
      exact Function.update_self _ _ _
    live := fun x q hx => h.live x q (hother x q hx).2
    owner := by
      intro q e hq
      have hreg' := (h.owner q e hq).resolve_right (by simp)
      rcases eq_or_ne e.fd fd with heq | hne
      · rw [heq, hreg] at hreg'
        exact Or.inr hreg'
      · refine Or.inl ?_
        simpa [Server.epollDel, Function.update_of_ne hne] using hreg'
    held := by
      rintro q hq
      obtain rfl := Option.some.inj hq
      exact ⟨d, hd, fun x hx => hfd.trans (Option.some.inj hx)⟩
    unnamed := by
      rintro q hq x hx
      obtain rfl := Option.some.inj hq
      obtain ⟨hne, hx⟩ := hother x p hx
      obtain ⟨d', hd', hfd'⟩ := h.live x p hx
      rw [hd] at hd'
      obtain rfl := Option.some.inj hd'
      exact hne (hfd'.symm.trans hfd)
    announced := fun e he =>
      (h.announced e he).congr rfl (Function.update_of_ne (hbatch e he) _ _) }

/-! ## Acquisitions -/

theorem Owns.accept (h : Owns s none none) (hfd : 0 ≤ fd) (hnew : fd ∉ s.opened) :
    Owns { s with opened := insert fd s.opened } (some fd) none :=
  { h with
    nonneg := by
      intro x hx
      rcases Finset.mem_insert.mp hx with rfl | hx
      · exact hfd
      · exact h.nonneg x hx
    opened := by
      intro x
      simp only [Finset.mem_insert, h.opened x, Option.some.injEq, reduceCtorEq, or_false]
      rw [or_comm, eq_comm]
    unregistered := by
      rintro x hx
      obtain rfl := Option.some.inj hx
      by_contra hreg
      exact hnew ((h.opened fd).mpr (Or.inl (Option.ne_none_iff_exists'.mp hreg)))
    held := by simp }

theorem Owns.calloc (h : Owns s (some fd) none) (hnull : p ≠ NULL) (hnew : s.heap p = none) :
    Owns (s.setData p (FdData.new fd)) (some fd) (some p) :=
  { h with
    null := by simpa [Server.setData, Function.update_of_ne hnull.symm] using h.null
    live := by
      intro x q hreg
      obtain ⟨e, he, hfd⟩ := h.live x q hreg
      have hne : q ≠ p := by
        rintro rfl
        exact absurd he (by rw [hnew]; simp)
      exact ⟨e, by simpa [Server.setData, Function.update_of_ne hne] using he, hfd⟩
    owner := by
      intro q e hq
      rcases eq_or_ne q p with rfl | hne
      · exact Or.inr rfl
      · simp only [Server.setData, Function.update_of_ne hne] at hq
        exact Or.inl ((h.owner q e hq).resolve_right (by simp))
    held := by
      rintro q hq
      obtain rfl := Option.some.inj hq
      exact ⟨FdData.new fd, Function.update_self _ _ _, fun x hx => Option.some.inj hx⟩
    unnamed := by
      rintro q hq x hx
      obtain rfl := Option.some.inj hq
      obtain ⟨e, he, -⟩ := h.live x p hx
      exact absurd he (by rw [hnew]; simp) }

theorem Owns.epollAdd (h : Owns s (some fd) (some p)) : Owns (s.epollAdd fd p) none none := by
  have hnone := h.unregistered fd rfl
  obtain ⟨d, hd, hfd⟩ := h.held p rfl
  exact { h with
    opened := by
      intro x
      rcases eq_or_ne x fd with rfl | hne
      · exact iff_of_true ((h.opened x).mpr (Or.inr rfl))
          (Or.inl ⟨p, Function.update_self _ _ _⟩)
      · simp only [Server.epollAdd, Function.update_of_ne hne, h.opened x, Option.some.injEq,
          hne.symm, reduceCtorEq]
    unregistered := by simp
    live := by
      intro x q hreg
      rcases eq_or_ne x fd with rfl | hne
      · simp only [Server.epollAdd, Function.update_self, Option.some.injEq] at hreg
        exact ⟨d, hreg ▸ hd, hfd x rfl⟩
      · simp only [Server.epollAdd, Function.update_of_ne hne] at hreg
        exact h.live x q hreg
    owner := by
      intro q e hq
      rcases h.owner q e hq with hreg | heq
      · have hne : e.fd ≠ fd := by
          rintro heq
          rw [heq, hnone] at hreg
          exact absurd hreg (by simp)
        refine Or.inl ?_
        simpa [Server.epollAdd, Function.update_of_ne hne] using hreg
      · obtain rfl := Option.some.inj heq
        obtain rfl : d = e := Option.some.inj (hd.symm.trans hq)
        refine Or.inl ?_
        simp [Server.epollAdd, hfd fd rfl]
    held := by simp
    unnamed := by simp
    announced := by
      intro e he
      have hann := h.announced e he
      by_cases hsource : e.source = s.serverFd
      · rw [Announces, if_pos hsource] at hann
        exact (if_pos hsource).mpr hann
      · rw [Announces, if_neg hsource] at hann
        refine (h.announced e he).congr rfl (Function.update_of_ne ?_ _ _)
        rintro heq
        rw [heq, hnone] at hann
        exact absurd hann (by simp) }

/-! ## The client branch -/

/-- Storing to an `fd_data` of the server, its descriptor aside. -/
theorem Owns.setData {d' : FdData} (h : Owns s none none) (hd : s.heap p = some d)
    (hfd : d'.fd = d.fd) : Owns (s.setData p d') none none := by
  have hback : ∀ q e, (s.setData p d').heap q = some e →
      ∃ e', s.heap q = some e' ∧ e.fd = e'.fd := by
    intro q e hq
    rcases eq_or_ne q p with rfl | hne
    · simp only [Server.setData, Function.update_self, Option.some.injEq] at hq
      exact ⟨d, hd, hq ▸ hfd⟩
    · simp only [Server.setData, Function.update_of_ne hne] at hq
      exact ⟨e, hq, rfl⟩
  exact { h with
    null := by
      have hne : NULL ≠ p := by
        rintro rfl
        exact absurd hd (by rw [h.null]; simp)
      simpa [Server.setData, Function.update_of_ne hne] using h.null
    live := by
      intro x q hreg
      obtain ⟨e, he, hfd'⟩ := h.live x q hreg
      rcases eq_or_ne q p with rfl | hne
      · rw [hd] at he
        obtain rfl := Option.some.inj he
        exact ⟨d', Function.update_self _ _ _, hfd.trans hfd'⟩
      · exact ⟨e, by simpa [Server.setData, Function.update_of_ne hne] using he, hfd'⟩
    owner := by
      intro q e hq
      obtain ⟨e', he', heq⟩ := hback q e hq
      rw [heq]
      exact h.owner q e' he'
    held := by simp }

/-- `EPOLL_CTL_MOD` registers the connection with the pointer it has. -/
theorem epollMod_eq (h : s.interest fd = some p) : s.epollMod fd p = s := by
  have hsame : Function.update s.interest fd (some p) = s.interest := by
    rw [← h, Function.update_eq_self]
  rw [Server.epollMod, h, Option.isSome_some, if_pos rfl, Server.epollAdd, hsame]

theorem modify_eq (h : s.interest d.fd = some p) (a : Act) : s.modify p d a = s := by
  cases a <;> first | rfl | exact epollMod_eq h

/-- `read_buff` does not touch the descriptor. -/
theorem fd_readBuff (r : ReadResult) : (readBuff d r).1.fd = d.fd := by
  unfold readBuff
  split
  · rfl
  · cases r <;> rfl

theorem fd_writeBuff (w : WriteResult) : (writeBuff d w).1.fd = d.fd := by
  unfold writeBuff
  split
  · rfl
  · cases w with
    | count n =>
      dsimp only
      split <;> rfl
    | _ => rfl

theorem fd_clientStep {pc pc' : Pc} {d' : FdData} {a : Act}
    (h : clientStep pc d a = some (pc', d')) : d'.fd = d.fd := by
  unfold clientStep at h
  split at h
  · obtain ⟨-, rfl⟩ := Prod.mk.inj (Option.some.inj h)
    rfl
  · obtain ⟨-, rfl⟩ := Prod.mk.inj (Option.some.inj h)
    exact fd_readBuff _
  · obtain ⟨-, rfl⟩ := Prod.mk.inj (Option.some.inj h)
    rfl
  · obtain ⟨-, rfl⟩ := Prod.mk.inj (Option.some.inj h)
    exact fd_writeBuff _
  · obtain ⟨-, rfl⟩ := Prod.mk.inj (Option.some.inj h)
    rfl
  · exact absurd h (by simp)

/-- `close_connection` gives back the registration, the descriptor and the
`fd_data` of the connection. -/
theorem Owns.closeConnection (h : Owns s none none) (hd : s.heap p = some d)
    (hreg : s.interest d.fd = some p) (hbatch : ∀ e ∈ s.batch, e.source ≠ d.fd) :
    Owns (s.closeConnection p d) none none ∧ (s.closeConnection p d).pc = s.pc := by
  have hnull : p ≠ NULL := by
    rintro rfl
    exact absurd hd (by rw [h.null]; simp)
  have hmem : d.fd ∈ s.opened := (h.opened d.fd).mpr (Or.inl ⟨p, hreg⟩)
  rw [Server.closeConnection, if_pos ⟨hnull, h.nonneg _ hmem⟩]
  refine ⟨(h.epollDel hreg hbatch).close.free, ?_⟩
  have hmem' : d.fd ∈ (s.epollDel d.fd).opened := hmem
  rw [close_of_mem hmem', free_of_live (d := d)]
  · rfl
  · exact hd

/-! ## The invariant -/

/-- The descriptor that the accept branch holds. -/
def MainPc.heldFd : MainPc → Option ℤ
  | .gettingFlags fd | .settingFlags fd | .allocating fd | .adding fd _ => some fd
  | _ => none

/-- The `fd_data` that the accept branch holds. -/
def MainPc.heldData : MainPc → Option Ptr
  | .adding _ p => some p
  | _ => none

/-- The correspondence, and the connection being handled is one of the server's,
with no other event in the batch. -/
structure Owned (s : Server) : Prop where
  owns : Owns s s.pc.heldFd s.pc.heldData
  handled : ∀ p pc, s.pc = .handling p pc → ∃ d, s.heap p = some d ∧
    s.interest d.fd = some p ∧ ∀ e ∈ s.batch, e.source ≠ d.fd

/-- Outside the client branch the correspondence is all there is to show. -/
theorem Owns.owned (h : Owns s hf hp) (pc : MainPc) (hpc : s.pc = pc)
    (hpc' : ∀ p pc', pc ≠ .handling p pc') (hfd : pc.heldFd = hf) (hdata : pc.heldData = hp) :
    Owned s := by
  subst hpc hfd hdata
  exact ⟨h, fun p pc' heq => absurd heq (hpc' p pc')⟩

theorem Owns.release (h : Owns s (some fd) none) (hpc : s.pc = .looping) : Owned (s.close fd) := by
  have hmem : fd ∈ s.opened := (h.opened fd).mpr (Or.inr rfl)
  refine h.close.owned .looping ?_ (by simp) rfl rfl
  rw [close_of_mem hmem]
  exact hpc

theorem Owns.clientBranch {pc : Pc} {a : Act} (h : Owns s none none) (hd : s.heap p = some d)
    (hreg : s.interest d.fd = some p) (hbatch : ∀ e ∈ s.batch, e.source ≠ d.fd)
    (hstep : s.clientBranch p pc a = some s') : Owned s' := by
  simp only [Server.clientBranch, hd] at hstep
  obtain ⟨⟨pc', d'⟩, hclient, rfl⟩ := Option.map_eq_some_iff.mp hstep
  have hfd : d'.fd = d.fd := fd_clientStep hclient
  have hs := h.setData hd hfd
  have hd' : (s.setData p d').heap p = some d' := Function.update_self _ _ _
  have hreg' : (s.setData p d').interest d'.fd = some p := by
    rw [hfd]
    exact hreg
  have hbatch' : ∀ e ∈ (s.setData p d').batch, e.source ≠ d'.fd := by
    rw [hfd]
    exact hbatch
  rw [modify_eq hreg']
  cases pc' with
  | waiting => exact (hs.goto .looping).owned .looping rfl (by simp) rfl rfl
  | closed =>
    obtain ⟨howns, hpc⟩ := (hs.goto .looping).closeConnection hd' hreg' hbatch'
    exact howns.owned .looping hpc (by simp) rfl rfl
  | _ =>
    refine ⟨hs.goto _, fun q pc hpc => ?_⟩
    obtain ⟨rfl, -⟩ := MainPc.handling.inj hpc
    exact ⟨d', hd', hreg', hbatch'⟩

/-- The next event starts: it is about the listening descriptor, or about a
connection of the server. -/
theorem Owned.processEpollEvent {e : Event} {rest : List Event} (h : Owns s none none)
    (hs : s.batch = e :: rest)
    (hstep : { s with batch := rest }.processEpollEvent e = some s') : Owned s' := by
  have hsources := h.sources
  rw [hs, List.map_cons, List.nodup_cons] at hsources
  have hrest : Owns { s with batch := rest } none none :=
    { h with
      sources := hsources.2
      announced := fun e' he' => h.announced e' (hs ▸ List.mem_cons_of_mem e he') }
  have hann := h.announced e (hs ▸ List.mem_cons_self)
  rw [Server.processEpollEvent] at hstep
  split at hstep
  · obtain rfl := Option.some.inj hstep
    exact (hrest.goto .accepting).owned .accepting rfl (by simp) rfl rfl
  · rename_i hdata
    split at hstep
    · obtain rfl := Option.some.inj hstep
      exact (hrest.goto .looping).owned .looping rfl (by simp) rfl rfl
    · have hsource : e.source ≠ s.serverFd := fun heq => hdata (by
        rw [Announces, if_pos heq] at hann
        exact hann)
      rw [Announces, if_neg hsource] at hann
      obtain ⟨d, hd, hfd⟩ := h.live e.source e.data hann
      refine hrest.clientBranch hd (by rw [hfd]; exact hann) (fun e' he' heq => ?_) hstep
      exact hsources.1 (List.mem_map.mpr ⟨e', he', heq.trans hfd⟩)

theorem Owned.preserves {a : ServerAct} (h : Owned s) (hok : serverPromises s a)
    (hstep : s.step a = some s') : Owned s' := by
  have howns := h.owns
  simp only [Server.step] at hstep
  split at hstep
  · -- `epoll_wait`
    rename_i r hpc
    rw [hpc] at howns
    split at hstep
    · exact absurd hstep (by simp)
    · cases r with
      | events l =>
        obtain rfl := Option.some.inj hstep
        have hbatch : Owns { s with batch := l } none none :=
          { howns with sources := hok.2.1, announced := hok.2.2 }
        exact hbatch.owned .looping hpc (by simp) rfl rfl
      | interrupted =>
        obtain rfl := Option.some.inj hstep
        exact h
      | error =>
        obtain rfl := Option.some.inj hstep
        exact (howns.goto .exited).owned .exited rfl (by simp) rfl rfl
  · rename_i hpc
    rw [hpc] at howns
    split at hstep
    · exact absurd hstep (by simp)
    · rename_i e rest hs
      exact Owned.processEpollEvent howns hs hstep
  · -- `accept`
    rename_i fd hpc
    rw [hpc] at howns
    split at hstep
    · obtain rfl := Option.some.inj hstep
      exact (howns.goto .looping).owned .looping rfl (by simp) rfl rfl
    · rename_i hneg
      obtain rfl := Option.some.inj hstep
      have hfd := not_lt.mp hneg
      exact ((howns.accept hfd (hok hfd).1).goto (.gettingFlags fd)).owned (.gettingFlags fd) rfl
        (by simp) rfl rfl
  · -- `fcntl(F_GETFL)`
    rename_i fd ok hpc
    rw [hpc] at howns
    split at hstep
    · obtain rfl := Option.some.inj hstep
      exact (howns.goto (.settingFlags fd)).owned (.settingFlags fd) rfl (by simp) rfl rfl
    · obtain rfl := Option.some.inj hstep
      exact (howns.goto .looping).release rfl
  · -- `fcntl(F_SETFL)`
    rename_i fd ok hpc
    rw [hpc] at howns
    split at hstep
    · obtain rfl := Option.some.inj hstep
      exact (howns.goto (.allocating fd)).owned (.allocating fd) rfl (by simp) rfl rfl
    · obtain rfl := Option.some.inj hstep
      exact (howns.goto .looping).release rfl
  · -- `calloc`
    rename_i fd p hpc
    rw [hpc] at howns
    split at hstep
    · obtain rfl := Option.some.inj hstep
      exact (howns.goto .looping).release rfl
    · rename_i hnull
      obtain rfl := Option.some.inj hstep
      exact ((howns.calloc hnull (hok hnull)).goto (.adding fd p)).owned (.adding fd p) rfl
        (by simp) rfl rfl
  · -- `epoll_ctl(EPOLL_CTL_ADD)`
    rename_i fd p ok hpc
    rw [hpc] at howns
    split at hstep
    · obtain rfl := Option.some.inj hstep
      exact (howns.goto .looping).epollAdd.owned .looping rfl (by simp) rfl rfl
    · obtain rfl := Option.some.inj hstep
      obtain ⟨d, hd, -⟩ := howns.held p rfl
      have hd' : (s.goto .looping).heap p = some d := hd
      refine (howns.goto .looping).free.release ?_
      rw [free_of_live hd']
      rfl
  · -- the client branch
    rename_i p pc a hpc
    rw [hpc] at howns
    obtain ⟨d, hd, hreg, hbatch⟩ := h.handled p pc hpc
    exact howns.clientBranch hd hreg hbatch hstep
  · exact absurd hstep (by simp)

theorem owned_of_trace {serverFd : ℤ} {as : List ServerAct}
    (h : Trace Server.step serverPromises (Server.init serverFd) as s) : Owned s := by
  have hinit : Owned (Server.init serverFd) :=
    (owns_init serverFd).owned .looping rfl (by simp) rfl rfl
  exact h.invariant (fun _ _ _ hs hok hstep => hs.preserves hok hstep) hinit

/-- The client descriptors that are registered in the epoll instance. -/
def Server.registered (s : Server) : Set ℤ := {fd | ∃ p, s.interest fd = some p}

/-- The `fd` fields of the live `fd_data` objects. -/
def Server.dataFds (s : Server) : Set ℤ := {fd | ∃ p d, s.heap p = some d ∧ d.fd = fd}

/-- **The server leaks no connection and releases none twice.**  In every run,
whatever fails and whatever numbers and addresses come back: no descriptor is
closed twice, no `fd_data` is freed twice, and none is handled after it was freed;
and between two events the open client descriptors, the registered ones and those
of the live `fd_data` objects are the same, with exactly one object for each. -/
theorem server_owns_connections (serverFd : ℤ) {as : List ServerAct}
    (h : Trace Server.step serverPromises (Server.init serverFd) as s) :
    s.faults = [] ∧
    (s.pc = .looping →
      (s.opened : Set ℤ) = s.registered ∧ s.registered = s.dataFds ∧
      ∀ fd ∈ s.opened, ∃! p, ∃ d, s.heap p = some d ∧ d.fd = fd) := by
  have howns := (owned_of_trace h).owns
  refine ⟨howns.clean, fun hpc => ?_⟩
  rw [hpc] at howns
  have howner : ∀ p d, s.heap p = some d → s.interest d.fd = some p := fun p d hd =>
    (howns.owner p d hd).resolve_right (by simp [MainPc.heldData])
  have hopened : ∀ fd, fd ∈ s.opened ↔ ∃ p, s.interest fd = some p := fun fd =>
    (howns.opened fd).trans (or_iff_left (by simp [MainPc.heldFd]))
  refine ⟨Set.ext hopened, Set.ext fun fd => ⟨?_, ?_⟩, fun fd hfd => ?_⟩
  · rintro ⟨p, hreg⟩
    obtain ⟨d, hd, hfd⟩ := howns.live fd p hreg
    exact ⟨p, d, hd, hfd⟩
  · rintro ⟨p, d, hd, rfl⟩
    exact ⟨p, howner p d hd⟩
  · obtain ⟨p, hreg⟩ := (hopened fd).mp hfd
    refine ⟨p, howns.live fd p hreg, ?_⟩
    rintro q ⟨d, hd, rfl⟩
    exact Option.some.inj ((howner q d hd).symm.trans hreg)

/-- A connection is accepted.  In one batch it is then closed and another one
accepted, which gets the same descriptor and the same address. -/
def sameBatchReuse : List ServerAct :=
  [.wait (.events [⟨3, ⟨true, false, false, false, false⟩, 3⟩]), .next, .accept 7,
    .getFlags true, .setFlags true, .calloc 4096, .add true,
    .wait (.events [⟨7, ⟨true, false, false, false, true⟩, 4096⟩,
      ⟨3, ⟨true, false, false, false, false⟩, 3⟩]),
    .next, .next, .accept 7, .getFlags true, .setFlags true, .calloc 4096, .add true]

/-- The second connection owns the descriptor. -/
theorem server_owns_connections_sameBatchReuse :
    ∃ s, Trace Server.step serverPromises (Server.init 3) sameBatchReuse s ∧ s.faults = [] ∧
      ∃! p, ∃ d, s.heap p = some d ∧ d.fd = 7 := by
  obtain ⟨s, h, hp⟩ := Trace.exists_of_eval Server.step serverPromises
    (fun s => s.pc = .looping ∧ 7 ∈ s.opened) (Server.init 3) sameBatchReuse (by decide +kernel)
  obtain ⟨hpc, hfd⟩ := of_decide_eq_true hp
  obtain ⟨hclean, howned⟩ := server_owns_connections 3 h
  exact ⟨s, h, hclean, (howned hpc).2.2 7 hfd⟩

end Epoll
end CaosSeminars
