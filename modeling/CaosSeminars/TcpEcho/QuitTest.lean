import CaosSeminars.TcpEcho.Cuts

/-!
# When a server takes a chunk for the quit command

Both servers look at what one `read` has returned, and take it for the quit command if
it is the single byte `'q'`.  What the client sends has no `NUL` in it, so the two tests
say the same about it (`isQuit_iff`).

The client sends `'q'` alone only when it was typed, but it is the network that cuts
the stream: of any line with a `'q'` in it `read` may return just that byte.  So a
server gets into its quit branch exactly if some `read` returns the single byte `'q'`.

* `calm_or_quitting` --- the invariant: as long as that has not happened no test can
  succeed, and once it has, the server does nothing but quit.
* `quit_iff_quitAlone` --- the statement over every run, whatever is typed; for lines
  that the client takes whole it also says which lines and which cuts make it happen: a
  cut of length one that falls on a `'q'` of the stream.
-/

namespace CaosSeminars
namespace TcpEcho

variable {server : Server} {msg : Buffer} {chunk : List UInt8} {s s' : Sys} {e : Event}
  {es : List Event}

/-- **The tests of both servers**, on a chunk without `NUL`. -/
theorem isQuit_iff (h : Holds msg chunk) (hnul : 0 ∉ chunk) :
    server.isQuit msg chunk.length ↔ chunk = quitCommand := by
  cases server with
  | tcp =>
    obtain ⟨rest, hrest⟩ := h
    rw [Server.isQuit, hrest]
    match chunk, hnul with
    | [], _ => simp [quitCommand]
    | [b], _ => simp [quitCommand]
    | b :: b' :: chunk, hnul =>
      have hne : b' ≠ 0 := fun hzero => hnul (by simp [hzero])
      simp [quitCommand, hne]
  | tcpFork =>
    rw [Server.isQuit, h.stringAt_eq hnul]
    exact decide_eq_true_iff

/-- A `read` of the server returns the single byte `'q'`. -/
def quitAlone : Event := .server (.read (.bytes quitCommand))

theorem quitAlone_mem_iff : quitAlone ∈ es ↔ quitCommand ∈ chunks es := by
  rw [chunks, List.mem_filterMap]
  constructor
  · exact fun hmem => ⟨quitAlone, hmem, rfl⟩
  · rintro ⟨e, hmem, he⟩
    have heq : e = quitAlone := by
      unfold Event.chunk at he
      split at he
      · rw [quitAlone, Option.some.inj he]
      · cases he
    rwa [← heq]

/-- The server is not about to find a quit command. -/
def Calm (s : Session) : Prop :=
  match s.pc with
  | .received n =>
    ∃ chunk, Holds s.msg chunk ∧ n = chunk.length ∧ 0 ∉ chunk ∧ chunk ≠ quitCommand
  | .quit => False
  | _ => True

/-- The server is in its quit branch, or its next test leads there. -/
def Quitting (server : Server) (s : Session) : Prop :=
  s.pc = .quit ∨ ∃ n, s.pc = .received n ∧ server.isQuit s.msg n

/-- Nothing on the way to the server has a `NUL` in it, and nothing that the client is
about to send has one. -/
def NulFree (s : Sys) : Prop :=
  0 ∉ s.up ∧ match s.client.pc with
    | .sending len => 0 ∉ s.client.buff.slice 0 len
    | _ => True

/-! ## One step -/

theorem calm_writeNext {len total : ℕ} {received sent : List UInt8} :
    Calm ⟨writeNext len total, msg, received, sent⟩ := by
  unfold writeNext
  split <;> trivial

variable {session t : Session} {a : Act}

theorem Calm.moves (h : Calm session) (hnul : 0 ∉ a.received)
    (hnot : a ≠ .read (.bytes quitCommand)) (hlt : a.received.length < BUFF_SIZE)
    (hm : Moves server session a t) : Calm t := by
  cases hm with
  | chunk bs hpc hpos =>
    exact ⟨bs, holds_terminate hlt, rfl, hnul, fun hbs => hnot (by rw [hbs])⟩
  | lost hpc hr => trivial
  | quit hpc hquit =>
    rw [Calm, hpc] at h
    obtain ⟨chunk, hholds, rfl, hfree, hne⟩ := h
    exact absurd ((isQuit_iff hholds hfree).mp hquit) hne
  | answer hpc hquit => exact calm_writeNext
  | write n hpc => exact calm_writeNext
  | fail hpc hr => trivial
  | next hpc => trivial

theorem Quitting.moves (h : Quitting server session) (hm : Moves server session a t) :
    Quitting server t := by
  rcases h with hquit | ⟨n, hpc, hquit⟩
  · cases hm <;> simp_all
  · cases hm with
    | quit hpc' hquit' => exact Or.inl rfl
    | @answer n' hpc' hnot =>
      obtain rfl := Pc.received.inj (hpc.symm.trans hpc')
      exact absurd hquit hnot
    | _ => simp_all

theorem quitting_of_quitAlone (hm : Moves server session (.read (.bytes quitCommand)) t) :
    Quitting server t := by
  have hlt : quitCommand.length < BUFF_SIZE := by decide
  cases hm with
  | chunk bs hpc hpos =>
    exact Or.inr ⟨_, rfl, (isQuit_iff (holds_terminate hlt) (by decide)).mpr rfl⟩
  | lost hpc hr => cases hr

/-- **The client never sends a `NUL`.** -/
theorem NulFree.moves (h : NulFree s) (hok : network s e) (hm : Sys.Moves server s e s') :
    NulFree s' := by
  obtain ⟨hup, hbuff⟩ := h
  cases hm with
  | server hm => exact ⟨fun hmem => hup (List.mem_of_mem_drop hmem), hbuff⟩
  | @client a c hm =>
    have hsame : s.client.accepted a = [] → 0 ∉ s.up ++ s.client.accepted a := fun hnone => by
      rw [hnone, List.append_nil]
      exact hup
    cases hm with
    | @line taken input hpc hgets =>
      refine ⟨hsame rfl, ?_⟩
      have hstripped : 0 ∉ (s.client.stripped taken).1.slice 0 (s.client.stripped taken).2 :=
        nul_notMem_slice_stripped
      dsimp only [Sys.onClient, Client.takeLine]
      split
      · rename_i len hlen
        split at hlen
        · cases hlen
        · cases hlen
          exact hstripped
      · trivial
    | @write len n hpc =>
      rw [hpc] at hbuff
      obtain ⟨-, hle⟩ : 0 < n ∧ n ≤ s.client.pc.asked := hok
      rw [hpc, ClientPc.asked] at hle
      refine ⟨fun hmem => ?_, ?_⟩
      · rcases List.mem_append.mp hmem with hmem | hmem
        · exact hup hmem
        · refine hbuff (List.IsPrefix.subset ?_ hmem)
          show s.client.buff.slice 0 n <+: s.client.buff.slice 0 len
          rw [← s.client.buff.slice_append_slice (Nat.zero_le n) hle]
          exact List.prefix_append _ _
      · dsimp only [Sys.onClient, Client.afterWrite]
        split
        · rename_i len' hlen
          split at hlen <;> cases hlen
        · trivial
    | read bs hpc => exact ⟨hsame rfl, trivial⟩
    | leave hread hwrite => exact ⟨hsame hwrite, trivial⟩

/-! ## Runs -/

/-- The server has not read `'q'` alone and is calm, or it has, and quits. -/
theorem calm_or_quitting (msg buff response : Buffer) (stdin : List UInt8)
    (h : Trace (Sys.step server) network (Sys.init msg buff response stdin) es s) :
    NulFree s ∧
      ((quitAlone ∉ es ∧ Calm s.server) ∨ (quitAlone ∈ es ∧ Quitting server s.server)) := by
  have hstart : NulFree (Sys.init msg buff response stdin) ∧
      ((quitAlone ∉ ([] : List Event) ∧ Calm (Session.init msg)) ∨
        (quitAlone ∈ ([] : List Event) ∧ Quitting server (Session.init msg))) :=
    ⟨⟨List.not_mem_nil, trivial⟩, Or.inl ⟨List.not_mem_nil, trivial⟩⟩
  refine h.history (P := fun es s => NulFree s ∧ ((quitAlone ∉ es ∧ Calm s.server) ∨
    (quitAlone ∈ es ∧ Quitting server s.server))) (fun pre s e t hs hok hstep => ?_) hstart
  obtain ⟨hfree, hcases⟩ := hs
  have hm := sysMoves_of_step hok hstep
  refine ⟨hfree.moves hok hm, ?_⟩
  simp only [List.mem_append, List.mem_singleton]
  cases hm with
  | client hm => simpa [quitAlone, Sys.onClient] using hcases
  | @server a t hm =>
    obtain ⟨hpre, hlt⟩ := received_of_network hok
    rcases hcases with ⟨hnot, hcalm⟩ | ⟨hread, hquitting⟩
    · by_cases ha : a = .read (.bytes quitCommand)
      · subst ha
        exact Or.inr ⟨Or.inr rfl, quitting_of_quitAlone hm⟩
      · refine Or.inl ⟨?_, hcalm.moves (fun hmem => hfree.1 (hpre.subset hmem)) ha hlt hm⟩
        rintro (hmem | heq)
        · exact hnot hmem
        · exact ha (Event.server.inj heq).symm
    · exact Or.inr ⟨Or.inl hread, hquitting.moves hm⟩

/-- **When a server finds the quit command.**  Whatever is typed and however the streams
are cut: as long as no `read` of the server returns the single byte `'q'`, the server
does not get into its quit branch; and when it is not just about to test a chunk, it is
in that branch exactly if some `read` has returned that byte alone.  Where the client
takes its lines whole, that is so exactly if a cut of length one falls on a `'q'` of what
was sent of them. -/
theorem quit_iff_quitAlone (server : Server) (msg buff response : Buffer) (stdin : List UInt8)
    (h : Trace (Sys.step server) network (Sys.init msg buff response stdin) es s) :
    (quitAlone ∉ es → s.server.pc ≠ .quit) ∧
      ((∀ n, s.server.pc ≠ .received n) → (s.server.pc ≠ .quit ↔ quitAlone ∉ es)) ∧
      ∀ lines, Typed stdin lines → (∀ line ∈ lines, Plain line) →
        (quitAlone ∈ es ↔ CutToQ (sentOf lines (writes es)) (cuts es)) := by
  obtain ⟨-, hcases⟩ := calm_or_quitting msg buff response stdin h
  have hkeep : quitAlone ∉ es → s.server.pc ≠ .quit := by
    intro hnot hquit
    rcases hcases with ⟨-, hcalm⟩ | ⟨hread, -⟩
    · rw [Calm, hquit] at hcalm
      exact hcalm
    · exact hnot hread
  refine ⟨hkeep, fun htest => ⟨fun hne => ?_, hkeep⟩, fun lines htyped hplain => ?_⟩
  · rcases hcases with ⟨hnot, -⟩ | ⟨-, hquit | ⟨n, hpc, -⟩⟩
    · exact hnot
    · exact absurd hquit hne
    · exact absurd hpc (htest n)
  · exact quitAlone_mem_iff.trans (streamed_of_trace htyped hplain h).quitCommand_mem_chunks_iff

/-- The line `"ab"` is cut on its way, but not to a `'q'`, and the server stays. -/
theorem quit_iff_quitAlone_patientRead :
    ∃ s, Trace (Sys.step .tcpFork) network (Sys.init zeros zeros zeros twoLinesTyped)
        patientRead s ∧
      s.server.pc ≠ .quit ∧ ¬CutToQ (sentOf twoLines (writes patientRead)) (cuts patientRead) := by
  obtain ⟨s, h, -⟩ := Trace.exists_of_eval (Sys.step .tcpFork) network (fun _ => true)
    (Sys.init zeros zeros zeros twoLinesTyped) patientRead (by decide +kernel)
  obtain ⟨hkeep, -, hcut⟩ := quit_iff_quitAlone .tcpFork zeros zeros zeros twoLinesTyped h
  have hnot : quitAlone ∉ patientRead := by decide
  exact ⟨s, h, hkeep hnot, fun hq => hnot ((hcut twoLines typed_twoLines plain_twoLines).mpr hq)⟩

/-- The line `"aq"` is cut in two on its way to the server. -/
def cutBeforeQ : List Event :=
  [.client .gets, .client (.write (.count 2)), .server (.read (.bytes [97])), .server .go,
    .server (.write (.count 1)), .server .go, .server (.read (.bytes [113])), .server .go]

/-- **For the line `"aq"` both servers get into their quit branch.** -/
theorem quits_cutBeforeQ :
    Typed [97, 113, 10] [[97, 113]] ∧ Plain [97, 113] ∧
      (∃ s, Trace (Sys.step .tcp) network (Sys.init zeros zeros zeros [97, 113, 10])
        cutBeforeQ s ∧ s.server.pc = .quit) ∧
      ∃ s, Trace (Sys.step .tcpFork) network (Sys.init zeros zeros zeros [97, 113, 10])
        cutBeforeQ s ∧ s.server.pc = .quit := by
  obtain ⟨s, h, hp⟩ := Trace.exists_of_eval (Sys.step .tcp) network
    (fun s => s.server.pc = .quit) (Sys.init zeros zeros zeros [97, 113, 10])
    cutBeforeQ (by decide +kernel)
  obtain ⟨s', h', hp'⟩ := Trace.exists_of_eval (Sys.step .tcpFork) network
    (fun s => s.server.pc = .quit) (Sys.init zeros zeros zeros [97, 113, 10])
    cutBeforeQ (by decide +kernel)
  refine ⟨Typed.cons [97, 113] Typed.nil,
    ⟨by decide, by decide, by decide, by decide, by decide⟩, ?_, ?_⟩
  · exact ⟨s, h, of_decide_eq_true hp⟩
  · exact ⟨s', h', of_decide_eq_true hp'⟩

end TcpEcho
end CaosSeminars
