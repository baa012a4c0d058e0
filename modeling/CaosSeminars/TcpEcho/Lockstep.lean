import CaosSeminars.TcpEcho.Exchange

/-!
# The client prints what was typed

The client takes what one `read` returns for the echo of its line.  That is so as long
as `read` returns as many bytes as the line has: then nothing is left in flight, and
the next line starts afresh.  The first `read` that returns fewer prints a part of its
line, whatever comes later.

`InStep` is what is known between two calls, by the place of the client.  While it
waits, the bytes on the way to it, in the server and on the way to the server are the
beginning of its line, however the streams are cut.

* `Typed`, `Plain` --- the lines that are typed, and which of them the client takes whole.
* `InStep.onServer`, `InStep.onClient` --- one step keeps the two in step, if an echo that
  is read is whole.
* `not_printed_prefix_of_not_wholeEcho` --- the first one that is not shows at once, and for
  good.
* `echoes_in_step_iff` --- over every run, all lines and all cuts.
-/

namespace CaosSeminars
namespace TcpEcho

/-- These lines are typed; the last newline may be missing. -/
inductive Typed : List UInt8 → List (List UInt8) → Prop
  | nil : Typed [] []
  | last (line : List UInt8) : Typed line [line]
  | cons {input : List UInt8} {lines : List (List UInt8)} (line : List UInt8) :
      Typed input lines → Typed (line ++ 10 :: input) (line :: lines)

/-- A line that the client takes whole: not empty, shorter than `BUFF_SIZE - 1`, without
`NUL`, and not the quit command. -/
structure Plain (line : List UInt8) : Prop where
  ne_nil : line ≠ []
  lt : line.length < BUFF_SIZE - 1
  noNul : 0 ∉ line
  noNewline : 10 ∉ line
  ne_quit : line ≠ quitCommand

/-- A `read` of the client returns as many bytes as the line has that it has sent. -/
def wholeEcho (s : Sys) : Event → Prop
  | .client (.read (.bytes bs)) => bs.length = (stringAt s.client.buff).length
  | _ => True

instance (s : Sys) : (e : Event) → Decidable (wholeEcho s e)
  | .client (.read (.bytes _)) => inferInstanceAs (Decidable (_ = _))
  | .client (.read .eof) | .client (.read .error) | .client (.write _) | .client .gets
  | .server _ => inferInstanceAs (Decidable True)

variable {server : Server} {s s' : Sys} {e : Event} {lines rest : List (List UInt8)}
  {line input : List UInt8} {c : Client}

theorem Plain.lt_size (h : Plain line) : line.length + 1 < BUFF_SIZE := by
  have hlt := h.lt
  unfold BUFF_SIZE at *
  omega

/-- **The client takes the next line**, ready to send it. -/
theorem stripped_of_typed (htyped : Typed input lines) (hplain : ∀ line ∈ lines, Plain line) :
    (lines = [] ∧ fgets (BUFF_SIZE - 1) input = none) ∨
      ∃ line lines' taken input', lines = line :: lines' ∧ Typed input' lines' ∧
        fgets (BUFF_SIZE - 1) input = some (taken, input') ∧
        Holds (c.stripped taken).1 line ∧ (c.stripped taken).2 = line.length := by
  cases htyped with
  | nil => exact Or.inl ⟨rfl, rfl⟩
  | last =>
    have hline := hplain input List.mem_cons_self
    exact Or.inr ⟨input, [], input, [], rfl, Typed.nil,
      fgets_lastLine hline.noNewline hline.ne_nil hline.lt,
      holds_stripped_lastLine hline.noNul hline.noNewline (Nat.lt_of_succ_lt hline.lt_size)⟩
  | @cons input' lines' line htyped' =>
    have hline := hplain line List.mem_cons_self
    exact Or.inr ⟨line, lines', line ++ [10], input', rfl, htyped',
      fgets_line hline.noNewline hline.lt, holds_stripped_newline hline.noNul hline.lt_size⟩

/-- What `fgets` has returned is the next line, and the client is going to send all of it. -/
theorem takeLine_of_typed {taken : List UInt8} (htyped : Typed c.stdin lines)
    (hplain : ∀ line ∈ lines, Plain line)
    (hgets : fgets (BUFF_SIZE - 1) c.stdin = some (taken, input)) :
    ∃ line rest, lines = line :: rest ∧ Typed input rest ∧
      Holds (c.takeLine taken input).buff line ∧
      (c.takeLine taken input).pc = .sending line.length := by
  rcases stripped_of_typed (c := c) htyped hplain with ⟨-, hend⟩ |
    ⟨line, rest, taken', input', hlines, htyped', hgets', hholds, hlen⟩
  · rw [hend] at hgets
    cases hgets
  · obtain ⟨rfl, rfl⟩ := Prod.mk.inj (Option.some.inj (hgets'.symm.trans hgets))
    have hne := (hplain line (hlines ▸ List.mem_cons_self)).ne_nil
    refine ⟨line, rest, hlines, htyped', hholds, ?_⟩
    rw [Client.takeLine, hlen]
    exact if_neg (by rwa [List.length_eq_zero_iff])

/-! ## The invariant -/

/-- The client is on `line`, and `rest` is what it has not taken yet. -/
structure OnLine (lines : List (List UInt8)) (c : Client) (line : List UInt8)
    (rest : List (List UInt8)) : Prop where
  lines_eq : lines = c.printed ++ line :: rest
  typed : Typed c.stdin rest
  holds : Holds c.buff line

/-- What is known while every echo was whole, by the place of the client. -/
def InStep (lines : List (List UInt8)) (s : Sys) : Prop :=
  match s.client.pc with
  | .typing => ∃ rest, lines = s.client.printed ++ rest ∧ Typed s.client.stdin rest ∧ InFlight s []
  | .sending len => ∃ line rest, OnLine lines s.client line rest ∧ len = line.length ∧ InFlight s []
  | .awaiting => ∃ line rest bs, OnLine lines s.client line rest ∧ bs <+: line ∧ InFlight s bs
  | .done => s.client.printed <+: lines

theorem OnLine.plain (h : OnLine lines c line rest) (hplain : ∀ line ∈ lines, Plain line) :
    Plain line :=
  hplain line (h.lines_eq ▸ List.mem_append_right _ List.mem_cons_self)

theorem inStep_init {msg buff response : Buffer} (htyped : Typed input lines) :
    InStep lines (Sys.init msg buff response input) :=
  ⟨lines, rfl, htyped, [], rfl, rfl⟩

/-- While every echo was whole, the lines were printed in order. -/
theorem InStep.printed_isPrefix (h : InStep lines s) : s.client.printed <+: lines := by
  rw [InStep] at h
  split at h
  · obtain ⟨rest, rfl, -⟩ := h
    exact List.prefix_append _ _
  · obtain ⟨line, rest, hline, -⟩ := h
    exact hline.lines_eq ▸ List.prefix_append _ _
  · obtain ⟨line, rest, bs, hline, -⟩ := h
    exact hline.lines_eq ▸ List.prefix_append _ _
  · exact h

theorem InStep.onServer {a : Act} {t : Session} (h : InStep lines s) (hok : network s (.server a))
    (hm : TcpEcho.Moves server s.server a t) : InStep lines (s.onServer a t) := by
  have hfirst := h.printed_isPrefix
  have hmove : ∀ bs, s.client.pc ≠ .done → InFlight s bs → InFlight (s.onServer a t) bs :=
    fun bs hpc hbs => hbs.onServer (by simp [Client.closed, hpc]) hok hm
  rw [InStep] at h
  cases hpc : s.client.pc with
  | typing =>
    simp only [hpc] at h
    obtain ⟨rest, hlines, htyped, hnone⟩ := h
    rw [InStep, show (s.onServer a t).client = s.client from rfl, hpc]
    exact ⟨rest, hlines, htyped, hmove [] (by simp [hpc]) hnone⟩
  | sending len =>
    simp only [hpc] at h
    obtain ⟨line, rest, hline, hlen, hnone⟩ := h
    rw [InStep, show (s.onServer a t).client = s.client from rfl, hpc]
    exact ⟨line, rest, hline, hlen, hmove [] (by simp [hpc]) hnone⟩
  | awaiting =>
    simp only [hpc] at h
    obtain ⟨line, rest, bs, hline, hbs, hflight⟩ := h
    rw [InStep, show (s.onServer a t).client = s.client from rfl, hpc]
    exact ⟨line, rest, bs, hline, hbs, hmove bs (by simp [hpc]) hflight⟩
  | done =>
    rw [InStep, show (s.onServer a t).client = s.client from rfl, hpc]
    exact hfirst

/-- A step of the client that finds a whole echo, if it reads. -/
theorem InStep.onClient {a : ClientAct} (hplain : ∀ line ∈ lines, Plain line) (h : InStep lines s)
    (hok : network s (.client a)) (hmet : wholeEcho s (.client a)) (hm : ClientMoves s.client a c) :
    InStep lines (s.onClient a c) := by
  have hfirst := h.printed_isPrefix
  rw [InStep] at h
  cases hm with
  | @line taken input hpc hgets =>
    rw [hpc] at h
    obtain ⟨rest, hlines, htyped, held, hphase, hnone⟩ := h
    have hrest : ∀ line ∈ rest, Plain line := fun line hmem =>
      hplain line (hlines ▸ List.mem_append_right _ hmem)
    obtain ⟨line, rest', rfl, htyped', hholds, hpc'⟩ := takeLine_of_typed htyped hrest hgets
    rw [InStep, show (s.onClient .gets (s.client.takeLine taken input)).client.pc =
      .sending line.length from hpc']
    refine ⟨line, rest', ⟨hlines, htyped', hholds⟩, rfl, held, hphase, ?_⟩
    show s.down ++ held ++ (s.up ++ []) = []
    rw [List.append_nil, hnone]
  | @write len n hpc =>
    rw [hpc] at h
    obtain ⟨line, rest, hline, rfl, held, hphase, hnone⟩ := h
    have hpl := hline.plain hplain
    have hstring := hline.holds.stringAt_eq hpl.noNul
    have hpc' : (s.onClient (.write (.count n)) s.client.afterWrite).client.pc = .awaiting := by
      refine if_neg ?_
      rw [hstring]
      exact hpl.ne_quit
    obtain ⟨-, hle⟩ : 0 < n ∧ n ≤ s.client.pc.asked := hok
    rw [hpc, ClientPc.asked] at hle
    rw [InStep, hpc']
    refine ⟨line, rest, line.take n, ⟨hline.lines_eq, hline.typed, hline.holds⟩,
      List.take_prefix n line, held, hphase, ?_⟩
    show s.down ++ held ++ (s.up ++ s.client.buff.slice 0 n) = line.take n
    rw [hline.holds.slice hle, List.drop_zero, Nat.sub_zero, ← List.append_assoc, hnone,
      List.nil_append]
  | read bs hpc =>
    rw [hpc] at h
    obtain ⟨line, rest, w, hline, hw, hflight⟩ := h
    have hpl := hline.plain hplain
    have hstring := hline.holds.stringAt_eq hpl.noNul
    have hwhole : bs.length = line.length := by
      have hlen : bs.length = (stringAt s.client.buff).length := hmet
      rw [hlen, hstring]
    -- the echo is all of the line, so nothing else is in flight
    obtain rfl := ((hflight.echo_isPrefix hok).trans hw).eq_of_length hwhole
    obtain ⟨held, hphase, hflight⟩ := hflight
    obtain ⟨⟨more, hmore⟩, -⟩ := hok
    have hnone : more = [] ∧ held = [] ∧ s.up = [] := by
      have hle := hw.length_le
      rw [← hflight, ← hmore] at hle
      simp only [List.length_append] at hle
      refine ⟨?_, ?_, ?_⟩ <;> refine List.eq_nil_of_length_eq_zero ?_ <;> omega
    obtain ⟨rfl, rfl, hup⟩ := hnone
    have hprint : stringAt (terminate s.client.response bs) = bs :=
      (holds_terminate (Nat.lt_of_succ_lt hpl.lt_size)).stringAt_eq hpl.noNul
    refine ⟨rest, ?_, hline.typed, [], hphase, ?_⟩
    · show lines = s.client.printed ++ [stringAt (terminate s.client.response bs)] ++ rest
      rw [hprint, hline.lines_eq, List.append_assoc, List.singleton_append]
    · show s.down.drop bs.length ++ [] ++ (s.up ++ []) = []
      rw [← hmore, hup, List.drop_left' rfl]
      rfl
  | leave hread hwrite => exact hfirst

/-! ## A short echo -/

theorem printed_prefix_of_moves (hm : Sys.Moves server s e s') :
    s.client.printed <+: s'.client.printed := by
  cases hm with
  | server hm => exact List.prefix_refl _
  | client hm =>
    cases hm with
    | read bs hpc => exact List.prefix_append _ _
    | _ => exact List.prefix_refl _

/-- A `read` that does not return a whole echo prints something else than the line. -/
theorem not_printed_prefix_of_not_wholeEcho (hplain : ∀ line ∈ lines, Plain line)
    (h : InStep lines s) (hok : network s e) (hmiss : ¬wholeEcho s e)
    (hm : Sys.Moves server s e s') : ¬s'.client.printed <+: lines := by
  cases hm with
  | server hm => exact absurd trivial hmiss
  | client hm =>
    cases hm with
    | @read bs hpc =>
      rw [InStep, hpc] at h
      obtain ⟨line, rest, w, hline, hw, hflight⟩ := h
      have hpl := hline.plain hplain
      have hbs : bs <+: line := (hflight.echo_isPrefix hok).trans hw
      have hnul : 0 ∉ bs := fun hmem => hpl.noNul (hbs.subset hmem)
      have hlt : bs.length < BUFF_SIZE :=
        hbs.length_le.trans_lt (Nat.lt_of_succ_lt hpl.lt_size)
      have hholds : Holds (terminate s.client.response bs) bs := holds_terminate hlt
      have hprint := hholds.stringAt_eq hnul
      have hshort : bs ≠ line := by
        rintro rfl
        have hlen : ¬bs.length = (stringAt s.client.buff).length := hmiss
        rw [hline.holds.stringAt_eq hnul] at hlen
        exact hlen rfl
      show ¬s.client.printed ++ [stringAt (terminate s.client.response bs)] <+: lines
      rw [hprint, hline.lines_eq, List.prefix_append_right_inj, List.cons_prefix_cons]
      exact fun hsame => hshort hsame.1
    | leave hread hwrite =>
      rename_i a
      refine absurd ?_ hmiss
      cases a with
      | read r =>
        cases r with
        | bytes bs => exact absurd rfl (hread bs)
        | _ => trivial
      | _ => trivial
    | _ => exact absurd trivial hmiss

/-- **When the client and a server stay in step.**  The texts that the client prints are
the lines typed, one by one, exactly if every `read` of the client that returns bytes
returns as many as the line has that it has sent.  The lines are of any number and
contents, the streams are cut in any way in both directions, and the statement is about
every state on the way. -/
theorem echoes_in_step_iff (server : Server) (msg buff response : Buffer)
    (htyped : Typed input lines) (hplain : ∀ line ∈ lines, Plain line) {es : List Event}
    (h : Trace (Sys.step server) network (Sys.init msg buff response input) es s) :
    s.client.printed <+: lines ↔
      Trace (Sys.step server) (fun s e => network s e ∧ wholeEcho s e)
        (Sys.init msg buff response input) es s := by
  have hstart : InStep lines (Sys.init msg buff response input) := inStep_init htyped
  have hkeep : ∀ s e t, InStep lines s → network s e → wholeEcho s e → s.step server e = some t →
      InStep lines t := by
    intro s e t hs hok hmet hstep
    cases sysMoves_of_step hok hstep with
    | server hm => exact hs.onServer hok hm
    | client hm => exact hs.onClient hplain hok hmet hm
  have hmiss : ∀ s e t, InStep lines s → network s e → ¬wholeEcho s e → s.step server e = some t →
      ¬t.client.printed <+: lines :=
    fun s e t hs hok hmiss hstep =>
      not_printed_prefix_of_not_wholeEcho hplain hs hok hmiss (sysMoves_of_step hok hstep)
  have hlater : ∀ s e t, ¬s.client.printed <+: lines → network s e → s.step server e = some t →
      ¬t.client.printed <+: lines :=
    fun s e t hs hok hstep hpre =>
      hs ((printed_prefix_of_moves (sysMoves_of_step hok hstep)).trans hpre)
  constructor
  · intro hprinted
    rcases h.met_or_doomed hkeep hmiss hlater hstart with ⟨-, hmet⟩ | hdoomed
    · exact hmet
    · exact absurd hprinted hdoomed
  · intro hmet
    exact (hmet.invariant (fun s e t hs hok hstep => hkeep s e t hs hok.1 hok.2 hstep)
      hstart).printed_isPrefix

/-- `"ab"` and `"c"` are typed. -/
def twoLines : List (List UInt8) := [[97, 98], [99]]

/-- What is typed, the last newline missing. -/
def twoLinesTyped : List UInt8 := [97, 98, 10, 99]

theorem typed_twoLines : Typed twoLinesTyped twoLines :=
  Typed.cons [97, 98] (Typed.last [99])

theorem plain_twoLines : ∀ line ∈ twoLines, Plain line := by
  intro line hmem
  rcases List.mem_cons.mp hmem with rfl | hmem
  · exact ⟨by decide, by decide, by decide, by decide, by decide⟩
  · obtain rfl := List.mem_singleton.mp hmem
    exact ⟨by decide, by decide, by decide, by decide, by decide⟩

/-- The first line is cut on its way to the server, and read whole by the client. -/
def patientRead : List Event :=
  [.client .gets, .client (.write (.count 2)), .server (.read (.bytes [97])), .server .go,
    .server (.write (.count 1)), .server .go, .server (.read (.bytes [98])), .server .go,
    .server (.write (.count 1)), .client (.read (.bytes [97, 98])), .client .gets]

/-- The line is printed. -/
theorem echoes_in_step_patientRead :
    ∃ s, Trace (Sys.step .tcp) network (Sys.init zeros zeros zeros twoLinesTyped) patientRead s ∧
      s.client.printed = [[97, 98]] ∧
      Trace (Sys.step .tcp) (fun s e => network s e ∧ wholeEcho s e)
        (Sys.init zeros zeros zeros twoLinesTyped) patientRead s := by
  obtain ⟨s, h, hp⟩ := Trace.exists_of_eval (Sys.step .tcp) network
    (fun s => s.client.printed = [[97, 98]]) (Sys.init zeros zeros zeros twoLinesTyped)
    patientRead (by decide +kernel)
  have hprinted : s.client.printed = [[97, 98]] := of_decide_eq_true hp
  refine ⟨s, h, hprinted,
    (echoes_in_step_iff .tcp zeros zeros zeros typed_twoLines plain_twoLines h).mp ?_⟩
  rw [hprinted]
  decide

/-- The server sends the echo whole; it comes in two parts, and the client reads the first. -/
def hastyRead : List Event :=
  [.client .gets, .client (.write (.count 2)), .server (.read (.bytes [97, 98])), .server .go,
    .server (.write (.count 2)), .client (.read (.bytes [97])), .client .gets,
    .client (.write (.count 1)), .client (.read (.bytes [98]))]

/-- **For `"ab"` and `"c"` the client prints `"a"` and `"b"`.** -/
theorem echo_shifts_hastyRead :
    Typed twoLinesTyped twoLines ∧ (∀ line ∈ twoLines, Plain line) ∧
      ∃ s, Trace (Sys.step .tcp) network (Sys.init zeros zeros zeros twoLinesTyped) hastyRead s ∧
        s.client.printed = [[97], [98]] ∧ ¬s.client.printed <+: twoLines := by
  obtain ⟨s, h, hp⟩ := Trace.exists_of_eval (Sys.step .tcp) network
    (fun s => s.client.printed = [[97], [98]]) (Sys.init zeros zeros zeros twoLinesTyped)
    hastyRead (by decide +kernel)
  have hprinted : s.client.printed = [[97], [98]] := of_decide_eq_true hp
  refine ⟨typed_twoLines, plain_twoLines, s, h, hprinted, ?_⟩
  rw [hprinted]
  decide

end TcpEcho
end CaosSeminars
