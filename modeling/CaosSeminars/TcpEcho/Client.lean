import CaosSeminars.TcpEcho.Session

/-!
# The client of the TCP echo servers

`tcp/tcp_client.c` takes a line from its input, strips the newline, sends the line
by one call of `write`, and prints what one call of `read` returns.  A line that is
too long for the buffer is taken in pieces, an empty one is skipped, and the quit
command ends the loop after it was sent.

There is one step for each system call and one for each call of `fgets`.  What the
client prints after `Server echo:` is kept as history.

* `fgets`, `stripNewline` --- what the client takes from its input; `Client.takeLine` the
  part of the loop before `write`.
* `nul_notMem_slice_stripped` --- what is sent has no `NUL` in it, whatever was typed.
* `holds_stripped_newline`, `holds_stripped_lastLine` --- of a line that fits all is sent
  but its newline.
-/

namespace CaosSeminars
namespace TcpEcho

/-- `fgets`, where `count` is one less than its `size`: at most `count` bytes, up to and
including the first newline, and the rest of the input; `none` is `NULL`. -/
def fgets : ℕ → List UInt8 → Option (List UInt8 × List UInt8)
  | _, [] => none
  | 0, input => some ([], input)
  | count + 1, b :: input =>
    if b = 10 then some ([b], input)
    else match fgets count input with
      | none => some ([b], [])
      | some (line, rest) => some (b :: line, rest)

/-- Overwrites the newline at the end of the string, whose `strlen` is `len`. -/
def stripNewline (buff : Buffer) (len : ℕ) : Buffer × ℕ :=
  if 0 < len ∧ buff.toList[len - 1]? = some 10 then (buff.store (len - 1) [0], len - 1)
  else (buff, len)

/-- Where the client is. -/
inductive ClientPc where
  /-- The condition of the loop: `fgets` comes next. -/
  | typing
  /-- `write` of `len` bytes comes next. -/
  | sending (len : ℕ)
  /-- `read` comes next. -/
  | awaiting
  /-- The loop was left, and the connection is shut down. -/
  | done
  deriving DecidableEq

/-- The client with its history. -/
structure Client where
  pc : ClientPc
  buff : Buffer
  response : Buffer
  /-- What is left of `stdin`. -/
  stdin : List UInt8
  /-- The texts printed after `Server echo:`. -/
  printed : List (List UInt8)
  deriving DecidableEq

/-- The client before its first `fgets`; the arrays are not initialised. -/
def Client.init (buff response : Buffer) (stdin : List UInt8) : Client :=
  ⟨.typing, buff, response, stdin, []⟩

/-- A call of the client returns. -/
inductive ClientAct where
  | gets
  | write (r : WriteResult)
  | read (r : ReadResult)
  deriving DecidableEq

namespace Client

variable (c : Client)

/-- `buff` and `len` after `fgets` has stored a line and its newline is stripped. -/
def stripped (line : List UInt8) : Buffer × ℕ :=
  stripNewline (terminate c.buff line) (stringAt (terminate c.buff line)).length

/-- The body of the loop up to `write`. -/
def takeLine (line rest : List UInt8) : Client :=
  { c with
    pc := if (c.stripped line).2 = 0 then .typing else .sending (c.stripped line).2
    buff := (c.stripped line).1
    stdin := rest }

/-- What follows a positive result of `write`. -/
def afterWrite : Client :=
  { c with pc := if stringAt c.buff = quitCommand then .done else .awaiting }

/-- What follows a positive result of `read`. -/
def printEcho (bs : List UInt8) : Client :=
  { c with
    pc := .typing
    response := terminate c.response bs
    printed := c.printed ++ [stringAt (terminate c.response bs)] }

/-- One step of the client. -/
def step (a : ClientAct) : Option Client :=
  match c.pc, a with
  | .typing, .gets =>
    match fgets (BUFF_SIZE - 1) c.stdin with
    | none => some { c with pc := .done }
    | some (line, rest) => some (c.takeLine line rest)
  | .sending _, .write r =>
    match r with
    | .count _ => some c.afterWrite
    | _ => some { c with pc := .done }
  | .awaiting, .read r =>
    match r with
    | .bytes bs => some (c.printEcho bs)
    | _ => some { c with pc := .done }
  | _, _ => none

/-- The bytes that `write` accepts in a step. -/
def accepted : ClientAct → List UInt8
  | .write (.count n) => c.buff.slice 0 n
  | _ => []

end Client

/-- What one step of the client can do. -/
inductive ClientMoves (c : Client) : ClientAct → Client → Prop
  | line {line rest : List UInt8} (hpc : c.pc = .typing)
      (hline : fgets (BUFF_SIZE - 1) c.stdin = some (line, rest)) :
      ClientMoves c .gets (c.takeLine line rest)
  | write {len : ℕ} (n : ℕ) (hpc : c.pc = .sending len) :
      ClientMoves c (.write (.count n)) c.afterWrite
  | read (bs : List UInt8) (hpc : c.pc = .awaiting) :
      ClientMoves c (.read (.bytes bs)) (c.printEcho bs)
  | leave {a : ClientAct} (hread : ∀ bs, a ≠ .read (.bytes bs)) (hwrite : c.accepted a = []) :
      ClientMoves c a { c with pc := .done }

/-- The inversion of `Client.step`: later proofs split on `ClientMoves`. -/
theorem clientMoves_of_step {c c' : Client} {a : ClientAct} (h : c.step a = some c') :
    ClientMoves c a c' := by
  simp only [Client.step] at h
  split at h
  · rename_i hpc
    split at h
    · obtain rfl := Option.some.inj h
      exact ClientMoves.leave (by simp) rfl
    · obtain rfl := Option.some.inj h
      exact ClientMoves.line hpc ‹_›
  · rename_i len r hpc
    cases r with
    | count n =>
      obtain rfl := Option.some.inj h
      exact ClientMoves.write n hpc
    | _ =>
      obtain rfl := Option.some.inj h
      exact ClientMoves.leave (by simp) rfl
  · rename_i r hpc
    cases r with
    | bytes bs =>
      obtain rfl := Option.some.inj h
      exact ClientMoves.read bs hpc
    | _ =>
      obtain rfl := Option.some.inj h
      exact ClientMoves.leave (by simp) rfl
  · cases h

/-! ## Lines -/

variable {count len : ℕ} {line rest input : List UInt8} {buff : Buffer} {c : Client}

/-- **`fgets` on a line that fits.** -/
theorem fgets_line (hline : 10 ∉ line) (hlen : line.length < count) :
    fgets count (line ++ 10 :: rest) = some (line ++ [10], rest) := by
  induction line generalizing count with
  | nil =>
    obtain ⟨count, rfl⟩ := Nat.exists_eq_add_of_lt hlen
    simp [fgets]
  | cons b line ih =>
    obtain ⟨count, rfl⟩ : ∃ k, count = k + 1 := ⟨count - 1, by omega⟩
    rw [List.mem_cons, not_or] at hline
    rw [List.length_cons, Nat.add_lt_add_iff_right] at hlen
    rw [List.cons_append, fgets, if_neg (Ne.symm hline.1), ih hline.2 hlen]
    rfl

theorem fgets_lastLine (hline : 10 ∉ line) (hne : line ≠ []) (hlen : line.length < count) :
    fgets count line = some (line, []) := by
  induction line generalizing count with
  | nil => exact absurd rfl hne
  | cons b line ih =>
    obtain ⟨count, rfl⟩ : ∃ k, count = k + 1 := ⟨count - 1, by omega⟩
    rw [List.mem_cons, not_or] at hline
    rw [List.length_cons, Nat.add_lt_add_iff_right] at hlen
    rw [fgets, if_neg (Ne.symm hline.1)]
    by_cases hnil : line = []
    · subst hnil
      cases count <;> rfl
    · rw [ih hline.2 hnil hlen]

/-! ## What is sent -/

/-- **What is sent has no `NUL`**, whatever was typed: its length is a `strlen`, or one less. -/
theorem nul_notMem_slice_stripped :
    0 ∉ (c.stripped line).1.slice 0 (c.stripped line).2 := by
  have hlen : (stringAt (terminate c.buff line)).length ≤ BUFF_SIZE := length_stringAt_le
  rw [Client.stripped, stripNewline]
  split
  · rename_i hnewline
    rw [CArray.slice_store_of_le _ (le_refl _) (by rw [List.length_singleton]; omega)]
    exact nul_notMem_slice (Nat.sub_le _ 1)
  · exact nul_notMem_slice (le_refl _)

theorem holds_stripped_newline (hnul : 0 ∉ line) (hlen : line.length + 1 < BUFF_SIZE) :
    Holds (c.stripped (line ++ [10])).1 line ∧ (c.stripped (line ++ [10])).2 = line.length := by
  have hlt : (line ++ [10]).length < BUFF_SIZE := by
    rw [List.length_append]
    exact hlen
  have hholds : Holds (terminate c.buff (line ++ [10])) (line ++ [10]) := holds_terminate hlt
  have hstring := hholds.stringAt_eq (by simpa using hnul)
  obtain ⟨rest, hrest⟩ := hholds
  have hlast : (terminate c.buff (line ++ [10])).toList[line.length]? = some 10 := by
    rw [hrest, List.append_assoc, List.getElem?_append_right (le_refl _), Nat.sub_self]
    rfl
  have hcount : (line ++ [(10 : UInt8)]).length = line.length + 1 := by
    rw [List.length_append, List.length_singleton]
  rw [Client.stripped, hstring, hcount, stripNewline,
    if_pos ⟨Nat.succ_pos _, by rw [Nat.add_sub_cancel]; exact hlast⟩, Nat.add_sub_cancel]
  refine ⟨⟨0 :: rest, ?_⟩, rfl⟩
  have hfit : line.length + [(0 : UInt8)].length ≤ BUFF_SIZE := Nat.le_of_lt hlen
  rw [CArray.toList_store _ hfit, hrest, List.append_assoc, List.append_assoc, List.take_left' rfl,
    ← List.drop_drop, List.drop_left' rfl]
  rfl

theorem holds_stripped_lastLine (hnul : 0 ∉ line) (hline : 10 ∉ line)
    (hlen : line.length < BUFF_SIZE) :
    Holds (c.stripped line).1 line ∧ (c.stripped line).2 = line.length := by
  have hholds : Holds (terminate c.buff line) line := holds_terminate hlen
  have hstring := hholds.stringAt_eq hnul
  have hnot : ¬(0 < line.length ∧ (terminate c.buff line).toList[line.length - 1]? = some 10) := by
    rintro ⟨hpos, hlast⟩
    obtain ⟨rest, hrest⟩ := hholds
    rw [hrest, List.getElem?_append_left (by omega)] at hlast
    exact hline (List.mem_of_getElem? hlast)
  rw [Client.stripped, hstring, stripNewline, if_neg hnot]
  exact ⟨hholds, rfl⟩

end TcpEcho
end CaosSeminars
