import CaosSeminars.Library.CArray
import CaosSeminars.Library.Words
import CaosSeminars.Processes.SimpleShell

/-!
# The words of a command

`simple_shell.c` splits a line with `strtok`, which puts a zero behind each word it finds
and keeps a pointer to what comes after it.  The pointers to the words go to `args`, an
array of `MAX_ARGS` entries that were set to `NULL`; nothing counts them against its size.

The line is in the buffer of `getline`, with a zero behind it and what earlier lines have
left behind that.  Pointers are offsets into the buffer.  The stores are kept as history.
A store behind the end of `args` has no effect here.

* `strtok_none`, `strtok_some`, `exists_finds` --- one call of `strtok`: the first word
  behind the saved pointer, if there is one.
* `exists_found` --- what the loop finds, by induction on the text; it ends, since every
  call takes something off the line.
* `take_words` --- the entries of `args` up to the first `NULL`, when there is one.
* `tokenise_parsed_iff` --- for every line and all contents of the buffer behind it:
  `execvp` is given the words **iff** there are fewer of them than `args` has entries, and
  no zero in the line.
-/

namespace CaosSeminars
namespace Processes

/-- `" \n"`. -/
def isDelim (b : UInt8) : Bool := b = 32 || b = 10

/-- A byte that `strcspn` passes over. -/
def inWord (b : UInt8) : Bool := b != 0 && !isDelim b

/-- `strtok`, from `s` on: the word, the buffer, and the pointer that is kept. -/
def strtok (buff : List UInt8) (s : ℕ) : Option ℕ × List UInt8 × ℕ :=
  -- `strspn`
  let s := s + ((buff.drop s).takeWhile isDelim).length
  if buff.getD s 0 = 0 then (none, buff, s)
  else
    -- `strcspn`
    let e := s + ((buff.drop s).takeWhile inWord).length
    if buff.getD e 0 = 0 then (some s, buff, e) else (some s, buff.set e 0, e + 1)

/-- The variables of the loop; `none` is `NULL`. -/
structure Tokens where
  buff : List UInt8
  /-- The pointer that `strtok` keeps. -/
  saved : ℕ
  pos : Option ℕ
  args : CArray (Option ℕ) MAX_ARGS
  argc : ℕ
  stores : List Span
  deriving DecidableEq

/-- `pos = strtok(…)`. -/
def Tokens.next (t : Tokens) : Tokens :=
  let r := strtok t.buff t.saved
  { t with pos := r.1, buff := r.2.1, saved := r.2.2 }

/-- `args[argc] = pos; ++argc;`. -/
def Tokens.push (t : Tokens) (p : ℕ) : Tokens :=
  { t with
    args := t.args.store t.argc [some p]
    argc := t.argc + 1
    stores := t.stores ++ [⟨t.argc, 1⟩] }

/-- `while (pos != NULL)`; `none` is a loop that has not come to its end after so many
turns. -/
def tokenLoop : ℕ → Tokens → Option Tokens
  | 0, _ => none
  | fuel + 1, t =>
    match t.pos with
    | none => some t
    | some p => tokenLoop fuel (t.push p).next

/-- The splitting of a line, with `junk` behind it in the buffer. -/
def tokenise (fuel : ℕ) (line junk : List UInt8) : Option Tokens :=
  tokenLoop fuel (Tokens.next ⟨line ++ 0 :: junk, 0, none, .replicate MAX_ARGS none, 0, []⟩)

/-- `args` holds the words of the line and then `NULL`, `argc` is their number, and every store
was inside. -/
def Parsed (line : List UInt8) (t : Tokens) : Prop :=
  (t.args.toList.map (Option.map (cString t.buff))).take (t.argc + 1) =
      (runs isDelim line).map some ++ [none] ∧
    t.argc = (runs isDelim line).length ∧ ∀ span ∈ t.stores, span.Inside MAX_ARGS

instance (line : List UInt8) (t : Tokens) : Decidable (Parsed line t) :=
  inferInstanceAs (Decidable (_ ∧ _ ∧ ∀ span ∈ t.stores,
    0 ≤ span.off ∧ 0 ≤ span.count ∧ span.off + span.count ≤ MAX_ARGS))

/-! ## What `strtok` does -/

variable {buff gap word text more junk : List UInt8} {s : ℕ} {b : UInt8}

theorem drop_add_length (h : buff.drop s = gap ++ more) : buff.drop (s + gap.length) = more := by
  rw [← List.drop_drop, h, List.drop_left]

theorem getD_of_drop (h : buff.drop s = b :: more) : buff.getD s 0 = b := by
  have hget : buff[s]? = some b := by
    rw [← List.head?_drop, h]
    rfl
  rw [List.getD_eq_getElem?_getD, hget]
  rfl

theorem strtok_none (h : buff.drop s = gap ++ 0 :: junk) (hgap : ∀ b ∈ gap, isDelim b = true) :
    strtok buff s = (none, buff, s + gap.length) := by
  have hspan : (gap ++ 0 :: junk).takeWhile isDelim = gap := by
    rw [List.takeWhile_append_of_pos hgap, List.takeWhile_cons_of_neg (by decide), List.append_nil]
  rw [strtok, h, hspan]
  simp only [getD_of_drop (drop_add_length h), if_true]

theorem strtok_some (h : buff.drop s = gap ++ (word ++ b :: more))
    (hgap : ∀ b ∈ gap, isDelim b = true) (hne : word ≠ [])
    (hword : ∀ b ∈ word, isDelim b = false) (hzero : 0 ∉ word) (hb : b = 0 ∨ isDelim b = true) :
    strtok buff s =
      if b = 0 then (some (s + gap.length), buff, s + gap.length + word.length)
      else (some (s + gap.length), buff.set (s + gap.length + word.length) 0,
        s + gap.length + word.length + 1) := by
  obtain ⟨a, tail, hcons⟩ := List.exists_cons_of_ne_nil hne
  have ha : a ∈ word := hcons ▸ List.mem_cons_self
  have hspan : (gap ++ (word ++ b :: more)).takeWhile isDelim = gap := by
    rw [List.takeWhile_append_of_pos hgap, hcons, List.cons_append,
      List.takeWhile_cons_of_neg (by rw [hword a ha]; decide), List.append_nil]
  have hcspan : (word ++ b :: more).takeWhile inWord = word := by
    have hin : ∀ c ∈ word, inWord c = true := fun c hc => by
      have hc0 : c ≠ 0 := fun h0 => hzero (h0 ▸ hc)
      simp [inWord, hword c hc, hc0]
    have hout : ¬inWord b = true := by
      rcases hb with rfl | hb
      · decide
      · simp [inWord, hb]
    rw [List.takeWhile_append_of_pos hin, List.takeWhile_cons_of_neg hout, List.append_nil]
  have hstart := drop_add_length h
  have hfirst : buff.getD (s + gap.length) 0 = a := by
    rw [hcons] at hstart
    exact getD_of_drop hstart
  have hend : buff.getD (s + gap.length + word.length) 0 = b :=
    getD_of_drop (drop_add_length hstart)
  rw [strtok, h, hspan]
  simp only [hstart, hcspan, hfirst, hend]
  rw [if_neg fun hzero' : a = 0 => hzero (hzero' ▸ ha)]

/-! ## The loop -/

/-- A call in front of `text` that finds a word at `p`, the text behind it being `text'`. -/
structure Finds (t : Tokens) (text : List UInt8) (p : ℕ) (word text' : List UInt8) : Prop where
  pos : t.next.pos = some p
  runs : runs isDelim text = word :: runs isDelim text'
  shorter : text'.length < text.length
  nonzero : 0 ∉ text'
  string : HoldsString t.next.buff p word
  fits : p + word.length ≤ t.next.saved
  order : t.saved ≤ t.next.saved
  buff : t.next.buff.take (t.saved + 1) = t.buff.take (t.saved + 1)
  behind : ∃ junk, t.next.buff.drop t.next.saved = text' ++ 0 :: junk

theorem exists_finds {t : Tokens} {rest : List UInt8} (hgap : ∀ b ∈ gap, isDelim b = true)
    (hne : word ≠ []) (hword : ∀ b ∈ word, isDelim b = false)
    (hrest : rest = [] ∨ ∃ d more, rest = d :: more ∧ isDelim d = true)
    (hzero : 0 ∉ gap ++ (word ++ rest))
    (h : t.buff.drop t.saved = gap ++ (word ++ rest) ++ 0 :: junk) :
    ∃ text', Finds t (gap ++ (word ++ rest)) (t.saved + gap.length) word text' := by
  rw [List.append_assoc, List.append_assoc] at h
  rw [List.mem_append, List.mem_append, not_or, not_or] at hzero
  have hlen := List.length_pos_iff.mpr hne
  have hstart := drop_add_length h
  rcases hrest with rfl | ⟨d, more, rfl, hd⟩
  · have hnext : t.next = { t with
        pos := some (t.saved + gap.length), saved := t.saved + gap.length + word.length } := by
      rw [Tokens.next, strtok_some h hgap hne hword hzero.2.1 (Or.inl rfl), if_pos rfl]
    refine ⟨[], ?_⟩
    constructor
    · rw [hnext]
    · rw [runs_gap hgap, List.append_nil, runs_word hne hword]
      rfl
    · simp
      omega
    · exact List.not_mem_nil
    · rw [hnext]
      exact ⟨hzero.2.1, junk, by rw [hstart]; simp⟩
    · rw [hnext]
    · rw [hnext]
      dsimp only
      omega
    · rw [hnext]
    · rw [hnext]
      exact ⟨junk, drop_add_length hstart⟩
  · have hd0 : d ≠ 0 := fun h0 => hzero.2.2 (h0 ▸ List.mem_cons_self)
    have hnext : t.next = { t with
        pos := some (t.saved + gap.length),
        buff := t.buff.set (t.saved + gap.length + word.length) 0,
        saved := t.saved + gap.length + word.length + 1 } := by
      rw [Tokens.next, strtok_some h hgap hne hword hzero.2.1 (Or.inr hd), if_neg hd0]
    refine ⟨more, ?_⟩
    constructor
    · rw [hnext]
    · rw [runs_gap hgap, runs_append_cons word hd, runs_word hne hword]
      rfl
    · simp
      omega
    · exact fun h0 => hzero.2.2 (List.mem_cons_of_mem _ h0)
    · rw [hnext]
      refine ⟨hzero.2.1, more ++ 0 :: junk, ?_⟩
      dsimp only
      rw [List.drop_set, if_neg (by omega), hstart]
      simp
    · rw [hnext]
      exact Nat.le_succ _
    · rw [hnext]
      dsimp only
      omega
    · rw [hnext]
      exact List.take_set_of_le (by omega)
    · rw [hnext]
      refine ⟨junk, ?_⟩
      dsimp only
      rw [List.drop_set, if_pos (by omega)]
      have hrest : t.buff.drop (t.saved + gap.length + word.length) = [d] ++ (more ++ 0 :: junk) :=
        drop_add_length hstart
      exact drop_add_length hrest

/-- What the loop has done from `t` on, the words being those of `text`. -/
structure Found (text : List UInt8) (t : Tokens) (ps : List ℕ) (t' : Tokens) : Prop where
  strings : List.Forall₂ (HoldsString t'.buff) ps (runs isDelim text)
  buff : t'.buff.take (t.saved + 1) = t.buff.take (t.saved + 1)
  argc : t'.argc = t.argc + ps.length
  stores : t'.stores = t.stores ++ (List.range' t.argc ps.length).map fun i => ⟨i, 1⟩
  args : t.argc + ps.length ≤ MAX_ARGS → t'.args = t.args.store t.argc (ps.map some)

/-- A turn that has found a word, and the turns after it. -/
theorem Found.cons {t t' : Tokens} {p : ℕ} {ps : List ℕ} {text' : List UInt8}
    (hturn : Finds t text p word text') (h : Found text' (t.next.push p) ps t') :
    Found text t (p :: ps) t' where
  strings := by
    rw [hturn.runs]
    exact .cons (hturn.string.of_take_eq (Nat.lt_succ_of_le hturn.fits) h.buff) h.strings
  buff := by
    have hmin : min (t.saved + 1) (t.next.saved + 1) = t.saved + 1 :=
      min_eq_left (Nat.succ_le_succ hturn.order)
    have hsame : t'.buff.take (t.next.saved + 1) = t.next.buff.take (t.next.saved + 1) := h.buff
    rw [← hturn.buff, ← hmin, ← List.take_take, hsame, List.take_take]
  argc := by
    rw [h.argc, List.length_cons]
    show t.argc + 1 + ps.length = _
    omega
  stores := by
    rw [h.stores, List.length_cons, List.range'_succ]
    show t.stores ++ [_] ++ (List.range' (t.argc + 1) ps.length).map _ = _
    rw [List.append_assoc]
    rfl
  args hfit := by
    rw [List.length_cons] at hfit
    rw [h.args (show t.argc + 1 + ps.length ≤ MAX_ARGS by omega)]
    exact t.args.store_store (show t.argc + 1 + (ps.map some).length ≤ MAX_ARGS by simp; omega)

/-- **What the loop finds**, by induction on the text. -/
theorem exists_found (text : List UInt8) {t : Tokens} (hzero : 0 ∉ text)
    (h : t.buff.drop t.saved = text ++ 0 :: junk) :
    ∃ t' ps, (∀ fuel, text.length < fuel → tokenLoop fuel t.next = some t') ∧
      Found text t ps t' := by
  induction hn : text.length using Nat.strong_induction_on generalizing text t junk with
  | _ n ih =>
    subst hn
    rcases cut isDelim text with hgap | ⟨gap, word, rest, rfl, hgap, hne, hword, hrest⟩
    · have hnext : t.next = { t with pos := none, saved := t.saved + text.length } := by
        rw [Tokens.next, strtok_none h hgap]
      refine ⟨t.next, [], fun fuel hfuel => ?_, ?_⟩
      · obtain ⟨fuel, rfl⟩ := Nat.exists_eq_add_one_of_ne_zero (Nat.ne_zero_of_lt hfuel)
        rw [hnext]
        rfl
      · rw [hnext]
        constructor
        · rw [runs_delimiters hgap]
          exact .nil
        · rfl
        · rfl
        · exact (List.append_nil _).symm
        · intro _
          exact (t.args.store_nil t.argc).symm
    · obtain ⟨text', hturn⟩ := exists_finds hgap hne hword hrest hzero h
      obtain ⟨junk', hbehind⟩ := hturn.behind
      obtain ⟨t', ps, hloop, hfound⟩ := ih _ hturn.shorter text' hturn.nonzero
        (t := t.next.push (t.saved + gap.length)) hbehind rfl
      refine ⟨t', _ :: ps, fun fuel hfuel => ?_, Found.cons hturn hfound⟩
      obtain ⟨fuel, rfl⟩ := Nat.exists_eq_add_one_of_ne_zero (Nat.ne_zero_of_lt hfuel)
      rw [tokenLoop, hturn.pos]
      exact hloop fuel (by have := hturn.shorter; omega)

/-! ## The whole line -/

/-- The strings at the offsets found. -/
theorem map_cString {buff : List UInt8} {ps : List ℕ} {strings : List (List UInt8)}
    (h : List.Forall₂ (HoldsString buff) ps strings) : ps.map (cString buff) = strings := by
  induction h with
  | nil => rfl
  | cons hstring _ ih => rw [List.map_cons, hstring.cString_eq, ih]

/-- Only the part of the line in front of its first zero is a string. -/
theorem exists_line_eq (line junk : List UInt8) :
    ∃ junk', line ++ 0 :: junk = line.takeWhile (· ≠ 0) ++ 0 :: junk' := by
  induction line with
  | nil => exact ⟨junk, rfl⟩
  | cons b line ih =>
    by_cases hb : b = 0
    · refine ⟨line ++ 0 :: junk, ?_⟩
      rw [hb, List.takeWhile_cons_of_neg (by simp)]
      rfl
    · obtain ⟨junk', hjunk'⟩ := ih
      refine ⟨junk', ?_⟩
      rw [List.takeWhile_cons_of_pos (by simp [hb]), List.cons_append, hjunk']
      rfl

/-- **What the loop leaves.**  It ends; `argc` is the number of words; the stores are inside
as long as there is an entry for each; and then `args` holds the words, and `NULL` behind
them. -/
theorem exists_tokenise (line junk : List UInt8) :
    ∃ t, (∀ fuel, line.length < fuel → tokenise fuel line junk = some t) ∧
      t.argc = (words line).length ∧
      ((∀ span ∈ t.stores, span.Inside MAX_ARGS) ↔ (words line).length ≤ MAX_ARGS) ∧
      ((words line).length ≤ MAX_ARGS →
        t.args.toList.map (Option.map (cString t.buff)) =
          (words line).map some ++ List.replicate (MAX_ARGS - (words line).length) none) := by
  obtain ⟨junk', hline⟩ := exists_line_eq line junk
  have hzero : 0 ∉ line.takeWhile (· ≠ 0) := fun h0 => by simpa using List.mem_takeWhile_imp h0
  obtain ⟨t, ps, hloop, hfound⟩ := exists_found (line.takeWhile (· ≠ 0)) hzero
    (t := ⟨line ++ 0 :: junk, 0, none, .replicate MAX_ARGS none, 0, []⟩) hline
  have hstrings : ps.map (cString t.buff) = words line := map_cString hfound.strings
  have hlen : ps.length = (words line).length := by rw [← hstrings, List.length_map]
  have hargc : t.argc = (words line).length := by
    rw [hfound.argc, ← hlen]
    exact Nat.zero_add _
  refine ⟨t, fun fuel hfuel => hloop fuel ?_, hargc, ?_, fun hfit => ?_⟩
  · exact (List.takeWhile_prefix _).length_le.trans_lt hfuel
  · rw [hfound.stores, hlen]
    simp only [List.nil_append, List.forall_mem_map, List.mem_range'_1, Nat.zero_add,
      Nat.zero_le, true_and]
    constructor
    · intro h
      by_contra hmore
      obtain ⟨-, -, hend⟩ := h MAX_ARGS (by omega)
      dsimp only at hend
      omega
    · intro h i hi
      refine ⟨?_, ?_, ?_⟩ <;> dsimp only <;> omega
  · have hlength : (ps.map some).length = (words line).length := by rw [List.length_map, hlen]
    have hargs := hfound.args (show 0 + ps.length ≤ MAX_ARGS by omega)
    rw [hargs, CArray.toList_store _ (show 0 + (ps.map some).length ≤ MAX_ARGS by omega),
      List.take_zero, List.nil_append, List.map_append, List.map_map, hlength, ← hstrings,
      List.map_map]
    congr 1
    show ((List.replicate MAX_ARGS none).drop _).map _ = _
    rw [List.drop_replicate, List.map_replicate, Nat.zero_add]
    rfl

/-- The entries up to the first `NULL`, when there is one. -/
theorem take_words {α : Type*} {l : List α} (h : l.length < MAX_ARGS) :
    (l.map some ++ List.replicate (MAX_ARGS - l.length) none).take (l.length + 1) =
      l.map some ++ [none] := by
  obtain ⟨m, hm⟩ := Nat.exists_eq_add_of_lt h
  have hrest : MAX_ARGS - l.length = m + 1 := by omega
  rw [hrest, List.replicate_succ, List.take_append, List.length_map, Nat.add_sub_cancel_left,
    List.take_of_length_le (by simp)]
  rfl

/-- The state in which a line is launched is that of a loop whose stores were inside. -/
theorem afterGetline_eq (line junk : List UInt8) :
    ∃ t, (∀ fuel, line.length < fuel → tokenise fuel line junk = some t) ∧
      (afterGetline line = .tokenised line ↔ ∀ span ∈ t.stores, span.Inside MAX_ARGS) := by
  obtain ⟨t, hloop, -, hstores, -⟩ := exists_tokenise line junk
  refine ⟨t, hloop, ?_⟩
  rw [hstores, afterGetline]
  split <;> simp [*]

/-- **When `execvp` is given the words of the line.**  The loop always ends; and what it leaves
in `args` is right exactly if the line has fewer words than `args` has entries and no zero
byte. -/
theorem tokenise_parsed_iff (line junk : List UInt8) :
    ∃ t, (∀ fuel, line.length < fuel → tokenise fuel line junk = some t) ∧
      (Parsed line t ↔ (runs isDelim line).length < MAX_ARGS ∧ 0 ∉ line) := by
  obtain ⟨t, hloop, hargc, hstores, hargs⟩ := exists_tokenise line junk
  refine ⟨t, hloop, fun ⟨hwords, hcount, hinside⟩ => ?_, fun ⟨hless, hzero⟩ => ?_⟩
  · have hfit := hstores.mp hinside
    have hlength := congrArg List.length hwords
    rw [List.length_take, List.length_map, t.args.length_eq, List.length_append,
      List.length_map, List.length_singleton, ← hcount] at hlength
    refine ⟨by omega, fun hzero => ?_⟩
    -- a zero would be in a word of the line, and is in none that the loop has found
    have hless : (words line).length < MAX_ARGS := by omega
    rw [hargs hfit, hargc, take_words hless] at hwords
    have hsame : words line = runs isDelim line :=
      List.map_injective_iff.mpr (fun _ _ => Option.some.inj) (List.append_cancel_right hwords)
    have hmem : 0 ∈ (words line).flatten := by
      rw [hsame, flatten_runs]
      exact List.mem_filter.mpr ⟨hzero, rfl⟩
    rw [show words line = runs isDelim (line.takeWhile (· ≠ 0)) from rfl, flatten_runs] at hmem
    simpa using List.mem_takeWhile_imp (List.mem_filter.mp hmem).1
  · have hline : words line = runs isDelim line := by
      have hall : line.takeWhile (· ≠ 0) = line :=
        List.takeWhile_eq_self_iff.mpr fun b hb => decide_eq_true fun h0 => hzero (h0 ▸ hb)
      exact congrArg (runs isDelim) hall
    rw [hline] at hargc hargs hstores
    refine ⟨?_, hargc, hstores.mpr hless.le⟩
    rw [hargs hless.le, hargc, take_words hless]

/-- `"0 1 2 3 4 5 6 7 8 9\n"`, a line of ten words. -/
def tenWords : List UInt8 :=
  [48, 32, 49, 32, 50, 32, 51, 32, 52, 32, 53, 32, 54, 32, 55, 32, 56, 32, 57, 10]

/-- Ten words fill `args`: there is no `NULL` behind them. -/
theorem not_parsed_tenWords :
    ∃ t, tokenise 21 tenWords [] = some t ∧ ¬Parsed tenWords t ∧ none ∉ t.args.toList := by
  have h : (tokenise 21 tenWords []).map (fun t =>
      decide (¬Parsed tenWords t ∧ none ∉ t.args.toList)) = some true := by decide +kernel
  obtain ⟨t, ht, hbad⟩ := Option.map_eq_some_iff.mp h
  exact ⟨t, ht, of_decide_eq_true hbad⟩

end Processes
end CaosSeminars
