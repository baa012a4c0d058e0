import Mathlib.Data.List.Basic
import Mathlib.Data.Nat.Digits.Defs

/-!
# Python strings, and paths made of them

A Python string is a sequence of code points, which may be surrogates; those are
what `str.encode('utf-8')` refuses.  `joinPath` is `os.path.join` for two
arguments.

`os.path.join` is not injective: a name that starts with a slash replaces the
path, an empty name adds at most a slash, and a name with a slash in it looks
like two.  For plain names --- not empty, without a slash --- the path is the
names behind a slash each, and gives the names back (`slashJoin_injective`).

* `isSome_encode` --- a string can be encoded **iff** it holds no surrogate.
* `strNat_injective` --- different indices have different names.
* `joinPath_slashJoin` --- joining a plain name behind plain names adds one component, so that the
  induction over a position is an induction over its names.
-/

namespace CaosSeminars
namespace Fuse

/-- A Unicode code point, surrogates included. -/
abbrev CodePoint := Fin 0x110000

/-- `str`. -/
abbrev PyStr := List CodePoint

/-- The string of some characters. -/
def pyStr (cs : List Char) : PyStr := cs.map fun c => Fin.ofNat _ c.toNat

/-- `'/'`. -/
def slash : CodePoint := 0x2F

/-- The code points that no UTF-8 text holds. -/
def surrogate (c : CodePoint) : Prop := 0xD800 ≤ c.val ∧ c.val ≤ 0xDFFF

instance (c : CodePoint) : Decidable (surrogate c) := inferInstanceAs (Decidable (_ ∧ _))

/-! ## UTF-8 -/

/-- One code point in UTF-8; `none` is `UnicodeEncodeError`. -/
def encodeChar (c : CodePoint) : Option (List UInt8) :=
  if surrogate c then none
  else if c.val < 0x80 then some [UInt8.ofNat c]
  else if c.val < 0x800 then some [UInt8.ofNat (0xC0 + c / 64), UInt8.ofNat (0x80 + c % 64)]
  else if c.val < 0x10000 then
    some [UInt8.ofNat (0xE0 + c / 4096), UInt8.ofNat (0x80 + c / 64 % 64),
      UInt8.ofNat (0x80 + c % 64)]
  else
    some [UInt8.ofNat (0xF0 + c / 262144), UInt8.ofNat (0x80 + c / 4096 % 64),
      UInt8.ofNat (0x80 + c / 64 % 64), UInt8.ofNat (0x80 + c % 64)]

/-- `s.encode('utf-8')`. -/
def encode : PyStr → Option (List UInt8)
  | [] => some []
  | c :: cs => (encodeChar c).bind fun bs => (encode cs).map fun rest => bs ++ rest

theorem isSome_encodeChar {c : CodePoint} : (encodeChar c).isSome ↔ ¬surrogate c := by
  unfold encodeChar
  split_ifs <;> simp_all

theorem isSome_encode {s : PyStr} : (encode s).isSome ↔ ∀ c ∈ s, ¬surrogate c := by
  induction s with
  | nil => simp [encode]
  | cons c cs ih =>
    rw [List.forall_mem_cons, ← ih, ← isSome_encodeChar, encode]
    cases encodeChar c <;> simp

/-! ## Decimal numbers -/

/-- A decimal digit. -/
def digit (d : ℕ) : CodePoint := Fin.ofNat _ (0x30 + d)

/-- `str(n)`. -/
def strNat (n : ℕ) : PyStr :=
  if n = 0 then [digit 0] else (Nat.digits 10 n).reverse.map digit

theorem val_digit {d : ℕ} (h : d < 10) : (digit d).val = 0x30 + d :=
  Nat.mod_eq_of_lt (by omega)

/-- The characters of a number are digits. -/
theorem mem_strNat {n : ℕ} {c : CodePoint} (h : c ∈ strNat n) : 0x30 ≤ c.val ∧ c.val < 0x3A := by
  have hdigit : ∀ d, d < 10 → 0x30 ≤ (digit d).val ∧ (digit d).val < 0x3A := by
    intro d hd
    rw [val_digit hd]
    omega
  unfold strNat at h
  split at h
  · obtain rfl := List.mem_singleton.mp h
    exact hdigit 0 (by omega)
  · obtain ⟨d, hd, rfl⟩ := List.mem_map.mp h
    exact hdigit d (Nat.digits_lt_base (by omega) (List.mem_reverse.mp hd))

theorem strNat_ne_nil (n : ℕ) : strNat n ≠ [] := by
  unfold strNat
  split
  · simp
  · rename_i hn
    simpa using Nat.digits_ne_nil_iff_ne_zero.mpr hn

theorem ofDigits_strNat (n : ℕ) :
    Nat.ofDigits 10 ((strNat n).reverse.map fun c => c.val - 0x30) = n := by
  unfold strNat
  split
  · rename_i hn
    simp [hn, val_digit]
  · have hback : (Nat.digits 10 n).map (fun d => (digit d).val - 0x30) = Nat.digits 10 n := by
      conv_rhs => rw [← List.map_id (Nat.digits 10 n)]
      refine List.map_congr_left fun d hd => ?_
      rw [val_digit (Nat.digits_lt_base (by omega) hd)]
      exact Nat.add_sub_cancel_left _ _
    rw [← List.map_reverse, List.reverse_reverse, List.map_map]
    exact (congrArg _ hback).trans (Nat.ofDigits_digits 10 n)

theorem strNat_injective : Function.Injective strNat := fun m n h => by
  rw [← ofDigits_strNat m, h, ofDigits_strNat]

/-! ## Paths -/

/-- `os.path.join(path, name)`. -/
def joinPath (path name : PyStr) : PyStr :=
  if name.head? = some slash then name
  else if path = [] ∨ path.getLast? = some slash then path ++ name
  else path ++ slash :: name

/-- `'/'` followed by the names joined by `'/'`. -/
def slashJoin (names : List PyStr) : PyStr := slash :: List.intercalate [slash] names

/-- A name that is one component: not empty, and without a slash. -/
structure Plain (name : PyStr) : Prop where
  ne_nil : name ≠ []
  noSlash : slash ∉ name

variable {names names' : List PyStr} {name : PyStr}

theorem plain_strNat (n : ℕ) : Plain (strNat n) where
  ne_nil := strNat_ne_nil n
  noSlash := fun h => by
    have hdigit := (mem_strNat h).1
    exact absurd hdigit (by decide)

@[simp] theorem slashJoin_nil : slashJoin [] = [slash] := rfl

theorem Plain.getLast?_append_ne (h : Plain name) (path : PyStr) :
    (path ++ name).getLast? ≠ some slash := by
  rw [List.getLast?_append_of_ne_nil _ h.ne_nil]
  exact fun hlast => h.noSlash (List.mem_of_getLast? hlast)

theorem slashJoin_append (h : names ≠ []) :
    slashJoin (names ++ [name]) = slashJoin names ++ slash :: name := by
  have hinter : List.intercalate [slash] (names ++ [name]) =
      List.intercalate [slash] names ++ slash :: name := by
    induction names with
    | nil => exact absurd rfl h
    | cons n ns ih =>
      rcases eq_or_ne ns [] with rfl | hne
      · simp [List.intercalate_cons_cons]
      · rw [List.cons_append, List.intercalate_cons_of_ne_nil (by simp), ih hne,
          List.intercalate_cons_of_ne_nil hne]
        simp
  rw [slashJoin, hinter]
  rfl

/-- **Joining a plain name behind plain names adds a component.** -/
theorem joinPath_slashJoin (hnames : ∀ n ∈ names, Plain n) (h : Plain name) :
    joinPath (slashJoin names) name = slashJoin (names ++ [name]) := by
  have hhead : name.head? ≠ some slash := fun hhead => h.noSlash (List.mem_of_head? hhead)
  rw [joinPath, if_neg hhead]
  rcases List.eq_nil_or_concat' names with rfl | ⟨ns, n, rfl⟩
  · rw [slashJoin_nil, if_pos (Or.inr List.getLast?_singleton)]
    simp [slashJoin]
  · have hlast : ¬(slashJoin (ns ++ [n]) = [] ∨ (slashJoin (ns ++ [n])).getLast? = some slash) := by
      rw [not_or]
      refine ⟨by simp [slashJoin], ?_⟩
      have hn : Plain n := hnames n (by simp)
      rcases eq_or_ne ns [] with rfl | hne
      · simpa [slashJoin] using hn.getLast?_append_ne [slash]
      · rw [slashJoin_append hne, List.append_cons]
        exact hn.getLast?_append_ne _
    rw [if_neg hlast]
    exact (slashJoin_append (by simp)).symm

theorem slashJoin_ne_root (h : ∀ n ∈ names, Plain n) (hne : names ≠ []) :
    slashJoin names ≠ [slash] := by
  rcases List.eq_nil_or_concat' names with rfl | ⟨ns, n, rfl⟩
  · exact absurd rfl hne
  · have hn : Plain n := h n (by simp)
    rcases eq_or_ne ns [] with rfl | hns
    · simpa [slashJoin] using hn.ne_nil
    · rw [slashJoin_append hns]
      simp [slashJoin]

theorem slashJoin_injective (h : ∀ n ∈ names, Plain n) (h' : ∀ n ∈ names', Plain n)
    (heq : slashJoin names = slashJoin names') : names = names' := by
  rcases eq_or_ne names [] with rfl | hne
  · by_contra hne'
    exact slashJoin_ne_root h' (Ne.symm hne') heq.symm
  · rcases eq_or_ne names' [] with rfl | hne'
    · exact absurd heq (slashJoin_ne_root h hne)
    · have hinter := List.tail_eq_of_cons_eq heq
      rw [← List.splitOn_intercalate slash (fun l hl => (h l hl).noSlash) hne, hinter,
        List.splitOn_intercalate slash (fun l hl => (h' l hl).noSlash) hne']

/-- The path of an entry of a directory, as a kernel makes it: one more component. -/
def below (path name : PyStr) : PyStr :=
  if path = [slash] then slash :: name else path ++ slash :: name

theorem below_slashJoin (h : ∀ n ∈ names, Plain n) :
    below (slashJoin names) name = slashJoin (names ++ [name]) := by
  rcases eq_or_ne names [] with rfl | hne
  · rw [below, slashJoin_nil, if_pos rfl]
    simp [slashJoin]
  · rw [below, if_neg (slashJoin_ne_root h hne), slashJoin_append hne]

end Fuse
end CaosSeminars
