import Mathlib.Data.List.Basic
import Mathlib.Algebra.Group.Int.Defs
import Mathlib.Algebra.Group.Nat.Defs

/-!
# Text

Text is a list of characters; names that come from a file system are bytes.
-/

namespace Fsys.Base

abbrev Str := List Char

/-- A decimal number without leading zeros. -/
def decimal (n : ℕ) : Str := Nat.toDigits 10 n

/-- A name as the operating system has it. -/
abbrev OsString := ByteArray

/-- The text of a name, when its bytes are UTF-8. -/
def toStr (b : OsString) : Option Str := (String.fromUTF8? b).map String.toList

def osString (s : Str) : OsString := (String.ofList s).toByteArray

@[simp] theorem toStr_osString (s : Str) : toStr (osString s) = some s := by
  have hvalid : String.fromUTF8? (String.ofList s).toByteArray = some (String.ofList s) := by
    unfold String.fromUTF8?
    rw [dif_pos (String.ofList s).isValidUTF8]
    rfl
  rw [toStr, osString, hvalid]
  simp

/-! ### White space -/

/-- The Unicode property `White_Space`, as `char::is_whitespace` has it. -/
def isWhitespace (c : Char) : Bool :=
  let n := c.toNat
  (9 ≤ n && n ≤ 13) || n == 0x20 || n == 0x85 || n == 0xA0 || n == 0x1680 ||
    (0x2000 ≤ n && n ≤ 0x200A) || n == 0x2028 || n == 0x2029 || n == 0x202F || n == 0x205F ||
    n == 0x3000

def trimStart (s : Str) : Str := s.dropWhile isWhitespace

def trimEnd (s : Str) : Str := (s.reverse.dropWhile isWhitespace).reverse

def trim (s : Str) : Str := trimEnd (trimStart s)

/-- `str::strip_prefix` for a character. -/
def stripPrefix (c : Char) : Str → Option Str
  | [] => none
  | x :: s => if x = c then some s else none

/-- `str::strip_prefix` for a text. -/
def stripPrefixText (p s : Str) : Option Str := if p <+: s then some (s.drop p.length) else none

/-- `str::strip_suffix` for a character. -/
def stripSuffix (c : Char) (s : Str) : Option Str :=
  (stripPrefix c s.reverse).map List.reverse

/-! ### Lines -/

/-- One more character in front of the first line. -/
def pushFront (c : Char) : List Str → List Str
  | [] => [[c]]
  | line :: rest => (c :: line) :: rest

/-- `str::lines`: what stands between line feeds, without a carriage return before one. -/
def lines : Str → List Str
  | [] => []
  | '\n' :: s => [] :: lines s
  | '\r' :: '\n' :: s => [] :: lines s
  | c :: s => pushFront c (lines s)

/-! ### Numbers -/

/-- `char::to_digit`. -/
def toDigit (radix : ℕ) (c : Char) : Option ℕ :=
  let n := c.toNat
  let d :=
    if 48 ≤ n ∧ n ≤ 57 then some (n - 48)
    else if 97 ≤ n ∧ n ≤ 122 then some (n - 87)
    else if 65 ≤ n ∧ n ≤ 90 then some (n - 55)
    else none
  d.filter (· < radix)

/-- The value of a row of digits. -/
def digitsValue (radix : ℕ) : ℕ → Str → Option ℕ
  | acc, [] => some acc
  | acc, c :: s => (toDigit radix c).bind fun d => digitsValue radix (acc * radix + d) s

/-- `from_str_radix` of an unsigned type with the values below `bound`: a sign `+` is taken. -/
def parseUnsigned (radix bound : ℕ) (s : Str) : Option ℕ :=
  let digits := if s.head? = some '+' then s.tail else s
  if digits.isEmpty then none else (digitsValue radix 0 digits).filter (· < bound)

/-! ### Splitting -/

/-- `str::split_once`: the text before and behind the first `c`. -/
def splitOnce (c : Char) : Str → Option (Str × Str)
  | [] => none
  | x :: xs => if x = c then some ([], xs) else (splitOnce c xs).map fun p => (x :: p.1, p.2)

theorem splitOnce_of_not_mem {c : Char} {a : Str} (h : c ∉ a) (s : Str) :
    splitOnce c (a ++ s) = (splitOnce c s).map fun p => (a ++ p.1, p.2) := by
  induction a with
  | nil => simp
  | cons x a ih =>
    have hx := List.ne_of_not_mem_cons h
    have ha := List.not_mem_of_not_mem_cons h
    simp [splitOnce, ih ha, Ne.symm hx, Function.comp_def]

theorem splitOnce_append {c : Char} {a : Str} (h : c ∉ a) (b : Str) :
    splitOnce c (a ++ c :: b) = some (a, b) := by
  simp [splitOnce_of_not_mem h, splitOnce]

theorem splitOnce_some {c : Char} {s a b : Str} (h : splitOnce c s = some (a, b)) :
    s = a ++ c :: b ∧ c ∉ a := by
  induction s generalizing a with
  | nil => cases h
  | cons x s ih =>
    unfold splitOnce at h
    split at h
    · rename_i hx
      cases h
      simp [hx]
    · rename_i hx
      obtain ⟨p, hp, hab⟩ := Option.map_eq_some_iff.mp h
      cases hab
      obtain ⟨hs, ha⟩ := ih hp
      refine ⟨?_, List.not_mem_cons_of_ne_of_not_mem (Ne.symm hx) ha⟩
      rw [hs, List.cons_append]

/-- The pieces between two separators are made of the characters of the text, in order. -/
theorem sublist_of_mem_splitOn {c : Char} {s piece : Str} (h : piece ∈ s.splitOn c) :
    piece.Sublist s := by
  induction s generalizing piece with
  | nil => simp_all
  | cons x s ih =>
    rw [List.splitOn_cons_eq_if_modifyHead] at h
    split at h
    · cases List.mem_cons.mp h with
      | inl heq => simp [heq]
      | inr hmem => exact (ih hmem).cons x
    · cases hsplit : s.splitOn c with
      | nil => exact absurd hsplit (List.splitOn_ne_nil c s)
      | cons first rest =>
        rw [hsplit, List.modifyHead_cons] at h
        cases List.mem_cons.mp h with
        | inl heq =>
          rw [heq]
          exact (ih (by simp [hsplit])).cons_cons x
        | inr hmem => exact (ih (by simp [hsplit, hmem])).cons x

end Fsys.Base
