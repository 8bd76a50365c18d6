import Mathlib.Data.List.TakeWhile
import Fsys.Base.Text

/-!
# What trimming and splitting leave

Blank ends, enclosing characters, lines and decimal numbers: what the operations on text do to
a text of a known shape, and what shape their results have.
-/

namespace Fsys.Base

/-! ### White space -/

/-- White space as `char::is_whitespace` has it: more than spaces and tabs. -/
def Blank (s : Str) : Prop := ∀ c ∈ s, isWhitespace c = true

@[simp] theorem blank_nil : Blank [] := by simp [Blank]

theorem Blank.append {a b : Str} (ha : Blank a) (hb : Blank b) : Blank (a ++ b) := by
  intro c hc
  cases List.mem_append.mp hc with
  | inl h => exact ha c h
  | inr h => exact hb c h

theorem Blank.reverse {a : Str} (ha : Blank a) : Blank a.reverse := by
  intro c hc
  exact ha c (List.mem_reverse.mp hc)

/-- A text without white space at its ends. -/
structure Tight (s : Str) : Prop where
  nonempty : s ≠ []
  first : ∀ c, s.head? = some c → isWhitespace c = false
  last : ∀ c, s.getLast? = some c → isWhitespace c = false

theorem dropWhile_of_head {s : Str} (h : ∀ c, s.head? = some c → isWhitespace c = false) :
    s.dropWhile isWhitespace = s := by
  cases s with
  | nil => rfl
  | cons c s => simp [h c rfl]

theorem Tight.join {s t : Str} (hs : Tight s) (m : Str) (ht : Tight t) : Tight (s ++ m ++ t) where
  nonempty := by simp [hs.nonempty]
  first := by
    intro c hc
    rw [List.append_assoc, List.head?_append_of_ne_nil s hs.nonempty] at hc
    exact hs.first c hc
  last := by
    intro c hc
    rw [List.getLast?_append_of_ne_nil _ ht.nonempty] at hc
    exact ht.last c hc

theorem tight_enclosed {c d : Char} (hc : isWhitespace c = false) (hd : isWhitespace d = false)
    (s : Str) : Tight (c :: s ++ [d]) where
  nonempty := by simp
  first := by
    intro x hx
    have : c = x := by simpa using hx
    rwa [← this]
  last := by
    intro x hx
    rw [List.getLast?_concat] at hx
    cases hx
    exact hd

theorem trimStart_append {a : Str} (ha : Blank a) (s : Str) :
    trimStart (a ++ s) = trimStart s :=
  List.dropWhile_append_of_pos ha

theorem trimStart_cons {c : Char} (h : isWhitespace c = false) (s : Str) :
    trimStart (c :: s) = c :: s := by
  simp [trimStart, h]

theorem trimStart_blank {a : Str} (ha : Blank a) : trimStart a = [] := by
  have h := trimStart_append ha []
  simpa [trimStart] using h

theorem trim_of_tight {a s b : Str} (ha : Blank a) (hs : Tight s) (hb : Blank b) :
    trim (a ++ s ++ b) = s := by
  have hstart : trimStart (a ++ s ++ b) = s ++ b := by
    rw [List.append_assoc, trimStart_append ha]
    apply dropWhile_of_head
    intro c hc
    rw [List.head?_append_of_ne_nil s hs.nonempty] at hc
    exact hs.first c hc
  have hend : (s ++ b).reverse.dropWhile isWhitespace = s.reverse := by
    rw [List.reverse_append, List.dropWhile_append_of_pos hb.reverse]
    apply dropWhile_of_head
    intro c hc
    rw [List.head?_reverse] at hc
    exact hs.last c hc
  rw [trim, hstart, trimEnd, hend, List.reverse_reverse]

theorem trim_of_blank {s : Str} (h : Blank s) : trim s = [] := by
  simp [trim, trimStart_blank h, trimEnd]

theorem blank_takeWhile (s : Str) : Blank (s.takeWhile isWhitespace) := by
  intro c hc
  exact List.mem_takeWhile_imp hc

/-- What is cut off is blank. -/
theorem trim_split (s : Str) : ∃ a b, s = a ++ trim s ++ b ∧ Blank a ∧ Blank b := by
  have hfront : s = s.takeWhile isWhitespace ++ trimStart s :=
    List.takeWhile_append_dropWhile.symm
  have hback : trimStart s = trim s ++ ((trimStart s).reverse.takeWhile isWhitespace).reverse := by
    have h : (trimStart s).reverse.reverse = trimStart s := List.reverse_reverse _
    rw [← List.takeWhile_append_dropWhile (p := isWhitespace) (l := (trimStart s).reverse),
      List.reverse_append] at h
    exact h.symm
  refine ⟨_, _, ?_, blank_takeWhile s, (blank_takeWhile (trimStart s).reverse).reverse⟩
  rw [List.append_assoc, ← hback]
  exact hfront

/-! ### Enclosing characters -/

theorem stripPrefix_eq_some {c : Char} {s t : Str} : stripPrefix c s = some t ↔ s = c :: t := by
  cases s with
  | nil => simp [stripPrefix]
  | cons x s => simp [stripPrefix]

theorem stripSuffix_eq_some {c : Char} {s t : Str} :
    stripSuffix c s = some t ↔ s = t ++ [c] := by
  unfold stripSuffix
  rw [Option.map_eq_some_iff]
  constructor
  · intro h
    obtain ⟨r, hr, ht⟩ := h
    have hs := congrArg List.reverse (stripPrefix_eq_some.mp hr)
    simpa [ht] using hs
  · intro h
    exact ⟨t.reverse, stripPrefix_eq_some.mpr (by simp [h]), by simp⟩

theorem enclosed_eq_some {c d : Char} {s t : Str} :
    (stripPrefix c s).bind (stripSuffix d) = some t ↔ s = c :: t ++ [d] := by
  rw [Option.bind_eq_some_iff]
  constructor
  · intro h
    obtain ⟨u, hu, ht⟩ := h
    rw [stripPrefix_eq_some.mp hu, stripSuffix_eq_some.mp ht]
    rfl
  · intro h
    exact ⟨t ++ [d], stripPrefix_eq_some.mpr h, stripSuffix_eq_some.mpr rfl⟩

/-! ### Lines -/

theorem lines_cons {c : Char} (hn : c ≠ '\n') (hr : c ≠ '\r') (s : Str) :
    lines (c :: s) = pushFront c (lines s) := by
  rw [lines.eq_def]
  simp [hr]

theorem lines_append {line : Str} (hn : '\n' ∉ line) (hr : '\r' ∉ line) (s : Str) :
    lines (line ++ '\n' :: s) = line :: lines s := by
  induction line with
  | nil => simp [lines]
  | cons c line ih =>
    have hc := Ne.symm (List.ne_of_not_mem_cons hn)
    have hc' := Ne.symm (List.ne_of_not_mem_cons hr)
    rw [List.cons_append, lines_cons hc hc',
      ih (List.not_mem_of_not_mem_cons hn) (List.not_mem_of_not_mem_cons hr)]
    rfl

/-- Lines that are each closed by a line feed. -/
def unlines (ls : List Str) : Str := ls.flatMap (· ++ ['\n'])

theorem unlines_append (ls ls' : List Str) : unlines (ls ++ ls') = unlines ls ++ unlines ls' :=
  List.flatMap_append

theorem lines_unlines {ls : List Str} (h : ∀ l ∈ ls, '\n' ∉ l ∧ '\r' ∉ l) :
    lines (unlines ls) = ls := by
  induction ls with
  | nil => rfl
  | cons l ls ih =>
    obtain ⟨hn, hr⟩ := h l (by simp)
    have hls := ih fun l' hl' => h l' (List.mem_cons_of_mem l hl')
    have hcons : unlines (l :: ls) = l ++ '\n' :: unlines ls := by simp [unlines]
    rw [hcons, lines_append hn hr, hls]

/-! ### Decimal numbers -/

theorem isDigit_iff (c : Char) : c.isDigit = true ↔ 48 ≤ c.toNat ∧ c.toNat ≤ 57 := by
  simp [Char.isDigit, UInt32.le_iff_toNat_le]

theorem toDigit_ten (c : Char) :
    toDigit 10 c = if c.isDigit then some (c.toNat - 48) else none := by
  unfold toDigit
  by_cases h : 48 ≤ c.toNat ∧ c.toNat ≤ 57
  · have hlt : c.toNat - 48 < 10 := by omega
    simp [h, (isDigit_iff c).mpr h, Option.filter, hlt]
  · have hdigit : c.isDigit = false := by
      rw [Bool.eq_false_iff]
      exact fun hc => h ((isDigit_iff c).mp hc)
    simp only [h, if_false, hdigit]
    split
    · have hge : ¬c.toNat - 87 < 10 := by omega
      simp [Option.filter, hge]
    · split
      · have hge : ¬c.toNat - 55 < 10 := by omega
        simp [Option.filter, hge]
      · rfl

theorem digitsValue_ten (acc : ℕ) (s : Str) :
    digitsValue 10 acc s = if s.all Char.isDigit then some (Nat.ofDigitChars 10 s acc) else none := by
  induction s generalizing acc with
  | nil => rfl
  | cons c s ih =>
    rw [digitsValue, toDigit_ten]
    cases hc : c.isDigit with
    | false => simp [hc]
    | true =>
      have hvalue : Nat.ofDigitChars 10 (c :: s) acc =
          Nat.ofDigitChars 10 s (acc * 10 + (c.toNat - 48)) := by
        rw [Nat.ofDigitChars_cons, Nat.mul_comm acc 10]
        rfl
      rw [if_pos rfl, Option.bind_some, ih, List.all_cons, hc, Bool.true_and, hvalue]

theorem digitsValue_append (radix acc : ℕ) (s t : Str) :
    digitsValue radix acc (s ++ t) =
      (digitsValue radix acc s).bind fun n => digitsValue radix n t := by
  induction s generalizing acc with
  | nil => rfl
  | cons c s ih =>
    cases hc : toDigit radix c with
    | none => simp [digitsValue, hc]
    | some d => simp [digitsValue, hc, ih]

theorem toDigit_digitChar {radix d : ℕ} (hradix : radix ≤ 16) (hd : d < radix) :
    toDigit radix d.digitChar = some d := by
  have hcode : ∀ d : Fin 16, toDigit 16 d.val.digitChar = some d.val := by decide
  have h16 := hcode ⟨d, by omega⟩
  simp only [toDigit, Option.filter_eq_some_iff] at h16 ⊢
  exact ⟨h16.1, by simpa using hd⟩

/-- A number written in a radix up to 16 reads back. -/
theorem digitsValue_toDigits {radix : ℕ} (hlow : 1 < radix) (hradix : radix ≤ 16) (n : ℕ) :
    digitsValue radix 0 (Nat.toDigits radix n) = some n := by
  induction n using Nat.strong_induction_on with
  | _ n ih =>
    by_cases hlt : n < radix
    · rw [Nat.toDigits_of_lt_base hlt]
      simp [digitsValue, toDigit_digitChar hradix hlt]
    · have hle : radix ≤ n := by omega
      have hmod : n % radix < radix := Nat.mod_lt n (by omega)
      rw [Nat.toDigits_of_base_le hlow hle, digitsValue_append,
        ih (n / radix) (Nat.div_lt_self (by omega) hlow)]
      simp [digitsValue, toDigit_digitChar hradix hmod, Nat.div_add_mod']

theorem mem_toDigits {radix n : ℕ} (hlow : 1 < radix) {c : Char}
    (hc : c ∈ Nat.toDigits radix n) : ∃ d < radix, c = d.digitChar := by
  induction n using Nat.strong_induction_on with
  | _ n ih =>
    by_cases hlt : n < radix
    · rw [Nat.toDigits_of_lt_base hlt] at hc
      exact ⟨n, hlt, List.mem_singleton.mp hc⟩
    · have hle : radix ≤ n := by omega
      rw [Nat.toDigits_of_base_le hlow hle] at hc
      cases List.mem_append.mp hc with
      | inl h => exact ih (n / radix) (Nat.div_lt_self (by omega) hlow) h
      | inr h => exact ⟨n % radix, Nat.mod_lt n (by omega), List.mem_singleton.mp h⟩

theorem all_isDigit_decimal (n : ℕ) : (decimal n).all Char.isDigit = true := by
  rw [List.all_eq_true]
  intro c hc
  exact Nat.isDigit_of_mem_toDigits (by decide) (by decide) hc

end Fsys.Base
