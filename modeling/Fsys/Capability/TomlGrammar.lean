import Fsys.Base.Trim
import Fsys.Capability.TomlLite

/-!
# The documented syntax

The forms that the head of `toml_lite.rs` lists: what a line says, and what a value denotes.
Every line of a documented form is read as what it says.
-/

namespace Fsys.TomlLite

open Fsys.Base

/-! ### Places -/

/-- A place for a value: a key of the root or of a section. -/
abbrev Place := Option Str × Str

def Document.lookup (doc : Document) : Place → Option Value
  | (none, key) => doc.root.get key
  | (some section_, key) => doc.sectionValue section_ key

def Document.put (doc : Document) (place : Place) (value : Value) : Document :=
  match place.1 with
  | none => doc.setRoot place.2 value
  | some section_ => doc.set section_ place.2 value

theorem Document.lookup_put (doc : Document) (place place' : Place) (value : Value) :
    (doc.put place value).lookup place' =
      if place = place' then some value else doc.lookup place' := by
  obtain ⟨where_, key⟩ := place
  obtain ⟨where', key'⟩ := place'
  cases where_ with
  | none =>
    cases where' with
    | none => simp [put, lookup, setRoot, OrdMap.get_insert]
    | some s => simp [put, lookup, setRoot, sectionValue]
  | some s =>
    cases where' with
    | none => simp [put, lookup, set]
    | some s' =>
      simp only [put, lookup, set, sectionValue, OrdMap.get_insert, Prod.mk.injEq,
        Option.some.injEq]
      by_cases hs : s = s'
      · subst hs
        cases hget : doc.sections.get s with
        | none => by_cases hk : key = key' <;> simp [OrdMap.get_insert, hk]
        | some table => by_cases hk : key = key' <;> simp [OrdMap.get_insert, hk]
      · simp [hs]

theorem Document.lookup_put_self (doc : Document) (place : Place) (value : Value) :
    (doc.put place value).lookup place = some value := by
  simp [lookup_put]

/-- All values of a list put one after another. -/
def Document.putAll (doc : Document) (es : List (Place × Value)) : Document :=
  es.foldl (fun doc e => doc.put e.1 e.2) doc

theorem Document.lookup_putAll_of_not_mem {es : List (Place × Value)} {place : Place}
    (h : place ∉ es.map Prod.fst) (doc : Document) :
    (doc.putAll es).lookup place = doc.lookup place := by
  induction es generalizing doc with
  | nil => rfl
  | cons e es ih =>
    have hne := Ne.symm (List.ne_of_not_mem_cons h)
    have hrest := ih (List.not_mem_of_not_mem_cons h) (doc.put e.1 e.2)
    rw [lookup_put, if_neg hne] at hrest
    exact hrest

theorem Document.lookup_putAll {es : List (Place × Value)} (hnodup : (es.map Prod.fst).Nodup)
    {e : Place × Value} (he : e ∈ es) (doc : Document) :
    (doc.putAll es).lookup e.1 = some e.2 := by
  induction es generalizing doc with
  | nil => cases he
  | cons a es ih =>
    obtain ⟨hnot, hrest⟩ := List.nodup_cons.mp hnodup
    cases List.mem_cons.mp he with
    | inl heq =>
      rw [heq]
      have hkeep := lookup_putAll_of_not_mem hnot (doc.put a.1 a.2)
      rw [lookup_put_self] at hkeep
      exact hkeep
    | inr hmem => exact ih hrest hmem (doc.put a.1 a.2)

/-! ### Forms -/

/-- The text between the quotes of a string literal, and the string it stands for. -/
inductive Decodes : Str → Str → Prop
  | nil : Decodes [] []
  | escape {next d : Char} {body text : Str} (hnext : unescapeChar next = some d)
      (hbody : Decodes body text) : Decodes ('\\' :: next :: body) (d :: text)
  | plain {ch : Char} {body text : Str} (hslash : ch ≠ '\\') (hquote : ch ≠ '"')
      (hbody : Decodes body text) : Decodes (ch :: body) (ch :: text)

def literal (body : Str) : Str := '"' :: body ++ ['"']

/-- String literals with commas between them. -/
inductive Elements : Str → List Str → Prop
  | last {a body b text : Str} (ha : Blank a) (hbody : Decodes body text) (hb : Blank b) :
      Elements (a ++ literal body ++ b) [text]
  | more {a body b text s : Str} {items : List Str} (ha : Blank a) (hbody : Decodes body text)
      (hb : Blank b) (hs : Elements s items) :
      Elements (a ++ literal body ++ b ++ ',' :: s) (text :: items)

/-- The number a sign and digits stand for. -/
def signedValue (sign digits : Str) : ℤ :=
  if sign = ['-'] then -(Nat.ofDigitChars 10 digits 0 : ℤ) else Nat.ofDigitChars 10 digits 0

/-- A decimal number with its sign. -/
structure IntForm (s : Str) (i : Int64) (sign digits : Str) : Prop where
  text : s = sign ++ digits
  signed : sign = [] ∨ sign = ['+'] ∨ sign = ['-']
  nonempty : digits ≠ []
  digit : digits.all Char.isDigit = true
  value : i.toInt = signedValue sign digits

inductive ValueForm : Str → Value → Prop
  | string {body text : Str} (hbody : Decodes body text) :
      ValueForm (literal body) (.string text)
  | integer {s sign digits : Str} {i : Int64} (hs : IntForm s i sign digits) :
      ValueForm s (.integer i)
  | isTrue : ValueForm "true".toList (.boolean true)
  | isFalse : ValueForm "false".toList (.boolean false)
  | emptyArray {s : Str} (hs : Blank s) : ValueForm ('[' :: s ++ [']']) (.stringArray [])
  | array {s : Str} {items : List Str} (hs : Elements s items) :
      ValueForm ('[' :: s ++ [']']) (.stringArray items)

/-- The documented forms of a line's content. Blanks are what `trim` takes off, which is more than
the spaces and tabs of the documentation. -/
inductive ContentForm : Str → Item → Prop
  | blank {s : Str} (hs : Blank s) : ContentForm s .blank
  | header {a b name c d : Str} (ha : Blank a) (hb : Blank b) (hname : isValidKey name = true)
      (hc : Blank c) (hd : Blank d) :
      ContentForm (a ++ ('[' :: (b ++ name ++ c) ++ [']']) ++ d) (.header name)
  | pair {a key b c v d : Str} {value : Value} (ha : Blank a) (hkey : isValidKey key = true)
      (hb : Blank b) (hc : Blank c) (hv : ValueForm v value) (hd : Blank d) :
      ContentForm (a ++ (key ++ b ++ '=' :: (c ++ v)) ++ d) (.pair key value)

/-- What follows a line's content. -/
def IsComment (s : Str) : Prop := s = [] ∨ s.head? = some '#'

def LineForm (rawLine : Str) (item : Item) : Prop :=
  ∃ content comment, rawLine = content ++ comment ∧ IsComment comment ∧ ContentForm content item

/-! ### Characters -/

theorem isWhitespace_of_isKeyChar {c : Char} (h : isKeyChar c = true) :
    isWhitespace c = false := by
  have hn : c.toNat = 45 ∨ (48 ≤ c.toNat ∧ c.toNat ≤ 122) := by
    simp only [isKeyChar, Bool.or_eq_true, beq_iff_eq] at h
    obtain (halnum | hc) | hc := h
    · delta Char.isAlphanum Char.isAlpha Char.isUpper Char.isLower Char.isDigit at halnum
      simp only [Bool.or_eq_true, Bool.and_eq_true, decide_eq_true_eq, ge_iff_le,
        UInt32.le_iff_toNat_le] at halnum
      simp only [Char.toNat_val] at halnum
      simp at halnum
      omega
    · simp [hc]
    · simp [hc]
  simp [isWhitespace]
  omega

theorem isKeyChar_ne {c d : Char} (h : isKeyChar c = true) (hd : isKeyChar d = false) :
    c ≠ d := by
  intro heq
  rw [heq, hd] at h
  cases h

theorem isKeyChar_of_valid {key : Str} (h : isValidKey key = true) :
    ∀ c ∈ key, isKeyChar c = true := by
  simp only [isValidKey, Bool.and_eq_true, List.all_eq_true] at h
  exact h.2

theorem ne_nil_of_valid {key : Str} (h : isValidKey key = true) : key ≠ [] := by
  intro hnil
  simp [hnil, isValidKey] at h

theorem tight_of_valid {key : Str} (h : isValidKey key = true) : Tight key where
  nonempty := ne_nil_of_valid h
  first := by
    intro c hc
    exact isWhitespace_of_isKeyChar (isKeyChar_of_valid h c (List.mem_of_head? hc))
  last := by
    intro c hc
    exact isWhitespace_of_isKeyChar (isKeyChar_of_valid h c (List.mem_of_getLast? hc))

theorem isKeyChar_of_isDigit {c : Char} (h : c.isDigit = true) : isKeyChar c = true := by
  simp [isKeyChar, Char.isAlphanum, h]

theorem ne_of_isWhitespace {c d : Char} (h : isWhitespace c = true)
    (hd : isWhitespace d = false) : c ≠ d := by
  intro heq
  rw [heq, hd] at h
  cases h

/-! ### Comments -/

/-- The comment scan goes over `a` and is outside a string behind it. -/
def Passes (a : Str) : Prop :=
  ∀ s, scanComment false false (a ++ s) = a ++ scanComment false false s

theorem Passes.append {a b : Str} (ha : Passes a) (hb : Passes b) : Passes (a ++ b) := by
  intro s
  rw [List.append_assoc, ha, hb, List.append_assoc]

theorem passes_of_plain {a : Str} (h : ∀ c ∈ a, c ≠ '"' ∧ c ≠ '#') : Passes a := by
  intro s
  induction a with
  | nil => rfl
  | cons c a ih =>
    obtain ⟨hquote, hhash⟩ := h c (by simp)
    have ha := ih fun c' hc' => h c' (List.mem_cons_of_mem c hc')
    simp [scanComment, hquote, hhash, ha]

theorem passes_of_blank {a : Str} (h : Blank a) : Passes a := by
  apply passes_of_plain
  intro c hc
  exact ⟨ne_of_isWhitespace (h c hc) (by decide), ne_of_isWhitespace (h c hc) (by decide)⟩

theorem passes_of_valid {key : Str} (h : isValidKey key = true) : Passes key := by
  apply passes_of_plain
  intro c hc
  have hkey := isKeyChar_of_valid h c hc
  exact ⟨isKeyChar_ne hkey (by decide), isKeyChar_ne hkey (by decide)⟩

theorem blank_space : Blank [' '] := by
  intro c hc
  rw [List.mem_singleton.mp hc]
  decide

theorem passes_singleton {c : Char} (hquote : c ≠ '"') (hhash : c ≠ '#') : Passes [c] := by
  apply passes_of_plain
  intro d hd
  rw [List.mem_singleton.mp hd]
  exact ⟨hquote, hhash⟩

theorem Decodes.scan {body text : Str} (h : Decodes body text) (s : Str) :
    scanComment true false (body ++ s) = body ++ scanComment true false s := by
  induction h with
  | nil => rfl
  | escape hnext _ ih => simp [scanComment, ih]
  | plain hslash hquote _ ih => simp [scanComment, hslash, hquote, ih]

theorem Decodes.passes {body text : Str} (h : Decodes body text) : Passes (literal body) := by
  intro s
  have hbody := h.scan ('"' :: s)
  simp [literal, scanComment, hbody]

theorem Elements.passes {s : Str} {items : List Str} (h : Elements s items) : Passes s := by
  induction h with
  | last ha hbody hb =>
    exact ((passes_of_blank ha).append hbody.passes).append (passes_of_blank hb)
  | more ha hbody hb _ ih =>
    have hcomma : Passes [','] := passes_singleton (by decide) (by decide)
    have hfirst := ((passes_of_blank ha).append hbody.passes).append (passes_of_blank hb)
    exact hfirst.append (hcomma.append ih)

theorem passes_bracketed {s : Str} (h : Passes s) : Passes ('[' :: s ++ [']']) := by
  have hopen : Passes ['['] := passes_singleton (by decide) (by decide)
  have hclose : Passes [']'] := passes_singleton (by decide) (by decide)
  exact (hopen.append h).append hclose

theorem IntForm.isKeyChar {s sign digits : Str} {i : Int64} (h : IntForm s i sign digits) :
    ∀ c ∈ s, isKeyChar c = true ∨ c = '+' := by
  intro c hc
  rw [h.text] at hc
  cases List.mem_append.mp hc with
  | inl hsign =>
    obtain heq | heq | heq := h.signed
    · simp [heq] at hsign
    · simp [heq] at hsign
      exact .inr hsign
    · simp [heq] at hsign
      exact .inl (by rw [hsign]; decide)
  | inr hdigit => exact .inl (isKeyChar_of_isDigit (List.all_eq_true.mp h.digit c hdigit))

theorem ValueForm.passes {v : Str} {value : Value} (h : ValueForm v value) : Passes v := by
  cases h with
  | string hbody => exact hbody.passes
  | integer hs =>
    apply passes_of_plain
    intro c hc
    cases hs.isKeyChar c hc with
    | inl hkey => exact ⟨isKeyChar_ne hkey (by decide), isKeyChar_ne hkey (by decide)⟩
    | inr hplus => simp [hplus]
  | isTrue => exact passes_of_plain (by simp)
  | isFalse => exact passes_of_plain (by simp)
  | emptyArray hs => exact passes_bracketed (passes_of_blank hs)
  | array hs => exact passes_bracketed hs.passes

theorem ContentForm.passes {content : Str} {item : Item} (h : ContentForm content item) :
    Passes content := by
  cases h with
  | blank hs => exact passes_of_blank hs
  | header ha hb hname hc hd =>
    have hinner := ((passes_of_blank hb).append (passes_of_valid hname)).append (passes_of_blank hc)
    exact ((passes_of_blank ha).append (passes_bracketed hinner)).append (passes_of_blank hd)
  | pair ha hkey hb hc hv hd =>
    have heq : Passes ['='] := passes_singleton (by decide) (by decide)
    have hright := heq.append ((passes_of_blank hc).append hv.passes)
    have hinner := ((passes_of_valid hkey).append (passes_of_blank hb)).append hright
    exact ((passes_of_blank ha).append hinner).append (passes_of_blank hd)

theorem stripComment_of_passes {content comment : Str} (h : Passes content)
    (hcomment : IsComment comment) : stripComment (content ++ comment) = content := by
  unfold stripComment
  rw [h]
  cases comment with
  | nil => simp [scanComment]
  | cons c comment =>
    have hc : c = '#' := by simpa [IsComment] using hcomment
    simp [scanComment, hc]

/-! ### Values -/

theorem unescape_plain {ch : Char} (hslash : ch ≠ '\\') (s : Str) :
    unescape (ch :: s) = (unescape s).map (ch :: ·) := by
  rw [unescape.eq_def]
  simp [hslash]

theorem Decodes.unescape_eq {body text : Str} (h : Decodes body text) :
    unescape body = some text := by
  induction h with
  | nil => rfl
  | escape hnext _ ih => simp [unescape, hnext, ih]
  | plain hslash _ _ ih => simp [unescape_plain hslash, ih]

theorem Decodes.readString_eq {body text : Str} (h : Decodes body text) (s : Str) :
    readString (body ++ '"' :: s) = some (text, s) := by
  induction h with
  | nil => exact readString_quote s
  | escape hnext _ ih => simp [readString, hnext, ih]
  | plain hslash hquote _ ih => simp [readString_plain hslash hquote, ih]

/-- One turn of the loop over the items. -/
theorem parseItems_eq {s body rest current : Str} (hopen : trimStart s = '"' :: body)
    (hread : readString body = some (current, rest)) :
    parseItems s =
      match trimStart rest with
      | [] => some [current]
      | c :: rest' => if c = ',' then (parseItems rest').map (current :: ·) else none := by
  rw [parseItems.eq_def]
  split
  · simp_all
  · rename_i q body' hopen'
    rw [hopen] at hopen'
    cases hopen'
    simp only [if_true]
    split
    · simp_all
    · rename_i current' rest' hread'
      rw [hread] at hread'
      cases hread'
      split <;> simp_all

theorem Elements.parseItems_eq {s : Str} {items : List Str} (h : Elements s items) :
    parseItems s = some items := by
  induction h with
  | @last a body b text ha hbody hb =>
    have hopen : trimStart (a ++ literal body ++ b) = '"' :: (body ++ '"' :: b) := by
      rw [List.append_assoc, trimStart_append ha]
      simp [literal, trimStart_cons (show isWhitespace '"' = false by decide)]
    rw [TomlLite.parseItems_eq hopen (hbody.readString_eq b), trimStart_blank hb]
  | @more a body b text s items ha hbody hb _ ih =>
    have hopen : trimStart (a ++ literal body ++ b ++ ',' :: s) =
        '"' :: (body ++ '"' :: (b ++ ',' :: s)) := by
      rw [List.append_assoc, List.append_assoc, trimStart_append ha]
      simp [literal, trimStart_cons (show isWhitespace '"' = false by decide)]
    rw [TomlLite.parseItems_eq hopen (hbody.readString_eq _), trimStart_append hb,
      trimStart_cons (by decide)]
    simp [ih]

theorem tight_literal (body : Str) : Tight (literal body) :=
  tight_enclosed (by decide) (by decide) body

theorem Elements.blank_append {a s : Str} {items : List Str} (ha : Blank a)
    (h : Elements s items) : Elements (a ++ s) items := by
  cases h with
  | last ha' hbody hb =>
    simpa [List.append_assoc] using Elements.last (ha.append ha') hbody hb
  | more ha' hbody hb hs =>
    simpa [List.append_assoc] using Elements.more (ha.append ha') hbody hb hs

theorem Elements.append_blank {s b : Str} {items : List Str} (h : Elements s items)
    (hb : Blank b) : Elements (s ++ b) items := by
  induction h with
  | last ha hbody hb' =>
    simpa [List.append_assoc] using Elements.last ha hbody (hb'.append hb)
  | more ha hbody hb' _ ih =>
    simpa [List.append_assoc] using Elements.more ha hbody hb' ih

/-- The elements without the white space around them all. -/
theorem Elements.core {s : Str} {items : List Str} (h : Elements s items) :
    ∃ a t b, s = a ++ t ++ b ∧ Blank a ∧ Blank b ∧ Tight t ∧ Elements t items := by
  induction h with
  | @last a body b text ha hbody hb =>
    refine ⟨a, literal body, b, rfl, ha, hb, tight_literal body, ?_⟩
    simpa using Elements.last blank_nil hbody blank_nil
  | @more a body b text s items ha hbody hb _ ih =>
    obtain ⟨a', t, b', hs, ha', hb', ht, helems⟩ := ih
    refine ⟨a, literal body ++ (b ++ ',' :: a') ++ t, b', ?_, ha, hb',
      (tight_literal body).join _ ht, ?_⟩
    · simp [hs]
    · have h := Elements.more blank_nil hbody hb (helems.blank_append ha')
      simpa using h

theorem Elements.parseStringArray_eq {s : Str} {items : List Str} (h : Elements s items) :
    parseStringArray s = some (.stringArray items) := by
  obtain ⟨a, t, b, hs, ha, hb, ht, helems⟩ := h.core
  have htrim : trim s = t := by rw [hs, trim_of_tight ha ht hb]
  simp [parseStringArray, htrim, ht.nonempty, helems.parseItems_eq]

theorem parseI64_signed {sign digits : Str} (hsign : sign = [] ∨ sign = ['+'] ∨ sign = ['-'])
    (hne : digits ≠ []) (hdigit : digits.all Char.isDigit = true) :
    parseI64 (sign ++ digits) =
      (Option.filter (fun n => -2 ^ 63 ≤ n ∧ n < 2 ^ 63) (some (signedValue sign digits))).map
        Int64.ofInt := by
  obtain hs | hs | hs := hsign
  · cases digits with
    | nil => exact absurd rfl hne
    | cons c rest =>
      have hc : c.isDigit = true := List.all_eq_true.mp hdigit c (by simp)
      have hminus : c ≠ '-' := by
        intro h
        rw [h] at hc
        exact absurd hc (by decide)
      have hplus : c ≠ '+' := by
        intro h
        rw [h] at hc
        exact absurd hc (by decide)
      simp only [parseI64, hs, List.nil_append, hminus, hplus, or_self, if_false,
        List.isEmpty_cons, digitsValue_ten, hdigit, if_true, Option.map_some, signedValue,
        Bool.false_eq_true, reduceCtorEq]
  · simp [parseI64, hs, hne, digitsValue_ten, hdigit, signedValue]
  · simp [parseI64, hs, hne, digitsValue_ten, hdigit, signedValue]

theorem IntForm.parseI64_eq {s sign digits : Str} {i : Int64} (h : IntForm s i sign digits) :
    parseI64 s = some i := by
  have hrange : -2 ^ 63 ≤ i.toInt ∧ i.toInt < 2 ^ 63 := ⟨i.le_toInt, i.toInt_lt⟩
  rw [h.text, parseI64_signed h.signed h.nonempty h.digit, ← h.value]
  simp only [Option.filter, hrange, and_self, decide_true, if_true, Option.map_some,
    Int64.ofInt_toInt]

theorem parseValue_literal (body : Str) :
    parseValue (literal body) = (unescape body).map .string := by
  have henc : (stripPrefix '"' (literal body)).bind (stripSuffix '"') = some body :=
    enclosed_eq_some.mpr rfl
  unfold parseValue
  rw [if_neg (by simp [literal]), if_neg (by simp [literal]), henc]

theorem enclosed_eq_none {c d x : Char} (h : x ≠ c) (s : Str) :
    (stripPrefix c (x :: s)).bind (stripSuffix d) = none := by
  simp [stripPrefix, h]

theorem parseValue_bracketed (s : Str) :
    parseValue ('[' :: s ++ [']']) = parseStringArray s := by
  have henc : (stripPrefix '[' ('[' :: s ++ [']'])).bind (stripSuffix ']') = some s :=
    enclosed_eq_some.mpr rfl
  have hquote : (stripPrefix '"' ('[' :: s ++ [']'])).bind (stripSuffix '"') = none :=
    enclosed_eq_none (by decide) _
  unfold parseValue
  rw [if_neg (by simp), if_neg (by simp), hquote, henc]

theorem parseValue_other {c : Char} {s : Str} (htrue : c ≠ 't') (hfalse : c ≠ 'f')
    (hquote : c ≠ '"') (hopen : c ≠ '[') :
    parseValue (c :: s) = (parseI64 (c :: s)).map .integer := by
  unfold parseValue
  rw [if_neg (by simp [htrue]), if_neg (by simp [hfalse]), enclosed_eq_none hquote,
    enclosed_eq_none hopen]

/-- The first character of a number. -/
theorem IntForm.first {s sign digits : Str} {i : Int64} (h : IntForm s i sign digits) :
    ∃ c rest, s = c :: rest ∧ (c = '+' ∨ c = '-' ∨ c.isDigit = true) := by
  obtain ⟨d, ds, hd⟩ := List.exists_cons_of_ne_nil h.nonempty
  have hdigit : d.isDigit = true := List.all_eq_true.mp h.digit d (by simp [hd])
  obtain hs | hs | hs := h.signed
  · exact ⟨d, ds, by simp [h.text, hs, hd], .inr (.inr hdigit)⟩
  · exact ⟨'+', digits, by simp [h.text, hs], .inl rfl⟩
  · exact ⟨'-', digits, by simp [h.text, hs], .inr (.inl rfl)⟩

theorem isDigit_ne {c d : Char} (h : c.isDigit = true) (hd : d.isDigit = false) : c ≠ d := by
  intro heq
  rw [heq, hd] at h
  cases h

theorem ValueForm.parseValue_eq {v : Str} {value : Value} (h : ValueForm v value) :
    parseValue v = some value := by
  cases h with
  | string hbody => simp [parseValue_literal, hbody.unescape_eq]
  | integer hs =>
    have hparse := hs.parseI64_eq
    obtain ⟨c, rest, hv, hc⟩ := hs.first
    rw [hv] at hparse ⊢
    have hne : c ≠ 't' ∧ c ≠ 'f' ∧ c ≠ '"' ∧ c ≠ '[' := by
      obtain hplus | hminus | hdigit := hc
      · simp [hplus]
      · simp [hminus]
      · exact ⟨isDigit_ne hdigit (by decide), isDigit_ne hdigit (by decide),
          isDigit_ne hdigit (by decide), isDigit_ne hdigit (by decide)⟩
    rw [parseValue_other hne.1 hne.2.1 hne.2.2.1 hne.2.2.2, hparse]
    rfl
  | isTrue => rfl
  | isFalse => rfl
  | emptyArray hs =>
    rw [parseValue_bracketed]
    simp [parseStringArray, trim_of_blank hs]
  | array hs => rw [parseValue_bracketed, hs.parseStringArray_eq]

theorem tight_of_plain {s : Str} (hne : s ≠ []) (h : ∀ c ∈ s, isWhitespace c = false) :
    Tight s where
  nonempty := hne
  first := fun c hc => h c (List.mem_of_head? hc)
  last := fun c hc => h c (List.mem_of_getLast? hc)

theorem ValueForm.tight {v : Str} {value : Value} (h : ValueForm v value) : Tight v := by
  cases h with
  | string hbody => exact tight_literal _
  | integer hs =>
    apply tight_of_plain
    · obtain ⟨c, rest, hv, -⟩ := hs.first
      simp [hv]
    · intro c hc
      cases hs.isKeyChar c hc with
      | inl hkey => exact isWhitespace_of_isKeyChar hkey
      | inr hplus =>
        rw [hplus]
        decide
  | isTrue => exact tight_of_plain (by simp) (by simp [isWhitespace])
  | isFalse => exact tight_of_plain (by simp) (by simp [isWhitespace])
  | emptyArray hs => exact tight_enclosed (by decide) (by decide) _
  | array hs => exact tight_enclosed (by decide) (by decide) _

/-! ### Lines -/

theorem splitOnce_pair {key b : Str} (hkey : isValidKey key = true) (hb : Blank b) (s : Str) :
    splitOnce '=' (key ++ b ++ '=' :: s) = some (key ++ b, s) := by
  apply splitOnce_append
  intro hmem
  cases List.mem_append.mp hmem with
  | inl h => exact isKeyChar_ne (isKeyChar_of_valid hkey _ h) (by decide) rfl
  | inr h => exact ne_of_isWhitespace (hb _ h) (by decide) rfl

theorem trim_right {s b : Str} (hs : Tight s) (hb : Blank b) : trim (s ++ b) = s := by
  have h := trim_of_tight blank_nil hs hb
  simpa using h

theorem trim_left {a s : Str} (ha : Blank a) (hs : Tight s) : trim (a ++ s) = s := by
  have h := trim_of_tight ha hs blank_nil
  simpa using h

theorem tight_pair {key b c v : Str} (hkey : isValidKey key = true) (hv : Tight v) :
    Tight (key ++ b ++ '=' :: (c ++ v)) := by
  have h := (tight_of_valid hkey).join (b ++ '=' :: c) hv
  simpa using h

/-- What a line of the shape `key = v` is read as is up to the value. -/
theorem readLine_pair {rawLine a key b c v d : Str}
    (hstrip : stripComment rawLine = a ++ (key ++ b ++ '=' :: (c ++ v)) ++ d) (ha : Blank a)
    (hkey : isValidKey key = true) (hb : Blank b) (hc : Blank c) (hv : Tight v) (hd : Blank d) :
    readLine rawLine = (parseValue v).map (.pair key) := by
  obtain ⟨k, ks, hks⟩ := List.exists_cons_of_ne_nil (ne_nil_of_valid hkey)
  have hk : k ≠ '[' := isKeyChar_ne (isKeyChar_of_valid hkey k (by simp [hks])) (by decide)
  have hopen : (stripPrefix '[' (key ++ b ++ '=' :: (c ++ v))).bind (stripSuffix ']') = none := by
    simp [hks, stripPrefix, hk]
  have hpair : parsePair (key ++ b ++ '=' :: (c ++ v)) =
      (parseValue v).map fun value => (key, value) := by
    unfold parsePair
    rw [splitOnce_pair hkey hb]
    simp [trim_right (tight_of_valid hkey) hb, trim_left hc hv, hkey]
  unfold readLine
  rw [hstrip, trim_of_tight ha (tight_pair hkey hv) hd]
  simp only [hopen, hpair]
  simp [Function.comp_def]

theorem ContentForm.readLine_eq {content comment : Str} {item : Item}
    (h : ContentForm content item) (hcomment : IsComment comment) :
    readLine (content ++ comment) = some item := by
  have hstrip := stripComment_of_passes h.passes hcomment
  cases h with
  | blank hs =>
    unfold readLine
    rw [hstrip]
    simp [trim_of_blank hs]
  | header ha hb hname hc hd =>
    have htight := tight_enclosed (c := '[') (d := ']') (by decide) (by decide)
    have henc : ∀ s : Str, (stripPrefix '[' ('[' :: s ++ [']'])).bind (stripSuffix ']') = some s :=
      fun s => enclosed_eq_some.mpr rfl
    unfold readLine
    rw [hstrip, trim_of_tight ha (htight _) hd]
    simp only [henc, trim_of_tight hb (tight_of_valid hname) hc]
    simp [ne_nil_of_valid hname, hname]
  | pair ha hkey hb hc hv hd =>
    rw [readLine_pair hstrip ha hkey hb hc hv.tight hd, hv.parseValue_eq]
    rfl

/-- A line of a documented form is read as what it says. -/
theorem LineForm.readLine_eq {rawLine : Str} {item : Item} (h : LineForm rawLine item) :
    readLine rawLine = some item := by
  obtain ⟨content, comment, hraw, hcomment, hcontent⟩ := h
  rw [hraw, hcontent.readLine_eq hcomment]

end Fsys.TomlLite
