import Mathlib.Data.List.Forall2
import Fsys.Capability.TomlGrammar

/-!
# What the parser accepts

Apart from one kind of line the parser accepts exactly the documented syntax: a quoted value
may hold a quote that no backslash escapes, because `parse_value` only looks at the first and
the last character of the literal. The same literal inside an array is refused.
-/

namespace Fsys.TomlLite

open Fsys.Base

/-! ### Literals -/

/-- There is a quote that no backslash escapes. -/
def hasBareQuote : Str → Bool
  | [] => false
  | ch :: s =>
    if ch = '\\' then
      match s with
      | [] => false
      | _ :: s => hasBareQuote s
    else ch == '"' || hasBareQuote s

theorem hasBareQuote_plain {ch : Char} (hslash : ch ≠ '\\') (s : Str) :
    hasBareQuote (ch :: s) = (ch == '"' || hasBareQuote s) := by
  rw [hasBareQuote.eq_def]
  simp [hslash]

theorem Decodes.no_bareQuote {body text : Str} (h : Decodes body text) :
    hasBareQuote body = false := by
  induction h with
  | nil => rfl
  | escape _ _ ih => simp [hasBareQuote, ih]
  | plain hslash hquote _ ih => simp [hasBareQuote_plain hslash, hquote, ih]

theorem decodes_of_unescape {body text : Str} (h : unescape body = some text)
    (hbare : hasBareQuote body = false) : Decodes body text := by
  induction body using unescape.induct generalizing text with
  | case1 =>
    cases h
    exact .nil
  | case2 => simp [unescape] at h
  | case3 next s ih =>
    simp only [unescape, if_true, Option.bind_eq_some_iff, Option.map_eq_some_iff] at h
    obtain ⟨d, hd, text', htext, heq⟩ := h
    cases heq
    exact .escape hd (ih htext (by simpa [hasBareQuote] using hbare))
  | case4 ch s hslash ih =>
    rw [unescape_plain hslash, Option.map_eq_some_iff] at h
    obtain ⟨text', htext, heq⟩ := h
    cases heq
    simp only [hasBareQuote_plain hslash, Bool.or_eq_false_iff, beq_eq_false_iff_ne] at hbare
    exact .plain hslash hbare.1 (ih htext hbare.2)

theorem readString_some {s text rest : Str} (h : readString s = some (text, rest)) :
    ∃ body, s = body ++ '"' :: rest ∧ Decodes body text := by
  induction s using readString.induct generalizing text with
  | case1 => simp [readString] at h
  | case2 => simp [readString] at h
  | case3 next s ih =>
    simp only [readString, if_true, Option.bind_eq_some_iff, Option.map_eq_some_iff] at h
    obtain ⟨d, hd, p, hp, heq⟩ := h
    cases heq
    obtain ⟨body, hs, hbody⟩ := ih hp
    exact ⟨'\\' :: next :: body, by simp [hs], .escape hd hbody⟩
  | case4 s _ =>
    rw [readString_quote] at h
    cases h
    exact ⟨[], rfl, .nil⟩
  | case5 ch s hslash hquote ih =>
    rw [readString_plain hslash hquote, Option.map_eq_some_iff] at h
    obtain ⟨p, hp, heq⟩ := h
    cases heq
    obtain ⟨body, hs, hbody⟩ := ih hp
    exact ⟨ch :: body, by simp [hs], .plain hslash hquote hbody⟩

theorem trimStart_split (s : Str) : ∃ a, s = a ++ trimStart s ∧ Blank a :=
  ⟨s.takeWhile isWhitespace, List.takeWhile_append_dropWhile.symm, blank_takeWhile s⟩

/-! ### Values -/

theorem parseItems_some {s : Str} {items : List Str} (h : parseItems s = some items) :
    ∃ body current rest, trimStart s = '"' :: body ∧ readString body = some (current, rest) := by
  rw [parseItems.eq_def] at h
  split at h
  · cases h
  · rename_i q body hopen
    split at h
    · rename_i hq
      rw [hq] at hopen
      split at h
      · cases h
      · rename_i current rest hread
        exact ⟨body, current, rest, hopen, hread⟩
    · cases h

theorem elements_of_parseItems {s : Str} {items : List Str} (h : parseItems s = some items) :
    Elements s items := by
  induction hn : s.length using Nat.strong_induction_on generalizing s items with
  | _ n ih =>
    obtain ⟨body, text, rest, hopen, hread⟩ := parseItems_some h
    obtain ⟨a, hs, ha⟩ := trimStart_split s
    obtain ⟨inner, hbody, hdec⟩ := readString_some hread
    obtain ⟨b, hrest, hb⟩ := trimStart_split rest
    rw [parseItems_eq hopen hread] at h
    rw [hopen, hbody] at hs
    cases hnext : trimStart rest with
    | nil =>
      rw [hnext] at h hrest
      cases h
      rw [hs, hrest]
      simpa [literal] using Elements.last ha hdec hb
    | cons c rest' =>
      rw [hnext] at h hrest
      have hc : c = ',' := by
        by_contra hne
        simp [hne] at h
      subst hc
      simp only [if_true, Option.map_eq_some_iff] at h
      obtain ⟨items', hitems, heq⟩ := h
      cases heq
      have hlen : rest'.length < n := by
        rw [← hn, hs, hrest]
        simp only [List.length_append, List.length_cons]
        omega
      have hrec := ih rest'.length hlen hitems rfl
      rw [hs, hrest]
      simpa [literal] using Elements.more ha hdec hb hrec

theorem valueForm_of_parseStringArray {s : Str} {value : Value}
    (h : parseStringArray s = some value) : ValueForm ('[' :: s ++ [']']) value := by
  obtain ⟨a, b, hs, ha, hb⟩ := trim_split s
  unfold parseStringArray at h
  simp only [List.isEmpty_iff] at h
  split at h
  · rename_i hempty
    cases h
    apply ValueForm.emptyArray
    rw [hs, hempty, List.append_nil]
    exact ha.append hb
  · obtain ⟨items, hitems, heq⟩ := Option.map_eq_some_iff.mp h
    cases heq
    have helems := ((elements_of_parseItems hitems).blank_append ha).append_blank hb
    rw [← hs] at helems
    exact .array helems

theorem intForm_of_parseI64 {s : Str} {i : Int64} (h : parseI64 s = some i) :
    ∃ sign digits, IntForm s i sign digits := by
  have hshape : ∃ sign digits, s = sign ++ digits ∧ (sign = [] ∨ sign = ['+'] ∨ sign = ['-']) ∧
      digits ≠ [] ∧ digits.all Char.isDigit = true := by
    cases s with
    | nil => simp [parseI64] at h
    | cons c rest =>
      simp only [parseI64, digitsValue_ten] at h
      by_cases hsign : c = '-' ∨ c = '+'
      · refine ⟨[c], rest, rfl, ?_, ?_, ?_⟩
        · obtain heq | heq := hsign
          · simp [heq]
          · simp [heq]
        · intro hnil
          simp [hsign, hnil] at h
        · by_contra hdigit
          simp [hsign, hdigit] at h
      · refine ⟨[], c :: rest, rfl, .inl rfl, by simp, ?_⟩
        by_contra hdigit
        simp only [hsign, if_false, List.isEmpty_cons, Bool.false_eq_true, hdigit] at h
        cases h
  obtain ⟨sign, digits, hs, hsign, hne, hdigit⟩ := hshape
  rw [hs, parseI64_signed hsign hne hdigit, Option.map_eq_some_iff] at h
  obtain ⟨n, hn, hi⟩ := h
  rw [Option.filter_eq_some_iff] at hn
  obtain ⟨hn, hrange⟩ := hn
  cases hn
  simp only [decide_eq_true_eq] at hrange
  refine ⟨sign, digits, hs, hsign, hne, hdigit, ?_⟩
  rw [← hi, Int64.toInt_ofInt_of_le hrange.1 hrange.2]

/-- A value is of a documented form, or a literal with a bare quote inside. -/
theorem valueForm_of_parseValue {v : Str} {value : Value} (h : parseValue v = some value) :
    ValueForm v value ∨ ∃ body, v = literal body ∧ hasBareQuote body = true := by
  unfold parseValue at h
  split at h
  · rename_i heq
    cases h
    exact .inl (heq ▸ .isTrue)
  · split at h
    · rename_i heq
      cases h
      exact .inl (heq ▸ .isFalse)
    · split at h
      · rename_i body henc
        have hv : v = literal body := enclosed_eq_some.mp henc
        obtain ⟨text, htext, heq⟩ := Option.map_eq_some_iff.mp h
        cases heq
        cases hbare : hasBareQuote body with
        | true => exact .inr ⟨body, hv, hbare⟩
        | false => exact .inl (hv ▸ .string (decodes_of_unescape htext hbare))
      · split at h
        · rename_i s henc
          rw [enclosed_eq_some.mp henc]
          exact .inl (valueForm_of_parseStringArray h)
        · obtain ⟨i, hi, heq⟩ := Option.map_eq_some_iff.mp h
          cases heq
          obtain ⟨sign, digits, hform⟩ := intForm_of_parseI64 hi
          exact .inl (.integer hform)

/-! ### Lines -/

/-- The line, its comment removed, is `key = "body"` where the body has a bare quote and all
its escapes are known. -/
def LooseLine (rawLine : Str) : Prop :=
  ∃ a key b c body d, stripComment rawLine = a ++ (key ++ b ++ '=' :: (c ++ literal body)) ++ d ∧
    Blank a ∧ isValidKey key = true ∧ Blank b ∧ Blank c ∧ Blank d ∧
    hasBareQuote body = true ∧ unescape body ≠ none

theorem scanComment_split (inString escape : Bool) (s : Str) :
    ∃ comment, s = scanComment inString escape s ++ comment ∧ IsComment comment := by
  induction s generalizing inString escape with
  | nil => exact ⟨[], rfl, .inl rfl⟩
  | cons ch s ih =>
    have hkeep : ∀ i e, ∃ comment, ch :: s = ch :: scanComment i e s ++ comment ∧
        IsComment comment := by
      intro i e
      obtain ⟨comment, hs, hcomment⟩ := ih i e
      exact ⟨comment, by rw [List.cons_append, ← hs], hcomment⟩
    unfold scanComment
    split
    · exact hkeep _ _
    · split
      · exact hkeep _ _
      · split
        · exact hkeep _ _
        · split
          · rename_i hhash
            exact ⟨ch :: s, rfl, .inr (by simp [hhash.1])⟩
          · exact hkeep _ _

/-- The parser takes a loose line. -/
theorem LooseLine.readLine_some {rawLine : Str} (h : LooseLine rawLine) :
    ∃ key text, readLine rawLine = some (.pair key (.string text)) := by
  obtain ⟨a, key, b, c, body, d, hstrip, ha, hkey, hb, hc, hd, -, hknown⟩ := h
  obtain ⟨text, htext⟩ := Option.ne_none_iff_exists'.mp hknown
  refine ⟨key, text, ?_⟩
  rw [readLine_pair hstrip ha hkey hb hc (tight_literal body) hd, parseValue_literal, htext]
  rfl

theorem ValueForm.string_inv {v text : Str} (h : ValueForm v (.string text)) :
    ∃ body, v = literal body ∧ Decodes body text := by
  cases h with
  | string hbody => exact ⟨_, rfl, hbody⟩

/-- The documented syntax has no loose line. -/
theorem LooseLine.not_lineForm {rawLine : Str} (h : LooseLine rawLine) (item : Item) :
    ¬LineForm rawLine item := by
  intro hform
  obtain ⟨key₀, text, hread⟩ := h.readLine_some
  have hitem : item = .pair key₀ (.string text) := by
    rw [hform.readLine_eq] at hread
    exact Option.some.inj hread
  obtain ⟨a, key, b, c, body, d, hstrip, ha, hkey, hb, hc, hd, hbare, -⟩ := h
  obtain ⟨content, comment, hraw, hcomment, hcontent⟩ := hform
  rw [hraw, stripComment_of_passes hcontent.passes hcomment] at hstrip
  rw [hitem] at hcontent
  cases hcontent with
  | @pair a' _ b' c' v d' _ ha' hkey' hb' hc' hv hd' =>
    -- the same line cut twice: first the ends, then the `=`, then the blanks before the value
    have hline := congrArg trim hstrip
    rw [trim_of_tight ha' (tight_pair hkey' hv.tight) hd',
      trim_of_tight ha (tight_pair hkey (tight_literal body)) hd] at hline
    have hsplit := congrArg (splitOnce '=') hline
    rw [splitOnce_pair hkey' hb', splitOnce_pair hkey hb] at hsplit
    have hvalue := congrArg trim (congrArg Prod.snd (Option.some.inj hsplit))
    simp only at hvalue
    rw [trim_left hc' hv.tight, trim_left hc (tight_literal body)] at hvalue
    obtain ⟨body', hbody', hdec⟩ := hv.string_inv
    have hsame : body' = body := by simpa [hbody', literal] using hvalue
    rw [← hsame, hdec.no_bareQuote] at hbare
    cases hbare

theorem parsePair_some {line key : Str} {value : Value} (h : parsePair line = some (key, value)) :
    ∃ l r, line = l ++ '=' :: r ∧ key = trim l ∧ isValidKey (trim l) = true ∧
      parseValue (trim r) = some value := by
  unfold parsePair at h
  obtain ⟨⟨l, r⟩, hsplit, hrest⟩ := Option.bind_eq_some_iff.mp h
  cases hvalid : isValidKey (trim l) with
  | false => simp [hvalid] at hrest
  | true =>
    simp only [hvalid, Bool.not_true, Bool.false_eq_true, if_false,
      Option.map_eq_some_iff, Prod.mk.injEq] at hrest
    obtain ⟨value', hvalue, hkey, heq⟩ := hrest
    exact ⟨l, r, (splitOnce_some hsplit).1, hkey.symm, hvalid, heq ▸ hvalue⟩

/-- The three ways in which a line is accepted. -/
theorem readLine_cases {rawLine : Str} {item : Item} (h : readLine rawLine = some item) :
    (trim (stripComment rawLine) = [] ∧ item = .blank) ∨
    (∃ s, trim (stripComment rawLine) = '[' :: s ++ [']'] ∧ isValidKey (trim s) = true ∧
      item = .header (trim s)) ∨
    (∃ l r value, trim (stripComment rawLine) = l ++ '=' :: r ∧ isValidKey (trim l) = true ∧
      parseValue (trim r) = some value ∧ item = .pair (trim l) value) := by
  unfold readLine at h
  simp only [List.isEmpty_iff] at h
  split at h
  · rename_i hempty
    cases h
    exact .inl ⟨hempty, rfl⟩
  · split at h
    · rename_i s henc
      cases hvalid : isValidKey (trim s) with
      | false => simp [hvalid] at h
      | true =>
        have hne := ne_nil_of_valid hvalid
        have hitem : .header (trim s) = item := by simpa [hvalid, hne] using h
        exact .inr (.inl ⟨s, enclosed_eq_some.mp henc, hvalid, hitem.symm⟩)
    · obtain ⟨⟨key, value⟩, hpair, heq⟩ := Option.map_eq_some_iff.mp h
      obtain ⟨l, r, hline, hkey, hvalid, hvalue⟩ := parsePair_some hpair
      exact .inr (.inr ⟨l, r, value, hline, hvalid, hvalue, hkey ▸ heq.symm⟩)

/-- Every line that is accepted has a documented form or is loose. -/
theorem lineForm_of_readLine {rawLine : Str} {item : Item} (h : readLine rawLine = some item) :
    LineForm rawLine item ∨ LooseLine rawLine := by
  obtain ⟨comment, hraw, hcomment⟩ := scanComment_split false false rawLine
  obtain ⟨a, d, hcontent, ha, hd⟩ := trim_split (stripComment rawLine)
  have hform : ∀ {item}, ContentForm (stripComment rawLine) item → LineForm rawLine item :=
    fun hitem => ⟨stripComment rawLine, comment, hraw, hcomment, hitem⟩
  obtain ⟨hempty, hitem⟩ | ⟨s, hline, hvalid, hitem⟩ | ⟨l, r, value, hline, hvalid, hvalue, hitem⟩ :=
    readLine_cases h
  · left
    rw [hitem]
    apply hform
    rw [hcontent, hempty, List.append_nil]
    exact .blank (ha.append hd)
  · left
    rw [hitem]
    obtain ⟨b, c, hs, hb, hc⟩ := trim_split s
    have hheader := ContentForm.header ha hb hvalid hc hd
    rw [← hs, ← hline, ← hcontent] at hheader
    exact hform hheader
  · obtain ⟨a', b, hl, ha', hb⟩ := trim_split l
    obtain ⟨c, d', hr, hc, hd'⟩ := trim_split r
    have hshape : stripComment rawLine =
        (a ++ a') ++ (trim l ++ b ++ '=' :: (c ++ trim r)) ++ (d' ++ d) := by
      rw [hcontent, hline]
      conv_lhs => rw [hl, hr]
      simp
    cases valueForm_of_parseValue hvalue with
    | inl hv =>
      left
      rw [hitem]
      apply hform
      rw [hshape]
      exact .pair (ha.append ha') hvalid hb hc hv (hd'.append hd)
    | inr hloose =>
      right
      obtain ⟨body, hbody, hbare⟩ := hloose
      have hknown : unescape body ≠ none := by
        rw [hbody, parseValue_literal] at hvalue
        intro hnone
        simp [hnone] at hvalue
      rw [hbody] at hshape
      exact ⟨_, _, _, _, _, _, hshape, ha.append ha', hvalid, hb, hc, hd'.append hd, hbare, hknown⟩

/-! ### Texts -/

/-- The pairs of the lines, each with the section it stands in. -/
def assignments : Option Str → List Item → List (Place × Value)
  | _, [] => []
  | current, .blank :: items => assignments current items
  | _, .header name :: items => assignments (some name) items
  | current, .pair key value :: items => ((current, key), value) :: assignments current items

/-- The last assignment to the place gives it the value. -/
def IsLast (as : List (Place × Value)) (place : Place) (value : Value) : Prop :=
  ∃ before after, as = before ++ (place, value) :: after ∧ ∀ e ∈ after, e.1 ≠ place

/-- Every line has a documented form, and the document has for each place the value that the
last line for it denotes. -/
def Means (text : Str) (doc : Document) : Prop :=
  ∃ items, List.Forall₂ LineForm (lines text) items ∧
    ∀ place value, doc.lookup place = some value ↔ IsLast (assignments none items) place value

theorem isLast_cons {as : List (Place × Value)} {e : Place × Value} {place : Place}
    {value : Value} :
    IsLast (e :: as) place value ↔
      IsLast as place value ∨ (e = (place, value) ∧ ∀ e' ∈ as, e'.1 ≠ place) := by
  constructor
  · intro h
    obtain ⟨before, after, has, hafter⟩ := h
    cases before with
    | nil =>
      obtain ⟨he, hrest⟩ := List.cons.inj has
      exact .inr ⟨he, hrest ▸ hafter⟩
    | cons b before =>
      obtain ⟨-, hrest⟩ := List.cons.inj has
      exact .inl ⟨before, after, hrest, hafter⟩
  · intro h
    cases h with
    | inl hlast =>
      obtain ⟨before, after, has, hafter⟩ := hlast
      exact ⟨e :: before, after, by simp [has], hafter⟩
    | inr hfirst =>
      obtain ⟨he, hnone⟩ := hfirst
      exact ⟨[], as, by simp [he], hnone⟩

theorem lookup_take_pair (cur : Cursor) (key : Str) (value : Value) (place : Place) :
    (cur.take (.pair key value)).doc.lookup place =
      if (cur.currentSection, key) = place then some value else cur.doc.lookup place := by
  rw [← Document.lookup_put]
  cases h : cur.currentSection with
  | none => simp [Cursor.take, h, Document.put]
  | some s => simp [Cursor.take, h, Document.put]

theorem currentSection_take_pair (cur : Cursor) (key : Str) (value : Value) :
    (cur.take (.pair key value)).currentSection = cur.currentSection := by
  cases h : cur.currentSection with
  | none => simp [Cursor.take, h]
  | some s => simp [Cursor.take, h]

/-- The items leave at each place the last value set there, or what was there before. -/
theorem lookup_takeAll (items : List Item) (cur : Cursor) (place : Place) (value : Value) :
    (items.foldl Cursor.take cur).doc.lookup place = some value ↔
      IsLast (assignments cur.currentSection items) place value ∨
        (cur.doc.lookup place = some value ∧
          ∀ e ∈ assignments cur.currentSection items, e.1 ≠ place) := by
  induction items generalizing cur with
  | nil => simp [assignments, IsLast]
  | cons item items ih =>
    cases item with
    | blank => exact ih cur
    | header name => exact ih ⟨cur.doc, some name⟩
    | pair key value' =>
      rw [List.foldl_cons, ih, currentSection_take_pair, lookup_take_pair]
      simp only [assignments, isLast_cons, List.forall_mem_cons]
      by_cases hplace : (cur.currentSection, key) = place
      · simp [hplace]
      · simp [hplace]

theorem foldlM_readLine {ls : List Str} {cur cur' : Cursor} :
    ls.foldlM (fun cur rawLine => (readLine rawLine).map cur.take) cur = some cur' ↔
      ∃ items, List.Forall₂ (fun l item => readLine l = some item) ls items ∧
        cur' = items.foldl Cursor.take cur := by
  induction ls generalizing cur with
  | nil => simp [List.forall₂_nil_left_iff, eq_comm]
  | cons l ls ih =>
    cases hl : readLine l with
    | none =>
      constructor
      · intro h
        simp [hl] at h
      · intro h
        obtain ⟨items, hitems, -⟩ := h
        cases hitems with
        | cons hhead _ => simp [hl] at hhead
    | some item =>
      simp only [List.foldlM_cons, hl, Option.map_some, Option.bind_eq_bind, Option.bind_some, ih]
      constructor
      · intro h
        obtain ⟨items, hitems, hcur⟩ := h
        exact ⟨item :: items, .cons hl hitems, hcur⟩
      · intro h
        obtain ⟨items, hitems, hcur⟩ := h
        cases hitems with
        | @cons _ item' _ items' hhead htail =>
          have hsame : item' = item := Option.some.inj (hhead.symm.trans hl)
          subst hsame
          exact ⟨items', htail, hcur⟩

theorem parse_eq_some {text : Str} {doc : Document} :
    Document.parse text = some doc ↔
      ∃ items, List.Forall₂ (fun l item => readLine l = some item) (lines text) items ∧
        doc = (items.foldl Cursor.take Cursor.start).doc := by
  unfold Document.parse
  rw [Option.map_eq_some_iff]
  constructor
  · intro h
    obtain ⟨cur, hcur, hdoc⟩ := h
    obtain ⟨items, hitems, hrun⟩ := foldlM_readLine.mp hcur
    exact ⟨items, hitems, by rw [← hdoc, hrun]⟩
  · intro h
    obtain ⟨items, hitems, hdoc⟩ := h
    exact ⟨_, foldlM_readLine.mpr ⟨items, hitems, rfl⟩, hdoc.symm⟩

theorem lookup_start (place : Place) : Cursor.start.doc.lookup place = none := by
  obtain ⟨where_, key⟩ := place
  cases where_ with
  | none => rfl
  | some s => rfl

theorem means_of_lines {text : Str} {items : List Item}
    (h : List.Forall₂ LineForm (lines text) items) :
    Means text (items.foldl Cursor.take Cursor.start).doc := by
  refine ⟨items, h, ?_⟩
  intro place value
  rw [lookup_takeAll, lookup_start]
  simp [Cursor.start]

theorem exists_items {R : Str → Item → Prop} {ls : List Str} (h : ∀ l ∈ ls, ∃ item, R l item) :
    ∃ items, List.Forall₂ R ls items := by
  induction ls with
  | nil => exact ⟨[], .nil⟩
  | cons l ls ih =>
    obtain ⟨item, hitem⟩ := h l (by simp)
    obtain ⟨items, hitems⟩ := ih fun l' hl' => h l' (List.mem_cons_of_mem l hl')
    exact ⟨item :: items, .cons hitem hitems⟩

theorem exists_of_mem {R : Str → Item → Prop} {ls : List Str} {items : List Item}
    (h : List.Forall₂ R ls items) : ∀ l ∈ ls, ∃ item, R l item := by
  induction h with
  | nil => simp
  | cons hhead _ ih =>
    intro l hl
    cases List.mem_cons.mp hl with
    | inl heq => exact ⟨_, heq ▸ hhead⟩
    | inr hmem => exact ih l hmem

/-- The parser accepts what is documented, as what it means, and nothing else. -/
def ParsedAsDocumented (text : Str) : Prop :=
  (∀ doc, Document.parse text = some doc → Means text doc) ∧
    ((∃ doc, Means text doc) → Document.parse text ≠ none)

/-- A literal is accepted as a value exactly when it is accepted as an array element. -/
def SameInArray (body : Str) : Prop :=
  ∀ text, parseValue (literal body) = some (.string text) ↔
    parseValue ('[' :: literal body ++ [']']) = some (.stringArray [text])

theorem parse_ne_none_of_means {text : Str} {doc : Document} (h : Means text doc) :
    Document.parse text ≠ none := by
  obtain ⟨items, hitems, -⟩ := h
  have hread : List.Forall₂ (fun l item => readLine l = some item) (lines text) items :=
    hitems.imp fun _ _ hform => hform.readLine_eq
  rw [parse_eq_some.mpr ⟨items, hread, rfl⟩]
  simp

theorem parsedAsDocumented_iff (text : Str) :
    ParsedAsDocumented text ↔ (∀ l ∈ lines text, ¬LooseLine l) ∨
      ∃ l ∈ lines text, ¬LooseLine l ∧ ∀ item, ¬LineForm l item := by
  constructor
  · intro h
    by_contra hcond
    simp only [not_or, not_forall, not_exists, not_and, not_not] at hcond
    obtain ⟨⟨l, hl, hloose⟩, hother⟩ := hcond
    -- every line is read, so the text is accepted with the loose line in it
    have hread : ∀ l ∈ lines text, ∃ item, readLine l = some item := by
      intro l' hl'
      by_cases hloose' : LooseLine l'
      · obtain ⟨key, text', hsome⟩ := hloose'.readLine_some
        exact ⟨_, hsome⟩
      · obtain ⟨item, hform⟩ := hother l' hl' hloose'
        exact ⟨item, hform.readLine_eq⟩
    obtain ⟨items, hitems⟩ := exists_items hread
    obtain ⟨items', hforms, -⟩ := h.1 _ (parse_eq_some.mpr ⟨items, hitems, rfl⟩)
    obtain ⟨item, hform⟩ := exists_of_mem hforms l hl
    exact hloose.not_lineForm item hform
  · intro h
    refine ⟨?_, fun hmeans => parse_ne_none_of_means hmeans.choose_spec⟩
    intro doc hdoc
    obtain ⟨items, hitems, hrun⟩ := parse_eq_some.mp hdoc
    cases h with
    | inl hnone =>
      have hforms : List.Forall₂ LineForm (lines text) items := by
        apply List.forall₂_iff_zip.mpr
        refine ⟨hitems.length_eq, ?_⟩
        intro l item hmem
        have hread := (List.forall₂_iff_zip.mp hitems).2 hmem
        exact (lineForm_of_readLine hread).resolve_right (hnone l (List.of_mem_zip hmem).1)
      rw [hrun]
      exact means_of_lines hforms
    | inr hbad =>
      obtain ⟨l, hl, hloose, hform⟩ := hbad
      obtain ⟨item, hread⟩ := exists_of_mem hitems l hl
      cases lineForm_of_readLine hread with
      | inl hline => exact absurd hline (hform item)
      | inr hline => exact absurd hline hloose

theorem parseValue_element (body text : Str) :
    parseValue ('[' :: literal body ++ [']']) = some (.stringArray [text]) ↔
      Decodes body text := by
  rw [parseValue_bracketed]
  constructor
  · intro h
    have hcore : trim (literal body) = literal body := by
      simpa using trim_right (tight_literal body) blank_nil
    have hne : literal body ≠ [] := (tight_literal body).nonempty
    simp only [parseStringArray, hcore, List.isEmpty_iff, hne, if_false,
      Option.map_eq_some_iff, Value.stringArray.injEq] at h
    obtain ⟨items, hitems, heq⟩ := h
    rw [heq] at hitems
    have helems := elements_of_parseItems hitems
    generalize hs : literal body = s at helems
    generalize ht : [text] = ts at helems
    cases helems with
    | @last a body' b text' ha hbody hb =>
      have hsame := congrArg trim hs
      rw [hcore, trim_of_tight ha (tight_literal body') hb] at hsame
      have hbodies : body = body' := by simpa [literal] using hsame
      have htexts : text = text' := by simpa using ht
      rw [hbodies, htexts]
      exact hbody
    | more ha hbody hb hrest =>
      cases hrest with
      | last => simp at ht
      | more => simp at ht
  · intro h
    have helems := Elements.last blank_nil h blank_nil
    rw [List.nil_append, List.append_nil] at helems
    exact helems.parseStringArray_eq

theorem sameInArray_iff (body : Str) :
    SameInArray body ↔ ¬(hasBareQuote body = true ∧ unescape body ≠ none) := by
  have hscalar : ∀ text, parseValue (literal body) = some (.string text) ↔
      unescape body = some text := by
    intro text
    simp [parseValue_literal]
  unfold SameInArray
  simp only [hscalar, parseValue_element]
  constructor
  · intro h hbad
    obtain ⟨hbare, hknown⟩ := hbad
    obtain ⟨text, htext⟩ := Option.ne_none_iff_exists'.mp hknown
    have hnot := ((h text).mp htext).no_bareQuote
    rw [hbare] at hnot
    cases hnot
  · intro h text
    constructor
    · intro htext
      apply decodes_of_unescape htext
      cases hbare : hasBareQuote body with
      | false => rfl
      | true => exact absurd ⟨hbare, by simp [htext]⟩ h
    · exact fun hdec => hdec.unescape_eq

/-- The parser is the documented one but for literals with a bare quote inside. -/
theorem parse_documented_iff (text body : Str) :
    (ParsedAsDocumented text ↔ (∀ l ∈ lines text, ¬LooseLine l) ∨
      ∃ l ∈ lines text, ¬LooseLine l ∧ ∀ item, ¬LineForm l item) ∧
    (SameInArray body ↔ ¬(hasBareQuote body = true ∧ unescape body ≠ none)) :=
  ⟨parsedAsDocumented_iff text, sameInArray_iff body⟩

/-- `x = "a"b"` -/
def bareQuoteText : Str := "x = \"a\"b\"".toList

theorem stripComment_bareQuoteText : stripComment bareQuoteText =
    [] ++ ("x".toList ++ [' '] ++ '=' :: ([' '] ++ literal "a\"b".toList)) ++ [] := by
  decide

theorem looseLine_bareQuoteText : LooseLine bareQuoteText :=
  ⟨[], "x".toList, [' '], [' '], "a\"b".toList, [], stripComment_bareQuoteText, blank_nil,
    by decide, blank_space, blank_space, blank_nil, by decide, by decide⟩

theorem readLine_bareQuoteText :
    readLine bareQuoteText = some (.pair "x".toList (.string "a\"b".toList)) := by
  rw [readLine_pair stripComment_bareQuoteText blank_nil (by decide) blank_space blank_space
    (tight_literal _) blank_nil, parseValue_literal]
  rfl

/-- The line is accepted as `a"b`, though it has no documented form, and the same literal is
refused in an array. -/
theorem bareQuoteText_accepted :
    (∃ doc, Document.parse bareQuoteText = some doc ∧
      doc.rootString "x".toList = some "a\"b".toList ∧ ¬Means bareQuoteText doc) ∧
    parseValue (literal "a\"b".toList) = some (.string "a\"b".toList) ∧
    ∀ text, parseValue ('[' :: literal "a\"b".toList ++ [']']) ≠ some (.stringArray [text]) := by
  have hline : lines bareQuoteText = [bareQuoteText] := by decide
  refine ⟨⟨_, parse_eq_some.mpr ⟨[.pair "x".toList (.string "a\"b".toList)], ?_, rfl⟩, ?_, ?_⟩,
    ?_, ?_⟩
  · rw [hline]
    exact .cons readLine_bareQuoteText .nil
  · simp [Cursor.take, Cursor.start, Document.setRoot, Document.rootString, Value.asString]
  · intro hmeans
    obtain ⟨items, hforms, -⟩ := hmeans
    obtain ⟨item, hform⟩ := exists_of_mem hforms bareQuoteText (by simp [hline])
    exact looseLine_bareQuoteText.not_lineForm item hform
  · rw [parseValue_literal]
    rfl
  · intro text h
    exact absurd ((parseValue_element _ text).mp h).no_bareQuote (by decide)

end Fsys.TomlLite
