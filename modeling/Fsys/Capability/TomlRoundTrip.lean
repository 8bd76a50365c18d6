import Fsys.Capability.TomlGrammar

/-!
# The serialized text reads back

Every line that the serializer writes has a documented form, so the parser meets the pairs of
the document in order and builds the same document again.
-/

namespace Fsys.TomlLite

open Fsys.Base

/-! ### Documents as the setters build them -/

/-- No control character other than newline, carriage return and tab. -/
def IsText (s : Str) : Prop :=
  ∀ c ∈ s, 0x20 ≤ c.toNat ∨ c = '\n' ∨ c = '\r' ∨ c = '\t'

def Value.Printable : Value → Prop
  | .string s => IsText s
  | .integer _ => True
  | .boolean _ => True
  | .stringArray items => ∀ s ∈ items, IsText s

inductive SetCall where
  | setRoot (key : Str) (value : Value)
  | set (section_ key : Str) (value : Value)

def SetCall.apply (doc : Document) : SetCall → Document
  | .setRoot key value => doc.setRoot key value
  | .set section_ key value => doc.set section_ key value

def SetCall.Accepted : SetCall → Prop
  | .setRoot key value => isValidKey key = true ∧ value.Printable
  | .set section_ key value =>
    isValidKey section_ = true ∧ isValidKey key = true ∧ value.Printable

def build (calls : List SetCall) : Document := calls.foldl SetCall.apply .new

def AcceptedTable (table : Table) : Prop :=
  ∀ e ∈ table.pairs, isValidKey e.1 = true ∧ e.2.Printable

structure Document.Accepted (doc : Document) : Prop where
  root : AcceptedTable doc.root
  sections : ∀ e ∈ doc.sections.pairs,
    isValidKey e.1 = true ∧ e.2.pairs ≠ [] ∧ AcceptedTable e.2

theorem AcceptedTable.insert {table : Table} {key : Str} {value : Value}
    (h : AcceptedTable table) (hkey : isValidKey key = true) (hvalue : value.Printable) :
    AcceptedTable (table.insert key value) := by
  intro e he
  cases mem_insertPair he with
  | inl heq =>
    rw [heq]
    exact ⟨hkey, hvalue⟩
  | inr hmem => exact h e hmem

theorem insertPair_ne_nil {K V : Type*} [LinearOrder K] (k : K) (v : V) (es : List (K × V)) :
    insertPair k v es ≠ [] := by
  cases es with
  | nil => simp [insertPair]
  | cons a es =>
    unfold insertPair
    split
    · simp
    · split <;> simp

theorem accepted_new : Document.new.Accepted where
  root := by simp [AcceptedTable, Document.new, OrdMap.empty]
  sections := by simp [Document.new, OrdMap.empty]

theorem Document.Accepted.apply {doc : Document} {call : SetCall} (h : doc.Accepted)
    (hcall : call.Accepted) : (call.apply doc).Accepted := by
  cases call with
  | setRoot key value => exact ⟨h.root.insert hcall.1 hcall.2, h.sections⟩
  | set section_ key value =>
    obtain ⟨hsection, hkey, hvalue⟩ := hcall
    refine ⟨h.root, ?_⟩
    intro e he
    cases mem_insertPair he with
    | inl heq =>
      rw [heq]
      refine ⟨hsection, insertPair_ne_nil _ _ _, ?_⟩
      apply AcceptedTable.insert _ hkey hvalue
      cases hget : doc.sections.get section_ with
      | none => simp [AcceptedTable, OrdMap.empty]
      | some table => exact (h.sections _ (OrdMap.mem_of_get hget)).2.2
    | inr hmem => exact h.sections e hmem

def ValidPlace (place : Place) : Prop :=
  isValidKey place.2 = true ∧ ∀ s, place.1 = some s → isValidKey s = true

theorem Document.Accepted.put {doc : Document} {place : Place} {value : Value} (h : doc.Accepted)
    (hplace : ValidPlace place) (hvalue : value.Printable) : (doc.put place value).Accepted := by
  obtain ⟨where_, key⟩ := place
  cases where_ with
  | none =>
    have hcall : (SetCall.setRoot key value).Accepted := ⟨hplace.1, hvalue⟩
    exact h.apply hcall
  | some s =>
    have hcall : (SetCall.set s key value).Accepted := ⟨hplace.2 s rfl, hplace.1, hvalue⟩
    exact h.apply hcall

theorem Document.Accepted.putAll {doc : Document} {es : List (Place × Value)} (h : doc.Accepted)
    (hes : ∀ e ∈ es, ValidPlace e.1 ∧ e.2.Printable) : (doc.putAll es).Accepted := by
  induction es generalizing doc with
  | nil => exact h
  | cons e es ih =>
    obtain ⟨hplace, hvalue⟩ := hes e (by simp)
    exact ih (h.put hplace hvalue) fun e' he' => hes e' (List.mem_cons_of_mem e he')

theorem accepted_build {calls : List SetCall} (h : ∀ call ∈ calls, call.Accepted) :
    (build calls).Accepted := by
  have hrun : ∀ (calls : List SetCall) (doc : Document), doc.Accepted →
      (∀ call ∈ calls, call.Accepted) → (calls.foldl SetCall.apply doc).Accepted := by
    intro calls
    induction calls with
    | nil => exact fun doc hdoc _ => hdoc
    | cons call calls ih =>
      intro doc hdoc hcalls
      apply ih
      · exact hdoc.apply (hcalls call (by simp))
      · exact fun c hc => hcalls c (List.mem_cons_of_mem call hc)
  exact hrun calls .new accepted_new h

/-! ### Values -/

/-- What a character becomes: an escape, itself, or nothing. -/
theorem escapeChar_cases (c : Char) :
    (∃ x, escapeChar c = ['\\', x] ∧ unescapeChar x = some c ∧ x ≠ '\n' ∧ x ≠ '\r') ∨
    (escapeChar c = [c] ∧ 0x20 ≤ c.toNat ∧ c ≠ '\\' ∧ c ≠ '"') ∨
    (escapeChar c = [] ∧ c.toNat < 0x20 ∧ c ≠ '\n' ∧ c ≠ '\r' ∧ c ≠ '\t') := by
  by_cases hslash : c = '\\'
  · exact .inl ⟨'\\', by simp [hslash]; decide⟩
  by_cases hquote : c = '"'
  · exact .inl ⟨'"', by simp [hquote]; decide⟩
  by_cases hn : c = '\n'
  · exact .inl ⟨'n', by simp [hn]; decide⟩
  by_cases hr : c = '\r'
  · exact .inl ⟨'r', by simp [hr]; decide⟩
  by_cases ht : c = '\t'
  · exact .inl ⟨'t', by simp [ht]; decide⟩
  by_cases hlt : c.toNat < 0x20
  · exact .inr (.inr (by simp [escapeChar, hslash, hquote, hn, hr, ht, hlt]))
  · exact .inr (.inl (by simp [escapeChar, hslash, hquote, hn, hr, ht, hlt]; omega))

theorem escapeChar_decodes {c : Char} {body text : Str}
    (hc : 0x20 ≤ c.toNat ∨ c = '\n' ∨ c = '\r' ∨ c = '\t') (h : Decodes body text) :
    Decodes (escapeChar c ++ body) (c :: text) := by
  obtain ⟨x, heq, hx, -⟩ | ⟨heq, -, hslash, hquote⟩ | ⟨-, hlt, hn, hr, ht⟩ := escapeChar_cases c
  · rw [heq]
    exact .escape hx h
  · rw [heq]
    exact .plain hslash hquote h
  · simp [hn, hr, ht] at hc
    omega

theorem decodes_escaped {s : Str} (h : IsText s) : Decodes (s.flatMap escapeChar) s := by
  induction s with
  | nil => exact .nil
  | cons c s ih =>
    have hs := ih fun d hd => h d (List.mem_cons_of_mem c hd)
    exact escapeChar_decodes (h c (by simp)) hs

theorem quoted_eq (s : Str) : quoted s = literal (s.flatMap escapeChar) := by
  simp [quoted, pushEscaped, literal]

theorem elements_intercalate {s : Str} {items : List Str} (hs : IsText s)
    (h : ∀ t ∈ items, IsText t) :
    Elements (", ".toList.intercalate ((s :: items).map quoted)) (s :: items) := by
  induction items generalizing s with
  | nil =>
    have hlast := Elements.last blank_nil (decodes_escaped hs) blank_nil
    simpa [quoted_eq] using hlast
  | cons t items ih =>
    have hrest := ih (h t (by simp)) fun u hu => h u (List.mem_cons_of_mem t hu)
    have hmore := Elements.more blank_nil (decodes_escaped hs) blank_nil
      (hrest.blank_append blank_space)
    simpa [quoted_eq] using hmore

theorem intForm_i64Text (i : Int64) : ∃ sign digits, IntForm (i64Text i) i sign digits := by
  have hne : decimal i.toInt.natAbs ≠ [] := Nat.toDigits_ne_nil
  have hvalue : Nat.ofDigitChars 10 (decimal i.toInt.natAbs) 0 = i.toInt.natAbs :=
    Nat.ofDigitChars_ten_toDigits
  unfold i64Text
  split
  · rename_i hneg
    refine ⟨['-'], decimal i.toInt.natAbs, rfl, by simp, hne, all_isDigit_decimal _, ?_⟩
    rw [signedValue, if_pos rfl, hvalue]
    omega
  · rename_i hneg
    refine ⟨[], decimal i.toInt.natAbs, rfl, by simp, hne, all_isDigit_decimal _, ?_⟩
    rw [signedValue, if_neg (by simp), hvalue]
    omega

theorem valueForm_valueText {value : Value} (h : value.Printable) :
    ValueForm (valueText value) value := by
  cases value with
  | string s =>
    have hs := ValueForm.string (decodes_escaped h)
    rwa [← quoted_eq] at hs
  | integer i =>
    obtain ⟨sign, digits, hi⟩ := intForm_i64Text i
    exact .integer hi
  | boolean b =>
    cases b with
    | false => exact .isFalse
    | true => exact .isTrue
  | stringArray items =>
    cases items with
    | nil => exact .emptyArray blank_nil
    | cons s items =>
      apply ValueForm.array
      exact elements_intercalate (h s (by simp)) fun t ht => h t (List.mem_cons_of_mem s ht)

/-! ### Lines -/

def OneLine (s : Str) : Prop := '\n' ∉ s ∧ '\r' ∉ s

theorem OneLine.append {a b : Str} (ha : OneLine a) (hb : OneLine b) : OneLine (a ++ b) := by
  simp [OneLine, ha.1, ha.2, hb.1, hb.2]

theorem oneLine_of_forall {s : Str} (h : ∀ c ∈ s, c ≠ '\n' ∧ c ≠ '\r') : OneLine s :=
  ⟨fun hmem => (h _ hmem).1 rfl, fun hmem => (h _ hmem).2 rfl⟩

theorem oneLine_of_valid {key : Str} (h : isValidKey key = true) : OneLine key := by
  apply oneLine_of_forall
  intro c hc
  have hkey := isKeyChar_of_valid h c hc
  exact ⟨isKeyChar_ne hkey (by decide), isKeyChar_ne hkey (by decide)⟩

theorem oneLine_escapeChar (c : Char) : OneLine (escapeChar c) := by
  obtain ⟨x, heq, -, hn, hr⟩ | ⟨heq, hge, -⟩ | ⟨heq, -⟩ := escapeChar_cases c
  · simp [OneLine, heq, Ne.symm hn, Ne.symm hr]
  · have hn : '\n' ≠ c := by
      intro h
      subst h
      exact absurd hge (by decide)
    have hr : '\r' ≠ c := by
      intro h
      subst h
      exact absurd hge (by decide)
    simp [OneLine, heq, hn, hr]
  · simp [OneLine, heq]

theorem oneLine_quoted (s : Str) : OneLine (quoted s) := by
  have hbody : OneLine (s.flatMap escapeChar) := by
    apply oneLine_of_forall
    intro c hc
    obtain ⟨d, -, hd⟩ := List.mem_flatMap.mp hc
    have hone := oneLine_escapeChar d
    exact ⟨fun heq => hone.1 (heq ▸ hd), fun heq => hone.2 (heq ▸ hd)⟩
  have hquote : OneLine ['"'] := by simp [OneLine]
  exact (hquote.append hbody).append hquote

theorem oneLine_intercalate {sep : Str} (hsep : OneLine sep) {items : List Str}
    (h : ∀ s ∈ items, OneLine s) : OneLine (sep.intercalate items) := by
  induction items with
  | nil => simp [OneLine]
  | cons s items ih =>
    have hs := h s (by simp)
    have hitems := ih fun t ht => h t (List.mem_cons_of_mem s ht)
    cases items with
    | nil => simpa using hs
    | cons t items =>
      have hall := hs.append (hsep.append hitems)
      simpa using hall

theorem oneLine_valueText (value : Value) : OneLine (valueText value) := by
  cases value with
  | string s => exact oneLine_quoted s
  | integer i =>
    obtain ⟨sign, digits, hi⟩ := intForm_i64Text i
    apply oneLine_of_forall
    intro c hc
    cases hi.isKeyChar c hc with
    | inl hkey => exact ⟨isKeyChar_ne hkey (by decide), isKeyChar_ne hkey (by decide)⟩
    | inr hplus => simp [hplus]
  | boolean b => cases b <;> simp [valueText, OneLine]
  | stringArray items =>
    have hopen : OneLine ['['] := by simp [OneLine]
    have hclose : OneLine [']'] := by simp [OneLine]
    have hitems : OneLine (", ".toList.intercalate (items.map quoted)) := by
      apply oneLine_intercalate (by simp [OneLine])
      intro s hs
      obtain ⟨t, -, ht⟩ := List.mem_map.mp hs
      exact ht ▸ oneLine_quoted t
    exact (hopen.append hitems).append hclose

def pairLine (key : Str) (value : Value) : Str := key ++ " = ".toList ++ valueText value

theorem oneLine_pairLine {key : Str} (hkey : isValidKey key = true) (value : Value) :
    OneLine (pairLine key value) :=
  ((oneLine_of_valid hkey).append (by simp [OneLine])).append (oneLine_valueText value)

theorem lineForm_pairLine {key : Str} {value : Value} (hkey : isValidKey key = true)
    (hvalue : value.Printable) : LineForm (pairLine key value) (.pair key value) := by
  have hcontent := ContentForm.pair blank_nil hkey blank_space blank_space (valueForm_valueText hvalue)
    blank_nil
  refine ⟨pairLine key value, [], by simp, .inl rfl, ?_⟩
  simpa [pairLine] using hcontent

def sectionLine (name : Str) : Str := '[' :: name ++ [']']

theorem oneLine_sectionLine {name : Str} (hname : isValidKey name = true) :
    OneLine (sectionLine name) := by
  have hopen : OneLine ['['] := by simp [OneLine]
  have hclose : OneLine [']'] := by simp [OneLine]
  exact (hopen.append (oneLine_of_valid hname)).append hclose

theorem lineForm_sectionLine {name : Str} (hname : isValidKey name = true) :
    LineForm (sectionLine name) (.header name) := by
  have hcontent := ContentForm.header blank_nil blank_nil hname blank_nil blank_nil
  refine ⟨sectionLine name, [], by simp, .inl rfl, ?_⟩
  simpa [sectionLine] using hcontent

/-! ### The parser behind the serializer -/

/-- The text written so far is made of whole lines, and reading them gives `cur`. -/
def Reads (out : Str) (cur : Cursor) : Prop :=
  ∃ ls, out = unlines ls ∧ (∀ l ∈ ls, OneLine l) ∧
    ls.foldlM (fun cur rawLine => (readLine rawLine).map cur.take) Cursor.start = some cur

theorem Reads.parse {out : Str} {cur : Cursor} (h : Reads out cur) :
    Document.parse out = some cur.doc := by
  obtain ⟨ls, hout, hlines, hrun⟩ := h
  unfold Document.parse
  rw [hout, lines_unlines hlines, hrun]
  rfl

theorem Reads.line {out line : Str} {cur : Cursor} {item : Item} (h : Reads out cur)
    (hone : OneLine line) (hform : LineForm line item) :
    Reads (out ++ line ++ ['\n']) (cur.take item) := by
  obtain ⟨ls, hout, hlines, hrun⟩ := h
  refine ⟨ls ++ [line], ?_, ?_, ?_⟩
  · rw [unlines_append, ← hout]
    simp [unlines]
  · intro l hl
    cases List.mem_append.mp hl with
    | inl hmem => exact hlines l hmem
    | inr heq => exact List.mem_singleton.mp heq ▸ hone
  · rw [List.foldlM_append, hrun]
    simp [hform.readLine_eq]

/-- The lines of the header, each with its `#` apart. -/
theorem headerComment_eq : headerComment =
    [] ++ '#' :: " fsys capability cache (schema 1.1.0+).".toList ++ ['\n'] ++
      '#' :: " Regenerated on probe; safe to delete.".toList ++ ['\n'] ++ [] ++ ['\n'] := by
  decide +kernel

theorem reads_headerComment : Reads headerComment Cursor.start := by
  have hnil : Reads [] Cursor.start := ⟨[], rfl, by simp, rfl⟩
  have hcomment : ∀ s : Str, LineForm ('#' :: s) .blank :=
    fun s => ⟨[], '#' :: s, rfl, .inr rfl, .blank blank_nil⟩
  have hblank : LineForm [] .blank := ⟨[], [], rfl, .inl rfl, .blank blank_nil⟩
  have h1 := hnil.line (by simp [OneLine])
    (hcomment " fsys capability cache (schema 1.1.0+).".toList)
  have h2 := h1.line (by simp [OneLine]) (hcomment " Regenerated on probe; safe to delete.".toList)
  have h3 := h2.line (by simp [OneLine]) hblank
  rw [headerComment_eq]
  exact h3

theorem Reads.pushPair {out key : Str} {value : Value} {cur : Cursor} (h : Reads out cur)
    (hkey : isValidKey key = true) (hvalue : value.Printable) :
    Reads (pushPair out key value) (cur.take (.pair key value)) := by
  have hline := h.line (oneLine_pairLine hkey value) (lineForm_pairLine hkey hvalue)
  simpa [TomlLite.pushPair, pairLine] using hline

def Cursor.takePairs (cur : Cursor) (es : List (Str × Value)) : Cursor :=
  es.foldl (fun cur e => cur.take (.pair e.1 e.2)) cur

theorem Reads.pushPairs {es : List (Str × Value)} {out : Str} {cur : Cursor} (h : Reads out cur)
    (hes : ∀ e ∈ es, isValidKey e.1 = true ∧ e.2.Printable) :
    Reads (es.foldl (fun out e => TomlLite.pushPair out e.1 e.2) out) (cur.takePairs es) := by
  induction es generalizing out cur with
  | nil => exact h
  | cons e es ih =>
    obtain ⟨hkey, hvalue⟩ := hes e (by simp)
    exact ih (h.pushPair hkey hvalue) fun e' he' => hes e' (List.mem_cons_of_mem e he')

theorem Reads.pushSection {out name : Str} {table : Table} {cur : Cursor} (h : Reads out cur)
    (hname : isValidKey name = true) (htable : AcceptedTable table) :
    Reads (pushSection out name table) ((cur.take (.header name)).takePairs table.pairs) := by
  have hblank : LineForm [] .blank := ⟨[], [], rfl, .inl rfl, .blank blank_nil⟩
  have hgap : ∀ {out}, Reads out cur →
      Reads (out ++ '[' :: name ++ "]\n".toList) (cur.take (.header name)) := by
    intro out hout
    have hline := hout.line (oneLine_sectionLine hname) (lineForm_sectionLine hname)
    simpa [sectionLine] using hline
  unfold TomlLite.pushSection pushTable
  apply Reads.pushPairs _ htable
  apply hgap
  split
  · have hempty : OneLine [] := by simp [OneLine]
    have hline := h.line hempty hblank
    simpa [Cursor.take] using hline
  · exact h

/-! ### The document that is read -/

theorem takePairs_root (r : Table) (S : OrdMap Str Table) (es : List (Str × Value)) :
    Cursor.takePairs ⟨⟨r, S⟩, none⟩ es = ⟨⟨r.insertAll es, S⟩, none⟩ := by
  induction es generalizing r with
  | nil => rfl
  | cons e es ih => exact ih (r.insert e.1 e.2)

theorem takePairs_section (r : Table) (S : OrdMap Str Table) (name : Str)
    {es : List (Str × Value)} (h : es ≠ []) :
    Cursor.takePairs ⟨⟨r, S⟩, some name⟩ es =
      ⟨⟨r, S.insert name (((S.get name).getD .empty).insertAll es)⟩, some name⟩ := by
  induction es generalizing S with
  | nil => exact absurd rfl h
  | cons e es ih =>
    cases es with
    | nil => rfl
    | cons e' es =>
      have hrest := ih (S.insert name (((S.get name).getD .empty).insert e.1 e.2)) (by simp)
      rw [OrdMap.get_insert_self, OrdMap.insert_insert] at hrest
      exact hrest

/-- Reading the sections of a document in order adds each of them whole. -/
theorem reads_sections {r : Table} {es : List (Str × Table)} {out : Str}
    {S : OrdMap Str Table} {current : Option Str} (h : Reads out ⟨⟨r, S⟩, current⟩)
    (hasc : Ascending (S.pairs ++ es))
    (hes : ∀ e ∈ es, isValidKey e.1 = true ∧ e.2.pairs ≠ [] ∧ AcceptedTable e.2) :
    ∃ current', Reads (es.foldl (fun out e => pushSection out e.1 e.2) out)
      ⟨⟨r, S.insertAll es⟩, current'⟩ := by
  induction es generalizing out S current with
  | nil => exact ⟨current, h⟩
  | cons e es ih =>
    obtain ⟨hname, hne, htable⟩ := hes e (by simp)
    have hlt : ∀ a ∈ S.pairs, a.1 < e.1 := by
      intro a ha
      exact (List.pairwise_append.mp hasc).2.2 a ha e (by simp)
    have hfresh : S.get e.1 = none := OrdMap.get_eq_none fun a ha => ne_of_lt (hlt a ha)
    have hread := h.pushSection hname htable
    have htake : (Cursor.take ⟨⟨r, S⟩, current⟩ (.header e.1)).takePairs e.2.pairs =
        ⟨⟨r, S.insert e.1 e.2⟩, some e.1⟩ := by
      have hpairs := takePairs_section r S e.1 hne
      rw [hfresh, Option.getD_none, OrdMap.insertAll_pairs] at hpairs
      exact hpairs
    rw [htake] at hread
    have hpairs : (S.insert e.1 e.2).pairs = S.pairs ++ [e] := insertPair_of_lt hlt e.2
    have hasc' : Ascending ((S.insert e.1 e.2).pairs ++ es) := by simpa [hpairs] using hasc
    exact ih hread hasc' fun e' he' => hes e' (List.mem_cons_of_mem e he')

theorem Document.Accepted.parse_serialize {doc : Document} (h : doc.Accepted) :
    Document.parse doc.serialize = some doc := by
  have hroot : Reads (pushTable headerComment doc.root) ⟨⟨doc.root, .empty⟩, none⟩ := by
    have hpairs : ∀ e ∈ doc.root.pairs, isValidKey e.1 = true ∧ e.2.Printable := h.root
    have hread := Reads.pushPairs reads_headerComment hpairs
    have htake : Cursor.start.takePairs doc.root.pairs = ⟨⟨doc.root, .empty⟩, none⟩ := by
      have hpairs := takePairs_root .empty .empty doc.root.pairs
      rw [OrdMap.insertAll_pairs] at hpairs
      exact hpairs
    rw [htake] at hread
    exact hread
  obtain ⟨current, hall⟩ := reads_sections hroot doc.sections.ascending h.sections
  rw [OrdMap.insertAll_pairs] at hall
  exact hall.parse

/-- Whatever the setters built comes back from the cache file. -/
theorem parse_serialize_build (calls : List SetCall) (h : ∀ call ∈ calls, call.Accepted) :
    Document.parse (build calls).serialize = some (build calls) :=
  (accepted_build h).parse_serialize

def sampleCalls : List SetCall :=
  [.setRoot "b".toList (.string "a\"b\\ # = [x],\n\r\t ".toList),
    .setRoot "a".toList (.integer Int64.minValue),
    .set "s-1".toList "k".toList (.stringArray ["".toList, "a,\"b".toList]),
    .set "q".toList "z".toList (.stringArray [])]

theorem parse_serialize_sample :
    (∀ call ∈ sampleCalls, call.Accepted) ∧
      Document.parse (build sampleCalls).serialize = some (build sampleCalls) := by
  have h : ∀ call ∈ sampleCalls, call.Accepted := by
    simp [sampleCalls, SetCall.Accepted, Value.Printable, IsText, isValidKey, isKeyChar]
  exact ⟨h, parse_serialize_build sampleCalls h⟩

end Fsys.TomlLite
