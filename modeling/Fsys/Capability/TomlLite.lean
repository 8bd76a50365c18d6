import Mathlib.Data.Char
import Mathlib.Data.List.Lex
import Fsys.Base.OrdMap
import Fsys.Base.Text

/-!
# The text of the capability cache

The subset of TOML that the cache file uses (`src/capability/toml_lite.rs`): the document, its
serializer and its parser.
-/

namespace Fsys.TomlLite

open Fsys.Base

inductive Value where
  | string (s : Str)
  | integer (i : Int64)
  | boolean (b : Bool)
  | stringArray (items : List Str)
  deriving DecidableEq

abbrev Table := OrdMap Str Value

structure Document where
  root : Table
  sections : OrdMap Str Table
  deriving DecidableEq

/-! ### The document -/

def Document.new : Document := ⟨.empty, .empty⟩

def Document.setRoot (doc : Document) (key : Str) (value : Value) : Document :=
  ⟨doc.root.insert key value, doc.sections⟩

def Document.set (doc : Document) (section_ key : Str) (value : Value) : Document :=
  let tbl := (doc.sections.get section_).getD .empty
  ⟨doc.root, doc.sections.insert section_ (tbl.insert key value)⟩

/-- The value a section has under a key. -/
def Document.sectionValue (doc : Document) (section_ key : Str) : Option Value :=
  (doc.sections.get section_).bind (·.get key)

def Value.asInt : Value → Option Int64
  | .integer i => some i
  | _ => none

def Value.asString : Value → Option Str
  | .string s => some s
  | _ => none

def Value.asBool : Value → Option Bool
  | .boolean b => some b
  | _ => none

def Value.asStrings : Value → Option (List Str)
  | .stringArray items => some items
  | _ => none

def Document.rootInt (doc : Document) (key : Str) : Option Int64 :=
  (doc.root.get key).bind Value.asInt

def Document.rootString (doc : Document) (key : Str) : Option Str :=
  (doc.root.get key).bind Value.asString

def Document.sectionBool (doc : Document) (section_ key : Str) : Option Bool :=
  (doc.sectionValue section_ key).bind Value.asBool

def Document.sectionInt (doc : Document) (section_ key : Str) : Option Int64 :=
  (doc.sectionValue section_ key).bind Value.asInt

def Document.sectionString (doc : Document) (section_ key : Str) : Option Str :=
  (doc.sectionValue section_ key).bind Value.asString

def Document.sectionStrings (doc : Document) (section_ key : Str) : Option (List Str) :=
  (doc.sectionValue section_ key).bind Value.asStrings

/-! ### The serializer -/

def escapeChar (ch : Char) : Str :=
  if ch = '\\' then ['\\', '\\']
  else if ch = '"' then ['\\', '"']
  else if ch = '\n' then ['\\', 'n']
  else if ch = '\r' then ['\\', 'r']
  else if ch = '\t' then ['\\', 't']
  -- every other control character is dropped
  else if ch.toNat < 0x20 then []
  else [ch]

def pushEscaped (out s : Str) : Str := out ++ s.flatMap escapeChar

def quoted (s : Str) : Str := pushEscaped ['"'] s ++ ['"']

/-- `i64::to_string`. -/
def i64Text (i : Int64) : Str :=
  if i.toInt < 0 then '-' :: decimal i.toInt.natAbs else decimal i.toInt.natAbs

def valueText : Value → Str
  | .string s => quoted s
  | .integer i => i64Text i
  | .boolean b => if b then "true".toList else "false".toList
  | .stringArray v => '[' :: ", ".toList.intercalate (v.map quoted) ++ [']']

def pushPair (out key : Str) (value : Value) : Str :=
  out ++ key ++ " = ".toList ++ valueText value ++ ['\n']

def pushTable (out : Str) (table : Table) : Str :=
  table.pairs.foldl (fun out e => pushPair out e.1 e.2) out

def pushSection (out section_ : Str) (table : Table) : Str :=
  let out := if out ≠ [] ∧ ¬['\n', '\n'] <:+ out then out ++ ['\n'] else out
  pushTable (out ++ '[' :: section_ ++ "]\n".toList) table

def headerComment : Str :=
  "# fsys capability cache (schema 1.1.0+).\n".toList ++
    "# Regenerated on probe; safe to delete.\n\n".toList

def Document.serialize (doc : Document) : Str :=
  doc.sections.pairs.foldl (fun out e => pushSection out e.1 e.2)
    (pushTable headerComment doc.root)

/-! ### The parser -/

/-- The loop of `strip_comment`: everything before a `#` that is outside a string. -/
def scanComment (inString escape : Bool) : Str → Str
  | [] => []
  | ch :: s =>
    if escape then ch :: scanComment inString false s
    else if ch = '\\' ∧ inString then ch :: scanComment inString true s
    else if ch = '"' then ch :: scanComment (!inString) false s
    else if ch = '#' ∧ ¬inString then []
    else ch :: scanComment inString false s

def stripComment (s : Str) : Str := scanComment false false s

def isKeyChar (c : Char) : Bool := c.isAlphanum || c == '_' || c == '-'

def isValidKey (s : Str) : Bool := !s.isEmpty && s.all isKeyChar

def unescapeChar (next : Char) : Option Char :=
  if next = '\\' then some '\\'
  else if next = '"' then some '"'
  else if next = 'n' then some '\n'
  else if next = 'r' then some '\r'
  else if next = 't' then some '\t'
  else none

def unescape : Str → Option Str
  | [] => some []
  | ch :: s =>
    if ch = '\\' then
      match s with
      | [] => none
      | next :: s => (unescapeChar next).bind fun d => (unescape s).map (d :: ·)
    else (unescape s).map (ch :: ·)

/-- The inner loop of `parse_string_array`: the text up to the closing quote, and the rest. -/
def readString : Str → Option (Str × Str)
  | [] => none
  | ch :: s =>
    if ch = '\\' then
      match s with
      | [] => none
      | next :: s =>
        (unescapeChar next).bind fun d => (readString s).map fun p => (d :: p.1, p.2)
    else if ch = '"' then some ([], s)
    else (readString s).map fun p => (ch :: p.1, p.2)

theorem readString_plain {ch : Char} (hslash : ch ≠ '\\') (hquote : ch ≠ '"') (s : Str) :
    readString (ch :: s) = (readString s).map fun p => (ch :: p.1, p.2) := by
  rw [readString.eq_def]
  simp [hslash, hquote]

theorem readString_quote (s : Str) : readString ('"' :: s) = some ([], s) := by
  rw [readString.eq_def]
  simp

theorem readString_length {s text rest : Str} (h : readString s = some (text, rest)) :
    rest.length < s.length := by
  induction s using readString.induct generalizing text with
  | case1 => simp [readString] at h
  | case2 => simp [readString] at h
  | case3 next s ih =>
    simp only [readString, if_true, Option.bind_eq_some_iff, Option.map_eq_some_iff] at h
    obtain ⟨d, -, p, hp, heq⟩ := h
    cases heq
    have := ih hp
    simp only [List.length_cons]
    omega
  | case4 s hne =>
    rw [readString_quote] at h
    cases h
    simp
  | case5 ch s hne hquote ih =>
    rw [readString_plain hne hquote, Option.map_eq_some_iff] at h
    obtain ⟨p, hp, heq⟩ := h
    cases heq
    have := ih hp
    simp only [List.length_cons]
    omega

theorem length_trimStart (s : Str) : (trimStart s).length ≤ s.length :=
  (List.dropWhile_sublist _).length_le

/-- The outer loop of `parse_string_array`. -/
def parseItems (s : Str) : Option (List Str) :=
  match _hopen : trimStart s with
  | [] => none
  | q :: body =>
    if q = '"' then
      match _hread : readString body with
      | none => none
      | some (current, rest) =>
        match _hnext : trimStart rest with
        | [] => some [current]
        | c :: rest' => if c = ',' then (parseItems rest').map (current :: ·) else none
    else none
termination_by s.length
decreasing_by
  have h1 := length_trimStart s
  have h2 := readString_length _hread
  have h3 := length_trimStart rest
  simp only [_hopen, _hnext, List.length_cons] at h1 h3
  omega

def parseStringArray (inner : Str) : Option Value :=
  let inner := trim inner
  if inner.isEmpty then some (.stringArray [])
  else (parseItems inner).map .stringArray

/-- `i64::from_str`: an optional sign, then decimal digits. -/
def parseI64 (s : Str) : Option Int64 :=
  let value : Option ℤ :=
    match s with
    | [] => none
    | c :: rest =>
      let digits := if c = '-' ∨ c = '+' then rest else s
      if digits.isEmpty then none
      else (digitsValue 10 0 digits).map fun (n : ℕ) => if c = '-' then -(n : ℤ) else n
  (value.filter fun n => -2 ^ 63 ≤ n ∧ n < 2 ^ 63).map Int64.ofInt

def parseValue (s : Str) : Option Value :=
  if s = "true".toList then some (.boolean true)
  else if s = "false".toList then some (.boolean false)
  else match (stripPrefix '"' s).bind (stripSuffix '"') with
  | some stripped => (unescape stripped).map .string
  | none =>
    match (stripPrefix '[' s).bind (stripSuffix ']') with
    | some stripped => parseStringArray stripped
    | none => (parseI64 s).map .integer

def parsePair (line : Str) : Option (Str × Value) :=
  (splitOnce '=' line).bind fun p =>
    let key := trim p.1
    let rest := trim p.2
    if !isValidKey key then none
    else (parseValue rest).map fun value => (key, value)

/-- What one line says. -/
inductive Item where
  | blank
  | header (name : Str)
  | pair (key : Str) (value : Value)
  deriving DecidableEq

def readLine (rawLine : Str) : Option Item :=
  let line := trim (stripComment rawLine)
  if line.isEmpty then some .blank
  else match (stripPrefix '[' line).bind (stripSuffix ']') with
  | some stripped =>
    let name := trim stripped
    if name.isEmpty || !isValidKey name then none else some (.header name)
  | none => (parsePair line).map fun p => .pair p.1 p.2

/-- The document so far and `current_section`. -/
structure Cursor where
  doc : Document
  currentSection : Option Str
  deriving DecidableEq

def Cursor.start : Cursor := ⟨.new, none⟩

def Cursor.take (cur : Cursor) : Item → Cursor
  | .blank => cur
  | .header name => ⟨cur.doc, some name⟩
  | .pair key value =>
    match cur.currentSection with
    | none => ⟨cur.doc.setRoot key value, none⟩
    | some s => ⟨cur.doc.set s key value, some s⟩

def Document.parse (text : Str) : Option Document :=
  ((lines text).foldlM (fun cur rawLine => (readLine rawLine).map cur.take) Cursor.start).map
    Cursor.doc

end Fsys.TomlLite
