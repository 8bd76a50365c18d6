import Mathlib.Data.List.Lex
import Mathlib.Data.List.Infix
import Mathlib.Data.List.Sort
import Mathlib.Algebra.Ring.Nat
import Fsys.Dir.Braces
import Fsys.Dir.Listing

/-!
# `find` (src/crud/dir.rs:319-348, 467-586)

The pattern is compiled to its brace alternatives; one walk below the base tests every entry
against all of them. The `glob` crate is a parameter.
-/

namespace Fsys.Dir

open Fsys.Base

/-- The name of a directory entry: some bytes, none of them a slash. -/
structure FileName where
  bytes : OsString
  nonempty : bytes.data.toList ≠ []
  noSlash : (47 : UInt8) ∉ bytes.data.toList

def FileName.toStr (name : FileName) : Option Str := Base.toStr name.bytes

/-- `OsString::cmp` compares bytes. -/
def FileName.key (name : FileName) : List ℕ := name.bytes.data.toList.map UInt8.toNat

/-- The parts of the `glob` crate that `find` calls. -/
structure Glob where
  Pattern : Type
  new : Str → Except String Pattern
  /-- `matches_with` under `FIND_MATCH_OPTIONS`. -/
  matchesWith : Pattern → Str → Bool

/-! ### Compiling the pattern (dir.rs:498-535) -/

structure FindPattern (g : Glob) where
  pattern : g.Pattern
  depth : Option ℕ
  dirsOnly : Bool

structure FindMatchers (g : Glob) where
  patterns : List (FindPattern g)
  maxDepth : Option ℕ
  matchRoot : Bool

def stars : Str := "**".toList

/-- The components of an alternative, without the empty ones and the dots. -/
def components (alt : Str) : List Str :=
  (alt.splitOn '/').filter fun c => !c.isEmpty && c != ['.']

def joinPath (comps : List Str) : Str := ['/'].intercalate comps

variable {g : Glob}

/-- One alternative. -/
def FindMatchers.add (m : FindMatchers g) (alt : Str) :
    Except (DirError Str) (FindMatchers g) :=
  let comps := components alt
  let matchRoot := if comps.all (· == stars) then true else m.matchRoot
  if comps.isEmpty then .ok ⟨m.patterns, m.maxDepth, matchRoot⟩
  else
    let recursive := comps.contains stars
    let depth := if recursive then none else some comps.length
    match g.new (joinPath comps) with
    | .error e => .error (.globPatternInvalid e)
    | .ok compiled =>
      let maxDepth := match m.maxDepth, depth with
        | some a, some b => some (max a b)
        | _, _ => none
      .ok ⟨m.patterns ++ [⟨compiled, depth, comps.getLast? == some stars⟩], maxDepth, matchRoot⟩

def FindMatchers.compile (g : Glob) (pattern : Str) : Except (DirError Str) (FindMatchers g) :=
  (expandBraces pattern).foldlM FindMatchers.add ⟨[], some 0, false⟩

def FindPattern.matches (p : FindPattern g) (rel : Str) (depth : ℕ) (isDir : Bool) : Bool :=
  (p.depth.all (· == depth)) && (isDir || !p.dirsOnly) && g.matchesWith p.pattern rel

def FindMatchers.matches (m : FindMatchers g) (rel : Str) (depth : ℕ) (isDir : Bool) : Bool :=
  m.patterns.any fun p => p.matches rel depth isDir

/-! ### The walk (dir.rs:546-586) -/

/-- What an entry is, and what reading it gives. -/
inductive Node (N : Type) where
  | leaf (kind : LeafKind)
  | unreadable (e : IoError)
  | dir (sub : Items N)

def Node.isDir {N : Type} : Node N → Bool
  | .leaf _ => false
  | .unreadable _ => true
  | .dir _ => true

/-- The first loop of `find_walk`: the entries with their types. -/
def collect {N : Type} : Items N → Except IoError (List (N × Node N))
  | .nil => .ok []
  | .fails e _ => .error e
  | .leaf name kind rest =>
    match kind with
    | .error e => .error e
    | .ok k => (collect rest).map ((name, .leaf k) :: ·)
  | .unreadable name e rest => (collect rest).map ((name, .unreadable e) :: ·)
  | .dir name sub rest => (collect rest).map ((name, .dir sub) :: ·)

def sortByName (entries : List (FileName × Node FileName)) : List (FileName × Node FileName) :=
  entries.mergeSort fun a b => a.1.key ≤ b.1.key

/-- The number of entries of a tree. -/
def weight {N : Type} : Items N → ℕ
  | .nil => 0
  | .fails _ rest => weight rest
  | .leaf _ _ rest => weight rest + 1
  | .unreadable _ _ rest => weight rest + 1
  | .dir _ sub rest => weight sub + weight rest + 1

def Node.weight {N : Type} : Node N → ℕ
  | .leaf _ => 1
  | .unreadable _ => 1
  | .dir sub => Dir.weight sub + 1

def totalWeight {N : Type} (entries : List (N × Node N)) : ℕ :=
  (entries.map fun e => e.2.weight).sum

theorem totalWeight_cons {N : Type} (name : N) (node : Node N) (rest : List (N × Node N)) :
    totalWeight ((name, node) :: rest) = node.weight + totalWeight rest := rfl

theorem totalWeight_lt {N : Type} (name : N) (node : Node N) (rest : List (N × Node N)) :
    2 * totalWeight rest < 2 * totalWeight ((name, node) :: rest) := by
  cases node <;> simp only [totalWeight_cons, Node.weight] <;> omega

theorem map_cons_ok {α : Type} {r : Except IoError (List α)} {a : α} {l : List α}
    (h : r.map (a :: ·) = .ok l) : ∃ es, r = .ok es ∧ l = a :: es := by
  cases r with
  | error e => cases h
  | ok es =>
    cases h
    exact ⟨es, rfl, rfl⟩

theorem weight_of_collect {N : Type} {items : Items N} {entries : List (N × Node N)}
    (h : collect items = .ok entries) : totalWeight entries = weight items := by
  induction items generalizing entries with
  | nil =>
    cases h
    rfl
  | fails e rest ih => cases h
  | leaf name kind rest ih =>
    cases kind with
    | error e => cases h
    | ok k =>
      obtain ⟨es, hrest, rfl⟩ := map_cons_ok h
      have hes := ih hrest
      rw [totalWeight_cons, Node.weight, weight]
      omega
  | unreadable name e rest ih =>
    obtain ⟨es, hrest, rfl⟩ := map_cons_ok h
    have hes := ih hrest
    rw [totalWeight_cons, Node.weight, weight]
    omega
  | dir name sub rest _ ih =>
    obtain ⟨es, hrest, rfl⟩ := map_cons_ok h
    have hes := ih hrest
    rw [totalWeight_cons, Node.weight, weight]
    omega

theorem perm_sortByName (entries : List (FileName × Node FileName)) :
    (sortByName entries).Perm entries :=
  List.mergeSort_perm _ _

theorem totalWeight_sortByName (entries : List (FileName × Node FileName)) :
    totalWeight (sortByName entries) = totalWeight entries :=
  ((perm_sortByName entries).map _).sum_eq

def FindMatchers.atMaxDepth (m : FindMatchers g) (depth : ℕ) : Bool :=
  m.maxDepth.any (· ≤ depth)

/-- The relative path of an entry. -/
def childRel (rel nameStr : Str) : Str := if rel.isEmpty then nameStr else rel ++ '/' :: nameStr

mutual

/-- `find_walk` on a directory that can be read. -/
def findWalk (m : FindMatchers g) (dir : List FileName) (rel : Str) (depth : ℕ)
    (items : Items FileName) (out : List (List FileName)) :
    Except (DirError Str) (List (List FileName)) :=
  if m.atMaxDepth depth then .ok out
  else
    match _h : collect items with
    | .error e => .error (.io e)
    | .ok entries => findEntries m dir rel depth (sortByName entries) out
termination_by 2 * weight items + 1
decreasing_by
  rw [totalWeight_sortByName, weight_of_collect _h]
  omega

/-- The second loop of `find_walk`. -/
def findEntries (m : FindMatchers g) (dir : List FileName) (rel : Str) (depth : ℕ)
    (entries : List (FileName × Node FileName)) (out : List (List FileName)) :
    Except (DirError Str) (List (List FileName)) :=
  match entries with
  | [] => .ok out
  | (name, node) :: rest =>
    match name.toStr with
    | none => findEntries m dir rel depth rest out
    | some nameStr =>
      let crel := childRel rel nameStr
      let child := dir ++ [name]
      let out := if m.matches crel (depth + 1) node.isDir then out ++ [child] else out
      match node with
      | .leaf _ => findEntries m dir rel depth rest out
      | .unreadable e =>
        if m.atMaxDepth (depth + 1) then findEntries m dir rel depth rest out
        else .error (.io e)
      | .dir sub =>
        match findWalk m child crel (depth + 1) sub out with
        | .error e => .error e
        | .ok out => findEntries m dir rel depth rest out
termination_by 2 * totalWeight entries
decreasing_by
  · exact totalWeight_lt name node rest
  · exact totalWeight_lt name _ rest
  · exact totalWeight_lt name _ rest
  · simp only [totalWeight_cons, Node.weight]
    omega
  · exact totalWeight_lt name _ rest

end

/-- `find` behind `resolve_path`: `reading` is `none` when the base is no directory. -/
def find (g : Glob) (root : List FileName) (reading : Option (Except IoError (Items FileName)))
    (pattern : Str) : Except (DirError Str) (List (List FileName)) :=
  if "..".toList <:+: pattern ∨ pattern.head? = some '/' then
    .error (.invalidPath pattern "glob pattern must not escape the base directory")
  else
    match FindMatchers.compile g pattern with
    | .error e => .error e
    | .ok m =>
      match reading with
      | none => .ok []
      | some reading =>
        let out := if m.matchRoot then [root] else []
        match reading with
        | .error e => if m.atMaxDepth 0 then .ok out else .error (.io e)
        | .ok items => findWalk m root [] 0 items out

end Fsys.Dir
