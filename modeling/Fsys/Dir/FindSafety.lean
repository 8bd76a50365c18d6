import Fsys.Dir.Find

/-!
# What `find` returns

The entries below the base in depth-first order, each directory sorted by name, and of these
the ones that an alternative of the pattern selects.
-/

namespace Fsys.Dir

open Fsys.Base

/-! ### The entries in order -/

structure Visited where
  path : List FileName
  /-- The names below the base, as text. -/
  names : List Str
  isDir : Bool

mutual

/-- Everything below the directory that is reached through directories with UTF-8 names. -/
def visit (dir : List FileName) (names : List Str) (items : Items FileName) : List Visited :=
  match _h : collect items with
  | .error _ => []
  | .ok entries => visitEntries dir names (sortByName entries)
termination_by 2 * weight items + 1
decreasing_by
  rw [totalWeight_sortByName, weight_of_collect _h]
  omega

def visitEntries (dir : List FileName) (names : List Str)
    (entries : List (FileName × Node FileName)) : List Visited :=
  match entries with
  | [] => []
  | (name, node) :: rest =>
    match name.toStr with
    | none => visitEntries dir names rest
    | some nameStr =>
      let below :=
        match node with
        | .leaf _ => []
        | .unreadable _ => []
        | .dir sub => visit (dir ++ [name]) (names ++ [nameStr]) sub
      ⟨dir ++ [name], names ++ [nameStr], node.isDir⟩ :: (below ++ visitEntries dir names rest)
termination_by 2 * totalWeight entries
decreasing_by
  · exact totalWeight_lt name node rest
  · simp only [totalWeight_cons, Node.weight]
    omega
  · exact totalWeight_lt name _ rest

end

/-- Every entry of the tree can be read. -/
def Items.Readable {N : Type} : Items N → Prop
  | .nil => True
  | .fails _ _ => False
  | .leaf _ kind rest => (∃ k, kind = .ok k) ∧ rest.Readable
  | .unreadable _ _ _ => False
  | .dir _ sub rest => sub.Readable ∧ rest.Readable

def Node.Readable {N : Type} : Node N → Prop
  | .leaf _ => True
  | .unreadable _ => False
  | .dir sub => sub.Readable

/-- What the entries of a directory say about the paths below it. -/
structure Entries {N : Type} (items : Items N) (entries : List (N × Node N)) : Prop where
  readable : ∀ e ∈ entries, e.2.Readable
  names : entries.map Prod.fst = items.names
  below : ∀ q, Below items q ↔ ∃ e ∈ entries, q = [e.1] ∨
    ∃ sub q', e.2 = .dir sub ∧ q = e.1 :: q' ∧ Below sub q'
  distinct : items.Distinct → (entries.map Prod.fst).Nodup ∧
    ∀ e ∈ entries, ∀ sub, e.2 = .dir sub → sub.Distinct

theorem entries_of_readable {N : Type} {items : Items N} (h : items.Readable) :
    ∃ entries, collect items = .ok entries ∧ Entries items entries := by
  induction items with
  | nil =>
    refine ⟨[], rfl, by simp, rfl, ?_, by simp⟩
    intro q
    simp [below_nil]
  | fails e rest ih => cases h
  | unreadable name e rest ih => cases h
  | leaf name kind rest ih =>
    obtain ⟨⟨k, hk⟩, hrest⟩ := h
    obtain ⟨es, hes, hprops⟩ := ih hrest
    subst hk
    refine ⟨(name, .leaf k) :: es, by simp [collect, hes, Except.map], ?_, ?_, ?_, ?_⟩
    · intro e he
      cases List.mem_cons.mp he with
      | inl heq => simp [heq, Node.Readable]
      | inr hmem => exact hprops.readable e hmem
    · simp [Items.names, hprops.names]
    · intro q
      simp [below_leaf, hprops.below]
    · intro hd
      obtain ⟨hnot, hdistinct⟩ := hd
      obtain ⟨hnodup, hsub⟩ := hprops.distinct hdistinct
      refine ⟨?_, ?_⟩
      · rw [List.map_cons, List.nodup_cons, hprops.names]
        exact ⟨hnot, hprops.names ▸ hnodup⟩
      · intro e he sub heq
        cases List.mem_cons.mp he with
        | inl h => simp [h] at heq
        | inr hmem => exact hsub e hmem sub heq
  | dir name sub rest _ ih =>
    obtain ⟨hsubr, hrest⟩ := h
    obtain ⟨es, hes, hprops⟩ := ih hrest
    refine ⟨(name, .dir sub) :: es, by simp [collect, hes, Except.map], ?_, ?_, ?_, ?_⟩
    · intro e he
      cases List.mem_cons.mp he with
      | inl heq =>
        rw [heq]
        exact hsubr
      | inr hmem => exact hprops.readable e hmem
    · simp [Items.names, hprops.names]
    · intro q
      rw [below_dir, hprops.below]
      simp [or_assoc]
    · intro hd
      obtain ⟨hnot, hsubd, hdistinct⟩ := hd
      obtain ⟨hnodup, hsub⟩ := hprops.distinct hdistinct
      refine ⟨?_, ?_⟩
      · rw [List.map_cons, List.nodup_cons, hprops.names]
        exact ⟨hnot, hprops.names ▸ hnodup⟩
      · intro e he sub' heq
        cases List.mem_cons.mp he with
        | inl h =>
          rw [h] at heq
          cases heq
          exact hsubd
        | inr hmem => exact hsub e hmem sub' heq

theorem weight_le_totalWeight {N : Type} {entries : List (N × Node N)} {e : N × Node N}
    (he : e ∈ entries) : e.2.weight ≤ totalWeight entries := by
  induction entries with
  | nil => cases he
  | cons a entries ih =>
    obtain ⟨name, node⟩ := a
    rw [totalWeight_cons]
    cases List.mem_cons.mp he with
    | inl heq =>
      simp only [heq]
      omega
    | inr hmem =>
      have := ih hmem
      omega

/-- Induction over a readable tree, from the directories in a directory to itself. -/
theorem Items.Readable.induction {P : Items FileName → Prop} {items : Items FileName}
    (h : items.Readable)
    (step : ∀ items entries, items.Readable → collect items = .ok entries →
      Entries items entries → (∀ e ∈ entries, ∀ sub, e.2 = .dir sub → P sub) → P items) :
    P items := by
  induction hn : weight items using Nat.strong_induction_on generalizing items with
  | _ n ih =>
    obtain ⟨entries, hcollect, hentries⟩ := entries_of_readable h
    apply step items entries h hcollect hentries
    intro e he sub hsub
    have hreadable := hentries.readable e he
    have hweight := weight_le_totalWeight he
    rw [weight_of_collect hcollect, hn, hsub, Node.weight] at hweight
    rw [hsub] at hreadable
    exact ih (weight sub) (by omega) hreadable rfl

def visitBelow (dir : List FileName) (names : List Str) (name : FileName) (nameStr : Str) :
    Node FileName → List Visited
  | .leaf _ => []
  | .unreadable _ => []
  | .dir sub => visit (dir ++ [name]) (names ++ [nameStr]) sub

/-- An entry with all that is below it. -/
def visitEntry (dir : List FileName) (names : List Str) (e : FileName × Node FileName) :
    List Visited :=
  match e.1.toStr with
  | none => []
  | some nameStr =>
    ⟨dir ++ [e.1], names ++ [nameStr], e.2.isDir⟩ :: visitBelow dir names e.1 nameStr e.2

theorem visitEntries_eq (dir : List FileName) (names : List Str)
    (entries : List (FileName × Node FileName)) :
    visitEntries dir names entries = entries.flatMap (visitEntry dir names) := by
  induction entries with
  | nil => rw [visitEntries, List.flatMap_nil]
  | cons e entries ih =>
    obtain ⟨name, node⟩ := e
    rw [visitEntries, List.flatMap_cons, ← ih, visitEntry]
    cases name.toStr with
    | none => rfl
    | some nameStr => cases node <;> rfl

theorem visit_eq {items : Items FileName} {entries : List (FileName × Node FileName)}
    (h : collect items = .ok entries) (dir : List FileName) (names : List Str) :
    visit dir names items = (sortByName entries).flatMap (visitEntry dir names) := by
  rw [visit, ← visitEntries_eq]
  split
  · rename_i heq
    rw [h] at heq
    cases heq
  · rename_i heq
    rw [h] at heq
    cases heq
    rfl

/-- The path and its names as text. -/
def Spells (q : List FileName) (ts : List Str) : Prop :=
  List.Forall₂ (fun n t => n.toStr = some t) q ts

/-- What is visited is below the directory. -/
theorem below_of_mem_visit {items : Items FileName} (h : items.Readable)
    {dir : List FileName} {names : List Str} {v : Visited} (hv : v ∈ visit dir names items) :
    ∃ q ts, v.path = dir ++ q ∧ v.names = names ++ ts ∧ Spells q ts ∧ Below items q := by
  revert dir names v
  apply h.induction
  · intro items entries _ hcollect hentries ih dir names v hv
    rw [visit_eq hcollect, List.mem_flatMap] at hv
    obtain ⟨e, he, hve⟩ := hv
    have hmem : e ∈ entries := (perm_sortByName entries).mem_iff.mp he
    unfold visitEntry at hve
    cases hname : e.1.toStr with
    | none => simp [hname] at hve
    | some t =>
      simp only [hname] at hve
      cases List.mem_cons.mp hve with
      | inl heq =>
        refine ⟨[e.1], [t], by rw [heq], by rw [heq], .cons hname .nil, ?_⟩
        exact (hentries.below _).mpr ⟨e, hmem, .inl rfl⟩
      | inr hbelow =>
        cases hnode : e.2 with
        | leaf k => simp [visitBelow, hnode] at hbelow
        | unreadable err => simp [visitBelow, hnode] at hbelow
        | dir sub =>
          rw [hnode] at hbelow
          obtain ⟨q, ts, hpath, hnames, hspells, hsub⟩ := ih e hmem sub hnode hbelow
          refine ⟨e.1 :: q, t :: ts, by simp [hpath], by simp [hnames], .cons hname hspells, ?_⟩
          exact (hentries.below _).mpr ⟨e, hmem, .inr ⟨sub, q, hnode, rfl, hsub⟩⟩

/-- Everything below the directory that is spelled in UTF-8 is visited. -/
theorem mem_visit_of_below {items : Items FileName} (h : items.Readable) {q : List FileName}
    {ts : List Str} (hq : Below items q) (hspells : Spells q ts) (dir : List FileName)
    (names : List Str) : ∃ v ∈ visit dir names items, v.path = dir ++ q := by
  revert q ts
  revert dir names
  apply h.induction
  · intro items entries _ hcollect hentries ih dir names q ts hq hspells
    obtain ⟨e, he, hcase⟩ := (hentries.below q).mp hq
    have hsorted : e ∈ sortByName entries := (perm_sortByName entries).mem_iff.mpr he
    rw [visit_eq hcollect]
    obtain heq | ⟨sub, q', hnode, heq, hsub⟩ := hcase
    · rw [heq] at hspells
      cases hspells with
      | @cons _ t _ _ hname _ =>
        refine ⟨⟨dir ++ [e.1], names ++ [t], e.2.isDir⟩, ?_, by simp [heq]⟩
        exact List.mem_flatMap.mpr ⟨e, hsorted, by simp [visitEntry, hname]⟩
    · rw [heq] at hspells
      cases hspells with
      | @cons _ t _ _ hname htail =>
        obtain ⟨v, hv, hpath⟩ := ih e he sub hnode (dir ++ [e.1]) (names ++ [t]) hsub htail
        refine ⟨v, ?_, by simp [hpath, heq]⟩
        exact List.mem_flatMap.mpr
          ⟨e, hsorted, by simp [visitEntry, hname, visitBelow, hnode, hv]⟩

theorem Below.ne_nil {N : Type} {items : Items N} {q : List N} (h : Below items q) : q ≠ [] := by
  obtain ⟨name, q', hq, -⟩ := h.head
  simp [hq]

/-- What an entry contributes starts with its own path. -/
theorem path_of_mem_visitEntry {dir : List FileName} {names : List Str}
    {e : FileName × Node FileName} (h : e.2.Readable) {v : Visited}
    (hv : v ∈ visitEntry dir names e) : ∃ q, v.path = dir ++ e.1 :: q := by
  unfold visitEntry at hv
  cases hname : e.1.toStr with
  | none => simp [hname] at hv
  | some t =>
    simp only [hname] at hv
    cases List.mem_cons.mp hv with
    | inl heq => exact ⟨[], by rw [heq]⟩
    | inr hbelow =>
      cases hnode : e.2 with
      | leaf k => simp [visitBelow, hnode] at hbelow
      | unreadable err => simp [visitBelow, hnode] at hbelow
      | dir sub =>
        rw [hnode] at h hbelow
        obtain ⟨q, ts, hpath, -⟩ := below_of_mem_visit h hbelow
        exact ⟨q, by simp [hpath]⟩

theorem nodup_visitEntry {dir : List FileName} {names : List Str} {e : FileName × Node FileName}
    (h : e.2.Readable)
    (hsub : ∀ sub, e.2 = .dir sub → ∀ dir names, ((visit dir names sub).map Visited.path).Nodup) :
    ((visitEntry dir names e).map Visited.path).Nodup := by
  unfold visitEntry
  cases hname : e.1.toStr with
  | none => simp
  | some t =>
    cases hnode : e.2 with
    | leaf k => simp [visitBelow]
    | unreadable err => simp [visitBelow]
    | dir sub =>
      rw [hnode] at h
      simp only [visitBelow, List.map_cons, List.nodup_cons]
      refine ⟨?_, hsub sub hnode _ _⟩
      intro hmem
      obtain ⟨v, hv, hpath⟩ := List.mem_map.mp hmem
      obtain ⟨q, ts, hq, -, -, hbelow⟩ := below_of_mem_visit h hv
      rw [hpath] at hq
      exact hbelow.ne_nil (by simpa using hq)

/-- Every entry is visited once. -/
theorem nodup_visit {items : Items FileName} (h : items.Readable) (hd : items.Distinct)
    (dir : List FileName) (names : List Str) :
    ((visit dir names items).map Visited.path).Nodup := by
  revert dir names hd
  apply h.induction
  · intro items entries _ hcollect hentries ih hd dir names
    obtain ⟨hnodup, hsubs⟩ := hentries.distinct hd
    have hmem : ∀ e ∈ sortByName entries, e ∈ entries := fun e he =>
      (perm_sortByName entries).mem_iff.mp he
    have hnames : (sortByName entries).Pairwise fun a b => a.1 ≠ b.1 := by
      have h := ((perm_sortByName entries).map Prod.fst).nodup_iff.mpr hnodup
      exact List.pairwise_map.mp h
    rw [visit_eq hcollect, List.map_flatMap, List.nodup_flatMap]
    refine ⟨?_, ?_⟩
    · intro e he
      apply nodup_visitEntry (hentries.readable e (hmem e he))
      intro sub hsub
      exact ih e (hmem e he) sub hsub (hsubs e (hmem e he) sub hsub)
    · apply hnames.imp_of_mem
      intro a b ha hb hne p hpa hpb
      obtain ⟨v, hv, hva⟩ := List.mem_map.mp hpa
      obtain ⟨w, hw, hwb⟩ := List.mem_map.mp hpb
      obtain ⟨q, hq⟩ := path_of_mem_visitEntry (hentries.readable a (hmem a ha)) hv
      obtain ⟨r, hr⟩ := path_of_mem_visitEntry (hentries.readable b (hmem b hb)) hw
      have hpaths : dir ++ a.1 :: q = dir ++ b.1 :: r := by rw [← hq, ← hr, hva, hwb]
      exact hne (List.cons.inj (List.append_cancel_left hpaths)).1

/-! ### Paths as text -/

theorem bytes_of_toStr {b : OsString} {t : Str} (h : toStr b = some t) :
    b.data.toList = t.flatMap String.utf8EncodeChar := by
  obtain ⟨s, hs, ht⟩ := Option.map_eq_some_iff.mp h
  have hbytes : s.toByteArray = b := by
    unfold String.fromUTF8? at hs
    split at hs
    · cases hs
      rfl
    · cases hs
  rw [← hbytes, ← String.utf8Encode_toList, ht, List.utf8Encode]
  simp

theorem FileName.toStr_some {name : FileName} {t : Str} (h : name.toStr = some t) :
    t ≠ [] ∧ '/' ∉ t := by
  have hbytes := bytes_of_toStr h
  constructor
  · intro hnil
    exact name.nonempty (by rw [hbytes, hnil]; rfl)
  · intro hmem
    apply name.noSlash
    rw [hbytes]
    exact List.mem_flatMap.mpr ⟨'/', hmem, by decide⟩

theorem joinPath_append {names : List Str} (hne : names ≠ []) (t : Str) :
    joinPath (names ++ [t]) = joinPath names ++ '/' :: t := by
  induction names with
  | nil => exact absurd rfl hne
  | cons s names ih =>
    cases names with
    | nil => simp [joinPath]
    | cons s' names =>
      have hrest := ih (by simp)
      simp only [joinPath, List.cons_append, List.intercalate_cons_cons] at hrest ⊢
      rw [hrest]
      simp

theorem joinPath_ne_nil {names : List Str} (hne : names ≠ []) (h : ∀ t ∈ names, t ≠ []) :
    joinPath names ≠ [] := by
  cases names with
  | nil => exact absurd rfl hne
  | cons s names =>
    have hs := h s (by simp)
    cases names with
    | nil => simpa [joinPath] using hs
    | cons s' names => simp [joinPath]

theorem childRel_joinPath {names : List Str} (h : ∀ t ∈ names, t ≠ []) (t : Str) :
    childRel (joinPath names) t = joinPath (names ++ [t]) := by
  unfold childRel
  by_cases hne : names = []
  · simp [hne, joinPath]
  · rw [joinPath_append hne, if_neg]
    simpa using joinPath_ne_nil hne h

/-! ### The walk -/

section Walk

variable {g : Glob} (m : FindMatchers g)

def FindMatchers.selects (v : Visited) : Bool :=
  m.matches (joinPath v.names) v.names.length v.isDir

/-- No pattern matches below the bound. -/
def FindMatchers.Bounded : Prop :=
  ∀ rel depth isDir, m.matches rel depth isDir = true → m.maxDepth.all (depth ≤ ·) = true

variable {m}

/-- The walk goes over one entry as `visitEntry` does. -/
theorem findEntries_eq {dir : List FileName} {names : List Str} (hnames : ∀ t ∈ names, t ≠ [])
    {entries : List (FileName × Node FileName)} (hread : ∀ e ∈ entries, e.2.Readable)
    (hsub : ∀ e ∈ entries, ∀ sub, e.2 = .dir sub → ∀ dir names out, (∀ t ∈ names, t ≠ []) →
      findWalk m dir (joinPath names) names.length sub out =
        .ok (out ++ ((visit dir names sub).filter m.selects).map Visited.path))
    (out : List (List FileName)) :
    findEntries m dir (joinPath names) names.length entries out =
      .ok (out ++ ((entries.flatMap (visitEntry dir names)).filter m.selects).map
        Visited.path) := by
  induction entries generalizing out with
  | nil => simp [findEntries]
  | cons e entries ih =>
    obtain ⟨name, node⟩ := e
    have hrest := ih (fun e he => hread e (List.mem_cons_of_mem _ he))
      fun e he => hsub e (List.mem_cons_of_mem _ he)
    have hnode := hread (name, node) (by simp)
    rw [findEntries, List.flatMap_cons]
    cases hname : name.toStr with
    | none =>
      simp only [visitEntry, hname, List.nil_append]
      exact hrest out
    | some t =>
      have ht : ∀ s ∈ names ++ [t], s ≠ [] := by
        intro s hs
        cases List.mem_append.mp hs with
        | inl h => exact hnames s h
        | inr h => exact List.mem_singleton.mp h ▸ (FileName.toStr_some hname).1
      have hsel : m.matches (childRel (joinPath names) t) (names.length + 1) node.isDir =
          m.selects ⟨dir ++ [name], names ++ [t], node.isDir⟩ := by
        simp [FindMatchers.selects, childRel_joinPath hnames]
      have hout : (if m.matches (childRel (joinPath names) t) (names.length + 1) node.isDir = true
            then out ++ [dir ++ [name]] else out) =
          out ++ (([⟨dir ++ [name], names ++ [t], node.isDir⟩] : List Visited).filter
            m.selects).map Visited.path := by
        rw [hsel]
        cases hs : m.selects ⟨dir ++ [name], names ++ [t], node.isDir⟩ with
        | false => simp [hs]
        | true => simp [hs]
      simp only [hout]
      cases node with
      | unreadable err => exact absurd hnode (by simp [Node.Readable])
      | leaf k =>
        simp only [hrest]
        simp [visitEntry, hname, visitBelow, List.filter_cons]
        split <;> simp
      | dir sub =>
        have hwalk := hsub (name, .dir sub) (by simp) sub rfl (dir ++ [name]) (names ++ [t])
        rw [List.length_append, List.length_singleton] at hwalk
        simp only [childRel_joinPath hnames, hwalk _ ht, hrest]
        simp [visitEntry, hname, visitBelow, List.filter_cons]
        split <;> simp

theorem findWalk_eq (hbounded : m.Bounded) {items : Items FileName} (h : items.Readable)
    {names : List Str} (hnames : ∀ t ∈ names, t ≠ []) (dir : List FileName)
    (out : List (List FileName)) :
    findWalk m dir (joinPath names) names.length items out =
      .ok (out ++ ((visit dir names items).filter m.selects).map Visited.path) := by
  revert out dir names
  apply h.induction
  · intro items entries hitems hcollect hentries ih names hnames dir out
    rw [findWalk]
    split
    · -- at the bound: what is below is deeper than every pattern
      rename_i hmax
      obtain ⟨a, ha, hle⟩ := (Option.any_eq_true _ _).mp hmax
      have hnone : (visit dir names items).filter m.selects = [] := by
        rw [List.filter_eq_nil_iff]
        intro v hv hsel
        obtain ⟨q, ts, -, hvnames, hspells, hbelow⟩ := below_of_mem_visit hitems hv
        have hlen : q.length = ts.length := hspells.length_eq
        have hpos : 0 < q.length := List.length_pos_of_ne_nil hbelow.ne_nil
        have hdepth := hbounded _ _ _ hsel
        simp only [ha, Option.all_some, decide_eq_true_eq, hvnames, List.length_append] at hdepth hle
        omega
      simp [hnone]
    · split
      · rename_i heq
        rw [hcollect] at heq
        cases heq
      · rename_i entries' heq
        rw [hcollect] at heq
        cases heq
        have hmem : ∀ e ∈ sortByName entries, e ∈ entries := fun e he =>
          (perm_sortByName entries).mem_iff.mp he
        rw [visit_eq hcollect]
        apply findEntries_eq hnames
        · exact fun e he => hentries.readable e (hmem e he)
        · intro e he sub hsub dir' names' out' hnames'
          exact ih e (hmem e he) sub hsub hnames' dir' out'

end Walk

/-! ### The compiled pattern -/

section Compile

variable {g : Glob}

/-- An alternative, compiled. -/
def patternOf (comps : List Str) (compiled : g.Pattern) : FindPattern g :=
  ⟨compiled, if comps.contains stars then none else some comps.length,
    comps.getLast? == some stars⟩

/-- The alternative takes the entry. -/
def altMatches (g : Glob) (rel : Str) (depth : ℕ) (isDir : Bool) (alt : Str) : Bool :=
  !(components alt).isEmpty &&
    match g.new (joinPath (components alt)) with
    | .error _ => false
    | .ok compiled => (patternOf (components alt) compiled).matches rel depth isDir

def isRootAlt (alt : Str) : Bool := (components alt).all (· == stars)

/-- The bound is no less than the depth of any pattern. -/
def FindMatchers.Deep (m : FindMatchers g) : Prop :=
  ∀ p ∈ m.patterns, ∀ a, m.maxDepth = some a → ∃ d, p.depth = some d ∧ d ≤ a

theorem FindMatchers.Deep.bounded {m : FindMatchers g} (h : m.Deep) : m.Bounded := by
  intro rel depth isDir hmatch
  obtain ⟨p, hp, hpm⟩ := List.any_eq_true.mp hmatch
  cases ha : m.maxDepth with
  | none => rfl
  | some a =>
    obtain ⟨d, hd, hle⟩ := h p hp a ha
    simp only [FindPattern.matches, hd, Option.all_some, Bool.and_eq_true, beq_iff_eq] at hpm
    simp only [Option.all_some, decide_eq_true_eq]
    omega

/-- What one alternative adds. -/
structure Adds (m m' : FindMatchers g) (alts : List Str) : Prop where
  matches_eq : ∀ rel depth isDir, m'.matches rel depth isDir =
    (m.matches rel depth isDir || alts.any (altMatches g rel depth isDir))
  matchRoot_eq : m'.matchRoot = (m.matchRoot || alts.any isRootAlt)
  deep : m.Deep → m'.Deep

theorem add_ok {m : FindMatchers g} {alt : Str}
    (h : components alt ≠ [] → ∃ compiled, g.new (joinPath (components alt)) = .ok compiled) :
    ∃ m', m.add alt = .ok m' ∧ Adds m m' [alt] := by
  by_cases hempty : components alt = []
  · refine ⟨⟨m.patterns, m.maxDepth, true⟩, by simp [FindMatchers.add, hempty], ?_, ?_, ?_⟩
    · intro rel depth isDir
      simp [altMatches, hempty, FindMatchers.matches]
    · simp [isRootAlt, hempty]
    · exact fun hdeep => hdeep
  · obtain ⟨compiled, hnew⟩ := h hempty
    have hisEmpty : (components alt).isEmpty = false := by simpa using hempty
    obtain ⟨m', hm', hpatterns, hroot, hmax⟩ : ∃ m', m.add alt = .ok m' ∧
        m'.patterns = m.patterns ++ [patternOf (components alt) compiled] ∧
        m'.matchRoot = (m.matchRoot || isRootAlt alt) ∧
        ∀ a, m'.maxDepth = some a → ∃ b, m.maxDepth = some b ∧ b ≤ a ∧
          ∃ d, (patternOf (components alt) compiled).depth = some d ∧ d ≤ a := by
      unfold FindMatchers.add
      simp only [hisEmpty, hnew, Bool.false_eq_true, if_false]
      refine ⟨_, rfl, rfl, ?_, ?_⟩
      · cases hall : isRootAlt alt with
        | false =>
          simp only [isRootAlt] at hall
          simp [hall]
        | true =>
          simp only [isRootAlt] at hall
          simp [hall]
      · intro a ha
        cases hb : m.maxDepth with
        | none => simp [hb] at ha
        | some b =>
          cases hd : (patternOf (components alt) compiled).depth with
          | none =>
            simp only [patternOf] at hd
            simp only [hb, hd] at ha
            cases ha
          | some d =>
            simp only [patternOf] at hd
            simp only [hb, hd, Option.some.injEq] at ha
            exact ⟨b, rfl, by omega, d, rfl, by omega⟩
    refine ⟨m', hm', ?_, by simpa using hroot, ?_⟩
    · intro rel depth isDir
      simp [FindMatchers.matches, hpatterns, altMatches, hisEmpty, hnew]
    · intro hdeep p hp a ha
      obtain ⟨b, hb, hba, hd⟩ := hmax a ha
      rw [hpatterns] at hp
      cases List.mem_append.mp hp with
      | inl hold =>
        obtain ⟨d, hpd, hdb⟩ := hdeep p hold b hb
        exact ⟨d, hpd, by omega⟩
      | inr hnew => exact List.mem_singleton.mp hnew ▸ hd

theorem compile_ok {alts : List Str}
    (h : ∀ alt ∈ alts, components alt ≠ [] →
      ∃ compiled, g.new (joinPath (components alt)) = .ok compiled)
    (m : FindMatchers g) :
    ∃ m', alts.foldlM FindMatchers.add m = .ok m' ∧ Adds m m' alts := by
  induction alts generalizing m with
  | nil => exact ⟨m, rfl, by simp, by simp, fun hdeep => hdeep⟩
  | cons alt alts ih =>
    obtain ⟨m₁, hm₁, hfirst⟩ := add_ok (m := m) (h alt (by simp))
    obtain ⟨m', hm', hrest⟩ := ih (fun a ha => h a (List.mem_cons_of_mem alt ha)) m₁
    refine ⟨m', ?_, ?_, ?_, fun hdeep => hrest.deep (hfirst.deep hdeep)⟩
    · rw [List.foldlM_cons, hm₁]
      exact hm'
    · intro rel depth isDir
      rw [hrest.matches_eq, hfirst.matches_eq]
      simp [Bool.or_assoc]
    · rw [hrest.matchRoot_eq, hfirst.matchRoot_eq]
      simp [Bool.or_assoc]

end Compile

/-! ### The result -/

theorem not_mem_of_mem_splitOn {c : Char} {s piece : Str} (h : piece ∈ s.splitOn c) :
    c ∉ piece := by
  induction s generalizing piece with
  | nil => simp_all
  | cons x s ih =>
    rw [List.splitOn_cons_eq_if_modifyHead] at h
    split at h
    · cases List.mem_cons.mp h with
      | inl heq => simp [heq]
      | inr hmem => exact ih hmem
    · rename_i hne
      cases hsplit : s.splitOn c with
      | nil => exact absurd hsplit (List.splitOn_ne_nil c s)
      | cons first rest =>
        rw [hsplit, List.modifyHead_cons] at h
        cases List.mem_cons.mp h with
        | inl heq =>
          rw [heq]
          apply List.not_mem_cons_of_ne_of_not_mem
          · intro hc
            exact hne (by simp [hc])
          · exact ih (by simp [hsplit])
        | inr hmem => exact ih (by simp [hsplit, hmem])

theorem splitOn_joinPath {comps : List Str} (hne : comps ≠ []) (h : ∀ c ∈ comps, '/' ∉ c) :
    (joinPath comps).splitOn '/' = comps :=
  List.splitOn_intercalate '/' h hne

theorem slash_not_mem_components {alt c : Str} (h : c ∈ components alt) : '/' ∉ c :=
  not_mem_of_mem_splitOn (List.mem_of_mem_filter h)

/-- `glob::Pattern` matches a pattern without `**` only against paths with as many
components. -/
def CountsComponents (g : Glob) : Prop :=
  ∀ text compiled rel, g.new text = .ok compiled → stars ∉ text.splitOn '/' →
    g.matchesWith compiled rel = true → (rel.splitOn '/').length = (text.splitOn '/').length

/-- Some alternative matches the entry's path below the base; one that ends in `**` takes
directories only. -/
def selectedBy (g : Glob) (pattern : Str) (v : Visited) : Bool :=
  (expandBraces pattern).any fun alt =>
    !(components alt).isEmpty && (v.isDir || (components alt).getLast? != some stars) &&
      match g.new (joinPath (components alt)) with
      | .error _ => false
      | .ok compiled => g.matchesWith compiled (joinPath v.names)

theorem altMatches_eq {g : Glob} (hglob : CountsComponents g) {names : List Str}
    (hne : names ≠ []) (hnames : ∀ t ∈ names, '/' ∉ t) (isDir : Bool) (alt : Str) :
    altMatches g (joinPath names) names.length isDir alt =
      (!(components alt).isEmpty && (isDir || (components alt).getLast? != some stars) &&
        match g.new (joinPath (components alt)) with
        | .error _ => false
        | .ok compiled => g.matchesWith compiled (joinPath names)) := by
  unfold altMatches
  cases hempty : (components alt).isEmpty with
  | true => rfl
  | false =>
    cases hnew : g.new (joinPath (components alt)) with
    | error e => simp
    | ok compiled =>
      have hcomps : components alt ≠ [] := by simpa using hempty
      have hsplit := splitOn_joinPath hcomps fun c hc => slash_not_mem_components hc
      -- the test of the depth is the one that `glob` makes anyway
      have hdepth : (patternOf (g := g) (components alt) compiled).depth.all (· == names.length) =
            true ∨ g.matchesWith compiled (joinPath names) = false := by
        by_cases hstars : stars ∈ components alt
        · simp [patternOf, hstars]
        · cases hmatch : g.matchesWith compiled (joinPath names) with
          | false => exact .inr rfl
          | true =>
            have hlen := hglob _ _ _ hnew (by rwa [hsplit]) hmatch
            rw [hsplit, splitOn_joinPath hne hnames] at hlen
            simp [patternOf, hstars, hlen]
      have hpattern : (patternOf (components alt) compiled).matches (joinPath names) names.length
            isDir =
          ((isDir || (components alt).getLast? != some stars) &&
            g.matchesWith compiled (joinPath names)) := by
        unfold FindPattern.matches
        cases hdepth with
        | inl hd =>
          rw [hd, Bool.true_and]
          rfl
        | inr hm =>
          have hm' : g.matchesWith (patternOf (components alt) compiled).pattern
              (joinPath names) = false := hm
          rw [hm, hm', Bool.and_false, Bool.and_false]
      change (true && (patternOf (components alt) compiled).matches _ _ _) = (true && _ && _)
      rw [hpattern, Bool.true_and, Bool.true_and]

theorem selects_eq {g : Glob} (hglob : CountsComponents g) {m : FindMatchers g} {pattern : Str}
    (hm : Adds ⟨[], some 0, false⟩ m (expandBraces pattern)) {v : Visited}
    (hne : v.names ≠ []) (hnames : ∀ t ∈ v.names, '/' ∉ t) :
    m.selects v = selectedBy g pattern v := by
  unfold FindMatchers.selects selectedBy
  rw [hm.matches_eq]
  have hnone : (⟨[], some 0, false⟩ : FindMatchers g).matches (joinPath v.names) v.names.length
      v.isDir = false := rfl
  rw [hnone, Bool.false_or]
  congr 1
  funext alt
  exact altMatches_eq hglob hne hnames v.isDir alt

theorem Spells.texts {q : List FileName} {ts : List Str} (h : Spells q ts) :
    ∀ t ∈ ts, t ≠ [] ∧ '/' ∉ t := by
  induction h with
  | nil => simp
  | cons hhead _ ih =>
    intro t ht
    cases List.mem_cons.mp ht with
    | inl heq => exact heq ▸ FileName.toStr_some hhead
    | inr hmem => exact ih t hmem

/-- The pattern is accepted: it stays below the base and every alternative is a pattern. -/
structure AcceptedPattern (g : Glob) (pattern : Str) : Prop where
  noParent : ¬"..".toList <:+: pattern
  relative : pattern.head? ≠ some '/'
  compiles : ∀ alt ∈ expandBraces pattern, components alt ≠ [] →
    ∃ compiled, g.new (joinPath (components alt)) = .ok compiled

theorem filter_selects {g : Glob} (hglob : CountsComponents g) {m : FindMatchers g}
    {pattern : Str} (hm : Adds ⟨[], some 0, false⟩ m (expandBraces pattern))
    {items : Items FileName} (h : items.Readable) (root : List FileName) :
    (visit root [] items).filter m.selects = (visit root [] items).filter (selectedBy g pattern) := by
  apply List.filter_congr
  intro v hv
  obtain ⟨q, ts, -, hnames, hspells, hbelow⟩ := below_of_mem_visit h hv
  rw [List.nil_append] at hnames
  apply selects_eq hglob hm
  · intro hnil
    have hlen : q.length = ts.length := hspells.length_eq
    rw [← hnames, hnil, List.length_nil] at hlen
    exact hbelow.ne_nil (List.length_eq_zero_iff.mp hlen)
  · intro t ht
    exact (hspells.texts t (hnames ▸ ht)).2

theorem path_visit_iff {items : Items FileName} (h : items.Readable) (root q : List FileName) :
    (∃ v ∈ visit root [] items, v.path = root ++ q) ↔ Below items q ∧ ∃ ts, Spells q ts := by
  constructor
  · intro hex
    obtain ⟨v, hv, hpath⟩ := hex
    obtain ⟨q', ts, hq', -, hspells, hbelow⟩ := below_of_mem_visit h hv
    have hsame : q' = q := List.append_cancel_left (hq'.symm.trans hpath)
    rw [← hsame]
    exact ⟨hbelow, ts, hspells⟩
  · intro hex
    obtain ⟨hbelow, ts, hspells⟩ := hex
    exact mem_visit_of_below h hbelow hspells root []

theorem nodup_result {items : Items FileName} (h : items.Readable) (hd : items.Distinct)
    (root : List FileName) (base : Bool) (p : Visited → Bool) :
    ((if base then [root] else []) ++
      ((visit root [] items).filter p).map Visited.path).Nodup := by
  have hsub : (((visit root [] items).filter p).map Visited.path).Sublist
      ((visit root [] items).map Visited.path) := List.filter_sublist.map _
  apply List.Nodup.append
  · split <;> simp
  · exact (nodup_visit h hd root []).sublist hsub
  · intro x hx hmem
    have hroot : x = root := by
      split at hx
      · exact List.mem_singleton.mp hx
      · cases hx
    obtain ⟨v, hv, hpath⟩ := List.mem_map.mp (hsub.subset hmem)
    obtain ⟨q, ts, hq, -, -, hbelow⟩ := below_of_mem_visit h hv
    rw [hpath, hroot] at hq
    exact hbelow.ne_nil (by simpa using hq)

/-- `find` returns the base, if an alternative has no component but `**`, and behind it the
selected entries in order, each of them once. -/
theorem find_returns (g : Glob) (hglob : CountsComponents g) (root : List FileName)
    (items : Items FileName) (hread : items.Readable) (hdistinct : items.Distinct) (pattern : Str)
    (hpattern : AcceptedPattern g pattern) :
    ∃ result, find g root (some (.ok items)) pattern = .ok result ∧
      result = (if (expandBraces pattern).any isRootAlt then [root] else []) ++
        ((visit root [] items).filter (selectedBy g pattern)).map Visited.path ∧
      (∀ q, (∃ v ∈ visit root [] items, v.path = root ++ q) ↔
        Below items q ∧ ∃ ts, Spells q ts) ∧
      result.Nodup ∧ ∀ p ∈ result, ∃ q, p = root ++ q ∧ (q = [] ∨ Below items q) := by
  obtain ⟨m, hcompile, hm⟩ := compile_ok hpattern.compiles (⟨[], some 0, false⟩ : FindMatchers g)
  have hdeep : m.Deep := hm.deep (by simp [FindMatchers.Deep])
  have hnil : ∀ t ∈ ([] : List Str), t ≠ [] := by simp
  have hwalk := findWalk_eq hdeep.bounded hread hnil root
  have hroot : m.matchRoot = (expandBraces pattern).any isRootAlt := by
    rw [hm.matchRoot_eq, Bool.false_or]
  refine ⟨_, ?_, rfl, path_visit_iff hread root, nodup_result hread hdistinct root _ _, ?_⟩
  · have hsafe : ¬("..".toList <:+: pattern ∨ pattern.head? = some '/') := by
      intro h
      cases h with
      | inl h => exact hpattern.noParent h
      | inr h => exact hpattern.relative h
    rw [find, if_neg hsafe, FindMatchers.compile, hcompile]
    rw [← filter_selects hglob hm hread, ← hroot]
    exact hwalk _
  · intro p hp
    cases List.mem_append.mp hp with
    | inl hbase =>
      refine ⟨[], ?_, .inl rfl⟩
      split at hbase
      · rw [List.mem_singleton.mp hbase, List.append_nil]
      · cases hbase
    | inr hentry =>
      obtain ⟨v, hv, hpath⟩ := List.mem_map.mp hentry
      obtain ⟨q, ts, hq, -, -, hbelow⟩ := below_of_mem_visit hread (List.mem_of_mem_filter hv)
      exact ⟨q, by rw [← hpath, hq], .inr hbelow⟩

/-- `glob` on patterns without metacharacters. -/
def literalGlob : Glob where
  Pattern := Str
  new text := .ok text
  matchesWith compiled rel := compiled == rel

theorem countsComponents_literalGlob : CountsComponents literalGlob := by
  intro text compiled rel hnew _ hmatch
  cases hnew
  have heq : text = rel := by simpa [literalGlob] using hmatch
  rw [heq]

theorem osString_a_nonempty : (osString ['a']).data.toList ≠ [] := by decide

theorem osString_a_noSlash : (47 : UInt8) ∉ (osString ['a']).data.toList := by decide

def fileA : FileName := ⟨osString ['a'], osString_a_nonempty, osString_a_noSlash⟩

theorem osString_b_nonempty : (osString ['b']).data.toList ≠ [] := by decide

theorem osString_b_noSlash : (47 : UInt8) ∉ (osString ['b']).data.toList := by decide

def fileB : FileName := ⟨osString ['b'], osString_b_nonempty, osString_b_noSlash⟩

/-- A directory `b` with a file `a` in it, and beside it a link `a`. -/
def twoLevels : Items FileName :=
  .dir fileB (.leaf fileA (.ok .file) .nil) (.leaf fileA (.ok .symlink) .nil)

theorem fileA_ne_fileB : fileB ≠ fileA := by
  intro h
  have hbytes := congrArg (fun n : FileName => n.bytes.data.toList) h
  exact absurd hbytes (by decide)

theorem twoLevels_distinct : twoLevels.Distinct := by
  simp [twoLevels, Items.Distinct, Items.names, fileA_ne_fileB]

theorem twoLevels_readable : twoLevels.Readable := by
  simp [twoLevels, Items.Readable]

def bracesPattern : Str := ['{', 'a', ',', 'b', '/', 'a', '}']

theorem acceptedPattern_braces : AcceptedPattern literalGlob bracesPattern := by
  constructor
  · intro h
    have hdot : '.' ∈ bracesPattern := h.subset (by simp)
    exact absurd hdot (by decide)
  · decide
  · intro alt _ _
    exact ⟨_, rfl⟩

theorem find_returns_braces :
    ∃ result, find literalGlob [] (some (.ok twoLevels)) bracesPattern = .ok result ∧
      result.Nodup ∧ ∀ p ∈ result, p = [] ∨ Below twoLevels p := by
  obtain ⟨result, hfind, -, -, hnodup, hbelow⟩ := find_returns literalGlob
    countsComponents_literalGlob [] twoLevels twoLevels_readable twoLevels_distinct
    bracesPattern acceptedPattern_braces
  refine ⟨result, hfind, hnodup, ?_⟩
  intro p hp
  obtain ⟨q, hq, hcase⟩ := hbelow p hp
  rw [List.nil_append] at hq
  rw [hq]
  exact hcase

end Fsys.Dir
