import Fsys.Dir.Listing

/-!
# `scan_all` (src/crud/dir.rs:238-264, 588-618)

The walk pushes every entry and goes into every directory at once. A directory that cannot be
read ends it with the entries so far; an entry that cannot be read ends it without them.
-/

namespace Fsys.Dir

open Fsys.Base

variable {N : Type} (display : List N → String)

/-- The error of a failed `read_dir` (`dir.rs:595-606`). -/
def readDirError (path : List N) (out : List (DirEntry N)) (e : IoError) : DirError (List N) :=
  if out.isEmpty then .io e
  else
    .partialDirectoryOp ("read_dir(" ++ display path ++ "): " ++ e.message)
      (out.map fun x => display x.path)

/-- The loop of `scan_into` over the entries of the directory at `path`. -/
def scanItems (recursive : Bool) :
    List N → Items N → List (DirEntry N) → Except (DirError (List N)) (List (DirEntry N))
  | _, .nil, out => .ok out
  | _, .fails e _, _ => .error (.io e)
  | path, .leaf name kind rest, out =>
    scanItems recursive path rest (out ++ [.ofLeaf path name kind])
  | path, .unreadable name e rest, out =>
    let out := out ++ [.ofDir path name]
    if recursive then .error (readDirError display (path ++ [name]) out e)
    else scanItems recursive path rest out
  | path, .dir name sub rest, out =>
    let out := out ++ [.ofDir path name]
    if recursive then
      match scanItems recursive (path ++ [name]) sub out with
      | .error e => .error e
      | .ok out => scanItems recursive path rest out
    else scanItems recursive path rest out

/-- `scan_into` on a directory that may not be readable. -/
def scanInto (recursive : Bool) (path : List N) (reading : Except IoError (Items N))
    (out : List (DirEntry N)) : Except (DirError (List N)) (List (DirEntry N)) :=
  match reading with
  | .error e => .error (readDirError display path out e)
  | .ok items => scanItems display recursive path items out

/-- `scan_all` behind `resolve_path`. -/
def scanAll (reading : Except IoError (Items N)) :
    Except (DirError (List N)) (List (DirEntry N)) := scanInto display true [] reading []

/-! ### The reads in order -/

/-- What a read gives: an entry, or the failure of an entry or of a directory. -/
inductive Event (N : Type) where
  | entry (d : DirEntry N)
  | entryFails (e : IoError)
  | dirFails (path : List N) (e : IoError)

/-- The reads of the walk if it went on after failures. -/
def events : List N → Items N → List (Event N)
  | _, .nil => []
  | path, .fails e rest => .entryFails e :: events path rest
  | path, .leaf name kind rest => .entry (.ofLeaf path name kind) :: events path rest
  | path, .unreadable name e rest =>
    .entry (.ofDir path name) :: .dirFails (path ++ [name]) e :: events path rest
  | path, .dir name sub rest =>
    .entry (.ofDir path name) :: (events (path ++ [name]) sub ++ events path rest)

/-- The walk over the reads. -/
def replay : List (Event N) → List (DirEntry N) → Except (DirError (List N)) (List (DirEntry N))
  | [], out => .ok out
  | .entry d :: rest, out => replay rest (out ++ [d])
  | .entryFails e :: _, _ => .error (.io e)
  | .dirFails path e :: _, out => .error (readDirError display path out e)

theorem replay_append (first rest : List (Event N)) (out : List (DirEntry N)) :
    replay display (first ++ rest) out =
      match replay display first out with
      | .error e => .error e
      | .ok out => replay display rest out := by
  induction first generalizing out with
  | nil => rfl
  | cons ev first ih =>
    cases ev with
    | entry d => exact ih _
    | entryFails e => rfl
    | dirFails path e => rfl

theorem replay_entries (ds : List (DirEntry N)) (rest : List (Event N)) (out : List (DirEntry N)) :
    replay display (ds.map .entry ++ rest) out = replay display rest (out ++ ds) := by
  induction ds generalizing out with
  | nil => simp
  | cons d ds ih =>
    have hcons : out ++ d :: ds = out ++ [d] ++ ds := by simp
    rw [hcons]
    exact ih _

/-- The recursion over the tree is the walk over its reads. -/
theorem scanItems_eq_replay (path : List N) (items : Items N) (out : List (DirEntry N)) :
    scanItems display true path items out = replay display (events path items) out := by
  induction items generalizing path out with
  | nil => rfl
  | fails e rest ih => rfl
  | leaf name kind rest ih => exact ih path _
  | unreadable name e rest ih => rfl
  | dir name sub rest ihsub ihrest =>
    simp only [scanItems, events, replay, if_true, replay_append, ihsub, ihrest]

/-- Every directory is read right after its own entry was. -/
theorem events_head (path : List N) (items : Items N) {p : List N} {e : IoError}
    {rest : List (Event N)} : events path items ≠ .dirFails p e :: rest := by
  cases items <;> simp [events]

/-! ### Entries and paths -/

def Event.entry? : Event N → Option (DirEntry N)
  | .entry d => some d
  | _ => none

/-- Every entry below the directory, a directory before its own entries. -/
def entriesOf (path : List N) (items : Items N) : List (DirEntry N) :=
  (events path items).filterMap Event.entry?

theorem entriesOf_leaf (path : List N) (name : N) (kind : Except IoError LeafKind)
    (rest : Items N) : entriesOf path (.leaf name kind rest) =
      .ofLeaf path name kind :: entriesOf path rest := rfl

theorem entriesOf_unreadable (path : List N) (name : N) (e : IoError) (rest : Items N) :
    entriesOf path (.unreadable name e rest) = .ofDir path name :: entriesOf path rest := rfl

theorem entriesOf_dir (path : List N) (name : N) (sub rest : Items N) :
    entriesOf path (.dir name sub rest) =
      .ofDir path name :: (entriesOf (path ++ [name]) sub ++ entriesOf path rest) := by
  simp [entriesOf, events, Event.entry?]

theorem mem_entriesOf {path p : List N} {items : Items N} :
    p ∈ (entriesOf path items).map DirEntry.path ↔ ∃ q, p = path ++ q ∧ Below items q := by
  induction items generalizing path with
  | nil => simp [entriesOf, events, below_nil]
  | fails e rest ih =>
    simp only [below_fails]
    exact ih
  | leaf name kind rest ih =>
    rw [entriesOf_leaf, List.map_cons, List.mem_cons, ih]
    simp [below_leaf, and_or_left, exists_or, DirEntry.ofLeaf]
  | unreadable name e rest ih =>
    rw [entriesOf_unreadable, List.map_cons, List.mem_cons, ih]
    simp [below_unreadable, and_or_left, exists_or, DirEntry.ofDir]
  | dir name sub rest ihsub ihrest =>
    rw [entriesOf_dir, List.map_cons, List.map_append, List.mem_cons, List.mem_append, ihsub,
      ihrest]
    have hsub : (∃ q, p = path ++ [name] ++ q ∧ Below sub q) ↔
        ∃ q, p = path ++ q ∧ ∃ r, q = name :: r ∧ Below sub r := by
      constructor
      · rintro ⟨q, hp, hq⟩
        exact ⟨name :: q, by simp [hp], q, rfl, hq⟩
      · rintro ⟨q, hp, r, rfl, hr⟩
        exact ⟨r, by simp [hp], hr⟩
    rw [hsub]
    simp [below_dir, and_or_left, exists_or, DirEntry.ofDir]

theorem not_mem_entriesOf (path : List N) {rest : Items N} {name : N} (h : name ∉ rest.names)
    (q : List N) : path ++ name :: q ∉ (entriesOf path rest).map DirEntry.path := by
  intro hmem
  obtain ⟨r, hr, hbelow⟩ := mem_entriesOf.mp hmem
  obtain ⟨m, s, rfl, hm⟩ := hbelow.head
  cases List.append_cancel_left hr
  exact h hm

/-- No entry is listed twice. -/
theorem nodup_entriesOf (path : List N) {items : Items N} (h : items.Distinct) :
    ((entriesOf path items).map DirEntry.path).Nodup := by
  induction items generalizing path with
  | nil => exact List.nodup_nil
  | fails e rest ih => exact ih path h
  | leaf name kind rest ih =>
    rw [entriesOf_leaf, List.map_cons, List.nodup_cons]
    exact ⟨not_mem_entriesOf path h.1 [], ih path h.2⟩
  | unreadable name e rest ih =>
    rw [entriesOf_unreadable, List.map_cons, List.nodup_cons]
    exact ⟨not_mem_entriesOf path h.1 [], ih path h.2⟩
  | dir name sub rest ihsub ihrest =>
    obtain ⟨hname, hsub, hrest⟩ := h
    rw [entriesOf_dir, List.map_cons, List.map_append, List.nodup_cons, List.mem_append, not_or,
      List.nodup_append]
    refine ⟨⟨?_, not_mem_entriesOf path hname []⟩, ihsub _ hsub, ihrest _ hrest, ?_⟩
    · -- below the directory every path is longer than its own
      intro hmem
      obtain ⟨q, hq, hbelow⟩ := mem_entriesOf.mp hmem
      obtain ⟨m, r, rfl, -⟩ := hbelow.head
      have hlen := congrArg List.length hq
      simp [DirEntry.ofDir] at hlen
    · intro p hp p' hp' heq
      obtain ⟨q, rfl, -⟩ := mem_entriesOf.mp hp
      rw [← heq, List.append_assoc] at hp'
      exact not_mem_entriesOf path hname q hp'

/-! ### The promise -/

/-- No read fails, and these are the entries read. -/
def Completes (items : Items N) (ds : List (DirEntry N)) : Prop := events [] items = ds.map .entry

/-- The first read that fails comes after these entries. -/
def FailsAfter (items : Items N) (ds : List (DirEntry N)) (failure : Event N) : Prop :=
  failure.entry? = none ∧ ∃ rest, events [] items = ds.map .entry ++ failure :: rest

/-- What `scan_all` promises for the reads of a start directory. -/
structure ScansAll (reading : Except IoError (Items N)) : Prop where
  unreadable : ∀ e, reading = .error e → scanAll display reading = .error (.io e)
  complete : ∀ items ds, reading = .ok items → Completes items ds →
    scanAll display reading = .ok ds
  failed : ∀ items ds failure, reading = .ok items → FailsAfter items ds failure →
    ∃ step, scanAll display reading =
      .error (.partialDirectoryOp step (ds.map fun d => display d.path))

theorem scanAll_ok (items : Items N) :
    scanAll display (.ok items) = replay display (events [] items) [] :=
  scanItems_eq_replay display [] items []

theorem Completes.eq {items : Items N} {ds : List (DirEntry N)} (h : Completes items ds) :
    ds = entriesOf [] items := by
  rw [entriesOf, h, List.filterMap_map]
  exact (List.filterMap_some).symm

/-- Without a failure the list is everything strictly below the start, each path once; and
`scan_all` keeps its promise exactly when the first read that fails, if one does, is not that
of a single entry. -/
theorem scan_all_promise_iff (reading : Except IoError (Items N)) :
    (∀ items ds, reading = .ok items → Completes items ds →
      (∀ p, p ∈ ds.map DirEntry.path ↔ Below items p) ∧
      (items.Distinct → (ds.map DirEntry.path).Nodup)) ∧
    (ScansAll display reading ↔
      ∀ items ds e, reading = .ok items → ¬ FailsAfter items ds (.entryFails e)) := by
  refine ⟨?_, ?_, ?_⟩
  · intro items ds _ hds
    rw [hds.eq]
    exact ⟨fun p => by simp [mem_entriesOf], nodup_entriesOf []⟩
  · intro h items ds e hok hfail
    obtain ⟨step, hpartial⟩ := h.failed items ds _ hok hfail
    obtain ⟨-, rest, hev⟩ := hfail
    rw [hok, scanAll_ok, hev, replay_entries] at hpartial
    cases hpartial
  · intro h
    refine ⟨?_, ?_, ?_⟩
    · intro e he
      rw [he]
      rfl
    · intro items ds hok hev
      rw [hok, scanAll_ok, hev, ← List.append_nil (ds.map _), replay_entries]
      rfl
    · intro items ds failure hok hfail
      obtain ⟨hnone, rest, hev⟩ := id hfail
      rw [hok, scanAll_ok, hev, replay_entries]
      cases failure with
      | entry d => cases hnone
      | entryFails e => exact absurd hfail (h items ds e hok)
      | dirFails path e =>
        cases ds with
        | nil => exact absurd hev (events_head [] items)
        | cons d ds => exact ⟨_, rfl⟩

/-- A file, then an entry that cannot be read. -/
def brokenEntry : Items String :=
  .leaf "a" (.ok .file) (.fails ⟨.other, "Input/output error (os error 5)"⟩ .nil)

/-- The file was listed when the next entry failed, and the error does not carry it. -/
theorem failed_entry_loses_the_list :
    FailsAfter brokenEntry [⟨["a"], "a", false, true, false⟩]
      (.entryFails ⟨.other, "Input/output error (os error 5)"⟩) ∧
    scanAll (String.intercalate "/") (.ok brokenEntry) =
      .error (.io ⟨.other, "Input/output error (os error 5)"⟩) ∧
    ¬ ScansAll (String.intercalate "/") (.ok brokenEntry) := by
  have hfail : FailsAfter brokenEntry [⟨["a"], "a", false, true, false⟩]
      (.entryFails ⟨.other, "Input/output error (os error 5)"⟩) := ⟨rfl, [], rfl⟩
  refine ⟨hfail, rfl, ?_⟩
  intro h
  obtain ⟨step, hpartial⟩ := h.failed _ _ _ rfl hfail
  cases hpartial

end Fsys.Dir
