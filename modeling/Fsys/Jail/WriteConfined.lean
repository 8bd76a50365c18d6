import Fsys.Crud.Calls
import Fsys.Jail.Confinement

/-!
# Whole-file writes below a root (src/crud/file.rs:66-228, src/async_io/crud_file.rs:244-266)

`write`, `write_copy` and `write_async_native` resolve the caller's path and then work
next to the result: the temp name is made from the parent of the resolved path
(`handle.rs:1315-1347`). The tree is what `resolve_path` sees; the writer then gets
whatever answers the plan has for its calls.
-/

namespace Fsys.Jail
open Fsys.Base Fsys.Platform Fsys.Crud

/-! ### From names to paths -/

/-- The absolute path of these names. -/
def render (names : List String) : String := "/" ++ String.intercalate "/" names

/-- A resolved path for the writers. `/` has no parent, and `gen_temp_path` takes `.` then. -/
def pathBuf (names : List String) : PathBuf :=
  match names.getLast? with
  | none => ⟨".", none⟩
  | some n => ⟨render names.dropLast, some n⟩

/-- The names of a path that spells them out. -/
def spelled (p : Path String) : List String :=
  p.segs.filterMap fun
    | .name n => some n
    | _ => none

theorem spelled_ofNames (names : List String) : spelled (Path.ofNames names) = names := by
  unfold spelled Path.ofNames
  dsimp only
  rw [List.filterMap_map]
  exact List.filterMap_some

/-! ### The calls -/

inductive WholeFileWrite where
  | write (h : Handle)
  | writeCopy (h : Handle) (existing : Bool)
  | writeAsyncNative (h : Handle)

namespace WholeFileWrite

/-- The call after the path is resolved. -/
def run (env : Env) (path : PathBuf) (data : Bytes) : WholeFileWrite → Sys Error Unit
  | .write h => h.write env path data
  | .writeCopy h existing => h.writeCopy env existing path data
  | .writeAsyncNative h => Crud.writeAsyncNative env h path data

/-- The writer it comes down to. -/
def kind (env : Env) (data : Bytes) : WholeFileWrite → WriterKind
  | .write h =>
    if h.method = .mmap then
      if isSuitableForWrite env data.length then .mmap
      else .replace { h with method := .sync }.replacePlan (.solo { h with method := .sync })
    else .replace h.replacePlan (.solo h)
  | .writeCopy h existing => .replace h.replacePlan (.writeCopy h existing)
  | .writeAsyncNative h => .asyncNative h

theorem run_eq_kind (call : WholeFileWrite) (env : Env) (path : PathBuf) (data : Bytes) :
    call.run env path data = (call.kind env data).run env path data := by
  cases call with
  | write h =>
    show h.write env path data = _
    simp only [kind, Handle.write]
    by_cases hm : h.method = .mmap
    · by_cases hsuit : isSuitableForWrite env data.length = true
      · simp only [hm, hsuit, if_true]
        rfl
      · simp only [hm, hsuit, if_true]
        rfl
    · simp only [hm, if_false]
      rfl
  | writeCopy h existing => rfl
  | writeAsyncNative h => rfl

/-- A mapping is only used for payloads that suit it. -/
theorem kind_suitable (call : WholeFileWrite) (env : Env) (data : Bytes)
    (h : call.kind env data = .mmap) : isSuitableForWrite env data.length = true := by
  cases call with
  | write hd =>
    simp only [kind] at h
    split at h
    · split at h
      · rename_i hsuit
        exact hsuit
      · cases h
    · cases h
  | writeCopy hd existing => cases h
  | writeAsyncNative hd => cases h

theorem kind_answering (call : WholeFileWrite) (env : Env) (plan : Plan PathBuf) (data : Bytes) :
    call.kind (answering env plan) data = call.kind env data := rfl

end WholeFileWrite

/-- A whole-file write of a handle with a root. -/
def writeIn (v : View String) (root : List String) (call : WholeFileWrite) (env : Env)
    (path : Path String) (data : Bytes) : Sys (InvalidPath String ⊕ Error) Unit :=
  match resolvePath v (some root) path with
  | .error e => fail (.inl e)
  | .ok p => mapErr .inr (call.run env (pathBuf (spelled p)) data)

/-- The directory entries that a call creates, renames or removes. -/
def entries : Call PathBuf → List PathBuf
  | .create p => [p]
  | .openCreate p => [p]
  | .remove p => [p]
  | .rename p q => [p, q]
  | _ => []

/-- The entry is in the directory of the target, and that is the root or below it: as it is
spelled, and with all links followed if it exists. -/
structure Inside (v : View String) (root target : List String) (e : PathBuf) : Prop where
  sameDir : e.dir = (pathBuf target).dir
  named : target ≠ []
  below : root <+: target.dropLast
  real : ∀ l q, v.tree.walk l [] (target.dropLast.map .name) = .ok q → q = target.dropLast

/-- The call asks the operating system for no entry outside: what it does and returns is the
same whatever the answers for such entries would be. -/
def StaysInside (v : View String) (root : List String) (call : WholeFileWrite) (env : Env)
    (path : Path String) (data : Bytes) (w : World PathBuf) : Prop :=
  ∀ plan, (∀ c, (∀ p, resolvePath v (some root) path = .ok p →
      ∀ e ∈ entries c, Inside v root (spelled p) e) → plan c = env.plan c) →
    writeIn v root call (answering env plan) path data w = writeIn v root call env path data w

/-- The caller's path, joined to the root and normalised, leads to the root itself. -/
def LeadsToRoot (v : View String) (root : List String) (path : Path String) : Prop :=
  ∃ names, normalise [] (candidate root path) = some names ∧
    (path.absolute = true ∨ root <+: names) ∧ v.canonicalize names = .ok root

variable {v : View String} {root names : List String} {path : Path String}

/-! ### When the root is what a path resolves to -/

/-- Pass 3 accepts the canonical form of the whole path, or something below the root. -/
theorem pass3_shape {inside : Bool} {existing tail : List String}
    (h : pass3 v root path inside existing tail = .ok names) :
    (∃ canon, v.canonicalize existing.reverse = .ok canon ∧ root <+: canon ∧
      names = canon ++ tail) ∨ ∃ d n rest, names = d ++ n :: rest ∧ root <+: d := by
  have haccept : ∀ {existing tail canon : List String},
      v.canonicalize existing.reverse = .ok canon →
      (if root.isPrefixOf canon then .ok (canon ++ tail)
        else .error (⟨path, "path escapes the handle root via symlink (canonical-prefix check)"⟩ :
          InvalidPath String)) = Except.ok names →
      ∃ canon, v.canonicalize existing.reverse = .ok canon ∧ root <+: canon ∧
        names = canon ++ tail := by
    intro existing tail canon hcanon hif
    split at hif
    · rename_i hpre
      cases hif
      exact ⟨canon, hcanon, List.isPrefixOf_iff_prefix.mp hpre, rfl⟩
    · cases hif
  induction existing generalizing tail with
  | nil =>
    unfold pass3 at h
    split at h
    · rename_i canon hcanon
      exact Or.inl (haccept hcanon h)
    · split at h <;> cases h
  | cons m above ih =>
    unfold pass3 at h
    split at h
    · rename_i canon hcanon
      exact Or.inl (haccept hcanon h)
    · split at h
      · simp only at h
        split at h
        · cases h
        · -- the popped name is in front of the tail now
          rcases ih h with ⟨canon, -, hpre, rfl⟩ | hbelow
          · exact Or.inr ⟨canon, m, tail, rfl, hpre⟩
          · exact Or.inr hbelow
      · cases h
      · cases h

theorem below_ne_root {d rest : List String} {n : String} (hpre : root <+: d) :
    d ++ n :: rest ≠ root := by
  intro heq
  have hle := hpre.length_le
  rw [← heq, List.length_append, List.length_cons] at hle
  omega

/-- A path resolves to the root exactly when it leads there. -/
theorem resolvePath_root_iff (hroot : v.tree.node root = some .dir) :
    resolvePath v (some root) path = .ok (Path.ofNames root) ↔ LeadsToRoot v root path := by
  constructor
  · intro h
    simp only [resolvePath] at h
    split at h
    · cases h
    · rename_i names hnorm
      split at h
      · cases h
      · rename_i hlex
        have hinside : path.absolute = true ∨ root <+: names := by
          cases habs : path.absolute with
          | true => exact Or.inl rfl
          | false =>
            rw [habs] at hlex
            refine Or.inr (List.isPrefixOf_iff_prefix.mp ?_)
            simpa using hlex
        split at h
        · rename_i p hfast
          obtain ⟨n, rfl, -⟩ := fastPath_node hroot hfast
          have heq := congrArg (Except.map spelled) h
          simp only [Except.map, spelled_ofNames, Except.ok.injEq] at heq
          exact absurd heq (below_ne_root (List.prefix_refl root))
        · cases hpass : pass3 v root path (root.isPrefixOf names) names.reverse [] with
          | error e =>
            rw [hpass] at h
            cases h
          | ok q =>
            rw [hpass] at h
            have heq := congrArg (Except.map spelled) h
            simp only [Except.map, spelled_ofNames, Except.ok.injEq] at heq
            subst heq
            rcases pass3_shape hpass with ⟨canon, hcanon, -, hq⟩ | ⟨d, n, rest, hq, hpre⟩
            · rw [List.append_nil] at hq
              rw [List.reverse_reverse, ← hq] at hcanon
              exact ⟨names, hnorm, hinside, hcanon⟩
            · exact absurd hq.symm (below_ne_root hpre)
  · rintro ⟨names, hnorm, hlex, hcanon⟩
    have hself : root.isPrefixOf root = true :=
      List.isPrefixOf_iff_prefix.mpr (List.prefix_refl root)
    have hfast : fastPath v root names (root.isPrefixOf names) = none := by
      cases hf : fastPath v root names (root.isPrefixOf names) with
      | none => rfl
      | some p =>
        obtain ⟨heq, -⟩ := fastPath_eq_some hf
        obtain ⟨n, hp, hnode⟩ := fastPath_node hroot hf
        rw [← heq, hp] at hcanon
        unfold View.canonicalize at hcanon
        rcases hnode with hlacks | hsolid
        · rw [hlacks.walk []] at hcanon
          cases hcanon
        · rw [DirTree.walk_self hsolid] at hcanon
          exact absurd (Except.ok.inj hcanon) (below_ne_root (List.prefix_refl root))
    have hpass : pass3 v root path (root.isPrefixOf names) names.reverse [] = .ok root := by
      unfold pass3
      simp only [List.reverse_reverse, hcanon, hself, if_true, List.append_nil]
    have hnot : (!root.isPrefixOf names && !path.absolute) = false := by
      rcases hlex with habs | hpre
      · rw [habs, Bool.not_true, Bool.and_false]
      · rw [List.isPrefixOf_iff_prefix.mpr hpre, Bool.not_true, Bool.false_and]
    simp only [resolvePath, hnorm, hnot, hfast, hpass, Except.map, Bool.false_eq_true, if_false]

/-! ### Any other path stays inside -/

/-- The parent of an accepted path that is not the root. -/
theorem Confined.parent (h : Confined v.tree root names) (hne : names ≠ root) :
    names ≠ [] ∧ root <+: names.dropLast ∧
      ∀ l q, v.tree.walk l [] (names.dropLast.map .name) = .ok q → q = names.dropLast := by
  have hsolid : ∀ {d : List String}, v.tree.Solid d →
      ∀ l q, v.tree.walk l [] (d.map .name) = .ok q → q = d := by
    intro d hd l q hq
    rw [DirTree.walk_self hd] at hq
    exact (Except.ok.inj hq).symm
  cases h with
  | solid hp hroot =>
    obtain ⟨tail, rfl⟩ := hroot
    have htail : tail ≠ [] := by
      intro hnil
      rw [hnil, List.append_nil] at hne
      exact hne rfl
    refine ⟨by simp [htail], ?_, hsolid hp.dropLast⟩
    rw [List.dropLast_append_of_ne_nil htail]
    exact List.prefix_append root tail.dropLast
  | @lacking d n rest hlacks hroot =>
    have hcons : n :: rest ≠ [] := List.cons_ne_nil n rest
    refine ⟨by simp, ?_, ?_⟩
    · rw [List.dropLast_append_of_ne_nil hcons]
      exact hroot.trans (List.prefix_append d _)
    · rw [List.dropLast_append_of_ne_nil hcons]
      cases rest with
      | nil =>
        rw [List.dropLast_singleton, List.append_nil]
        exact hsolid hlacks.solid
      | cons m more =>
        -- the parent itself is missing
        intro l q hq
        rw [List.dropLast_cons_of_ne_nil (List.cons_ne_nil m more), hlacks.walk] at hq
        cases hq

/-- Temp file and target are next to each other. -/
theorem entries_sameDir {env : Env} {target : PathBuf} {w : World PathBuf} {c : Call PathBuf}
    (h : WriterKind.Issued env target w c) : ∀ e ∈ entries c, e.dir = target.dir := by
  intro e he
  rcases h with ⟨k, -, rfl⟩ | hfile | ⟨k, -, -, htemp⟩
  · simp only [entries, List.mem_singleton] at he
    rw [he]
    rfl
  · cases c <;> simp_all [entries, OnFile]
  · cases c with
    | remove p =>
      simp only [entries, List.mem_singleton] at he
      rw [he, show p = _ from htemp]
      rfl
    | rename p q =>
      obtain ⟨hp, hq⟩ := htemp
      simp only [entries, List.mem_cons, List.not_mem_nil, or_false] at he
      rcases he with rfl | rfl
      · rw [hp]
        rfl
      · rw [hq]
    | create p => cases htemp
    | openCreate p => cases htemp
    | _ => simp [entries] at he

theorem staysInside_of_ne_root (hroot : v.tree.node root = some .dir)
    (hne : resolvePath v (some root) path ≠ .ok (Path.ofNames root)) (call : WholeFileWrite)
    (env : Env) (data : Bytes) (w : World PathBuf) : StaysInside v root call env path data w := by
  intro plan hplan
  cases hres : resolvePath v (some root) path with
  | error e => simp only [writeIn, hres]
  | ok p =>
    obtain ⟨names, rfl, hconf⟩ := resolvePath_confined hroot hres
    have hnames : names ≠ root := by
      intro heq
      rw [heq] at hres
      exact hne hres
    obtain ⟨hnil, hpre, hreal⟩ := hconf.parent hnames
    simp only [writeIn, hres, spelled_ofNames]
    refine WriterKind.mapErr_congr _ ?_
    rw [WholeFileWrite.run_eq_kind, WholeFileWrite.run_eq_kind, WholeFileWrite.kind_answering]
    refine WriterKind.run_answering _ ?_
    intro c hc
    refine hplan c ?_
    intro p hp e he
    rw [hres] at hp
    cases hp
    rw [spelled_ofNames]
    exact ⟨entries_sameDir hc e he, hnil, hpre, hreal⟩

/-! ### The root itself does not -/

/-- The operating system refuses to create anything. -/
def refusing (env : Env) (e : IoError) : Plan PathBuf
  | .create _ => fun _ => .fail e 0
  | c => env.plan c

theorem createNew_refused (env : Env) (e : IoError) (he : e.kind = .other) (p : PathBuf)
    (w : World PathBuf) :
    Io.createNew (refusing env e) p w = (.error e, Io.World.tick w w.disk) := by
  simp only [Io.createNew, refusing]
  cases w.disk.names p with
  | some i => rfl
  | none => simp [he]

theorem openWriteNew_refused (env : Env) (e : IoError) (he : e.kind = .other) (p : PathBuf)
    (useDirect : Bool) (w : World PathBuf) :
    openWriteNew (answering env (refusing env e)) p useDirect w =
      (.error (.failed (.io e)), Io.World.tick w w.disk) := by
  unfold openWriteNew
  rw [Prog.attempt_bind_run, answering_plan, createNew_refused env e he]
  simp [he, fail, Prog.throw]

theorem withUniqueTemp_refused {α : Type} (env : Env) (e : IoError) (he : e.kind = .other)
    (target : PathBuf) (opener : PathBuf → Sys Error α) (w : World PathBuf)
    (hopen : ∀ p, opener p w = (.error (.failed (.io e)), Io.World.tick w w.disk)) :
    withUniqueTemp env target opener w = (.error (.failed (.io e)), Io.World.tick w w.disk) := by
  have htry : (tryErr (opener (genTempPath env target 0)) : Sys Error (Except Error α)) w =
      (.ok (.error (.io e)), Io.World.tick w w.disk) := by
    simp only [tryErr, hopen]
  simp only [withUniqueTemp, tempCreateAttempts, uniqueTemp]
  rw [Prog.bind_run htry]
  simp [Error.alreadyExists, he, fail, Prog.throw]

/-- Every writer starts with a new file and reports that it got none. -/
theorem run_refused (call : WholeFileWrite) (env : Env) (e : IoError) (he : e.kind = .other)
    (target : PathBuf) (data : Bytes) (w : World PathBuf) :
    call.run (answering env (refusing env e)) target data w =
      (.error (.failed (.atomicReplaceFailed "open_temp" e)), Io.World.tick w w.disk) := by
  rw [WholeFileWrite.run_eq_kind, WriterKind.run_eq]
  refine Prog.bind_fail ?_
  cases hkind : call.kind (answering env (refusing env e)) data with
  | replace rp k =>
    simp only [WriterKind.openTemp, mapErr, Prog.mapError]
    rw [withUniqueTemp_refused _ e he _ _ w fun p => openWriteNew_refused env e he p _ w]
    rfl
  | mmap =>
    simp only [WriterKind.openTemp, call.kind_suitable _ _ hkind, if_true]
    refine Prog.bind_fail ?_
    simp only [mapErr, Prog.mapError]
    rw [withUniqueTemp_refused _ e he _ _ w]
    · rfl
    · intro p
      simp only [sysCall, Prog.mapError, answering_plan, createNew_refused env e he]
      rfl
  | asyncNative h =>
    simp only [WriterKind.openTemp]
    refine Prog.bind_fail ?_
    simp only [mapErr, Prog.mapError]
    rw [openWriteNew_refused env e he]
    rfl

theorem not_inside_root (v : View String) (root : List String) (e : PathBuf) :
    ¬ Inside v root root e := by
  intro h
  have hle := h.below.length_le
  have hpos := List.length_pos_iff.mpr h.named
  rw [List.length_dropLast] at hle
  omega

theorem not_staysInside_root
    (hres : resolvePath v (some root) path = .ok (Path.ofNames root)) (call : WholeFileWrite)
    (env : Env) (data : Bytes) (w : World PathBuf) : ¬ StaysInside v root call env path data w := by
  intro h
  have hrefused : ∀ e : IoError, e.kind = .other →
      writeIn v root call env path data w =
        (.error (.failed (.inr (.atomicReplaceFailed "open_temp" e))),
          Io.World.tick w w.disk) := by
    intro e he
    rw [← h (refusing env e)]
    · simp only [writeIn, hres, mapErr, Prog.mapError, run_refused call env e he]
      rfl
    · intro c hc
      cases c with
      | create p =>
        have hin := hc _ hres p List.mem_cons_self
        rw [spelled_ofNames] at hin
        exact absurd hin (not_inside_root v root p)
      | _ => rfl
  have hsame := (hrefused ⟨.other, "a"⟩ rfl).symm.trans (hrefused ⟨.other, "b"⟩ rfl)
  simp at hsame

/-- A whole-file write keeps to entries strictly below the root, in the directory of its
target, exactly when its path does not lead to the root. -/
theorem whole_file_write_inside_iff (v : View String) (root : List String)
    (hroot : v.tree.node root = some .dir) (call : WholeFileWrite) (env : Env)
    (path : Path String) (data : Bytes) (w : World PathBuf) :
    StaysInside v root call env path data w ↔ ¬ LeadsToRoot v root path := by
  rw [← resolvePath_root_iff hroot]
  constructor
  · intro h hres
    exact not_staysInside_root hres call env data w h
  · intro hne
    exact staysInside_of_ne_root hroot hne call env data w

/-- Nothing can be renamed or removed. -/
def stuckEnv : Env where
  plan
    | .rename _ _ => fun _ => .fail ⟨.other, "is a directory"⟩ 0
    | .remove _ => fun _ => .fail ⟨.permissionDenied, "permission denied"⟩ 0
    | _ => fun _ => .ok 100
  awaits := fun _ => .answered
  fuel := 100
  debugAssertions := false
  pid := 1
  nonces := fun k => k.toUInt64
  nameHash := fun _ => 0
  pageSize := 4096

def emptyWorld : World PathBuf where
  disk := ⟨fun _ => none, fun _ => [], fun _ => false, 0, fun _ _ h => nomatch h⟩
  clock := 0
  renames := []

def syncWrite : WholeFileWrite := .write ⟨.sync, 512, false, false⟩

theorem whole_file_write_inside_iff_through_back :
    ¬ LeadsToRoot jailView ["jail"] throughBack ∧
      StaysInside jailView ["jail"] syncWrite stuckEnv throughBack [1] emptyWorld := by
  have hnot : ¬ LeadsToRoot jailView ["jail"] throughBack := by
    rw [← resolvePath_root_iff rfl, resolvePath_throughBack]
    simp [Path.ofNames]
  exact ⟨hnot, (whole_file_write_inside_iff jailView ["jail"] rfl syncWrite stuckEnv throughBack
    [1] emptyWorld).mpr hnot⟩

/-- The empty path. -/
def emptyPath : Path String := ⟨false, []⟩

/-- A write to the empty path makes its temp file next to the root, and tries to put it in the
root's place. The entry stays there if it cannot be removed. -/
theorem write_empty_path_leaves_root :
    jailView.tree.node ["jail"] = some .dir ∧
    ¬ StaysInside jailView ["jail"] syncWrite stuckEnv emptyPath [1] emptyWorld ∧
    (writeIn jailView ["jail"] syncWrite stuckEnv emptyPath [1] emptyWorld).2.disk.names
      ⟨"/", some ".fsys-tmp-1-0000000000000000.jail"⟩ = some 0 := by
  refine ⟨rfl, not_staysInside_root rfl _ _ _ _, ?_⟩
  decide +kernel

end Fsys.Jail
