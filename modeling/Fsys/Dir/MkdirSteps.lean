import Mathlib.Data.List.Forall2
import Mathlib.Data.List.Nodup
import Fsys.Dir.MkdirAll

/-!
# The walk up and the steps of `mkdir_all`

The walk up stops at the last directory on the way to the path, and the loop replays it. As
long as it meets names only, every step makes a directory in the one before.
-/

namespace Fsys.Dir

open Fsys.Base

variable {N : Type}

/-! ### Parts -/

theorem rdropWhile_append_cons {α : Type} {p : α → Bool} {x : α} (hx : p x = false)
    (pre tail : List α) :
    (pre ++ x :: tail).rdropWhile p = pre ++ x :: tail.rdropWhile p := by
  induction tail using List.reverseRecOn with
  | nil => simp [hx]
  | append_singleton tail y ih =>
    have happ : pre ++ x :: (tail ++ [y]) = (pre ++ x :: tail) ++ [y] := by simp
    rw [happ, List.rdropWhile_concat, List.rdropWhile_concat, ih]
    split <;> simp

/-- The prefixes of the rest that end in a component, behind what is done. -/
def cuts (done : List (PathPart N)) : List (PathPart N) → List (List (PathPart N))
  | [] => []
  | x :: rest =>
    if x.noise then cuts (done ++ [x]) rest else (done ++ [x]) :: cuts (done ++ [x]) rest

theorem cuts_append (done a b : List (PathPart N)) :
    cuts done (a ++ b) = cuts done a ++ cuts (done ++ a) b := by
  induction a generalizing done with
  | nil => simp [cuts]
  | cons x a ih =>
    have happ : done ++ x :: a = done ++ [x] ++ a := by simp
    simp only [List.cons_append, cuts, ih, happ]
    split <;> simp

theorem mem_cuts {done l b : List (PathPart N)} (h : b ∈ cuts done l) : ∃ r, b = done ++ r ∧
    r <+: l := by
  induction l generalizing done with
  | nil => simp [cuts] at h
  | cons y l ih =>
    have hin : b ∈ cuts (done ++ [y]) l → ∃ r, b = done ++ r ∧ r <+: y :: l := by
      intro hmem
      obtain ⟨r, hb, hr⟩ := ih hmem
      exact ⟨y :: r, by simp [hb], (List.prefix_cons_inj y).mpr hr⟩
    rw [cuts] at h
    split at h
    · exact hin h
    · cases List.mem_cons.mp h with
      | inl heq => exact ⟨[y], heq, by simp⟩
      | inr hmem => exact hin hmem

/-- A component is the last one or others follow it. -/
theorem exists_last_component {body : List (PathPart N)} (h : ∃ x ∈ body, x.noise = false) :
    ∃ a x z, body = a ++ x :: z ∧ x.noise = false ∧ ∀ y ∈ z, y.noise = true := by
  induction body using List.reverseRecOn with
  | nil => simp at h
  | append_singleton body y ih =>
    cases hy : y.noise with
    | false => exact ⟨body, y, [], rfl, hy, by simp⟩
    | true =>
      obtain ⟨x, hx, hnoise⟩ := h
      have hmem : x ∈ body := by
        cases List.mem_append.mp hx with
        | inl hin => exact hin
        | inr hlast =>
          rw [List.mem_singleton.mp hlast, hy] at hnoise
          cases hnoise
      obtain ⟨a, x, z, hbody, hx, hz⟩ := ih ⟨x, hmem, hnoise⟩
      refine ⟨a, x, z ++ [y], by simp [hbody], hx, ?_⟩
      intro w hw
      cases List.mem_append.mp hw with
      | inl hin => exact hz w hin
      | inr hlast => rw [List.mem_singleton.mp hlast, hy]

theorem trim_append_cons {x : PathPart N} (hx : x.noise = false) (pre tail : List (PathPart N)) :
    trim (pre ++ x :: tail) = pre ++ x :: trim tail :=
  rdropWhile_append_cons hx pre tail

theorem trim_noise {z : List (PathPart N)} (hz : ∀ x ∈ z, x.noise = true) : trim z = [] :=
  List.rdropWhile_eq_nil_iff.mpr hz

theorem parent_eq {s : PathStart} {x : PathPart N} (hx : x.noise = false) (pre : List (PathPart N))
    {z : List (PathPart N)} (hz : ∀ y ∈ z, y.noise = true) :
    DirPath.parent ⟨s, pre ++ x :: z⟩ = some ⟨s, trim pre⟩ := by
  have htrim : trim (pre ++ x :: z) = pre ++ [x] := by rw [trim_append_cons hx, trim_noise hz]
  simp [DirPath.parent, htrim]

/-! ### Directories -/

variable {fs fs' : Fs N} {s : PathStart} {p : DirPath N} {d : List N} {n : N}
  {pre tail body : List (PathPart N)}

/-- The body leads to a directory. -/
def Fs.IsDirectory (fs : Fs N) (s : PathStart) (body : List (PathPart N)) : Prop :=
  ∃ q, fs.walkBody s body = .ok q ∧ fs.tree.isDir q = true

theorem Fs.IsDirectory.of_prefix (h : fs.IsDirectory s body) (hpre : pre <+: body) :
    fs.IsDirectory s pre := by
  obtain ⟨q, hq, hdir⟩ := h
  obtain ⟨rest, hbody⟩ := hpre
  rw [Fs.walkBody, ← hbody, List.map_append] at hq
  exact DirTree.walk_prefix hq hdir

theorem isDir_base (fs : Fs N) (s : PathStart) : fs.tree.isDir (fs.base s) = true := by
  cases s with
  | root => exact DirTree.isDir_root
  | dot => exact DirTree.isDir_iff.mpr fs.cwd_dir
  | here => exact DirTree.isDir_iff.mpr fs.cwd_dir

theorem walkBody_nil (fs : Fs N) (s : PathStart) : fs.walkBody s [] = .ok (fs.base s) := by
  unfold Fs.walkBody
  cases fs.links <;> rfl

theorem isDirectory_nil (fs : Fs N) (s : PathStart) : fs.IsDirectory s [] :=
  ⟨_, walkBody_nil fs s, isDir_base fs s⟩

/-- The first name that is missing, with the directory that lacks it. -/
structure FirstMissing (fs : Fs N) (s : PathStart) (pre : List (PathPart N)) (d : List N)
    (n : N) : Prop where
  leads : fs.walkBody s pre = .ok d
  lacks : fs.tree.Lacks d n

theorem FirstMissing.isDir (h : FirstMissing fs s pre d n) : fs.tree.isDir d = true :=
  DirTree.isDir_iff.mpr h.lacks.1

theorem FirstMissing.walkBody (h : FirstMissing fs s pre d n) (tail : List (PathPart N)) :
    fs.walkBody s (pre ++ .name n :: tail) = .error .notFound := by
  have hleads := h.leads
  unfold Fs.walkBody at hleads ⊢
  rw [List.map_append, List.map_cons]
  exact DirTree.walk_lacks hleads h.lacks _

theorem FirstMissing.metadata (h : FirstMissing fs s pre d n) (tail : List (PathPart N)) :
    fs.metadata ⟨s, pre ++ .name n :: tail⟩ = .error .notFound := by
  simp [Fs.metadata, Fs.resolve, DirPath.isEmpty, h.walkBody tail]

/-- Nothing that is there on the way to the path is something else than a directory, or a link
to one. A link that dangles is there. -/
def Unobstructed (fs : Fs N) (p : DirPath N) : Prop :=
  ∀ pre n d, pre ++ [.name n] <+: p.body → fs.walkBody p.start pre = .ok d →
    fs.tree.isDir d = true → fs.tree.node (d ++ [n]) ≠ none →
    fs.IsDirectory p.start (pre ++ [.name n])

theorem isDirectory_step {x : PathPart N} (h : fs.IsDirectory s body) :
    fs.IsDirectory s (body ++ [x]) ∨ ∃ d n, x = .name n ∧ fs.walkBody s body = .ok d ∧
      fs.tree.isDir d = true := by
  obtain ⟨d, hd, hdir⟩ := h
  unfold Fs.IsDirectory Fs.walkBody at *
  rw [List.map_append]
  cases x with
  | sep => exact .inl ⟨d, DirTree.walk_cur hd hdir, hdir⟩
  | cur => exact .inl ⟨d, DirTree.walk_cur hd hdir, hdir⟩
  | up => exact .inl ⟨d.dropLast, DirTree.walk_up hd hdir, DirTree.isDir_dropLast hdir⟩
  | name n => exact .inr ⟨d, n, rfl, hd, hdir⟩

/-- The path is a directory, or it has a first missing name. -/
theorem directory_or_missing (h : Unobstructed fs p) :
    fs.IsDirectory p.start p.body ∨
      ∃ pre n tail d, p.body = pre ++ .name n :: tail ∧ FirstMissing fs p.start pre d n := by
  have hall : ∀ body, body <+: p.body → fs.IsDirectory p.start body ∨
      ∃ pre n tail d, body = pre ++ .name n :: tail ∧ FirstMissing fs p.start pre d n := by
    intro body
    induction body using List.reverseRecOn with
    | nil => exact fun _ => .inl (isDirectory_nil fs p.start)
    | append_singleton body x ih =>
      intro hstart
      cases ih ((List.prefix_append body [x]).trans hstart) with
      | inr hmissing =>
        obtain ⟨pre, n, tail, d, hbody, hfirst⟩ := hmissing
        exact .inr ⟨pre, n, tail ++ [x], d, by simp [hbody], hfirst⟩
      | inl hdirectory =>
        obtain hnext | ⟨d, n, hx, hd, hdir⟩ := isDirectory_step (x := x) hdirectory
        · exact .inl hnext
        · rw [hx] at hstart ⊢
          by_cases hnone : fs.tree.node (d ++ [n]) = none
          · exact .inr ⟨body, n, [], d, rfl, hd, DirTree.isDir_iff.mp hdir, hnone⟩
          · exact .inl (h body n d hstart hd hdir hnone)
  exact hall p.body List.prefix_rfl

theorem metadata_dir (h : fs.IsDirectory p.start p.body) (hne : p.isEmpty = false) :
    fs.metadata p = .ok .dir := by
  obtain ⟨q, hq, hdir⟩ := h
  simp [Fs.metadata, Fs.resolve, hne, hq, DirTree.isDir_iff.mp hdir]

/-! ### The walk up -/

theorem toCreate_dir (h : fs.IsDirectory p.start p.body) (hne : p.isEmpty = false) :
    toCreate fs p = .ok [] := by
  rw [toCreate, metadata_dir h hne]

theorem toCreate_missing {q : DirPath N} (h : fs.metadata p = .error .notFound)
    (hq : p.parent = some q) : toCreate fs p = (toCreate fs q).map (p :: ·) := by
  rw [toCreate]
  simp only [h]
  split
  · rename_i hnone
    rw [hq] at hnone
    cases hnone
  · rename_i q' hsome
    rw [hq] at hsome
    cases hsome
    rfl

/-- The path of a prefix of the body. -/
def pathOf (s : PathStart) (body : List (PathPart N)) : DirPath N := ⟨s, body⟩

theorem toCreate_trimmed (h : FirstMissing fs s pre d n) (tail : List (PathPart N)) :
    toCreate fs ⟨s, pre ++ .name n :: trim tail⟩ = (toCreate fs ⟨s, trim pre⟩).map
      (((cuts pre (.name n :: tail)).map (pathOf s)).reverse ++ ·) := by
  induction tail using List.reverseRecOn with
  | nil =>
    have hparent : DirPath.parent ⟨s, pre ++ [.name n]⟩ = some ⟨s, trim pre⟩ :=
      parent_eq rfl pre (by simp)
    have htrim : trim ([] : List (PathPart N)) = [] := rfl
    rw [htrim, toCreate_missing (h.metadata []) hparent]
    rfl
  | append_singleton tail x ih =>
    have hcons : PathPart.name n :: (tail ++ [x]) = (.name n :: tail) ++ [x] := rfl
    rw [hcons, cuts_append]
    cases hx : x.noise with
    | true =>
      have htrim : trim (tail ++ [x]) = trim tail := List.rdropWhile_concat_pos _ _ _ hx
      rw [htrim, ih]
      simp [cuts, hx]
    | false =>
      have htrim : trim (tail ++ [x]) = tail ++ [x] :=
        List.rdropWhile_concat_neg _ _ _ (by simp [hx])
      have hparent : DirPath.parent ⟨s, (pre ++ .name n :: tail) ++ [x]⟩ =
          some ⟨s, pre ++ .name n :: trim tail⟩ := by
        have htrim' : trim (pre ++ .name n :: tail) = pre ++ .name n :: trim tail :=
          trim_append_cons rfl pre tail
        rw [parent_eq hx _ (by simp), htrim']
      have hmissing := h.metadata (tail ++ [x])
      have happ : pre ++ PathPart.name n :: (tail ++ [x]) = (pre ++ .name n :: tail) ++ [x] := by
        simp
      rw [happ] at hmissing
      rw [htrim, happ, toCreate_missing hmissing hparent, ih]
      cases toCreate fs ⟨s, trim pre⟩ with
      | error e => rfl
      | ok l => simp [Except.map, cuts, hx, pathOf]

/-- The missing paths, up to the directories that are there. -/
theorem toCreate_eq (h : FirstMissing fs s pre d n) {a z : List (PathPart N)} {x : PathPart N}
    (htail : .name n :: tail = a ++ x :: z) (hx : x.noise = false)
    (hz : ∀ y ∈ z, y.noise = true) :
    toCreate fs ⟨s, pre ++ .name n :: tail⟩ = (toCreate fs ⟨s, trim pre⟩).map
      (pathOf s (pre ++ .name n :: tail) :: ((cuts pre a).map (pathOf s)).reverse ++ ·) := by
  have hbody : pre ++ PathPart.name n :: tail = (pre ++ a) ++ x :: z := by simp [htail]
  have hparent : DirPath.parent ⟨s, pre ++ PathPart.name n :: tail⟩ = some ⟨s, trim (pre ++ a)⟩ := by
    rw [hbody]
    exact parent_eq hx _ hz
  rw [toCreate_missing (h.metadata tail) hparent]
  cases a with
  | nil =>
    rw [List.append_nil]
    rfl
  | cons y a =>
    obtain ⟨hy, -⟩ := List.cons.inj htail
    have htrim : trim (pre ++ y :: a) = pre ++ .name n :: trim a := by
      rw [← hy]
      exact trim_append_cons rfl pre a
    rw [htrim, toCreate_trimmed h a, ← hy]
    cases toCreate fs ⟨s, trim pre⟩ <;> rfl

/-- Nothing but the empty path is behind the first missing name. -/
def Bare (s : PathStart) (pre : List (PathPart N)) : Prop := s = .here ∧ ∀ x ∈ pre, x.noise = true

theorem toCreate_above (h : FirstMissing fs s pre d n) (hbare : ¬Bare s pre) :
    toCreate fs ⟨s, trim pre⟩ = .ok [] := by
  have hpre : fs.IsDirectory s pre := ⟨d, h.leads, h.isDir⟩
  apply toCreate_dir
  · exact hpre.of_prefix (List.rdropWhile_prefix _ _)
  · by_contra hempty
    apply hbare
    simp only [DirPath.isEmpty, Bool.not_eq_false, Bool.and_eq_true, beq_iff_eq] at hempty
    refine ⟨hempty.1, ?_⟩
    exact List.rdropWhile_eq_nil_iff.mp (List.isEmpty_iff.mp hempty.2)

theorem toCreate_last (h : fs.metadata p = .error .notFound) (hq : p.parent = none) :
    toCreate fs p = .ok [p] := by
  rw [toCreate]
  simp only [h]
  split
  · rfl
  · rename_i hsome
    rw [hq] at hsome
    cases hsome

theorem toCreate_bare (fs : Fs N) (hbare : Bare s pre) :
    toCreate fs ⟨s, trim pre⟩ = .ok [⟨.here, []⟩] := by
  obtain ⟨hs, hnoise⟩ := hbare
  rw [hs, trim_noise hnoise]
  exact toCreate_last rfl rfl

theorem ancestors_cons {q : DirPath N} (hq : p.parent = some q) :
    p.ancestors = p :: q.ancestors := by
  rw [DirPath.ancestors]
  split
  · rename_i hnone
    rw [hq] at hnone
    cases hnone
  · rename_i q' hsome
    rw [hq] at hsome
    cases hsome
    rfl

theorem ancestors_head (p : DirPath N) : [p] <+: p.ancestors := by
  rw [DirPath.ancestors]
  split <;> simp

theorem toCreate_starts {l : List (DirPath N)} (h : toCreate fs p = .ok l) :
    l <+: p.ancestors := by
  induction hsize : p.size using Nat.strong_induction_on generalizing p l with
  | _ k ih =>
    by_cases hmissing : fs.metadata p = .error .notFound
    · cases hparent : p.parent with
      | none =>
        rw [toCreate_last hmissing hparent] at h
        cases h
        exact ancestors_head p
      | some q =>
        rw [toCreate_missing hmissing hparent] at h
        rw [ancestors_cons hparent]
        cases hrest : toCreate fs q with
        | error e =>
          rw [hrest] at h
          cases h
        | ok rest =>
          rw [hrest] at h
          cases h
          have hshort := DirPath.size_parent hparent
          rw [List.prefix_cons_inj]
          exact ih q.size (by omega) hrest rfl
    · rw [toCreate] at h
      split at h
      · cases h
        exact List.nil_prefix
      · cases h
      · rename_i hnotFound
        exact absurd hnotFound hmissing
      · cases h

/-! ### What was made -/

structure Fs.Le (fs fs' : Fs N) : Prop where
  tree : fs.tree.Le fs'.tree
  links : fs'.links = fs.links
  cwd : fs'.cwd = fs.cwd

theorem Fs.Le.walkBody (h : fs.Le fs') {q : List N} (hq : fs.walkBody s body = .ok q) :
    fs'.walkBody s body = .ok q := by
  have hbase : fs'.base s = fs.base s := by cases s <;> simp [Fs.base, h.cwd]
  unfold Fs.walkBody at hq ⊢
  rw [h.links, hbase]
  exact DirTree.walk_mono h.tree hq

theorem Fs.Le.resolve (h : fs.Le fs') {q : List N} (hq : fs.resolve p = .ok q) :
    fs'.resolve p = .ok q := by
  unfold Fs.resolve at hq ⊢
  split at hq
  · cases hq
  · rename_i hne
    rw [if_neg hne]
    exact h.walkBody hq

/-- The steps made these directories, one each, and nothing else was changed. -/
structure Created [DecidableEq N] (fs fs' : Fs N) (steps : List (DirPath N))
    (locs : List (List N)) : Prop where
  resolves : List.Forall₂ (fun p q => fs'.resolve p = .ok q) steps locs
  nodup : locs.Nodup
  free : ∀ q ∈ locs, fs.tree.node q = none
  node : ∀ q, fs'.tree.node q = if q ∈ locs then some .dir else fs.tree.node q
  links : fs'.links = fs.links
  cwd : fs'.cwd = fs.cwd

section Made

variable [DecidableEq N] {steps steps' : List (DirPath N)} {locs locs' : List (List N)}

theorem Created.le (h : Created fs fs' steps locs) : fs.Le fs' := by
  refine ⟨?_, h.links, h.cwd⟩
  intro q k hk
  rw [h.node, if_neg, hk]
  intro hmem
  rw [h.free q hmem] at hk
  cases hk

theorem Created.refl (fs : Fs N) : Created fs fs [] [] :=
  ⟨.nil, List.nodup_nil, by simp, by simp, rfl, rfl⟩

theorem Created.trans {fs₁ : Fs N} (h : Created fs fs₁ steps locs)
    (h' : Created fs₁ fs' steps' locs') : Created fs fs' (steps ++ steps') (locs ++ locs') := by
  have hdisjoint : ∀ q ∈ locs, q ∉ locs' := by
    intro q hq hq'
    have hfree := h'.free q hq'
    rw [h.node, if_pos hq] at hfree
    cases hfree
  refine ⟨?_, ?_, ?_, ?_, h'.links.trans h.links, h'.cwd.trans h.cwd⟩
  · exact List.rel_append (h.resolves.imp fun _ _ hq => h'.le.resolve hq) h'.resolves
  · exact h.nodup.append h'.nodup hdisjoint
  · intro q hq
    cases List.mem_append.mp hq with
    | inl hin => exact h.free q hin
    | inr hin =>
      have hfree := h'.free q hin
      rw [h.node] at hfree
      split at hfree
      · cases hfree
      · exact hfree
  · intro q
    rw [h'.node, h.node]
    by_cases hq : q ∈ locs <;> by_cases hq' : q ∈ locs' <;> simp [hq, hq']

theorem created_insertDir (h : fs.tree.Lacks d n)
    (hp : (fs.insertDir d n).resolve p = .ok (d ++ [n])) :
    Created fs (fs.insertDir d n) [p] [d ++ [n]] := by
  refine ⟨.cons hp .nil, List.nodup_singleton _, ?_, ?_, rfl, rfl⟩
  · intro q hq
    rw [List.mem_singleton.mp hq]
    exact h.2
  · intro q
    simp [Fs.insertDir, h.node_insertDir]

/-- What was made is told by the trees alone. -/
theorem Created.length_eq (h : Created fs fs' steps locs) (h' : Created fs fs' steps' locs') :
    steps.length = steps'.length := by
  have hmem : ∀ {steps locs}, Created fs fs' steps locs →
      ∀ q, q ∈ locs ↔ fs.tree.node q = none ∧ fs'.tree.node q = some .dir := by
    intro steps locs hc q
    constructor
    · intro hq
      exact ⟨hc.free q hq, by rw [hc.node, if_pos hq]⟩
    · intro hq
      by_contra hnot
      rw [hc.node, if_neg hnot, hq.1] at hq
      cases hq.2
  have hperm : locs.Perm locs' := by
    rw [List.perm_ext_iff_of_nodup h.nodup h'.nodup]
    intro q
    rw [hmem h, hmem h']
  rw [h.resolves.length_eq, h'.resolves.length_eq, hperm.length_eq]

end Made

/-! ### One step of the loop -/

/-- The path, less the slashes at its end, ends in a dot. -/
def DirPath.endsInDot (p : DirPath N) : Bool :=
  match (p.body.rdropWhile PathPart.isSep).getLast? with
  | some .cur => true
  | _ => false

theorem walkBody_noise {q : List N} (hq : fs.walkBody s body = .ok q)
    (hdir : fs.tree.isDir q = true) {z : List (PathPart N)} (hz : ∀ x ∈ z, x.noise = true) :
    fs.walkBody s (body ++ z) = .ok q := by
  induction z using List.reverseRecOn with
  | nil => simpa using hq
  | append_singleton z x ih =>
    have hprev := ih fun y hy => hz y (by simp [hy])
    have hseg : x.seg = .cur := by
      have hx := hz x (by simp)
      cases x with
      | sep => rfl
      | cur => rfl
      | up => cases hx
      | name n => cases hx
    unfold Fs.walkBody at hprev ⊢
    rw [← List.append_assoc, List.map_append, List.map_singleton, hseg]
    exact DirTree.walk_cur hprev hdir

section Steps

variable [DecidableEq N] {deny : List N → Option Refusal} {z : List (PathPart N)}

/-- The free name is taken, unless that is refused. -/
theorem FirstMissing.createDir (h : FirstMissing fs s pre d n) (deny : List N → Option Refusal)
    (hz : ∀ x ∈ z, x.isSep = true) :
    createDir deny ⟨s, pre ++ .name n :: z⟩ fs = fs.makeDir deny d n := by
  have hbody : (pre ++ .name n :: z).rdropWhile PathPart.isSep = pre ++ [.name n] := by
    rw [rdropWhile_append_cons rfl, List.rdropWhile_eq_nil_iff.mpr hz]
  simp only [Dir.createDir, hbody, List.getLast?_concat, List.dropLast_concat, h.leads, h.isDir,
    h.lacks.2, if_true]

/-- A dot behind the missing name is looked for in what is missing. -/
theorem FirstMissing.createDir_dot (h : FirstMissing fs s pre d n)
    (deny : List N → Option Refusal) (hdot : DirPath.endsInDot ⟨s, pre ++ .name n :: z⟩ = true) :
    Dir.createDir deny ⟨s, pre ++ .name n :: z⟩ fs = (.error (osError .notFound), fs) := by
  have hbody : (pre ++ .name n :: z).rdropWhile PathPart.isSep =
      pre ++ .name n :: z.rdropWhile PathPart.isSep := rdropWhile_append_cons rfl pre z
  unfold DirPath.endsInDot at hdot
  rw [hbody] at hdot
  generalize hz' : z.rdropWhile PathPart.isSep = z' at hbody hdot
  induction z' using List.reverseRecOn with
  | nil => simp at hdot
  | append_singleton z' x _ =>
    have happ : pre ++ .name n :: (z' ++ [x]) = (pre ++ .name n :: z') ++ [x] := by simp
    rw [happ] at hbody
    simp only [Dir.createDir, hbody, List.getLast?_concat, List.dropLast_concat, h.walkBody z']

theorem FirstMissing.made (h : FirstMissing fs s pre d n) (hz : ∀ x ∈ z, x.noise = true) :
    (fs.insertDir d n).walkBody s (pre ++ .name n :: z) = .ok (d ++ [n]) := by
  have hle : fs.Le (fs.insertDir d n) := ⟨DirTree.le_insertDir _ _ _, rfl, rfl⟩
  have hleads := hle.walkBody h.leads
  have hnode : (fs.insertDir d n).tree.node (d ++ [n]) = some .dir := by
    simp [Fs.insertDir, h.lacks.node_insertDir]
  have hname : (fs.insertDir d n).walkBody s (pre ++ [.name n]) = .ok (d ++ [n]) := by
    unfold Fs.walkBody at hleads ⊢
    rw [List.map_append]
    exact DirTree.walk_dir hleads hnode
  have happ : pre ++ PathPart.name n :: z = pre ++ [.name n] ++ z := by simp
  rw [happ]
  exact walkBody_noise hname (DirTree.isDir_iff.mpr hnode) hz

theorem FirstMissing.created (h : FirstMissing fs s pre d n) (hz : ∀ x ∈ z, x.noise = true) :
    Created fs (fs.insertDir d n) [⟨s, pre ++ .name n :: z⟩] [d ++ [n]] := by
  apply created_insertDir h.lacks
  simp [Fs.resolve, DirPath.isEmpty, h.made hz]

/-- A directory that is there is not made again. -/
theorem createDir_exists (h : fs.IsDirectory p.start p.body) (hp : ∃ x ∈ p.body, x.isSep = false) :
    createDir deny p fs = (.error existsError, fs) := by
  obtain ⟨x, hx, hsep⟩ := hp
  have hdirectory := h.of_prefix (List.rdropWhile_prefix PathPart.isSep p.body)
  have hne : p.body.rdropWhile PathPart.isSep ≠ [] := by
    intro hnil
    rw [List.rdropWhile_eq_nil_iff] at hnil
    rw [hnil x hx] at hsep
    cases hsep
  unfold createDir
  generalize p.body.rdropWhile PathPart.isSep = body at hdirectory hne
  induction body using List.reverseRecOn with
  | nil => exact absurd rfl hne
  | append_singleton body x _ =>
    obtain ⟨q, hq, hdir⟩ := hdirectory.of_prefix (List.prefix_append body [x])
    simp only [List.getLast?_concat, List.dropLast_concat, hq, hdir, if_true]
    cases x with
    | sep => rfl
    | cur => rfl
    | up => rfl
    | name n =>
      obtain ⟨m, hm, -⟩ := hdirectory
      unfold Fs.walkBody at hm hq
      rw [List.map_append] at hm
      cases hnode : fs.tree.node (q ++ [n]) with
      | none => exact absurd hnode (DirTree.node_of_walk_name hq hdir hm)
      | some k => simp [hnode]

/-- A step either does the same whatever is refused, or it takes a free name. -/
theorem createDir_cases (fs : Fs N) (p : DirPath N) :
    (∃ e, ∀ deny, createDir deny p fs = (.error e, fs)) ∨
      ∃ d n, fs.tree.node (d ++ [n]) = none ∧
        ∀ deny, createDir deny p fs = fs.makeDir deny d n := by
  cases hlast : (p.body.rdropWhile PathPart.isSep).getLast? with
  | none =>
    simp only [createDir, hlast]
    by_cases hs : p.start = .here
    · exact .inl ⟨osError .notFound, fun _ => if_pos hs⟩
    · exact .inl ⟨existsError, fun _ => if_neg hs⟩
  | some last =>
    cases hwalk : fs.walkBody p.start (p.body.rdropWhile PathPart.isSep).dropLast with
    | error e =>
      simp only [createDir, hlast, hwalk]
      exact .inl ⟨osError e, fun _ => rfl⟩
    | ok d =>
      simp only [createDir, hlast, hwalk]
      by_cases hdir : fs.tree.isDir d = true
      · simp only [hdir, if_true]
        cases last with
        | sep => exact .inl ⟨existsError, fun _ => rfl⟩
        | cur => exact .inl ⟨existsError, fun _ => rfl⟩
        | up => exact .inl ⟨existsError, fun _ => rfl⟩
        | name n =>
          cases hnode : fs.tree.node (d ++ [n]) with
          | some k => exact .inl ⟨existsError, fun _ => by simp only [hnode]⟩
          | none => exact .inr ⟨d, n, hnode, fun _ => by simp only [hnode]⟩
      · exact .inl ⟨osError .notDir, fun _ => if_neg hdir⟩

variable (text : N → String)

theorem createAll_ok (rest : List (DirPath N)) (completed : List String)
    (h : createDir deny p fs = (.ok (), fs')) :
    createAll text deny (p :: rest) completed fs =
      createAll text deny rest (completed ++ [p.display text]) fs' := by
  simp only [createAll, h]

theorem createAll_exists (rest : List (DirPath N)) (completed : List String)
    (h : createDir deny p fs = (.error existsError, fs)) :
    createAll text deny (p :: rest) completed fs =
      createAll text deny rest (completed ++ [p.display text]) fs := by
  simp only [createAll, h]
  exact if_pos rfl

theorem createAll_error (rest : List (DirPath N)) (completed : List String) {e : IoError}
    (h : createDir deny p fs = (.error e, fs')) (he : e.kind ≠ .alreadyExists) :
    ∃ failed, createAll text deny (p :: rest) completed fs =
      (.error (.partialDirectoryOp failed completed), fs') := by
  simp only [createAll, h]
  exact ⟨_, if_neg he⟩

end Steps

/-! ### The loop over names -/

/-- The names of the parts up to the first `..`. -/
def leadingNames : List (PathPart N) → List N
  | [] => []
  | .sep :: rest => leadingNames rest
  | .cur :: rest => leadingNames rest
  | .up :: _ => []
  | .name n :: rest => n :: leadingNames rest

theorem leadingNames_append_up {a : List (PathPart N)} (ha : .up ∉ a) (rest : List (PathPart N)) :
    leadingNames (a ++ .up :: rest) = leadingNames a := by
  induction a with
  | nil => rfl
  | cons x a ih =>
    have hrest := ih (by simp_all)
    cases x with
    | up => simp at ha
    | sep => exact hrest
    | cur => exact hrest
    | name n => simp [leadingNames, hrest]

section Run

variable [DecidableEq N] (text : N → String) (deny : List N → Option Refusal)

/-- The directories that the names make, each in the one before. -/
def Fs.insertDirs (fs : Fs N) (d : List N) : List N → Fs N
  | [] => fs
  | n :: ns => (fs.insertDir d n).insertDirs (d ++ [n]) ns

/-- Every name makes its directory, or one of them is refused. -/
theorem createAll_names {a : List (PathPart N)} (ha : .up ∉ a) (m : N)
    (hd : fs.walkBody s pre = .ok d) (hdir : fs.tree.isDir d = true)
    (hlacks : ∀ k, (leadingNames a ++ [m]).head? = some k → fs.tree.Lacks d k)
    (rest : List (DirPath N)) (completed : List String) :
    (Created fs (fs.insertDirs d (leadingNames a)) ((cuts pre a).map (pathOf s))
        (DirTree.chain d (leadingNames a)) ∧
      FirstMissing (fs.insertDirs d (leadingNames a)) s (pre ++ a) (d ++ leadingNames a) m ∧
      createAll text deny ((cuts pre a).map (pathOf s) ++ rest) completed fs =
        createAll text deny rest
          (completed ++ ((cuts pre a).map (pathOf s)).map (DirPath.display text))
          (fs.insertDirs d (leadingNames a))) ∨
    ∃ q ∈ DirTree.chain d (leadingNames a), deny q ≠ none ∧ ∃ failed made locs fs',
      createAll text deny ((cuts pre a).map (pathOf s) ++ rest) completed fs =
        (.error (.partialDirectoryOp failed (completed ++ made.map (DirPath.display text))), fs') ∧
      made <+: (cuts pre a).map (pathOf s) ∧ Created fs fs' made locs := by
  induction a generalizing fs pre d completed with
  | nil =>
    refine .inl ⟨.refl fs, ?_, by simp [cuts, leadingNames, Fs.insertDirs]⟩
    simpa [leadingNames, Fs.insertDirs] using (⟨hd, hlacks m rfl⟩ : FirstMissing fs s pre d m)
  | cons x a ih =>
    have ha' : .up ∉ a := by simp_all
    have happ : pre ++ x :: a = pre ++ [x] ++ a := by simp
    rw [happ]
    cases x with
    | up => simp at ha
    | sep => exact ih ha' (walkBody_noise hd hdir (by simp [PathPart.noise])) hdir hlacks completed
    | cur => exact ih ha' (walkBody_noise hd hdir (by simp [PathPart.noise])) hdir hlacks completed
    | name k =>
      have hfirst : FirstMissing fs s pre d k := ⟨hd, hlacks k rfl⟩
      have hstep := hfirst.createDir deny (z := []) (by simp)
      cases hdeny : deny (d ++ [k]) with
      | some refusal =>
        rw [Fs.makeDir, hdeny] at hstep
        obtain ⟨failed, hfailed⟩ := createAll_error text
          ((cuts (pre ++ [.name k]) a).map (pathOf s) ++ rest) completed hstep refusal.kind_ne
        refine .inr ⟨d ++ [k], List.mem_cons_self, by simp [hdeny], failed, [], [], fs, ?_,
          List.nil_prefix, .refl fs⟩
        rw [List.map_nil, List.append_nil]
        exact hfailed
      | none =>
        rw [Fs.makeDir, hdeny] at hstep
        have hmade := hfirst.made (z := []) (by simp)
        have hcreated := hfirst.created (z := []) (by simp)
        have hempty : ∀ j, (fs.insertDir d k).tree.Lacks (d ++ [k]) j := hfirst.lacks.insertDir
        have hd' : (fs.insertDir d k).tree.isDir (d ++ [k]) = true :=
          DirTree.isDir_iff.mpr (hempty k).1
        have hcons : (cuts pre (.name k :: a)).map (pathOf s) ++ rest =
            ⟨s, pre ++ [.name k]⟩ :: ((cuts (pre ++ [.name k]) a).map (pathOf s) ++ rest) := rfl
        rw [hcons, createAll_ok text _ completed hstep]
        cases ih ha' hmade hd' (fun j _ => hempty j)
          (completed ++ [DirPath.display text ⟨s, pre ++ [.name k]⟩]) with
        | inl hall =>
          obtain ⟨hc, hf, he⟩ := hall
          refine .inl ⟨hcreated.trans hc, ?_, ?_⟩
          · simpa [leadingNames, Fs.insertDirs] using hf
          · rw [he, List.append_assoc]
            rfl
        | inr hrefused =>
          obtain ⟨q, hq, hne, failed, made, locs, fs', he, hstart, hc⟩ := hrefused
          refine .inr ⟨q, List.mem_cons_of_mem _ hq, hne, failed,
            ⟨s, pre ++ [PathPart.name k]⟩ :: made, (d ++ [k]) :: locs, fs', ?_,
            (List.prefix_cons_inj _).mpr hstart, hcreated.trans hc⟩
          rw [he, List.append_assoc]
          rfl

end Run

end Fsys.Dir
