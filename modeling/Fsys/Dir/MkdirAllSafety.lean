import Fsys.Dir.MkdirSteps

/-!
# What `mkdir_all` makes

A `..` behind a missing name turns the steps after it into others: they find something there,
or make a directory after a step that made none. A dot at the end is looked for in a directory
that was not made, and above a relative path stands the empty one.
-/

namespace Fsys.Dir

open Fsys.Base

variable {N : Type} {fs fs' : Fs N} {s : PathStart} {p : DirPath N} {d : List N} {n : N}
  {pre tail body a z : List (PathPart N)} {x : PathPart N}

/-! ### A path that is missing -/

/-- The path with its first missing name and its last component. -/
structure Missing (fs : Fs N) (p : DirPath N) (pre tail a z : List (PathPart N)) (x : PathPart N)
    (d : List N) (n : N) : Prop where
  body : p.body = pre ++ .name n :: tail
  first : FirstMissing fs p.start pre d n
  bare : ¬Bare p.start pre
  last : .name n :: tail = a ++ x :: z
  component : x.noise = false
  noise : ∀ y ∈ z, y.noise = true

theorem Missing.isEmpty (h : Missing fs p pre tail a z x d n) : p.isEmpty = false := by
  simp [DirPath.isEmpty, h.body]

theorem Missing.toCreate (h : Missing fs p pre tail a z x d n) :
    toCreate fs p = .ok (p :: ((cuts pre a).map (pathOf p.start)).reverse) := by
  have heq := toCreate_eq h.first h.last h.component h.noise
  rw [toCreate_above h.first h.bare, ← h.body] at heq
  simpa [Except.map, pathOf] using heq

/-- The steps are among the ancestors, the one next to the root first. -/
theorem sublist_ancestors {l steps : List (DirPath N)} (hl : toCreate fs p = .ok l)
    (hsteps : steps <+: l.reverse) : steps.Sublist p.ancestors.reverse :=
  hsteps.sublist.trans (toCreate_starts hl).sublist.reverse

theorem Missing.lacks (h : Missing fs p pre tail a z x d n) {m : N} (hx : a = [] → x = .name m)
    (k : N) (hk : (leadingNames a ++ [m]).head? = some k) : fs.tree.Lacks d k := by
  have hlast := h.last
  cases a with
  | nil =>
    have hm : PathPart.name n = .name m := (List.cons.inj hlast).1.trans (hx rfl)
    cases hm
    cases hk
    exact h.first.lacks
  | cons y a =>
    have hy : PathPart.name n = y := (List.cons.inj hlast).1
    rw [← hy] at hk
    cases hk
    exact h.first.lacks

/-- A report of the directories made in some of the steps. -/
theorem Missing.sublist (h : Missing fs p pre tail a z x d n) {steps : List (DirPath N)}
    (hsteps : steps <+: (cuts pre a).map (pathOf p.start) ++ [p]) :
    steps.Sublist p.ancestors.reverse := by
  apply sublist_ancestors h.toCreate
  simpa using hsteps

theorem Missing.path {m : N} (h : Missing fs p pre tail a z (.name m) d n) :
    p = ⟨p.start, (pre ++ a) ++ .name m :: z⟩ := by
  have hbody : p.body = (pre ++ a) ++ .name m :: z := by simp [h.body, h.last]
  cases p
  simp_all

theorem name_component (n : N) (tail : List (PathPart N)) :
    ∃ y ∈ PathPart.name n :: tail, y.noise = false := ⟨.name n, by simp, rfl⟩

/-- The directory of a missing path with its last component. -/
theorem exists_missing (hbody : p.body = pre ++ .name n :: tail)
    (hfirst : FirstMissing fs p.start pre d n) (hbare : ¬Bare p.start pre) :
    ∃ a z x, Missing fs p pre tail a z x d n := by
  obtain ⟨a, x, z, hlast, hx, hz⟩ := exists_last_component (name_component n tail)
  exact ⟨a, z, x, hbody, hfirst, hbare, hlast, hx, hz⟩

theorem isSep_of_endsInDot {m : N} (hz : ∀ y ∈ z, y.noise = true)
    (h : DirPath.endsInDot ⟨s, pre ++ .name m :: z⟩ = false) : ∀ y ∈ z, y.isSep = true := by
  rw [← List.rdropWhile_eq_nil_iff]
  by_contra hne
  have hlast := List.rdropWhile_last_not PathPart.isSep z hne
  have hmem : (z.rdropWhile PathPart.isSep).getLast hne ∈ z :=
    (List.rdropWhile_prefix PathPart.isSep z).subset (List.getLast_mem hne)
  have hcur : (z.rdropWhile PathPart.isSep).getLast hne = .cur := by
    have hnoise := hz _ hmem
    cases hy : (z.rdropWhile PathPart.isSep).getLast hne with
    | sep => exact absurd (by rw [hy]; rfl) hlast
    | cur => rfl
    | up =>
      rw [hy] at hnoise
      cases hnoise
    | name k =>
      rw [hy] at hnoise
      cases hnoise
  have hbody : (pre ++ .name m :: z).rdropWhile PathPart.isSep =
      pre ++ .name m :: z.rdropWhile PathPart.isSep := rdropWhile_append_cons rfl pre z
  have hget : (pre ++ .name m :: z.rdropWhile PathPart.isSep).getLast? = some .cur := by
    rw [List.getLast?_append, List.getLast?_cons, List.getLast?_eq_some_getLast hne, hcur]
    rfl
  unfold DirPath.endsInDot at h
  rw [hbody, hget] at h
  cases h

/-- The components of a missing path without `..` are names. -/
theorem Missing.names (h : Missing fs p pre tail a z x d n) (hup : .up ∉ tail) :
    .up ∉ a ∧ ∃ m, x = .name m := by
  have hnot : .up ∉ a ++ x :: z := by
    rw [← h.last]
    simp [hup]
  refine ⟨fun hmem => hnot (by simp [hmem]), ?_⟩
  have hx := h.component
  cases x with
  | sep => cases hx
  | cur => cases hx
  | up => simp at hnot
  | name m => exact ⟨m, rfl⟩

section Result

variable [DecidableEq N] (text : N → String)

/-- What `mkdir_all` is to do: when nothing is refused it makes every directory on the way, once,
and nothing else; otherwise it reports the directories it made. -/
structure MkdirAllSpec (fs : Fs N) (p : DirPath N) : Prop where
  creates : ∃ fs' steps locs, mkdirAll text (fun _ => none) p fs = (.ok (), fs') ∧
    (∀ b, b <+: p.body → fs'.IsDirectory p.start b) ∧
    steps.Sublist p.ancestors.reverse ∧ Created fs fs' steps locs ∧
    ∀ deny, mkdirAll text deny p fs' = (.ok (), fs')
  reports : ∀ deny e fs', mkdirAll text deny p fs = (.error e, fs') →
    ∃ failed steps locs, e = .partialDirectoryOp failed (steps.map (DirPath.display text)) ∧
      steps.Sublist p.ancestors.reverse ∧ Created fs fs' steps locs

/-- The path is a directory; or it is not a relative one whose first component is missing, and
from the first missing name on it goes down by names to a last component that is no dot; or it
goes up there, and is a directory once the names before that are made. -/
def Descends (fs : Fs N) (p : DirPath N) : Prop :=
  fs.IsDirectory p.start p.body ∨
    ∃ pre n tail d, p.body = pre ++ .name n :: tail ∧ FirstMissing fs p.start pre d n ∧
      ¬Bare p.start pre ∧
      ((.up ∉ tail ∧ p.endsInDot = false) ∨
        (.up ∈ tail ∧
          (fs.insertDirs d (n :: leadingNames tail)).IsDirectory p.start p.body))

variable {text}

theorem mkdirAll_dir (h : fs.IsDirectory p.start p.body) (hne : p.isEmpty = false)
    (deny : List N → Option Refusal) : mkdirAll text deny p fs = (.ok (), fs) := by
  rw [mkdirAll, toCreate_dir h hne]
  rfl

theorem Missing.mkdirAll (h : Missing fs p pre tail a z x d n) (deny : List N → Option Refusal) :
    mkdirAll text deny p fs =
      createAll text deny ((cuts pre a).map (pathOf p.start) ++ [p]) [] fs := by
  rw [Dir.mkdirAll, h.toCreate]
  simp


/-! ### Names only -/

/-- What the steps before the last one do. -/
theorem Missing.run (text : N → String) (deny : List N → Option Refusal) {m : N}
    (h : Missing fs p pre tail a z (.name m) d n) (ha : .up ∉ a) :
    (Created fs (fs.insertDirs d (leadingNames a)) ((cuts pre a).map (pathOf p.start))
        (DirTree.chain d (leadingNames a)) ∧
      FirstMissing (fs.insertDirs d (leadingNames a)) p.start (pre ++ a) (d ++ leadingNames a) m ∧
      Dir.mkdirAll text deny p fs = createAll text deny [p]
        (((cuts pre a).map (pathOf p.start)).map (DirPath.display text))
        (fs.insertDirs d (leadingNames a))) ∨
    ∃ q, deny q ≠ none ∧ ∃ failed made locs fs',
      Dir.mkdirAll text deny p fs =
        (.error (.partialDirectoryOp failed (made.map (DirPath.display text))), fs') ∧
      made <+: (cuts pre a).map (pathOf p.start) ∧ Created fs fs' made locs := by
  rw [h.mkdirAll]
  have hrun := createAll_names text deny ha m h.first.leads h.first.isDir
    (h.lacks fun _ => rfl) [p] []
  simp only [List.nil_append] at hrun
  cases hrun with
  | inl hall => exact .inl hall
  | inr hrefused =>
    obtain ⟨q, -, hrest⟩ := hrefused
    exact .inr ⟨q, hrest⟩

theorem Missing.spec_names {m : N} (h : Missing fs p pre tail a z (.name m) d n) (ha : .up ∉ a)
    (hz : ∀ y ∈ z, y.isSep = true) : MkdirAllSpec text fs p := by
  constructor
  · obtain ⟨hcreated, hlast, hrun⟩ | ⟨q, hne, -⟩ := h.run text (fun _ => none) ha
    · have hstep := hlast.createDir (fun _ => none) hz
      have hmade := hlast.created h.noise
      have hbody := hlast.made h.noise
      rw [← h.path] at hstep hmade
      have hp : p.body = (pre ++ a) ++ .name m :: z := by rw [h.path]
      rw [← hp] at hbody
      have hdirectory : (Fs.insertDir _ (d ++ leadingNames a) m).IsDirectory p.start p.body :=
        ⟨_, hbody, DirTree.isDir_iff.mpr (hlast.lacks.insertDir m).1⟩
      refine ⟨_, _, _, ?_, fun b hb => hdirectory.of_prefix hb, h.sublist List.prefix_rfl,
        hcreated.trans hmade, mkdirAll_dir hdirectory h.isEmpty⟩
      rw [hrun, createAll_ok text [] _ hstep]
      rfl
    · exact absurd rfl hne
  · intro deny e fs' herror
    obtain ⟨hcreated, hlast, hrun⟩ | ⟨q, -, failed, made, locs, fs₁, hrun, hstart, hcreated⟩ :=
      h.run text deny ha
    · have hstep := hlast.createDir deny hz
      rw [← h.path] at hstep
      rw [hrun] at herror
      cases hdeny : deny (d ++ leadingNames a ++ [m]) with
      | none =>
        rw [Fs.makeDir, hdeny] at hstep
        rw [createAll_ok text [] _ hstep] at herror
        cases herror
      | some refusal =>
        rw [Fs.makeDir, hdeny] at hstep
        obtain ⟨failed, hfailed⟩ := createAll_error text [] _ hstep refusal.kind_ne
        rw [hfailed] at herror
        cases herror
        exact ⟨failed, _, _, rfl, h.sublist (List.prefix_append _ _), hcreated⟩
    · rw [hrun] at herror
      cases herror
      exact ⟨failed, made, locs, rfl, h.sublist (hstart.trans (List.prefix_append _ _)),
        hcreated⟩

/-- A dot at the end fails. -/
theorem Missing.not_spec_dot {m : N} (h : Missing fs p pre tail a z (.name m) d n)
    (ha : .up ∉ a) (hdot : p.endsInDot = true) : ¬MkdirAllSpec text fs p := by
  intro hspec
  obtain ⟨fs', -, -, hok, -⟩ := hspec.creates
  obtain ⟨-, hlast, hrun⟩ | ⟨q, hne, -⟩ := h.run text (fun _ => none) ha
  · rw [h.path] at hdot
    have hstep := hlast.createDir_dot (fun _ => none) hdot
    rw [← h.path] at hstep
    obtain ⟨failed, hfailed⟩ := createAll_error text [] _ hstep (by decide)
    rw [hrun, hfailed] at hok
    cases hok
  · exact absurd rfl hne

/-! ### Behind a `..` -/

theorem createAll_existing (deny : List N → Option Refusal) {later : List (DirPath N)}
    (h : ∀ q ∈ later, fs.IsDirectory q.start q.body ∧ ∃ y ∈ q.body, y.isSep = false)
    (completed : List String) : createAll text deny later completed fs = (.ok (), fs) := by
  induction later generalizing completed with
  | nil => rfl
  | cons q later ih =>
    obtain ⟨hdirectory, hsep⟩ := h q (by simp)
    rw [createAll_exists text later completed (createDir_exists hdirectory hsep)]
    exact ih (fun r hr => h r (by simp [hr])) _

/-- The steps change nothing, or there is a first one that makes a directory, and its refusal
is reported together with the steps before it. -/
theorem createAll_first {later : List (DirPath N)} {completed : List String}
    (h : createAll text (fun _ => none) later completed fs = (.ok (), fs')) :
    fs' = fs ∨ ∃ before q after loc, later = before ++ q :: after ∧ fs.tree.node loc = none ∧
      (createDir (fun _ => none) q fs).1 = .ok () ∧
      ∀ deny refusal, deny loc = some refusal → ∃ failed, createAll text deny later completed fs =
        (.error (.partialDirectoryOp failed (completed ++ before.map (DirPath.display text))),
          fs) := by
  induction later generalizing completed with
  | nil =>
    cases h
    exact .inl rfl
  | cons q later ih =>
    obtain ⟨e, herror⟩ | ⟨d, n, hfree, hmake⟩ := createDir_cases fs q
    · by_cases he : e.kind = .alreadyExists
      · have hnext : ∀ deny, createAll text deny (q :: later) completed fs =
            createAll text deny later (completed ++ [q.display text]) fs := by
          intro deny
          simp only [createAll, herror, he, if_true]
        rw [hnext] at h
        obtain hsame | ⟨before, r, after, loc, hlater, hloc, hok, hfails⟩ := ih h
        · exact .inl hsame
        · refine .inr ⟨q :: before, r, after, loc, by simp [hlater], hloc, hok, ?_⟩
          intro deny refusal hdeny
          obtain ⟨failed, hfailed⟩ := hfails deny refusal hdeny
          exact ⟨failed, by rw [hnext, hfailed]; simp⟩
      · obtain ⟨failed, hfailed⟩ := createAll_error text later completed (herror fun _ => none) he
        rw [hfailed] at h
        cases h
    · refine .inr ⟨[], q, later, d ++ [n], rfl, hfree, by rw [hmake]; rfl, ?_⟩
      intro deny refusal hdeny
      have hstep := hmake deny
      rw [Fs.makeDir, hdeny] at hstep
      obtain ⟨failed, hfailed⟩ := createAll_error text later completed hstep refusal.kind_ne
      exact ⟨failed, by rw [hfailed]; simp⟩

/-- The names up to the first `..`, and the steps from there on. -/
structure GoesUp (fs : Fs N) (p : DirPath N) (pre t a : List (PathPart N)) (d : List N)
    (n : N) : Prop where
  names : .up ∉ t
  run : ∀ (text : N → String) deny, Dir.mkdirAll text deny p fs = createAll text deny
    ((cuts pre (.name n :: t)).map (pathOf p.start) ++
      ((cuts (pre ++ .name n :: t) a).map (pathOf p.start) ++ [p])) [] fs
  ancestors : ∀ steps, steps <+: (cuts pre (.name n :: t)).map (pathOf p.start) →
    steps.Sublist p.ancestors.reverse
  first : FirstMissing fs p.start pre d n
  next : ∃ r, p.body = (pre ++ .name n :: t) ++ .up :: r ∧
    (a = [] ∧ (∀ y ∈ r, y.noise = true) ∨ ∃ a' r', a = .up :: a' ∧ r = a' ++ r')

theorem Missing.goesUp {t₁ t₂ : List (PathPart N)} (h : Missing fs p pre tail a z x d n)
    (htail : tail = t₁ ++ .up :: t₂) (ht : .up ∉ t₁) : ∃ a', GoesUp fs p pre t₁ a' d n := by
  have hlast := h.last
  rw [htail, ← List.cons_append] at hlast
  obtain ⟨a', ha, hrest⟩ : ∃ a', a = (.name n :: t₁) ++ a' ∧ .up :: t₂ = a' ++ x :: z := by
    obtain ⟨a', ha, hup⟩ | ⟨c, hc, hx⟩ := List.append_eq_append_iff.mp hlast
    · exact ⟨a', ha, hup⟩
    · cases c with
      | nil => exact ⟨[], by simpa using hc.symm, by simpa using hx.symm⟩
      | cons y c =>
        have hz : z = c ++ .up :: t₂ := (List.cons.inj hx).2
        have hnoise := h.noise .up (by simp [hz])
        cases hnoise
  have hcuts : cuts pre a = cuts pre (.name n :: t₁) ++ cuts (pre ++ .name n :: t₁) a' := by
    rw [ha, cuts_append]
  refine ⟨a', ht, ?_, ?_, h.first, t₂, by simp [h.body, htail], ?_⟩
  · intro text deny
    rw [h.mkdirAll, hcuts, List.map_append, List.append_assoc]
  · intro steps hsteps
    apply h.sublist
    rw [hcuts, List.map_append, List.append_assoc]
    exact hsteps.trans (List.prefix_append _ _)
  · cases a' with
    | nil =>
      cases hrest
      exact .inl ⟨rfl, h.noise⟩
    | cons y a' =>
      obtain ⟨hy, ht₂⟩ := List.cons.inj hrest
      exact .inr ⟨a', x :: z, by rw [← hy], ht₂⟩

variable {t : List (PathPart N)}

theorem GoesUp.later (h : GoesUp fs p pre t a d n) (hdir : fs'.IsDirectory p.start p.body) :
    ∀ q ∈ (cuts (pre ++ .name n :: t) a).map (pathOf p.start) ++ [p],
      fs'.IsDirectory q.start q.body ∧ ∃ y ∈ q.body, y.isSep = false := by
  obtain ⟨r, hbody, hnext⟩ := h.next
  intro q hq
  cases List.mem_append.mp hq with
  | inr hlast =>
    rw [List.mem_singleton.mp hlast]
    exact ⟨hdir, .name n, by simp [hbody], rfl⟩
  | inl hcut =>
    obtain ⟨b, hb, hqb⟩ := List.mem_map.mp hcut
    obtain ⟨r₁, hb₁, hr₁⟩ := mem_cuts hb
    rw [← hqb, pathOf]
    refine ⟨hdir.of_prefix ?_, .name n, by simp [hb₁], rfl⟩
    rw [hb₁, hbody, List.prefix_append_right_inj]
    obtain ⟨ha, -⟩ | ⟨a', r', ha, hr⟩ := hnext
    · rw [ha] at hr₁
      rw [List.prefix_nil.mp hr₁]
      exact List.nil_prefix
    · rw [ha] at hr₁
      apply hr₁.trans
      rw [hr, List.prefix_cons_inj]
      exact List.prefix_append _ _

/-- The step at the `..` makes no directory. -/
theorem GoesUp.head (h : GoesUp fs p pre t a d n) {e : List N}
    (he : fs'.walkBody p.start (pre ++ .name n :: t) = .ok e) (hdir : fs'.tree.isDir e = true) :
    ∃ c later, (cuts (pre ++ .name n :: t) a).map (pathOf p.start) ++ [p] = c :: later ∧
      createDir (fun _ => none) c fs' = (.error existsError, fs') := by
  have hup : ∀ r, (∀ y ∈ r, y.noise = true) → createDir (fun _ => none)
      ⟨p.start, (pre ++ .name n :: t) ++ .up :: r⟩ fs' = (.error existsError, fs') := by
    intro r hr
    have hwalk : fs'.walkBody p.start ((pre ++ .name n :: t) ++ [.up]) = .ok e.dropLast := by
      unfold Fs.walkBody at he ⊢
      rw [List.map_append]
      exact DirTree.walk_up he hdir
    have hdir' := DirTree.isDir_dropLast hdir
    have hnoise := walkBody_noise hwalk hdir' hr
    rw [List.append_assoc, List.singleton_append] at hnoise
    apply createDir_exists
    · exact ⟨e.dropLast, hnoise, hdir'⟩
    · exact ⟨.up, by simp, rfl⟩
  obtain ⟨r, hbody, ⟨ha, hr⟩ | ⟨a', r', ha, -⟩⟩ := h.next
  · refine ⟨p, [], by simp [ha, cuts], ?_⟩
    have hp : p = ⟨p.start, (pre ++ .name n :: t) ++ .up :: r⟩ := by
      rw [← hbody]
    rw [hp]
    exact hup r hr
  · exact ⟨_, _, by rw [ha, cuts]; rfl, hup [] (by simp)⟩

/-- What the steps up to the `..` do. -/
theorem GoesUp.run_names (h : GoesUp fs p pre t a d n) (text : N → String)
    (deny : List N → Option Refusal) :
    (Created fs (fs.insertDirs d (n :: leadingNames t))
        ((cuts pre (.name n :: t)).map (pathOf p.start))
        (DirTree.chain d (n :: leadingNames t)) ∧
      FirstMissing (fs.insertDirs d (n :: leadingNames t)) p.start (pre ++ .name n :: t)
        (d ++ n :: leadingNames t) n ∧
      Dir.mkdirAll text deny p fs = createAll text deny
        ((cuts (pre ++ .name n :: t) a).map (pathOf p.start) ++ [p])
        (((cuts pre (.name n :: t)).map (pathOf p.start)).map (DirPath.display text))
        (fs.insertDirs d (n :: leadingNames t))) ∨
    ∃ q ∈ DirTree.chain d (n :: leadingNames t), deny q ≠ none ∧ ∃ failed made locs fs',
      Dir.mkdirAll text deny p fs =
        (.error (.partialDirectoryOp failed (made.map (DirPath.display text))), fs') ∧
      made.Sublist p.ancestors.reverse ∧ Created fs fs' made locs := by
  have hnames : .up ∉ PathPart.name n :: t := by simp [h.names]
  have hlacks : ∀ k, (leadingNames (.name n :: t) ++ [n]).head? = some k →
      fs.tree.Lacks d k := by
    intro k hk
    cases hk
    exact h.first.lacks
  have hrun := createAll_names text deny hnames n h.first.leads h.first.isDir hlacks
    ((cuts (pre ++ .name n :: t) a).map (pathOf p.start) ++ [p]) []
  rw [← h.run text deny] at hrun
  cases hrun with
  | inl hall => exact .inl hall
  | inr hrefused =>
    obtain ⟨q, hq, hne, failed, made, locs, fs', herror, hstart, hcreated⟩ := hrefused
    exact .inr ⟨q, hq, hne, failed, made, locs, fs', herror, h.ancestors made hstart, hcreated⟩

theorem GoesUp.isEmpty (h : GoesUp fs p pre t a d n) : p.isEmpty = false := by
  obtain ⟨r, hbody, -⟩ := h.next
  simp [DirPath.isEmpty, hbody]

theorem GoesUp.spec (h : GoesUp fs p pre t a d n)
    (hdir : (fs.insertDirs d (n :: leadingNames t)).IsDirectory p.start p.body) :
    MkdirAllSpec text fs p := by
  have hlater := h.later hdir
  constructor
  · obtain ⟨hcreated, -, hrun⟩ | ⟨q, -, hne, -⟩ := h.run_names text fun _ => none
    · refine ⟨_, _, _, ?_, fun b hb => hdir.of_prefix hb, h.ancestors _ List.prefix_rfl, hcreated,
        mkdirAll_dir hdir h.isEmpty⟩
      rw [hrun]
      exact createAll_existing _ hlater _
    · exact absurd rfl hne
  · intro deny e fs' herror
    obtain ⟨-, -, hrun⟩ | ⟨q, -, -, failed, made, locs, fs₁, hrun, hsub, hcreated⟩ :=
      h.run_names text deny
    · rw [hrun, createAll_existing deny hlater] at herror
      cases herror
    · rw [hrun] at herror
      cases herror
      exact ⟨failed, made, locs, rfl, hsub, hcreated⟩

theorem noSpace_kind : (⟨.other, "No space left on device (os error 28)"⟩ : IoError).kind ≠
    .alreadyExists := by decide

def noSpace : Refusal := ⟨⟨.other, "No space left on device (os error 28)"⟩, noSpace_kind⟩

def refusing (loc : List N) (q : List N) : Option Refusal := if q = loc then some noSpace else none

/-- A directory made behind the `..` could have been refused, and the report would count the
step at the `..` as one that made a directory. -/
theorem GoesUp.directory_of_spec (h : GoesUp fs p pre t a d n) (hspec : MkdirAllSpec text fs p) :
    (fs.insertDirs d (n :: leadingNames t)).IsDirectory p.start p.body := by
  obtain ⟨fs', -, -, hok, hdirs, -⟩ := hspec.creates
  obtain ⟨hcreated, hfirst, hrun⟩ | ⟨q, -, hne, -⟩ := h.run_names text fun _ => none
  · rw [hrun] at hok
    obtain hsame | ⟨before, q, after, loc, hlater, hfree, hmakes, hfails⟩ := createAll_first hok
    · rw [← hsame]
      exact hdirs p.body List.prefix_rfl
    · -- the first step behind the names is not the one that makes a directory
      obtain ⟨c, later, hcons, hexists⟩ := h.head hfirst.leads hfirst.isDir
      have hbefore : before ≠ [] := by
        intro hnil
        rw [hcons, hnil] at hlater
        have hcq : c = q := (List.cons.inj hlater).1
        rw [← hcq, hexists] at hmakes
        cases hmakes
      obtain ⟨failed, hfailed⟩ := hfails (refusing loc) noSpace (if_pos rfl)
      obtain ⟨-, -, hrun'⟩ | ⟨q', hq', hne, -⟩ := h.run_names text (refusing loc)
      · rw [hfailed] at hrun'
        obtain ⟨failed', steps, locs, herror, -, hcreated'⟩ := hspec.reports _ _ _ hrun'
        have hlength := congrArg List.length (DirError.partialDirectoryOp.inj herror).2
        have hsteps := hcreated'.length_eq hcreated
        simp only [List.length_append, List.length_map] at hlength hsteps
        have hpos := List.length_pos_iff.mpr hbefore
        omega
      · have hloc : q' = loc := by
          by_contra hother
          exact hne (if_neg hother)
        have hnode := hcreated.node q'
        rw [if_pos hq', hloc, hfree] at hnode
        cases hnode
  · exact absurd rfl hne

/-! ### When it does -/

theorem spec_of_directory (h : fs.IsDirectory p.start p.body) (hne : p.isEmpty = false) :
    MkdirAllSpec text fs p := by
  constructor
  · exact ⟨fs, [], [], mkdirAll_dir h hne _, fun b hb => h.of_prefix hb, List.nil_sublist _,
      .refl fs, mkdirAll_dir h hne⟩
  · intro deny e fs' herror
    rw [mkdirAll_dir h hne] at herror
    cases herror

/-- Above a relative path whose first component is missing stands the empty one, which nothing
makes. -/
theorem not_spec_of_bare (hbody : p.body = pre ++ .name n :: tail)
    (hfirst : FirstMissing fs p.start pre d n) (hbare : Bare p.start pre) :
    ¬MkdirAllSpec text fs p := by
  intro hspec
  obtain ⟨fs', -, -, hok, -⟩ := hspec.creates
  obtain ⟨a, x, z, hlast, hx, hz⟩ := exists_last_component (name_component n tail)
  have heq := toCreate_eq hfirst hlast hx hz
  rw [toCreate_bare fs hbare, ← hbody] at heq
  have hstep : createDir (fun _ => none) ⟨.here, []⟩ fs = (.error (osError .notFound), fs) := rfl
  obtain ⟨failed, hfailed⟩ := createAll_error text
    ((cuts pre a).map (pathOf p.start) ++ [pathOf p.start p.body]) [] hstep (by decide)
  have hrun : mkdirAll text (fun _ => none) p fs =
      createAll text (fun _ => none) (⟨.here, []⟩ :: ((cuts pre a).map (pathOf p.start) ++
        [pathOf p.start p.body])) [] fs := by
    rw [mkdirAll, show toCreate fs p = _ from heq]
    simp [Except.map]
  rw [hrun, hfailed] at hok
  cases hok

theorem Missing.spec_iff (h : Missing fs p pre tail a z x d n) :
    MkdirAllSpec text fs p ↔ (.up ∉ tail ∧ p.endsInDot = false) ∨
      (.up ∈ tail ∧ (fs.insertDirs d (n :: leadingNames tail)).IsDirectory p.start p.body) := by
  by_cases hup : .up ∈ tail
  · obtain ⟨t₁, t₂, htail, ht⟩ := List.eq_append_cons_of_mem hup
    obtain ⟨a', hgoes⟩ := h.goesUp htail ht
    have hnames : leadingNames tail = leadingNames t₁ := by
      rw [htail, leadingNames_append_up ht]
    rw [hnames]
    constructor
    · intro hspec
      exact .inr ⟨hup, hgoes.directory_of_spec hspec⟩
    · intro hcase
      cases hcase with
      | inl hnot => exact absurd hup hnot.1
      | inr hdir => exact hgoes.spec hdir.2
  · obtain ⟨ha, m, hm⟩ := h.names hup
    rw [hm] at h
    constructor
    · intro hspec
      refine .inl ⟨hup, ?_⟩
      by_contra hdot
      exact h.not_spec_dot ha (by simpa using hdot) hspec
    · intro hcase
      cases hcase with
      | inl hnames =>
        have hdot := hnames.2
        rw [h.path] at hdot
        exact h.spec_names ha (isSep_of_endsInDot h.noise hdot)
      | inr hin => exact absurd hin.1 hup

/-- `mkdir_all` does what it is to do exactly when the path descends. -/
theorem mkdirAll_spec_iff (text : N → String) (fs : Fs N) (p : DirPath N)
    (hne : p.isEmpty = false) (h : Unobstructed fs p) :
    MkdirAllSpec text fs p ↔ Descends fs p := by
  constructor
  · intro hspec
    obtain hdir | ⟨pre, n, tail, d, hbody, hfirst⟩ := directory_or_missing h
    · exact .inl hdir
    · have hbare : ¬Bare p.start pre := fun hbare => not_spec_of_bare hbody hfirst hbare hspec
      obtain ⟨a, z, x, hmissing⟩ := exists_missing hbody hfirst hbare
      exact .inr ⟨pre, n, tail, d, hbody, hfirst, hbare, hmissing.spec_iff.mp hspec⟩
  · intro hdescends
    obtain hdir | ⟨pre, n, tail, d, hbody, hfirst, hbare, hcase⟩ := hdescends
    · exact spec_of_directory hdir hne
    · obtain ⟨a, z, x, hmissing⟩ := exists_missing hbody hfirst hbare
      exact hmissing.spec_iff.mpr hcase

end Result

/-! ### An empty root directory -/

theorem rooted_nil : DirTree.Rooted ([] : List (List String × Base.Node String)) = true := rfl

def emptyFs : Fs String where
  tree := DirTree.ofEntries [] rooted_nil
  links := 40
  cwd := []
  cwd_dir := (DirTree.ofEntries [] rooted_nil).root

theorem node_emptyFs (q : List String) (n : String) : emptyFs.tree.node (q ++ [n]) = none := by
  simp [emptyFs, DirTree.ofEntries, DirTree.nodeIn]

theorem unobstructed_emptyFs (p : DirPath String) : Unobstructed emptyFs p := by
  intro pre n d _ _ _ hne
  exact absurd (node_emptyFs d n) hne

/-- `/a/b` -/
def nestedPath : DirPath String := ⟨.root, [.name "a", .name "b"]⟩

theorem mkdirAll_spec_nested : MkdirAllSpec id emptyFs nestedPath := by
  apply (mkdirAll_spec_iff id emptyFs nestedPath rfl (unobstructed_emptyFs nestedPath)).mpr
  have hfirst : FirstMissing emptyFs .root [] [] "a" :=
    ⟨rfl, emptyFs.tree.root, node_emptyFs [] "a"⟩
  exact .inr ⟨[], "a", [.name "b"], [], rfl, hfirst, by simp [Bare, nestedPath],
    .inl ⟨by simp, by decide⟩⟩

/-- `a`, in the working directory. -/
def bareName : DirPath String := ⟨.here, [.name "a"]⟩

theorem mkdirAll_bareName : bareName.isEmpty = false ∧ Unobstructed emptyFs bareName ∧
    mkdirAll id (fun _ => none) bareName emptyFs = (.error (.partialDirectoryOp
      "create_dir(): No such file or directory (os error 2)" []), emptyFs) ∧
    ¬MkdirAllSpec id emptyFs bareName := by
  have hfirst : FirstMissing emptyFs .here [] [] "a" :=
    ⟨rfl, emptyFs.tree.root, node_emptyFs [] "a"⟩
  have hbare : Bare .here ([] : List (PathPart String)) := ⟨rfl, by simp⟩
  refine ⟨rfl, unobstructed_emptyFs bareName, ?_, not_spec_of_bare rfl hfirst hbare⟩
  have heq := toCreate_eq hfirst (a := []) (z := []) (x := .name "a") rfl rfl (by simp)
  rw [toCreate_bare emptyFs hbare] at heq
  rw [mkdirAll, show toCreate emptyFs bareName = _ from heq]
  rfl

end Fsys.Dir
