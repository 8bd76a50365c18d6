import Fsys.Crud.Calls

/-!
# Temp names that are taken (src/crud/atomic.rs:195-225, src/async_io/crud_file.rs:261-273)

`with_unique_temp` goes through the names of `gen_temp_path` until an exclusive create
works, eight of them at most. The native async writer has no such loop.
-/

namespace Fsys.Crud
open Fsys.Base Fsys.Platform

/-- A create is refused only because the name exists. -/
def OnlyCollides (plan : Plan PathBuf) : Prop :=
  ∀ p t e n, plan (.create p) t = .fail e n → e.kind = .alreadyExists

/-- Calls on a name or on the file behind it, the exclusive create apart. -/
def Meddles (p : PathBuf) (i : ℕ) : Call PathBuf → Prop
  | .stat q => q = p
  | .openRead q => q = p
  | .openWrite q => q = p
  | .openCreate q => q = p
  | .create _ => False
  | .read j => j = i
  | .readExact j => j = i
  | .len j => j = i
  | .write j => j = i
  | .setLen j => j = i
  | .fence j => j = i
  | .remove q => q = p
  | .rename q r => q = p ∨ r = p
  | .syncDir _ => False
  | .setMeta q => q = p
  | .map j => j = i
  | .msync j => j = i
  | .alloc => False

variable {env : Env} {target temp : PathBuf} {data : Bytes} {w : World PathBuf}

/-! ### Exclusive creates -/

theorem createNew_free (hplan : OnlyCollides env.plan) (hfree : w.disk.names temp = none) :
    Io.createNew env.plan temp w =
      (.ok w.disk.next, ⟨w.disk.create temp, w.clock + 1, w.renames⟩) := by
  simp only [Io.createNew, hfree]
  cases hc : env.plan (.create temp) w.clock with
  | ok n => rfl
  | fail e n =>
    simp only [hplan temp w.clock e n hc, if_true]
    rfl

theorem createNew_taken (hplan : OnlyCollides env.plan) (htaken : w.disk.names temp ≠ none) :
    ∃ e, e.kind = .alreadyExists ∧
      Io.createNew env.plan temp w = (.error e, ⟨w.disk, w.clock + 1, w.renames⟩) := by
  obtain ⟨i, hi⟩ := Option.ne_none_iff_exists'.mp htaken
  cases hc : env.plan (.create temp) w.clock with
  | ok n =>
    refine ⟨⟨.alreadyExists, "file exists"⟩, rfl, ?_⟩
    simp only [Io.createNew, hi, hc]
    rfl
  | fail e n =>
    refine ⟨e, hplan temp w.clock e n hc, ?_⟩
    simp only [Io.createNew, hi, hc]
    rfl

/-- An opener that creates the file, or finds the name taken. -/
structure Exclusive {α : Type} (opener : PathBuf → Sys Error α) (val : ℕ → α) : Prop where
  free : ∀ temp (w : World PathBuf), w.disk.names temp = none → ∃ c,
    opener temp w = (.ok (val w.disk.next), ⟨w.disk.create temp, c, w.renames⟩)
  taken : ∀ temp (w : World PathBuf), w.disk.names temp ≠ none → ∃ e c,
    e.kind = .alreadyExists ∧
      opener temp w = (.error (.failed (.io e)), ⟨w.disk, c, w.renames⟩)

theorem exclusive_createNew (hplan : OnlyCollides env.plan) :
    Exclusive (fun temp => sysCall (Io.createNew env.plan temp)) id where
  free temp w hfree := by
    refine ⟨w.clock + 1, ?_⟩
    simp only [sysCall, Prog.mapError, createNew_free hplan hfree]
    rfl
  taken temp w htaken := by
    obtain ⟨e, hkind, he⟩ := createNew_taken hplan htaken
    refine ⟨e, w.clock + 1, hkind, ?_⟩
    simp only [sysCall, Prog.mapError, he]
    rfl

/-- `AlreadyExists` is not what makes `open_write_new` give up on Direct IO. -/
theorem exclusive_openWriteNew (hplan : OnlyCollides env.plan) (useDirect : Bool) :
    Exclusive (fun temp => openWriteNew env temp useDirect) fun file => (file, useDirect) where
  free temp w hfree := by
    refine ⟨w.clock + 1, ?_⟩
    unfold openWriteNew
    show Prog.bind _ _ w = _
    simp only [Prog.bind, Prog.attempt, createNew_free hplan hfree]
    rfl
  taken temp w htaken := by
    obtain ⟨e, hkind, he⟩ := createNew_taken hplan htaken
    refine ⟨e, w.clock + 1, hkind, ?_⟩
    unfold openWriteNew
    show Prog.bind _ _ w = _
    simp only [Prog.bind, Prog.attempt, he, hkind, reduceCtorEq, decide_false, Bool.and_false,
      Bool.false_eq_true, if_false]
    rfl

/-! ### The loop -/

section

variable {α : Type} {opener : PathBuf → Sys Error α} {val : ℕ → α}

theorem uniqueTemp_first (hex : Exclusive opener val) (left attempt k : ℕ)
    (hle : attempt ≤ k) (hlast : k ≤ attempt + left) (w : World PathBuf)
    (htaken : ∀ j, attempt ≤ j → j < k → w.disk.names (genTempPath env target j) ≠ none)
    (hfree : w.disk.names (genTempPath env target k) = none) :
    ∃ c, uniqueTemp env target opener left attempt w =
      (.ok (genTempPath env target k, val w.disk.next),
        ⟨w.disk.create (genTempPath env target k), c, w.renames⟩) := by
  induction left generalizing attempt w with
  | zero =>
    obtain rfl : attempt = k := by omega
    obtain ⟨c, hc⟩ := hex.free _ w hfree
    refine ⟨c, ?_⟩
    show Prog.bind _ _ w = _
    simp only [Prog.bind, hc]
    rfl
  | succ left ih =>
    by_cases heq : attempt = k
    · subst heq
      obtain ⟨c, hc⟩ := hex.free _ w hfree
      refine ⟨c, ?_⟩
      show Prog.bind _ _ w = _
      simp only [Prog.bind, tryErr, hc]
      rfl
    · obtain ⟨e, c, hkind, he⟩ := hex.taken _ w (htaken attempt (by omega) (by omega))
      obtain ⟨c', hc'⟩ := ih (attempt + 1) (by omega) (by omega) ⟨w.disk, c, w.renames⟩
        (fun j hj hjk => htaken j (by omega) hjk) hfree
      refine ⟨c', ?_⟩
      show Prog.bind _ _ w = _
      simp only [Prog.bind, tryErr, he, Error.alreadyExists, hkind, decide_true, if_true]
      exact hc'

theorem uniqueTemp_exhausted (hex : Exclusive opener val) (left attempt : ℕ) (w : World PathBuf)
    (htaken : ∀ j, attempt ≤ j → j ≤ attempt + left →
      w.disk.names (genTempPath env target j) ≠ none) :
    ∃ e c, uniqueTemp env target opener left attempt w =
      (.error (.failed (.io e)), ⟨w.disk, c, w.renames⟩) := by
  induction left generalizing attempt w with
  | zero =>
    obtain ⟨e, c, hkind, he⟩ := hex.taken _ w (htaken attempt (Nat.le_refl _) (Nat.le_refl _))
    refine ⟨e, c, ?_⟩
    show Prog.bind _ _ w = _
    simp only [Prog.bind, he]
  | succ left ih =>
    obtain ⟨e, c, hkind, he⟩ := hex.taken _ w (htaken attempt (Nat.le_refl _) (by omega))
    obtain ⟨e', c', hc'⟩ := ih (attempt + 1) ⟨w.disk, c, w.renames⟩
      (fun j hj hjk => htaken j (by omega) (by omega))
    refine ⟨e', c', ?_⟩
    show Prog.bind _ _ w = _
    simp only [Prog.bind, tryErr, he, Error.alreadyExists, hkind, decide_true, if_true]
    exact hc'

end

/-! ### The writers -/

/-- Collisions are survived: the first free name among the first eight is used; an existing
file with a generated name is not called for; and with no free name the writer fails and
leaves the disk as it was. -/
structure Survives (env : Env) (target : PathBuf) (data : Bytes) (w : World PathBuf)
    (kind : WriterKind) : Prop where
  first_free : ∀ k, k < tempCreateAttempts →
    (∀ j, j < k → w.disk.names (genTempPath env target j) ≠ none) →
    w.disk.names (genTempPath env target k) = none →
    ∃ c, kind.openTemp env target data w =
        (.ok (genTempPath env target k, w.disk.next, kind.useDirect),
          ⟨w.disk.create (genTempPath env target k), c, w.renames⟩) ∧
      kind.run env target data w =
        kind.afterTemp env target data (genTempPath env target k) w.disk.next kind.useDirect
          ⟨w.disk.create (genTempPath env target k), c, w.renames⟩
  untouched : ∀ k i, w.disk.names (genTempPath env target k) = some i →
    ∀ plan, (∀ c, ¬ Meddles (genTempPath env target k) i c → plan c = env.plan c) →
      kind.run (answering env plan) target data w = kind.run env target data w
  exhausted : (∀ k, k < tempCreateAttempts →
      w.disk.names (genTempPath env target k) ≠ none) →
    (∃ e, (kind.run env target data w).1 = .error (.failed e)) ∧
      (kind.run env target data w).2.disk = w.disk

/-- The calls of a writer leave an existing file alone, whatever its name. -/
theorem not_meddles_of_issued {p : PathBuf} {i : ℕ} {c : Call PathBuf} (hne : p ≠ target)
    (hp : w.disk.names p = some i) (hc : WriterKind.Issued env target w c) : ¬ Meddles p i c := by
  have hold := w.disk.fresh p i hp
  intro hm
  rcases hc with ⟨k, -, rfl⟩ | hfile | ⟨k, -, hfree, htemp⟩
  · exact hm
  · cases c <;> simp only [OnFile, Meddles] at hfile hm <;> omega
  · have hother : genTempPath env target k ≠ p := by
      intro heq
      rw [heq, hp] at hfree
      cases hfree
    cases c <;> simp only [OnTemp, Meddles] at htemp hm
    case openRead q => exact hother (htemp.symm.trans hm)
    case remove q => exact hother (htemp.symm.trans hm)
    case setMeta q => exact hother (htemp.symm.trans hm)
    case rename q r =>
      rcases hm with hq | hr
      · exact hother (htemp.1.symm.trans hq)
      · exact hne (hr.symm.trans htemp.2)

theorem untouched_of_issued (kind : WriterKind) (k i : ℕ)
    (hk : w.disk.names (genTempPath env target k) = some i) (plan : Plan PathBuf)
    (hplan : ∀ c, ¬ Meddles (genTempPath env target k) i c → plan c = env.plan c) :
    kind.run (answering env plan) target data w = kind.run env target data w :=
  kind.run_answering fun c hc =>
    hplan c (not_meddles_of_issued (genTempPath_ne env target k) hk hc)

theorem run_of_openTemp {kind : WriterKind} {x : PathBuf × ℕ × Bool} {w' : World PathBuf}
    (h : kind.openTemp env target data w = (.ok x, w')) :
    kind.run env target data w = kind.afterTemp env target data x.1 x.2.1 x.2.2 w' := by
  rw [WriterKind.run_eq, Prog.bind_run h]

/-- A writer that cannot open its temp file fails as the open did. -/
theorem run_of_openTemp_error {kind : WriterKind} {e : Error} {w' : World PathBuf}
    (h : kind.openTemp env target data w = (.error (.failed e), w')) :
    kind.run env target data w = (.error (.failed e), w') := by
  rw [WriterKind.run_eq]
  show Prog.bind _ _ w = _
  simp only [Prog.bind, h]

/-- Which names the writer goes through. -/
def WriterKind.tries : WriterKind → ℕ
  | .asyncNative _ => 1
  | _ => tempCreateAttempts

theorem openTemp_first (hplan : OnlyCollides env.plan) (kind : WriterKind)
    (hsuit : kind = .mmap → isSuitableForWrite env data.length = true) (k : ℕ)
    (hk : k < kind.tries) (htaken : ∀ j, j < k → w.disk.names (genTempPath env target j) ≠ none)
    (hfree : w.disk.names (genTempPath env target k) = none) :
    ∃ c, kind.openTemp env target data w =
      (.ok (genTempPath env target k, w.disk.next, kind.useDirect),
        ⟨w.disk.create (genTempPath env target k), c, w.renames⟩) := by
  cases kind with
  | replace rp hooks =>
    obtain ⟨c, hc⟩ := uniqueTemp_first (exclusive_openWriteNew hplan rp.useDirect)
      (tempCreateAttempts - 1) 0 k (Nat.zero_le k)
      (by simp only [WriterKind.tries, tempCreateAttempts] at hk ⊢; omega) w
      (fun j _ hj => htaken j hj) hfree
    refine ⟨c, ?_⟩
    simp only [WriterKind.openTemp, withUniqueTemp, mapErr, Prog.mapError, hc]
    rfl
  | mmap =>
    obtain ⟨c, hc⟩ := uniqueTemp_first (exclusive_createNew hplan)
      (tempCreateAttempts - 1) 0 k (Nat.zero_le k)
      (by simp only [WriterKind.tries, tempCreateAttempts] at hk ⊢; omega) w
      (fun j _ hj => htaken j hj) hfree
    refine ⟨c, ?_⟩
    simp only [WriterKind.openTemp, hsuit rfl, if_true]
    show Prog.bind _ _ w = _
    simp only [Prog.bind, withUniqueTemp, mapErr, Prog.mapError, hc]
    rfl
  | asyncNative h =>
    obtain rfl : k = 0 := Nat.lt_one_iff.mp hk
    obtain ⟨c, hc⟩ := (exclusive_openWriteNew hplan h.useDirect).free _ w hfree
    refine ⟨c, ?_⟩
    show Prog.bind _ _ w = _
    simp only [Prog.bind, mapErr, Prog.mapError, hc]
    rfl

theorem openTemp_exhausted (hplan : OnlyCollides env.plan) (kind : WriterKind)
    (hsuit : kind = .mmap → isSuitableForWrite env data.length = true)
    (htaken : ∀ k, k < kind.tries → w.disk.names (genTempPath env target k) ≠ none) :
    ∃ e c, kind.openTemp env target data w =
      (.error (.failed e), ⟨w.disk, c, w.renames⟩) := by
  have hlt : ∀ j, j ≤ 0 + (tempCreateAttempts - 1) → j < tempCreateAttempts := by
    intro j hj
    simp only [tempCreateAttempts] at hj ⊢
    omega
  cases kind with
  | replace rp hooks =>
    obtain ⟨e, c, hc⟩ := uniqueTemp_exhausted (exclusive_openWriteNew hplan rp.useDirect)
      (tempCreateAttempts - 1) 0 w fun j _ hj => htaken j (hlt j hj)
    refine ⟨stepErr "open_temp" (.io e), c, ?_⟩
    simp only [WriterKind.openTemp, withUniqueTemp, mapErr, Prog.mapError, hc]
    rfl
  | mmap =>
    obtain ⟨e, c, hc⟩ := uniqueTemp_exhausted (exclusive_createNew hplan)
      (tempCreateAttempts - 1) 0 w fun j _ hj => htaken j (hlt j hj)
    refine ⟨stepErr "open_temp" (.io e), c, ?_⟩
    simp only [WriterKind.openTemp, hsuit rfl, if_true]
    show Prog.bind _ _ w = _
    simp only [Prog.bind, withUniqueTemp, mapErr, Prog.mapError, hc]
    rfl
  | asyncNative h =>
    obtain ⟨e, c, -, hc⟩ := (exclusive_openWriteNew hplan h.useDirect).taken _ w
      (htaken 0 Nat.one_pos)
    refine ⟨stepErr "open_temp" (.io e), c, ?_⟩
    show Prog.bind _ _ w = _
    simp only [Prog.bind, mapErr, Prog.mapError, hc]
    rfl

/-- The writer retries, or has no reason to. -/
def Retries (env : Env) (target : PathBuf) (w : World PathBuf) (kind : WriterKind) : Prop :=
  (∀ h, kind ≠ .asyncNative h) ∨ w.disk.names (genTempPath env target 0) = none ∨
    ∀ k, k < tempCreateAttempts → w.disk.names (genTempPath env target k) ≠ none

theorem Survives.retries (hplan : OnlyCollides env.plan) {kind : WriterKind}
    (hsuit : kind = .mmap → isSuitableForWrite env data.length = true)
    (h : Survives env target data w kind) : Retries env target w kind := by
  by_contra hnot
  simp only [Retries, not_or, not_forall, not_not] at hnot
  obtain ⟨⟨hd, hkind⟩, h0, hsome⟩ := hnot
  -- the first name that is free, which the writer never tries
  have hex : ∃ k, k < tempCreateAttempts ∧ w.disk.names (genTempPath env target k) = none := by
    obtain ⟨k, hk, hfree⟩ := hsome
    exact ⟨k, hk, by simpa using hfree⟩
  classical
  obtain ⟨hk, hfree⟩ := Nat.find_spec hex
  have hbefore : ∀ j, j < Nat.find hex → w.disk.names (genTempPath env target j) ≠ none := by
    intro j hj hnone
    exact Nat.find_min hex hj ⟨by omega, hnone⟩
  obtain ⟨c, hc, -⟩ := h.first_free _ hk hbefore hfree
  have htaken : ∀ j, j < kind.tries → w.disk.names (genTempPath env target j) ≠ none := by
    rw [hkind]
    intro j hj
    obtain rfl : j = 0 := Nat.lt_one_iff.mp hj
    exact h0
  obtain ⟨e, c', he⟩ := openTemp_exhausted hplan kind hsuit htaken
  rw [he] at hc
  cases hc

/-- A writer survives collisions except that the native async writer gives up on the first
name when that is taken and another of the eight is free. -/
theorem temp_collisions_survived_iff (env : Env) (hplan : OnlyCollides env.plan)
    (target : PathBuf) (data : Bytes) (w : World PathBuf) (kind : WriterKind)
    (hsuit : kind = .mmap → isSuitableForWrite env data.length = true) :
    Survives env target data w kind ↔ Retries env target w kind := by
  constructor
  · exact Survives.retries hplan hsuit
  · intro h
    refine ⟨?_, fun k i hk plan hp => untouched_of_issued kind k i hk plan hp, ?_⟩
    · intro k hk htaken hfree
      have htries : k < kind.tries := by
        rcases h with hnot | h0 | hall
        · cases kind with
          | replace rp hooks => exact hk
          | mmap => exact hk
          | asyncNative hd => exact absurd rfl (hnot hd)
        · -- the first name is free, so it is the first free one
          have hzero : k = 0 := by
            by_contra hne
            exact htaken 0 (Nat.pos_of_ne_zero hne) h0
          rw [hzero]
          cases kind <;> simp [WriterKind.tries, tempCreateAttempts]
        · exact absurd hfree (hall k hk)
      obtain ⟨c, hc⟩ := openTemp_first hplan kind hsuit k htries htaken hfree
      have hrun := run_of_openTemp hc
      exact ⟨c, hc, hrun⟩
    · intro hall
      have htaken : ∀ k, k < kind.tries → w.disk.names (genTempPath env target k) ≠ none := by
        intro k hk
        refine hall k ?_
        cases kind with
        | replace rp hooks => exact hk
        | mmap => exact hk
        | asyncNative hd =>
          obtain rfl : k = 0 := Nat.lt_one_iff.mp hk
          decide
      obtain ⟨e, c, he⟩ := openTemp_exhausted hplan kind hsuit htaken
      have hrun := run_of_openTemp_error he
      exact ⟨⟨e, by rw [hrun]⟩, by rw [hrun]⟩

/-- A directory in which the first temp name for `/d/f` exists. -/
def collidingEnv : Env where
  plan := fun _ _ => .ok 100
  awaits := fun _ => .answered
  fuel := 100
  debugAssertions := false
  pid := 1
  nonces := fun k => k.toUInt64
  nameHash := fun _ => 0
  pageSize := 4096

def collidingTarget : PathBuf := ⟨"/d", some "f"⟩

def collidingWorld : World PathBuf where
  disk := {
    names := fun p => if p = genTempPath collidingEnv collidingTarget 0 then some 0 else none
    data := fun _ => []
    fenced := fun _ => true
    next := 1
    fresh := by
      intro p i h
      split at h
      · cases h
        exact Nat.one_pos
      · cases h }
  clock := 0
  renames := []

def directHandle : Handle := ⟨.data, 512, true, false⟩

theorem collidingWorld_second_free :
    collidingWorld.disk.names (genTempPath collidingEnv collidingTarget 1) = none := by
  decide +kernel

theorem native_writer_gives_up :
    ¬ Survives collidingEnv collidingTarget [7] collidingWorld (.asyncNative directHandle) := by
  intro h
  have hplan : OnlyCollides collidingEnv.plan := fun _ _ _ _ hc => nomatch hc
  have hretries := Survives.retries hplan (fun hk => by cases hk) h
  rcases hretries with hnot | h0 | hall
  · exact hnot directHandle rfl
  · simp [collidingWorld] at h0
  · have h1 := hall 1 (by decide)
    rw [collidingWorld_second_free] at h1
    exact h1 rfl

theorem temp_collisions_survived_iff_solo :
    Survives collidingEnv collidingTarget [7] collidingWorld
      (.replace directHandle.replacePlan (.solo directHandle)) :=
  (temp_collisions_survived_iff collidingEnv (fun _ _ _ _ hc => nomatch hc) collidingTarget [7]
    collidingWorld (.replace directHandle.replacePlan (.solo directHandle)) nofun).mpr
    (Or.inl nofun)

end Fsys.Crud
