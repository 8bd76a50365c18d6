import Fsys.Crud.SharedReads
import Fsys.Crud.TempNames

/-!
# One history for all threads

However the system calls of the threads fall, the calls of their handles did to the map what
they would have done one after another, each in one moment between its start and its end.
-/

namespace Fsys.Crud
open Fsys.Base Fsys.Platform

section

variable {ι : Type} [DecidableEq ι] {jobs : ι → Job} {start : Disk PathBuf}
  {plan : Plan PathBuf} {t : ι} {v : View}

/-! ### How a call ends -/

/-- With the answer of its operation, or without one. -/
def Job.Ends (plan : Plan PathBuf) (j : Job) (r : Except (Exit Error) Answer) (v : View) :
    Prop :=
  match r with
  | .ok a => v.took = some a
  | .error x => (j.changes = true → v.took = none) ∧ (GaveUp plan x v ∨ ∃ i b, v = .reading i b)

theorem Rid.took (h : Rid plan v) : v.took = none := by
  rcases h with rfl | ⟨⟨o, rfl⟩, -⟩
  · rfl
  · rfl

theorem GaveUp.took {x : Exit Error} (h : GaveUp plan x v) : v.took = none := by
  rcases h with h | ⟨-, o, rfl⟩
  · exact h.took
  · rfl

theorem safe_wrote {c : FileClient Error Unit} {j : Job}
    (hc : Safe jobs start plan t (Wrote plan) c v) :
    Safe jobs start plan t (j.Ends plan) (c >>= fun _ => pure .unit) v := by
  refine Protocol.safe_bind _ hc ?_ ?_
  · intro _ v' h
    have hv : v' = .finished .unit := h
    rw [hv]
    exact rfl
  · intro x v' h
    have hgave : GaveUp plan x v' := h
    exact ⟨fun _ => hgave.took, Or.inl hgave⟩

theorem safe_looked {α : Type} {c : FileClient Error α} {answer : α → Answer} {j : Job}
    (hj : j.changes = false) (hc : Safe jobs start plan t (Looked plan answer) c v) :
    Safe jobs start plan t (j.Ends plan) (c >>= fun a => pure (answer a)) v := by
  refine Protocol.safe_bind _ hc (fun a v' h => h) ?_
  intro x v' h
  refine ⟨by simp [hj], ?_⟩
  rcases h with h | h
  · exact Or.inl (Or.inl h)
  · exact Or.inr h

/-- Each call keeps to the rules. -/
theorem Job.safe (hplan : Honest plan) (hjob : (jobs t).Visible) :
    Safe jobs start plan t ((jobs t).Ends plan) (jobs t).client .idle := by
  generalize hj : jobs t = j at hjob ⊢
  cases j with
  | write env h path data fill =>
    exact safe_wrote (safe_write fill hjob fun m => by rw [hj]; rfl)
  | writeCopy env h path data fill =>
    exact safe_wrote (safe_writeCopy fill hjob fun m => by rw [hj]; rfl)
  | delete path => exact safe_wrote (safe_delete hplan hjob fun m => by rw [hj]; rfl)
  | rename old new => exact safe_wrote (safe_rename hjob.1 hjob.2 fun m => by rw [hj]; rfl)
  | read env h room path =>
    exact safe_looked rfl (safe_read env h room hjob fun m => by rw [hj]; rfl)
  | exists_ path => exact safe_looked rfl (safe_exists hplan hjob fun m => by rw [hj]; rfl)
  | size path => exact safe_looked rfl (safe_size hjob fun m => by rw [hj]; rfl)

/-! ### Runs -/

omit [DecidableEq ι] in
theorem sound_start (w : World PathBuf)
    (hlinked : ∀ p q i, w.disk.names p = some i → w.disk.names q = some i → p = q) :
    Sound w.disk w w.disk.content fun _ : ι => .idle where
  linked := hlinked
  visible p _ := rfl
  next := Nat.le_refl _
  own t o h := by cases h
  apart t u o o' h := by cases h
  opened t i b h := by cases h
  fenced p i _ hp hi := absurd (w.disk.fresh p i hp) (Nat.not_lt.mpr hi)
  hidden p _ hp := Or.inl hp

/-- The map and the answers that explain a run from `w` to `y`. -/
structure Explains (jobs : ι → Job) (plan : Plan PathBuf) (w : World PathBuf) (sched : List ι)
    (y : Threads (World PathBuf) ι (Syscall PathBuf) (Exit Error) Answer) (m : Contents)
    (took : ι → Option Answer) : Prop where
  history : Linear (fun t => (jobs t).spec) w.disk.content sched m took
  /-- the disk shows the map under all names but those of temp files -/
  visible : ∀ p, ¬ Hidden p → y.state.disk.content p = m p
  /-- a call that returned has the answer of its operation -/
  answered : ∀ t a, y.rest t = .done (.ok a) → took t = some a
  /-- the operation of a call that failed did not take place -/
  failed : ∀ t x, y.rest t = .done (.error x) → (jobs t).changes = true → took t = none
  /-- a file under a name is an old one or durable -/
  fenced : ∀ p i, ¬ Hidden p → y.state.disk.names p = some i → w.disk.next ≤ i →
    y.state.disk.fenced i = true
  /-- when all calls have ended and temp files can be removed there is none -/
  tidy : (∀ p, Io.Works plan (.remove p)) →
    (∀ t, ∃ r, y.rest t = .done r ∧ r ≠ .error .stalled) →
    ∀ p, Hidden p → y.state.disk.names p ≠ none → w.disk.names p ≠ none

/-- A write between whose calls no others fall does what the writer of `AtomicReplace` does. -/
def WritesAlone (jobs : ι → Job) (plan : Plan PathBuf) : Prop :=
  ∀ t c (s : World PathBuf) (rest : ι → FileClient Error Answer),
    (jobs t).writer plan = some c → rest t = (jobs t).client →
    ∃ n, Threads.Runs (Syscall.exec plan) ⟨s, rest⟩ (List.replicate n t)
      ⟨(c s).2, Function.update rest t (.done ((c s).1.map fun _ => .unit))⟩

theorem writesAlone (jobs : ι → Job) (plan : Plan PathBuf) : WritesAlone jobs plan := by
  intro t c s rest hc hrest
  have hrun : (jobs t).client.run (Syscall.exec plan) s =
      ((c s).1.map fun _ => .unit, (c s).2) := by
    rw [Job.run_client hc]
    show Prog.bind c _ s = _
    unfold Prog.bind
    cases c s with
    | mk r s' =>
      cases r with
      | ok a => rfl
      | error e => rfl
  obtain ⟨n, hn⟩ := Threads.runs_alone (Syscall.exec plan) t s hrest
  rw [hrun] at hn
  exact ⟨n, hn⟩

theorem Job.Ends.gone {j : Job} {r : Except (Exit Error) Answer} (h : j.Ends plan r v)
    (hremove : ∀ p, Io.Works plan (.remove p)) (hr : r ≠ .error .stalled) (o : Own PathBuf) :
    ¬ v.Holds o := by
  intro hv
  cases r with
  | ok a =>
    have htook : v.took = some a := h
    rcases hv with rfl | rfl
    · cases htook
    · cases htook
  | error x =>
    obtain ⟨-, (hrid | ⟨rfl, -⟩) | ⟨i, b, rfl⟩⟩ := h
    · rcases hrid with rfl | ⟨-, hnot⟩
      · rcases hv with hv | hv
        · cases hv
        · cases hv
      · exact hnot hremove
    · exact hr rfl
    · rcases hv with hv | hv
      · cases hv
      · cases hv

/-- Threads that use a store of whole files see one map: whatever their methods, and whatever
fails, some order of their operations, each within its call, explains all they saw. A write
that nobody disturbs is that of `AtomicReplace`. -/
theorem shared_store_linearizable (jobs : ι → Job) (plan : Plan PathBuf) (hplan : Honest plan)
    (w : World PathBuf)
    (hlinked : ∀ p q i, w.disk.names p = some i → w.disk.names q = some i → p = q)
    (hjobs : ∀ t, (jobs t).Visible) {sched : List ι}
    {y : Threads (World PathBuf) ι (Syscall PathBuf) (Exit Error) Answer}
    (hrun : Threads.Runs (Syscall.exec plan) ⟨w, fun t => (jobs t).client⟩ sched y) :
    WritesAlone jobs plan ∧ ∃ m took, Explains jobs plan w sched y m took := by
  have hstart : (storeProtocol jobs w.disk).Sound w w.disk.content fun _ => .idle :=
    sound_start w hlinked
  obtain ⟨m, vs, hlin, hsound, hsafe⟩ := Protocol.linearizes (Q := fun t => (jobs t).Ends plan)
    hstart (fun _ => rfl) (fun t => Job.safe hplan (hjobs t)) hrun
  have hends : ∀ t r, y.rest t = .done r → (jobs t).Ends plan r (vs t) := by
    intro t r hr
    have h := hsafe t
    rw [hr] at h
    exact h
  refine ⟨writesAlone jobs plan, m, fun t => (vs t).took, hlin, hsound.visible, ?_, ?_,
    hsound.fenced, ?_⟩
  · intro t a ha
    exact hends t _ ha
  · intro t x hx
    exact (hends t _ hx).1
  · intro hremove hall p hp hname
    rcases hsound.hidden p hp hname with h | ⟨t, o, hv, -⟩
    · exact h
    · obtain ⟨r, hr, hstalled⟩ := hall t
      exact absurd hv ((hends t r hr).gone hremove hstalled o)

end

/-! ### A read that a write overtakes -/

def mappedEnv : Env := { collidingEnv with pageSize := 1 }

def mappedHandle : Handle := ⟨.mmap, 512, false, false⟩

def sharedWorld : World PathBuf where
  disk := {
    names := fun p => if p = collidingTarget then some 0 else none
    data := fun _ => [1, 2]
    fenced := fun _ => true
    next := 1
    fresh := by
      intro p i h
      split at h
      · cases h
        exact Nat.one_pos
      · cases h }
  clock := 0
  renames := []

theorem sharedWorld_linked (p q : PathBuf) (i : ℕ) (hp : sharedWorld.disk.names p = some i)
    (hq : sharedWorld.disk.names q = some i) : p = q := by
  have hname : ∀ r, sharedWorld.disk.names r = some i → r = collidingTarget := by
    intro r hr
    by_contra hne
    rw [show sharedWorld.disk.names r = none from if_neg hne] at hr
    cases hr
  rw [hname p hp, hname q hq]

theorem collidingTarget_visible : ¬ Hidden collidingTarget := by
  intro h
  obtain ⟨name, hname, hprefix⟩ := h
  cases hname
  revert hprefix
  decide

/-- One thread reads the file that the other one replaces. -/
def readDuringWrite
    (fill : Filler mappedEnv mappedHandle.fallback.replacePlan (.solo mappedHandle.fallback) [7]) :
    Bool → Job
  | true => .read mappedEnv directHandle (fun _ => 31) collidingTarget
  | false => .write mappedEnv mappedHandle collidingTarget [7] fill

theorem shared_store_linearizable_overtaken :
    ∃ jobs y m took, Explains jobs collidingEnv.plan sharedWorld
      [true, false, false, false, false, false, false, false, false, true, true] y m took ∧
      took true = some (.bytes [1, 2]) ∧ took false = some .unit ∧
      m collidingTarget = some [7] ∧ WritesAlone jobs collidingEnv.plan := by
  obtain ⟨fill⟩ := exists_filler mappedEnv mappedHandle.fallback.replacePlan
    (.solo mappedHandle.fallback) [7]
  have hplan : Honest collidingEnv.plan := by
    intro c t e n h
    cases h
  have hjobs : ∀ t, (readDuringWrite fill t).Visible := by
    intro t
    cases t with
    | true => exact collidingTarget_visible
    | false => exact collidingTarget_visible
  have hstart : Threads.Runs (Syscall.exec collidingEnv.plan)
      ⟨sharedWorld, fun t => (readDuringWrite fill t).client⟩ [] _ := Threads.Runs.nil
  have hopen := hstart.snoc (t := true) (.call rfl)
  have hcreate := hopen.snoc (t := false) (.call rfl)
  have hlen := hcreate.snoc (t := false) (.call rfl)
  have hmap := hlen.snoc (t := false) (.call rfl)
  have hstore := hmap.snoc (t := false) (.call rfl)
  have hmsync := hstore.snoc (t := false) (.call rfl)
  have hfence := hmsync.snoc (t := false) (.call rfl)
  have hrename := hfence.snoc (t := false) (.call rfl)
  have hsync := hrename.snoc (t := false) (.call rfl)
  have hread := hsync.snoc (t := true) (.call rfl)
  have hend := hread.snoc (t := true) (.call rfl)
  obtain ⟨halone, m, took, h⟩ := shared_store_linearizable (readDuringWrite fill)
    collidingEnv.plan hplan sharedWorld sharedWorld_linked hjobs hend
  have hnew : m collidingTarget = some [7] := by
    rw [← h.visible collidingTarget collidingTarget_visible]
    rfl
  exact ⟨_, _, m, took, h, h.answered true _ rfl, h.answered false _ rfl, hnew, halone⟩

end Fsys.Crud
