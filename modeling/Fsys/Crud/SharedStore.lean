import Fsys.Crud.SharedRuns

/-!
# A store of whole files that many threads use

Threads write, copy over, delete, rename, read and look at files of one disk; their system
calls fall in any order. The store is a map from paths to contents, in which each of these
operations takes one moment. `Move` says what a thread may do to the disk by what it has
of it, and when its operation takes place in the map: a write at its rename, a read when it
opens the file.
-/

namespace Fsys.Crud
open Fsys.Base Fsys.Platform

/-! ### The operations -/

/-- The contents of the store. -/
abbrev Contents := PathBuf → Option Bytes

inductive Answer where
  | unit
  | bytes (b : Bytes)
  | yes (b : Bool)
  | count (n : ℕ)
  deriving DecidableEq

/-- What a handle writes with when the mapping does not suit. -/
def Handle.fallback (h : Handle) : Handle :=
  if h.method = .mmap then { h with method := .sync } else h

/-- The calls by which a temp file is filled: alone they are `fillTemp`. -/
structure Filler (env : Env) (rp : ReplacePlan) (k : HookKind) (data : Bytes) : Type 1 where
  client : PathBuf → ℕ → Bool → FileClient Error Unit
  cuts : ∀ temp file directOk, Cuts temp file (fun _ => True) (client temp file directOk)
    fun plan => fillTemp (answering env plan) temp file directOk data rp
      (k.hooks (answering env plan))

theorem exists_filler (env : Env) (rp : ReplacePlan) (k : HookKind) (data : Bytes) :
    Nonempty (Filler env rp k data) := by
  have h : ∀ temp file directOk, Fills temp file fun plan =>
      fillTemp (answering env plan) temp file directOk data rp (k.hooks (answering env plan)) :=
    fun temp file directOk => fills_fillTemp k directOk data rp
  choose client cuts using h
  exact ⟨client, cuts⟩

/-- A call of a handle. Each has its own handle and surroundings; the plan is that of the
system they share. -/
inductive Job : Type 1 where
  | write (env : Env) (h : Handle) (path : PathBuf) (data : Bytes)
      (fill : Filler env h.fallback.replacePlan (.solo h.fallback) data)
  | writeCopy (env : Env) (h : Handle) (path : PathBuf) (data : Bytes)
      (fill : ∀ existing, Filler env h.replacePlan (.writeCopy h existing) data)
  | delete (path : PathBuf)
  | rename (old new : PathBuf)
  | read (env : Env) (h : Handle) (room : ℕ → ℕ) (path : PathBuf)
  | exists_ (path : PathBuf)
  | size (path : PathBuf)

namespace Shared

/-- `Handle::write` (`file.rs:82-116`). -/
def write (env : Env) (h : Handle) (path : PathBuf) (data : Bytes)
    (fill : PathBuf → ℕ → Bool → FileClient Error Unit) : FileClient Error Unit :=
  if h.method = .mmap then
    if isSuitableForWrite env data.length then mmapWrite env path data
    else atomicReplace env path h.fallback.replacePlan fill
  else atomicReplace env path h.fallback.replacePlan fill

/-- `Handle::write_copy` (`file.rs:194-218`): the metadata of the target, if there is any, is
put on the temp file. -/
def writeCopy (env : Env) (h : Handle) (path : PathBuf)
    (fill : Bool → PathBuf → ℕ → Bool → FileClient Error Unit) : FileClient Error Unit := do
  let existing ← (io fun plan => metadataLen plan path).attempt
  atomicReplace env path h.replacePlan (fill existing.isOk)

/-! ### A writer alone -/

section

variable {env : Env} {plan : Plan PathBuf} {target : PathBuf} {data : Bytes}

theorem bind_bind {ε α β γ : Type} (m : Sys ε α) (f : α → Sys ε β) (g : β → Sys ε γ) :
    (m >>= f) >>= g = m >>= fun a => f a >>= g := by
  funext w
  show Prog.bind (Prog.bind m f) g w = Prog.bind m _ w
  unfold Prog.bind
  cases m w with
  | mk r w' =>
    cases r with
    | ok a => rfl
    | error e => rfl

/-- The part under the guard, in a state that has the temp file. -/
theorem run_guardedFill {rp : ReplacePlan} {k : HookKind} (f : Filler env rp k data)
    {temp : PathBuf} {file : ℕ} {w : World PathBuf} (directOk : Bool)
    (hname : w.disk.names temp = some file) :
    (guarded temp (f.client temp file directOk >>= fun _ =>
        mapErr (stepErr "rename") (sysCall fun p => Io.rename p temp target))).run
        (Syscall.exec plan) w =
      Crud.guarded (answering env plan) temp (do
        Platform.mapErr stepErr' (writeTemp (answering env plan) file directOk data rp
          (k.hooks (answering env plan)))
        Platform.mapErr stepErr' ((k.hooks (answering env plan)).beforeRename temp)
        Platform.mapErr (stepErr "rename") (Platform.sysCall (Io.rename plan temp target))) w := by
  rw [run_guarded, Client.run_bind]
  have hrename : (mapErr (stepErr "rename") (sysCall fun p => Io.rename p temp target)).run
      (Syscall.exec plan) = Platform.mapErr (stepErr "rename")
        (Platform.sysCall (Io.rename plan temp target)) := by
    rw [run_mapErr, run_sysCall]
  have hfill := (f.cuts temp file directOk).2 plan w hname
  have hbody : ((f.client temp file directOk).run (Syscall.exec plan) >>= fun _ =>
      (mapErr (stepErr "rename") (sysCall fun p => Io.rename p temp target)).run
        (Syscall.exec plan)) w =
      (fillTemp (answering env plan) temp file directOk data rp (k.hooks (answering env plan)) >>=
        fun _ => Platform.mapErr (stepErr "rename")
          (Platform.sysCall (Io.rename plan temp target))) w :=
    Prog.bind_congr_wp (P := fun _ _ => True) hfill trivial
      fun _ _ _ => by rw [hrename]
  unfold Crud.guarded Prog.cleanup
  rw [hbody, fillTemp, bind_bind]

/-- `atomic_replace` call by call, with nobody else about, is `atomic_replace`. -/
theorem run_atomicReplace {rp : ReplacePlan} {k : HookKind} (f : Filler env rp k data) :
    (atomicReplace env target rp f.client).run (Syscall.exec plan) =
      Crud.atomicReplace (answering env plan) target data rp (k.hooks (answering env plan)) := by
  funext w
  have hopen : (WriterKind.openTemp (answering env plan) target data (.replace rp k)).Wp _ w :=
    WriterKind.wp_openTemp (.replace rp k) w
  unfold atomicReplace Crud.atomicReplace
  rw [Client.run_bind]
  refine Prog.bind_congr_wp ?_ hopen ?_
  · have hnew : ∀ temp, (openWriteNew temp rp.useDirect).run (Syscall.exec plan) =
        Platform.openWriteNew (answering env plan) temp rp.useDirect :=
      fun temp => run_openWriteNew temp rp.useDirect
    rw [run_mapErr]
    unfold withUniqueTemp
    rw [run_uniqueTemp target hnew]
    rfl
  · intro x w' hx
    obtain ⟨temp, file, directOk⟩ := x
    have hname := hx.names
    dsimp only
    rw [Client.run_bind]
    refine Prog.bind_congr_wp (P := fun _ _ => True) (run_guardedFill f directOk hname) trivial ?_
    intro _ w'' _
    split
    · exact congrFun (Client.run_ignore _ _) w''
    · rfl

theorem run_write {h : Handle} (f : Filler env h.fallback.replacePlan (.solo h.fallback) data) :
    (write env h target data f.client).run (Syscall.exec plan) =
      h.write (answering env plan) target data := by
  unfold write Handle.write
  by_cases hm : h.method = .mmap
  · rw [if_pos hm, if_pos hm]
    have hfall : h.fallback = { h with method := .sync } := if_pos hm
    split
    · rw [run_mmapWrite]
      rename_i hsuit
      exact (if_pos hsuit).symm
    · rw [run_atomicReplace]
      rename_i hsuit
      refine Eq.trans ?_ (if_neg hsuit).symm
      rw [hfall]
      rfl
  · rw [if_neg hm, if_neg hm, run_atomicReplace]
    have hfall : h.fallback = h := if_neg hm
    rw [hfall]
    rfl

theorem run_writeCopy {h : Handle}
    (f : ∀ existing, Filler env h.replacePlan (.writeCopy h existing) data) :
    (writeCopy env h target fun existing => (f existing).client).run (Syscall.exec plan) =
      ((metadataLen plan target).attempt >>= fun existing =>
        h.writeCopy (answering env plan) existing.isOk target data : Sys Error Unit) := by
  unfold writeCopy
  rw [Client.run_bind, Client.run_attempt]
  congr 1
  funext existing
  exact run_atomicReplace _

end

end Shared

def Job.client : Job → FileClient Error Answer
  | .write env h path data fill => do
    Shared.write env h path data fill.client
    pure .unit
  | .writeCopy env h path _ fill => do
    Shared.writeCopy env h path fun existing => (fill existing).client
    pure .unit
  | .delete path => do
    Shared.delete path
    pure .unit
  | .rename old new => do
    Shared.rename old new
    pure .unit
  | .read env h room path => do
    let b ← Shared.read env h room path
    pure (.bytes b)
  | .exists_ path => do
    let b ← Shared.exists_ path
    pure (.yes b)
  | .size path => do
    let n ← Shared.size path
    pure (.count n)

/-- The writer of `AtomicReplace` that the call is when it has the disk for itself. -/
def Job.writer (plan : Plan PathBuf) : Job → Option (Sys Error Unit)
  | .write env h path data _ => some (h.write (answering env plan) path data)
  | .writeCopy env h path data _ => some (do
    let existing ← (metadataLen plan path).attempt
    h.writeCopy (answering env plan) existing.isOk path data)
  | .delete _ => none
  | .rename _ _ => none
  | .read .. => none
  | .exists_ _ => none
  | .size _ => none

theorem Job.run_client {plan : Plan PathBuf} {j : Job} {c : Sys Error Unit}
    (h : j.writer plan = some c) :
    j.client.run (Syscall.exec plan) = (c >>= fun _ => pure .unit : Sys Error Answer) := by
  cases j with
  | write env hd path data fill =>
    cases h
    unfold Job.client
    rw [Client.run_bind, Shared.run_write]
    rfl
  | writeCopy env hd path data fill =>
    cases h
    unfold Job.client
    rw [Client.run_bind, Shared.run_writeCopy]
    rfl
  | delete path => cases h
  | rename old new => cases h
  | read env hd room path => cases h
  | exists_ path => cases h
  | size path => cases h

/-- The operation on the map, where it succeeds. -/
def Job.spec : Job → Contents → Option (Answer × Contents)
  | .write _ _ path data _, m => some (.unit, Function.update m path (some data))
  | .writeCopy _ _ path data _, m => some (.unit, Function.update m path (some data))
  | .delete path, m => some (.unit, Function.update m path none)
  | .rename old new, m => (m old).map fun b => (.unit,
      if old = new then m else Function.update (Function.update m new (some b)) old none)
  | .read _ _ _ path, m => (m path).map fun b => (.bytes b, m)
  | .exists_ path, m => some (.yes (m path).isSome, m)
  | .size path, m => (m path).map fun b => (.count b.length, m)

/-- The operation changes the store. -/
def Job.changes : Job → Bool
  | .write .. => true
  | .writeCopy .. => true
  | .delete _ => true
  | .rename _ _ => true
  | .read .. => false
  | .exists_ _ => false
  | .size _ => false

/-- A name of the kind that temp files have. -/
def Hidden (p : PathBuf) : Prop :=
  ∃ name, p.fileName = some name ∧ tempPrefix.toList <+: name.toList

/-- The paths of the call are no names of temp files. -/
def Job.Visible : Job → Prop
  | .write _ _ path _ _ => ¬ Hidden path
  | .writeCopy _ _ path _ _ => ¬ Hidden path
  | .delete path => ¬ Hidden path
  | .rename old new => ¬ Hidden old ∧ ¬ Hidden new
  | .read _ _ _ path => ¬ Hidden path
  | .exists_ path => ¬ Hidden path
  | .size path => ¬ Hidden path

theorem hidden_genTempPath (env : Env) (target : PathBuf) (attempt : ℕ) :
    Hidden (genTempPath env target attempt) := by
  have hhead : ∀ rest : String, tempPrefix.toList <+: (tempHead env attempt ++ rest).toList := by
    intro rest
    simp only [tempHead, String.toList_append, List.append_assoc]
    exact List.prefix_append _ _
  cases hf : target.fileName with
  | none =>
    refine ⟨tempHead env attempt, by simp only [genTempPath, hf], ?_⟩
    have h := hhead ""
    rwa [String.append_empty] at h
  | some name =>
    by_cases hlen : (tempHead env attempt).utf8ByteSize + name.utf8ByteSize ≤ maxNameLen
    · exact ⟨_, by simp only [genTempPath, hf, hlen, if_true], hhead name⟩
    · exact ⟨_, by simp only [genTempPath, hf, hlen, if_false], hhead (hex16 (env.nameHash name))⟩

/-! ### What a thread has of the disk -/

inductive View where
  /-- nothing -/
  | idle
  /-- a temp file of its own -/
  | staged (o : Own PathBuf)
  /-- a temp file that it could not remove -/
  | stuck (o : Own PathBuf)
  /-- a file that is open to be read -/
  | reading (i : ℕ) (b : Bytes)
  | finished (a : Answer)

def View.took : View → Option Answer
  | .idle => none
  | .staged _ => none
  | .stuck _ => none
  | .reading _ b => some (.bytes b)
  | .finished a => some a

/-- The thread answers for this temp file. -/
def View.Holds (v : View) (o : Own PathBuf) : Prop := v = .staged o ∨ v = .stuck o

variable {ι : Type} [DecidableEq ι]

/-- The disk `w` since `start`, as the map and the threads see it. -/
structure Sound (start : Disk PathBuf) (w : World PathBuf) (m : Contents) (vs : ι → View) :
    Prop where
  /-- no file has two names -/
  linked : ∀ p q i, w.disk.names p = some i → w.disk.names q = some i → p = q
  visible : ∀ p, ¬ Hidden p → w.disk.content p = m p
  next : start.next ≤ w.disk.next
  own : ∀ t o, vs t = .staged o → Hidden o.name ∧ o.In w ∧ start.next ≤ o.file
  apart : ∀ t u o o', vs t = .staged o → vs u = .staged o' → o.file = o'.file → t = u
  /-- nobody writes to a file that is open to be read -/
  opened : ∀ t i b, vs t = .reading i b → w.disk.data i = b ∧ i < w.disk.next ∧
    ∀ u o, vs u = .staged o → o.file ≠ i
  /-- what came under a visible name was durable first -/
  fenced : ∀ p i, ¬ Hidden p → w.disk.names p = some i → start.next ≤ i →
    w.disk.fenced i = true
  /-- each temp file is an old one or has somebody to answer for it -/
  hidden : ∀ p, Hidden p → w.disk.names p ≠ none → start.names p ≠ none ∨
    ∃ t o, (vs t).Holds o ∧ o.name = p

/-- What thread `t` may do. -/
inductive Move (jobs : ι → Job) (t : ι) :
    World PathBuf × Contents × View → World PathBuf × Contents × View → Prop where
  | look {w w' : World PathBuf} {m : Contents} {v : View} (hd : w'.disk = w.disk) :
      Move jobs t (w, m, v) (w', m, v)
  | saw {w w' : World PathBuf} {m : Contents} {a : Answer} (hd : w'.disk = w.disk)
      (hs : (jobs t).spec m = some (a, m)) : Move jobs t (w, m, .idle) (w', m, .finished a)
  | opened {w w' : World PathBuf} {m : Contents} {p : PathBuf} {i : ℕ} (hd : w'.disk = w.disk)
      (hp : ¬ Hidden p) (hi : w.disk.names p = some i)
      (hs : (jobs t).spec m = some (.bytes (w.disk.data i), m)) :
      Move jobs t (w, m, .idle) (w', m, .reading i (w.disk.data i))
  | created {w w' : World PathBuf} {m : Contents} {temp : PathBuf} (hp : Hidden temp)
      (hfree : w.disk.names temp = none) (hd : w'.disk = w.disk.create temp) :
      Move jobs t (w, m, .idle) (w', m, .staged ⟨temp, w.disk.next, [], false⟩)
  | filled {w w' : World PathBuf} {m : Contents} {o : Own PathBuf}
      (hd : w.disk.Touches o.file w'.disk)
      (hf : ∀ j, j ≠ o.file → w'.disk.fenced j = w.disk.fenced j) :
      Move jobs t (w, m, .staged o) (w', m, .staged (o.now w'))
  | published {w w' : World PathBuf} {m : Contents} {o : Own PathBuf} {p : PathBuf}
      (hp : ¬ Hidden p) (hf : o.fenced = true) (hd : w'.disk = w.disk.rename o.name p)
      (hs : (jobs t).spec m = some (.unit, Function.update m p (some o.bytes))) :
      Move jobs t (w, m, .staged o) (w', Function.update m p (some o.bytes), .finished .unit)
  | dropped {w w' : World PathBuf} {m : Contents} {o : Own PathBuf}
      (hd : w'.disk = w.disk.unlink o.name) : Move jobs t (w, m, .staged o) (w', m, .idle)
  | stuck {w w' : World PathBuf} {m : Contents} {o : Own PathBuf} (hd : w'.disk = w.disk) :
      Move jobs t (w, m, .staged o) (w', m, .stuck o)
  | removed {w w' : World PathBuf} {m : Contents} {p : PathBuf} (hp : ¬ Hidden p)
      (hd : w'.disk = w.disk.unlink p)
      (hs : (jobs t).spec m = some (.unit, Function.update m p none)) :
      Move jobs t (w, m, .idle) (w', Function.update m p none, .finished .unit)
  | moved {w w' : World PathBuf} {m : Contents} {p q : PathBuf} {i : ℕ} (hp : ¬ Hidden p)
      (hq : ¬ Hidden q) (hne : p ≠ q) (hi : w.disk.names p = some i)
      (hd : w'.disk = w.disk.rename p q)
      (hs : (jobs t).spec m = some (.unit,
        Function.update (Function.update m q (some (w.disk.data i))) p none)) :
      Move jobs t (w, m, .idle) (w',
        Function.update (Function.update m q (some (w.disk.data i))) p none, .finished .unit)

end Fsys.Crud
