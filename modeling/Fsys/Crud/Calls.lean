import Fsys.Crud.ReplaceSafety

/-!
# The calls a writer makes (src/crud/atomic.rs, src/method/mmap.rs, src/async_io/crud_file.rs)

A run makes no other calls than some if nothing in it changes with the answers that
the other calls would get. The writers call for the names they generate, for the file
they created under one of them, and for the target of the rename.
-/

namespace Fsys.Crud
open Fsys.Base Fsys.Platform

/-- The same surroundings with other answers of the operating system. -/
def answering (env : Env) (plan : Plan PathBuf) : Env := { env with plan := plan }

@[simp] theorem answering_plan (env : Env) (plan : Plan PathBuf) :
    (answering env plan).plan = plan := rfl

@[simp] theorem answering_fuel (env : Env) (plan : Plan PathBuf) :
    (answering env plan).fuel = env.fuel := rfl

@[simp] theorem answering_debug (env : Env) (plan : Plan PathBuf) :
    (answering env plan).debugAssertions = env.debugAssertions := rfl

@[simp] theorem submit_answering (env : Env) (plan : Plan PathBuf) (op : ℕ → Sys Error ℕ)
    (entries : ℕ) : submit (answering env plan) op entries = submit env op entries := rfl

@[simp] theorem genTempPath_answering (env : Env) (plan : Plan PathBuf) (target : PathBuf)
    (attempt : ℕ) :
    genTempPath (answering env plan) target attempt = genTempPath env target attempt := rfl

/-- Calls on an open file, and for memory. -/
def OnFile (i : ℕ) : Call PathBuf → Prop
  | .read j => j = i
  | .readExact j => j = i
  | .len j => j = i
  | .write j => j = i
  | .setLen j => j = i
  | .fence j => j = i
  | .map j => j = i
  | .msync j => j = i
  | .alloc => True
  | _ => False

/-- Calls of a writer on names once it has its temp file. -/
def OnTemp (target temp : PathBuf) : Call PathBuf → Prop
  | .setMeta p => p = temp
  | .openRead p => p = temp
  | .remove p => p = temp
  | .rename p q => p = temp ∧ q = target
  | .syncDir p => p = target
  | _ => False

variable {env : Env} {plan : Plan PathBuf} {i : ℕ}

/-! ### Calls on the file -/

section

variable (h : ∀ c, OnFile i c → plan c = env.plan c)
include h

theorem pwrite_answering : Io.pwrite plan i = Io.pwrite env.plan i := by
  funext pos bytes w
  simp only [Io.pwrite, h (.write i) rfl]

theorem setLen_answering : Io.setLen plan i = Io.setLen env.plan i := by
  funext n w
  simp only [Io.setLen, h (.setLen i) rfl]

theorem fence_answering : Io.fence plan i = Io.fence env.plan i := by
  funext w
  simp only [Io.fence, h (.fence i) rfl]

theorem mapMut_answering : Io.mapMut plan i = Io.mapMut env.plan i := by
  funext w
  simp only [Io.mapMut, Io.look, h (.map i) rfl]

theorem msync_answering : Io.msync plan i = Io.msync env.plan i := by
  funext w
  simp only [Io.msync, Io.look, h (.msync i) rfl]

theorem alloc_answering : Io.alloc plan = Io.alloc env.plan := by
  funext w
  simp only [Io.alloc, Io.look, h .alloc trivial]

theorem writeAll_answering (fuel : ℕ) (data : Bytes) (written : ℕ) :
    writeAll (answering env plan) fuel i data written = writeAll env fuel i data written := by
  induction fuel generalizing written with
  | zero => rfl
  | succ fuel ih => simp only [writeAll, answering_plan, pwrite_answering h, ← ih]

theorem pwriteAll_answering (fuel : ℕ) (buf : Bytes) (written : ℕ) :
    pwriteAll (answering env plan) fuel i buf written = pwriteAll env fuel i buf written := by
  induction fuel generalizing written with
  | zero => rfl
  | succ fuel ih => simp only [pwriteAll, answering_plan, pwrite_answering h, ← ih]

theorem alignedCopy_answering (size align : ℕ) (data : Bytes) :
    alignedCopy (answering env plan) size align data = alignedCopy env size align data := by
  simp only [alignedCopy, alignedBufNew, answering_plan, alloc_answering h]

theorem writeAllDirect_answering (data : Bytes) (ss : ℕ) :
    writeAllDirect (answering env plan) i data ss = writeAllDirect env i data ss := by
  simp only [writeAllDirect, alignedCopy_answering h, pwriteAll_answering h, answering_fuel, answering_debug]

theorem transferLoop_answering (entries : ℕ) (buf : Bytes) (offset done : ℕ) :
    transferLoop (answering env plan) entries i buf offset done =
      transferLoop env entries i buf offset done := by
  induction entries generalizing done with
  | zero => rfl
  | succ entries ih => simp only [transferLoop, answering_plan, pwrite_answering h, ← ih]

theorem ringFdatasync_answering : ringFdatasync (answering env plan) i = ringFdatasync env i := by
  simp only [ringFdatasync, answering_plan, fence_answering h]

theorem writeAtLinkedFsync_answering (buf : Bytes) (offset : ℕ) :
    writeAtLinkedFsync (answering env plan) i buf offset = writeAtLinkedFsync env i buf offset := by
  simp only [writeAtLinkedFsync, ringWriteAt, transferLoop_answering h, ringFdatasync_answering h,
    writeLinkedFsync, answering_plan, pwrite_answering h, fence_answering h]

theorem writeDirectDurablePlatform_answering (data : Bytes) (ss : ℕ) :
    writeDirectDurablePlatform (answering env plan) i data ss =
      writeDirectDurablePlatform env i data ss := by
  simp only [writeDirectDurablePlatform, writeAllDirect_answering h, answering_plan, setLen_answering h,
    fence_answering h]

theorem iouringFence_answering (nvme : Bool) :
    iouringFence (answering env plan) i nvme = iouringFence env i nvme := by
  simp only [iouringFence, ringFdatasync_answering h, answering_plan, fence_answering h]

theorem iouringWriteDirect_answering (data : Bytes) (ss : ℕ) (nvme fuse : Bool) :
    iouringWriteDirect (answering env plan) i data ss nvme fuse =
      iouringWriteDirect env i data ss nvme fuse := by
  simp only [iouringWriteDirect, iouringFence_answering h, alignedCopy_answering h,
    iouringWriteLinked, writeAtLinkedFsync_answering h, iouringWriteUnlinked, ringWriteAt,
    transferLoop_answering h]

theorem directWriteDurable_answering (hd : Handle) (data : Bytes) :
    directWriteDurable (answering env plan) hd i data = directWriteDurable env hd i data := by
  simp only [directWriteDurable, iouringWriteDirect_answering h, trimAndFence,
    writeDirectDurablePlatform_answering h, iouringFence_answering h, answering_plan, setLen_answering h]

theorem nativeWrite_answering (hd : Handle) (directOk : Bool) (data : Bytes) :
    nativeWrite (answering env plan) hd i directOk data = nativeWrite env hd i directOk data := by
  simp only [nativeWrite, nativeBuf, alignedCopy_answering h, writeAtNative, submit_answering,
    transferLoop_answering h, answering_plan, setLen_answering h]

theorem fdatasyncNative_answering :
    fdatasyncNative (answering env plan) i = fdatasyncNative env i := by
  simp only [fdatasyncNative, submit_answering, answering_plan, fence_answering h]

end

/-! ### Calls on names -/

variable {target temp : PathBuf} {w : World PathBuf} {data : Bytes}

section

variable (ht : ∀ c, OnTemp target temp c → plan c = env.plan c)
include ht

theorem remove_answering : Io.remove plan temp = Io.remove env.plan temp := by
  funext w
  simp only [Io.remove, ht (.remove temp) rfl]

theorem rename_answering : Io.rename plan temp target = Io.rename env.plan temp target := by
  funext w
  simp only [Io.rename, ht (.rename temp target) ⟨rfl, rfl⟩]

theorem setMeta_answering : Io.setMeta plan temp = Io.setMeta env.plan temp := by
  funext w
  simp only [Io.setMeta, ht (.setMeta temp) rfl]

theorem openRead_answering : Io.openRead plan temp = Io.openRead env.plan temp := by
  funext w
  simp only [Io.openRead, Io.look, ht (.openRead temp) rfl]

theorem syncDir_answering : Io.syncDir plan target = Io.syncDir env.plan target := by
  funext w
  simp only [Io.syncDir, Io.look, ht (.syncDir target) rfl]

theorem guarded_answering {body body' : Sys Error Unit} (hb : body' w = body w) :
    guarded (answering env plan) temp body' w = guarded env temp body w := by
  unfold guarded Prog.cleanup
  rw [hb]
  split
  · rfl
  · rename_i x w' _
    cases x <;> simp only [dropGuard, answering_plan, remove_answering ht]

theorem orRemove_answering {α : Type} (report : IoError → Error) (m : Io PathBuf α) :
    orRemove (answering env plan) temp report m = orRemove env temp report m := by
  simp only [orRemove, answering_plan, remove_answering ht]

/-- The file that is fenced is the one behind the name of the temp file. -/
theorem applyPreservedMetadata_answering (h : ∀ c, OnFile i c → plan c = env.plan c)
    (hname : w.disk.names temp = some i) :
    applyPreservedMetadata (answering env plan) temp w = applyPreservedMetadata env temp w := by
  have hmeta : ∀ u : World PathBuf, u.disk.names temp = some i →
      ((Io.setMeta env.plan temp).ignore : Sys StepError Unit).Wp
        (fun _ u' => u'.disk.names temp = some i) u := by
    intro u hu
    rw [Prog.wp_ignore]
    refine Prog.wp_mono (Io.wp_setMeta env.plan temp u) ?_
    intro _ u' hu'
    rw [hu'.2.names, hu]
  have hopen : ∀ u : World PathBuf, u.disk.names temp = some i →
      (mapErr (atStep "flush") (sysCall (Io.openRead env.plan temp))).Wp
        (fun r _ => ∀ j, r = .ok j → j = i) u := by
    intro u hu
    unfold mapErr sysCall
    rw [Prog.wp_mapError, Prog.wp_mapError]
    refine Prog.wp_mono (Io.wp_openRead env.plan temp u) ?_
    intro r u' hr j hj
    cases r with
    | error e => cases hj
    | ok k =>
      have hk := hr.2.2 k rfl
      rw [hu] at hk
      cases hj
      exact (Option.some.inj hk).symm
  simp only [applyPreservedMetadata, answering_plan, setMeta_answering ht, openRead_answering ht]
  refine Prog.bind_congr_wp rfl (hmeta w hname) fun _ w1 h1 => ?_
  refine Prog.bind_congr_wp rfl (hmeta w1 h1) fun _ w2 h2 => ?_
  refine Prog.bind_congr_wp rfl (hmeta w2 h2) fun _ w3 h3 => ?_
  refine Prog.bind_congr_wp rfl (hopen w3 h3) fun j w4 h4 => ?_
  rw [h4 j rfl, fence_answering h]

end

/-! ### The writers of the crate -/

/-- The hooks that `atomic_replace` is called with. -/
inductive HookKind where
  | platform (sectorSize : ℕ)
  | solo (h : Handle)
  | writeCopy (h : Handle) (existing : Bool)

def HookKind.hooks (env : Env) : HookKind → ReplaceHooks
  | .platform ss => platformHooks env ss
  | .solo h => soloHooks env h
  | .writeCopy h existing => writeCopyHooks env h existing

inductive WriterKind where
  | replace (plan : ReplacePlan) (hooks : HookKind)
  | mmap
  | asyncNative (h : Handle)

namespace WriterKind

def writer (env : Env) : WriterKind → Writer
  | .replace rp k => .replace rp (k.hooks env)
  | .mmap => .mmap
  | .asyncNative h => .asyncNative h

def useDirect : WriterKind → Bool
  | .replace rp _ => rp.useDirect
  | .mmap => false
  | .asyncNative h => h.useDirect

/-- A temp name and its new file: `atomic.rs:142-148`, `mmap.rs:119-131`,
`crud_file.rs:263-266`. The native writer tries one name. -/
def openTemp (env : Env) (target : PathBuf) (data : Bytes) :
    WriterKind → Sys Error (PathBuf × ℕ × Bool)
  | .replace rp _ => mapErr (stepErr "open_temp")
      (withUniqueTemp env target fun temp => openWriteNew env temp rp.useDirect)
  | .mmap =>
    if isSuitableForWrite env data.length then do
      let (temp, file) ← mapErr (stepErr "open_temp")
        (withUniqueTemp env target fun temp => sysCall (Io.createNew env.plan temp))
      pure (temp, file, false)
    else fail (.mmapFailed ("payload of " ++ toString data.length ++
      " bytes is below page size; caller should fall back to Sync"))
  | .asyncNative h => do
    let (file, directOk) ← mapErr (stepErr "open_temp")
      (openWriteNew env (genTempPath env target 0) h.useDirect)
    pure (genTempPath env target 0, file, directOk)

/-- What follows the creation of the temp file. -/
def afterTemp (env : Env) (target : PathBuf) (data : Bytes) (temp : PathBuf) (file : ℕ)
    (directOk : Bool) : WriterKind → Sys Error Unit
  | .replace rp k => do
    guarded env temp do
      mapErr stepErr' (writeTemp env file directOk data rp (k.hooks env))
      mapErr stepErr' ((k.hooks env).beforeRename temp)
      mapErr (stepErr "rename") (sysCall (Io.rename env.plan temp target))
    if rp.syncParent then (Io.syncDir env.plan target).ignore else pure ()
  | .mmap => do
    mmapFill env temp target file data
    (Io.syncDir env.plan target).ignore
  | .asyncNative h => do
    guarded env temp do
      nativeWrite env h file directOk data
      mapErr (stepErr "fdatasync_native") (fdatasyncNative env file)
      mapErr (stepErr "rename") (sysCall (Io.rename env.plan temp target))
    (Io.syncDir env.plan target).ignore

def run (env : Env) (target : PathBuf) (data : Bytes) (kind : WriterKind) : Sys Error Unit :=
  Writer.run env (kind.writer env) target data

/-- Every writer opens its temp file and goes on with it. -/
theorem run_eq (kind : WriterKind) (w : World PathBuf) :
    kind.run env target data w = (kind.openTemp env target data >>= fun x =>
      kind.afterTemp env target data x.1 x.2.1 x.2.2) w := by
  cases kind with
  | replace rp k => rfl
  | mmap =>
    show mmapWrite env target data w = _
    unfold mmapWrite
    by_cases hsuit : isSuitableForWrite env data.length
    · simp only [openTemp, hsuit, if_true]
      show Prog.bind _ _ w = Prog.bind (Prog.bind _ _) _ w
      unfold Prog.bind
      split <;> rfl
    · simp only [openTemp, hsuit]
      rfl
  | asyncNative h =>
    show writeAsyncNative env h target data w = _
    unfold writeAsyncNative
    show Prog.bind _ _ w = Prog.bind (Prog.bind _ _) _ w
    unfold Prog.bind
    split <;> rfl

/-! ### No other calls -/

theorem writeTemp_answering (h : ∀ c, OnFile i c → plan c = env.plan c) (directOk : Bool)
    (rp : ReplacePlan) (k : HookKind) :
    writeTemp (answering env plan) i directOk data rp (k.hooks (answering env plan)) =
      writeTemp env i directOk data rp (k.hooks env) := by
  have hdirect : (k.hooks (answering env plan)).writeDirectDurable i data =
      (k.hooks env).writeDirectDurable i data := by
    cases k with
    | platform ss => exact writeDirectDurablePlatform_answering h data ss
    | solo hd => exact directWriteDurable_answering h hd data
    | writeCopy hd existing => exact directWriteDurable_answering h hd data
  have hrefused : (k.hooks (answering env plan)).directRefused = (k.hooks env).directRefused := by
    cases k <;> rfl
  simp only [writeTemp, noticeRefused, hdirect, hrefused, writeAll_answering h, answering_fuel,
    BufferedFlush.run, answering_plan, fence_answering h]

theorem beforeRename_answering (h : ∀ c, OnFile i c → plan c = env.plan c)
    (ht : ∀ c, OnTemp target temp c → plan c = env.plan c) (k : HookKind)
    (hname : w.disk.names temp = some i) :
    (k.hooks (answering env plan)).beforeRename temp w = (k.hooks env).beforeRename temp w := by
  cases k with
  | platform ss => rfl
  | solo hd => rfl
  | writeCopy hd existing =>
    cases existing with
    | false => rfl
    | true => exact applyPreservedMetadata_answering ht h hname

theorem mapErr_congr {ε ε' α : Type} {m m' : Sys ε α} (f : ε → ε') (h : m' w = m w) :
    mapErr f m' w = mapErr f m w := by
  simp only [mapErr, Prog.mapError, h]

/-- With its temp file in hand a writer calls for the file, the two names and no others. -/
theorem afterTemp_answering (h : ∀ c, OnFile i c → plan c = env.plan c)
    (ht : ∀ c, OnTemp target temp c → plan c = env.plan c) (kind : WriterKind) (directOk : Bool)
    (hname : w.disk.names temp = some i) (hnew : w.disk.data i = []) :
    kind.afterTemp (answering env plan) target data temp i directOk w =
      kind.afterTemp env target data temp i directOk w := by
  cases kind with
  | replace rp k =>
    simp only [afterTemp, answering_plan, rename_answering ht, syncDir_answering ht,
      writeTemp_answering h]
    refine Prog.bind_congr_wp (P := fun _ _ => True) ?_ trivial fun _ _ _ => rfl
    refine guarded_answering ht ?_
    refine Prog.bind_congr_wp rfl (P := fun _ u => u.disk.names temp = some i) ?_ ?_
    · exact wp_mapErr _ (wp_writeTemp env i directOk data rp (k.hooks env) w hnew)
        (fun _ _ hd => by rw [hd.1.touches.names, hname])
        (fun _ _ _ hd => by rw [hd.1.touches.names, hname])
    · intro _ w1 h1
      refine Prog.bind_congr_wp (P := fun _ _ => True) ?_ trivial fun _ _ _ => rfl
      exact mapErr_congr _ (beforeRename_answering h ht k h1)
  | mmap =>
    simp only [afterTemp, mmapFill, answering_plan, orRemove_answering ht, setLen_answering h,
      mapMut_answering h, msync_answering h, fence_answering h, rename_answering ht,
      syncDir_answering ht]
  | asyncNative hd =>
    simp only [afterTemp, answering_plan, nativeWrite_answering h, fdatasyncNative_answering h,
      rename_answering ht, syncDir_answering ht]
    exact Prog.bind_congr_wp (P := fun _ _ => True) (guarded_answering ht rfl) trivial
      fun _ _ _ => rfl

theorem createNew_answering (hc : plan (.create temp) = env.plan (.create temp)) :
    Io.createNew plan temp = Io.createNew env.plan temp := by
  funext w
  simp only [Io.createNew, hc]

theorem uniqueTemp_answering {α : Type} {opener opener' : PathBuf → Sys Error α}
    (left attempt : ℕ)
    (ho : ∀ k, k ≤ attempt + left →
      opener' (genTempPath env target k) = opener (genTempPath env target k)) :
    uniqueTemp (answering env plan) target opener' left attempt =
      uniqueTemp env target opener left attempt := by
  induction left generalizing attempt with
  | zero => simp only [uniqueTemp, genTempPath_answering, ho attempt (Nat.le_refl _)]
  | succ left ih =>
    have hnext := ih (attempt + 1) fun k hk => ho k (by omega)
    simp only [uniqueTemp, genTempPath_answering, ho attempt (by omega), hnext]

/-- The temp file is created under one of the first names. -/
theorem openTemp_answering (kind : WriterKind)
    (hc : ∀ k, k < tempCreateAttempts →
      plan (.create (genTempPath env target k)) = env.plan (.create (genTempPath env target k))) :
    kind.openTemp (answering env plan) target data = kind.openTemp env target data := by
  have hk : ∀ k, k ≤ 0 + (tempCreateAttempts - 1) → k < tempCreateAttempts := by
    intro k hle
    simp only [tempCreateAttempts] at hle ⊢
    omega
  cases kind with
  | replace rp k =>
    have hunique : withUniqueTemp (answering env plan) target
        (fun temp => openWriteNew (answering env plan) temp rp.useDirect) =
          withUniqueTemp env target fun temp => openWriteNew env temp rp.useDirect := by
      refine uniqueTemp_answering _ 0 ?_
      intro j hj
      simp only [openWriteNew, answering_plan, createNew_answering (hc j (hk j hj))]
    simp only [openTemp, hunique]
  | mmap =>
    have hsuit : isSuitableForWrite (answering env plan) = isSuitableForWrite env := rfl
    have hunique : withUniqueTemp (answering env plan) target
        (fun temp => sysCall (Io.createNew plan temp)) =
          withUniqueTemp env target fun temp => sysCall (Io.createNew env.plan temp) := by
      refine uniqueTemp_answering _ 0 ?_
      intro j hj
      simp only [createNew_answering (hc j (hk j hj))]
    simp only [openTemp, answering_plan, hunique, hsuit]
  | asyncNative hd =>
    simp only [openTemp, genTempPath_answering, openWriteNew, answering_plan,
      createNew_answering (hc 0 (by decide))]

/-! ### The temp file is new -/

/-- What a temp file that was opened is. -/
structure Opened (env : Env) (target : PathBuf) (w : World PathBuf) (x : PathBuf × ℕ × Bool)
    (w' : World PathBuf) : Prop where
  name : ∃ k, k < tempCreateAttempts ∧ x.1 = genTempPath env target k
  free : w.disk.names x.1 = none
  file : x.2.1 = w.disk.next
  disk : w'.disk = w.disk.create x.1

theorem Opened.names {x : PathBuf × ℕ × Bool} {w' : World PathBuf}
    (h : Opened env target w x w') : w'.disk.names x.1 = some x.2.1 := by
  rw [h.disk, h.file]
  exact Function.update_self ..

theorem Opened.empty {x : PathBuf × ℕ × Bool} {w' : World PathBuf}
    (h : Opened env target w x w') : w'.disk.data x.2.1 = [] := by
  rw [h.disk, h.file]
  exact Function.update_self ..

theorem wp_uniqueTemp_opened {α : Type} (file : α → ℕ) (opener : PathBuf → Sys Error α)
    (hopen : ∀ temp w, (opener temp).Wp (fun r w' => Created temp w (r.map file) w') w)
    (direct : α → Bool) (left attempt : ℕ) (hleft : attempt + left < tempCreateAttempts)
    (w w' : World PathBuf) (hd : w'.disk = w.disk) :
    (uniqueTemp env target opener left attempt).Wp (fun r u => match r with
      | .ok x => Opened env target w (x.1, file x.2, direct x.2) u
      | .error _ => u.disk = w.disk) w' := by
  have hopened : ∀ v u, Created (genTempPath env target attempt) w' (.ok (file v)) u →
      Opened env target w (genTempPath env target attempt, file v, direct v) u := by
    intro v u hu
    obtain ⟨-, hfree, hfile, hcreate⟩ := hu
    rw [hd] at hfree hfile hcreate
    exact ⟨⟨attempt, by omega, rfl⟩, hfree, hfile, hcreate⟩
  induction left generalizing attempt w' with
  | zero =>
    refine Prog.wp_bind _ _ _ _ _ (hopen _ w') ?_ ?_
    · intro v u hu
      exact hopened v u hu
    · intro x u hu
      exact hu.2.trans hd
  | succ left ih =>
    refine Prog.wp_bind _ _ _ _ (fun r u => match r with
      | .ok (.ok v) => Created (genTempPath env target attempt) w' (.ok (file v)) u
      | _ => u.disk = w.disk) ?_ ?_ ?_
    · refine wp_tryErr (hopen _ w') (fun v u hu => hu) ?_ ?_
      · intro e u hu
        exact hu.2.trans hd
      · intro x y u hu
        exact hu.2.trans hd
    · intro r u hu
      cases r with
      | ok v => exact hopened v u hu
      | error e =>
        dsimp only
        split
        · refine ih (attempt + 1) (by omega) u hu ?_
          intro v u' hu'
          obtain ⟨-, hfree, hfile, hcreate⟩ := hu'
          rw [hu] at hfree hfile hcreate
          exact ⟨⟨attempt + 1, by omega, rfl⟩, hfree, hfile, hcreate⟩
        · exact hu
    · intro x u hu
      exact hu

theorem wp_openTemp (kind : WriterKind) (w : World PathBuf) :
    (kind.openTemp env target data).Wp (fun r u => match r with
      | .ok x => Opened env target w x u
      | .error _ => u.disk = w.disk) w := by
  cases kind with
  | replace rp k =>
    exact wp_mapErr _ (wp_uniqueTemp_opened Prod.fst _
      (fun temp w => wp_openWriteNew env temp rp.useDirect w) Prod.snd _ 0 (by decide) w w rfl)
      (fun _ _ h => h) (fun _ _ _ h => h)
  | mmap =>
    simp only [openTemp]
    by_cases hsuit : isSuitableForWrite env data.length
    · rw [if_pos hsuit]
      refine Prog.wp_bind _ _ _ _ (fun r u => match r with
        | .ok x => Opened env target w (x.1, x.2, false) u
        | .error _ => u.disk = w.disk) ?_ (fun _ _ h => h) (fun _ _ h => h)
      refine wp_mapErr _ (wp_uniqueTemp_opened id _ (fun temp w => ?_) (fun _ => false)
        (tempCreateAttempts - 1) 0 (by decide) w w rfl) (fun _ _ h => h) (fun _ _ _ h => h)
      refine Prog.wp_mono (wp_createNew_created env temp w) ?_
      intro r u hu
      cases r <;> exact hu
    · rw [if_neg hsuit]
      exact rfl
  | asyncNative hd =>
    refine Prog.wp_bind _ _ _ _ _ (wp_mapErr _ (wp_openWriteNew env _ hd.useDirect w)
      (Q := fun r u => Created (genTempPath env target 0) w (r.map Prod.fst) u)
      (fun _ _ h => h) (fun _ _ _ h => h)) ?_ ?_
    · intro x u hu
      obtain ⟨-, hfree, hfile, hcreate⟩ := hu
      exact ⟨⟨0, by decide, rfl⟩, hfree, hfile, hcreate⟩
    · intro x u hu
      exact hu.2

/-! ### The calls of a run -/

/-- The calls a writer can make from `w`. -/
def Issued (env : Env) (target : PathBuf) (w : World PathBuf) (c : Call PathBuf) : Prop :=
  (∃ k, k < tempCreateAttempts ∧ c = .create (genTempPath env target k)) ∨
  OnFile w.disk.next c ∨
  ∃ k, k < tempCreateAttempts ∧ w.disk.names (genTempPath env target k) = none ∧
    OnTemp target (genTempPath env target k) c

/-- A run is the same whatever the answers to other calls would be. -/
theorem run_answering (kind : WriterKind)
    (h : ∀ c, Issued env target w c → plan c = env.plan c) :
    kind.run (answering env plan) target data w = kind.run env target data w := by
  rw [run_eq, run_eq]
  have hopen : kind.openTemp (answering env plan) target data = kind.openTemp env target data :=
    openTemp_answering kind fun k hk => h _ (Or.inl ⟨k, hk, rfl⟩)
  rw [hopen]
  refine Prog.bind_congr_wp rfl (wp_openTemp kind w) ?_
  intro x w1 hx
  obtain ⟨k, hk, hname⟩ := hx.name
  refine afterTemp_answering ?_ ?_ kind x.2.2 hx.names hx.empty
  · intro c hc
    rw [hx.file] at hc
    exact h c (Or.inr (Or.inl hc))
  · intro c hc
    have hfree := hx.free
    rw [hname] at hc hfree
    exact h c (Or.inr (Or.inr ⟨k, hk, hfree, hc⟩))

end WriterKind

end Fsys.Crud
