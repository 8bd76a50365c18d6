import Fsys.Crud.SharedCalls
import Fsys.Crud.Calls

/-!
# A client alone is the program

Run on its own a client of `SharedCalls` is the writer of `AtomicReplace`, and the programs
that fill a temp file can be cut into single calls on that file.
-/

namespace Fsys.Crud
open Fsys.Base Fsys.Platform

variable {env : Env} {plan : Plan PathBuf}

/-! ### The writers -/

namespace Shared

section

variable {ε ε' α : Type}

theorem run_io (c : Plan PathBuf → Io PathBuf α) : (io c).run (Syscall.exec plan) = c plan := rfl

theorem run_sysCall (c : Plan PathBuf → Io PathBuf α) :
    (sysCall c).run (Syscall.exec plan) = Platform.sysCall (c plan) :=
  Client.run_mapError _ _ _

theorem run_mapErr (f : ε → ε') (c : FileClient ε α) :
    (mapErr f c).run (Syscall.exec plan) = Platform.mapErr f (c.run (Syscall.exec plan)) :=
  Client.run_mapError _ _ _

theorem run_tryErr (c : FileClient ε α) :
    (tryErr c : FileClient ε' _).run (Syscall.exec plan) =
      Platform.tryErr (c.run (Syscall.exec plan)) := by
  funext w
  unfold tryErr Platform.tryErr
  rw [Client.run_andThen]
  cases h : c.run (Syscall.exec plan) w with
  | mk r w' =>
    cases r with
    | ok a => rfl
    | error x => cases x <;> rfl

theorem run_remove (temp : PathBuf) :
    (remove temp : FileClient ε Unit).run (Syscall.exec plan) = (Io.remove plan temp).ignore :=
  Client.run_ignore _ _

theorem run_guarded (temp : PathBuf) (body : FileClient ε α) :
    (guarded temp body).run (Syscall.exec plan) =
      Crud.guarded (answering env plan) temp (body.run (Syscall.exec plan)) := by
  unfold guarded Crud.guarded
  rw [Client.run_cleanup]
  congr 1
  funext x
  cases x with
  | failed e => exact run_remove temp
  | panicked => exact run_remove temp
  | dropped => exact run_remove temp
  | stalled => rfl

end

theorem run_openWriteNew (path : PathBuf) (useDirect : Bool) :
    (openWriteNew path useDirect).run (Syscall.exec plan) =
      Platform.openWriteNew (answering env plan) path useDirect := by
  unfold openWriteNew Platform.openWriteNew
  rw [Client.run_bind, Client.run_attempt, run_io]
  congr 1
  funext opened
  cases opened with
  | ok file => rfl
  | error e =>
    dsimp only
    split
    · rw [Client.run_bind, run_sysCall]
      rfl
    · rfl

theorem run_uniqueTemp {α : Type} (target : PathBuf) {opener : PathBuf → FileClient Error α}
    {opener' : PathBuf → Sys Error α}
    (ho : ∀ temp, (opener temp).run (Syscall.exec plan) = opener' temp) (left attempt : ℕ) :
    (uniqueTemp env target opener left attempt).run (Syscall.exec plan) =
      Crud.uniqueTemp (answering env plan) target opener' left attempt := by
  induction left generalizing attempt with
  | zero =>
    unfold uniqueTemp Crud.uniqueTemp
    rw [Client.run_bind, ho]
    rfl
  | succ left ih =>
    unfold uniqueTemp Crud.uniqueTemp
    rw [Client.run_bind, run_tryErr, ho]
    congr 1
    funext opened
    cases opened with
    | ok v => rfl
    | error e =>
      dsimp only
      split
      · exact ih (attempt + 1)
      · rfl

theorem run_orRemove {α : Type} (temp : PathBuf) (report : IoError → Error)
    (c : Plan PathBuf → Io PathBuf α) :
    (orRemove temp report c).run (Syscall.exec plan) =
      Crud.orRemove (answering env plan) temp report (c plan) := by
  unfold orRemove Crud.orRemove
  rw [Client.run_cleanup, Client.run_mapError]
  rfl

theorem run_mmapWrite (path : PathBuf) (data : Bytes) :
    (mmapWrite env path data).run (Syscall.exec plan) =
      Crud.mmapWrite (answering env plan) path data := by
  have hopen : ∀ temp, (sysCall fun p => Io.createNew p temp).run (Syscall.exec plan) =
      Platform.sysCall (Io.createNew plan temp) := fun temp => run_sysCall _
  unfold mmapWrite Crud.mmapWrite
  show _ = if isSuitableForWrite env data.length then _ else _
  split
  · rw [Client.run_bind, run_mapErr]
    unfold withUniqueTemp
    rw [run_uniqueTemp path hopen]
    congr 1
    funext x
    obtain ⟨temp, file⟩ := x
    dsimp only
    rw [Client.run_bind]
    congr 1
    unfold mmapFill Crud.mmapFill
    rw [Client.run_bind, run_orRemove]
    congr 1
    funext _
    rw [Client.run_bind, run_orRemove]
    congr 1
    funext mapLen
    split
    · rfl
    · rw [Client.run_bind, run_sysCall]
      congr 1
      funext _
      rw [Client.run_bind, run_orRemove]
      congr 1
      funext _
      rw [Client.run_bind, run_orRemove]
      congr 1
      funext _
      exact run_orRemove _ _ _
  · rfl

end Shared

/-! ### The calls that fill a temp file -/

/-- `write_temp` and the hook before the rename. -/
def fillTemp (env : Env) (temp : PathBuf) (file : ℕ) (directOk : Bool) (data : Bytes)
    (rp : ReplacePlan) (hooks : ReplaceHooks) : Sys Error Unit := do
  mapErr stepErr' (writeTemp env file directOk data rp hooks)
  mapErr stepErr' (hooks.beforeRename temp)

variable {temp : PathBuf} {i : ℕ}

/-- Alone these are single calls on the file `i` behind `temp`. -/
abbrev Fills {ε α : Type} (temp : PathBuf) (i : ℕ) (m : Plan PathBuf → Sys ε α) : Prop :=
  Cuttable temp i (fun _ => True) m

section

variable {ε ε' α β : Type} {m m' : Plan PathBuf → Sys ε α}

theorem fills_pure (a : α) : Fills temp i fun _ => (pure a : Sys ε α) := Cuttable.lift trivial

theorem fills_throw (x : Exit ε) : Fills temp i fun _ => (Prog.throw x : Sys ε α) :=
  Cuttable.lift trivial

theorem fills_bind {f : α → Plan PathBuf → Sys ε β} (hm : Fills temp i m)
    (hf : ∀ a, Fills temp i (f a)) : Fills temp i fun plan => m plan >>= fun a => f a plan :=
  Cuttable.bind hm (fun a _ => hf a) fun _ _ => trivial

theorem fills_call {c : Plan PathBuf → Io PathBuf α} (hc : OneCall temp i _ c) :
    Cuttable temp i (fun _ => True) c := Cuttable.call hc fun _ _ => trivial

theorem fills_attempt {m : Plan PathBuf → Io PathBuf α} (hm : Cuttable temp i (fun _ => True) m) :
    Fills temp i fun plan => ((m plan).attempt : Sys ε' _) :=
  Cuttable.andThen hm (fun r _ => (Prog.lift (.ok r) : Sys ε' _)) fun _ _ => Cuttable.lift trivial

theorem fills_ignore {m : Plan PathBuf → Io PathBuf α} (hm : Cuttable temp i (fun _ => True) m) :
    Fills temp i fun plan => ((m plan).ignore : Sys ε' _) :=
  Cuttable.andThen hm (fun _ _ => (Prog.lift (.ok ()) : Sys ε' _)) fun _ _ => Cuttable.lift trivial

theorem fills_mapError {m : Plan PathBuf → Io PathBuf α} (f : IoError → Exit ε')
    (hm : Cuttable temp i (fun _ => True) m) :
    Fills temp i fun plan => (m plan).mapError f :=
  Cuttable.andThen hm (fun r _ => (Prog.lift (r.mapError f) : Sys ε' _)) fun _ _ =>
    Cuttable.lift trivial

theorem fills_sysCall {c : Plan PathBuf → Io PathBuf α} (hc : OneCall temp i _ c) :
    Fills temp i fun plan => sysCall (c plan) := fills_mapError _ (fills_call hc)

theorem fills_mapErr (f : ε → ε') (hm : Fills temp i m) :
    Fills temp i fun plan => mapErr f (m plan) :=
  Cuttable.andThen hm (fun r _ => (Prog.lift (r.mapError (Exit.map f)) : Sys ε' _)) fun _ _ =>
    Cuttable.lift trivial

theorem fills_ite {p : Prop} [Decidable p] (hm : Fills temp i m) (hm' : Fills temp i m') :
    Fills temp i fun plan => if p then m plan else m' plan := by
  split
  · exact hm
  · exact hm'

theorem fills_tryErr (hm : Fills temp i m) :
    Fills temp i fun plan => (tryErr (m plan) : Sys ε' _) := by
  refine (Cuttable.andThen (R := fun _ => True) hm (fun r _ =>
    (Shared.handedOver r).run (Syscall.exec fun _ _ => .ok 0)) ?_).congr ?_
  · intro r _
    cases r with
    | ok a => exact Cuttable.lift trivial
    | error x => cases x <;> exact Cuttable.lift trivial
  · intro plan w
    unfold tryErr
    cases m plan w with
    | mk r t =>
      cases r with
      | ok a => rfl
      | error x => cases x <;> rfl

end

theorem fills_alignedCopy (size align : ℕ) (data : Bytes) :
    Fills temp i fun plan => alignedCopy (answering env plan) size align data := by
  apply fills_bind
  · apply fills_ite
    · exact fills_throw _
    · apply fills_ite
      · exact fills_throw _
      · exact fills_mapError _ (fills_call OneCall.alloc)
  · intro _
    exact fills_ite (fills_throw _) (fills_pure _)

theorem fills_writeAll (fuel : ℕ) (data : Bytes) (written : ℕ) :
    Fills temp i fun plan => writeAll (answering env plan) fuel i data written := by
  induction fuel generalizing written with
  | zero => exact fills_throw _
  | succ fuel ih =>
    apply fills_ite
    · apply fills_bind (fills_attempt (fills_call (OneCall.pwrite _ _)))
      intro n
      cases n with
      | ok n => exact ih _
      | error e => exact fills_ite (ih _) (fills_throw _)
    · exact fills_pure _

theorem fills_pwriteAll (fuel : ℕ) (buf : Bytes) (written : ℕ) :
    Fills temp i fun plan => pwriteAll (answering env plan) fuel i buf written := by
  induction fuel generalizing written with
  | zero => exact fills_throw _
  | succ fuel ih =>
    apply fills_ite
    · apply fills_bind (fills_attempt (fills_call (OneCall.pwrite _ _)))
      intro n
      cases n with
      | ok n => exact fills_ite (fills_throw _) (ih _)
      | error e => exact fills_ite (ih _) (fills_throw _)
    · exact fills_pure _

theorem fills_writeAllDirect (data : Bytes) (ss : ℕ) :
    Fills temp i fun plan => writeAllDirect (answering env plan) i data ss := by
  have hrest : Fills temp i fun plan => if env.debugAssertions ∧ ¬ ss.isPowerOfTwo then unwind
      else alignedCopy (answering env plan) (roundUpLen data.length ss) ss data >>= fun buf =>
        pwriteAll (answering env plan) env.fuel i buf 0 := by
    apply fills_ite
    · exact fills_throw _
    · apply fills_bind (fills_alignedCopy _ _ _)
      intro buf
      exact fills_pwriteAll _ _ _
  apply fills_ite
  · exact fills_pure _
  · exact hrest

theorem fills_advance (offset done : ℕ) :
    Fills temp i fun _ => advance offset done := fills_ite (fills_pure _) (fills_throw _)

theorem fills_transferLoop (entries : ℕ) (buf : Bytes) (offset done : ℕ) :
    Fills temp i fun plan => transferLoop (answering env plan) entries i buf offset done := by
  induction entries generalizing done with
  | zero => exact fills_pure _
  | succ entries ih =>
    apply fills_ite
    · apply fills_bind (fills_advance _ _)
      intro pos
      apply fills_bind (fills_sysCall (OneCall.pwrite _ _))
      intro n
      exact fills_ite (fills_pure _) (ih _)
    · exact fills_pure _

theorem fills_fence : Fills temp i fun plan => sysCall (Io.fence plan i) :=
  fills_sysCall OneCall.fence

theorem fills_writeAtLinkedFsync (buf : Bytes) (offset : ℕ) :
    Fills temp i fun plan => writeAtLinkedFsync (answering env plan) i buf offset := by
  apply fills_ite
  · apply fills_bind (fills_transferLoop _ _ _ _)
    intro n
    exact fills_bind fills_fence fun _ => fills_pure _
  · apply fills_bind
    · apply fills_bind (fills_sysCall (OneCall.pwrite _ _))
      intro n
      exact fills_ite (fills_pure _) (fills_bind fills_fence fun _ => fills_pure _)
    · intro x
      obtain ⟨n, ran⟩ := x
      apply fills_ite
      · exact fills_ite (fills_pure _) (fills_bind fills_fence fun _ => fills_pure _)
      · apply fills_bind (fills_advance _ _)
        intro pos
        apply fills_bind (fills_transferLoop _ _ _ _)
        intro rest
        exact fills_bind fills_fence fun _ => fills_pure _

theorem fills_writeDirectDurablePlatform (data : Bytes) (ss : ℕ) :
    Fills temp i fun plan => writeDirectDurablePlatform (answering env plan) i data ss := by
  apply fills_bind (fills_mapErr _ (fills_writeAllDirect _ _))
  intro _
  apply fills_ite
  · apply fills_bind (fills_mapErr _ (fills_sysCall (OneCall.setLen _)))
    intro _
    exact fills_mapErr _ fills_fence
  · exact fills_mapErr _ fills_fence

theorem fills_iouringFence (nvme : Bool) :
    Fills temp i fun plan => iouringFence (answering env plan) i nvme :=
  fills_ite fills_fence fills_fence

theorem fills_iouringWriteDirect (data : Bytes) (ss : ℕ) (nvme fuse : Bool) :
    Fills temp i fun plan => iouringWriteDirect (answering env plan) i data ss nvme fuse := by
  have hfence : Fills temp i fun plan =>
      (do iouringFence (answering env plan) i nvme; pure true : Sys Error Bool) :=
    fills_bind (fills_iouringFence _) fun _ => fills_pure _
  apply fills_ite
  · exact fills_ite hfence (fills_pure _)
  · apply fills_ite
    · exact fills_throw _
    · apply fills_bind (fills_alignedCopy _ _ _)
      intro buf
      apply fills_ite
      · apply fills_bind (fills_writeAtLinkedFsync _ _)
        intro n
        exact fills_ite (fills_throw _) (fills_pure _)
      · apply fills_bind (fills_transferLoop _ _ _ _)
        intro n
        exact fills_ite (fills_throw _) (fills_ite hfence (fills_pure _))

theorem fills_directWriteDurable (h : Handle) (data : Bytes) :
    Fills temp i fun plan => directWriteDurable (answering env plan) h i data := by
  apply fills_ite
  · apply fills_bind (fills_tryErr (fills_iouringWriteDirect _ _ _ _))
    intro written
    cases written with
    | ok fenced =>
      apply fills_ite
      · apply fills_bind (fills_mapErr _ (fills_sysCall (OneCall.setLen _)))
        intro _
        exact fills_ite (fills_pure _) (fills_mapErr _ (fills_iouringFence _))
      · exact fills_ite (fills_pure _) (fills_mapErr _ (fills_iouringFence _))
    | error e => exact fills_writeDirectDurablePlatform _ _
  · exact fills_writeDirectDurablePlatform _ _

/-- The file that is fenced is the one that was opened. -/
theorem fills_fenceOpened : Fills temp i fun plan =>
    (do
      let file ← mapErr (atStep "flush") (sysCall (Io.openRead plan temp))
      mapErr (atStep "flush") (sysCall (Io.fence plan file)) : Sys StepError Unit) := by
  have hopen : Cuttable temp i (fun r : Except IoError ℕ => ∀ j, r = .ok j → j = i)
      fun plan => Io.openRead plan temp := by
    apply Cuttable.call OneCall.openRead
    intro r hr j hj
    obtain ⟨plan, w, hw, rfl⟩ := hr
    have hread := (Io.wp_openRead plan temp w).2.2 j hj
    rw [hw] at hread
    exact (Option.some.inj hread).symm
  have hstep : Cuttable temp i (fun r : Except (Exit StepError) ℕ => ∀ j, r = .ok j → j = i)
      fun plan => mapErr (atStep "flush") (sysCall (Io.openRead plan temp)) := by
    refine Cuttable.andThen hopen (fun r _ => Prog.lift
      ((r.mapError fun e => Exit.failed (Error.io e)).mapError (Exit.map (atStep "flush")))) ?_
    intro r hr
    apply Cuttable.lift
    intro j hj
    cases r with
    | ok k =>
      cases hj
      exact hr _ rfl
    | error e => cases hj
  apply Cuttable.bind hstep
  · intro j hj
    rw [hj j rfl]
    exact fills_mapErr _ fills_fence
  · intro _ _
    trivial

/-- The hooks of the crate. -/
theorem fills_fillTemp (k : HookKind) (directOk : Bool) (data : Bytes) (rp : ReplacePlan) :
    Fills temp i fun plan =>
      fillTemp (answering env plan) temp i directOk data rp (k.hooks (answering env plan)) := by
  have hwrite : Fills temp i fun plan => writeTemp (answering env plan) i directOk data rp
      (k.hooks (answering env plan)) := by
    apply fills_bind
    · cases k with
      | platform ss => exact fills_ite (fills_pure _) (fills_pure _)
      | solo h => exact fills_ite (fills_pure _) (fills_pure _)
      | writeCopy h existing => exact fills_ite (fills_pure _) (fills_pure _)
    · intro _
      apply fills_ite
      · cases k with
        | platform ss => exact fills_writeDirectDurablePlatform _ _
        | solo h => exact fills_directWriteDurable _ _
        | writeCopy h existing => exact fills_directWriteDurable _ _
      · apply fills_bind (fills_mapErr _ (fills_writeAll _ _ _))
        intro _
        exact fills_mapErr _ fills_fence
  have hmeta : Fills temp i fun plan => ((Io.setMeta plan temp).ignore : Sys StepError Unit) :=
    fills_ignore (fills_call OneCall.setMeta)
  have hbefore : Fills temp i fun plan => (k.hooks (answering env plan)).beforeRename temp := by
    cases k with
    | platform ss => exact fills_pure _
    | solo h => exact fills_pure _
    | writeCopy h existing =>
      apply fills_ite
      · apply fills_bind hmeta
        intro _
        apply fills_bind hmeta
        intro _
        apply fills_bind hmeta
        intro _
        exact fills_fenceOpened
      · exact fills_pure _
  exact fills_bind (fills_mapErr _ hwrite) fun _ => fills_mapErr _ hbefore

end Fsys.Crud
