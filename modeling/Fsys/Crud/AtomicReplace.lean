import Fsys.Crud.TempFile

/-!
# Atomic replace

The whole-file writers: `atomic_replace` with its hooks (`crud/atomic.rs`,
`crud/file.rs:533-765, 815-880`), the memory-mapped writer
(`method/mmap.rs:63-199`) and the native async writer
(`async_io/crud_file.rs:217-353`). Each fills a temp file next to the target,
fences it and renames it over the target. What only reaches the handle (its
active method after a refused Direct open) is left out: no step of the same call
reads it again.
-/

namespace Fsys.Crud
open Fsys.Base Fsys.Platform

/-! ### Temp names (handle.rs:108-120, 1299-1348) -/

/-- `TEMP_PREFIX`. -/
def tempPrefix : String := ".fsys-tmp-"

/-- `MAX_NAME_LEN`. -/
def maxNameLen : ℕ := 255

/-- The last `k` hex digits of a number. -/
def hexDigits : ℕ → ℕ → List Char
  | 0, _ => []
  | k + 1, n => hexDigits k (n / 16) ++ [Nat.digitChar (n % 16)]

/-- `{:016x}`. -/
def hex16 (n : UInt64) : String := String.ofList (hexDigits 16 n.toNat)

/-- `{:x}`. -/
def hex (n : UInt32) : String :=
  match (hexDigits 8 n.toNat).dropWhile (· = '0') with
  | [] => "0"
  | digits => String.ofList digits

/-- The part of a temp name before the name of the target. -/
def tempHead (env : Env) (attempt : ℕ) : String :=
  tempPrefix ++ hex env.pid ++ "-" ++ hex16 (env.nonces attempt) ++ "."

/-- `Handle::gen_temp_path` (`handle.rs:1315-1348`). -/
def genTempPath (env : Env) (path : PathBuf) (attempt : ℕ) : PathBuf :=
  let head := tempHead env attempt
  let tempName := match path.fileName with
    | none => head
    | some name =>
      if head.utf8ByteSize + name.utf8ByteSize ≤ maxNameLen then head ++ name
      else head ++ hex16 (env.nameHash name)
  ⟨path.dir, some tempName⟩

/-! ### Plans and hooks (atomic.rs:31-114) -/

/-- `Method` (`method/mod.rs`). -/
inductive Method where
  | sync
  | data
  | direct
  | mmap
  | journal
  | auto
  | spdk
  deriving DecidableEq, Repr

/-- `BufferedFlush`. -/
inductive BufferedFlush where
  | data
  | full
  deriving DecidableEq, Repr

def BufferedFlush.forMethod : Method → BufferedFlush
  | .data => .data
  | .direct => .data
  | _ => .full

/-- `ReplacePlan`. -/
structure ReplacePlan where
  useDirect : Bool
  flush : BufferedFlush
  syncParent : Bool

/-- An error and the step of the replace it belongs to. -/
abbrev StepError := String × Error

def atStep (step : String) (e : Error) : StepError := (step, e)

/-- `ReplaceHooks`, with what the trait asks of an implementation. A hook may end in any
way, by a panic too. -/
structure ReplaceHooks where
  directRefused : Sys StepError Unit
  writeDirectDurable : ℕ → Bytes → Sys StepError Unit
  beforeRename : PathBuf → Sys StepError Unit
  /-- the notice of a refused Direct open leaves all files alone -/
  refused_keeps : ∀ w, directRefused.Wp (fun _ w' =>
    w.disk.Same w'.disk ∧ w'.renames = w.renames) w
  /-- the fresh temp file is durable at exactly the data -/
  write_durable : ∀ file data w, w.disk.data file = [] →
    (writeDirectDurable file data).Wp (fun r w' => w.Writes file w' ∧
      (r = .ok () → w'.disk.data file = data ∧ w'.disk.fenced file = true)) w
  /-- and still is when the rename follows -/
  before_keeps : ∀ temp file w, w.disk.names temp = some file → w.disk.fenced file = true →
    (beforeRename temp).Wp (fun r w' => w.disk.Same w'.disk ∧ w'.renames = w.renames ∧
      (r = .ok () → w'.disk.fenced file = true)) w

section

variable (env : Env)

/-- `fence_data` and `fence_full` (`crud/mod.rs:21-35`). -/
def BufferedFlush.run (_ : BufferedFlush) (file : ℕ) : Sys Error Unit :=
  sysCall (Io.fence env.plan file)

/-! ### The Direct writes (crud/file.rs:546-600, 660-765) -/

/-- `needs_trim`. -/
def needsTrim (len sectorSize : ℕ) : Bool := len % max sectorSize 1 ≠ 0

/-- `write_direct_durable_platform` (`file.rs:687-702`). -/
def writeDirectDurablePlatform (file : ℕ) (data : Bytes) (sectorSize : ℕ) :
    Sys StepError Unit := do
  mapErr (atStep "write") (writeAllDirect env file data sectorSize)
  if needsTrim data.length sectorSize then do
    mapErr (atStep "truncate") (sysCall (Io.setLen env.plan file data.length))
    mapErr (atStep "flush") (sysCall (Io.fence env.plan file))
  else mapErr (atStep "flush") (sysCall (Io.fence env.plan file))

/-- `iouring_fence` (`file.rs:775-790`): `fdatasync` through the ring, or an NVMe flush of
the whole device. -/
def iouringFence (file : ℕ) (nvme : Bool) : Sys Error Unit :=
  if nvme then sysCall (Io.fence env.plan file) else ringFdatasync env file

/-- The write without a linked fsync (`file.rs:755-764`). -/
def iouringWriteUnlinked (file : ℕ) (buf : Bytes) (nvme fuseFence : Bool) : Sys Error Bool := do
  let n ← ringWriteAt env file buf 0
  if n ≠ buf.length then fail (.io ⟨.other, "io_uring short write on Direct path"⟩)
  else if fuseFence then do
    iouringFence env file nvme
    pure true
  else pure false

/-- The linked write and fsync (`file.rs:744-754`). -/
def iouringWriteLinked (file : ℕ) (buf : Bytes) : Sys Error Bool := do
  let n ← writeAtLinkedFsync env file buf 0
  if n ≠ buf.length then
    fail (.io ⟨.other, "io_uring short write on Direct path (linked write+fsync)"⟩)
  else pure true

/-- `iouring_write_direct` (`file.rs:715-765`). `div_ceil` by a sector size of 0 panics. -/
def iouringWriteDirect (file : ℕ) (data : Bytes) (sectorSize : ℕ) (nvme fuseFence : Bool) :
    Sys Error Bool :=
  if data = [] then
    if fuseFence then do
      iouringFence env file nvme
      pure true
    else pure false
  else if sectorSize = 0 then unwind
  else do
    let buf ← alignedCopy env (alignUp data.length sectorSize) sectorSize data
    if fuseFence && !nvme then iouringWriteLinked env file buf
    else iouringWriteUnlinked env file buf nvme fuseFence

/-- What the writers read of a handle: its method, the sector size, and whether the ring and
the NVMe passthrough are there. -/
structure Handle where
  method : Method
  sectorSize : ℕ
  ring : Bool
  nvme : Bool

def Handle.useDirect (h : Handle) : Bool := h.method = .direct

/-- After the ring write: trim and fence what is left to do (`file.rs:562-570`). -/
def trimAndFence (file : ℕ) (data : Bytes) (needs nvme fenced : Bool) : Sys StepError Unit := do
  if needs then mapErr (atStep "truncate") (sysCall (Io.setLen env.plan file data.length))
  else pure ()
  if fenced then pure () else mapErr (atStep "flush") (iouringFence env file nvme)

/-- `direct_write_durable` (`file.rs:546-600`): when the ring fails, `pwrite` starts over. -/
def directWriteDurable (h : Handle) (file : ℕ) (data : Bytes) : Sys StepError Unit :=
  let needs := needsTrim data.length h.sectorSize
  if h.ring then do
    let written ← tryErr (iouringWriteDirect env file data h.sectorSize h.nvme !needs)
    match written with
    | .ok fenced => trimAndFence env file data needs h.nvme fenced
    | .error _ => writeDirectDurablePlatform env file data h.sectorSize
  else writeDirectDurablePlatform env file data h.sectorSize

/-- `apply_preserved_metadata` on Unix (`file.rs:841-880`): owner, mode and times as far as
they can be set, then a full fence. -/
def applyPreservedMetadata (staging : PathBuf) : Sys StepError Unit := do
  (Io.setMeta env.plan staging).ignore
  (Io.setMeta env.plan staging).ignore
  (Io.setMeta env.plan staging).ignore
  let file ← mapErr (atStep "flush") (sysCall (Io.openRead env.plan staging))
  mapErr (atStep "flush") (sysCall (Io.fence env.plan file))

/-! ### The sequence (atomic.rs:118-240) -/

/-- `step_err`. -/
def stepErr (step : String) (e : Error) : Error := .atomicReplaceFailed step (asIoError e)

def stepErr' (e : StepError) : Error := stepErr e.1 e.2

/-- `TEMP_CREATE_ATTEMPTS`. -/
def tempCreateAttempts : ℕ := 8

def Error.alreadyExists : Error → Bool
  | .io e => e.kind = .alreadyExists
  | _ => false

/-- The loop of `with_unique_temp` with so many attempts left after this one. -/
def uniqueTemp {α : Type} (target : PathBuf) (opener : PathBuf → Sys Error α) :
    ℕ → ℕ → Sys Error (PathBuf × α)
  | 0, attempt => do
    let v ← opener (genTempPath env target attempt)
    pure (genTempPath env target attempt, v)
  | left + 1, attempt => do
    let opened ← tryErr (opener (genTempPath env target attempt))
    match opened with
    | .ok v => pure (genTempPath env target attempt, v)
    | .error e =>
      if Error.alreadyExists e then uniqueTemp target opener left (attempt + 1) else fail e

/-- `with_unique_temp` (`atomic.rs:210-226`). -/
def withUniqueTemp {α : Type} (target : PathBuf) (opener : PathBuf → Sys Error α) :
    Sys Error (PathBuf × α) := uniqueTemp env target opener (tempCreateAttempts - 1) 0

/-- The drop of an armed `TempGuard`; a call that has not ended drops nothing. -/
def dropGuard {ε : Type} (temp : PathBuf) : Exit ε → Sys ε Unit
  | .stalled => pure ()
  | _ => (Io.remove env.plan temp).ignore

/-- The part of a call under an armed `TempGuard` (or `TempFileGuard`). -/
def guarded {ε α : Type} (temp : PathBuf) (body : Sys ε α) : Sys ε α :=
  body.cleanup (dropGuard env temp)

def noticeRefused (directOk : Bool) (plan : ReplacePlan) (hooks : ReplaceHooks) :
    Sys StepError Unit :=
  if plan.useDirect && !directOk then hooks.directRefused else pure ()

/-- `write_temp` (`atomic.rs:172-191`). -/
def writeTemp (file : ℕ) (directOk : Bool) (data : Bytes) (plan : ReplacePlan)
    (hooks : ReplaceHooks) : Sys StepError Unit := do
  noticeRefused directOk plan hooks
  if directOk then hooks.writeDirectDurable file data
  else do
    mapErr (atStep "write") (writeAll env env.fuel file data 0)
    mapErr (atStep "flush") (plan.flush.run env file)

/-- `atomic_replace` (`atomic.rs:137-168`). The rename disarms the guard. -/
def atomicReplace (target : PathBuf) (data : Bytes) (plan : ReplacePlan) (hooks : ReplaceHooks) :
    Sys Error Unit := do
  let (temp, file, directOk) ← mapErr (stepErr "open_temp")
    (withUniqueTemp env target fun temp => openWriteNew env temp plan.useDirect)
  guarded env temp do
    mapErr stepErr' (writeTemp env file directOk data plan hooks)
    mapErr stepErr' (hooks.beforeRename temp)
    mapErr (stepErr "rename") (sysCall (Io.rename env.plan temp target))
  if plan.syncParent then (Io.syncDir env.plan target).ignore else pure ()

/-! ### The memory-mapped writer (mmap.rs:63-199) -/

/-- `is_suitable_for_write`. -/
def isSuitableForWrite (len : ℕ) : Bool := len ≠ 0 ∧ env.pageSize ≤ len

/-- A step whose failure removes the temp file before it is reported. -/
def orRemove {α : Type} (temp : PathBuf) (report : IoError → Error) (m : Io PathBuf α) :
    Sys Error α :=
  (Prog.mapError (fun e => Exit.failed (report e)) m).cleanup fun _ =>
    ((Io.remove env.plan temp).ignore : Sys Error Unit)

/-- The part of `mmap::write` after the temp file is there. -/
def mmapFill (temp target : PathBuf) (file : ℕ) (data : Bytes) : Sys Error Unit := do
  orRemove env temp (.atomicReplaceFailed "set_len") (Io.setLen env.plan file data.length)
  let mapLen ← orRemove env temp (fun e =>
    .mmapFailed ("RawMmapMut::map_mut failed for temp: " ++ e.message)) (Io.mapMut env.plan file)
  -- `copy_from_slice` wants slices of one length
  if mapLen ≠ data.length then unwind
  else do
    sysCall (Io.store file data)
    orRemove env temp (fun e =>
      .mmapFailed ("RawMmapMut::flush (msync/FlushViewOfFile) failed: " ++ e.message))
      (Io.msync env.plan file)
    orRemove env temp (fun e => .mmapFailed ("fsync of mmap temp file failed: " ++ e.message))
      (Io.fence env.plan file)
    orRemove env temp (.atomicReplaceFailed "rename") (Io.rename env.plan temp target)

/-- `mmap::write` (`mmap.rs:107-199`). -/
def mmapWrite (path : PathBuf) (data : Bytes) : Sys Error Unit :=
  if isSuitableForWrite env data.length then do
    let (temp, file) ← mapErr (stepErr "open_temp")
      (withUniqueTemp env path fun temp => sysCall (Io.createNew env.plan temp))
    mmapFill env temp path file data
    (Io.syncDir env.plan path).ignore
  else fail (.mmapFailed ("payload of " ++ toString data.length ++
    " bytes is below page size; caller should fall back to Sync"))

/-! ### The native async writer (crud_file.rs:244-353) -/

/-- The buffer that is submitted: padded for Direct IO. -/
def nativeBuf (h : Handle) (directOk : Bool) (data : Bytes) : Sys Error Bytes :=
  if directOk then
    if h.sectorSize = 0 then unwind
    else mapErr (stepErr "alloc_aligned_buf")
      (alignedCopy env (alignUp data.length h.sectorSize) h.sectorSize data)
  else pure data

/-- The write and the trim; an empty payload needs neither (`crud_file.rs:283-316`). -/
def nativeWrite (h : Handle) (file : ℕ) (directOk : Bool) (data : Bytes) : Sys Error Unit :=
  if data.length = 0 then pure () else do
  let buf ← nativeBuf env h directOk data
  let written ← mapErr (stepErr "write_native") (writeAtNative env file buf 0)
  if written ≠ buf.length then
    fail (.atomicReplaceFailed "write_native_short" ⟨.writeZero,
      "native io_uring write made no progress before the end of the payload"⟩)
  else if buf.length ≠ data.length then
    mapErr (stepErr "truncate") (sysCall (Io.setLen env.plan file data.length))
  else pure ()

/-- `write_async_native` (`crud_file.rs:244-327`). -/
def writeAsyncNative (h : Handle) (resolved : PathBuf) (data : Bytes) : Sys Error Unit := do
  let temp := genTempPath env resolved 0
  let (file, directOk) ← mapErr (stepErr "open_temp") (openWriteNew env temp h.useDirect)
  guarded env temp do
    nativeWrite env h file directOk data
    mapErr (stepErr "fdatasync_native") (fdatasyncNative env file)
    mapErr (stepErr "rename") (sysCall (Io.rename env.plan temp resolved))
  (Io.syncDir env.plan resolved).ignore

end

end Fsys.Crud
