import Fsys.Base.Disk

/-!
# Paths, errors and the Linux IO primitives

`platform/linux.rs:21-59, 113-190, 410-432`, `platform/mod.rs:86-164`,
`platform/linux_iouring.rs:226-432` and the completion driver of `async_io`
(`completion_driver.rs:281-321, 503-633`). A call ends by returning or with an
`Exit`: an error, a panic that unwinds, or the drop of its future. The retry
loops run for as many rounds as `Env.fuel` has; a loop that is still running
then has not ended. An error of the io_uring ring comes after the kernel is done
with the entry, so a file that was given up is not written behind our back.
-/

namespace Fsys
open Fsys.Base

/-- A path: its directory and its file name, which a path like `/` or `a/..` has not. -/
structure PathBuf where
  dir : String
  fileName : Option String
  deriving DecidableEq

/-- `Path::with_file_name`. -/
def PathBuf.withFileName (p : PathBuf) (name : String) : PathBuf := ⟨p.dir, some name⟩

/-- The path in an error message. -/
def PathBuf.debug (p : PathBuf) : String := (p.dir ++ "/" ++ p.fileName.getD "..").quote

/-- `round_up` (`platform/mod.rs:161-164`): `(n + align - 1) & !(align - 1)`, the masked
bits taken off. -/
def roundUp (n align : ℕ) : ℕ := (n + align - 1) - ((n + align - 1) &&& (align - 1))

theorem roundUp_pow (n k : ℕ) : roundUp n (2 ^ k) = alignUp n (2 ^ k) := by
  rw [roundUp, alignUp, Nat.and_two_pow_sub_one_eq_mod]
  have h := Nat.div_add_mod (n + 2 ^ k - 1) (2 ^ k)
  rw [Nat.mul_comm] at h
  omega

namespace Platform

/-! ### Errors and exits -/

/-- `Error` (`error.rs`), the variants the whole-file writers return. -/
inductive Error where
  | io (e : IoError)
  | alignmentRequired (detail : String)
  | atomicReplaceFailed (step : String) (source : IoError)
  | mmapFailed (reason : String)
  | handlePoisoned (reason : String)
  | completionDriverDead
  deriving DecidableEq

/-- The `Display` text of an error. -/
def Error.toString : Error → String
  | .io e => "[FS-00001] io error: " ++ e.message
  | .alignmentRequired detail => "[FS-00006] alignment requirement failed: " ++ detail
  | .atomicReplaceFailed step source =>
    "[FS-00007] atomic write-replace failed at step '" ++ step ++ "': " ++ source.message
  | .mmapFailed reason => "[FS-00012] mmap operation failed: " ++ reason
  | .handlePoisoned reason => "[FS-00019] async substrate poisoned: " ++ reason
  | .completionDriverDead => "[FS-00021] io_uring completion driver task is no longer running"

/-- `as_io_error` (`atomic.rs:234-239`). -/
def asIoError : Error → IoError
  | .io e => e
  | other => ⟨.other, other.toString⟩

/-- How a call ends when it does not return. `stalled` is no end: a loop still runs. -/
inductive Exit (ε : Type) where
  | failed (e : ε)
  | panicked
  | dropped
  | stalled

/-- `map_err` sees errors only. -/
def Exit.map {ε ε' : Type} (f : ε → ε') : Exit ε → Exit ε'
  | .failed e => .failed (f e)
  | .panicked => .panicked
  | .dropped => .dropped
  | .stalled => .stalled

/-- What becomes of a wait for the completion driver. A future is dropped, or the driver
lets go of its end, after that many entries of the operation. -/
inductive Await where
  | answered
  | ringPoisoned
  | driverDead
  | futureDropped (entries : ℕ)
  | senderDropped (entries : ℕ)

/-- The surroundings of a call: the answers of the operating system and of the driver, and
what the process and its random state contribute. -/
structure Env where
  plan : Plan PathBuf
  awaits : ℕ → Await
  fuel : ℕ
  debugAssertions : Bool
  pid : UInt32
  nonces : ℕ → UInt64
  nameHash : String → UInt64
  pageSize : ℕ

abbrev Sys (ε : Type) := Prog (World PathBuf) (Exit ε)

section

variable {ε ε' α : Type}

def fail (e : ε) : Sys ε α := Prog.throw (.failed e)

def unwind : Sys ε α := Prog.throw .panicked

def mapErr (f : ε → ε') (m : Sys ε α) : Sys ε' α := Prog.mapError (Exit.map f) m

/-- `match` on a `Result`: an error is handed over, a panic still unwinds. -/
def tryErr (m : Sys ε α) : Sys ε' (Except ε α) := fun w =>
  match m w with
  | (.ok a, w') => (.ok (.ok a), w')
  | (.error (.failed e), w') => (.ok (.error e), w')
  | (.error .panicked, w') => (.error .panicked, w')
  | (.error .dropped, w') => (.error .dropped, w')
  | (.error .stalled, w') => (.error .stalled, w')

def sysCall (m : Io PathBuf α) : Sys Error α := Prog.mapError (fun e => .failed (.io e)) m

end

section

variable (env : Env)

/-! ### Files and buffers -/

/-- `open_write_new` (`linux.rs:21-59`): an exclusive create. Direct IO that the filesystem
refuses with `EINVAL` is given up; the flag says whether it is on. The refused create is taken
to have left no file; on a filesystem where it does leave one the second gets `EEXIST`. -/
def openWriteNew (path : PathBuf) (useDirect : Bool) : Sys Error (ℕ × Bool) := do
  let opened ← (Io.createNew env.plan path).attempt
  match opened with
  | .ok file => pure (file, useDirect)
  | .error e =>
    if useDirect && e.kind = .invalidInput then do
      let file ← sysCall (Io.createNew env.plan path)
      pure (file, false)
    else fail (.io e)

def isizeMax : ℕ := 2 ^ 63 - 1

/-- `AlignedBuf::new` (`platform/mod.rs:101-123`). -/
def alignedBufNew (size align : ℕ) : Sys Error Unit :=
  if size = 0 then
    fail (.alignmentRequired ("AlignedBuf::new called with size=0; callers must " ++
      "short-circuit empty Direct IO before reaching the buffer allocator"))
  else if ¬ align.isPowerOfTwo ∨ isizeMax < size + (align - 1) then
    fail (.alignmentRequired "invalid size/align combination for Direct IO buffer")
  else Prog.mapError (fun _ => .failed (.io
    ⟨.outOfMemory, "Direct IO aligned buffer allocation failed"⟩)) (Io.alloc env.plan)

/-- A zeroed buffer of `size` bytes that `data` is copied to; the slice it is copied to has
to fit. -/
def alignedCopy (size align : ℕ) (data : Bytes) : Sys Error Bytes := do
  alignedBufNew env size align
  if size < data.length then unwind else pure (data ++ zeros (size - data.length))

/-! ### Writing with the system calls -/

/-- The loop of `write_all` (`linux.rs:113-135`). The descriptor is fresh, so its cursor
is at `written`; a write of nothing is tried again for ever. -/
def writeAll : ℕ → ℕ → Bytes → ℕ → Sys Error Unit
  | 0, _, _, _ => Prog.throw .stalled
  | fuel + 1, file, data, written =>
    if written < data.length then do
      let n ← (Io.pwrite env.plan file written (data.drop written)).attempt
      match n with
      | .ok n => writeAll fuel file data (written + n)
      | .error e =>
        if e.kind = .interrupted then writeAll fuel file data written else fail (.io e)
    else pure ()

/-- The loop of `write_all_direct` (`linux.rs:163-189`), which gives up on a write of
nothing. -/
def pwriteAll : ℕ → ℕ → Bytes → ℕ → Sys Error Unit
  | 0, _, _, _ => Prog.throw .stalled
  | fuel + 1, file, buf, written =>
    if written < buf.length then do
      let n ← (Io.pwrite env.plan file written (buf.drop written)).attempt
      match n with
      | .ok n =>
        if n = 0 then
          fail (.io ⟨.other, "pwrite returned 0 in write_all_direct (no progress)"⟩)
        else pwriteAll fuel file buf (written + n)
      | .error e =>
        if e.kind = .interrupted then pwriteAll fuel file buf written else fail (.io e)
    else pure ()

/-- `round_up` of a length that is not zero; `align - 1` wraps when `align` is. -/
def roundUpLen (n align : ℕ) : ℕ := if align = 0 then 0 else roundUp n align

/-- `write_all_direct` (`linux.rs:138-190`). -/
def writeAllDirect (file : ℕ) (data : Bytes) (sectorSize : ℕ) : Sys Error Unit :=
  if data = [] then pure ()
  else if env.debugAssertions ∧ ¬ sectorSize.isPowerOfTwo then unwind
  else do
    let buf ← alignedCopy env (roundUpLen data.length sectorSize) sectorSize data
    pwriteAll env env.fuel file buf 0

/-! ### Writing with the ring -/

/-- `MAX_SQE_LEN`. -/
def maxSqeLen : ℕ := 0x7fff0000

/-- `advance` (`linux_iouring.rs:422-432`). -/
def advance (offset done : ℕ) : Sys Error ℕ :=
  if offset + done < 2 ^ 64 then pure (offset + done)
  else fail (.io ⟨.invalidInput, "io_uring transfer offset overflows u64"⟩)

/-- The loop of `transfer` (`linux_iouring.rs:402-419`), for that many entries. -/
def transferLoop : ℕ → ℕ → Bytes → ℕ → ℕ → Sys Error ℕ
  | 0, _, _, _, done => pure done
  | entries + 1, file, buf, offset, done =>
    if done < buf.length then do
      let len := min (buf.length - done) maxSqeLen
      let pos ← advance offset done
      let n ← sysCall (Io.pwrite env.plan file pos ((buf.drop done).take len))
      if n = 0 then pure done
      else transferLoop entries file buf offset (done + min n len)
    else pure done

/-- `IoUringRing::write_at` (`linux_iouring.rs:234-247`). Every entry but a last one makes
progress, so there are no more of them than bytes. -/
def ringWriteAt (file : ℕ) (buf : Bytes) (offset : ℕ) : Sys Error ℕ :=
  transferLoop env buf.length file buf offset 0

/-- `IoUringRing::fdatasync`. -/
def ringFdatasync (file : ℕ) : Sys Error Unit := sysCall (Io.fence env.plan file)

/-- The linked write and fsync of the owner thread (`linux_iouring.rs:642-690`): a short
write severs the link and cancels the fsync. -/
def writeLinkedFsync (file : ℕ) (buf : Bytes) (offset : ℕ) : Sys Error (ℕ × Bool) := do
  let written ← sysCall (Io.pwrite env.plan file offset buf)
  if written < buf.length then pure (written, false)
  else do
    sysCall (Io.fence env.plan file)
    pure (written, true)

/-- `IoUringRing::write_at_linked_fsync` (`linux_iouring.rs:289-321`). -/
def writeAtLinkedFsync (file : ℕ) (buf : Bytes) (offset : ℕ) : Sys Error ℕ :=
  if buf.length > maxSqeLen then do
    let written ← ringWriteAt env file buf offset
    ringFdatasync env file
    pure written
  else do
    let (written, fsyncRan) ← writeLinkedFsync env file buf offset
    if written ≥ buf.length then
      if fsyncRan then pure written
      else do
        ringFdatasync env file
        pure written
    else do
      let pos ← advance offset written
      let rest ← ringWriteAt env file (buf.drop written) pos
      ringFdatasync env file
      pure (written + rest)

/-! ### Waiting for the completion driver -/

/-- `AsyncIoUring::submit` (`completion_driver.rs:281-321`). An operation nobody waits for
runs on in the driver. What it still writes goes to the open file and so does not depend
on when the name of the file goes. -/
def submit (op : ℕ → Sys Error ℕ) (entries : ℕ) : Sys Error ℕ := fun w =>
  (awaited (env.awaits w.clock)) w
where
  awaited : Await → Sys Error ℕ
    | .answered => op entries
    | .ringPoisoned => fail (.handlePoisoned "io_uring completion driver panicked")
    | .driverDead => fail .completionDriverDead
    | .futureDropped k => do
      (op k).ignore
      Prog.throw .dropped
    | .senderDropped k => do
      (op k).ignore
      fail (.handlePoisoned "io_uring completion driver dropped sender")

/-- `write_at_native` (`iouring_substrate.rs:25-39`): the driver writes on after a short
write, as `transfer` does. -/
def writeAtNative (file : ℕ) (buf : Bytes) (offset : ℕ) : Sys Error ℕ :=
  submit env (fun entries => transferLoop env entries file buf offset 0) buf.length

/-- `fdatasync_native` (`iouring_substrate.rs:42-45`). -/
def fdatasyncNative (file : ℕ) : Sys Error Unit := do
  let _ ← submit env (fun entries => if entries = 0 then pure 0 else do
    sysCall (Io.fence env.plan file)
    pure 0) 1
  pure ()

end

end Platform

end Fsys
