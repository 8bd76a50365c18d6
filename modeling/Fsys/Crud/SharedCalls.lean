import Fsys.Base.PrivateFile
import Fsys.Crud.ReplaceSafety

/-!
# File operations call by call

The whole-file operations of a handle (`crud/file.rs:82-116, 194-218, 255-303, 353-389, 469-473`,
`method/mmap.rs:107-199, 216-255`, `platform/linux.rs:59-86, 255-320`) as clients of the
operating system: between any two of their calls others may run. A writer alone is the
program of `AtomicReplace`. How it fills its temp file is left open up to this: call by
call, and alone it does what `write_temp` does.
-/

namespace Fsys.Crud
open Fsys.Base Fsys.Platform

abbrev FileClient (ε α : Type) := Client (Syscall PathBuf) (Exit ε) α

/-- `std::fs::metadata(path)?.len()`; every file here is a regular one. -/
def metadataLen (plan : Plan PathBuf) (path : PathBuf) : Io PathBuf ℕ :=
  Io.look plan (.stat path) fun d _ => (Io.fileOf path d 0).map fun i => (d.data i).length

/-- The byte at `k` of a mapped file; behind the end of the file there is none. -/
def loadByte (file k : ℕ) : Io PathBuf (Option UInt8) := fun w =>
  (.ok (w.disk.data file)[k]?, Io.World.tick w w.disk)

/-- `rename(2)`; a file that is renamed to its own name stays. -/
def renameFile (plan : Plan PathBuf) (old new : PathBuf) : Io PathBuf Unit :=
  if old = new then Io.look plan (.rename old new) fun d n => (Io.fileOf old d n).map fun _ => ()
  else Io.rename plan old new

namespace Shared

section

variable {ε ε' α : Type}

/-- One system call. -/
def io (c : Plan PathBuf → Io PathBuf α) : Client (Syscall PathBuf) IoError α :=
  .call c Client.done

def sysCall (c : Plan PathBuf → Io PathBuf α) : FileClient Error α :=
  (io c).mapError fun e => .failed (.io e)

def fail (e : ε) : FileClient ε α := Client.throw (.failed e)

def unwind : FileClient ε α := Client.throw .panicked

def mapErr (f : ε → ε') (c : FileClient ε α) : FileClient ε' α := c.mapError (Exit.map f)

def handedOver : Except (Exit ε) α → FileClient ε' (Except ε α)
  | .ok a => .done (.ok (.ok a))
  | .error (.failed e) => .done (.ok (.error e))
  | .error .panicked => .done (.error .panicked)
  | .error .dropped => .done (.error .dropped)
  | .error .stalled => .done (.error .stalled)

def tryErr (c : FileClient ε α) : FileClient ε' (Except ε α) := c.andThen handedOver

end

variable (env : Env)

/-! ### Writing -/

/-- `open_write_new`. -/
def openWriteNew (path : PathBuf) (useDirect : Bool) : FileClient Error (ℕ × Bool) := do
  let opened ← (io fun plan => Io.createNew plan path).attempt
  match opened with
  | .ok file => pure (file, useDirect)
  | .error e =>
    if useDirect && e.kind = .invalidInput then do
      let file ← sysCall fun plan => Io.createNew plan path
      pure (file, false)
    else fail (.io e)

/-- The loop of `with_unique_temp`. -/
def uniqueTemp {α : Type} (target : PathBuf) (opener : PathBuf → FileClient Error α) :
    ℕ → ℕ → FileClient Error (PathBuf × α)
  | 0, attempt => do
    let v ← opener (genTempPath env target attempt)
    pure (genTempPath env target attempt, v)
  | left + 1, attempt => do
    let opened ← tryErr (opener (genTempPath env target attempt))
    match opened with
    | .ok v => pure (genTempPath env target attempt, v)
    | .error e =>
      if Error.alreadyExists e then uniqueTemp target opener left (attempt + 1) else fail e

def withUniqueTemp {α : Type} (target : PathBuf) (opener : PathBuf → FileClient Error α) :
    FileClient Error (PathBuf × α) := uniqueTemp env target opener (tempCreateAttempts - 1) 0

def remove {ε : Type} (temp : PathBuf) : FileClient ε Unit :=
  (io fun plan => Io.remove plan temp).ignore

def dropGuard {ε : Type} (temp : PathBuf) : Exit ε → FileClient ε Unit
  | .stalled => pure ()
  | _ => remove temp

def guarded {ε α : Type} (temp : PathBuf) (body : FileClient ε α) : FileClient ε α :=
  body.cleanup (dropGuard temp)

def syncParent (path : PathBuf) : FileClient Error Unit :=
  (io fun plan => Io.syncDir plan path).ignore

/-- `atomic_replace`, with the part that fills the temp file and makes it durable. -/
def atomicReplace (target : PathBuf) (plan : ReplacePlan)
    (fill : PathBuf → ℕ → Bool → FileClient Error Unit) : FileClient Error Unit := do
  let (temp, file, directOk) ← mapErr (stepErr "open_temp")
    (withUniqueTemp env target fun temp => openWriteNew temp plan.useDirect)
  guarded temp do
    fill temp file directOk
    mapErr (stepErr "rename") (sysCall fun p => Io.rename p temp target)
  if plan.syncParent then syncParent target else pure ()

def orRemove {α : Type} (temp : PathBuf) (report : IoError → Error)
    (c : Plan PathBuf → Io PathBuf α) : FileClient Error α :=
  ((io c).mapError fun e => Exit.failed (report e)).cleanup fun _ =>
    (remove temp : FileClient Error Unit)

/-- The part of `mmap::write` after the temp file is there. -/
def mmapFill (temp target : PathBuf) (file : ℕ) (data : Bytes) : FileClient Error Unit := do
  orRemove temp (.atomicReplaceFailed "set_len") fun p => Io.setLen p file data.length
  let mapLen ← orRemove temp (fun e =>
    .mmapFailed ("RawMmapMut::map_mut failed for temp: " ++ e.message)) fun p => Io.mapMut p file
  if mapLen ≠ data.length then unwind
  else do
    sysCall fun _ => Io.store file data
    orRemove temp (fun e =>
      .mmapFailed ("RawMmapMut::flush (msync/FlushViewOfFile) failed: " ++ e.message))
      fun p => Io.msync p file
    orRemove temp (fun e => .mmapFailed ("fsync of mmap temp file failed: " ++ e.message))
      fun p => Io.fence p file
    orRemove temp (.atomicReplaceFailed "rename") fun p => Io.rename p temp target

/-- `mmap::write`. -/
def mmapWrite (path : PathBuf) (data : Bytes) : FileClient Error Unit :=
  if isSuitableForWrite env data.length then do
    let (temp, file) ← mapErr (stepErr "open_temp")
      (withUniqueTemp env path fun temp => sysCall fun p => Io.createNew p temp)
    mmapFill temp path file data
    syncParent path
  else fail (.mmapFailed ("payload of " ++ toString data.length ++
    " bytes is below page size; caller should fall back to Sync"))

/-! ### Removing and renaming -/

/-- `Handle::delete` (`file.rs:353-363`), after the path is resolved. -/
def delete (path : PathBuf) : FileClient Error Unit := do
  let removed ← (io fun plan => Io.remove plan path).attempt
  match removed with
  | .ok _ => syncParent path
  | .error e => if e.kind = .notFound then pure () else fail (.io e)

/-- `Handle::rename` (`file.rs:469-473`). -/
def rename (old new : PathBuf) : FileClient Error Unit :=
  sysCall fun plan => renameFile plan old new

/-! ### Looking -/

/-- `Handle::exists` (`file.rs:371-378`). -/
def exists_ (path : PathBuf) : FileClient Error Bool := do
  let found ← (io fun plan => metadataLen plan path).attempt
  match found with
  | .ok _ => pure true
  | .error e => if e.kind = .notFound then pure false else fail (.io e)

/-- `Handle::size` (`file.rs:386-389`). -/
def size (path : PathBuf) : FileClient Error ℕ := sysCall fun plan => metadataLen plan path

/-! ### Reading -/

/-- `open_read` (`linux.rs:59-86`). -/
def openRead (path : PathBuf) (useDirect : Bool) : FileClient Error (ℕ × Bool) := do
  let opened ← (io fun plan => Io.openRead plan path).attempt
  match opened with
  | .ok file => pure (file, useDirect)
  | .error e =>
    if useDirect && e.kind = .invalidInput then do
      let file ← sysCall fun plan => Io.openRead plan path
      pure (file, false)
    else fail (.io e)

/-- `Read::read_to_end` of `read_all` (`linux.rs:255-264`): reads until one returns nothing.
`room` is what the buffer has left, less one. -/
def readToEnd (room : ℕ → ℕ) : ℕ → ℕ → Bytes → FileClient Error Bytes
  | 0, _, _ => Client.throw .stalled
  | fuel + 1, file, buf => do
    let got ← (io fun plan => Io.read plan file buf.length (room buf.length + 1)).attempt
    match got with
    | .ok bytes => if bytes = [] then pure buf else readToEnd room fuel file (buf ++ bytes)
    | .error e =>
      if e.kind = .interrupted then readToEnd room fuel file buf else fail (.io e)

/-- `AlignedBuf::new`. -/
def alignedBufNew (size align : ℕ) : FileClient Error Unit :=
  if size = 0 then
    fail (.alignmentRequired ("AlignedBuf::new called with size=0; callers must " ++
      "short-circuit empty Direct IO before reaching the buffer allocator"))
  else if ¬ align.isPowerOfTwo ∨ isizeMax < size + (align - 1) then
    fail (.alignmentRequired "invalid size/align combination for Direct IO buffer")
  else (io fun plan => Io.alloc plan).mapError fun _ => .failed (.io
    ⟨.outOfMemory, "Direct IO aligned buffer allocation failed"⟩)

/-- The loop of `read_all_direct` (`linux.rs:285-316`); `buf` is what it has. -/
def preadLoop : ℕ → ℕ → ℕ → Bytes → FileClient Error Bytes
  | 0, _, _, _ => Client.throw .stalled
  | fuel + 1, file, alignedLen, buf =>
    if buf.length < alignedLen then do
      let got ← (io fun plan => Io.read plan file buf.length (alignedLen - buf.length)).attempt
      match got with
      | .ok bytes =>
        if bytes = [] then pure buf else preadLoop fuel file alignedLen (buf ++ bytes)
      | .error e =>
        if e.kind = .interrupted then preadLoop fuel file alignedLen buf else fail (.io e)
    else pure buf

/-- `read_all_direct` (`linux.rs:266-320`). -/
def readAllDirect (file fileSize sectorSize : ℕ) : FileClient Error Bytes :=
  if fileSize = 0 then pure []
  else if env.debugAssertions ∧ ¬ sectorSize.isPowerOfTwo then unwind
  else do
    alignedBufNew (roundUpLen fileSize sectorSize) sectorSize
    let buf ← preadLoop env.fuel file (roundUpLen fileSize sectorSize) []
    pure (buf.take (min buf.length fileSize))

/-- `IoUringRing::read_at` (`linux_iouring.rs:253-266`) for that many entries. -/
def ringReadAt : ℕ → ℕ → ℕ → Bytes → FileClient Error Bytes
  | 0, _, _, buf => pure buf
  | entries + 1, file, total, buf =>
    if buf.length < total then do
      let len := min (total - buf.length) maxSqeLen
      if buf.length < 2 ^ 64 then do
        let bytes ← sysCall fun plan => Io.read plan file buf.length len
        if bytes = [] then pure buf else ringReadAt entries file total (buf ++ bytes)
      else fail (.io ⟨.invalidInput, "io_uring transfer offset overflows u64"⟩)
    else pure buf

/-- `iouring_read_direct` (`file.rs:788-813`). -/
def iouringReadDirect (file fileSize sectorSize : ℕ) : FileClient Error Bytes :=
  if fileSize = 0 then pure []
  else if sectorSize = 0 then unwind
  else do
    alignedBufNew (alignUp fileSize sectorSize) sectorSize
    let buf ← ringReadAt (alignUp fileSize sectorSize) file (alignUp fileSize sectorSize) []
    if buf.length < fileSize then
      fail (.io ⟨.other, "io_uring short read on Direct path"⟩)
    else pure (buf.take fileSize)

/-- `direct_read` (`file.rs:600-610`). -/
def directRead (h : Handle) (file fileSize : ℕ) : FileClient Error Bytes :=
  if h.ring then do
    let got ← tryErr (iouringReadDirect file fileSize h.sectorSize)
    match got with
    | .ok buf => pure buf
    | .error _ => readAllDirect env file fileSize h.sectorSize
  else readAllDirect env file fileSize h.sectorSize

/-- `is_suitable_for_read`. -/
def isSuitableForRead (len : ℕ) : Bool := len ≠ 0 ∧ env.pageSize ≤ len

/-- The copy out of a mapping, byte by byte. -/
def copyMapped (file : ℕ) : ℕ → Bytes → FileClient Error Bytes
  | 0, buf => pure buf
  | left + 1, buf => do
    let byte ← sysCall fun _ => loadByte file buf.length
    match byte with
    | some b => copyMapped file left (buf ++ [b])
    | none => unwind

/-- `mmap::read` (`mmap.rs:216-255`). -/
def mmapRead (path : PathBuf) : FileClient Error Bytes := do
  let file ← sysCall fun plan => Io.openRead plan path
  let len ← sysCall fun plan => Io.len plan file
  if isSuitableForRead env len then do
    let mapLen ← (io fun plan => Io.mapMut plan file).mapError fun e =>
      Exit.failed (Error.mmapFailed ("RawMmap::map failed: " ++ e.message))
    copyMapped file mapLen []
  else fail (.mmapFailed ("file is unsuitable for mmap (size=" ++ toString len ++
    ", is_file=true); caller should fall back to Sync"))

/-- `Handle::read` without the mapping (`file.rs:287-302`). -/
def readOpened (h : Handle) (room : ℕ → ℕ) (path : PathBuf) : FileClient Error Bytes := do
  let (file, directOk) ← openRead path h.useDirect
  if directOk then do
    let size ← sysCall fun plan => Io.len plan file
    directRead env h file size
  else readToEnd room env.fuel file []

/-- `Handle::read` (`file.rs:269-303`). A file that does not suit the mapping is read the way
of `Sync`. -/
def read (h : Handle) (room : ℕ → ℕ) (path : PathBuf) : FileClient Error Bytes :=
  if h.method = .mmap then do
    let found ← (io fun plan => metadataLen plan path).attempt
    match found with
    | .ok len =>
      if isSuitableForRead env len then mmapRead env path
      else readOpened env { h with method := .sync } room path
    | .error _ => readOpened env { h with method := .sync } room path
  else readOpened env h room path

end Shared

end Fsys.Crud
