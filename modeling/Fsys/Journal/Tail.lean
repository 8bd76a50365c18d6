import Fsys.Platform
import Fsys.Journal.ReaderFaults

/-!
# Resume scan and corrupt tails (src/journal/tail.rs)

`prepare_resume` scans the journal for its clean end and copies what follows to
a sidecar file, unless it is all zero. It runs against a directory and a plan
that decides the fate of every system call. `read_some` is the answer after
its retries on `Interrupted`; seeking in an open file does not fail.
-/

namespace Fsys.Journal
open Fsys.Base

/-- `Tail` (`tail.rs:70-80`). -/
inductive Tail where
  | empty
  | zeros
  | preserved (sidecar : PathBuf)
  deriving DecidableEq

/-- `Resume` (`tail.rs:45-67`). -/
structure Resume where
  cleanEnd : ℕ
  tail : Tail
  deriving DecidableEq

def Resume.empty : Resume := ⟨0, .empty⟩

def Resume.tailHasData (r : Resume) : Bool :=
  match r.tail with
  | .preserved _ => true
  | _ => false

/-- `CHUNK`. -/
def chunk : ℕ := 64 * 1024

/-- `sidecar_path` (`tail.rs:194-207`). -/
def sidecarPath (path : PathBuf) (cleanEnd attempt : ℕ) : Except IoError PathBuf :=
  match path.fileName with
  | none => .error ⟨.invalidInput, "journal path has no file name"⟩
  | some fileName =>
    let name := fileName ++ ".corrupt-" ++ toString cleanEnd
    let name := if attempt > 0 then name ++ "." ++ toString attempt else name
    .ok (path.withFileName name)

/-- `tail_error` (`tail.rs:354-374`). -/
def tailError (path : PathBuf) (cleanEnd len : ℕ) (sidecar : Option PathBuf) (e : IoError) :
    IoError :=
  let target := match sidecar with
    | some s => " to " ++ s.debug
    | none => ""
  ⟨e.kind, "journal at " ++ path.debug ++ " has " ++ toString len ++
    " unreadable bytes after its last valid frame at offset " ++ toString cleanEnd ++
    "; saving them" ++ target ++
    " before truncating failed, so the journal was not opened or changed: " ++ e.message⟩

abbrev JournalIo := Io PathBuf

section

variable (crc : Crc) (plan : Plan PathBuf)

/-! ### The scan -/

/-- The answers to the reads of a scan that starts now. -/
def readsFrom (i clock : ℕ) : ReadSchedule := fun k =>
  match plan (.read i) (clock + k) with
  | .ok amount => .short amount
  | .fail e _ => .fail e

/-- `while iter.next().transpose()?.is_some() {}`, then position and tail state. -/
def scanFile (i : ℕ) : JournalIo (ℕ × JournalTailState) := fun w =>
  match replay crc (readsFrom plan i w.clock) (JournalReader.open (w.disk.data i)) with
  | some (.ok _, reader) =>
    (.ok (reader.position, reader.tailState), { w with clock := w.clock + reader.reads })
  | some (.error e, reader) => (.error e, { w with clock := w.clock + reader.reads })
  | none => (.error ⟨.other, "the scan did not end"⟩, w)

/-- `scan_clean_end` (`tail.rs:103-113`): clean end, file length and tail state. -/
def scanCleanEnd (path : PathBuf) : JournalIo (ℕ × ℕ × JournalTailState) := do
  let i ← Io.openRead plan path
  let fileLen ← Io.len plan i
  if fileLen = 0 then pure (0, 0, .cleanEnd)
  else do
    let (position, state) ← scanFile crc plan i
    pure (position, fileLen, state)

/-! ### The tail -/

/-- An open file with a read position and a limit, `Take<File>`. -/
structure Src where
  ino : ℕ
  offset : ℕ
  left : ℕ

/-- `open_range` (`tail.rs:164-168`). -/
def openRange (path : PathBuf) (offset len : ℕ) : JournalIo Src := do
  let i ← Io.openRead plan path
  pure ⟨i, offset, len⟩

/-- `read_some` (`tail.rs:171-178`) through the limit. -/
def readSome (src : Src) : JournalIo (Bytes × Src) :=
  if src.left = 0 then pure ([], src)
  else do
    let bytes ← Io.read plan src.ino src.offset (min chunk src.left)
    pure (bytes, ⟨src.ino, src.offset + bytes.length, src.left - bytes.length⟩)

/-- The loop of `tail_is_zero`. Each pass but the last reads a byte of the range, so the
length of the range and one more are passes enough. -/
def zeroCheck : ℕ → Src → JournalIo Bool
  | 0, _ => pure true
  | fuel + 1, src => do
    let (bytes, src) ← readSome plan src
    if bytes = [] then pure true
    else if bytes.any (· ≠ 0) then pure false
    else zeroCheck fuel src

/-- `tail_is_zero` (`tail.rs:181-192`). -/
def tailIsZero (path : PathBuf) (offset len : ℕ) : JournalIo Bool := do
  let src ← openRange plan path offset len
  zeroCheck plan (len + 1) src

/-- The copy loop of `fill_sidecar`: the number of bytes copied. -/
def copyTail (sidecar : ℕ) : ℕ → Src → ℕ → JournalIo ℕ
  | 0, _, copied => pure copied
  | fuel + 1, src, copied => do
    let (bytes, src) ← readSome plan src
    if bytes = [] then pure copied
    else do
      Io.writeAt plan sidecar copied bytes
      copyTail sidecar fuel src (copied + bytes.length)

/-- `fill_sidecar` (`tail.rs:285-311`). -/
def fillSidecar (sidecar : ℕ) (path : PathBuf) (cleanEnd len : ℕ) : JournalIo Unit := do
  let src ← openRange plan path cleanEnd len
  let copied ← copyTail plan sidecar (len + 1) src 0
  if copied ≠ len then
    Prog.throw ⟨.unexpectedEof, "journal shrank while its tail was copied (" ++
      toString copied ++ " of " ++ toString len ++ " bytes)"⟩
  else Io.fence plan sidecar

/-- The comparison loop of `matching_sidecar`, `done` bytes in. -/
def compareTail (ours cleanEnd theirs : ℕ) : ℕ → ℕ → ℕ → JournalIo Bool
  | 0, _, _ => pure false
  | fuel + 1, done, left =>
    if left = 0 then pure true
    else do
      let n := min left (chunk / 2)
      let a ← Io.readExact plan ours (cleanEnd + done) n
      let b ← Io.readExact plan theirs done n
      if a ≠ b then pure false
      else compareTail ours cleanEnd theirs fuel (done + n) (left - n)

/-- The steps of `matching_sidecar` with their errors. -/
def openMatching (candidate path : PathBuf) (cleanEnd len : ℕ) : JournalIo (Option ℕ) := do
  let existing ← Io.openWrite plan candidate
  let size ← Io.len plan existing
  if size ≠ len then pure none
  else do
    let ours ← openRange plan path cleanEnd len
    let same ← compareTail plan ours.ino cleanEnd existing (len + 1) 0 len
    pure (if same then some existing else none)

/-- `matching_sidecar` (`tail.rs:319-350`): any error counts as a mismatch. -/
def matchingSidecar (candidate path : PathBuf) (cleanEnd len : ℕ) : JournalIo (Option ℕ) := do
  let found ← (openMatching plan candidate path cleanEnd len).attempt
  match found with
  | .ok existing => pure existing
  | .error _ => pure none

/-- A created sidecar is filled and its directory synced; a partial copy is removed. -/
def fillNew (candidate path : PathBuf) (cleanEnd len sidecar : ℕ) : JournalIo PathBuf := do
  let filled ← (fillSidecar plan sidecar path cleanEnd len).attempt
  match filled with
  | .error e => do
    let (_ : Except IoError Unit) ← (Io.remove plan candidate).attempt
    Prog.throw (tailError path cleanEnd len (some candidate) e)
  | .ok () => do
    (Io.syncDir plan candidate).mapError (tailError path cleanEnd len (some candidate))
    pure candidate

/-- An existing copy is synced once more and reused. -/
def reuse (candidate path : PathBuf) (cleanEnd len existing : ℕ) : JournalIo PathBuf := do
  (Io.fence plan existing).mapError (tailError path cleanEnd len (some candidate))
  (Io.syncDir plan candidate).mapError (tailError path cleanEnd len (some candidate))
  pure candidate

/-- `write_sidecar` (`tail.rs:212-255`), from candidate `attempt` on; `attempt` is a
`u32`. -/
def writeSidecar (path : PathBuf) (cleanEnd len attempt : ℕ) : JournalIo PathBuf := do
  let candidate ← (Prog.lift (sidecarPath path cleanEnd attempt)).mapError
    (tailError path cleanEnd len none)
  let created ← (Io.createNew plan candidate).attempt
  match created with
  | .ok sidecar => fillNew plan candidate path cleanEnd len sidecar
  | .error e =>
    if e.kind = .alreadyExists then do
      let existing ← matchingSidecar plan candidate path cleanEnd len
      match existing with
      | some i => reuse plan candidate path cleanEnd len i
      | none =>
        if attempt + 1 < 2 ^ 32 then writeSidecar path cleanEnd len (attempt + 1)
        else Prog.throw (tailError path cleanEnd len (some candidate)
          ⟨.alreadyExists, "every sidecar file name is taken"⟩)
    else Prog.throw (tailError path cleanEnd len (some candidate) e)
termination_by 2 ^ 32 - attempt

/-- `preserve_tail` (`tail.rs:117-129`). -/
def preserveTail (path : PathBuf) (cleanEnd fileLen : ℕ) : JournalIo Tail :=
  if cleanEnd ≥ fileLen then pure .empty
  else do
    let len := fileLen - cleanEnd
    let zeros ← (tailIsZero plan path cleanEnd len).mapError (tailError path cleanEnd len none)
    if zeros then pure .zeros
    else do
      let sidecar ← writeSidecar plan path cleanEnd len 0
      pure (.preserved sidecar)

/-- `prepare_resume` (`tail.rs:90-95`). -/
def prepareResume (path : PathBuf) : JournalIo Resume := do
  let (cleanEnd, fileLen, _) ← scanCleanEnd crc plan path
  let tail ← preserveTail plan path cleanEnd fileLen
  pure ⟨cleanEnd, tail⟩

end

end Fsys.Journal
