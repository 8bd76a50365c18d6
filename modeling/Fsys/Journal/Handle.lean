import Fsys.Journal.LogBufferSafety
import Fsys.Journal.Tail

/-!
# The journal handle (src/journal/mod.rs:356-590, 666-1320, 1525-1590)

Opening in both modes, appending, syncing and closing, one call after the other.
With no second caller a group-commit leader has no follower, the write gate is
empty when it is drained and no write of the log buffer is in flight when a call
starts. File offsets are natural numbers: a write at an offset no file can have
fails.
-/

namespace Fsys.Journal
open Fsys.Base

/-- What the platform says about the file: whether Direct IO is accepted, and the sector
size. -/
structure Device where
  directActive : Bool
  sectorSize : ℕ
  sectorSize_pow : ∃ k, sectorSize = 2 ^ k
  sectorSize_le : 512 ≤ sectorSize

/-- `JournalOptions`, as far as a single caller can tell. -/
structure JournalOptions where
  direct : Bool
  logBufferKib : ℕ

/-- `u32::saturating_mul(1024)`. -/
def capBytes (kib : ℕ) : ℕ := min (kib * 1024) (2 ^ 32 - 1)

/-- The geometry `LogBuffer::new` computes (`log_buffer.rs:265-278`). -/
def Device.geometry (dev : Device) (kib : ℕ) : Geometry where
  sectorSize := dev.sectorSize
  capacity := max (roundUp (capBytes kib) dev.sectorSize) dev.sectorSize
  sectorSize_pow := dev.sectorSize_pow
  capacity_pos := Nat.lt_of_lt_of_le (Nat.lt_of_lt_of_le (by decide) dev.sectorSize_le)
    (Nat.le_max_right _ _)
  sector_dvd := by
    obtain ⟨k, hk⟩ := dev.sectorSize_pow
    rcases Nat.le_total (roundUp (capBytes kib) dev.sectorSize) dev.sectorSize with h | h
    · rw [Nat.max_eq_right h]
    · rw [Nat.max_eq_left h, hk, roundUp_pow]
      exact alignUp_dvd _ _

structure LogBuffer where
  geo : Geometry
  state : LogState

/-- `JournalHandle`, with the committed LSN of its group commit. -/
structure JournalHandle where
  file : ℕ
  nextLsn : ℕ
  syncedLsn : ℕ
  committedLsn : ℕ
  logBuffer : Option LogBuffer
  poison : Poison
  closed : Bool

section

variable (crc : Crc) (plan : Plan PathBuf)

/-! ### Opening -/

/-- A handle that resumes at `len`. -/
def JournalHandle.resumed (file len : ℕ) (logBuffer : Option LogBuffer) : JournalHandle :=
  ⟨file, len, len, len, logBuffer, none, false⟩

/-- The resume point: of a file that is new, or else of the scan. -/
def resumePoint (fresh : Bool) (path : PathBuf) : JournalIo Resume :=
  if fresh then pure Resume.empty else prepareResume crc plan path

/-- `open_buffered` (`mod.rs:375-440`). -/
def openBuffered (path : PathBuf) : JournalIo JournalHandle := do
  let file ← Io.openCreate plan path
  let fileLen ← Io.len plan file
  let resume ← resumePoint crc plan (fileLen = 0) path
  let len := resume.cleanEnd
  if len < fileLen then do
    Io.setLen plan file len
    Io.fence plan file
    pure (.resumed file len none)
  else pure (.resumed file len none)

/-- `read_resume_prefix` (`mod.rs:1850-1868`). -/
def readResumePrefix (path : PathBuf) (resumeSector resumeLsn : ℕ) : JournalIo Bytes :=
  let len := resumeLsn - resumeSector
  if len = 0 then pure []
  else do
    let reader ← Io.openRead plan path
    Io.readExact plan reader resumeSector len

/-- The cut of `open_direct` (`mod.rs:528-567`): a tail with data is cut at the clean end
and its sector extended with zeros, stale bytes past the resume sector are dropped. -/
def cutDirect (file sectorSize fileLen : ℕ) (resume : Resume) : JournalIo Unit :=
  let resumeLsn := resume.cleanEnd
  let resumeSector := resumeLsn - resumeLsn % sectorSize
  let keep := if resumeLsn > resumeSector then resumeSector + sectorSize else resumeSector
  let target := min keep fileLen
  if resume.tailHasData then do
    Io.setLen plan file resumeLsn
    if target > resumeLsn then do
      Io.setLen plan file target
      Io.fence plan file
    else Io.fence plan file
  else if fileLen > keep then do
    Io.setLen plan file keep
    Io.fence plan file
  else pure ()

/-- `LogBuffer::new` at position 0, then `set_flush_pos_for_resume` (`mod.rs:521-571`). -/
def resumeBuffer (geo : Geometry) (path : PathBuf) (file fileLen : ℕ) (resume : Resume) :
    JournalIo LogBuffer := do
  Io.alloc plan
  let state := LogState.new geo 0
  cutDirect plan file geo.sectorSize fileLen resume
  if resume.cleanEnd > 0 then do
    let sector := resume.cleanEnd - resume.cleanEnd % geo.sectorSize
    let pre ← readResumePrefix plan path sector resume.cleanEnd
    let state ← Prog.lift (state.setFlushPosForResume geo sector pre)
    pure ⟨geo, state⟩
  else pure ⟨geo, state⟩

/-- `Path::exists`: no, also when the file cannot be looked at. -/
def pathExists (path : PathBuf) : JournalIo Bool := do
  let found ← (Io.look plan (.stat path) (Io.fileOf path)).attempt
  pure found.isOk

/-- `open_direct` (`mod.rs:467-590`). -/
def openDirect (dev : Device) (options : JournalOptions) (path : PathBuf) :
    JournalIo JournalHandle := do
  let there ← pathExists plan path
  let resume ← resumePoint crc plan (!there) path
  let file ← Io.openCreate plan path
  let fileLen ← Io.len plan file
  if dev.directActive then do
    let buf ← resumeBuffer plan (dev.geometry options.logBufferKib) path file fileLen resume
    pure (.resumed file resume.cleanEnd (some buf))
  else if fileLen > resume.cleanEnd then do
    Io.setLen plan file resume.cleanEnd
    Io.fence plan file
    pure (.resumed file resume.cleanEnd none)
  else pure (.resumed file resume.cleanEnd none)

/-- `open_with_options` (`mod.rs:356-362`). -/
def openWithOptions (dev : Device) (options : JournalOptions) (path : PathBuf) :
    JournalIo JournalHandle :=
  if options.direct then openDirect crc plan dev options path else openBuffered crc plan path

/-! ### Appending -/

/-- Programs of an open handle. -/
abbrev HandleIo := Prog (World PathBuf × JournalHandle) IoError

/-- A system call of the handle. -/
def call {α : Type} (m : JournalIo α) : HandleIo α := m.onFst

def handle : HandleIo JournalHandle := do
  let s ← Prog.get
  pure s.2

def setHandle (f : JournalHandle → JournalHandle) : HandleIo Unit :=
  Prog.modify fun s => (s.1, f s.2)

/-- A write that poisons the journal when it fails. -/
def poisoning {α : Type} (m : JournalIo α) : HandleIo α := do
  let r ← (call m).attempt
  match r with
  | .ok a => pure a
  | .error e => do
    setHandle fun h => { h with poison := h.poison.set e }
    Prog.throw e

def setBuffer (geo : Geometry) (b : LogState) : HandleIo Unit :=
  setHandle fun h => { h with logBuffer := some ⟨geo, b⟩ }

/-- The error of an allocation, if it fails. -/
def allocError : HandleIo (Option IoError) := do
  let r ← (call (Io.alloc plan)).attempt
  match r with
  | .ok () => pure none
  | .error e => pure (some e)

/-- The loop of `append_frame` (`log_buffer.rs:487-542`). One rotation makes room, so that
two passes are enough; nobody else has a write to wait for. -/
def appendLoop (geo : Geometry) (payload : Bytes) (frame : Option Bytes) (frameSize : ℕ) :
    ℕ → LogState → HandleIo (ℕ × ℕ)
  | 0, _ => Prog.throw ⟨.other, "no room after a rotation"⟩
  | fuel + 1, b => do
    let alloc ← allocError plan
    let h ← handle
    match b.appendPass geo crc h.poison payload frame frameSize alloc with
    | .fits b start stop => do
      setBuffer geo b
      pure (start, stop)
    | .wait => Prog.throw ⟨.other, "nobody ends the write in flight"⟩
    | .rotate b w => do
      -- the old slot is scrubbed whether or not its write fails
      setBuffer geo (b.rotateEnd w)
      poisoning (Io.writeAt plan h.file w.oldFlushPos ((b.slots w.oldIdx).take w.writeLen))
      appendLoop geo payload frame frameSize fuel (b.rotateEnd w)
    | .oversize b w => do
      setBuffer geo { b with flushing := none }
      poisoning (Io.writeAt plan h.file w.startPos w.scratch)
      pure (w.recordStart, w.recordStart + w.frameSize)
    | .fail e => Prog.throw e

/-- `append_frame` (`log_buffer.rs:475-542`). -/
def appendFrame (lb : LogBuffer) (payload : Bytes) : HandleIo (ℕ × ℕ) := do
  let frameSize ← Prog.lift (frameLen payload.length)
  if frameSize ≤ lb.geo.capacity then do
    let frame ← Prog.lift (encodeFrameOwned crc payload)
    appendLoop crc plan lb.geo payload (some frame) frameSize 2 lb.state
  else appendLoop crc plan lb.geo payload none frameSize 2 lb.state

/-- `write_reserved` after the reservation (`mod.rs:768-800`). -/
def writeReserved (bytes : Bytes) : HandleIo ℕ := do
  let h ← handle
  setHandle fun h => { h with nextLsn := h.nextLsn + bytes.length }
  poisoning (Io.writeAt plan h.file h.nextLsn bytes)
  pure (h.nextLsn + bytes.length)

/-- `STACK_FRAME_THRESHOLD`. -/
def stackFrameThreshold : ℕ := 2048

/-- The frame of a buffered append, on the stack when it is short. -/
def encodeForAppend (record : Bytes) : Except IoError Bytes := do
  let total ← frameLen record.length
  if total ≤ stackFrameThreshold then
    (encodeFrameIntoUninit crc record (List.replicate stackFrameThreshold none)).1
  else encodeFrameOwned crc record

/-- `append_inner` (`mod.rs:699-784`). -/
def append (record : Bytes) : HandleIo ℕ := do
  let h ← handle
  Prog.lift h.poison.check
  match h.logBuffer with
  | some lb => do
    let (_, stop) ← appendFrame crc plan lb record
    setHandle fun h => { h with nextLsn := max h.nextLsn stop }
    pure stop
  | none => do
    let encoded ← Prog.lift (encodeForAppend crc record)
    writeReserved plan encoded

/-- Size check of a batch (`mod.rs:901-925`); `usize` has 64 bits. -/
def batchSize : List Bytes → ℕ → Except IoError ℕ
  | [], total => .ok total
  | record :: records, total =>
    if record.length > frameMaxPayload then .error payloadTooLong
    else match checkedAdd record.length frameOverhead with
      | none => .error ⟨.invalidInput, "journal frame size overflow"⟩
      | some frameSize =>
        match checkedAdd total frameSize with
        | none => .error ⟨.invalidInput, "journal append_batch total size overflow"⟩
        | some total => batchSize records total

theorem batchSize_ok {records : List Bytes} {total size : ℕ}
    (h : batchSize records total = .ok size) :
    size = total + framesLen records ∧ ∀ p ∈ records, Fits p := by
  induction records generalizing total with
  | nil =>
    cases h
    exact ⟨rfl, nofun⟩
  | cons record records ih =>
    unfold batchSize at h
    split at h
    · cases h
    · rename_i hfit
      unfold checkedAdd at h
      split at h
      · cases h
      · rename_i frameSize hsize
        split at hsize
        · cases hsize
          split at h
          · cases h
          · rename_i total' htotal
            split at htotal
            · cases htotal
              obtain ⟨hrest, hfits⟩ := ih h
              refine ⟨?_, fun p hp => ?_⟩
              · rw [hrest, framesLen_cons, Nat.add_assoc]
              · rcases List.mem_cons.mp hp with rfl | hmem
                · exact Nat.not_lt.mp hfit
                · exact hfits p hmem
            · cases htotal
        · cases hsize

/-- The per-record loop of a batch that does not fit in one slot. -/
def appendEach : List Bytes → ℕ → HandleIo ℕ
  | [], last => pure last
  | record :: records, _ => do
    let h ← handle
    match h.logBuffer with
    | none => Prog.throw ⟨.other, "the log buffer is gone"⟩
    | some lb => do
      let (_, stop) ← appendFrame crc plan lb record
      appendEach records stop

/-- Encode a batch into one vector. -/
def encodeBatch : List Bytes → Bytes → Except IoError Bytes
  | [], out => .ok out
  | record :: records, out => do
    let (result, out) := encodeFrameExtend crc record out
    let _ ← result
    encodeBatch records out

/-- A batch in Direct mode (`mod.rs:927-964`): in one shot, or record by record. -/
def appendBatchDirect (lb : LogBuffer) (records : List Bytes) (total last : ℕ) : HandleIo ℕ := do
  let (result, b) := lb.state.tryAppendFramesBatched lb.geo crc records total
  setBuffer lb.geo b
  let batched ← Prog.lift result
  match batched with
  | some (_, stop) => pure stop
  | none => appendEach crc plan records last

/-- `append_batch_inner` (`mod.rs:890-1006`). -/
def appendBatch (records : List Bytes) : HandleIo ℕ := do
  let h ← handle
  Prog.lift h.poison.check
  if records = [] then pure h.nextLsn
  else do
    let total ← Prog.lift (batchSize records 0)
    match h.logBuffer with
    | some lb => do
      let lastEnd ← appendBatchDirect crc plan lb records total h.nextLsn
      setHandle fun h => { h with nextLsn := max h.nextLsn lastEnd }
      pure lastEnd
    | none => do
      let buf ← Prog.lift (encodeBatch crc records [])
      writeReserved plan buf

/-! ### Syncing and closing -/

/-- `flush_partial` (`log_buffer.rs:723-758`). -/
def flushPartial (lb : LogBuffer) : HandleIo ℕ := do
  let h ← handle
  Prog.lift h.poison.check
  match lb.state.partialWrite lb.geo with
  | none => pure lb.state.nextLsn
  | some (pos, data) => do
    poisoning (Io.writeAt plan h.file pos data)
    pure lb.state.nextLsn

/-- The frontier of a leader: what has reached the file. -/
def flushFrontier (h : JournalHandle) : HandleIo ℕ :=
  match h.logBuffer with
  | some lb => flushPartial plan lb
  | none => pure h.nextLsn

/-- `flush_and_sync` (`mod.rs:1250-1312`). -/
def flushAndSync : HandleIo ℕ := do
  let h ← handle
  let frontier ← flushFrontier plan h
  let h ← handle
  Prog.lift h.poison.check
  poisoning (Io.fence plan h.file)
  pure frontier

/-- `sync_through` (`mod.rs:1073-1242`) of a caller without company: it leads, or the
frontier covers it. -/
def syncThrough (lsn : ℕ) : HandleIo Unit := do
  let h ← handle
  if h.syncedLsn ≥ lsn then pure ()
  else if h.committedLsn ≥ lsn then pure ()
  else do
    Prog.lift h.poison.check
    let frontier ← flushAndSync plan
    setHandle fun h =>
      if frontier > h.committedLsn then
        { h with committedLsn := frontier, syncedLsn := frontier }
      else h

/-- `next_lsn` (`mod.rs:1332-1335`). -/
def nextLsn : HandleIo ℕ := do
  let h ← handle
  pure h.nextLsn

/-- `Drop` (`mod.rs:1560-1584`); its errors are ignored. -/
def dropHandle : HandleIo Unit := do
  let h ← handle
  if h.poison.isSome ∨ h.closed = true then pure ()
  else match h.logBuffer with
    | none => pure ()
    | some lb => do
      let (_ : Except IoError ℕ) ← (flushPartial plan lb).attempt
      let (_ : Except IoError Unit) ← (call (Io.fence plan h.file)).attempt
      pure ()

/-- The end of what was appended: the log buffer knows it exactly. -/
def JournalHandle.frontier (h : JournalHandle) : ℕ :=
  match h.logBuffer with
  | some lb => lb.state.nextLsn
  | none => h.nextLsn

/-- `close` (`mod.rs:1525-1545`). -/
def close : HandleIo Unit := do
  let h ← handle
  let synced ← (syncThrough plan h.frontier).attempt
  match synced with
  | .ok () => do
    setHandle fun h => { h with closed := true }
    dropHandle plan
  | .error e => do
    dropHandle plan
    Prog.throw e

end

end Fsys.Journal
