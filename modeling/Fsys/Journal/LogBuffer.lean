import Fsys.Base.Transition
import Fsys.Platform
import Fsys.Journal.PlainScan

/-!
# The Direct-IO log buffer (src/journal/log_buffer.rs)

Two slots, one of them active. A critical section of the state lock is one
step; the write of a rotated slot and of an oversize record runs between two
critical sections of its thread, with the lock free. `flush_partial` keeps the
lock during its write, so it is one step with its wait in front of it.

The threads of the system call `append_frame`, `try_append_frames_batched` and
`flush_partial` in any order. What they are answered is recorded in
`responses`, what has been given an LSN in `log`.
-/

namespace Fsys.Journal
open Fsys.Base

/-- Sector size and slot capacity as `LogBuffer::new` leaves them. -/
structure Geometry where
  sectorSize : ℕ
  capacity : ℕ
  sectorSize_pow : ∃ k, sectorSize = 2 ^ k
  capacity_pos : 0 < capacity
  sector_dvd : sectorSize ∣ capacity

/-- Slots of two sectors of eight bytes. -/
def twoSectors : Geometry := ⟨8, 16, ⟨3, rfl⟩, by decide, by decide⟩

def fourSectors : Geometry := ⟨8, 32, ⟨3, rfl⟩, by decide, by decide⟩

/-- `u64::checked_add`. -/
def checkedAdd (a b : ℕ) : Option ℕ := if a + b < 2 ^ 64 then some (a + b) else none

/-- `Poison` (`poison.rs:26-86`): the first cause, if there was one. -/
abbrev Poison := Option IoError

def Poison.set (p : Poison) (cause : IoError) : Poison := p.orElse fun _ => some cause

/-- The error of a poisoned journal. -/
def Poison.error (cause : IoError) : IoError :=
  ⟨cause.kind, "journal is poisoned by an earlier write or sync failure (" ++ cause.message ++
    "); appends since then may not be on disk, reopen the journal to recover"⟩

def Poison.check (p : Poison) : Except IoError Unit :=
  match p with
  | none => .ok ()
  | some cause => .error (Poison.error cause)

/-- `InFlight` (`log_buffer.rs:236-249`). -/
inductive InFlight where
  | slot (idx : Bool)
  | scratch
  deriving DecidableEq, Repr

/-- The two slots and `State` (`log_buffer.rs:212-234`). -/
structure LogState where
  slots : Bool → Bytes
  activeIdx : Bool
  activeLen : ℕ
  activeFlushPos : ℕ
  flushing : Option InFlight

/-- The write of a rotated slot, issued with the lock dropped. -/
structure SlotWrite where
  oldIdx : Bool
  oldLen : ℕ
  oldFlushPos : ℕ
  writeLen : ℕ
  deriving DecidableEq

/-- The write of an oversize record. -/
structure ScratchWrite where
  recordStart : ℕ
  frameSize : ℕ
  startPos : ℕ
  scratch : Bytes
  deriving DecidableEq

namespace LogState

/-- `LogBuffer::new` (`log_buffer.rs:265-304`). -/
def new (geo : Geometry) (flushPos : ℕ) : LogState :=
  ⟨fun _ => zeros geo.capacity, false, 0, flushPos, none⟩

/-- `next_lsn` (`log_buffer.rs:342-345`). -/
def nextLsn (b : LogState) : ℕ := b.activeFlushPos + b.activeLen

def active (b : LogState) : Bytes := b.slots b.activeIdx

def setSlot (b : LogState) (idx : Bool) (bytes : Bytes) : LogState :=
  { b with slots := Function.update b.slots idx bytes }

/-- `set_flush_pos_for_resume` (`log_buffer.rs:836-860`). -/
def setFlushPosForResume (geo : Geometry) (b : LogState) (flushPos : ℕ) (pre : Bytes) :
    Except IoError LogState :=
  if flushPos % geo.sectorSize ≠ 0 ∨ pre.length ≥ geo.sectorSize then
    .error ⟨.invalidInput, "journal resume position is not sector-aligned"⟩
  else
    .ok { b.setSlot b.activeIdx (overlay b.active 0 pre) with
      activeFlushPos := flushPos
      activeLen := pre.length }

/-! ### `try_append_frames_batched` (`log_buffer.rs:390-446`) -/

/-- The encode loop over the records of a batch, from `cursor` on. -/
def encodeFrames (crc : Crc) : List Bytes → ℕ → Bytes → Except IoError (ℕ × Bytes)
  | [], cursor, slot => .ok (cursor, slot)
  | record :: records, cursor, slot =>
    let frameSize := record.length + frameOverhead
    match encodeFrameInto crc record ((slot.drop cursor).take frameSize) with
    | (.error e, _) => .error e
    | (.ok _, bytes) =>
      encodeFrames crc records (cursor + frameSize) (overlay slot cursor bytes)

/-- The range the batch got, `none` when it does not fit in one shot. -/
def tryAppendFramesBatched (geo : Geometry) (crc : Crc) (b : LogState) (records : List Bytes)
    (totalEncodedSize : ℕ) : Except IoError (Option (ℕ × ℕ)) × LogState :=
  let remaining := geo.capacity - b.activeLen
  if totalEncodedSize > remaining then (.ok none, b)
  else
    let startLsn := b.activeFlushPos + b.activeLen
    match encodeFrames crc records b.activeLen b.active with
    | .error e => (.error e, b)
    | .ok (cursor, slot) =>
      (.ok (some (startLsn, b.activeFlushPos + cursor)),
        { b.setSlot b.activeIdx slot with activeLen := cursor })

/-! ### The critical sections of `append_frame`, `rotate` and `append_oversize` -/

/-- `rotate` up to the point where it drops the lock (`log_buffer.rs:557-585`). -/
def rotateBegin (geo : Geometry) (b : LogState) : Except IoError (LogState × SlotWrite) :=
  let oldIdx := b.activeIdx
  let newIdx := !oldIdx
  let whole := b.activeLen - b.activeLen % geo.sectorSize
  let tail := b.activeLen - whole
  let writeLen := roundUp b.activeLen geo.sectorSize
  match checkedAdd b.activeFlushPos whole with
  | none => .error ⟨.other, "flush_pos overflow"⟩
  | some newFlushPos =>
    let carried := ((b.slots oldIdx).take b.activeLen).drop whole
    .ok ({ b.setSlot newIdx (overlay (b.slots newIdx) 0 carried) with
        activeIdx := newIdx
        activeLen := tail
        activeFlushPos := newFlushPos
        flushing := some (.slot oldIdx) },
      ⟨oldIdx, b.activeLen, b.activeFlushPos, writeLen⟩)

/-- `rotate` after its write (`log_buffer.rs:602-620`). -/
def rotateEnd (b : LogState) (w : SlotWrite) : LogState :=
  { b.setSlot w.oldIdx (overlay (b.slots w.oldIdx) 0 (zeros w.oldLen)) with flushing := none }

/-- The frame of an oversize record: encoded by the caller, or into the scratch buffer. -/
def scratchFrame (crc : Crc) (payload : Bytes) (encoded : Option Bytes) (room : Bytes) :
    Except IoError Bytes :=
  match encoded with
  | some frame => .ok frame
  | none =>
    match encodeFrameInto crc payload room with
    | (.error e, _) => .error e
    | (.ok _, frame) => .ok frame

/-- `append_oversize` up to the point where it drops the lock (`log_buffer.rs:633-683`).
`alloc` says whether the scratch buffer could be allocated. -/
def oversizeBegin (geo : Geometry) (crc : Crc) (b : LogState) (payload : Bytes)
    (encoded : Option Bytes) (frameSize : ℕ) (alloc : Option IoError) :
    Except IoError (LogState × ScratchWrite) :=
  let pre := b.activeLen
  let startPos := b.activeFlushPos
  match checkedAdd pre frameSize with
  | none => .error ⟨.other, "oversize frame length overflow"⟩
  | some total =>
    let whole := total - total % geo.sectorSize
    let tail := total - whole
    match checkedAdd startPos whole with
    | none => .error ⟨.other, "flush_pos overflow"⟩
    | some newFlushPos =>
      match alloc with
      | some e => .error e
      | none =>
        let scratch := zeros (roundUp total geo.sectorSize)
        match scratchFrame crc payload encoded ((scratch.take total).drop pre) with
        | .error e => .error e
        | .ok frame =>
          let scratch := overlay scratch pre frame
          let scratch := overlay scratch 0 (b.active.take pre)
          let slot := overlay b.active 0 (zeros pre)
          let slot := overlay slot 0 ((scratch.take total).drop whole)
          .ok ({ b.setSlot b.activeIdx slot with
              activeLen := tail
              activeFlushPos := newFlushPos
              flushing := some .scratch },
            ⟨startPos + pre, frameSize, startPos, scratch⟩)

/-- What one pass of the loop in `append_frame` does under the lock. -/
inductive Pass where
  | fits (b : LogState) (start stop : ℕ)
  | wait
  | rotate (b : LogState) (w : SlotWrite)
  | oversize (b : LogState) (w : ScratchWrite)
  | fail (e : IoError)

/-- One pass of the loop in `append_frame` (`log_buffer.rs:487-542`). -/
def appendPass (geo : Geometry) (crc : Crc) (b : LogState) (poison : Poison)
    (payload : Bytes) (frame : Option Bytes) (frameSize : ℕ) (alloc : Option IoError) : Pass :=
  match poison.check with
  | .error e => .fail e
  | .ok () =>
    match frame.filter fun _ => b.activeLen + frameSize ≤ geo.capacity with
    | some frame =>
      let start := b.activeFlushPos + b.activeLen
      .fits { b.setSlot b.activeIdx (overlay b.active b.activeLen frame) with
        activeLen := b.activeLen + frameSize } start (start + frameSize)
    | none =>
      if b.flushing.isSome then .wait
      else if b.activeLen % geo.sectorSize + frameSize ≤ geo.capacity then
        match b.rotateBegin geo with
        | .error e => .fail e
        | .ok (b, w) => .rotate b w
      else
        match b.oversizeBegin geo crc payload frame frameSize alloc with
        | .error e => .fail e
        | .ok (b, w) => .oversize b w

/-- The write of `flush_partial` (`log_buffer.rs:738-752`), `none` when nothing is buffered. -/
def partialWrite (geo : Geometry) (b : LogState) : Option (ℕ × Bytes) :=
  if b.activeLen = 0 then none
  else some (b.activeFlushPos, b.active.take (roundUp b.activeLen geo.sectorSize))

end LogState

/-! ### Threads -/

abbrev Tid := ℕ

/-- Where a thread stands in a call on the log buffer. -/
inductive Pc where
  | idle
  /-- in the loop of `append_frame`, without the lock -/
  | append (payload : Bytes) (frame : Option Bytes) (frameSize : ℕ)
  /-- in `rotate`, its write not issued yet -/
  | rotating (payload : Bytes) (frame : Option Bytes) (frameSize : ℕ) (w : SlotWrite)
  /-- in `rotate`, its write ended -/
  | rotated (payload : Bytes) (frame : Option Bytes) (frameSize : ℕ) (w : SlotWrite)
      (result : Except IoError Unit)
  | oversizing (payload : Bytes) (w : ScratchWrite)
  | oversized (payload : Bytes) (w : ScratchWrite) (result : Except IoError Unit)
  /-- in `flush_partial`, without the lock -/
  | flush

/-- What a call returned. -/
inductive Response where
  | appended (t : Tid) (start stop : ℕ) (payloads : List Bytes)
  | appendFailed (t : Tid) (e : IoError)
  | batchNotFitting (t : Tid)
  | flushed (t : Tid) (stop : ℕ)
  | flushFailed (t : Tid) (e : IoError)

/-- A range of LSNs and the records in it. -/
structure Assigned where
  start : ℕ
  stop : ℕ
  payloads : List Bytes
  deriving DecidableEq

def Response.range? : Response → Option Assigned
  | .appended _ start stop payloads => some ⟨start, stop, payloads⟩
  | _ => none

def Response.flushed? : Response → Option ℕ
  | .flushed _ stop => some stop
  | _ => none

/-- The log buffer, its file and its threads. `log` and `responses` are the history: the
ranges in the order in which they were assigned, and the answers in order. -/
structure LogSys where
  buf : LogState
  file : Bytes
  poison : Poison
  pc : Tid → Pc
  log : List Assigned
  responses : List Response

/-- Result of a write call: done, or failed after some of its bytes. -/
inductive WriteOutcome where
  | done
  | failed (landed : ℕ) (e : IoError)

def WriteOutcome.result : WriteOutcome → Except IoError Unit
  | .done => .ok ()
  | .failed _ e => .error e

/-- The file after a write of `data` at `pos` that ended this way. -/
def WriteOutcome.file (o : WriteOutcome) (f : Bytes) (pos : ℕ) (data : Bytes) : Bytes :=
  match o with
  | .done => overlay f pos data
  | .failed landed _ => overlay f pos (data.take landed)

inductive LogAction where
  | callAppend (t : Tid) (payload : Bytes)
  | lockAppend (t : Tid) (alloc : Option IoError)
  | land (t : Tid) (outcome : WriteOutcome)
  | finish (t : Tid)
  | callBatch (t : Tid) (records : List Bytes)
  | callFlush (t : Tid)
  | lockFlush (t : Tid) (outcome : WriteOutcome)

/-- Every write the action issues succeeds. -/
def LogAction.Succeeds : LogAction → Prop
  | .land _ .done => True
  | .land _ (.failed _ _) => False
  | .lockFlush _ .done => True
  | .lockFlush _ (.failed _ _) => False
  | _ => True

namespace LogSys

def setPc (s : LogSys) (t : Tid) (pc : Pc) : LogSys := { s with pc := Function.update s.pc t pc }

def respond (s : LogSys) (t : Tid) (r : Response) : LogSys :=
  { s.setPc t .idle with responses := s.responses ++ [r] }

/-- The start of `append_frame` (`log_buffer.rs:475-485`). -/
def callAppend (geo : Geometry) (crc : Crc) (s : LogSys) (t : Tid) (payload : Bytes) : LogSys :=
  match frameLen payload.length with
  | .error e => s.respond t (.appendFailed t e)
  | .ok frameSize =>
    if frameSize ≤ geo.capacity then
      match encodeFrameOwned crc payload with
      | .error e => s.respond t (.appendFailed t e)
      | .ok frame => s.setPc t (.append payload (some frame) frameSize)
    else s.setPc t (.append payload none frameSize)

def lockAppend (geo : Geometry) (crc : Crc) (s : LogSys) (t : Tid) (payload : Bytes)
    (frame : Option Bytes) (frameSize : ℕ) (alloc : Option IoError) : LogSys :=
  match s.buf.appendPass geo crc s.poison payload frame frameSize alloc with
  | .fits b start stop =>
    { s.respond t (.appended t start stop [payload]) with
      buf := b
      log := s.log ++ [⟨start, stop, [payload]⟩] }
  | .wait => s
  | .rotate b w => { s.setPc t (.rotating payload frame frameSize w) with buf := b }
  | .oversize b w =>
    { s.setPc t (.oversizing payload w) with
      buf := b
      log := s.log ++ [⟨w.recordStart, w.recordStart + w.frameSize, [payload]⟩] }
  | .fail e => s.respond t (.appendFailed t e)

/-- The end of `rotate`: back to the loop, or out with the error of the write. -/
def finishRotate (s : LogSys) (t : Tid) (payload : Bytes) (frame : Option Bytes) (frameSize : ℕ)
    (w : SlotWrite) (result : Except IoError Unit) : LogSys :=
  match result with
  | .ok () => { s.setPc t (.append payload frame frameSize) with buf := s.buf.rotateEnd w }
  | .error e =>
    { s.respond t (.appendFailed t e) with
      buf := s.buf.rotateEnd w
      poison := s.poison.set e }

/-- The end of `append_oversize`. -/
def finishOversize (s : LogSys) (t : Tid) (payload : Bytes) (w : ScratchWrite)
    (result : Except IoError Unit) : LogSys :=
  match result with
  | .ok () =>
    { s.respond t (.appended t w.recordStart (w.recordStart + w.frameSize) [payload]) with
      buf := { s.buf with flushing := none } }
  | .error e =>
    { s.respond t (.appendFailed t e) with
      buf := { s.buf with flushing := none }
      poison := s.poison.set e }

def callBatch (geo : Geometry) (crc : Crc) (s : LogSys) (t : Tid) (records : List Bytes) :
    LogSys :=
  match s.buf.tryAppendFramesBatched geo crc records (framesLen records) with
  | (.error e, b) => { s.respond t (.appendFailed t e) with buf := b }
  | (.ok none, b) => { s.respond t (.batchNotFitting t) with buf := b }
  | (.ok (some (start, stop)), b) =>
    { s.respond t (.appended t start stop records) with
      buf := b
      log := s.log ++ [⟨start, stop, records⟩] }

/-- The critical section of `flush_partial` when no write is in flight. -/
def lockFlush (geo : Geometry) (s : LogSys) (t : Tid) (outcome : WriteOutcome) : LogSys :=
  match s.poison.check with
  | .error e => s.respond t (.flushFailed t e)
  | .ok () =>
    match s.buf.partialWrite geo with
    | none => s.respond t (.flushed t s.buf.nextLsn)
    | some (pos, data) =>
      match outcome.result with
      | .ok () =>
        { s.respond t (.flushed t s.buf.nextLsn) with file := outcome.file s.file pos data }
      | .error e =>
        { s.respond t (.flushFailed t e) with
          file := outcome.file s.file pos data
          poison := s.poison.set e }

/-- One step of the system. A batch reaches `try_append_frames_batched` only with records,
each of them within the maximum, and with their total encoded size
(`append_batch_inner`, `mod.rs:890-925`). -/
def next (geo : Geometry) (crc : Crc) (s : LogSys) : LogAction → Option LogSys
  | .callAppend t payload =>
    match s.pc t with
    | .idle => some (s.callAppend geo crc t payload)
    | _ => none
  | .lockAppend t alloc =>
    match s.pc t with
    | .append payload frame frameSize => some (s.lockAppend geo crc t payload frame frameSize alloc)
    | _ => none
  | .land t outcome =>
    match s.pc t with
    | .rotating payload frame frameSize w =>
      some { s.setPc t (.rotated payload frame frameSize w outcome.result) with
        file := outcome.file s.file w.oldFlushPos ((s.buf.slots w.oldIdx).take w.writeLen) }
    | .oversizing payload w =>
      some { s.setPc t (.oversized payload w outcome.result) with
        file := outcome.file s.file w.startPos w.scratch }
    | _ => none
  | .finish t =>
    match s.pc t with
    | .rotated payload frame frameSize w result =>
      some (s.finishRotate t payload frame frameSize w result)
    | .oversized payload w result => some (s.finishOversize t payload w result)
    | _ => none
  | .callBatch t records =>
    match s.pc t with
    | .idle =>
      if records ≠ [] ∧ ∀ p ∈ records, Fits p then some (s.callBatch geo crc t records) else none
    | _ => none
  | .callFlush t =>
    match s.pc t with
    | .idle => some (s.setPc t .flush)
    | _ => none
  | .lockFlush t outcome =>
    match s.pc t with
    | .flush => if s.buf.flushing.isSome then none else some (s.lockFlush geo t outcome)
    | _ => none

end LogSys

end Fsys.Journal
