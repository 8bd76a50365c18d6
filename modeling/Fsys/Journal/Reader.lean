import Fsys.Journal.PlainScan

/-!
# The buffered journal iterator (src/journal/reader.rs)

`JournalReader` and `JournalIter` as the source has them: a read buffer whose
valid region mirrors the file from the cursor on, compaction, growth for a
record larger than the buffer, and the zero-run classifier that moves the
cursor and moves it back. The operating system is a schedule: the answer to
the k-th `read` call is a failure or a number of bytes, at least one unless the
file ends or nothing was asked for.
-/

namespace Fsys.Journal
open Fsys.Base

/-- Answer to one `read` call. -/
inductive ReadReply where
  | short (extra : ℕ)
  | fail (error : IoError)

/-- Answers to the `read` calls of one reader, in order. -/
abbrev ReadSchedule := ℕ → ReadReply

/-- `read(2)` of at most `len` bytes at `offset`. -/
def osRead (reply : ReadReply) (file : Bytes) (offset len : ℕ) : Except IoError Bytes :=
  match reply with
  | .fail e => .error e
  | .short extra => .ok ((file.drop offset).take (min len (extra + 1)))

/-- `JournalReader` (`reader.rs:205-210`); `reads` counts the calls made so far. -/
structure JournalReader where
  file : Bytes
  fileSize : ℕ
  cursor : ℕ
  lastState : JournalTailState
  reads : ℕ

/-- `JournalReader::open` on a file with these contents. -/
def JournalReader.open (file : Bytes) : JournalReader :=
  ⟨file, file.length, 0, .cleanEnd, 0⟩

/-- `JournalReader::seek_to`. -/
def JournalReader.seekTo (r : JournalReader) (lsn : ℕ) : JournalReader :=
  { r with cursor := lsn, lastState := .cleanEnd }

theorem JournalReader.seekTo_zero (file : Bytes) :
    (JournalReader.open file).seekTo 0 = JournalReader.open file := rfl

def JournalReader.position (r : JournalReader) : ℕ := r.cursor

def JournalReader.tailState (r : JournalReader) : JournalTailState := r.lastState

/-- `READ_BUF_SIZE`. -/
def readBufSize : ℕ := 64 * 1024

/-- `JournalIter` (`reader.rs:449-461`). -/
structure JournalIter where
  reader : JournalReader
  buf : Bytes
  validStart : ℕ
  validEnd : ℕ
  finished : Bool

/-- `JournalReader::iter`. -/
def JournalReader.iter (r : JournalReader) : JournalIter := ⟨r, zeros readBufSize, 0, 0, false⟩

namespace JournalIter

/-- `buffered` (`reader.rs:476-478`). -/
def buffered (it : JournalIter) : ℕ := it.validEnd - it.validStart

/-- The buffered bytes decode has not consumed yet. -/
def view (it : JournalIter) : Bytes := (it.buf.drop it.validStart).take it.buffered

/-- `finish` (`reader.rs:481-485`). -/
def finish (it : JournalIter) (state : JournalTailState) : JournalIter :=
  { it with reader := { it.reader with lastState := state }, finished := true }

def setCursor (it : JournalIter) (cursor : ℕ) : JournalIter :=
  { it with reader := { it.reader with cursor := cursor } }

/-- Consume `n` buffered bytes: cursor and valid region move together. -/
def advance (it : JournalIter) (n : ℕ) : JournalIter :=
  { it with
    reader := { it.reader with cursor := it.reader.cursor + n }
    validStart := it.validStart + n }

/-- Consume everything that is buffered. -/
def drain (it : JournalIter) : JournalIter :=
  { it with
    reader := { it.reader with cursor := it.reader.cursor + it.view.length }
    validStart := it.validEnd }

/-! ### `refill` (`reader.rs:493-565`) -/

/-- Move the unconsumed bytes to the front of the buffer. -/
def compact (it : JournalIter) : JournalIter :=
  if it.validStart > 0 then
    { it with
      buf := overlay it.buf 0 it.view
      validStart := 0
      validEnd := it.buffered }
  else it

/-- Grow a full buffer to the declared frame size, capped at what the file holds. -/
def grow (it : JournalIter) (payloadLen : ℕ) : JournalIter :=
  let needed := frameOverhead + payloadLen
  let inFile := it.reader.fileSize - it.reader.cursor
  let target := min needed inFile
  if it.buf.length < target then { it with buf := it.buf ++ zeros (target - it.buf.length) }
  else it

/-- The read loop: bytes obtained and `read` calls made. Each answer that is not
empty is at least one byte, so `fuel = want` covers every pass of the loop. -/
def readLoop (sched : ReadSchedule) (file : Bytes) (offset want : ℕ) :
    ℕ → ℕ → Bytes → Except IoError Bytes × ℕ
  | 0, k, got => (.ok got, k)
  | fuel + 1, k, got =>
    if got.length < want then
      match osRead (sched k) file (offset + got.length) (want - got.length) with
      | .error e => (.error e, k + 1)
      | .ok data =>
        if data.length = 0 then (.ok got, k + 1)
        else readLoop sched file offset want fuel (k + 1) (got ++ data)
    else (.ok got, k)

/-- The part of `refill` behind compaction and growth. -/
def fill (sched : ReadSchedule) (it : JournalIter) : Except IoError ℕ × JournalIter :=
  let fileOffset := it.reader.cursor + it.validEnd
  if fileOffset ≥ it.reader.fileSize then (.ok 0, it)
  else
    let inFile := it.reader.fileSize - fileOffset
    let space := it.buf.length - it.validEnd
    let toRead := min inFile space
    if toRead = 0 then (.ok 0, it)
    else
      match readLoop sched it.reader.file fileOffset toRead toRead it.reader.reads [] with
      | (.error e, k) => (.error e, { it with reader := { it.reader with reads := k } })
      | (.ok data, k) =>
        (.ok data.length,
          { it with
            reader := { it.reader with reads := k }
            buf := overlay it.buf it.validEnd data
            validEnd := it.validEnd + data.length })

def refill (sched : ReadSchedule) (it : JournalIter) : Except IoError ℕ × JournalIter :=
  let it := it.compact
  if it.buf.length = it.validEnd then
    if it.validEnd < 8 then (.ok 0, it)
    else
      let payloadLen := leAt it.buf 4
      if payloadLen > frameMaxPayload then (.ok 0, it)
      else fill sched (it.grow payloadLen)
  else fill sched it

/-! ### `skip_zero_run` (`reader.rs:574-598`) -/

/-- The loop of `skip_zero_run`: `true` when it found a non-zero byte, `false` when the
zeros run to the end of the file. `none` means the fuel ran out. -/
def zeroLoop (sched : ReadSchedule) : ℕ → JournalIter → Option (Except IoError Bool × JournalIter)
  | 0, _ => none
  | fuel + 1, it =>
    let k := zeroRun it.view
    if k < it.view.length then some (.ok true, it.advance k)
    else
      let it := it.drain
      if it.reader.cursor ≥ it.reader.fileSize then some (.ok false, it)
      else
        match refill sched it with
        | (.error e, it) => some (.error e, it)
        | (.ok 0, it) => some (.ok false, it)
        | (.ok (_ + 1), it) => zeroLoop sched fuel it

/-- Every pass of the loop but the first starts on a byte it has not seen before. -/
def zeroFuel (it : JournalIter) : ℕ := it.reader.fileSize + 2

def skipZeroRun (sched : ReadSchedule) (it : JournalIter) :
    Option (Except IoError (Option JournalTailState) × JournalIter) :=
  let runStart := it.reader.cursor
  match zeroLoop sched it.zeroFuel it with
  | none => none
  | some (.error e, it) => some (.error e, it)
  | some (.ok false, it) => some (.ok (some .cleanEnd), it.setCursor runStart)
  | some (.ok true, it) =>
    if IsGap runStart it.reader.cursor then some (.ok none, it)
    else some (.ok (some .truncatedHeader), it.setCursor runStart)

/-! ### `next` (`reader.rs:604-685`) -/

/-- One pass of the loop in `next`: go round again, or return. -/
inductive Turn where
  | again (it : JournalIter)
  | ret (it : JournalIter) (item : Option (Except IoError JournalRecord))

def Turn.iter : Turn → JournalIter
  | .again it => it
  | .ret it _ => it

/-- `self.finished = true; return Some(Err(e))`. -/
def fail (it : JournalIter) (e : IoError) : Turn :=
  .ret { it with finished := true } (some (.error e))

/-- The decode at the start of the valid region and what follows from it. -/
def decodeTurn (crc : Crc) (sched : ReadSchedule) (it : JournalIter) : Turn :=
  match decodeFrame crc it.view with
  | .ok consumed payloadStart payloadEnd =>
    let record := ⟨it.reader.cursor, (it.view.take payloadEnd).drop payloadStart⟩
    .ret (it.advance consumed) (some (.ok record))
  | .truncated =>
    let truncated : JournalTailState :=
      if it.buffered < 8 then .truncatedHeader else .truncatedPayload
    if it.reader.cursor + it.buffered ≥ it.reader.fileSize then .ret (it.finish truncated) none
    else
      match refill sched it with
      | (.ok 0, it) => .ret (it.finish truncated) none
      | (.ok (_ + 1), it) => .again it
      | (.error e, it) => it.fail e
  | .badMagic => .ret (it.finish .badMagic) none
  | .lengthOverflow => .ret (it.finish .lengthOverflow) none
  | .checksumMismatch => .ret (it.finish .checksumMismatch) none

/-- The zero test and the decode, for a non-empty valid region. -/
def bufferedTurn (crc : Crc) (sched : ReadSchedule) (it : JournalIter) : Option Turn :=
  if it.buf.getD it.validStart 0 = 0 then
    match skipZeroRun sched it with
    | none => none
    | some (.ok none, it) => some (.again it)
    | some (.ok (some state), it) => some (.ret (it.finish state) none)
    | some (.error e, it) => some (it.fail e)
  else some (decodeTurn crc sched it)

def turn (crc : Crc) (sched : ReadSchedule) (it : JournalIter) : Option Turn :=
  if it.buffered = 0 then
    if it.reader.cursor ≥ it.reader.fileSize then some (.ret (it.finish .cleanEnd) none)
    else
      match refill sched it with
      | (.ok 0, it) => some (.ret (it.finish .cleanEnd) none)
      | (.ok (_ + 1), it) => bufferedTurn crc sched it
      | (.error e, it) => some (it.fail e)
  else bufferedTurn crc sched it

/-- `next`, for at most `fuel` passes of its loop. -/
def next (crc : Crc) (sched : ReadSchedule) :
    ℕ → JournalIter → Option (JournalIter × Option (Except IoError JournalRecord))
  | 0, _ => none
  | fuel + 1, it =>
    if it.finished then some (it, none)
    else
      match turn crc sched it with
      | none => none
      | some (.again it) => next crc sched fuel it
      | some (.ret it item) => some (it, item)

/-- `while iter.next().transpose()?.is_some() {}` collecting the records. -/
def collect (crc : Crc) (sched : ReadSchedule) (turns : ℕ) :
    ℕ → JournalIter → Option (Except IoError (List JournalRecord) × JournalIter)
  | 0, _ => none
  | fuel + 1, it =>
    match next crc sched turns it with
    | none => none
    | some (it, none) => some (.ok [], it)
    | some (it, some (.error e)) => some (.error e, it)
    | some (it, some (.ok record)) =>
      match collect crc sched turns fuel it with
      | none => none
      | some (.error e, it) => some (.error e, it)
      | some (.ok recs, it) => some (.ok (record :: recs), it)

/-- The iterators that repeated calls of `next` go through, one pass after the other. -/
inductive Visits (crc : Crc) (sched : ReadSchedule) (start : JournalIter) : JournalIter → Prop where
  | start : Visits crc sched start start
  | pass {it : JournalIter} {t : Turn} (h : Visits crc sched start it)
      (live : it.finished = false) (ht : turn crc sched it = some t) :
      Visits crc sched start t.iter

end JournalIter

/-- Passes of the loop in `next` that are enough for any file of this size: each one
reads a byte, skips a byte or returns. -/
def turnFuel (fileSize : ℕ) : ℕ := 2 * fileSize + 3

/-- Iterate a reader to its end: the records, and the reader afterwards. -/
def replay (crc : Crc) (sched : ReadSchedule) (r : JournalReader) :
    Option (Except IoError (List JournalRecord) × JournalReader) :=
  (JournalIter.collect crc sched (turnFuel r.fileSize) (r.fileSize + 1) r.iter).map
    fun res => (res.1, res.2.reader)

end Fsys.Journal
