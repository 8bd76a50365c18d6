import Fsys.Journal.ClosedGate
import Fsys.Journal.LogBuffer

/-!
# Preallocation of a journal in use (src/journal/mod.rs:1474-1494)

`preallocate` holds appends off, by closing the write gate in buffered mode and by
keeping the state lock of the log buffer in Direct mode (`log_buffer.rs:813-821`), and
runs `preallocate_keep_len`: a stat, the platform's allocation, a stat, and a `set_len`
when the file has grown. Each of these calls is one step; whatever else the journal does
may happen between them. The answers of the operating system to a call are fixed when
it starts, and are arbitrary.
-/

namespace Fsys.Journal
open Fsys.Base

/-! ### `preallocate` of the platform (`platform/linux.rs:466-517`) -/

/-- The answers to the allocation calls: raw code and error of a failed `fallocate`, error
of a failed `posix_fallocate` and how far that one got. On other platforms the call never
moves the end of the file, as a `fallocate` that is supported does not. -/
structure Fallocate where
  forcePosix : Bool
  fallocate : Option (ℕ × IoError)
  posix : Option IoError
  reached : ℕ

/-- The file with zeros behind it, up to `size`. -/
def extendTo (file : Bytes) (size : ℕ) : Bytes := file ++ zeros (size - file.length)

/-- `posix_fallocate` writes zeros and moves the end of the file. -/
def posixFallocate (k : Fallocate) (offset len : ℕ) (file : Bytes) :
    Except IoError Unit × Bytes :=
  match k.posix with
  | none => (.ok (), extendTo file (offset + len))
  | some e => (.error e, extendTo file (min k.reached (offset + len)))

def platformPreallocate (k : Fallocate) (offset len : ℕ) (file : Bytes) :
    Except IoError Unit × Bytes :=
  if len = 0 then (.ok (), file)
  else if k.forcePosix then posixFallocate k offset len file
  else
    match k.fallocate with
    | none => (.ok (), file)
    | some (raw, e) =>
      if raw ≠ 95 ∧ raw ≠ 38 then (.error e, file) else posixFallocate k offset len file

/-! ### `preallocate_keep_len` (`mod.rs:1486-1494`) -/

/-- A call of `preallocate` and the answers it will get. -/
structure PreallocCall where
  offset : ℕ
  len : ℕ
  firstStat : Option IoError
  kernel : Fallocate
  secondStat : Option IoError
  setLen : Option IoError

/-- Where `preallocate_keep_len` stands. -/
inductive KeepLen where
  | begun
  | sized (before : ℕ)
  | reserved (before : ℕ)
  | grown (before : ℕ)
  | returned (result : Except IoError Unit)

/-- The next system call of `preallocate_keep_len`. -/
def KeepLen.next (c : PreallocCall) (file : Bytes) : KeepLen → Option (KeepLen × Bytes)
  | .begun =>
    match c.firstStat with
    | some e => some (.returned (.error e), file)
    | none => some (.sized file.length, file)
  | .sized before =>
    match platformPreallocate c.kernel c.offset c.len file with
    -- the `?` leaves whatever the call has done to the file
    | (.error e, file) => some (.returned (.error e), file)
    | (.ok (), file) => some (.reserved before, file)
  | .reserved before =>
    match c.secondStat with
    | some e => some (.returned (.error e), file)
    | none =>
      if file.length > before then some (.grown before, file)
      else some (.returned (.ok ()), file)
  | .grown before =>
    match c.setLen with
    | some e => some (.returned (.error e), file)
    | none => some (.returned (.ok ()), extendTo (file.take before) before)
  | .returned _ => none

/-- A call that has returned: the file when appends were held off, and the file when they
were let in again. -/
structure PreallocReturn where
  call : PreallocCall
  held : Bytes
  left : Bytes
  result : Except IoError Unit

/-! ### Buffered mode -/

/-- What an agent of a journal in buffered mode is at. -/
inductive BufferedJob where
  | idle
  /-- in `enter` or in the loop around `try_enter` -/
  | append (data : Bytes)
  /-- `done` bytes of the reserved range are in the file -/
  | writing (start : ℕ) (data : Bytes) (done : ℕ)
  | ended (start : ℕ) (data : Bytes) (ok : Bool)
  | closing (c : PreallocCall)
  | keeping (c : PreallocCall) (held : Bytes) (pos : KeepLen)

/-- The journal in buffered mode. `acked` and `calls` are the history: the appends and the
preallocations that have returned. -/
structure BufferedSys (A : Type) where
  gate : WriteGate A
  nextLsn : ℕ
  file : Bytes
  poison : Bool
  job : A → BufferedJob
  acked : List (ℕ × Bytes)
  calls : List PreallocReturn

inductive BufferedEvent where
  | callAppend (data : Bytes)
  | giveUp
  | reserve
  | write (n : ℕ)
  | writeEnds (ok : Bool)
  | callPreallocate (c : PreallocCall)
  | keepLen
  | gate (ev : WriteGate.Event)

namespace BufferedSys

variable {A : Type} [DecidableEq A]

/-- A journal opened on this file, to be continued at `pos`. -/
def start (file : Bytes) (pos : ℕ) : BufferedSys A :=
  ⟨.new, pos, file, false, fun _ => .idle, [], []⟩

def setJob (s : BufferedSys A) (a : A) (j : BufferedJob) : BufferedSys A :=
  { s with job := Function.update s.job a j }

/-- The gate calls that belong to a job: `enter` for an append, `leave` when its ticket is
dropped, `close` for a preallocation and the drop of its guard; anybody may drain. -/
def gateCall : BufferedJob → WriteGate.Event → Bool
  | .append _, .tryEnter => true
  | .append _, .loadEpoch => true
  | .append _, .register => true
  | .append _, .confirm => true
  | .append _, .backOut => true
  | .ended .., .leave => true
  | .idle, .lockDrain => true
  | .idle, .readFrontier => true
  | .idle, .flip => true
  | .idle, .loadDrained => true
  | .idle, .unlockDrain => true
  | .closing _, .setClosed => true
  | .closing _, .loadClosed0 => true
  | .closing _, .loadClosed1 => true
  | .keeping _ _ (.returned _), .reopen => true
  | .idle, .unlockClose => true
  | _, _ => false

/-- What the journal does with the answer `g` of the gate: an append returns when its ticket
is gone, a closed gate starts `preallocate_keep_len`, an opened one ends the call. -/
def afterGate (s : BufferedSys A) (a : A) (ev : WriteGate.Event) (g : WriteGate A) :
    BufferedSys A :=
  match ev, s.job a with
  | .leave, .ended start data ok =>
    { s.setJob a .idle with
      gate := g
      acked := if ok then s.acked ++ [(start, data)] else s.acked }
  | .loadClosed1, .closing c =>
    if g.phase a = .closed then { s.setJob a (.keeping c s.file .begun) with gate := g }
    else { s with gate := g }
  | .reopen, .keeping c held (.returned r) =>
    { s.setJob a .idle with gate := g, calls := s.calls ++ [⟨c, held, s.file, r⟩] }
  | _, _ => { s with gate := g }

/-- A step of `append_inner`, `append_native`, a group-commit leader or `preallocate`. -/
def next (s : BufferedSys A) (act : A × BufferedEvent) : Option (BufferedSys A) :=
  let a := act.1
  match act.2 with
  | .callAppend data =>
    match s.job a with
    | .idle =>
      if s.gate.phase a = .out then some (if s.poison then s else s.setJob a (.append data))
      else none
    | _ => none
  | .giveUp =>
    match s.job a with
    | .append _ => if s.gate.phase a = .out then some (s.setJob a .idle) else none
    | _ => none
  | .reserve =>
    match s.job a, s.gate.phase a with
    | .append data, .ticket _ =>
      some { s.setJob a (.writing s.nextLsn data 0) with nextLsn := s.nextLsn + data.length }
    | _, _ => none
  | .write n =>
    match s.job a with
    | .writing start data done =>
      some { s.setJob a (.writing start data (done + ((data.drop done).take n).length)) with
        file := overlay s.file (start + done) ((data.drop done).take n) }
    | _ => none
  | .writeEnds ok =>
    match s.job a with
    | .writing start data done =>
      if ok then
        if done = data.length then some (s.setJob a (.ended start data true)) else none
      else some { s.setJob a (.ended start data false) with poison := true }
    | _ => none
  | .callPreallocate c =>
    match s.job a with
    | .idle =>
      (s.gate.next (a, .lockClose)).map fun g => { s.setJob a (.closing c) with gate := g }
    | _ => none
  | .keepLen =>
    match s.job a with
    | .keeping c held pos =>
      (pos.next c s.file).map fun r => { s.setJob a (.keeping c held r.1) with file := r.2 }
    | _ => none
  | .gate ev =>
    if gateCall (s.job a) ev then (s.gate.next (a, ev)).map (s.afterGate a ev) else none

end BufferedSys

/-! ### Direct mode -/

/-- The preallocation that has the state lock of the log buffer. -/
structure Quiesced where
  call : PreallocCall
  held : Bytes
  pos : KeepLen

/-- The journal in Direct mode. -/
structure QuiescedSys where
  sys : LogSys
  holder : Option Quiesced
  calls : List PreallocReturn

inductive QuiescedAction where
  | log (a : LogAction)
  | quiesce (c : PreallocCall)
  | keepLen
  | release

/-- The step takes the state lock. -/
def LogAction.locks : LogAction → Bool
  | .callAppend .. => false
  | .lockAppend .. => true
  | .land .. => false
  | .finish _ => true
  | .callBatch .. => true
  | .callFlush _ => false
  | .lockFlush .. => true

namespace QuiescedSys

def start (b : LogState) (file : Bytes) : QuiescedSys :=
  ⟨⟨b, file, none, fun _ => .idle, [], []⟩, none, []⟩

/-- A step of the log buffer or of `quiesced` (`log_buffer.rs:813-821`), which waits until no
write is in flight. -/
def next (geo : Geometry) (crc : Crc) (s : QuiescedSys) : QuiescedAction → Option QuiescedSys
  | .log a =>
    if a.locks ∧ s.holder.isSome then none
    else (s.sys.next geo crc a).map fun sys => { s with sys := sys }
  | .quiesce c =>
    if s.holder.isSome ∨ s.sys.buf.flushing.isSome then none
    else some { s with holder := some ⟨c, s.sys.file, .begun⟩ }
  | .keepLen =>
    match s.holder with
    | some h =>
      (h.pos.next h.call s.sys.file).map fun r =>
        { s with holder := some { h with pos := r.1 }, sys := { s.sys with file := r.2 } }
    | none => none
  | .release =>
    match s.holder with
    | some ⟨c, held, .returned r⟩ =>
      some { s with holder := none, calls := s.calls ++ [⟨c, held, s.sys.file, r⟩] }
    | _ => none

end QuiescedSys

end Fsys.Journal
