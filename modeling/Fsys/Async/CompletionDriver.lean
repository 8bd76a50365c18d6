import Fsys.Base.Bytes
import Fsys.Base.Transition

/-!
# The completion driver (src/async_io/completion_driver.rs)

One owner task holds the ring and the table of pending ops. Callers queue ops and
may give up on them, the kernel takes submission entries and posts completions in
any order, and the owner may stop between any two of its steps (every wait of
`owner_loop` is at the top of the loop). One step accepts one op, reaps one
completion or hands the submission queue to the kernel; the batches of the source
are such steps in a row.

An op is known by its position among the ops ever made, which stands for its reply
channel. `history` keeps what happened to each op and its parts, in order.
-/

namespace Fsys.Async
open Fsys.Base

/-- `MAX_SQE_LEN` (`linux_iouring.rs:69`). -/
def maxSqeLen : ℕ := 0x7fff0000

/-- Bytes written (0 for fsync), or the kernel's error number. -/
abbrev IoResult := Except ℤ ℕ

/-- Whether the keep-alive of a file wants to hear how its op ended. -/
inductive Owner where
  | plain
  | hooked
  deriving DecidableEq, Repr

structure FileRef where
  fd : ℤ
  owner : Owner
  deriving DecidableEq, Repr

/-- A buffer the driver owns; no allocation is longer than `isize::MAX`. -/
structure IoBuf where
  bytes : Bytes
  small : bytes.length < 2 ^ 63
  deriving DecidableEq

def IoBuf.length (buf : IoBuf) : ℕ := buf.bytes.length

inductive Op where
  | write (file : FileRef) (buf : IoBuf) (offset : ℕ)
  | fdatasync (file : FileRef)
  deriving DecidableEq

/-- An op the kernel may still be working on (`completion_driver.rs:316-325`). -/
structure InFlight where
  key : ℕ
  file : FileRef
  buf : Option IoBuf
  done : ℕ
  offset : ℕ
  deriving DecidableEq

/-- The op with `n` bytes written. -/
def InFlight.upTo (op : InFlight) (n : ℕ) : InFlight := { op with done := n }

inductive SqeOp where
  | fsync
  | write (offset : ℕ) (data : Bytes)
  deriving DecidableEq

/-- A submission queue entry. -/
structure Sqe where
  userData : ℕ
  fd : ℤ
  op : SqeOp
  deriving DecidableEq

/-- The bytes an entry asks the kernel to write. -/
def Sqe.asked (e : Sqe) : ℕ :=
  match e.op with
  | .fsync => 0
  | .write _ data => data.length

/-- What happens to an op and to the buffer, the keep-alive and the reply it owns. -/
inductive Event where
  | pushed (e : Sqe)
  | completed (res : ℤ)
  | finished (r : IoResult)
  | abandoned
  | dropBuf
  | dropFile
  | leakBuf
  | leakFile
  | reply (r : IoResult)
  | dropReply

structure Config where
  sqEntries : ℕ
  maxInFlight : ℕ

structure Driver where
  /-- The submission channel. -/
  queue : List (ℕ × Op)
  /-- An `AsyncIoUring` is still there. -/
  attached : Bool
  poisoned : Bool
  stopped : Bool
  closing : Bool
  nextId : ℕ
  pending : List (ℕ × InFlight)
  sq : List Sqe
  kernel : List Sqe
  cq : List (Sqe × ℤ)
  cancelled : ℕ → Bool
  /-- Every op that was made. -/
  ops : List Op
  /-- The ops the owner started, the last one first. -/
  started : List ℕ
  history : ℕ → List Event
  /-- An op was tracked under the id of a pending one. -/
  reissued : Bool

def Driver.start : Driver :=
  ⟨[], true, false, false, false, 0, [], [], [], [], fun _ => false, [], [], fun _ => [], false⟩

/-! ### What becomes of an op -/

def Op.file : Op → FileRef
  | .write file _ _ => file
  | .fdatasync file => file

/-- `FileRef::finished` (`completion_driver.rs:182-186`). -/
def FileRef.finished (file : FileRef) (r : IoResult) : List Event :=
  match file.owner with
  | .plain => []
  | .hooked => [.finished r]

/-- `FileRef::abandoned` (`completion_driver.rs:188-192`). -/
def FileRef.abandoned (file : FileRef) : List Event :=
  match file.owner with
  | .plain => []
  | .hooked => [.abandoned]

/-- `finish` (`completion_driver.rs:533-543`). -/
def InFlight.finish (op : InFlight) (r : IoResult) : List Event :=
  op.file.finished r ++ (if op.buf.isSome then [.dropBuf] else []) ++ [.dropFile, .reply r]

/-- One entry of `Drop for PendingOps` (`completion_driver.rs:346-351`). -/
def InFlight.abandon (op : InFlight) : List Event :=
  op.file.abandoned ++ (if op.buf.isSome then [.leakBuf] else []) ++ [.leakFile, .dropReply]

/-- An `InFlight` that goes out of scope. -/
def InFlight.drop (op : InFlight) : List Event :=
  [.dropReply, .dropFile] ++ if op.buf.isSome then [.dropBuf] else []

/-- An `Op` that goes out of scope. -/
def Op.drop : Op → List Event
  | .write _ _ _ => [.dropFile, .dropBuf, .dropReply]
  | .fdatasync _ => [.dropFile, .dropReply]

/-! ### The owner -/

def einval : ℤ := 22

def ebusy : ℤ := 16

/-- `i32::saturating_neg`. -/
def saturatingNeg (n : ℤ) : ℤ := min (-n) (2 ^ 31 - 1)

/-- `usize::saturating_add`. -/
def saturatingAdd (a b : ℕ) : ℕ := min (a + b) (2 ^ 64 - 1)

/-- `sqe_for` (`completion_driver.rs:447-472`). -/
def sqeFor (id : ℕ) (op : InFlight) : Option Sqe :=
  match op.buf with
  | none => some ⟨id, op.file.fd, .fsync⟩
  | some buf =>
    if buf.length < op.done then none
    else if op.offset + op.done < 2 ^ 64 then
      some ⟨id, op.file.fd, .write (op.offset + op.done) ((buf.bytes.drop op.done).take maxSqeLen)⟩
    else none

namespace Driver

variable (cfg : Config)

def log (d : Driver) (key : ℕ) (events : List Event) : Driver :=
  { d with history := Function.update d.history key (d.history key ++ events) }

/-- Events of several ops. -/
def logAll (d : Driver) (events : List (ℕ × List Event)) : Driver :=
  { d with history := fun k =>
      d.history k ++ (events.filter fun p => p.1 = k).flatMap fun p => p.2 }

/-- `HashMap::remove`. -/
def without (pending : List (ℕ × InFlight)) (id : ℕ) : List (ℕ × InFlight) :=
  pending.filter fun p => p.1 ≠ id

/-- `PendingOps::track` (`completion_driver.rs:332-336`). -/
def track (d : Driver) (id : ℕ) (op : InFlight) : Driver :=
  match d.pending.lookup id with
  | none => { d with pending := (id, op) :: d.pending }
  | some previous =>
    { d with pending := (id, op) :: without d.pending id, reissued := true }.log previous.key
      previous.drop

/-- `IoUring::submit`: the kernel takes some of the entries, none when it refuses. -/
def enter (d : Driver) (taken : ℕ) : Driver :=
  { d with sq := d.sq.drop taken, kernel := d.kernel ++ d.sq.take taken }

/-- `SubmissionQueue::push`. -/
def push (d : Driver) (e : Sqe) : Option Driver :=
  if d.sq.length < cfg.sqEntries then some { d with sq := d.sq ++ [e] } else none

/-- `push`, and once more after a submit when the queue is full. -/
def pushTwice (taken : ℕ) (d : Driver) (e : Sqe) : Option Driver :=
  (d.push cfg e).orElse fun _ => (d.enter taken).push cfg e

/-- `submit_or_fail` (`completion_driver.rs:476-502`). -/
def submitOrFail (taken : ℕ) (d : Driver) (id : ℕ) (op : InFlight) : Driver :=
  match sqeFor id op with
  | none => d.log op.key (op.finish (.error einval))
  | some e =>
    match d.pushTwice cfg taken e with
    | some d => (d.track id op).log op.key [.pushed e]
    | none => (d.enter taken).log op.key (op.finish (.error ebusy))

/-- The entry of an op that was just accepted. -/
def inFlight (key : ℕ) : Op → InFlight
  | .write file buf offset => ⟨key, file, some buf, 0, offset⟩
  | .fdatasync file => ⟨key, file, none, 0, 0⟩

/-- `start_op` (`completion_driver.rs:505-528`). -/
def startOp (taken : ℕ) (d : Driver) (id key : ℕ) (op : Op) : Driver :=
  let op := inFlight key op
  if op.buf.any fun buf => buf.length = 0 then d.log key (op.finish (.ok 0))
  else d.submitOrFail cfg taken id op

/-- `on_completion` (`completion_driver.rs:560-591`). -/
def onCompletion (taken : ℕ) (d : Driver) (id : ℕ) (op : InFlight) (res : ℤ) : Driver :=
  if res < 0 then d.log op.key (op.finish (.error (saturatingNeg res)))
  else match op.buf with
    | none => d.log op.key (op.finish (.ok 0))
    | some buf =>
      if res.toNat = 0 then d.log op.key (op.finish (.ok op.done))
      else
        let op := op.upTo (min (saturatingAdd op.done res.toNat) buf.length)
        if op.done < buf.length then d.submitOrFail cfg taken id op
        else d.log op.key (op.finish (.ok buf.length))

/-- One completion of `drain_completions` (`completion_driver.rs:546-555`). -/
def reap (taken : ℕ) (d : Driver) (e : Sqe) (res : ℤ) : Driver :=
  match d.pending.lookup e.userData with
  | none => d
  | some op =>
    ({ d with pending := without d.pending e.userData }.log op.key [.completed res]).onCompletion
      cfg taken e.userData op res

/-- The owner task ends: what is pending is abandoned, what is queued is dropped, the ring
is closed. -/
def stop (d : Driver) : Driver :=
  let d := d.logAll (d.pending.map fun p => (p.2.key, p.2.abandon))
  let d := d.logAll (d.queue.map fun p => (p.1, p.2.drop))
  { d with queue := [], pending := [], sq := [], kernel := [], cq := [], stopped := true }

end Driver

/-! ### Callers, owner and kernel -/

inductive Action where
  /-- `AsyncIoUring::submit` up to its wait. -/
  | submit (op : Op)
  /-- A caller drops its future. -/
  | cancel (key : ℕ)
  /-- A caller sees the end of its op. -/
  | resolve (key : ℕ)
  /-- The last `AsyncIoUring` is dropped. -/
  | close
  | startNext (taken : ℕ)
  | seeClosed
  | submitQueued (taken : ℕ)
  | reap (taken : ℕ)
  /-- The kernel completes the `i`-th entry it has. -/
  | complete (i : ℕ) (res : ℤ)
  /-- The loop ends: it is closing and nothing is pending. -/
  | exit
  /-- The task is torn down: runtime shutdown, abort or panic. -/
  | teardown

/-- Results the kernel can post for an entry: an `i32`, of a write no more than it asked. -/
def Sqe.CanReturn (e : Sqe) (res : ℤ) : Prop :=
  -2 ^ 31 ≤ res ∧ res < 2 ^ 31 ∧ (e.op ≠ .fsync → res ≤ e.asked)

instance (e : Sqe) (res : ℤ) : Decidable (e.CanReturn res) :=
  inferInstanceAs (Decidable (_ ∧ _ ∧ (_ → _)))

/-- One op made: its position is its key. -/
def Driver.make (d : Driver) (op : Op) : Driver := { d with ops := d.ops ++ [op] }

/-- `AsyncIoUring::submit` up to its wait (`completion_driver.rs:283-296`). -/
def Driver.submit (d : Driver) (op : Op) : Driver :=
  if d.poisoned then d
  else if d.stopped then { d.make op with poisoned := true }.log d.ops.length op.drop
  else { d.make op with queue := d.queue ++ [(d.ops.length, op)] }

def wasDropped : List Event → Bool
  | [] => false
  | .dropReply :: _ => true
  | _ :: events => wasDropped events

/-- `owner_loop` (`completion_driver.rs:357-443`) among its callers and the kernel. -/
def Driver.next (cfg : Config) (d : Driver) : Action → Option Driver
  | .submit op => if d.attached then some (d.submit op) else none
  | .cancel key => some { d with cancelled := Function.update d.cancelled key true }
  | .resolve key =>
    if d.cancelled key then none
    else some { d with poisoned := d.poisoned || wasDropped (d.history key) }
  | .close => some { d with attached := false }
  | .startNext taken =>
    if d.stopped ∨ d.closing ∨ cfg.maxInFlight ≤ d.pending.length then none
    else match d.queue with
      | [] => none
      | (key, op) :: queue =>
        let id := (d.nextId + 1) % 2 ^ 64
        some ({ d with queue := queue, nextId := id, started := key :: d.started }.startOp cfg
          taken id key op)
  | .seeClosed =>
    if d.stopped ∨ d.closing ∨ d.attached ∨ d.queue ≠ [] ∨ cfg.maxInFlight ≤ d.pending.length then none
    else some { d with closing := true }
  | .submitQueued taken => if d.stopped then none else some (d.enter taken)
  | .reap taken =>
    if d.stopped then none
    else match d.cq with
      | [] => none
      | (e, res) :: cq => some ({ d with cq := cq }.reap cfg taken e res)
  | .complete i res =>
    match d.kernel[i]? with
    | none => none
    | some e =>
      if e.CanReturn res then
        some { d with kernel := d.kernel.eraseIdx i, cq := d.cq ++ [(e, res)] }
      else none
  | .exit => if d.stopped ∨ ¬ d.closing ∨ d.pending ≠ [] then none else some d.stop
  | .teardown => if d.stopped then none else some d.stop

end Fsys.Async
