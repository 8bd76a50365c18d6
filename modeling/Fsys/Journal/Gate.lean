import Fsys.Base.Transition
import Mathlib.Data.Nat.Notation

/-!
# The write gate among appenders and leaders (src/journal/gate.rs)

Buffered mode. Appenders register with the gate, reserve a range of the log with one
`fetch_add`, write it and leave (`mod.rs:781-797`, `async_io/journal.rs:234-300`);
leaders take a frontier from the gate, check the poison, sync the file and publish
(`mod.rs:1250-1312`, `async_io/journal.rs:321-510`); `close` is what preallocation
does. Every load, store and read-modify-write of a shared word is one step, in one
total order. Any number of leaders may be at work: the group commit admits one, a
cancelled one leaves its drain running.
-/

namespace Fsys.Journal
open Fsys.Base

/-- How a positioned write can end. -/
inductive WriteEnd where
  | full
  | failed
  /-- The kernel reported fewer bytes. -/
  | short
  /-- The op was dropped in the channel of the driver. -/
  | neverSubmitted
  /-- The driver stopped with the write in flight. -/
  | abandoned
  deriving DecidableEq, Repr

/-- A write in the caller's thread returns in full or fails. -/
def WriteEnd.allowed (native : Bool) : WriteEnd → Bool
  | .full => true
  | .failed => true
  | _ => native

inductive Status where
  | writing
  | written (time : ℕ)
  | failed
  deriving DecidableEq

/-- A range of the log that an appender reserved. -/
structure GateRange (A : Type) where
  owner : A
  start : ℕ
  stop : ℕ
  status : Status

/-- Where an agent stands; `f` is the number of flips it read, `fr` a frontier. -/
inductive GatePc where
  | idle
  | entering
  | loaded (f : ℕ)
  | counted (f : ℕ)
  | backing (f : ℕ)
  | ticketed (f : ℕ)
  | writing (f i : ℕ) (native : Bool)
  | spoiled (f i : ℕ)
  | ending (f : ℕ)
  | leading
  | quiet0 (fr : ℕ)
  | quiet1 (fr : ℕ)
  | locked
  | framed (fr : ℕ)
  | draining (fr f : ℕ)
  | drained (fr : ℕ)
  | captured (fr : ℕ)
  | checked (fr : ℕ)
  | syncing (fr t : ℕ)
  | syncFailed
  | publishing (fr : ℕ)
  | closing
  | closeWait0
  | closeWait1
  | gateClosed
  | reopened
  deriving DecidableEq

structure Gate (A : Type) where
  flips : ℕ
  closed : Bool
  inFlight : Bool → ℕ
  flipper : Option A
  nextLsn : ℕ
  reservations : List (GateRange A)
  poison : Bool
  syncedLsn : ℕ
  /-- When the fsyncs that succeeded had started. -/
  fsyncs : List ℕ
  clock : ℕ
  pc : A → GatePc

/-- A journal opened at `pos`. -/
def Gate.start {A : Type} (pos : ℕ) : Gate A :=
  ⟨0, false, fun _ => 0, none, pos, [], false, pos, [], 0, fun _ => .idle⟩

/-- `parity` (`gate.rs:228-230`), of the flips in the epoch word. -/
def parity (f : ℕ) : Bool := f % 2 = 1

inductive GateEvent where
  | callAppend
  | loadEpoch
  | register
  | confirm
  | backOut
  | giveUp
  | reserve (len : ℕ) (native : Bool)
  | writeEnds (how : WriteEnd)
  | poisonWrite
  | leave
  | callLead
  | readQuiet
  | loadQuiet0
  | loadQuiet1
  | lockFlipper
  | readFrontier
  | flip
  | loadZero
  | unlockFlipper
  | quit
  | checkPoison
  | startFsync
  | fsyncReturns (ok : Bool)
  | poisonSync
  | publish
  | lockClose
  | setClosed
  | loadClosed0
  | loadClosed1
  | reopen
  | unlockClose

namespace Gate

variable {A : Type} [DecidableEq A]

/-- The agent goes on to `pc`. -/
def goto (s : Gate A) (a : A) (pc : GatePc) : Gate A :=
  { s with pc := Function.update s.pc a pc, clock := s.clock + 1 }

/-- `fetch_add(1)` on a counter. -/
def raise (s : Gate A) (p : Bool) : Gate A :=
  { s with inFlight := Function.update s.inFlight p (s.inFlight p + 1) }

/-- `leave` (`gate.rs:167-170`). -/
def lower (s : Gate A) (p : Bool) : Gate A :=
  { s with inFlight := Function.update s.inFlight p (s.inFlight p - 1) }

/-- `next_lsn.fetch_add`. -/
def reserve (s : Gate A) (a : A) (len : ℕ) : Gate A :=
  { s with
    nextLsn := s.nextLsn + len
    reservations := s.reservations ++ [⟨a, s.nextLsn, s.nextLsn + len, .writing⟩] }

/-- The write of a reservation ended. -/
def settle (s : Gate A) (i : ℕ) (status : Status) : Gate A :=
  { s with reservations := s.reservations.modify i fun r => { r with status := status } }

/-- A step of an appender: `append_inner`, `append_native`, `try_enter` (`gate.rs:148-164`). -/
def nextAppend (s : Gate A) (a : A) : GateEvent → Option (Gate A)
  | .callAppend =>
    if s.pc a = .idle then some (s.goto a (if s.poison then .idle else .entering)) else none
  | .loadEpoch =>
    if s.pc a = .entering then some (s.goto a (if s.closed then .entering else .loaded s.flips))
    else none
  | .register =>
    match s.pc a with
    | .loaded f => some ((s.raise (parity f)).goto a (.counted f))
    | _ => none
  | .confirm =>
    match s.pc a with
    | .counted f =>
      some (s.goto a (if s.flips = f ∧ s.closed = false then .ticketed f else .backing f))
    | _ => none
  | .backOut =>
    match s.pc a with
    | .backing f => some ((s.lower (parity f)).goto a .entering)
    | _ => none
  | .giveUp => if s.pc a = .entering then some (s.goto a .idle) else none
  | .reserve len native =>
    match s.pc a with
    | .ticketed f => some ((s.reserve a len).goto a (.writing f s.reservations.length native))
    | _ => none
  | .writeEnds how =>
    match s.pc a with
    | .writing f i native =>
      if how.allowed native then
        if how = .full then some ((s.settle i (.written s.clock)).goto a (.ending f))
        else some ((s.settle i .failed).goto a (.spoiled f i))
      else none
    | _ => none
  | .poisonWrite =>
    match s.pc a with
    | .spoiled f _ => some ({ s with poison := true }.goto a (.ending f))
    | _ => none
  | .leave =>
    match s.pc a with
    | .ending f => some ((s.lower (parity f)).goto a .idle)
    | _ => none
  | _ => none

/-- A step of a leader: `drain_below`, `try_quiescent` (`gate.rs:186-218`),
`flush_and_sync`, `LeaderGuard` and `LeaderLease`. -/
def nextLead (s : Gate A) (a : A) : GateEvent → Option (Gate A)
  | .callLead => if s.pc a = .idle then some (s.goto a .leading) else none
  | .readQuiet => if s.pc a = .leading then some (s.goto a (.quiet0 s.nextLsn)) else none
  | .loadQuiet0 =>
    match s.pc a with
    | .quiet0 fr => some (s.goto a (if s.inFlight false = 0 then .quiet1 fr else .leading))
    | _ => none
  | .loadQuiet1 =>
    match s.pc a with
    | .quiet1 fr => some (s.goto a (if s.inFlight true = 0 then .captured fr else .leading))
    | _ => none
  | .lockFlipper =>
    if s.pc a = .leading ∧ s.flipper = none then
      some ({ s with flipper := some a }.goto a .locked) else none
  | .readFrontier => if s.pc a = .locked then some (s.goto a (.framed s.nextLsn)) else none
  | .flip =>
    match s.pc a with
    | .framed fr => some ({ s with flips := s.flips + 1 }.goto a (.draining fr s.flips))
    | _ => none
  | .loadZero =>
    match s.pc a with
    | .draining fr f =>
      some (s.goto a (if s.inFlight (parity f) = 0 then .drained fr else .draining fr f))
    | _ => none
  | .unlockFlipper =>
    match s.pc a with
    | .drained fr => some ({ s with flipper := none }.goto a (.captured fr))
    | _ => none
  | .quit =>
    match s.pc a with
    | .leading => some (s.goto a .idle)
    | .quiet0 _ => some (s.goto a .idle)
    | .quiet1 _ => some (s.goto a .idle)
    | .captured _ => some (s.goto a .idle)
    | .checked _ => some (s.goto a .idle)
    | _ => none
  | .checkPoison =>
    match s.pc a with
    | .captured fr => some (s.goto a (if s.poison then .idle else .checked fr))
    | _ => none
  | .startFsync =>
    match s.pc a with
    | .checked fr => some (s.goto a (.syncing fr s.clock))
    | _ => none
  | .fsyncReturns ok =>
    match s.pc a with
    | .syncing fr t =>
      if ok then some ({ s with fsyncs := t :: s.fsyncs }.goto a (.publishing fr))
      else some (s.goto a .syncFailed)
    | _ => none
  | .poisonSync => if s.pc a = .syncFailed then some ({ s with poison := true }.goto a .idle) else none
  | .publish =>
    match s.pc a with
    | .publishing fr => some ({ s with syncedLsn := max s.syncedLsn fr }.goto a .idle)
    | _ => none
  | _ => none

/-- A step of `close` (`gate.rs:223-231`) and of the guard it returns. -/
def nextClose (s : Gate A) (a : A) : GateEvent → Option (Gate A)
  | .lockClose =>
    if s.pc a = .idle ∧ s.flipper = none then some ({ s with flipper := some a }.goto a .closing)
    else none
  | .setClosed => if s.pc a = .closing then some ({ s with closed := true }.goto a .closeWait0) else none
  | .loadClosed0 =>
    if s.pc a = .closeWait0 then
      some (s.goto a (if s.inFlight false = 0 then .closeWait1 else .closeWait0)) else none
  | .loadClosed1 =>
    if s.pc a = .closeWait1 then
      some (s.goto a (if s.inFlight true = 0 then .gateClosed else .closeWait1)) else none
  | .reopen => if s.pc a = .gateClosed then some ({ s with closed := false }.goto a .reopened) else none
  | .unlockClose =>
    if s.pc a = .reopened then some ({ s with flipper := none }.goto a .idle) else none
  | _ => none

def next (s : Gate A) (act : A × GateEvent) : Option (Gate A) :=
  (s.nextAppend act.1 act.2).orElse fun _ => (s.nextLead act.1 act.2).orElse fun _ =>
    s.nextClose act.1 act.2

end Gate

end Fsys.Journal
