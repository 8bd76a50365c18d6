import Fsys.Base.Transition
import Mathlib.Data.Nat.Notation

/-!
# Group commit (src/journal/mod.rs:1073-1312, 1600-1702; src/async_io/journal.rs:321-510)

Any number of `sync_through` and `sync_through_native` calls share one mutex-protected
state, the atomic `synced_lsn` and the poison. An agent is one call at a time. Every
access to a shared word is a step: the mutex protects `in_flight` and `committed_lsn`
only against agents that take it, the atomics are read without it. A leader's frontier
is the end of the log at the moment the gate or the log buffer read it.
-/

namespace Fsys.Journal
open Fsys.Base

/-- A call; `before` are the ends of the appends that had returned when it was made. -/
structure SyncCall where
  lsn : ℕ
  native : Bool
  before : List ℕ
  deriving DecidableEq

/-- Where a call stands; `fr` is a frontier, `pub` the one the guard is to publish. -/
inductive SyncPc where
  | idle
  | called (c : SyncCall)
  | locking (c : SyncCall)
  | head (c : SyncCall)
  | unpoisoned (c : SyncCall)
  | parked (c : SyncCall)
  | notified (c : SyncCall)
  | relocked (c : SyncCall)
  | unparked (c : SyncCall)
  | window (c : SyncCall)
  | windowWait (c : SyncCall)
  | leading (c : SyncCall)
  | captured (c : SyncCall) (fr : ℕ)
  | checked (c : SyncCall) (fr : ℕ)
  | queued (c : SyncCall) (fr : ℕ)
  | syncing (c : SyncCall) (fr : ℕ)
  | syncFailed (c : SyncCall)
  | ending (c : SyncCall) (pub : Option ℕ)
  | publishing (c : SyncCall) (pub : Option ℕ)
  | storing (c : SyncCall) (fr : ℕ)
  | clearing (c : SyncCall) (ok : Bool)
  | notifying (c : SyncCall) (ok : Bool)
  | ended (c : SyncCall) (ok : Bool)
  | returned (c : SyncCall) (ok : Bool)
  deriving DecidableEq

structure Commit (A : Type) where
  lock : Option A
  inFlight : Bool
  committedLsn : ℕ
  syncedLsn : ℕ
  poison : Bool
  pendingFollowers : ℕ
  /-- The end of the log. -/
  logEnd : ℕ
  /-- The ends of the appends that returned `Ok`. -/
  acked : List ℕ
  /-- How many fsyncs leaders issued. -/
  issued : ℕ
  /-- An fsync failed or was abandoned. -/
  failed : Bool
  pc : A → SyncPc

/-- `GroupCommit::new` (`mod.rs:1656-1672`) in a journal opened at `pos`. -/
def Commit.new {A : Type} (pos : ℕ) : Commit A :=
  ⟨none, false, pos, pos, false, 0, pos, [], 0, false, fun _ => .idle⟩

/-- `group_commit_window` and `group_commit_max_batch`. -/
structure CommitOptions where
  window : Bool
  maxBatch : ℕ

inductive CommitEvent where
  | append (len : ℕ)
  | ack (e : ℕ)
  | poisonAppend
  | call (lsn : ℕ) (native : Bool)
  | loadSynced
  | lock
  | lookCommitted
  | join
  | unlockWoken
  | unpark
  | windowPark
  | windowClose
  | capture
  | flushFails
  | quit
  | checkPoison
  | submit
  | dropOp
  | issue
  | fsyncReturns (ok : Bool)
  | abandon
  | poisonSync
  | lockEnd
  | storeCommitted
  | storeSynced
  | clearInFlight
  | notifyAll
  | answer
  | lose
  | leave

/-- What `notify_all` does to a thread. -/
def SyncPc.woken : SyncPc → SyncPc
  | .parked c => .notified c
  | pc => pc

namespace Commit

variable {A : Type} [DecidableEq A]

/-- The agent goes on to `pc`. -/
def goto (s : Commit A) (a : A) (pc : SyncPc) : Commit A :=
  { s with pc := Function.update s.pc a pc }

/-- The appenders: a range is reserved or copied, an append returns, one fails. -/
def nextLog (s : Commit A) : CommitEvent → Option (Commit A)
  | .append len => some { s with logEnd := s.logEnd + len }
  | .ack e => if e ≤ s.logEnd then some { s with acked := e :: s.acked } else none
  | .poisonAppend => some { s with poison := true }
  | _ => none

/-- A call up to its election: `sync_through` (`mod.rs:1083-1199`),
`sync_through_native` and `try_lead_group_commit` (`async_io/journal.rs:324-341, 409-428`). -/
def nextCall (opts : CommitOptions) (s : Commit A) (a : A) : CommitEvent → Option (Commit A)
  | .call lsn native =>
    if s.pc a = .idle then some (s.goto a (.called ⟨lsn, native, s.acked⟩)) else none
  | .loadSynced =>
    match s.pc a with
    | .called c => some (s.goto a (if c.lsn ≤ s.syncedLsn then .returned c true else .locking c))
    | _ => none
  | .lock =>
    match s.pc a with
    | .locking c =>
      if s.lock = none then some ({ s with lock := some a }.goto a (.head c))
      -- `try_lock` failed: `Busy`
      else if c.native then some (s.goto a (.called c)) else none
    | .notified c =>
      if s.lock = none then some ({ s with lock := some a }.goto a (.relocked c)) else none
    | .windowWait c =>
      if s.lock = none then some ({ s with lock := some a }.goto a (.window c)) else none
    | _ => none
  | .lookCommitted =>
    match s.pc a with
    | .head c =>
      if c.lsn ≤ s.committedLsn then some ({ s with lock := none }.goto a (.returned c true))
      else if s.poison then some ({ s with lock := none }.goto a (.returned c false))
      else some (s.goto a (.unpoisoned c))
    | _ => none
  | .join =>
    match s.pc a with
    | .unpoisoned c =>
      if s.inFlight = false then some ({ s with inFlight := true }.goto a (.window c))
      else if c.native then some ({ s with lock := none }.goto a (.called c))
      else some ({ s with
        lock := none, pendingFollowers := s.pendingFollowers + 1 }.goto a (.parked c))
    | _ => none
  | .unlockWoken =>
    match s.pc a with
    | .relocked c => some ({ s with lock := none }.goto a (.unparked c))
    | _ => none
  | .unpark =>
    match s.pc a with
    | .unparked c =>
      some ({ s with pendingFollowers := s.pendingFollowers - 1 }.goto a (.called c))
    | _ => none
  | .windowPark =>
    match s.pc a with
    | .window c =>
      if opts.window ∧ c.native = false ∧ s.pendingFollowers < opts.maxBatch then
        some ({ s with lock := none }.goto a (.windowWait c)) else none
    | _ => none
  | .windowClose =>
    match s.pc a with
    | .window c => some ({ s with lock := none }.goto a (.leading c))
    | _ => none
  -- a native future is dropped before it leads
  | .lose =>
    match s.pc a with
    | .called c => if c.native then some (s.goto a .idle) else none
    | _ => none
  | .leave =>
    match s.pc a with
    | .returned _ _ => some (s.goto a .idle)
    | _ => none
  | _ => none

/-- A leader up to the end of its fsync: `flush_and_sync` (`mod.rs:1250-1312`),
`sync_through_native` (`async_io/journal.rs:342-362`) and the hooks of the lease. -/
def nextLead (s : Commit A) (a : A) : CommitEvent → Option (Commit A)
  | .capture =>
    match s.pc a with
    | .leading c => some (s.goto a (.captured c s.logEnd))
    | _ => none
  | .flushFails =>
    match s.pc a with
    | .leading c => some ({ s with poison := true }.goto a (.ending c none))
    | _ => none
  -- a panic, a failed blocking task, or a native future dropped with its lease
  | .quit =>
    match s.pc a with
    | .leading c => some (s.goto a (.ending c none))
    | .captured c _ => some (s.goto a (.ending c none))
    | .checked c _ => some (s.goto a (.ending c none))
    | _ => none
  | .checkPoison =>
    match s.pc a with
    | .captured c fr => some (s.goto a (if s.poison then .ending c none else .checked c fr))
    | _ => none
  | .submit =>
    match s.pc a with
    | .checked c fr => if c.native then some (s.goto a (.queued c fr)) else none
    | _ => none
  | .dropOp =>
    match s.pc a with
    | .queued c _ => some (s.goto a (.ending c none))
    | _ => none
  | .issue =>
    match s.pc a with
    | .checked c fr =>
      if c.native then none else some ({ s with issued := s.issued + 1 }.goto a (.syncing c fr))
    | .queued c fr => some ({ s with issued := s.issued + 1 }.goto a (.syncing c fr))
    | _ => none
  | .fsyncReturns ok =>
    match s.pc a with
    | .syncing c fr =>
      if ok then some (s.goto a (.ending c (some fr)))
      else some ({ s with failed := true }.goto a (.syncFailed c))
    | _ => none
  | .abandon =>
    match s.pc a with
    | .syncing c _ =>
      if c.native then some ({ s with failed := true }.goto a (.syncFailed c)) else none
    | _ => none
  | .poisonSync =>
    match s.pc a with
    | .syncFailed c => some ({ s with poison := true }.goto a (.ending c none))
    | _ => none
  | _ => none

/-- The end of the leader role: `LeaderGuard::drop` (`mod.rs:1689-1702`) and
`LeaderLease::end` (`async_io/journal.rs:477-486`), then the answer. -/
def nextEnd (s : Commit A) (a : A) : CommitEvent → Option (Commit A)
  | .lockEnd =>
    match s.pc a with
    | .ending c pub =>
      if s.lock = none then some ({ s with lock := some a }.goto a (.publishing c pub)) else none
    | _ => none
  | .storeCommitted =>
    match s.pc a with
    | .publishing c (some fr) =>
      if s.committedLsn < fr then some ({ s with committedLsn := fr }.goto a (.storing c fr))
      else some (s.goto a (.clearing c true))
    | .publishing c none => some (s.goto a (.clearing c false))
    | _ => none
  | .storeSynced =>
    match s.pc a with
    | .storing c fr => some ({ s with syncedLsn := fr }.goto a (.clearing c true))
    | _ => none
  | .clearInFlight =>
    match s.pc a with
    | .clearing c ok => some ({ s with inFlight := false }.goto a (.notifying c ok))
    | _ => none
  | .notifyAll =>
    match s.pc a with
    | .notifying c ok =>
      some ({ s with lock := none, pc := fun b => (s.pc b).woken }.goto a (.ended c ok))
    | _ => none
  | .answer =>
    match s.pc a with
    | .ended c ok => some (s.goto a (.returned c ok))
    | _ => none
  -- the future of the answer is gone
  | .lose =>
    match s.pc a with
    | .ended c _ => if c.native then some (s.goto a .idle) else none
    | _ => none
  | _ => none

def next (opts : CommitOptions) (s : Commit A) (act : A × CommitEvent) : Option (Commit A) :=
  (s.nextLog act.2).orElse fun _ => (nextCall opts s act.1 act.2).orElse fun _ =>
    (s.nextLead act.1 act.2).orElse fun _ => s.nextEnd act.1 act.2

end Commit

end Fsys.Journal
