import Fsys.Base.Transition
import Fsys.Pipeline.Group

/-!
# The dispatchers and their callers (src/pipeline/mod.rs, src/pipeline/group.rs:155-227)

A call of `submit` or `submit_async` is an agent. A step is one access to shared state: the
`OnceLock`, a `running` flag, a thread mutex, a channel, or one call of a job. A queue of
capacity 0 hands a job over: it enters and is taken in one step. Every `select!`, `try_recv`
and `try_send` that the channels allow is possible, and so is every spawn failure. A step
of `ensure_running` needs the fleet; nothing else keeps `drop` from starting at any moment.
-/

namespace Fsys.Lane
open Fsys.Base Fsys.Platform

/-- `PipelineConfig`. -/
structure PipelineConfig where
  batchSizeMax : ℕ
  batchQueueMax : ℕ
  dispatcherShards : ℕ

def usizeMax : ℕ := 2 ^ 64 - 1

def saturatingAdd (a b : ℕ) : ℕ := min (a + b) usizeMax

/-- `shutdown_err`. -/
def shutdownErr : BatchError := ⟨0, 0, .shutdownInProgress⟩

/-- The path that decides the shard. -/
def BatchOp.primary {π : Type} : BatchOp π → π
  | .write path _ => path
  | .delete path => path
  | .copy src _ => src

/-- `pick_shard` (`mod.rs:411-427`). -/
def pickShard {π : Type} (hash : π → UInt64) (ops : List (BatchOp π)) (n : ℕ) : ℕ :=
  if n ≤ 1 then 0
  else match ops.head? with
    | none => 0
    | some first => (hash first.primary).toNat % n

/-- The calls of a run, what their ops come to, and the pipeline they use. -/
structure Setting (A π : Type) where
  config : PipelineConfig
  parent : π → Option π
  hash : π → UInt64
  job : A → BatchJob π
  isAsync : A → Bool
  executor : A → ℕ → Outcome

namespace Setting

variable {A π : Type} (e : Setting A π)

def shards : ℕ := max e.config.dispatcherShards 1

def shardOf (a : A) : ℕ := pickShard e.hash (e.job a).ops e.config.dispatcherShards

variable [LinearOrder π]

def calls (a : A) : List (JobCall π) := processJob e.parent (e.executor a) (e.job a)

def result (a : A) : Except BatchError Unit := jobResult e.parent (e.executor a) (e.job a)

/-- The calls of a job in the log of its shard. -/
def jobLog (a : A) : List (A × JobCall π) := (e.calls a).map fun c => (a, c)

end Setting

/-! ### State -/

/-- Where a call of `submit` or `submit_async` stands. -/
inductive Stage where
  | idle
  | starting
  | initialising
  | checking
  | locking
  | rechecking
  | spawning
  | marking
  | sending
  | trying
  /-- the blocking task sends, the future awaits it -/
  | blocking
  /-- the future is gone, its blocking task still sends -/
  | detached
  | awaiting
  | returned (r : Except BatchError Unit)
  | gone

/-- In `ensure_running`. -/
def Stage.ensuring : Stage → Bool
  | .checking | .locking | .rechecking | .spawning | .marking => true
  | _ => false

/-- Holds the mutex of its shard. -/
def Stage.holds : Stage → Bool
  | .rechecking | .spawning | .marking => true
  | _ => false

/-- Has a job that no queue has yet. -/
def Stage.offering : Stage → Bool
  | .sending | .trying | .blocking | .detached => true
  | _ => false

/-- Its job may be in a queue. -/
def Stage.passed : Stage → Bool
  | .awaiting | .returned _ | .gone => true
  | _ => false

/-- After the send. -/
def Stage.sent : Stage → Stage
  | .detached => .gone
  | _ => .awaiting

/-- After a send that found no receiver. -/
def Stage.refused : Stage → Stage
  | .detached => .gone
  | _ => .returned (.error shutdownErr)

/-- The response channel: no message yet, a message, or the sender is gone. -/
inductive Response where
  | pending
  | answered (r : Except BatchError Unit)
  | dropped

/-- A dispatcher thread: before it is spawned, in `run_dispatcher`, and after. -/
inductive Dispatcher (A π : Type) where
  | unspawned
  | waiting
  | scooping (accumulated : List A) (totalOps : ℕ)
  | draining (all : List A)
  /-- `process_jobs`, called from `drain_remaining` if `last`; the calls the current job has
  still to make -/
  | processing (current : Option (A × List (JobCall π))) (jobs : List A) (last : Bool)
  | acking
  | exited

namespace Dispatcher

variable {A π : Type}

/-- The jobs the thread has taken and not finished. -/
def inHand : Dispatcher A π → List A
  | .scooping accumulated _ => accumulated
  | .draining all => all
  | .processing current jobs _ => (current.map Prod.fst).toList ++ jobs
  | _ => []

/-- The thread has its receivers. -/
def receiving : Dispatcher A π → Bool
  | .unspawned | .exited => false
  | _ => true

/-- The thread takes no more jobs. -/
def final : Dispatcher A π → Bool
  | .processing _ _ last => last
  | .acking | .exited => true
  | _ => false

end Dispatcher

/-- `Shard` and `ShardThread` with the thread itself. The log has the calls of its jobs; the
lists that follow are history: the jobs that entered the queue, that were finished, that were
dropped with the channel, and how many had entered when the drain ended. -/
structure Shard (A π : Type) where
  lock : Option A
  running : Bool
  dispatcher : Dispatcher A π
  queue : List A
  signalled : Bool
  closed : Bool
  log : List (A × JobCall π)
  entered : List A
  finished : List A
  lost : List A
  drained : Option ℕ

/-- No receiver is left. -/
def Shard.disconnected {A π : Type} (sh : Shard A π) : Bool :=
  sh.closed && !sh.dispatcher.receiving

/-- `Shard::new`. -/
def Shard.new {A π : Type} : Shard A π :=
  ⟨none, false, .unspawned, [], false, false, [], [], [], [], none⟩

/-- The `OnceLock` and the phases of `drop`. -/
inductive Fleet (A : Type) where
  | unset
  | filling (a : A) (idx : ℕ)
  | ready
  | signalling (idx : ℕ)
  | closing (idx : ℕ)
  | taken

/-- `drop` has come to its second step. -/
def Fleet.closes {A : Type} : Fleet A → Bool
  | .closing _ | .taken => true
  | _ => false

structure Pipeline (A π : Type) where
  fleet : Fleet A
  shard : ℕ → Shard A π
  stage : A → Stage
  response : A → Response

namespace Pipeline

variable {A π : Type}

/-- `Pipeline::new`. -/
def new : Pipeline A π := ⟨.unset, fun _ => .new, fun _ => .idle, fun _ => .pending⟩

variable [DecidableEq A]

def goto (s : Pipeline A π) (a : A) (p : Stage) : Pipeline A π :=
  { s with stage := Function.update s.stage a p }

def setShard (s : Pipeline A π) (k : ℕ) (sh : Shard A π) : Pipeline A π :=
  { s with shard := Function.update s.shard k sh }

/-! ### Callers (mod.rs:202-389) -/

section

variable (e : Setting A π) (s : Pipeline A π) (a : A)

/-- The shard has a dispatcher: go on with the send. -/
def send : Stage := if e.isAsync a then .trying else .sending

/-- `ensure_running` (`mod.rs:202-236`); `spawns` says what the operating system does. -/
def nextEnsure (spawns : Bool) : Option (Pipeline A π) :=
  let k := e.shardOf a
  let sh := s.shard k
  match s.fleet with
  | .ready =>
    match s.stage a with
    | .checking => some (s.goto a (if sh.running then send e a else .locking))
    | .locking =>
      if sh.lock.isNone then
        some ((s.setShard k { sh with lock := some a }).goto a .rechecking)
      else none
    | .rechecking =>
      if sh.running then some ((s.setShard k { sh with lock := none }).goto a (send e a))
      else some (s.goto a .spawning)
    | .spawning =>
      if spawns then some ((s.setShard k { sh with dispatcher := .waiting }).goto a .marking)
      else some ((s.setShard k { sh with lock := none }).goto a (.returned (.error shutdownErr)))
    | .marking =>
      some ((s.setShard k { sh with running := true, lock := none }).goto a (send e a))
    | _ => none
  | _ => none

/-- `dispatcher_sender` up to `ensure_running` (`mod.rs:370-384`). -/
def nextStart (spawns : Bool) : Option (Pipeline A π) :=
  match s.stage a with
  | .idle => some (s.goto a .starting)
  | .starting =>
    match s.fleet with
    | .unset => some ({ s with fleet := .filling a 0 }.goto a .initialising)
    | .ready =>
      some (s.goto a (if e.shardOf a < e.shards then .checking
        else .returned (.error shutdownErr)))
    | _ => none
  | .initialising =>
    match s.fleet with
    | .filling b idx =>
      if b = a then
        if idx < e.shards then
          let sh := s.shard idx
          let sh' := if spawns then { sh with dispatcher := .waiting, running := true } else sh
          some { s.setShard idx sh' with fleet := .filling a (idx + 1) }
        else some ({ s with fleet := .ready }.goto a .starting)
      else none
    | _ => none
  | _ => none

/-- The job enters the queue of its shard. -/
def enter : Pipeline A π :=
  let k := e.shardOf a
  let sh := s.shard k
  (s.setShard k { sh with queue := sh.queue ++ [a], entered := sh.entered ++ [a] }).goto a
    (s.stage a).sent

/-- `send`, `try_send` and the blocking task (`mod.rs:279-281, 326-343`). -/
def nextSend : Option (Pipeline A π) :=
  let sh := s.shard (e.shardOf a)
  if (s.stage a).offering then
    if sh.disconnected then some (s.goto a (s.stage a).refused)
    else if sh.queue.length < e.config.batchQueueMax then some (s.enter e a)
    else match s.stage a with
      -- `Full`: the send moves to the blocking pool
      | .trying => some (s.goto a .blocking)
      | _ => none
  else none

/-- The end of the wait for the response. -/
def nextAwait : Option (Pipeline A π) :=
  match s.stage a with
  | .awaiting =>
    match s.response a with
    | .answered r => some (s.goto a (.returned r))
    | .dropped => some (s.goto a (.returned (.error shutdownErr)))
    | .pending => none
  | _ => none

/-- The future is dropped at one of its awaits. -/
def nextCancel : Option (Pipeline A π) :=
  if e.isAsync a then
    match s.stage a with
    | .blocking => some (s.goto a .detached)
    | .awaiting => some (s.goto a .gone)
    | _ => none
  else none

/-- The runtime drops a blocking task that has not started. -/
def nextAbort : Option (Pipeline A π) :=
  match s.stage a with
  | .blocking => some (s.goto a (s.stage a).refused)
  | .detached => some (s.goto a (s.stage a).refused)
  | _ => none

end

/-! ### Dispatchers (group.rs:155-227) -/

end Pipeline

namespace Shard

variable {A π : Type} (e : Setting A π) (sh : Shard A π)

/-- `recv` or `try_recv` of a job. -/
def take : Option (Shard A π) :=
  match sh.queue with
  | [] => none
  | a :: rest =>
    match sh.dispatcher with
    | .waiting =>
      some { sh with queue := rest, dispatcher := .scooping [a] (e.job a).ops.length }
    | .scooping accumulated totalOps =>
      if totalOps < e.config.batchSizeMax then
        some { sh with
          queue := rest
          dispatcher := .scooping (accumulated ++ [a])
            (saturatingAdd totalOps (e.job a).ops.length) }
      else none
    | .draining all => some { sh with queue := rest, dispatcher := .draining (all ++ [a]) }
    | _ => none

/-- The shutdown branch of `select!`: a message, or the sender is gone. -/
def shutdown : Option (Shard A π) :=
  match sh.dispatcher with
  | .waiting =>
    if sh.signalled || sh.closed then some { sh with dispatcher := .draining [] } else none
  | _ => none

/-- The other steps of the thread, except for the calls of a job. -/
def pass [LinearOrder π] : Option (Shard A π) :=
  match sh.dispatcher with
  -- all senders are dropped
  | .waiting =>
    if sh.closed && sh.queue.isEmpty then some { sh with dispatcher := .acking } else none
  | .scooping accumulated totalOps =>
    if totalOps < e.config.batchSizeMax && !sh.queue.isEmpty then none
    else some { sh with dispatcher := .processing none accumulated false }
  | .draining all =>
    if sh.queue.isEmpty then
      some { sh with
        drained := some sh.entered.length
        dispatcher := if all.isEmpty then .acking else .processing none all true }
    else none
  | .processing none (a :: jobs) last =>
    some { sh with dispatcher := .processing (some (a, e.calls a)) jobs last }
  | .processing none [] last => some { sh with dispatcher := if last then .acking else .waiting }
  | .acking => some { sh with dispatcher := .exited }
  | _ => none

/-- The current job makes its next call; the last one ends it. -/
def call (a : A) (c : JobCall π) (rest : List (JobCall π)) (jobs : List A) (last : Bool) :
    Shard A π :=
  { sh with
    log := sh.log ++ [(a, c)]
    dispatcher := .processing (if rest.isEmpty then none else some (a, rest)) jobs last
    finished := if rest.isEmpty then sh.finished ++ [a] else sh.finished }

/-- The channel lets go of the jobs in it. -/
def discard : Shard A π := { sh with queue := [], lost := sh.lost ++ sh.queue }

end Shard

namespace Pipeline

variable {A π : Type} [DecidableEq A]

section

variable (e : Setting A π) (s : Pipeline A π) (k : ℕ)

def nextTake : Option (Pipeline A π) := ((s.shard k).take e).map (s.setShard k)

/-- A queue of capacity 0: `try_send` needs a receiver that waits, `try_recv` a sender that
does. -/
def meets (p : Stage) (d : Dispatcher A π) : Bool :=
  match p with
  | .trying =>
    match d with
    | .waiting => true
    | _ => false
  | _ => p.offering

def nextHandOff (a : A) : Option (Pipeline A π) :=
  if e.config.batchQueueMax = 0 ∧ e.shardOf a = k ∧
      meets (s.stage a) (s.shard k).dispatcher = true then
    (s.enter e a).nextTake e k
  else none

def nextCall : Option (Pipeline A π) :=
  match (s.shard k).dispatcher with
  | .processing (some (a, c :: rest)) jobs last =>
    let s' := s.setShard k ((s.shard k).call a c rest jobs last)
    match c with
    -- the response channel has room, and whether anybody listens does not matter
    | .sent r => some { s' with response := Function.update s.response a (.answered r) }
    | _ => some s'
  | _ => none

def nextDiscard : Option (Pipeline A π) :=
  if (s.shard k).disconnected then
    some { s.setShard k (s.shard k).discard with
      response := fun a => if a ∈ (s.shard k).queue then .dropped else s.response a }
  else none

/-- `drop` (`mod.rs:437-483`). The wait for a thread ends with its ack or after 5 s, so at any
moment. -/
def nextDrop : Option (Pipeline A π) :=
  match s.fleet with
  | .unset => some { s with fleet := .taken }
  | .ready => some { s with fleet := .signalling 0 }
  | .signalling idx =>
    if idx < e.shards then
      some { s.setShard idx { s.shard idx with signalled := true } with
        fleet := .signalling (idx + 1) }
    else some { s with fleet := .closing 0 }
  | .closing idx =>
    if idx < e.shards then
      some { s.setShard idx { s.shard idx with closed := true } with fleet := .closing (idx + 1) }
    else some { s with fleet := .taken }
  | _ => none

end

/-! ### Steps -/

inductive Action (A : Type) where
  | start (a : A) (spawns : Bool)
  | ensure (a : A) (spawns : Bool)
  | send (a : A)
  | await (a : A)
  | cancel (a : A)
  | abort (a : A)
  | take (k : ℕ)
  | handOff (k : ℕ) (a : A)
  | shutdown (k : ℕ)
  | pass (k : ℕ)
  | call (k : ℕ)
  | discard (k : ℕ)
  | drop

def next [LinearOrder π] (e : Setting A π) (s : Pipeline A π) : Action A → Option (Pipeline A π)
  | .start a spawns => s.nextStart e a spawns
  | .ensure a spawns => s.nextEnsure e a spawns
  | .send a => s.nextSend e a
  | .await a => s.nextAwait a
  | .cancel a => s.nextCancel e a
  | .abort a => s.nextAbort a
  | .take k => s.nextTake e k
  | .handOff k a => s.nextHandOff e k a
  | .shutdown k => (s.shard k).shutdown.map (s.setShard k)
  | .pass k => ((s.shard k).pass e).map (s.setShard k)
  | .call k => s.nextCall k
  | .discard k => s.nextDiscard k
  | .drop => s.nextDrop e

end Pipeline

end Fsys.Lane
