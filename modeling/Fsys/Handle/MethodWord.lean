import Fsys.Base.Transition
import Fsys.Capability.Types
import Fsys.Crud.AtomicReplace

/-!
# The method word of a handle (src/handle.rs:150-166, 613-654, 1043-1068, src/method/)

A handle keeps its configured and its active method in one atomic word. `set_method`
stores both; an operation that the platform cannot serve as asked stores a fallback into
the active byte with a compare-exchange. The step function interleaves any number of
operations; each load, each answer of the platform and each exchange is a step.
-/

namespace Fsys.MethodWord

open Fsys.Base Fsys.Crud Fsys.Capability

/-! ### Methods (src/method/mod.rs:277-338, src/method/auto.rs) -/

inductive Os where
  | linux
  | macos
  | windows
  | other
  deriving DecidableEq, Repr

inductive DriveKind where
  | nvme
  | sataSsd
  | hdd
  | unknown
  deriving DecidableEq, Repr

/-- What the probes found; they run once in a process. `spdk` is `none` without the feature
and otherwise whether the host is eligible, with the first reason against it. -/
structure Host where
  os : Os
  kind : DriveKind
  ioUring : Bool
  spdk : Option (Bool × Option SpdkSkipReason)

def resolveAutoInner : Os → DriveKind → Bool → Method
  | .linux, .nvme, true => .direct
  | .linux, .nvme, false => .data
  | .linux, .sataSsd, _ => .data
  | .linux, .hdd, _ => .sync
  | .linux, .unknown, _ => .sync
  | .macos, .nvme, _ => .direct
  | .macos, .sataSsd, _ => .sync
  | .macos, .hdd, _ => .sync
  | .macos, .unknown, _ => .sync
  | .windows, .nvme, _ => .direct
  | .windows, .sataSsd, _ => .direct
  | .windows, .hdd, _ => .sync
  | .windows, .unknown, _ => .sync
  | .other, _, _ => .sync

def resolve (host : Host) (m : Method) : Method :=
  if m ≠ .auto then m else resolveAutoInner host.os host.kind host.ioUring

def toU8 : Method → BitVec 8
  | .sync => 0
  | .data => 1
  | .direct => 2
  | .mmap => 3
  | .journal => 4
  | .auto => 5
  | .spdk => 6

def fromU8 (v : BitVec 8) : Method :=
  match v.toNat with
  | 0 => .sync
  | 1 => .data
  | 2 => .direct
  | 3 => .mmap
  | 4 => .journal
  | 5 => .auto
  | 6 => .spdk
  | _ => .sync

def asStr : Method → String
  | .sync => "sync"
  | .data => "data"
  | .direct => "direct"
  | .mmap => "mmap"
  | .journal => "journal"
  | .auto => "auto"
  | .spdk => "spdk"

def isReserved (m : Method) : Bool := m = .journal

theorem resolveAutoInner_ne_auto (os : Os) (kind : DriveKind) (ioUring : Bool) :
    resolveAutoInner os kind ioUring ≠ .auto := by
  cases os <;> cases kind <;> cases ioUring <;> simp [resolveAutoInner]

theorem resolve_ne_auto (host : Host) (m : Method) : resolve host m ≠ .auto := by
  unfold resolve
  split
  · assumption
  · exact resolveAutoInner_ne_auto _ _ _

/-! ### Selecting a method (src/builder.rs:609-648) -/

inductive SelectError where
  | unsupportedMethod (method : String)
  | featureNotEnabled (feature : String)
  | spdkUnavailable (reason : SpdkSkipReason)

def checkMethodSelectable (host : Host) (m : Method) : Except SelectError Unit :=
  if isReserved m then .error (.unsupportedMethod (asStr m))
  else if m = .spdk then
    match host.spdk with
    | none => .error (.featureNotEnabled "spdk")
    | some (eligible, reason) =>
      if eligible then .error (.spdkUnavailable .spdkLibraryNotFound)
      else .error (.spdkUnavailable (reason.getD .notLinux))
  else .ok ()

/-! ### The word -/

abbrev Word := BitVec 16

/-- `pack_methods` (`handle.rs:1653-1655`). -/
def packMethods (configured active : Method) : Word :=
  ((toU8 configured).setWidth 16 <<< 8) ||| (toU8 active).setWidth 16

def methodOf (w : Word) : Method := fromU8 ((w >>> 8).setWidth 8)

def activeMethodOf (w : Word) : Method := fromU8 ((w &&& 0xFF).setWidth 8)

/-- The word `update_active_method` wants to store in the place of `cur`. -/
def withActive (cur : Word) (m : Method) : Word := (cur &&& 0xFF00) ||| (toU8 m).setWidth 16

def useDirect (w : Word) : Bool := activeMethodOf w = .direct

@[simp] theorem methodOf_packMethods (c a : Method) : methodOf (packMethods c a) = c := by
  cases c <;> cases a <;> rfl

@[simp] theorem activeMethodOf_packMethods (c a : Method) :
    activeMethodOf (packMethods c a) = a := by
  cases c <;> cases a <;> rfl

@[simp] theorem withActive_packMethods (c a m : Method) :
    withActive (packMethods c a) m = packMethods c m := by
  cases c <;> cases a <;> cases m <;> rfl

/-! ### Operations -/

/-- Calls that may end in a fallback; `read` stands for its own open, `writeCopy` and `write`
for the atomic replace. -/
inductive Op where
  | write
  | writeCopy
  | read
  | writeAsync
  deriving DecidableEq, Repr

/-- Where a call goes after the check for `Mmap`. -/
inductive After where
  | plan
  | flag
  deriving DecidableEq, Repr

/-- Where a call stands. `cur` is the word its `update_active_method` expects. -/
inductive Pc where
  | idle
  /-- `write_async` asks whether the native path serves it (`crud_file.rs:44`). -/
  | native
  /-- `file.rs:100`, `file.rs:277`. -/
  | mmap (after : After)
  /-- In `update_active_method(Sync)`. -/
  | unsuitable (after : After) (cur : Option Word)
  /-- Before `replace_plan` (`file.rs:521-527`). -/
  | plan
  /-- Before the load for the open of `read` and of the native write. -/
  | flag
  | replacing (useDirect : Bool)
  | opening (useDirect : Bool)
  /-- After that open, before the second load (`file.rs:289`, `crud_file.rs:271`). -/
  | opened (asked directOk : Bool)
  /-- In `update_active_method(Data)`. -/
  | refused (asked : Bool) (cur : Option Word)
  deriving DecidableEq, Repr

def Op.pc : Op → Pc
  | .write => .mmap .plan
  | .writeCopy => .plan
  | .read => .mmap .flag
  | .writeAsync => .native

def After.pc : After → Pc
  | .plan => .plan
  | .flag => .flag

/-- A load of the word. `answer` says whether the native path is there, or whether the payload
or the file suits the mapping. -/
def Pc.look (w : Word) (answer : Bool) : Pc → Option Pc
  | .native => some (if activeMethodOf w = .direct ∧ answer then .flag else .mmap .plan)
  | .mmap after =>
    some (if activeMethodOf w = .mmap then
        if answer then .idle else .unsuitable after none
      else after.pc)
  | .plan => some (.replacing (useDirect w))
  | .flag => some (.opening (useDirect w))
  | .opened asked directOk =>
    some (if useDirect w ∧ directOk = false then .refused asked none else .idle)
  | .unsuitable after none => some (.unsuitable after (some w))
  | .refused asked none => some (.refused asked (some w))
  | _ => none

/-- The open ends: `none` when it fails, otherwise whether the platform took the Direct flag. -/
def Pc.opens (r : Option Bool) : Pc → Option Pc
  | .replacing d =>
    some (match r with
      | none => .idle
      | some ok => if d && !(d && ok) then .refused d none else .idle)
  | .opening d =>
    some (match r with
      | none => .idle
      | some ok => .opened d (d && ok))
  | _ => none

/-- A fallback with the number of `set_method`s before its call began and whether the call had
asked for what it falls back from. -/
structure Fallback where
  method : Method
  began : ℕ
  asked : Bool
  deriving DecidableEq, Repr

/-- The exchange a call is about to make: the word it expects, the method it stores, whether the
call had asked for more, and where it goes on. -/
def Pc.exchange : Pc → Option (Word × Method × Bool × Pc)
  | .unsuitable after (some cur) => some (cur, .sync, true, after.pc)
  | .refused asked (some cur) => some (cur, .data, asked, .idle)
  | _ => none

/-- A failed exchange hands back the word that was there. -/
def Pc.expect (w : Word) : Pc → Pc
  | .unsuitable after _ => .unsuitable after (some w)
  | .refused asked _ => .refused asked (some w)
  | p => p

/-! ### The handle and its calls -/

variable (T : Type)

/-- `epoch` counts the `set_method`s, `began` is its value when the call of a thread began, and
`last` is the fallback since the last `set_method` that changed the active byte. -/
structure Sys where
  word : Word
  pc : T → Pc
  epoch : ℕ
  began : T → ℕ
  last : Option Fallback

inductive Action where
  | start (t : T) (op : Op)
  | setMethod (m : Method)
  | look (t : T) (answer : Bool)
  | opens (t : T) (r : Option Bool)
  | exchange (t : T) (spurious : Bool)

variable {T} [DecidableEq T]

namespace Sys

def method (s : Sys T) : Method := methodOf s.word

def activeMethod (s : Sys T) : Method := activeMethodOf s.word

def goto (s : Sys T) (t : T) (p : Pc) : Sys T := { s with pc := Function.update s.pc t p }

/-- `Builder::build`. -/
def build (host : Host) (m : Method) : Except SelectError (Sys T) := do
  checkMethodSelectable host m
  pure ⟨packMethods m (resolve host m), fun _ => .idle, 0, fun _ => 0, none⟩

/-- `set_method` (`handle.rs:648-654`). -/
def setMethod (host : Host) (s : Sys T) (m : Method) : Sys T :=
  match checkMethodSelectable host m with
  | .error _ => s
  | .ok () =>
    { s with word := packMethods m (resolve host m), epoch := s.epoch + 1, last := none }

/-- One turn of the loop of `update_active_method` (`handle.rs:1051-1062`). -/
def compareExchange (s : Sys T) (t : T) (spurious : Bool) : Option (Sys T) :=
  match (s.pc t).exchange with
  | none => none
  | some (cur, m, asked, after) =>
    if spurious ∨ cur ≠ s.word then some (s.goto t ((s.pc t).expect s.word))
    else
      some { s.goto t after with
        word := withActive cur m
        last := if m = s.activeMethod then s.last else some ⟨m, s.began t, asked⟩ }

def next (host : Host) (s : Sys T) : Action T → Option (Sys T)
  | .start t op =>
    if s.pc t = .idle then
      some { s.goto t op.pc with began := Function.update s.began t s.epoch }
    else none
  | .setMethod m => some (s.setMethod host m)
  | .look t answer => ((s.pc t).look s.word answer).map (s.goto t)
  | .opens t r => ((s.pc t).opens r).map (s.goto t)
  | .exchange t spurious => s.compareExchange t spurious

/-- An exchange is about to change the active byte for a call that a `set_method` overtook. -/
def Stale (s : Sys T) : Action T → Prop
  | .exchange t spurious =>
    ∃ cur m asked after, (s.pc t).exchange = some (cur, m, asked, after) ∧ spurious = false ∧
      cur = s.word ∧ m ≠ s.activeMethod ∧ s.began t ≠ s.epoch
  | _ => False

end Sys

end Fsys.MethodWord
