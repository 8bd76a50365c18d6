import Fsys.Platform
import Fsys.Base.Tally
import Fsys.Base.Transition
import Mathlib.Data.Finset.Insert

/-!
# The aligned buffer pool (src/buffer/pool.rs)

Any number of callers lease buffers and return them. They share the free queue, the counter
`allocated`, the mutex and the condition variable. Each access to one of these is a step of
one caller; only `notify_one` also moves another. A leased buffer may be dropped by any
caller. A poisoned mutex is taken like any other.
-/

namespace Fsys.Buffer
open Fsys.Base

/-- The configuration of a pool that was built. -/
structure Pool where
  capacity : ℕ
  blockSize : ℕ
  blockAlign : ℕ
  capacity_pos : 0 < capacity
  capacity_lt : capacity < 2 ^ 64

def poolError (detail : String) : Platform.Error := .alignmentRequired detail

/-- `AlignedBufferPool::new` (`pool.rs:55-95`). -/
def Pool.new (capacity blockSize blockAlign : UInt64) : Except Platform.Error Pool :=
  if blockAlign = 0 ∨ ¬ blockAlign.toNat.isPowerOfTwo then
    .error (poolError "buffer pool block_align must be a non-zero power of two")
  else if blockSize = 0 ∨ blockSize % blockAlign ≠ 0 then
    .error (poolError "buffer pool block_size must be a non-zero multiple of block_align")
  else if Platform.isizeMax < blockSize.toNat + (blockAlign.toNat - 1) then
    .error (poolError "buffer pool layout rejected by Layout::from_size_align")
  else if h : 0 < capacity.toNat then
    .ok ⟨capacity.toNat, blockSize.toNat, blockAlign.toNat, h, capacity.toNat_lt⟩
  else .error (poolError "buffer pool capacity must be > 0")

/-- Where a caller stands; `B` are the addresses of allocations. -/
inductive Phase (B : Type) where
  | idle
  -- `lease`
  | popping
  | loading
  | exchanging (seen : ℕ)
  | allocating
  | rollingBack
  | handing (raw : B)
  -- `wait_for_return`
  | locking
  | checking
  | comparing
  | waiting
  | parked
  | woken
  | unlocking
  -- `return_allocation`
  | pushing (raw : B)
  | freeing (raw : B)
  | releasing
  | notifying
  deriving DecidableEq

/-- What the callers share. `leased` are the buffers whose `AlignedBuffer` is with a user,
`live` the allocations that the allocator has given out for the pool. -/
structure Shared (B : Type) where
  free : List B
  allocated : ℕ
  locked : Bool
  leased : List B
  live : Finset B

/-- `fetch_sub(1, _)` on an `AtomicUsize`. -/
def fetchSub (n : ℕ) : ℕ := (n + (2 ^ 64 - 1)) % 2 ^ 64

section

variable {A B : Type} [DecidableEq B]

/-- The next step of a caller: `lease` (`pool.rs:135-178`), `wait_for_return`
(`pool.rs:180-196`) and `return_allocation` (`pool.rs:213-234`) up to the notification. -/
def go (p : Pool) (sh : Shared B) : Phase B → Option (Shared B × Phase B)
  | .popping =>
    match sh.free with
    | raw :: rest => some ({ sh with free := rest }, .handing raw)
    | [] => some (sh, .loading)
  | .loading =>
    if sh.allocated < p.capacity then some (sh, .exchanging sh.allocated)
    else some (sh, .locking)
  | .exchanging seen =>
    if sh.allocated = seen then some ({ sh with allocated := seen + 1 }, .allocating)
    else some (sh, .popping)
  | .rollingBack => some ({ sh with allocated := fetchSub sh.allocated }, .locking)
  | .handing raw => some ({ sh with leased := raw :: sh.leased }, .idle)
  | .locking => if sh.locked then none else some ({ sh with locked := true }, .checking)
  | .checking => if sh.free = [] then some (sh, .comparing) else some (sh, .unlocking)
  | .comparing => if sh.allocated < p.capacity then some (sh, .unlocking) else some (sh, .waiting)
  -- `wait` lets go of the mutex and parks in one step
  | .waiting => some ({ sh with locked := false }, .parked)
  | .woken => if sh.locked then none else some ({ sh with locked := true }, .unlocking)
  | .unlocking => some ({ sh with locked := false }, .popping)
  | .pushing raw =>
    if sh.free.length < p.capacity then some ({ sh with free := sh.free ++ [raw] }, .notifying)
    else some (sh, .freeing raw)
  | .freeing raw => some ({ sh with live := sh.live.erase raw }, .releasing)
  | .releasing => some ({ sh with allocated := fetchSub sh.allocated }, .notifying)
  -- a call is to be made, the allocator to answer, a notification to be given or awaited
  | .idle => none
  | .allocating => none
  | .notifying => none
  | .parked => none

/-- What a caller does where it has a choice, or what is done to it. -/
inductive Choice (B : Type) where
  | go
  | lease
  | drop (raw : B)
  | alloc (result : Option B)
  | wake

/-- One step of a caller. A buffer that is dropped is with a user, the allocator (`alloc_fresh`,
`pool.rs:198-211`) gives out no address in use, and a parked caller may wake by itself. -/
def advance (p : Pool) (sh : Shared B) (ph : Phase B) : Choice B → Option (Shared B × Phase B)
  | .go => go p sh ph
  | .lease => if ph = .idle then some (sh, .popping) else none
  | .drop raw =>
    if ph = .idle ∧ raw ∈ sh.leased then
      some ({ sh with leased := sh.leased.erase raw }, .pushing raw)
    else none
  | .alloc none => if ph = .allocating then some (sh, .rollingBack) else none
  | .alloc (some raw) =>
    if ph = .allocating ∧ raw ∉ sh.live then
      some ({ sh with live := insert raw sh.live }, .handing raw)
    else none
  | .wake => if ph = .parked then some (sh, .woken) else none

/-- What a caller does is to go on, to start a call, or to get an answer. -/
theorem advance_cases {p : Pool} {sh sh' : Shared B} {ph ph' : Phase B} {choice : Choice B}
    (h : advance p sh ph choice = some (sh', ph')) :
    go p sh ph = some (sh', ph') ∨
    (ph = .idle ∧ sh' = sh ∧ ph' = .popping) ∨
    (∃ raw ∈ sh.leased, ph = .idle ∧ sh' = { sh with leased := sh.leased.erase raw } ∧
      ph' = .pushing raw) ∨
    (ph = .allocating ∧ sh' = sh ∧ ph' = .rollingBack) ∨
    (∃ raw ∉ sh.live, ph = .allocating ∧ sh' = { sh with live := insert raw sh.live } ∧
      ph' = .handing raw) ∨
    (ph = .parked ∧ sh' = sh ∧ ph' = .woken) := by
  cases choice with
  | go => exact .inl h
  | lease =>
    simp only [advance, Option.ite_none_right_eq_some, Option.some.injEq, Prod.mk.injEq] at h
    obtain ⟨hph, rfl, rfl⟩ := h
    exact .inr (.inl ⟨hph, rfl, rfl⟩)
  | drop raw =>
    simp only [advance, Option.ite_none_right_eq_some, Option.some.injEq, Prod.mk.injEq] at h
    obtain ⟨⟨hph, hmem⟩, rfl, rfl⟩ := h
    exact .inr (.inr (.inl ⟨raw, hmem, hph, rfl, rfl⟩))
  | alloc result =>
    cases result with
    | none =>
      simp only [advance, Option.ite_none_right_eq_some, Option.some.injEq, Prod.mk.injEq] at h
      obtain ⟨hph, rfl, rfl⟩ := h
      exact .inr (.inr (.inr (.inl ⟨hph, rfl, rfl⟩)))
    | some raw =>
      simp only [advance, Option.ite_none_right_eq_some, Option.some.injEq, Prod.mk.injEq] at h
      obtain ⟨⟨hph, hfresh⟩, rfl, rfl⟩ := h
      exact .inr (.inr (.inr (.inr (.inl ⟨raw, hfresh, hph, rfl, rfl⟩))))
  | wake =>
    simp only [advance, Option.ite_none_right_eq_some, Option.some.injEq, Prod.mk.injEq] at h
    obtain ⟨hph, rfl, rfl⟩ := h
    exact .inr (.inr (.inr (.inr (.inr ⟨hph, rfl, rfl⟩))))

structure PoolState (A B : Type) where
  shared : Shared B
  pc : A → Phase B

def PoolState.new : PoolState A B := ⟨⟨[], 0, false, [], ∅⟩, fun _ => .idle⟩

/-- A step of one caller, or a `notify_one` that wakes the target, if there is one. -/
inductive Action (A B : Type) where
  | act (a : A) (choice : Choice B)
  | notify (a : A) (target : Option A)

variable [Fintype A] [DecidableEq A]

/-- `notify_one` wakes a parked caller when there is one, whichever it likes. -/
def next (p : Pool) (s : PoolState A B) : Action A B → Option (PoolState A B)
  | .act a choice =>
    match advance p s.shared (s.pc a) choice with
    | some (shared, phase) => some ⟨shared, Function.update s.pc a phase⟩
    | none => none
  | .notify a (some b) =>
    if s.pc a = .notifying ∧ s.pc b = .parked then
      some ⟨s.shared, Function.update (Function.update s.pc b .woken) a .idle⟩
    else none
  | .notify a none =>
    if s.pc a = .notifying ∧ ∀ b, s.pc b ≠ .parked then
      some ⟨s.shared, Function.update s.pc a .idle⟩
    else none

theorem next_cases {p : Pool} {s s' : PoolState A B} {act : Action A B}
    (h : next p s act = some s') :
    (∃ a choice shared phase, act = .act a choice ∧
      advance p s.shared (s.pc a) choice = some (shared, phase) ∧
      s' = ⟨shared, Function.update s.pc a phase⟩) ∨
    (∃ a, act = .notify a none ∧ s.pc a = .notifying ∧ (∀ b, s.pc b ≠ .parked) ∧
      s' = ⟨s.shared, Function.update s.pc a .idle⟩) ∨
    (∃ a b, act = .notify a (some b) ∧ s.pc a = .notifying ∧ s.pc b = .parked ∧ a ≠ b ∧
      s' = ⟨s.shared, Function.update (Function.update s.pc b .woken) a .idle⟩) := by
  cases act with
  | act a choice =>
    simp only [next] at h
    split at h
    · rename_i shared phase hstep
      cases h
      exact .inl ⟨a, choice, shared, phase, rfl, hstep, rfl⟩
    · cases h
  | notify a target =>
    cases target with
    | none =>
      simp only [next, Option.ite_none_right_eq_some, Option.some.injEq] at h
      obtain ⟨⟨ha, hnobody⟩, rfl⟩ := h
      exact .inr (.inl ⟨a, rfl, ha, hnobody, rfl⟩)
    | some b =>
      simp only [next, Option.ite_none_right_eq_some, Option.some.injEq] at h
      obtain ⟨⟨ha, hb⟩, rfl⟩ := h
      have hne : a ≠ b := by
        rintro rfl
        rw [ha] at hb
        cases hb
      exact .inr (.inr ⟨a, b, rfl, ha, hb, hne, rfl⟩)

/-- The states of the pool, whatever its callers do. -/
def Reached (p : Pool) (s : PoolState A B) : Prop :=
  Reach (next p) (fun _ => True) PoolState.new s

end

end Fsys.Buffer
