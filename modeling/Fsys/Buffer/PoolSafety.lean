import Fsys.Buffer.Pool
import Mathlib.Algebra.Order.BigOperators.Group.Multiset
import Mathlib.Tactic.Abel

/-!
# Conservation in the buffer pool (src/buffer/pool.rs:135-234)

Each allocation is in the queue, with a user or in the hand of one caller, and `allocated`
counts the allocations and the reservations without one. What a caller does to its own
hand and to the shared state balances; the sum over the callers follows.
-/

namespace Fsys.Buffer
open Fsys.Base

variable {A B : Type}

/-! ### What a caller holds -/

/-- The allocation in the hand of a caller: on its way to a user or back. -/
def Phase.raw : Phase B → Option B
  | .handing raw => some raw
  | .pushing raw => some raw
  | .freeing raw => some raw
  | _ => none

def Phase.inHand (ph : Phase B) : Bool := ph.raw.isSome

/-- A slot that is counted and has no allocation: pending, or to be given back. -/
def Phase.reserved : Phase B → Bool
  | .allocating => true
  | .rollingBack => true
  | .releasing => true
  | _ => false

def Phase.holdsLock : Phase B → Bool
  | .checking => true
  | .comparing => true
  | .waiting => true
  | .unlocking => true
  | _ => false

/-- Behind a push that the queue refused. -/
def Phase.refused : Phase B → Bool
  | .freeing _ => true
  | .releasing => true
  | _ => false

def Phase.hand (ph : Phase B) : Multiset B := ph.raw.toList

theorem Phase.card_hand (ph : Phase B) : ph.hand.card = ph.inHand.toNat := by
  unfold Phase.hand Phase.inHand
  cases ph.raw <;> rfl

/-- The allocations in the queue and with users. -/
def Shared.kept (sh : Shared B) : Multiset B := (sh.free : Multiset B) + sh.leased

section Local

variable {p : Pool} {sh sh' : Shared B} {c : Choice B} {ph ph' : Phase B}

/-- What a caller may rely on when it takes a step. -/
structure Ready (p : Pool) (sh : Shared B) (ph : Phase B) : Prop where
  hand : ph.hand ≤ sh.live.val
  counted : ph.reserved.toNat ≤ sh.allocated
  bounded : sh.allocated ≤ p.capacity
  seen : ∀ k, ph = .exchanging k → k < p.capacity
  room : ∀ raw, ph = .pushing raw → sh.free.length < p.capacity
  accepted : ph.refused = false
  lock : ph.holdsLock = true → sh.locked = true

/-- What a step of a caller does to the accounts. -/
structure Balanced (p : Pool) (sh sh' : Shared B) (ph ph' : Phase B) : Prop where
  hand : sh'.kept + ph'.hand + sh.live.val = sh.kept + ph.hand + sh'.live.val
  counted : sh'.allocated + (sh.live.card + ph.reserved.toNat) =
    sh.allocated + (sh'.live.card + ph'.reserved.toNat)
  bounded : sh'.allocated ≤ p.capacity
  seen : ∀ k, ph' = .exchanging k → k < p.capacity
  accepted : ph'.refused = false
  lock : sh'.locked.toNat + ph.holdsLock.toNat = sh.locked.toNat + ph'.holdsLock.toNat

theorem fetchSub_eq {n : ℕ} (hpos : 0 < n) (hlt : n < 2 ^ 64) : fetchSub n = n - 1 := by
  unfold fetchSub
  omega

/-- Nothing that is shared changes, and the caller keeps what it holds. -/
theorem Balanced.of_same (h : Ready p sh ph) (hraw : ph'.raw = ph.raw)
    (hres : ph'.reserved = ph.reserved) (hlock : ph'.holdsLock = ph.holdsLock)
    (hseen : ∀ k, ph' = .exchanging k → k < p.capacity) (hacc : ph'.refused = false) :
    Balanced p sh sh ph ph' where
  hand := by rw [Phase.hand, Phase.hand, hraw]
  counted := by rw [hres]
  bounded := h.bounded
  seen := hseen
  accepted := hacc
  lock := by rw [hlock]

/-- Allocations change hands; the counter, the lock and the allocator do not change. -/
theorem Balanced.of_moved {free leased : List B} (h : Ready p sh ph)
    (hmoved : (free : Multiset B) + leased + ph'.hand = sh.kept + ph.hand)
    (hres : ph'.reserved = ph.reserved) (hlock : ph'.holdsLock = ph.holdsLock)
    (hseen : ∀ k, ph' ≠ .exchanging k) (hacc : ph'.refused = false) :
    Balanced p sh { sh with free := free, leased := leased } ph ph' where
  hand := by
    rw [Shared.kept, hmoved]
  counted := by rw [hres]
  bounded := h.bounded
  seen := fun k hk => absurd hk (hseen k)
  accepted := hacc
  lock := by rw [hlock]

/-- The lock is taken or let go. -/
theorem Balanced.of_lock {locked : Bool} (h : Ready p sh ph) (hraw : ph'.raw = ph.raw)
    (hres : ph'.reserved = ph.reserved)
    (hlock : locked.toNat + ph.holdsLock.toNat = sh.locked.toNat + ph'.holdsLock.toNat)
    (hseen : ∀ k, ph' ≠ .exchanging k) (hacc : ph'.refused = false) :
    Balanced p sh { sh with locked := locked } ph ph' where
  hand := by rw [Phase.hand, Phase.hand, hraw]; rfl
  counted := by rw [hres]
  bounded := h.bounded
  seen := fun k hk => absurd hk (hseen k)
  accepted := hacc
  lock := hlock

/-- The counter moves with the reservation of the caller. -/
theorem Balanced.of_counter {n : ℕ} (hraw : ph'.raw = ph.raw)
    (hcount : n + ph.reserved.toNat = sh.allocated + ph'.reserved.toNat) (hn : n ≤ p.capacity)
    (hlock : ph'.holdsLock = ph.holdsLock)
    (hseen : ∀ k, ph' ≠ .exchanging k) (hacc : ph'.refused = false) :
    Balanced p sh { sh with allocated := n } ph ph' where
  hand := by rw [Phase.hand, Phase.hand, hraw]; rfl
  counted := by
    dsimp only
    omega
  bounded := hn
  seen := fun k hk => absurd hk (hseen k)
  accepted := hacc
  lock := by rw [hlock]

variable [DecidableEq B]

theorem go_balanced (h : Ready p sh ph) (hstep : go p sh ph = some (sh', ph')) :
    Balanced p sh sh' ph ph' := by
  have hbounded := h.bounded
  have hcap := p.capacity_lt
  cases ph with
  | popping =>
    simp only [go] at hstep
    split at hstep
    · rename_i raw rest hfree
      cases hstep
      refine .of_moved h ?_ rfl rfl (by simp) rfl
      rw [Shared.kept, hfree, ← Multiset.cons_coe, ← Multiset.singleton_add]
      show (rest : Multiset B) + sh.leased + {raw} = {raw} + rest + sh.leased + 0
      abel
    · cases hstep
      exact .of_same h rfl rfl rfl (by simp) rfl
  | loading =>
    simp only [go] at hstep
    split at hstep
    · rename_i hlt
      cases hstep
      refine .of_same h rfl rfl rfl ?_ rfl
      intro k hk
      cases hk
      exact hlt
    · cases hstep
      exact .of_same h rfl rfl rfl (by simp) rfl
  | exchanging seen =>
    simp only [go] at hstep
    split at hstep
    · rename_i heq
      cases hstep
      have hlt := h.seen seen rfl
      refine .of_counter rfl ?_ hlt rfl (by simp) rfl
      rw [heq]
      rfl
    · cases hstep
      exact .of_same h rfl rfl rfl (by simp) rfl
  | rollingBack =>
    simp only [go, Option.some.injEq, Prod.mk.injEq] at hstep
    obtain ⟨rfl, rfl⟩ := hstep
    have hpos : 1 ≤ sh.allocated := h.counted
    rw [fetchSub_eq hpos (by omega)]
    refine .of_counter rfl ?_ (by omega) rfl (by simp) rfl
    simp only [Phase.reserved, Bool.toNat_false, Bool.toNat_true]
    omega
  | handing raw =>
    cases hstep
    refine .of_moved h ?_ rfl rfl (by simp) rfl
    rw [Shared.kept, ← Multiset.cons_coe, ← Multiset.singleton_add]
    show (sh.free : Multiset B) + ({raw} + sh.leased) + 0 = sh.free + sh.leased + {raw}
    abel
  | locking =>
    simp only [go] at hstep
    split at hstep
    · cases hstep
    · rename_i hfree
      cases hstep
      refine .of_lock h rfl rfl ?_ (by simp) rfl
      simp [Phase.holdsLock, hfree]
  | checking =>
    simp only [go] at hstep
    split at hstep <;>
    · cases hstep
      exact .of_same h rfl rfl rfl (by simp) rfl
  | comparing =>
    simp only [go] at hstep
    split at hstep <;>
    · cases hstep
      exact .of_same h rfl rfl rfl (by simp) rfl
  | waiting =>
    cases hstep
    refine .of_lock h rfl rfl ?_ (by simp) rfl
    simp [Phase.holdsLock, h.lock rfl]
  | woken =>
    simp only [go] at hstep
    split at hstep
    · cases hstep
    · rename_i hfree
      cases hstep
      refine .of_lock h rfl rfl ?_ (by simp) rfl
      simp [Phase.holdsLock, hfree]
  | unlocking =>
    cases hstep
    refine .of_lock h rfl rfl ?_ (by simp) rfl
    simp [Phase.holdsLock, h.lock rfl]
  | pushing raw =>
    simp only [go] at hstep
    rw [if_pos (h.room raw rfl)] at hstep
    cases hstep
    refine .of_moved h ?_ rfl rfl (by simp) rfl
    rw [Shared.kept, ← Multiset.coe_add]
    show (sh.free : Multiset B) + {raw} + sh.leased + 0 = sh.free + sh.leased + {raw}
    abel
  | freeing raw => cases h.accepted
  | releasing => cases h.accepted
  | idle => cases hstep
  | allocating => cases hstep
  | notifying => cases hstep
  | parked => cases hstep

theorem advance_balanced (h : Ready p sh ph) (hstep : advance p sh ph c = some (sh', ph')) :
    Balanced p sh sh' ph ph' := by
  rcases advance_cases hstep with hgo | ⟨rfl, rfl, rfl⟩ | ⟨raw, hmem, rfl, rfl, rfl⟩ |
    ⟨rfl, rfl, rfl⟩ | ⟨raw, hfresh, rfl, rfl, rfl⟩ | ⟨rfl, rfl, rfl⟩
  · exact go_balanced h hgo
  · exact .of_same h rfl rfl rfl (by simp) rfl
  · refine .of_moved h ?_ rfl rfl (by simp) rfl
    have hleased : (sh.leased : Multiset B) = {raw} + (sh.leased.erase raw : Multiset B) := by
      rw [← Multiset.coe_erase, Multiset.singleton_add, Multiset.cons_erase hmem]
    rw [Shared.kept, hleased]
    show (sh.free : Multiset B) + sh.leased.erase raw + {raw} =
      sh.free + ({raw} + (sh.leased.erase raw : Multiset B)) + 0
    abel
  · exact .of_same h rfl rfl rfl (by simp) rfl
  · refine ⟨?_, ?_, h.bounded, by simp, rfl, rfl⟩
    · rw [Finset.insert_val_of_notMem hfresh, ← Multiset.singleton_add]
      show sh.kept + {raw} + sh.live.val = sh.kept + 0 + ({raw} + sh.live.val)
      abel
    · simp only [Finset.card_insert_of_notMem hfresh, Phase.reserved, Bool.toNat_false,
        Bool.toNat_true]
  · exact .of_same h rfl rfl rfl (by simp) rfl

end Local

/-! ### The invariant -/

section Run

variable [Fintype A] {p : Pool} {s s' : PoolState A B}

structure PoolInv (p : Pool) (s : PoolState A B) : Prop where
  held : s.shared.kept + ∑ a, (s.pc a).hand = s.shared.live.val
  counted : s.shared.allocated = s.shared.live.card + tally Phase.reserved s.pc
  bounded : s.shared.allocated ≤ p.capacity
  seen : ∀ a k, s.pc a = .exchanging k → k < p.capacity
  accepted : ∀ a, (s.pc a).refused = false
  lock : tally Phase.holdsLock s.pc = s.shared.locked.toNat

theorem poolInv_new (p : Pool) : PoolInv p (PoolState.new : PoolState A B) where
  held := by
    show (0 : Multiset B) + ∑ _ : A, 0 = 0
    rw [Finset.sum_const_zero, add_zero]
  counted := by
    show 0 = 0 + ∑ _ : A, 0
    rw [Finset.sum_const_zero, add_zero]
  bounded := Nat.zero_le _
  seen := by simp [PoolState.new]
  accepted := fun _ => rfl
  lock := by
    show ∑ _ : A, 0 = 0
    rw [Finset.sum_const_zero]

theorem PoolInv.kept_hand_le (h : PoolInv p s) (a : A) :
    s.shared.kept + (s.pc a).hand ≤ s.shared.live.val := by
  rw [← h.held]
  have hsum : (s.pc a).hand ≤ ∑ b, (s.pc b).hand :=
    Finset.single_le_sum (f := fun b => (s.pc b).hand) (fun _ _ => Multiset.zero_le _)
      (Finset.mem_univ a)
  exact Multiset.add_le_add_left hsum

/-- The queue has room for what comes back. -/
theorem PoolInv.room (h : PoolInv p s) {a : A} {raw : B} (ha : s.pc a = .pushing raw) :
    s.shared.free.length < p.capacity := by
  have hcard := Multiset.card_le_card (h.kept_hand_le a)
  rw [Multiset.card_add, Phase.card_hand, ha] at hcard
  have hkept : s.shared.kept.card = s.shared.free.length + s.shared.leased.length := by
    simp [Shared.kept]
  have hone : (Phase.pushing raw).inHand.toNat = 1 := rfl
  have hcounted := h.counted
  have hbounded := h.bounded
  have hlive : s.shared.live.val.card = s.shared.live.card := rfl
  omega

theorem PoolInv.ready (h : PoolInv p s) (a : A) : Ready p s.shared (s.pc a) where
  hand := (Multiset.le_add_left _ _).trans (h.kept_hand_le a)
  counted := by
    have hle := le_tally Phase.reserved s.pc a
    have hcounted := h.counted
    omega
  bounded := h.bounded
  seen := h.seen a
  room := fun _ => h.room
  accepted := h.accepted a
  lock := by
    intro hlock
    have hle := le_tally Phase.holdsLock s.pc a
    rw [hlock, h.lock] at hle
    cases hs : s.shared.locked with
    | true => rfl
    | false =>
      rw [hs] at hle
      exact absurd hle (by decide)

theorem card_hands (pc : A → Phase B) : (∑ a, (pc a).hand).card = tally Phase.inHand pc := by
  rw [Multiset.card_sum]
  exact Finset.sum_congr rfl fun a _ => (pc a).card_hand

section Count

variable [DecidableEq B]

/-- How many times an allocation is in the queue, with a user or in the hand of a caller. -/
def holders (s : PoolState A B) (raw : B) : ℕ :=
  s.shared.free.count raw + s.shared.leased.count raw +
    tally (fun ph => decide (ph.raw = some raw)) s.pc

theorem Phase.count_hand (ph : Phase B) (raw : B) :
    ph.hand.count raw = (decide (ph.raw = some raw)).toNat := by
  unfold Phase.hand
  cases ph.raw with
  | none => simp
  | some x => by_cases hx : raw = x <;> simp [hx, eq_comm]

theorem holders_eq_count (s : PoolState A B) (raw : B) :
    holders s raw = (s.shared.kept + ∑ a, (s.pc a).hand).count raw := by
  rw [Multiset.count_add, Multiset.count_sum', Shared.kept, Multiset.count_add,
    Multiset.coe_count, Multiset.coe_count]
  unfold holders tally
  rw [Finset.sum_congr rfl fun a _ => (s.pc a).count_hand raw]

end Count

variable [DecidableEq A]

/-- A caller takes a step that balances. -/
theorem PoolInv.move (h : PoolInv p s) {a : A} {sh' : Shared B} {ph' : Phase B}
    (hb : Balanced p s.shared sh' (s.pc a) ph') : PoolInv p ⟨sh', Function.update s.pc a ph'⟩ where
  held := by
    have hsum := sum_update Phase.hand s.pc a ph'
    refine add_right_cancel (b := (s.pc a).hand + s.shared.live.val) ?_
    calc sh'.kept + ∑ b, (Function.update s.pc a ph' b).hand +
          ((s.pc a).hand + s.shared.live.val)
        = sh'.kept + (∑ b, (Function.update s.pc a ph' b).hand + (s.pc a).hand) +
            s.shared.live.val := by abel
      _ = sh'.kept + ph'.hand + s.shared.live.val + ∑ b, (s.pc b).hand := by
        rw [hsum]
        abel
      _ = sh'.live.val + ((s.pc a).hand + (s.shared.kept + ∑ b, (s.pc b).hand)) := by
        rw [hb.hand]
        abel
      _ = sh'.live.val + ((s.pc a).hand + s.shared.live.val) := by rw [h.held]
  counted := by
    have hsum := tally_update Phase.reserved s.pc a ph'
    have hcounted := h.counted
    have hbalance := hb.counted
    dsimp only
    omega
  bounded := hb.bounded
  seen := by
    exact (Function.forall_update_iff s.pc
      fun _ ph => ∀ k, ph = .exchanging k → k < p.capacity).mpr ⟨hb.seen, fun b _ => h.seen b⟩
  accepted := by
    exact (Function.forall_update_iff s.pc fun _ ph => ph.refused = false).mpr
      ⟨hb.accepted, fun b _ => h.accepted b⟩
  lock := by
    have hsum := tally_update Phase.holdsLock s.pc a ph'
    have hlock := h.lock
    have hbalance := hb.lock
    dsimp only
    omega

/-- A notification is issued. -/
theorem PoolInv.notified (h : PoolInv p s) {a : A} (ha : s.pc a = .notifying) :
    PoolInv p ⟨s.shared, Function.update s.pc a .idle⟩ := by
  have hready := h.ready a
  refine h.move ?_
  rw [ha] at hready ⊢
  exact .of_same hready rfl rfl rfl (by simp) rfl

variable [DecidableEq B]

theorem PoolInv.next {act : Action A B} (h : PoolInv p s) (hn : next p s act = some s') :
    PoolInv p s' := by
  rcases next_cases hn with ⟨a, choice, shared, phase, rfl, hstep, rfl⟩ | ⟨a, rfl, ha, -, rfl⟩ |
    ⟨a, b, rfl, ha, hb, hne, rfl⟩
  · exact h.move (advance_balanced (h.ready a) hstep)
  · exact h.notified ha
  · have hready := h.ready b
    have hwoken : PoolInv p ⟨s.shared, Function.update s.pc b .woken⟩ := by
      refine h.move ?_
      rw [hb] at hready ⊢
      exact .of_same hready rfl rfl rfl (by simp) rfl
    refine hwoken.notified ?_
    dsimp only
    rw [Function.update_of_ne hne, ha]

theorem Reached.poolInv (h : Reached p s) : PoolInv p s :=
  h.invariant (poolInv_new p) fun _ _ _ ht _ hn => ht.next hn

/-! ### Conservation -/

/-- Whatever the callers do, `allocated` is within the capacity and counts the allocations
and the reservations, a push finds room, and no allocation has two holders. -/
theorem pool_conserves (p : Pool) (s : PoolState A B) (h : Reached p s) :
    s.shared.allocated ≤ p.capacity ∧
    s.shared.allocated = s.shared.free.length + s.shared.leased.length +
      tally Phase.inHand s.pc + tally Phase.reserved s.pc ∧
    (∀ a raw, s.pc a = .pushing raw → go p s.shared (s.pc a) =
      some ({ s.shared with free := s.shared.free ++ [raw] }, .notifying)) ∧
    (∀ a, (s.pc a).refused = false) ∧
    ∀ raw, holders s raw ≤ 1 := by
  have hinv := h.poolInv
  refine ⟨hinv.bounded, ?_, ?_, hinv.accepted, ?_⟩
  · have hcard := congrArg Multiset.card hinv.held
    rw [Multiset.card_add, card_hands, Shared.kept, Multiset.card_add, Multiset.coe_card,
      Multiset.coe_card] at hcard
    have hcounted := hinv.counted
    have hlive : s.shared.live.val.card = s.shared.live.card := rfl
    omega
  · intro a raw ha
    rw [ha, go, if_pos (hinv.room ha)]
  · intro raw
    rw [holders_eq_count, hinv.held]
    exact Multiset.nodup_iff_count_le_one.mp s.shared.live.nodup raw

end Run

theorem one_lt_word : 1 < 2 ^ 64 := by decide

def smallPool : Pool := ⟨1, 4096, 512, Nat.one_pos, one_lt_word⟩

/-- One caller leases a fresh buffer and drops it. -/
def leaseAndDrop : List (Action Bool ℕ) :=
  [.act true .lease, .act true .go, .act true .go, .act true .go, .act true (.alloc (some 7)),
    .act true .go, .act true (.drop 7)]

/-- The buffer that comes back finds room in the queue of the smallest pool. -/
theorem pool_conserves_return : ∃ s : PoolState Bool ℕ, Reached smallPool s ∧
    s.pc true = .pushing 7 ∧ s.shared.allocated = 1 ∧ holders s 7 ≤ 1 ∧
    go smallPool s.shared (s.pc true) = some ({ s.shared with free := [7] }, .notifying) := by
  obtain ⟨s, hrun, hpc, hone, hfree⟩ : ∃ s : PoolState Bool ℕ,
      run (next smallPool) leaseAndDrop PoolState.new = some s ∧ s.pc true = .pushing 7 ∧
        s.shared.allocated = 1 ∧ s.shared.free = [] := ⟨_, rfl, rfl, rfl, rfl⟩
  have hreached : Reached smallPool s := reach_of_run _ hrun fun _ _ => trivial
  obtain ⟨-, -, hpush, -, hholders⟩ := pool_conserves smallPool s hreached
  refine ⟨s, hreached, hpc, hone, hholders 7, ?_⟩
  have hroom := hpush true 7 hpc
  rwa [hfree] at hroom

end Fsys.Buffer
