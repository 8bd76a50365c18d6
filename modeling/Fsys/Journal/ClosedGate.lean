import Fsys.Base.Owner
import Fsys.Base.Tally
import Fsys.Base.Transition

/-!
# The write gate itself (src/journal/gate.rs)

One word holds the closed bit and the flips, two counters the registrations by
parity, and a mutex the flipper. Every load, store and read-modify-write is one
step of one agent, in one total order; `wait_zero` loads until it reads zero. An
agent is a call: a thread or task in `try_enter`, `drain_below` or `close`, the
owner of a ticket or of a `ClosedGate`. The counters are integers, so that a
`leave` too many would show.
-/

namespace Fsys.Journal
open Fsys.Base

namespace WriteGate

/-- The epoch word. -/
abbrev Epoch := BitVec 64

/-- `CLOSED`. -/
def closedBit : Epoch := 1#64

/-- `FLIP`. -/
def flipStep : Epoch := 2#64

/-- `epoch & CLOSED != 0`. -/
def isClosed (e : Epoch) : Bool := e &&& closedBit != 0#64

/-- `parity` (`gate.rs:226-228`). -/
def parity (e : Epoch) : Bool := (e >>> 1) &&& 1#64 == 1#64

theorem isClosed_eq (e : Epoch) : isClosed e = e.getLsbD 0 := by
  have hnat : (e &&& 1#64).toNat = e.toNat % 2 := by
    rw [BitVec.toNat_and]
    exact Nat.and_one_is_mod e.toNat
  have hzero : e &&& 1#64 = 0#64 ↔ e.toNat % 2 = 0 := by
    rw [← BitVec.toNat_inj, hnat]
    rfl
  simp only [isClosed, closedBit, BitVec.getLsbD, Nat.testBit_zero, bne, beq_eq_decide, hzero]
  rcases Nat.mod_two_eq_zero_or_one e.toNat with h | h <;> simp [h]

theorem isClosed_or (e : Epoch) : isClosed (e ||| closedBit) = true := by
  rw [isClosed_eq]
  simp [closedBit]

theorem isClosed_and (e : Epoch) : isClosed (e &&& ~~~closedBit) = false := by
  rw [isClosed_eq]
  simp [closedBit]

theorem isClosed_flip (e : Epoch) : isClosed (e + flipStep) = isClosed e := by
  rw [isClosed_eq, isClosed_eq]
  simp only [BitVec.getLsbD, flipStep, BitVec.toNat_add, BitVec.toNat_ofNat, Nat.testBit_zero]
  congr 1
  have h : (e.toNat + 2 % 2 ^ 64) % 2 ^ 64 % 2 = e.toNat % 2 := by omega
  rw [h]

/-- Where an agent stands. -/
inductive Phase where
  /-- in no call of the gate -/
  | out
  | entering
  | loaded (e : Epoch)
  | counted (e : Epoch)
  | backing (e : Epoch)
  /-- the owner of a `WriteTicket` or a `DetachedTicket` -/
  | ticket (p : Bool)
  | drainLocked
  | drainFramed
  | draining (p : Bool)
  | drained
  | closeLocked
  | closeWait0
  | closeWait1
  /-- the owner of a `ClosedGate` -/
  | closed
  | reopened
  deriving DecidableEq

inductive Event where
  | tryEnter
  | loadEpoch
  | register
  | confirm
  | backOut
  | leave
  | lockDrain
  | readFrontier
  | flip
  | loadDrained
  | unlockDrain
  | lockClose
  | setClosed
  | loadClosed0
  | loadClosed1
  | reopen
  | unlockClose
  deriving DecidableEq

end WriteGate

/-- `WriteGate` (`gate.rs:53-62`) and its agents. -/
structure WriteGate (A : Type) where
  epoch : WriteGate.Epoch
  inFlight : Bool → ℤ
  flipper : Option A
  phase : A → WriteGate.Phase

namespace WriteGate

variable {A : Type} [DecidableEq A]

/-- `WriteGate::new`. -/
def new : WriteGate A := ⟨0#64, fun _ => 0, none, fun _ => .out⟩

def goto (s : WriteGate A) (a : A) (x : Phase) : WriteGate A :=
  { s with phase := Function.update s.phase a x }

/-- `fetch_add(n)` on a counter; `leave` (`gate.rs:166-168`) is the one of `-1`. -/
def count (s : WriteGate A) (p : Bool) (n : ℤ) : WriteGate A :=
  { s with inFlight := Function.update s.inFlight p (s.inFlight p + n) }

/-- The agent leaves phase `x` for `y`. -/
def advance (s : WriteGate A) (a : A) (x y : Phase) : Option (WriteGate A) :=
  if s.phase a = x then some (s.goto a y) else none

/-- A step of `try_enter` (`gate.rs:146-163`) and of the ticket it returns. -/
def nextEnter (s : WriteGate A) (a : A) : Event → Option (WriteGate A)
  | .tryEnter => s.advance a .out .entering
  -- `None` while the gate is closed
  | .loadEpoch => s.advance a .entering (if isClosed s.epoch then .out else .loaded s.epoch)
  | .register =>
    match s.phase a with
    | .loaded e => some ((s.count (parity e) 1).goto a (.counted e))
    | _ => none
  | .confirm =>
    match s.phase a with
    | .counted e => some (s.goto a (if s.epoch = e then .ticket (parity e) else .backing e))
    | _ => none
  | .backOut =>
    match s.phase a with
    | .backing e => some ((s.count (parity e) (-1)).goto a .entering)
    | _ => none
  | .leave =>
    match s.phase a with
    | .ticket p => some ((s.count p (-1)).goto a .out)
    | _ => none
  | _ => none

/-- A step of `drain_below` (`gate.rs:182-188`). -/
def nextDrain (s : WriteGate A) (a : A) : Event → Option (WriteGate A)
  | .lockDrain =>
    if s.flipper = none then { s with flipper := some a }.advance a .out .drainLocked else none
  | .readFrontier => s.advance a .drainLocked .drainFramed
  | .flip =>
    { s with epoch := s.epoch + flipStep }.advance a .drainFramed (.draining (parity s.epoch))
  | .loadDrained =>
    match s.phase a with
    | .draining p => some (s.goto a (if s.inFlight p = 0 then .drained else .draining p))
    | _ => none
  | .unlockDrain => { s with flipper := none }.advance a .drained .out
  | _ => none

/-- A step of `close` (`gate.rs:213-222`) and of the drop of its guard. -/
def nextClose (s : WriteGate A) (a : A) : Event → Option (WriteGate A)
  | .lockClose =>
    if s.flipper = none then { s with flipper := some a }.advance a .out .closeLocked else none
  | .setClosed => { s with epoch := s.epoch ||| closedBit }.advance a .closeLocked .closeWait0
  | .loadClosed0 =>
    s.advance a .closeWait0 (if s.inFlight false = 0 then .closeWait1 else .closeWait0)
  | .loadClosed1 =>
    s.advance a .closeWait1 (if s.inFlight true = 0 then .closed else .closeWait1)
  | .reopen => { s with epoch := s.epoch &&& ~~~closedBit }.advance a .closed .reopened
  | .unlockClose => { s with flipper := none }.advance a .reopened .out
  | _ => none

def next (s : WriteGate A) (act : A × Event) : Option (WriteGate A) :=
  (s.nextEnter act.1 act.2).orElse fun _ => (s.nextDrain act.1 act.2).orElse fun _ =>
    s.nextClose act.1 act.2

/-! ### What the phases say -/

/-- The agent is counted under parity `p` without a ticket. -/
def Phase.transient (p : Bool) : Phase → Bool
  | .counted e => parity e == p
  | .backing e => parity e == p
  | _ => false

/-- The agent has a ticket of parity `p`. -/
def Phase.holds (p : Bool) : Phase → Bool
  | .ticket q => q == p
  | _ => false

def Phase.counts (p : Bool) (x : Phase) : Bool := x.transient p || x.holds p

/-- The agent is in `drain_below`, with the mutex. -/
def Phase.drains : Phase → Bool
  | .drainLocked => true
  | .drainFramed => true
  | .draining _ => true
  | .drained => true
  | _ => false

/-- The agent is in `close` with the mutex, or has the guard. -/
def Phase.closes : Phase → Bool
  | .closeLocked => true
  | .closeWait0 => true
  | .closeWait1 => true
  | .closed => true
  | .reopened => true
  | _ => false

def Phase.locks (x : Phase) : Bool := x.drains || x.closes

/-- The closed bit is set while an agent is here. -/
def Phase.shuts : Phase → Bool
  | .closeWait0 => true
  | .closeWait1 => true
  | .closed => true
  | _ => false

/-- The agent has read zero from the counter of parity `p` since it set the bit. -/
def Phase.cleared (p : Bool) : Phase → Bool
  | .closeWait1 => !p
  | .closed => true
  | _ => false

/-- The epoch word that the agent read first in `try_enter`. -/
def Phase.word? : Phase → Option Epoch
  | .loaded e => some e
  | .counted e => some e
  | _ => none

theorem Phase.shuts_of_cleared {p : Bool} {x : Phase} (h : x.cleared p = true) :
    x.shuts = true := by
  cases x <;> first | rfl | cases h

theorem Phase.locks_of_shuts {x : Phase} (h : x.shuts = true) : x.locks = true := by
  cases x <;> first | rfl | cases h

theorem Phase.not_closes_of_drains {x : Phase} (h : x.drains = true) : x.closes = false := by
  cases x <;> first | rfl | cases h

theorem Phase.not_holds_of_cleared {p q : Bool} {x : Phase} (h : x.cleared p = true) :
    x.holds q = false := by
  cases x <;> first | rfl | cases h

theorem Phase.counts_of_holds {p : Bool} {x : Phase} (h : x.holds p = true) :
    x.counts p = true := by
  rw [Phase.counts, h, Bool.or_true]

variable [Fintype A]

/-- What holds in every state of the gate. A word that was read as open can only be
confirmed while the gate is open, so once the bit is set no ticket is made, and a counter
that is then read as zero has no tickets behind it until the bit is cleared. -/
structure Ok (s : WriteGate A) : Prop where
  counts : ∀ p, s.inFlight p = tally (Phase.counts p) s.phase
  owner : Owner (Phase.locks ∘ s.phase) s.flipper
  words : ∀ a e, (s.phase a).word? = some e → isClosed e = false
  shut : isClosed s.epoch = true ↔ ∃ a, (s.phase a).shuts = true
  clear : ∀ a p, (s.phase a).cleared p = true → ∀ b, (s.phase b).holds p = false

variable {s s' : WriteGate A} {a : A} {x y : Phase}

omit [DecidableEq A] in
theorem ok_new : Ok (new : WriteGate A) where
  counts p := by simp [new, tally, Phase.counts, Phase.transient, Phase.holds]
  owner a := by simp [new, Phase.locks, Phase.drains, Phase.closes]
  words a e h := by cases h
  shut := by simp [new, isClosed, closedBit, Phase.shuts]
  clear a p h := by cases h

omit [DecidableEq A] in
/-- Nobody has a ticket of a parity whose counter reads zero. -/
theorem Ok.no_holder (h : Ok s) {p : Bool} (hz : s.inFlight p = 0) (b : A) :
    (s.phase b).holds p = false := by
  have htally : tally (Phase.counts p) s.phase = 0 := by
    have hc := h.counts p
    omega
  have hb := of_tally_eq_zero htally b
  by_contra hholds
  rw [Phase.counts_of_holds (by simpa using hholds)] at hb
  cases hb

/-- Nobody is counted twice or missed when one agent moves. -/
theorem tally_move (p : Bool) (hx : s.phase a = x) (n : ℤ)
    (hn : n + (x.counts p).toNat = (y.counts p).toNat) :
    (tally (Phase.counts p) (Function.update s.phase a y) : ℤ) =
      tally (Phase.counts p) s.phase + n := by
  have hstep := tally_update (Phase.counts p) s.phase a y
  rw [hx] at hstep
  omega

omit [Fintype A] in
theorem exists_shuts_update (y : Phase) (hx : s.phase a = x) (hxy : y.shuts = x.shuts) :
    (∃ b, (Function.update s.phase a y b).shuts = true) ↔ ∃ b, (s.phase b).shuts = true := by
  apply exists_congr
  intro b
  by_cases hb : b = a
  · subst hb
    rw [Function.update_self, hxy, hx]
  · rw [Function.update_of_ne hb]

/-- One agent moves from `x` to `y`. A ticket is only made while the gate is open, and a
parity is only found clear when nobody has a ticket of it. -/
theorem Ok.move (h : Ok s) (hx : s.phase a = x) (hphase : s'.phase = Function.update s.phase a y)
    (hcounts : ∀ p, s'.inFlight p = s.inFlight p + ((y.counts p).toNat - (x.counts p).toNat))
    (howner : Owner (Phase.locks ∘ s'.phase) s'.flipper)
    (hword : ∀ e, y.word? = some e → isClosed e = false)
    (hshut : isClosed s'.epoch = true ↔ ∃ b, (s'.phase b).shuts = true)
    (hticket : ∀ p, y.holds p = true → isClosed s.epoch = false)
    (hclear : ∀ p, y.cleared p = true → x.cleared p = true ∨ s.inFlight p = 0) : Ok s' where
  counts p := by
    rw [hphase, hcounts p, h.counts p]
    exact (tally_move p hx _ (by omega)).symm
  owner := howner
  words b e hb := by
    rw [hphase] at hb
    by_cases hba : b = a
    · subst hba
      rw [Function.update_self] at hb
      exact hword e hb
    · rw [Function.update_of_ne hba] at hb
      exact h.words b e hb
  shut := hshut
  clear b p hb c := by
    rw [hphase] at hb ⊢
    -- nobody had a ticket of `p`, or the agent that moves is the one that found it clear
    have hold : (∀ c, (s.phase c).holds p = false) ∧ y.holds p = false := by
      by_cases hba : b = a
      · subst hba
        rw [Function.update_self] at hb
        refine ⟨?_, Phase.not_holds_of_cleared hb⟩
        rcases hclear p hb with hx' | hz
        · rw [← hx] at hx'
          exact h.clear b p hx'
        · exact h.no_holder hz
      · rw [Function.update_of_ne hba] at hb
        refine ⟨h.clear b p hb, ?_⟩
        by_contra hy
        have hopen := hticket p (by simpa using hy)
        have hclosed := h.shut.mpr ⟨b, Phase.shuts_of_cleared hb⟩
        rw [hopen] at hclosed
        cases hclosed
    by_cases hca : c = a
    · subst hca
      rw [Function.update_self]
      exact hold.2
    · rw [Function.update_of_ne hca]
      exact hold.1 c

/-- The move leaves the word and the mutex alone. -/
theorem Ok.pass (h : Ok s) (hx : s.phase a = x) (hphase : s'.phase = Function.update s.phase a y)
    (hcounts : ∀ p, s'.inFlight p = s.inFlight p + ((y.counts p).toNat - (x.counts p).toNat))
    (hepoch : s'.epoch = s.epoch) (hflipper : s'.flipper = s.flipper)
    (hlocks : y.locks = x.locks) (hshuts : y.shuts = x.shuts)
    (hword : ∀ e, y.word? = some e → isClosed e = false)
    (hticket : ∀ p, y.holds p = true → isClosed s.epoch = false)
    (hclear : ∀ p, y.cleared p = true → x.cleared p = true ∨ s.inFlight p = 0) : Ok s' := by
  refine h.move hx hphase hcounts ?_ hword ?_ hticket hclear
  · rw [hphase, hflipper]
    exact h.owner.keep (by rw [hlocks, hx])
  · rw [hphase, hepoch, exists_shuts_update y hx hshuts]
    exact h.shut

/-- The move leaves the counters alone, too. -/
theorem Ok.still (h : Ok s) (hx : s.phase a = x) (hcounts : ∀ p, y.counts p = x.counts p)
    (hlocks : y.locks = x.locks) (hshuts : y.shuts = x.shuts)
    (hword : ∀ e, y.word? = some e → isClosed e = false)
    (hticket : ∀ p, y.holds p = true → isClosed s.epoch = false)
    (hclear : ∀ p, y.cleared p = true → x.cleared p = true ∨ s.inFlight p = 0) :
    Ok (s.goto a y) := by
  refine h.pass hx rfl ?_ rfl rfl hlocks hshuts hword hticket hclear
  intro p
  rw [hcounts p, sub_self, add_zero]
  rfl

omit [Fintype A] in
/-- `count` of the agent's own parity, when that is what its phases differ in. -/
theorem count_counts (p : Bool) (n : ℤ) (hp : n + (x.counts p).toNat = (y.counts p).toNat)
    (hother : y.counts (!p) = x.counts (!p)) (q : Bool) :
    ((s.count p n).goto a y).inFlight q =
      s.inFlight q + ((y.counts q).toNat - (x.counts q).toNat) := by
  show Function.update s.inFlight p (s.inFlight p + n) q = _
  by_cases hq : q = p
  · subst hq
    rw [Function.update_self]
    omega
  · have hq' : q = !p := by
      cases p <;> cases q <;> first | rfl | exact absurd rfl hq
    rw [Function.update_of_ne hq, hq', hother]
    omega

omit [Fintype A] in
theorem advance_some (h : s.advance a x y = some s') : s.phase a = x ∧ s' = s.goto a y := by
  unfold advance at h
  split at h
  · rename_i hx
    cases h
    exact ⟨hx, rfl⟩
  · cases h

theorem Ok.nextEnter (h : Ok s) (ev : Event) (hn : s.nextEnter a ev = some s') : Ok s' := by
  cases ev with
  | tryEnter =>
    obtain ⟨hx, rfl⟩ := advance_some hn
    exact h.still hx (fun _ => rfl) rfl rfl nofun nofun nofun
  | loadEpoch =>
    obtain ⟨hx, rfl⟩ := advance_some hn
    cases hc : isClosed s.epoch with
    | true => exact h.still hx (fun _ => rfl) rfl rfl nofun nofun nofun
    | false =>
      refine h.still hx (fun _ => rfl) rfl rfl ?_ nofun nofun
      intro e he
      cases he
      exact hc
  | register =>
    simp only [WriteGate.nextEnter] at hn
    split at hn
    · rename_i e hx
      cases hn
      refine h.pass hx rfl (count_counts _ _ ?_ ?_) rfl rfl rfl rfl ?_ nofun nofun
      · simp [Phase.counts, Phase.transient, Phase.holds]
      · simp [Phase.counts, Phase.transient, Phase.holds]
      · intro e' he
        cases he
        exact h.words a e (by rw [hx]; rfl)
    · cases hn
  | confirm =>
    simp only [WriteGate.nextEnter] at hn
    split at hn
    · rename_i e hx
      cases hn
      split
      · rename_i heq
        -- the word is the one read as open, so nobody has the gate shut now
        have hopen : isClosed s.epoch = false := by
          rw [heq]
          exact h.words a e (by rw [hx]; rfl)
        refine h.still hx ?_ rfl rfl nofun (fun _ _ => hopen) nofun
        intro p
        simp [Phase.counts, Phase.transient, Phase.holds]
      · exact h.still hx (fun _ => rfl) rfl rfl nofun nofun nofun
    · cases hn
  | backOut =>
    simp only [WriteGate.nextEnter] at hn
    split at hn
    · rename_i e hx
      cases hn
      refine h.pass hx rfl (count_counts _ _ ?_ ?_) rfl rfl rfl rfl nofun nofun nofun
      · simp [Phase.counts, Phase.transient, Phase.holds]
      · simp [Phase.counts, Phase.transient, Phase.holds]
    · cases hn
  | leave =>
    simp only [WriteGate.nextEnter] at hn
    split at hn
    · rename_i p hx
      cases hn
      refine h.pass hx rfl (count_counts _ _ ?_ ?_) rfl rfl rfl rfl nofun nofun nofun
      · simp [Phase.counts, Phase.transient, Phase.holds]
      · simp [Phase.counts, Phase.transient, Phase.holds]
    · cases hn
  | _ => cases hn

/-- The move writes the word or the mutex and leaves the counters alone. -/
theorem Ok.turn (h : Ok s) (hx : s.phase a = x) (e : Epoch) (o : Option A)
    (hcounts : ∀ p, y.counts p = x.counts p)
    (howner : Owner (Phase.locks ∘ Function.update s.phase a y) o)
    (hshut : isClosed e = true ↔ ∃ b, (Function.update s.phase a y b).shuts = true)
    (hword : y.word? = none) (hplain : ∀ p, y.holds p = false ∧ y.cleared p = false) :
    Ok (⟨e, s.inFlight, o, Function.update s.phase a y⟩ : WriteGate A) := by
  refine h.move hx rfl ?_ howner ?_ hshut ?_ ?_
  · intro p
    rw [hcounts p, sub_self, add_zero]
  · intro e' he
    rw [hword] at he
    cases he
  · intro p hp
    rw [(hplain p).1] at hp
    cases hp
  · intro p hp
    rw [(hplain p).2] at hp
    cases hp

/-- The agent takes the free mutex, for a drain or for a close. -/
theorem Ok.lock (h : Ok s) (hx : s.phase a = .out) (hfree : s.flipper = none)
    (hcounts : ∀ p, y.counts p = Phase.counts p .out) (hlocks : y.locks = true)
    (hshuts : y.shuts = false) (hword : y.word? = none)
    (hplain : ∀ p, y.holds p = false ∧ y.cleared p = false) :
    Ok ({ s with flipper := some a }.goto a y) := by
  have howner := h.owner
  rw [hfree] at howner
  refine h.turn hx s.epoch (some a) hcounts (howner.take hlocks) ?_ hword hplain
  rw [exists_shuts_update y hx hshuts]
  exact h.shut

/-- The agent frees the mutex it has. -/
theorem Ok.unlock (h : Ok s) (hx : s.phase a = x) (hcounts : ∀ p, Phase.counts p .out = x.counts p)
    (hlocks : x.locks = true) (hshuts : x.shuts = false) :
    Ok ({ s with flipper := none }.goto a .out) := by
  refine h.turn hx s.epoch none hcounts (h.owner.release ?_ rfl) ?_ rfl fun _ => ⟨rfl, rfl⟩
  · rw [hx]
    exact hlocks
  · rw [exists_shuts_update .out hx hshuts.symm]
    exact h.shut

theorem Ok.nextDrain (h : Ok s) (ev : Event) (hn : s.nextDrain a ev = some s') : Ok s' := by
  cases ev with
  | lockDrain =>
    simp only [WriteGate.nextDrain] at hn
    split at hn
    · rename_i hfree
      obtain ⟨hx, rfl⟩ := advance_some hn
      exact h.lock hx hfree (fun _ => rfl) rfl rfl rfl fun _ => ⟨rfl, rfl⟩
    · cases hn
  | readFrontier =>
    obtain ⟨hx, rfl⟩ := advance_some hn
    exact h.still hx (fun _ => rfl) rfl rfl nofun nofun nofun
  | flip =>
    obtain ⟨hx, rfl⟩ := advance_some hn
    have hx' : s.phase a = .drainFramed := hx
    refine h.turn hx' _ s.flipper (fun _ => rfl) (h.owner.keep ?_) ?_ rfl fun _ => ⟨rfl, rfl⟩
    · rw [hx']
      rfl
    · show isClosed (s.epoch + flipStep) = true ↔ _
      rw [isClosed_flip, h.shut]
      exact (exists_shuts_update (.draining _) hx' rfl).symm
  | loadDrained =>
    simp only [WriteGate.nextDrain] at hn
    split at hn
    · rename_i p hx
      cases hn
      split
      · exact h.still hx (fun _ => rfl) rfl rfl nofun nofun nofun
      · exact h.still hx (fun _ => rfl) rfl rfl nofun nofun nofun
    · cases hn
  | unlockDrain =>
    obtain ⟨hx, rfl⟩ := advance_some hn
    exact h.unlock hx (fun _ => rfl) rfl rfl
  | _ => cases hn

theorem Ok.nextClose (h : Ok s) (ev : Event) (hn : s.nextClose a ev = some s') : Ok s' := by
  cases ev with
  | lockClose =>
    simp only [WriteGate.nextClose] at hn
    split at hn
    · rename_i hfree
      obtain ⟨hx, rfl⟩ := advance_some hn
      exact h.lock hx hfree (fun _ => rfl) rfl rfl rfl fun _ => ⟨rfl, rfl⟩
    · cases hn
  | setClosed =>
    obtain ⟨hx, rfl⟩ := advance_some hn
    have hx' : s.phase a = .closeLocked := hx
    refine h.turn hx' _ s.flipper (fun _ => rfl) (h.owner.keep ?_) ?_ rfl fun _ => ⟨rfl, rfl⟩
    · rw [hx']
      rfl
    · refine iff_of_true (isClosed_or s.epoch) ⟨a, ?_⟩
      rw [Function.update_self]
      rfl
  | loadClosed0 =>
    obtain ⟨hx, rfl⟩ := advance_some hn
    by_cases hz : s.inFlight false = 0
    · rw [if_pos hz]
      refine h.still hx (fun _ => rfl) rfl rfl nofun nofun ?_
      intro p hp
      cases p with
      | false => exact Or.inr hz
      | true => cases hp
    · rw [if_neg hz]
      exact h.still hx (fun _ => rfl) rfl rfl nofun nofun nofun
  | loadClosed1 =>
    obtain ⟨hx, rfl⟩ := advance_some hn
    by_cases hz : s.inFlight true = 0
    · rw [if_pos hz]
      refine h.still hx (fun _ => rfl) rfl rfl nofun nofun ?_
      intro p _
      cases p with
      | false => exact Or.inl rfl
      | true => exact Or.inr hz
    · rw [if_neg hz]
      exact h.still hx (fun _ => rfl) rfl rfl nofun nofun fun _ hp => Or.inl hp
  | reopen =>
    obtain ⟨hx, rfl⟩ := advance_some hn
    have hx' : s.phase a = .closed := hx
    have hlocks : (s.phase a).locks = true := by
      rw [hx']
      rfl
    refine h.turn hx' _ s.flipper (fun _ => rfl) (h.owner.keep hlocks.symm) ?_ rfl
      fun _ => ⟨rfl, rfl⟩
    refine iff_of_false (by simp [isClosed_and]) ?_
    rintro ⟨b, hb⟩
    -- whoever has the gate shut has the mutex, and that is this agent
    by_cases hba : b = a
    · subst hba
      rw [Function.update_self] at hb
      cases hb
    · rw [Function.update_of_ne hba] at hb
      exact hba (h.owner.unique (Phase.locks_of_shuts hb) hlocks)
  | unlockClose =>
    obtain ⟨hx, rfl⟩ := advance_some hn
    exact h.unlock hx (fun _ => rfl) rfl rfl
  | _ => cases hn

/-- What a step of the agent `a` does to the agents: the others stay where they are, and
`a` gets a ticket only from a confirming read of the word it read first. -/
structure Moves (s : WriteGate A) (a : A) (ev : Event) (s' : WriteGate A) : Prop where
  others : ∀ b, b ≠ a → s'.phase b = s.phase b
  ticket : ∀ p, s'.phase a = .ticket p →
    ev = .confirm ∧ s.phase a = .counted s.epoch ∧ p = parity s.epoch

omit [Fintype A] in
theorem moves_of_phase {ev : Event} (hphase : s'.phase = Function.update s.phase a y)
    (hy : ∀ p, y ≠ .ticket p) : Moves s a ev s' where
  others b hb := by rw [hphase, Function.update_of_ne hb]
  ticket p hp := by
    rw [hphase, Function.update_self] at hp
    exact absurd hp (hy p)

omit [Fintype A] in
theorem nextEnter_moves {ev : Event} (hn : s.nextEnter a ev = some s') : Moves s a ev s' := by
  cases ev with
  | tryEnter =>
    obtain ⟨-, rfl⟩ := advance_some hn
    exact moves_of_phase rfl nofun
  | loadEpoch =>
    obtain ⟨-, rfl⟩ := advance_some hn
    exact moves_of_phase rfl (by intro p; split <;> nofun)
  | confirm =>
    simp only [nextEnter] at hn
    split at hn
    · rename_i e hx
      cases hn
      by_cases heq : s.epoch = e
      · refine ⟨fun b hb => Function.update_of_ne hb _ _, ?_⟩
        intro p hp
        rw [goto, if_pos heq] at hp
        have hpar : Phase.ticket (parity e) = .ticket p := by
          rw [← hp]
          exact (Function.update_self a _ s.phase).symm
        cases hpar
        rw [hx, heq]
        exact ⟨rfl, rfl, rfl⟩
      · exact moves_of_phase rfl (by rw [if_neg heq]; nofun)
    · cases hn
  | _ =>
    simp only [nextEnter] at hn
    first
    | cases hn
    | (split at hn
       · cases hn
         exact moves_of_phase rfl nofun
       · cases hn)

omit [Fintype A] in
theorem nextDrain_moves {ev : Event} (hn : s.nextDrain a ev = some s') : Moves s a ev s' := by
  cases ev with
  | lockDrain =>
    simp only [nextDrain] at hn
    split at hn
    · obtain ⟨-, rfl⟩ := advance_some hn
      exact moves_of_phase rfl nofun
    · cases hn
  | loadDrained =>
    simp only [nextDrain] at hn
    split at hn
    · cases hn
      exact moves_of_phase rfl (by intro p; split <;> nofun)
    · cases hn
  | _ =>
    first
    | cases hn
    | (obtain ⟨-, rfl⟩ := advance_some hn
       exact moves_of_phase rfl nofun)

omit [Fintype A] in
theorem nextClose_moves {ev : Event} (hn : s.nextClose a ev = some s') : Moves s a ev s' := by
  cases ev with
  | lockClose =>
    simp only [nextClose] at hn
    split at hn
    · obtain ⟨-, rfl⟩ := advance_some hn
      exact moves_of_phase rfl nofun
    · cases hn
  | loadClosed0 =>
    obtain ⟨-, rfl⟩ := advance_some hn
    exact moves_of_phase rfl (by intro p; split <;> nofun)
  | loadClosed1 =>
    obtain ⟨-, rfl⟩ := advance_some hn
    exact moves_of_phase rfl (by intro p; split <;> nofun)
  | _ =>
    first
    | cases hn
    | (obtain ⟨-, rfl⟩ := advance_some hn
       exact moves_of_phase rfl nofun)

omit [Fintype A] in
theorem next_cases (act : A × Event) (hn : s.next act = some s') :
    s.nextEnter act.1 act.2 = some s' ∨ s.nextDrain act.1 act.2 = some s' ∨
      s.nextClose act.1 act.2 = some s' := by
  simp only [next, Option.orElse_eq_or, Option.or_eq_some_iff] at hn
  rcases hn with hn | ⟨-, hn | ⟨-, hn⟩⟩
  · exact Or.inl hn
  · exact Or.inr (Or.inl hn)
  · exact Or.inr (Or.inr hn)

omit [Fintype A] in
theorem next_moves (act : A × Event) (hn : s.next act = some s') : Moves s act.1 act.2 s' := by
  rcases next_cases act hn with hn | hn | hn
  · exact nextEnter_moves hn
  · exact nextDrain_moves hn
  · exact nextClose_moves hn

theorem Ok.next (h : Ok s) (act : A × Event) (hn : s.next act = some s') : Ok s' := by
  rcases next_cases act hn with hn | hn | hn
  · exact h.nextEnter act.2 hn
  · exact h.nextDrain act.2 hn
  · exact h.nextClose act.2 hn

end WriteGate

variable {A : Type} [DecidableEq A]

/-- The states that any interleaving of the agents reaches. -/
abbrev WriteGate.Reached : WriteGate A → Prop := Reach WriteGate.next (fun _ => True) WriteGate.new

namespace WriteGate

variable [Fintype A] {s s' : WriteGate A} {a b : A}

theorem Reached.ok (hr : Reached s) : Ok s :=
  hr.invariant ok_new fun _ act _ h _ hn => h.next act hn

/-- The agents with a ticket of parity `p`. -/
def tickets (s : WriteGate A) (p : Bool) : Finset A := {a | (s.phase a).holds p = true}

/-- The agents that are registered under parity `p` and have no ticket. -/
def transients (s : WriteGate A) (p : Bool) : Finset A := {a | (s.phase a).transient p = true}

omit [DecidableEq A] in
theorem tally_counts (s : WriteGate A) (p : Bool) :
    tally (Phase.counts p) s.phase = (s.tickets p).card + (s.transients p).card := by
  unfold tally tickets transients
  rw [Finset.card_filter, Finset.card_filter, ← Finset.sum_add_distrib]
  apply Finset.sum_congr rfl
  intro a _
  cases s.phase a with
  | ticket q => cases hq : q == p <;> simp [Phase.counts, Phase.holds, Phase.transient, hq]
  | counted e =>
    cases he : parity e == p <;> simp [Phase.counts, Phase.holds, Phase.transient, he]
  | backing e =>
    cases he : parity e == p <;> simp [Phase.counts, Phase.holds, Phase.transient, he]
  | _ => rfl

omit [DecidableEq A] in
theorem Ok.no_ticket (h : Ok s) (ha : s.phase a = .closed) (b : A) (p : Bool) :
    s.phase b ≠ .ticket p := by
  intro hb
  have hclear := h.clear a p (by rw [ha]; rfl) b
  rw [hb] at hclear
  simp [Phase.holds] at hclear

/-- Closing the gate holds the appenders off. In every state that any interleaving of
`try_enter`, `leave`, `drain_below`, `close` and drops of the guard reaches: while an agent
has the guard nobody has a ticket and no step makes one; at most one agent is in
`drain_below` or `close`; the counters are exact and not negative; and a ticket has the
parity of the word at the read that confirmed it. -/
theorem closed_gate_exclusive (hr : Reached s) :
    (∀ a, s.phase a = .closed → (∀ b p, s.phase b ≠ .ticket p) ∧
      ∀ act s', s.next act = some s' → ∀ b p, s'.phase b ≠ .ticket p) ∧
    (∀ a b, (s.phase a).drains = true → (s.phase b).closes = true → False) ∧
    (∀ a b, (s.phase a).locks = true → (s.phase b).locks = true → a = b) ∧
    (∀ p, s.inFlight p = (s.tickets p).card + (s.transients p).card ∧ 0 ≤ s.inFlight p) ∧
    ∀ act s', s.next act = some s' → ∀ b p, s'.phase b = .ticket p → s.phase b ≠ .ticket p →
      act = (b, .confirm) ∧ isClosed s.epoch = false ∧ p = parity s.epoch := by
  have h := hr.ok
  have hnew : ∀ act s', s.next act = some s' → ∀ b p, s'.phase b = .ticket p →
      s.phase b ≠ .ticket p →
      act = (b, .confirm) ∧ isClosed s.epoch = false ∧ p = parity s.epoch := by
    intro act s' hn b p hb hb0
    have hm := next_moves act hn
    by_cases hba : b = act.1
    · subst hba
      obtain ⟨hev, hx, hp⟩ := hm.ticket p hb
      have hopen := h.words act.1 s.epoch (by rw [hx]; rfl)
      exact ⟨Prod.ext rfl hev, hopen, hp⟩
    · rw [hm.others b hba] at hb
      exact absurd hb hb0
  refine ⟨?_, ?_, fun a b ha hb => h.owner.unique ha hb, ?_, hnew⟩
  · intro a ha
    refine ⟨h.no_ticket ha, ?_⟩
    intro act s' hn b p hb
    obtain ⟨-, hopen, -⟩ := hnew act s' hn b p hb (h.no_ticket ha b p)
    have hshut := h.shut.mpr ⟨a, by rw [ha]; rfl⟩
    rw [hopen] at hshut
    cases hshut
  · intro a b ha hb
    have hab : a = b := by
      refine h.owner.unique ?_ ?_
      · rw [Phase.locks, ha, Bool.true_or]
      · rw [Phase.locks, hb, Bool.or_true]
    subst hab
    rw [Phase.not_closes_of_drains ha] at hb
    cases hb
  · intro p
    have hc := h.counts p
    rw [tally_counts] at hc
    exact ⟨by omega, by omega⟩

/-- An appender reads the word, the gate closes and opens again before it confirms, and the
word is the same as before; then the gate is closed under its ticket. -/
def recurringRun : List (Bool × Event) :=
  [(false, .tryEnter), (false, .loadEpoch),
   (true, .lockClose), (true, .setClosed), (true, .loadClosed0), (true, .loadClosed1),
   (true, .reopen), (true, .unlockClose),
   (false, .register), (false, .confirm),
   (true, .lockClose), (true, .setClosed), (true, .loadClosed0), (false, .leave),
   (true, .loadClosed0), (true, .loadClosed1)]

theorem recurringRun_isSome : (run next recurringRun new).isSome = true := by decide +kernel

theorem closed_gate_exclusive_recurring :
    ∃ s : WriteGate Bool, Reached s ∧ s.phase true = .closed ∧
      (∀ b p, s.phase b ≠ .ticket p) ∧
      ∀ p, s.inFlight p = (s.tickets p).card + (s.transients p).card ∧ 0 ≤ s.inFlight p := by
  have hr : Reached ((run next recurringRun new).get recurringRun_isSome) :=
    reach_of_run recurringRun (Option.some_get recurringRun_isSome).symm fun _ _ => trivial
  have hclosed : ((run next recurringRun new).get recurringRun_isSome).phase true = .closed := by
    decide +kernel
  obtain ⟨hexclusive, -, -, hcounts, -⟩ := closed_gate_exclusive hr
  exact ⟨_, hr, hclosed, (hexclusive true hclosed).1, hcounts⟩

end WriteGate

end Fsys.Journal
