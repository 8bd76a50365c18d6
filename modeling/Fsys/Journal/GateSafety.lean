import Fsys.Journal.Gate
import Fsys.Base.Tally

/-!
# The durable frontier covers written bytes only (src/journal/gate.rs:1-41, 132-218)

The argument of the module comment of `gate.rs`, for every interleaving: who holds a
ticket, who owns an unfinished reservation, and what a leader knows at each point of
its way about the owners below its frontier.
-/

namespace Fsys.Journal
open Fsys.Base

/-! ### What an agent holds -/

/-- The agent is counted under the parity. -/
def GatePc.registered (p : Bool) : GatePc → Bool
  | .counted f => parity f = p
  | .backing f => parity f = p
  | .ticketed f => parity f = p
  | .writing f _ _ => parity f = p
  | .spoiled f _ => parity f = p
  | .ending f => parity f = p
  | _ => false

/-- The epoch of the ticket the agent holds. -/
def GatePc.ticket : GatePc → Option ℕ
  | .ticketed f => some f
  | .writing f _ _ => some f
  | .spoiled f _ => some f
  | .ending f => some f
  | _ => none

/-- The epoch and the reservation of an agent that has yet to settle it. -/
def GatePc.owns : GatePc → Option (ℕ × ℕ)
  | .writing f i _ => some (f, i)
  | .spoiled f i => some (f, i)
  | _ => none

def GatePc.holdsFlipper : GatePc → Bool
  | .locked => true
  | .framed _ => true
  | .draining _ _ => true
  | .drained _ => true
  | .closing => true
  | .closeWait0 => true
  | .closeWait1 => true
  | .gateClosed => true
  | .reopened => true
  | _ => false

theorem GatePc.registered_of_ticket {pc : GatePc} {f : ℕ} (h : pc.ticket = some f) :
    pc.registered (parity f) = true := by
  cases pc <;> simp_all [GatePc.ticket, GatePc.registered]

theorem GatePc.ticket_of_owns {pc : GatePc} {f i : ℕ} (h : pc.owns = some (f, i)) :
    pc.ticket = some f := by
  cases pc <;> simp_all [GatePc.ticket, GatePc.owns]

/-! ### What a leader knows -/

variable {A : Type}

/-- The epochs of the owners of unsettled reservations that start below the frontier. -/
def OwnersBelow (s : Gate A) (fr : ℕ) (P : ℕ → Prop) : Prop :=
  ∀ a f i r, (s.pc a).owns = some (f, i) → s.reservations[i]? = some r → r.start < fr → P f

/-- Every reservation that starts below the frontier was written before `t`. -/
def WrittenBelow (s : Gate A) (fr t : ℕ) : Prop :=
  ∀ r ∈ s.reservations, r.start < fr → ∃ d, r.status = .written d ∧ d < t

def Knows (s : Gate A) : GatePc → Prop
  | .quiet0 fr => fr ≤ s.nextLsn
  | .quiet1 fr => fr ≤ s.nextLsn ∧ OwnersBelow s fr fun f => parity f = true
  | .framed fr => fr ≤ s.nextLsn
  | .draining fr f => fr ≤ s.nextLsn ∧ OwnersBelow s fr (fun f' => f' = f) ∧ s.flips = f + 1
  | .drained fr => fr ≤ s.nextLsn ∧ OwnersBelow s fr fun _ => False
  | .captured fr => fr ≤ s.nextLsn ∧ OwnersBelow s fr fun _ => False
  | .checked fr => fr ≤ s.nextLsn ∧ WrittenBelow s fr s.clock
  | .syncing fr t => fr ≤ s.nextLsn ∧ WrittenBelow s fr t
  | .publishing fr => fr ≤ s.nextLsn ∧ ∃ t ∈ s.fsyncs, WrittenBelow s fr t
  | _ => True

/-- Nothing a leader relies on is undone. -/
structure Onward (s s' : Gate A) : Prop where
  lsn : s.nextLsn ≤ s'.nextLsn
  clock : s.clock ≤ s'.clock
  fsyncs : ∀ t ∈ s.fsyncs, t ∈ s'.fsyncs
  owners : ∀ a f i r', (s'.pc a).owns = some (f, i) → s'.reservations[i]? = some r' →
    r'.start < s.nextLsn →
      ∃ r, (s.pc a).owns = some (f, i) ∧ s.reservations[i]? = some r ∧ r.start = r'.start
  written : ∀ r' ∈ s'.reservations, r'.start < s.nextLsn →
    ∃ r ∈ s.reservations, r.start = r'.start ∧ ∀ d, r.status = .written d → r'.status = .written d

variable {s s' : Gate A} {fr : ℕ}

theorem Onward.ownersBelow (h : Onward s s') (hfr : fr ≤ s.nextLsn) {P : ℕ → Prop}
    (ho : OwnersBelow s fr P) : OwnersBelow s' fr P := by
  intro a f i r' howns hr' hlt
  obtain ⟨r, howns', hr, heq⟩ := h.owners a f i r' howns hr' (by omega)
  exact ho a f i r howns' hr (by omega)

theorem Onward.writtenBelow (h : Onward s s') (hfr : fr ≤ s.nextLsn) {t : ℕ}
    (hw : WrittenBelow s fr t) : WrittenBelow s' fr t := by
  intro r' hr' hlt
  obtain ⟨r, hr, heq, hkeep⟩ := h.written r' hr' (by omega)
  obtain ⟨d, hd, hdt⟩ := hw r hr (by omega)
  exact ⟨d, hkeep d hd, hdt⟩

theorem WrittenBelow.later {t t' : ℕ} (h : WrittenBelow s fr t) (ht : t ≤ t') :
    WrittenBelow s fr t' := by
  intro r hr hlt
  obtain ⟨d, hd, hdt⟩ := h r hr hlt
  exact ⟨d, hd, by omega⟩

/-- What an agent knows stays true; a drain needs that nobody else flips. -/
theorem Knows.onward {pc : GatePc} (h : Knows s pc) (ho : Onward s s')
    (hf : ∀ fr f, pc = .draining fr f → s'.flips = s.flips) : Knows s' pc := by
  have hlsn := ho.lsn
  cases pc with
  | quiet0 fr => exact Nat.le_trans h hlsn
  | framed fr => exact Nat.le_trans h hlsn
  | quiet1 fr => exact ⟨Nat.le_trans h.1 hlsn, ho.ownersBelow h.1 h.2⟩
  | draining fr f =>
    exact ⟨Nat.le_trans h.1 hlsn, ho.ownersBelow h.1 h.2.1, (hf fr f rfl).trans h.2.2⟩
  | drained fr => exact ⟨Nat.le_trans h.1 hlsn, ho.ownersBelow h.1 h.2⟩
  | captured fr => exact ⟨Nat.le_trans h.1 hlsn, ho.ownersBelow h.1 h.2⟩
  | checked fr => exact ⟨Nat.le_trans h.1 hlsn, (ho.writtenBelow h.1 h.2).later ho.clock⟩
  | syncing fr t => exact ⟨Nat.le_trans h.1 hlsn, ho.writtenBelow h.1 h.2⟩
  | publishing fr =>
    obtain ⟨hle, t, ht, hw⟩ := h
    exact ⟨Nat.le_trans hle hlsn, t, ho.fsyncs t ht, ho.writtenBelow hle hw⟩
  | _ => trivial

/-! ### The invariant -/

/-- The bytes below the durable frontier were written before an fsync that succeeded. -/
def Durable (s : Gate A) : Prop :=
  s.syncedLsn ≤ s.nextLsn ∧ ∀ r ∈ s.reservations, r.start < s.syncedLsn →
    ∃ d, r.status = .written d ∧ ∃ t ∈ s.fsyncs, d < t

theorem Durable.onward (h : Durable s) (ho : Onward s s') (hs : s'.syncedLsn = s.syncedLsn) :
    Durable s' := by
  obtain ⟨hle, hall⟩ := h
  refine ⟨hs ▸ Nat.le_trans hle ho.lsn, ?_⟩
  intro r' hr' hlt
  rw [hs] at hlt
  obtain ⟨r, hr, heq, hkeep⟩ := ho.written r' hr' (by omega)
  obtain ⟨d, hd, t, ht, hdt⟩ := hall r hr (by omega)
  exact ⟨d, hkeep d hd, t, ho.fsyncs t ht, hdt⟩

variable [Fintype A] [DecidableEq A]

/-- The gate of a journal opened at `pos`. -/
structure GateInv (pos : ℕ) (s : Gate A) : Prop where
  counts : ∀ p, s.inFlight p = tally (GatePc.registered p) s.pc
  flipper : ∀ a, (s.pc a).holdsFlipper = true ↔ s.flipper = some a
  tickets : ∀ a f, (s.pc a).ticket = some f →
    f = s.flips ∨ f + 1 = s.flips ∧ ∃ b fr, s.pc b = .draining fr f
  writing : ∀ a f i n, s.pc a = .writing f i n →
    ∃ r, s.reservations[i]? = some r ∧ r.owner = a ∧ r.status = .writing
  spoiled : ∀ a f i, s.pc a = .spoiled f i →
    ∃ r, s.reservations[i]? = some r ∧ r.owner = a ∧ r.status = .failed
  unsettled : ∀ i r, s.reservations[i]? = some r →
    (r.status = .writing → ∃ f n, s.pc r.owner = .writing f i n) ∧
    (r.status = .failed → s.poison = true ∨ ∃ f, s.pc r.owner = .spoiled f i)
  times : ∀ r ∈ s.reservations, ∀ d, r.status = .written d → d < s.clock
  covers : ∀ p, pos ≤ p → p < s.nextLsn → ∃ r ∈ s.reservations, r.start ≤ p ∧ p < r.stop
  knows : ∀ a, Knows s (s.pc a)
  durable : Durable s

variable {pos : ℕ} {a : A}

omit [Fintype A] in
@[simp] theorem goto_pc_self (s : Gate A) (a : A) (pc : GatePc) : (s.goto a pc).pc a = pc :=
  Function.update_self _ _ _

omit [Fintype A] in
theorem goto_pc_ne (s : Gate A) {a b : A} (h : b ≠ a) (pc : GatePc) :
    (s.goto a pc).pc b = s.pc b := Function.update_of_ne h _ _

/-- An agent that draws back from a drain, if it was in one, saw its parity empty. -/
def Lets (s : Gate A) (a : A) (pc' : GatePc) : Prop :=
  ∀ fr f, s.pc a = .draining fr f → pc' = .draining fr f ∨ ∀ b, (s.pc b).ticket ≠ some f

/-- A step that changes counters, the flipper and where the agent stands. -/
theorem GateInv.move (h : GateInv pos s) {c : Bool → ℕ} {fl : Option A} {pc' : GatePc}
    (hcounts : ∀ p, c p = tally (GatePc.registered p) (Function.update s.pc a pc'))
    (hflipper : ∀ b, (Function.update s.pc a pc' b).holdsFlipper = true ↔ fl = some b)
    (hticket : ∀ f, pc'.ticket = some f → (s.pc a).ticket = some f ∨ f = s.flips)
    (hnew : pc'.owns = none) (hwriting : ∀ f i n, s.pc a ≠ .writing f i n)
    (hspoiled : ∀ f i, s.pc a = .spoiled f i → s.poison = true) (hlets : Lets s a pc')
    (hknows : Knows s pc') :
    GateInv pos ({ s with inFlight := c, flipper := fl }.goto a pc') := by
  have honward : Onward s ({ s with inFlight := c, flipper := fl }.goto a pc') := by
    refine ⟨Nat.le_refl _, Nat.le_succ _, fun t ht => ht, ?_,
      fun r hr _ => ⟨r, hr, rfl, fun _ h => h⟩⟩
    intro b f i r howns hr _
    by_cases hb : b = a
    · rw [hb, goto_pc_self, hnew] at howns
      cases howns
    · rw [goto_pc_ne _ hb] at howns
      exact ⟨r, howns, hr, rfl⟩
  have hpc : ∀ b, ({ s with inFlight := c, flipper := fl }.goto a pc').pc b =
      Function.update s.pc a pc' b := fun _ => rfl
  refine ⟨hcounts, hflipper, ?_, ?_, ?_, ?_, ?_, h.covers, ?_, h.durable.onward honward rfl⟩
  · intro b f hb
    -- the drain that let an old ticket live is still on
    have hdrain : (∃ b fr, s.pc b = .draining fr f) → (s.pc b).ticket = some f →
        ∃ b fr, Function.update s.pc a pc' b = .draining fr f := by
      rintro ⟨e, fr, he⟩ hold
      by_cases hea : e = a
      · rw [hea] at he
        rcases hlets fr f he with heq | hnone
        · exact ⟨a, fr, by rw [Function.update_self, heq]⟩
        · exact absurd hold (hnone b)
      · exact ⟨e, fr, by rw [Function.update_of_ne hea, he]⟩
    rw [hpc] at hb
    by_cases hba : b = a
    · rw [hba, Function.update_self] at hb
      rcases hticket f hb with hold | heq
      · rcases h.tickets a f hold with heq | ⟨heq, hex⟩
        · exact .inl heq
        · exact .inr ⟨heq, hdrain hex (hba ▸ hold)⟩
      · exact .inl heq
    · rw [Function.update_of_ne hba] at hb
      rcases h.tickets b f hb with heq | ⟨heq, hex⟩
      · exact .inl heq
      · exact .inr ⟨heq, hdrain hex hb⟩
  · intro b f i n hb
    rw [hpc] at hb
    by_cases hba : b = a
    · rw [hba, Function.update_self] at hb
      rw [hb] at hnew
      cases hnew
    · rw [Function.update_of_ne hba] at hb
      exact h.writing b f i n hb
  · intro b f i hb
    rw [hpc] at hb
    by_cases hba : b = a
    · rw [hba, Function.update_self] at hb
      rw [hb] at hnew
      cases hnew
    · rw [Function.update_of_ne hba] at hb
      exact h.spoiled b f i hb
  · intro i r hr
    obtain ⟨hw, hf⟩ := h.unsettled i r hr
    refine ⟨?_, ?_⟩
    · intro hstatus
      obtain ⟨f, n, hpcr⟩ := hw hstatus
      have hne : r.owner ≠ a := fun heq => hwriting f i n (heq ▸ hpcr)
      exact ⟨f, n, by rw [hpc, Function.update_of_ne hne, hpcr]⟩
    · intro hstatus
      rcases hf hstatus with hp | ⟨f, hpcr⟩
      · exact .inl hp
      · by_cases hne : r.owner = a
        · exact .inl (hspoiled f i (hne ▸ hpcr))
        · exact .inr ⟨f, by rw [hpc, Function.update_of_ne hne, hpcr]⟩
  · intro r hr d hd
    exact Nat.lt_succ_of_lt (h.times r hr d hd)
  · intro b
    rw [hpc]
    by_cases hba : b = a
    · rw [hba, Function.update_self]
      exact hknows.onward honward fun _ _ _ => rfl
    · rw [Function.update_of_ne hba]
      exact (h.knows b).onward honward fun _ _ _ => rfl

/-- Places between which an agent moves with nothing in its hands but the flipper. -/
structure GatePc.Light (pc : GatePc) : Prop where
  registered : ∀ p, pc.registered p = false
  ticket : pc.ticket = none
  owns : pc.owns = none

theorem GatePc.Light.not_writing {pc : GatePc} (h : pc.Light) (f i : ℕ) (n : Bool) :
    pc ≠ .writing f i n := by
  rintro rfl
  exact absurd h.owns nofun

theorem GatePc.Light.not_spoiled {pc : GatePc} (h : pc.Light) (f i : ℕ) : pc ≠ .spoiled f i := by
  rintro rfl
  exact absurd h.owns nofun

omit [Fintype A] in
theorem holdsFlipper_update {fl : Option A} {pc : A → GatePc}
    (h : ∀ a, (pc a).holdsFlipper = true ↔ fl = some a) (a : A) {pc' : GatePc}
    (hp : pc'.holdsFlipper = (pc a).holdsFlipper) (b : A) :
    (Function.update pc a pc' b).holdsFlipper = true ↔ fl = some b := by
  by_cases hb : b = a
  · rw [hb, Function.update_self, hp]
    exact h a
  · rw [Function.update_of_ne hb]
    exact h b

/-- A step of the agent alone. -/
theorem GateInv.turn (h : GateInv pos s) {pc' : GatePc}
    (hreg : ∀ p, pc'.registered p = (s.pc a).registered p)
    (hhold : pc'.holdsFlipper = (s.pc a).holdsFlipper)
    (hticket : ∀ f, pc'.ticket = some f → (s.pc a).ticket = some f ∨ f = s.flips)
    (hnew : pc'.owns = none) (hwriting : ∀ f i n, s.pc a ≠ .writing f i n)
    (hspoiled : ∀ f i, s.pc a = .spoiled f i → s.poison = true) (hlets : Lets s a pc')
    (hknows : Knows s pc') : GateInv pos (s.goto a pc') :=
  h.move (c := s.inFlight) (fun p => (h.counts p).trans (tally_update_same _ _ _ _ (hreg p)).symm)
    (holdsFlipper_update h.flipper a hhold) hticket hnew hwriting hspoiled hlets hknows

/-- A step of an agent that is not registered, before and after. -/
theorem GateInv.light (h : GateInv pos s) {pc' : GatePc} (hold : (s.pc a).Light)
    (hlight : pc'.Light)
    (hhold : pc'.holdsFlipper = (s.pc a).holdsFlipper) (hlets : Lets s a pc')
    (hknows : Knows s pc') : GateInv pos (s.goto a pc') := by
  refine h.turn ?_ hhold ?_ hlight.owns hold.not_writing ?_ hlets hknows
  · intro p
    rw [hlight.registered, hold.registered]
  · intro f hf
    rw [hlight.ticket] at hf
    cases hf
  · exact fun f i hs => absurd hs (hold.not_spoiled f i)

/-- A step in which an agent that is not registered takes the flipper or gives it back. -/
theorem GateInv.lightFlipper (h : GateInv pos s) {pc' : GatePc} {fl : Option A}
    (hold : (s.pc a).Light) (hlight : pc'.Light)
    (hflipper : ∀ b, (Function.update s.pc a pc' b).holdsFlipper = true ↔ fl = some b)
    (hlets : Lets s a pc') (hknows : Knows s pc') :
    GateInv pos ({ s with flipper := fl }.goto a pc') := by
  refine h.move (c := s.inFlight) ?_ hflipper ?_ hlight.owns hold.not_writing ?_ hlets hknows
  · intro p
    rw [tally_update_same _ _ _ _ ((hlight.registered p).trans (hold.registered p).symm)]
    exact h.counts p
  · intro f hf
    rw [hlight.ticket] at hf
    cases hf
  · exact fun f i hs => absurd hs (hold.not_spoiled f i)

/-- The flipper is taken while nobody holds it. -/
theorem GateInv.lock (h : GateInv pos s) {pc' : GatePc} (hfree : s.flipper = none)
    (hold : (s.pc a).Light) (hlight : pc'.Light) (hhold : pc'.holdsFlipper = true)
    (hlets : Lets s a pc') (hknows : Knows s pc') :
    GateInv pos ({ s with flipper := some a }.goto a pc') := by
  refine h.lightFlipper hold hlight ?_ hlets hknows
  intro b
  by_cases hb : b = a
  · rw [hb, Function.update_self]
    exact iff_of_true hhold rfl
  · rw [Function.update_of_ne hb, h.flipper b, hfree]
    exact iff_of_false nofun fun heq => hb (Option.some.inj heq).symm

/-- Its holder gives the flipper back. -/
theorem GateInv.unlock (h : GateInv pos s) {pc' : GatePc} (hheld : (s.pc a).holdsFlipper = true)
    (hold : (s.pc a).Light) (hlight : pc'.Light) (hhold : pc'.holdsFlipper = false)
    (hlets : Lets s a pc') (hknows : Knows s pc') :
    GateInv pos ({ s with flipper := none }.goto a pc') := by
  refine h.lightFlipper hold hlight ?_ hlets hknows
  have hmine := (h.flipper a).mp hheld
  intro b
  by_cases hb : b = a
  · rw [hb, Function.update_self, hhold]
    exact iff_of_false nofun nofun
  · rw [Function.update_of_ne hb, h.flipper b, hmine]
    exact iff_of_false (fun heq => hb (Option.some.inj heq).symm) nofun

/-! ### Registration -/

omit [Fintype A] [DecidableEq A] in
theorem lets_of_registered {pc' : GatePc} {p : Bool} (h : (s.pc a).registered p = true) :
    Lets s a pc' := by
  intro fr f hpc
  rw [hpc] at h
  cases h

/-- The agent is counted under the parity it read. -/
theorem GateInv.register (h : GateInv pos s) {f : ℕ} (hpc : s.pc a = .loaded f) :
    GateInv pos ((s.raise (parity f)).goto a (.counted f)) := by
  have hpc' : ∀ fr f', s.pc a ≠ .draining fr f' := by
    rw [hpc]
    exact nofun
  refine h.move ?_ (holdsFlipper_update h.flipper a (by rw [hpc]; rfl)) nofun rfl
    (by rw [hpc]; exact nofun) (by rw [hpc]; exact nofun) (fun fr f' hd => absurd hd (hpc' fr f'))
    trivial
  intro p
  have hstep := tally_update (GatePc.registered p) s.pc a (.counted f)
  have hcount := h.counts p
  rw [hpc] at hstep
  by_cases hp : p = parity f
  · subst hp
    rw [Function.update_self]
    simp only [GatePc.registered, Bool.toNat_false, decide_true, Bool.toNat_true] at hstep
    omega
  · rw [Function.update_of_ne hp]
    have hne : ¬ parity f = p := fun heq => hp heq.symm
    simp only [GatePc.registered, Bool.toNat_false, hne, decide_false] at hstep
    omega

/-- The agent that settled its write, or has none, leaves. -/
theorem GateInv.lower (h : GateInv pos s) {f : ℕ} {pc' : GatePc}
    (hreg : ∀ p, (s.pc a).registered p = decide (parity f = p)) (hlight : pc'.Light)
    (hhold : pc'.holdsFlipper = (s.pc a).holdsFlipper) (hwriting : ∀ f i n, s.pc a ≠ .writing f i n)
    (hspoiled : ∀ f i, s.pc a ≠ .spoiled f i) (hknows : Knows s pc') :
    GateInv pos ((s.lower (parity f)).goto a pc') := by
  have hlets : Lets s a pc' := by
    refine lets_of_registered (p := parity f) ?_
    rw [hreg]
    exact decide_eq_true rfl
  refine h.move ?_ (holdsFlipper_update h.flipper a hhold) ?_ hlight.owns hwriting
    (fun f i hs => absurd hs (hspoiled f i)) hlets hknows
  · intro p
    have hstep := tally_update (GatePc.registered p) s.pc a pc'
    have hcount := h.counts p
    rw [hlight.registered, hreg] at hstep
    by_cases hp : p = parity f
    · subst hp
      rw [Function.update_self]
      simp only [decide_true, Bool.toNat_true, Bool.toNat_false] at hstep
      omega
    · rw [Function.update_of_ne hp]
      have hne : ¬ parity f = p := fun heq => hp heq.symm
      simp only [hne, decide_false, Bool.toNat_false] at hstep
      omega
  · intro f' hf'
    rw [hlight.ticket] at hf'
    cases hf'

/-! ### Reservations -/

omit [Fintype A] [DecidableEq A] in
theorem reserve_getElem? {len i : ℕ} {r : GateRange A}
    (h : (s.reserve a len).reservations[i]? = some r) :
    s.reservations[i]? = some r ∨
      i = s.reservations.length ∧ r = ⟨a, s.nextLsn, s.nextLsn + len, .writing⟩ := by
  have h : (s.reservations ++ [⟨a, s.nextLsn, s.nextLsn + len, .writing⟩])[i]? = some r := h
  rcases Nat.lt_or_ge i s.reservations.length with hlt | hge
  · rw [List.getElem?_append_left hlt] at h
    exact .inl h
  · rw [List.getElem?_append_right hge] at h
    have hzero : i - s.reservations.length = 0 := by
      have hlt := (List.getElem?_eq_some_iff.mp h).1
      simp only [List.length_singleton] at hlt
      omega
    rw [hzero] at h
    exact .inr ⟨by omega, (Option.some.inj h).symm⟩

/-- An appender with a ticket reserves a range. -/
theorem GateInv.reserve (h : GateInv pos s) {f : ℕ} (hpc : s.pc a = .ticketed f) (len : ℕ)
    (native : Bool) :
    GateInv pos ((s.reserve a len).goto a (.writing f s.reservations.length native)) := by
  have hself := goto_pc_self (s.reserve a len) a (.writing f s.reservations.length native)
  have hother : ∀ b, b ≠ a → ((s.reserve a len).goto a
      (.writing f s.reservations.length native)).pc b = s.pc b := fun b hb => goto_pc_ne _ hb _
  have hold : ∀ (i : ℕ) r, s.reservations[i]? = some r →
      ((s.reserve a len).goto a (.writing f s.reservations.length native)).reservations[i]? =
        some r := by
    intro i r hr
    show (s.reservations ++ [_])[i]? = some r
    rw [List.getElem?_append_left (List.getElem?_eq_some_iff.mp hr).1]
    exact hr
  have honward : Onward s ((s.reserve a len).goto a (.writing f s.reservations.length native)) := by
    refine ⟨Nat.le_add_right _ _, Nat.le_succ _, fun t ht => ht, ?_, ?_⟩
    · intro b f' i r howns hr hlt
      rcases reserve_getElem? hr with hr | ⟨-, rfl⟩
      · by_cases hb : b = a
        · rw [hb, hself] at howns
          cases howns
          exact absurd (List.getElem?_eq_some_iff.mp hr).1 (Nat.lt_irrefl _)
        · rw [hother b hb] at howns
          exact ⟨r, howns, hr, rfl⟩
      · exact absurd hlt (Nat.lt_irrefl _)
    · intro r hr hlt
      rcases List.mem_append.mp hr with hr | hr
      · exact ⟨r, hr, rfl, fun _ h => h⟩
      · cases List.mem_singleton.mp hr
        exact absurd hlt (Nat.lt_irrefl _)
  refine ⟨?_, ?_, ?_, ?_, ?_, ?_, ?_, ?_, ?_, h.durable.onward honward rfl⟩
  · intro p
    refine (h.counts p).trans (tally_update_same _ _ _ _ ?_).symm
    rw [hpc]
    rfl
  · exact holdsFlipper_update h.flipper a (by rw [hpc]; rfl)
  · intro b f' hb
    have hdrain : ∀ b fr f', s.pc b = .draining fr f' → ((s.reserve a len).goto a
        (.writing f s.reservations.length native)).pc b = .draining fr f' := by
      intro b fr f' hd
      have hb : b ≠ a := by
        rintro rfl
        rw [hpc] at hd
        cases hd
      rw [hother b hb, hd]
    have hticket : (s.pc b).ticket = some f' := by
      by_cases hba : b = a
      · rw [hba, hself] at hb
        rw [hba, hpc]
        exact hb
      · rwa [hother b hba] at hb
    rcases h.tickets b f' hticket with heq | ⟨heq, e, fr, he⟩
    · exact .inl heq
    · exact .inr ⟨heq, e, fr, hdrain e fr f' he⟩
  · intro b f' i n hb
    by_cases hba : b = a
    · rw [hba, hself] at hb
      cases hb
      exact ⟨_, List.getElem?_concat_length, hba.symm, rfl⟩
    · rw [hother b hba] at hb
      obtain ⟨r, hr, howner, hstatus⟩ := h.writing b f' i n hb
      exact ⟨r, hold i r hr, howner, hstatus⟩
  · intro b f' i hb
    have hba : b ≠ a := by
      rintro rfl
      rw [hself] at hb
      cases hb
    rw [hother b hba] at hb
    obtain ⟨r, hr, howner, hstatus⟩ := h.spoiled b f' i hb
    exact ⟨r, hold i r hr, howner, hstatus⟩
  · intro i r hr
    have hlight : ∀ b f' i' n, (s.pc b = .writing f' i' n ∨ s.pc b = .spoiled f' i') → b ≠ a := by
      rintro b f' i' n hb rfl
      rw [hpc] at hb
      rcases hb with hb | hb
      all_goals cases hb
    rcases reserve_getElem? hr with hr | ⟨rfl, rfl⟩
    · obtain ⟨hw, hf⟩ := h.unsettled i r hr
      refine ⟨?_, ?_⟩
      · intro hstatus
        obtain ⟨f', n, hb⟩ := hw hstatus
        exact ⟨f', n, by rw [hother _ (hlight _ f' i n (.inl hb)), hb]⟩
      · intro hstatus
        rcases hf hstatus with hp | ⟨f', hb⟩
        · exact .inl hp
        · exact .inr ⟨f', by rw [hother _ (hlight _ f' i native (.inr hb)), hb]⟩
    · exact ⟨fun _ => ⟨f, native, hself⟩, nofun⟩
  · intro r hr d hd
    rcases List.mem_append.mp hr with hr | hr
    · exact Nat.lt_succ_of_lt (h.times r hr d hd)
    · cases List.mem_singleton.mp hr
      cases hd
  · intro p hpos hlt
    have hlt : p < s.nextLsn + len := hlt
    by_cases hp : p < s.nextLsn
    · obtain ⟨r, hr, hin⟩ := h.covers p hpos hp
      exact ⟨r, List.mem_append_left _ hr, hin⟩
    · exact ⟨_, List.mem_append_right _ List.mem_cons_self, Nat.le_of_not_lt hp, hlt⟩
  · intro b
    by_cases hba : b = a
    · rw [hba, hself]
      trivial
    · rw [hother b hba]
      exact (h.knows b).onward honward fun _ _ _ => rfl

omit [Fintype A] [DecidableEq A] in
theorem settle_getElem? {i j : ℕ} {status : Status} {r' : GateRange A}
    (h : (s.settle i status).reservations[j]? = some r') :
    ∃ r, s.reservations[j]? = some r ∧ r' = if i = j then { r with status := status } else r := by
  have h : (s.reservations.modify i fun r => { r with status := status })[j]? = some r' := h
  rw [List.getElem?_modify, Option.map_eq_map, Option.map_eq_some_iff] at h
  obtain ⟨r, hr, heq⟩ := h
  refine ⟨r, hr, ?_⟩
  rw [← heq]

omit [Fintype A] [DecidableEq A] in
theorem settle_getElem?_ne {i j : ℕ} {status : Status} {r : GateRange A} (hij : i ≠ j)
    (hr : s.reservations[j]? = some r) : (s.settle i status).reservations[j]? = some r := by
  show (s.reservations.modify i _)[j]? = some r
  rw [List.getElem?_modify, hr]
  simp [hij]

omit [Fintype A] [DecidableEq A] in
theorem settle_getElem?_self {i : ℕ} {status : Status} {r : GateRange A}
    (hr : s.reservations[i]? = some r) :
    (s.settle i status).reservations[i]? = some { r with status := status } := by
  show (s.reservations.modify i _)[i]? = _
  rw [List.getElem?_modify, hr]
  simp

omit [Fintype A] [DecidableEq A] in
/-- A settled reservation was being written; the others are as they were. -/
theorem settle_mem {i : ℕ} {status : Status} {mine r' : GateRange A}
    (hmine : s.reservations[i]? = some mine) (hwriting : mine.status = .writing)
    (h : r' ∈ (s.settle i status).reservations) :
    ∃ r ∈ s.reservations, r'.start = r.start ∧ r'.stop = r.stop ∧
      (r'.status = r.status ∨ r.status = .writing ∧ r'.status = status) := by
  obtain ⟨j, hj⟩ := List.getElem?_of_mem h
  obtain ⟨r, hr, rfl⟩ := settle_getElem? hj
  refine ⟨r, List.mem_of_getElem? hr, ?_⟩
  split
  · rename_i hij
    subst hij
    cases hmine.symm.trans hr
    exact ⟨rfl, rfl, .inr ⟨hwriting, rfl⟩⟩
  · exact ⟨rfl, rfl, .inl rfl⟩

/-- How the write of epoch `f` to reservation `i` ends: in full, or with a hole that is yet to
be reported. -/
def EndsAs (s : Gate A) (f i : ℕ) (status : Status) (pc' : GatePc) : Prop :=
  status = .written s.clock ∧ pc' = .ending f ∨ status = .failed ∧ pc' = .spoiled f i

section EndsAs

variable {f i j : ℕ} {n : Bool} {status : Status} {pc' : GatePc}

omit [Fintype A] [DecidableEq A] in
/-- The agent keeps its ticket, and owns no other reservation. -/
theorem EndsAs.same (h : EndsAs s f i status pc') :
    (∀ p, pc'.registered p = (GatePc.writing f i n).registered p) ∧
      pc'.ticket = some f ∧ pc'.holdsFlipper = false ∧
      (∀ f' j, pc'.owns = some (f', j) → f' = f ∧ j = i) ∧
      ∀ f' j m, pc' ≠ .writing f' j m := by
  rcases h with ⟨-, rfl⟩ | ⟨-, rfl⟩
  · exact ⟨fun _ => rfl, rfl, rfl, nofun, nofun⟩
  · refine ⟨fun _ => rfl, rfl, rfl, ?_, nofun⟩
    intro f' j heq
    cases heq
    exact ⟨rfl, rfl⟩

omit [DecidableEq A] in
/-- No other agent has this reservation. -/
theorem GateInv.reservation_ne (h : GateInv pos s) (hpc : s.pc a = .writing f i n) {b : A}
    (hb : b ≠ a) {f' : ℕ} {m : Bool} (hown : s.pc b = .writing f' j m ∨ s.pc b = .spoiled f' j) :
    i ≠ j := by
  obtain ⟨mine, hmine, howner, -⟩ := h.writing a f i n hpc
  rintro rfl
  rcases hown with hown | hown
  · obtain ⟨r, hr, hro, -⟩ := h.writing b f' i m hown
    cases hmine.symm.trans hr
    exact hb (hro.symm.trans howner)
  · obtain ⟨r, hr, hro, -⟩ := h.spoiled b f' i hown
    cases hmine.symm.trans hr
    exact hb (hro.symm.trans howner)

theorem GateInv.settle_onward (h : GateInv pos s) (hpc : s.pc a = .writing f i n)
    (hend : EndsAs s f i status pc') : Onward s ((s.settle i status).goto a pc') := by
  obtain ⟨mine, hmine, -, hwriting⟩ := h.writing a f i n hpc
  obtain ⟨-, -, -, howns, -⟩ := hend.same (n := n)
  refine ⟨Nat.le_refl _, Nat.le_succ _, fun t ht => ht, ?_, ?_⟩
  · intro b f' j r' hown hr' _
    obtain ⟨r, hr, hrr⟩ := settle_getElem? hr'
    refine ⟨r, ?_, hr, ?_⟩
    · by_cases hb : b = a
      · rw [hb, goto_pc_self] at hown
        obtain ⟨rfl, rfl⟩ := howns f' j hown
        rw [hb, hpc]
        rfl
      · rwa [goto_pc_ne _ hb] at hown
    · rw [hrr]
      split <;> rfl
  · intro r' hr' _
    obtain ⟨r, hr, hstart, -, hstatus⟩ := settle_mem hmine hwriting hr'
    refine ⟨r, hr, hstart.symm, ?_⟩
    intro d hd
    rcases hstatus with heq | ⟨hw, -⟩
    · rw [heq, hd]
    · rw [hw] at hd
      cases hd

theorem GateInv.settle_tickets (h : GateInv pos s) (hpc : s.pc a = .writing f i n)
    (hend : EndsAs s f i status pc') (b : A) (f' : ℕ)
    (hb : (((s.settle i status).goto a pc').pc b).ticket = some f') :
    f' = s.flips ∨ f' + 1 = s.flips ∧
      ∃ e fr, ((s.settle i status).goto a pc').pc e = .draining fr f' := by
  have hold : (s.pc b).ticket = some f' := by
    by_cases hba : b = a
    · obtain ⟨-, hticket, -⟩ := hend.same (n := n)
      rw [hba, goto_pc_self, hticket] at hb
      rw [hba, hpc]
      exact hb
    · rwa [goto_pc_ne _ hba] at hb
  rcases h.tickets b f' hold with heq | ⟨heq, e, fr, he⟩
  · exact .inl heq
  · have hea : e ≠ a := by
      rintro rfl
      rw [hpc] at he
      cases he
    exact .inr ⟨heq, e, fr, by rw [goto_pc_ne _ hea]; exact he⟩

theorem GateInv.settle_spoiled (h : GateInv pos s) (hpc : s.pc a = .writing f i n)
    (hend : EndsAs s f i status pc') (b : A) (f' j : ℕ)
    (hb : ((s.settle i status).goto a pc').pc b = .spoiled f' j) :
    ∃ r, (s.settle i status).reservations[j]? = some r ∧ r.owner = b ∧ r.status = .failed := by
  obtain ⟨mine, hmine, howner, -⟩ := h.writing a f i n hpc
  by_cases hba : b = a
  · rw [hba, goto_pc_self] at hb
    rcases hend with ⟨-, rfl⟩ | ⟨rfl, rfl⟩
    · cases hb
    · cases hb
      exact ⟨_, settle_getElem?_self hmine, howner.trans hba.symm, rfl⟩
  · rw [goto_pc_ne _ hba] at hb
    obtain ⟨r, hr, hro, hst⟩ := h.spoiled b f' j hb
    exact ⟨r, settle_getElem?_ne (h.reservation_ne hpc hba (m := n) (.inr hb)) hr, hro, hst⟩

theorem GateInv.settle_unsettled (h : GateInv pos s) (hpc : s.pc a = .writing f i n)
    (hend : EndsAs s f i status pc') (j : ℕ) (r' : GateRange A)
    (hr' : (s.settle i status).reservations[j]? = some r') :
    (r'.status = .writing → ∃ f n, ((s.settle i status).goto a pc').pc r'.owner =
      .writing f j n) ∧
    (r'.status = .failed → s.poison = true ∨
      ∃ f, ((s.settle i status).goto a pc').pc r'.owner = .spoiled f j) := by
  obtain ⟨mine, hmine, howner, -⟩ := h.writing a f i n hpc
  obtain ⟨r, hr, hrr⟩ := settle_getElem? hr'
  by_cases hij : i = j
  · subst hij
    cases hmine.symm.trans hr
    rw [if_pos rfl] at hrr
    subst hrr
    rcases hend with ⟨rfl, -⟩ | ⟨rfl, rfl⟩
    · exact ⟨nofun, nofun⟩
    · refine ⟨nofun, fun _ => .inr ⟨f, ?_⟩⟩
      show ((s.settle i .failed).goto a (.spoiled f i)).pc mine.owner = _
      rw [howner, goto_pc_self]
  · rw [if_neg hij] at hrr
    subst hrr
    obtain ⟨hw, hf⟩ := h.unsettled j r' hr
    have hra : ∀ f' m, s.pc r'.owner = .writing f' j m ∨ s.pc r'.owner = .spoiled f' j →
        r'.owner ≠ a := by
      intro f' m hown heq
      rw [heq, hpc] at hown
      rcases hown with hown | hown
      · cases hown
        exact hij rfl
      · cases hown
    refine ⟨?_, ?_⟩
    · intro hst
      obtain ⟨f', m, hown⟩ := hw hst
      exact ⟨f', m, by rw [goto_pc_ne _ (hra f' m (.inl hown))]; exact hown⟩
    · intro hst
      rcases hf hst with hp | ⟨f', hown⟩
      · exact .inl hp
      · exact .inr ⟨f', by rw [goto_pc_ne _ (hra f' n (.inr hown))]; exact hown⟩

omit [DecidableEq A] in
theorem GateInv.settle_covers (h : GateInv pos s) (hpc : s.pc a = .writing f i n) (p : ℕ)
    (hpos : pos ≤ p) (hlt : p < s.nextLsn) :
    ∃ r ∈ (s.settle i status).reservations, r.start ≤ p ∧ p < r.stop := by
  obtain ⟨mine, hmine, -, -⟩ := h.writing a f i n hpc
  obtain ⟨r, hr, hin⟩ := h.covers p hpos hlt
  obtain ⟨j, hj⟩ := List.getElem?_of_mem hr
  by_cases hij : i = j
  · subst hij
    cases hmine.symm.trans hj
    exact ⟨_, List.mem_of_getElem? (settle_getElem?_self hmine), hin⟩
  · exact ⟨r, List.mem_of_getElem? (settle_getElem?_ne hij hj), hin⟩

/-- The write of an appender ends. -/
theorem GateInv.settle (h : GateInv pos s) (hpc : s.pc a = .writing f i n)
    (hend : EndsAs s f i status pc') : GateInv pos ((s.settle i status).goto a pc') := by
  obtain ⟨mine, hmine, -, hwriting⟩ := h.writing a f i n hpc
  obtain ⟨hreg, -, hflipper, -, hnot⟩ := hend.same (n := n)
  have honward := h.settle_onward hpc hend
  exact
    { counts := by
        intro p
        refine (h.counts p).trans (tally_update_same _ _ _ _ ?_).symm
        rw [hpc]
        exact hreg p
      flipper := by
        refine holdsFlipper_update h.flipper a ?_
        rw [hpc]
        exact hflipper
      tickets := h.settle_tickets hpc hend
      writing := by
        intro b f' j m hb
        have hba : b ≠ a := by
          rintro rfl
          rw [goto_pc_self] at hb
          exact hnot f' j m hb
        rw [goto_pc_ne _ hba] at hb
        obtain ⟨r, hr, hro, hst⟩ := h.writing b f' j m hb
        exact ⟨r, settle_getElem?_ne (h.reservation_ne hpc hba (.inl hb)) hr, hro, hst⟩
      spoiled := h.settle_spoiled hpc hend
      unsettled := h.settle_unsettled hpc hend
      times := by
        intro r' hr' d hd
        obtain ⟨r, hr, -, -, hstatus⟩ := settle_mem hmine hwriting hr'
        rcases hstatus with heq | ⟨-, heq⟩
        · exact Nat.lt_succ_of_lt (h.times r hr d (heq ▸ hd))
        · rw [heq] at hd
          rcases hend with ⟨rfl, -⟩ | ⟨rfl, -⟩
          · cases hd
            exact Nat.lt_succ_self _
          · cases hd
      covers := h.settle_covers hpc
      knows := by
        intro b
        by_cases hba : b = a
        · rw [hba, goto_pc_self]
          rcases hend with ⟨-, rfl⟩ | ⟨-, rfl⟩
          all_goals trivial
        · rw [goto_pc_ne _ hba]
          exact (h.knows b).onward honward fun _ _ _ => rfl
      durable := h.durable.onward honward rfl }

end EndsAs

/-! ### Leaders -/

omit [DecidableEq A] in
/-- Only the holder of the flipper drains. -/
theorem GateInv.draining_eq (h : GateInv pos s) {b : A} {fr f : ℕ}
    (ha : (s.pc a).holdsFlipper = true) (hb : s.pc b = .draining fr f) : b = a := by
  have hmine := (h.flipper a).mp ha
  have hother := (h.flipper b).mp (by rw [hb]; rfl)
  exact Option.some.inj (hother.symm.trans hmine)

/-- The epoch flips: all tickets are of the epoch before. -/
theorem GateInv.flip (h : GateInv pos s) {fr : ℕ} (hpc : s.pc a = .framed fr) :
    GateInv pos ({ s with flips := s.flips + 1 }.goto a (.draining fr s.flips)) := by
  have hself := goto_pc_self { s with flips := s.flips + 1 } a (.draining fr s.flips)
  have hother : ∀ b, b ≠ a →
      ({ s with flips := s.flips + 1 }.goto a (.draining fr s.flips)).pc b = s.pc b :=
    fun b hb => goto_pc_ne _ hb _
  have hheld : (s.pc a).holdsFlipper = true := by rw [hpc]; rfl
  have hcurrent : ∀ b f, (s.pc b).ticket = some f → f = s.flips := by
    intro b f hb
    rcases h.tickets b f hb with heq | ⟨-, e, fr', he⟩
    · exact heq
    · have hea := h.draining_eq hheld he
      rw [hea, hpc] at he
      cases he
  have honward : Onward s ({ s with flips := s.flips + 1 }.goto a (.draining fr s.flips)) := by
    refine ⟨Nat.le_refl _, Nat.le_succ _, fun t ht => ht, ?_,
      fun r hr _ => ⟨r, hr, rfl, fun _ h => h⟩⟩
    intro b f i r hown hr _
    by_cases hb : b = a
    · rw [hb, hself] at hown
      cases hown
    · rw [hother b hb] at hown
      exact ⟨r, hown, hr, rfl⟩
  have hframed : fr ≤ s.nextLsn := by
    have hk := h.knows a
    rw [hpc] at hk
    exact hk
  refine ⟨?_, ?_, ?_, ?_, ?_, ?_, ?_, h.covers, ?_, h.durable.onward honward rfl⟩
  · intro p
    refine (h.counts p).trans (tally_update_same _ _ _ _ ?_).symm
    rw [hpc]
    rfl
  · exact holdsFlipper_update h.flipper a (by rw [hpc]; rfl)
  · intro b f hb
    have hba : b ≠ a := by
      rintro rfl
      rw [hself] at hb
      cases hb
    rw [hother b hba] at hb
    have heq := hcurrent b f hb
    exact .inr ⟨congrArg (· + 1) heq, a, fr, by rw [hself, heq]⟩
  · intro b f i n hb
    have hba : b ≠ a := by
      rintro rfl
      rw [hself] at hb
      cases hb
    rw [hother b hba] at hb
    exact h.writing b f i n hb
  · intro b f i hb
    have hba : b ≠ a := by
      rintro rfl
      rw [hself] at hb
      cases hb
    rw [hother b hba] at hb
    exact h.spoiled b f i hb
  · intro i r hr
    have hra : ∀ f n, s.pc r.owner = .writing f i n ∨ s.pc r.owner = .spoiled f i →
        r.owner ≠ a := by
      intro f n hown heq
      rw [heq, hpc] at hown
      rcases hown with hown | hown
      all_goals cases hown
    obtain ⟨hw, hf⟩ := h.unsettled i r hr
    refine ⟨?_, ?_⟩
    · intro hst
      obtain ⟨f, n, hown⟩ := hw hst
      exact ⟨f, n, by rw [hother _ (hra f n (.inl hown)), hown]⟩
    · intro hst
      rcases hf hst with hp | ⟨f, hown⟩
      · exact .inl hp
      · exact .inr ⟨f, by rw [hother _ (hra f false (.inr hown)), hown]⟩
  · intro r hr d hd
    exact Nat.lt_succ_of_lt (h.times r hr d hd)
  · intro b
    by_cases hba : b = a
    · rw [hba, hself]
      refine ⟨hframed, ?_, rfl⟩
      intro e f i r hown _ _
      have hea : e ≠ a := by
        rintro rfl
        rw [hself] at hown
        cases hown
      rw [hother e hea] at hown
      exact hcurrent e f (GatePc.ticket_of_owns hown)
    · rw [hother b hba]
      refine (h.knows b).onward honward ?_
      intro fr' f hd
      exact absurd (h.draining_eq hheld hd) hba

omit [DecidableEq A] in
/-- Words that no agent's place depends on. -/
theorem GateInv.words (h : GateInv pos s) (closed poison : Bool) (fsyncs : List ℕ) (synced : ℕ)
    (hp : s.poison = true → poison = true) (hf : ∀ t ∈ s.fsyncs, t ∈ fsyncs)
    (hd : Durable { s with
      closed := closed
      poison := poison
      fsyncs := fsyncs
      syncedLsn := synced }) :
    GateInv pos { s with
      closed := closed
      poison := poison
      fsyncs := fsyncs
      syncedLsn := synced } := by
  refine ⟨h.counts, h.flipper, h.tickets, h.writing, h.spoiled, ?_, h.times, h.covers, ?_, hd⟩
  · intro i r hr
    obtain ⟨hw, hfail⟩ := h.unsettled i r hr
    exact ⟨hw, fun hst => (hfail hst).imp hp id⟩
  · intro b
    refine (h.knows b).onward ⟨Nat.le_refl _, Nat.le_refl _, hf, ?_, ?_⟩ fun _ _ _ => rfl
    · exact fun b f i r hown hr _ => ⟨r, hown, hr, rfl⟩
    · exact fun r hr _ => ⟨r, hr, rfl, fun _ h => h⟩

omit [DecidableEq A] in
/-- With no owner below the frontier and no poison, everything below it was written. -/
theorem GateInv.writtenBelow (h : GateInv pos s) (hclean : s.poison = false)
    (ho : OwnersBelow s fr fun _ => False) : WrittenBelow s fr s.clock := by
  intro r hr hlt
  obtain ⟨i, hi⟩ := List.getElem?_of_mem hr
  obtain ⟨hw, hf⟩ := h.unsettled i r hi
  cases hst : r.status with
  | written d => exact ⟨d, rfl, h.times r hr d hst⟩
  | writing =>
    obtain ⟨f, n, hown⟩ := hw hst
    exact (ho r.owner f i r (by rw [hown]; rfl) hi hlt).elim
  | failed =>
    rcases hf hst with hp | ⟨f, hown⟩
    · exact absurd (hp.symm.trans hclean) nofun
    · exact (ho r.owner f i r (by rw [hown]; rfl) hi hlt).elim

omit [DecidableEq A] in
/-- A counter that reads zero: nobody holds a ticket of its parity. -/
theorem GateInv.no_ticket (h : GateInv pos s) {p : Bool} (hzero : s.inFlight p = 0) {b : A} {f : ℕ}
    (hb : (s.pc b).ticket = some f) : parity f ≠ p := by
  rintro rfl
  have hreg := of_tally_eq_zero ((h.counts (parity f)).symm.trans hzero) b
  rw [GatePc.registered_of_ticket hb] at hreg
  cases hreg

/-! ### Steps -/

omit [Fintype A] [DecidableEq A] in
theorem lets_of_ne {pc' : GatePc} (h : ∀ fr f, s.pc a ≠ .draining fr f) : Lets s a pc' :=
  fun fr f hd => absurd hd (h fr f)

/-- The conditions of `GateInv.light` for an agent in a known place. -/
theorem GateInv.step_light (h : GateInv pos s) {pc pc' : GatePc} (hpc : s.pc a = pc)
    (hold : pc.Light) (hlight : pc'.Light) (hhold : pc'.holdsFlipper = pc.holdsFlipper)
    (hdrain : ∀ fr f, pc ≠ .draining fr f) (hknows : Knows s pc') : GateInv pos (s.goto a pc') := by
  subst hpc
  exact h.light hold hlight hhold (lets_of_ne hdrain) hknows

theorem GateInv.nextAppend (h : GateInv pos s) {e : GateEvent}
    (hn : s.nextAppend a e = some s') : GateInv pos s' := by
  have hentering : GatePc.entering.Light := ⟨fun _ => rfl, rfl, rfl⟩
  have hidle : GatePc.idle.Light := ⟨fun _ => rfl, rfl, rfl⟩
  cases e with
  | callAppend =>
    simp only [Gate.nextAppend] at hn
    split at hn
    · rename_i hpc
      cases hn
      split
      · exact h.step_light hpc hidle hidle rfl nofun trivial
      · exact h.step_light hpc hidle hentering rfl nofun trivial
    · cases hn
  | loadEpoch =>
    simp only [Gate.nextAppend] at hn
    split at hn
    · rename_i hpc
      cases hn
      split
      · exact h.step_light hpc hentering hentering rfl nofun trivial
      · exact h.step_light hpc hentering ⟨fun _ => rfl, rfl, rfl⟩ rfl nofun trivial
    · cases hn
  | register =>
    simp only [Gate.nextAppend] at hn
    split at hn
    · rename_i f hpc
      cases hn
      exact h.register hpc
    · cases hn
  | confirm =>
    simp only [Gate.nextAppend] at hn
    split at hn
    · rename_i f hpc
      cases hn
      have hdrain : ∀ fr f', s.pc a ≠ .draining fr f' := by rw [hpc]; exact nofun
      have hwriting : ∀ f' i n, s.pc a ≠ .writing f' i n := by rw [hpc]; exact nofun
      have hspoiled : ∀ f' i, s.pc a = .spoiled f' i → s.poison = true := by
        rw [hpc]
        exact nofun
      split
      · rename_i hsame
        refine h.turn (by rw [hpc]; exact fun _ => rfl) (by rw [hpc]; rfl) ?_ rfl hwriting hspoiled
          (lets_of_ne hdrain) trivial
        intro f' hf'
        cases hf'
        exact .inr hsame.1.symm
      · exact h.turn (by rw [hpc]; exact fun _ => rfl) (by rw [hpc]; rfl) nofun rfl hwriting
          hspoiled
          (lets_of_ne hdrain) trivial
    · cases hn
  | backOut =>
    simp only [Gate.nextAppend] at hn
    split at hn
    · rename_i f hpc
      cases hn
      exact h.lower (by rw [hpc]; exact fun _ => rfl) hentering (by rw [hpc]; rfl)
        (by rw [hpc]; exact nofun) (by rw [hpc]; exact nofun) trivial
    · cases hn
  | giveUp =>
    simp only [Gate.nextAppend] at hn
    split at hn
    · rename_i hpc
      cases hn
      exact h.step_light hpc hentering hidle rfl nofun trivial
    · cases hn
  | reserve len native =>
    simp only [Gate.nextAppend] at hn
    split at hn
    · rename_i f hpc
      cases hn
      exact h.reserve hpc len native
    · cases hn
  | writeEnds how =>
    simp only [Gate.nextAppend] at hn
    split at hn
    · rename_i f i native hpc
      split at hn
      · split at hn
        · cases hn
          exact h.settle hpc (.inl ⟨rfl, rfl⟩)
        · cases hn
          exact h.settle hpc (.inr ⟨rfl, rfl⟩)
      · cases hn
    · cases hn
  | poisonWrite =>
    simp only [Gate.nextAppend] at hn
    split at hn
    · rename_i f i hpc
      cases hn
      have hpoisoned := h.words s.closed true s.fsyncs s.syncedLsn (fun _ => rfl)
        (fun t ht => ht) h.durable
      refine hpoisoned.turn (a := a) ?_ ?_ ?_ rfl ?_ (fun _ _ _ => rfl) ?_ trivial
      all_goals dsimp only [Lets]
      all_goals rw [hpc]
      · exact fun _ => rfl
      · rfl
      · exact fun f' hf' => .inl hf'
      · exact nofun
      · exact nofun
    · cases hn
  | leave =>
    simp only [Gate.nextAppend] at hn
    split at hn
    · rename_i f hpc
      cases hn
      exact h.lower (by rw [hpc]; exact fun _ => rfl) hidle (by rw [hpc]; rfl)
        (by rw [hpc]; exact nofun) (by rw [hpc]; exact nofun) trivial
    · cases hn
  | _ => cases hn

omit [DecidableEq A] in
/-- What a leader knows after it read a counter at zero. -/
theorem GateInv.quiet (h : GateInv pos s) {p : Bool} (hzero : s.inFlight p = 0) :
    OwnersBelow s fr fun f => parity f ≠ p :=
  fun _ _ _ _ hown _ _ => h.no_ticket hzero (GatePc.ticket_of_owns hown)

omit [DecidableEq A] in
theorem GateInv.knows_at (h : GateInv pos s) {pc : GatePc} (hpc : s.pc a = pc) : Knows s pc :=
  hpc ▸ h.knows a

theorem GateInv.loadQuiet0 (h : GateInv pos s) (hpc : s.pc a = .quiet0 fr) :
    GateInv pos (s.goto a (if s.inFlight false = 0 then .quiet1 fr else .leading)) := by
  have hk : fr ≤ s.nextLsn := h.knows_at hpc
  split
  · rename_i hzero
    refine h.step_light hpc ⟨fun _ => rfl, rfl, rfl⟩ ⟨fun _ => rfl, rfl, rfl⟩ rfl nofun ⟨hk, ?_⟩
    intro b f i r hown hr hlt
    exact Bool.eq_true_of_not_eq_false (h.quiet hzero b f i r hown hr hlt)
  · exact h.step_light hpc ⟨fun _ => rfl, rfl, rfl⟩ ⟨fun _ => rfl, rfl, rfl⟩ rfl nofun trivial

theorem GateInv.loadQuiet1 (h : GateInv pos s) (hpc : s.pc a = .quiet1 fr) :
    GateInv pos (s.goto a (if s.inFlight true = 0 then .captured fr else .leading)) := by
  obtain ⟨hk, howners⟩ := h.knows_at hpc
  split
  · rename_i hzero
    refine h.step_light hpc ⟨fun _ => rfl, rfl, rfl⟩ ⟨fun _ => rfl, rfl, rfl⟩ rfl nofun ⟨hk, ?_⟩
    intro b f i r hown hr hlt
    exact h.quiet hzero b f i r hown hr hlt (howners b f i r hown hr hlt)
  · exact h.step_light hpc ⟨fun _ => rfl, rfl, rfl⟩ ⟨fun _ => rfl, rfl, rfl⟩ rfl nofun trivial

/-- The drained parity is the one of the epoch that ended. -/
theorem GateInv.loadZero (h : GateInv pos s) {f : ℕ} (hpc : s.pc a = .draining fr f) :
    GateInv pos (s.goto a (if s.inFlight (parity f) = 0 then .drained fr else .draining fr f)) := by
  have hold : (s.pc a).Light := by rw [hpc]; exact ⟨fun _ => rfl, rfl, rfl⟩
  obtain ⟨hk, howners, hflips⟩ := h.knows_at hpc
  split
  · rename_i hzero
    refine h.light hold ⟨fun _ => rfl, rfl, rfl⟩ (by rw [hpc]; rfl) ?_ ⟨hk, ?_⟩
    · intro fr' f' hd
      rw [hpc] at hd
      cases hd
      exact .inr fun b hb => h.no_ticket hzero hb rfl
    · intro b f' i r hown hr hlt
      exact h.quiet hzero b f' i r hown hr hlt (howners b f' i r hown hr hlt ▸ rfl)
  · refine h.light hold ⟨fun _ => rfl, rfl, rfl⟩ (by rw [hpc]) ?_ ⟨hk, howners, hflips⟩
    intro fr' f' hd
    exact .inl (hpc.symm.trans hd)

/-- What was written when the fsync started is covered by it. -/
theorem GateInv.fsyncSucceeds (h : GateInv pos s) {t : ℕ} (hpc : s.pc a = .syncing fr t) :
    GateInv pos ({ s with fsyncs := t :: s.fsyncs }.goto a (.publishing fr)) := by
  have hsynced := h.words s.closed s.poison (t :: s.fsyncs) s.syncedLsn (fun hp => hp)
    (fun t' ht' => List.mem_cons_of_mem _ ht') ?_
  · obtain ⟨hk, hw⟩ := h.knows_at hpc
    exact hsynced.step_light (a := a) hpc ⟨fun _ => rfl, rfl, rfl⟩ ⟨fun _ => rfl, rfl, rfl⟩ rfl
      nofun ⟨hk, t, List.mem_cons_self, hw⟩
  · refine ⟨h.durable.1, ?_⟩
    intro r hr hlt
    obtain ⟨d, hd, t', ht', hdt⟩ := h.durable.2 r hr hlt
    exact ⟨d, hd, t', List.mem_cons_of_mem _ ht', hdt⟩

theorem GateInv.publish (h : GateInv pos s) (hpc : s.pc a = .publishing fr) :
    GateInv pos ({ s with syncedLsn := max s.syncedLsn fr }.goto a .idle) := by
  obtain ⟨hk, t, ht, hw⟩ := h.knows_at hpc
  have hpublished := h.words s.closed s.poison s.fsyncs (max s.syncedLsn fr) (fun hp => hp)
    (fun t ht => ht) ?_
  · exact hpublished.step_light (a := a) hpc ⟨fun _ => rfl, rfl, rfl⟩ ⟨fun _ => rfl, rfl, rfl⟩ rfl
      nofun trivial
  · refine ⟨Nat.max_le.mpr ⟨h.durable.1, hk⟩, ?_⟩
    intro r hr hlt
    rcases Nat.lt_or_ge r.start s.syncedLsn with hold | hnew
    · exact h.durable.2 r hr hold
    · have hlt : r.start < max s.syncedLsn fr := hlt
      obtain ⟨d, hd, hdt⟩ := hw r hr (by omega)
      exact ⟨d, hd, t, ht, hdt⟩

theorem GateInv.nextLead (h : GateInv pos s) {e : GateEvent}
    (hn : s.nextLead a e = some s') : GateInv pos s' := by
  have hidle : GatePc.idle.Light := ⟨fun _ => rfl, rfl, rfl⟩
  have hleading : GatePc.leading.Light := ⟨fun _ => rfl, rfl, rfl⟩
  cases e with
  | callLead =>
    simp only [Gate.nextLead] at hn
    split at hn
    · rename_i hpc
      cases hn
      exact h.step_light hpc hidle hleading rfl nofun trivial
    · cases hn
  | readQuiet =>
    simp only [Gate.nextLead] at hn
    split at hn
    · rename_i hpc
      cases hn
      exact h.step_light hpc hleading ⟨fun _ => rfl, rfl, rfl⟩ rfl nofun (Nat.le_refl _)
    · cases hn
  | loadQuiet0 =>
    simp only [Gate.nextLead] at hn
    split at hn
    · rename_i fr hpc
      cases hn
      exact h.loadQuiet0 hpc
    · cases hn
  | loadQuiet1 =>
    simp only [Gate.nextLead] at hn
    split at hn
    · rename_i fr hpc
      cases hn
      exact h.loadQuiet1 hpc
    · cases hn
  | lockFlipper =>
    simp only [Gate.nextLead] at hn
    split at hn
    · rename_i hguard
      cases hn
      have hpc := hguard.1
      exact h.lock hguard.2 (hpc ▸ hleading) ⟨fun _ => rfl, rfl, rfl⟩ rfl
        (lets_of_ne (by rw [hpc]; exact nofun)) trivial
    · cases hn
  | readFrontier =>
    simp only [Gate.nextLead] at hn
    split at hn
    · rename_i hpc
      cases hn
      exact h.step_light hpc ⟨fun _ => rfl, rfl, rfl⟩ ⟨fun _ => rfl, rfl, rfl⟩ rfl nofun
        (Nat.le_refl _)
    · cases hn
  | flip =>
    simp only [Gate.nextLead] at hn
    split at hn
    · rename_i fr hpc
      cases hn
      exact h.flip hpc
    · cases hn
  | loadZero =>
    simp only [Gate.nextLead] at hn
    split at hn
    · rename_i fr f hpc
      cases hn
      exact h.loadZero hpc
    · cases hn
  | unlockFlipper =>
    simp only [Gate.nextLead] at hn
    split at hn
    · rename_i fr hpc
      cases hn
      have hknown : Knows s (.drained fr) := h.knows_at hpc
      exact h.unlock (by rw [hpc]; rfl) (by rw [hpc]; exact ⟨fun _ => rfl, rfl, rfl⟩)
        ⟨fun _ => rfl, rfl, rfl⟩ rfl (lets_of_ne (by rw [hpc]; exact nofun)) hknown
    · cases hn
  | quit =>
    simp only [Gate.nextLead] at hn
    split at hn
    case h_6 => cases hn
    all_goals
      rename_i hpc
      cases hn
      exact h.step_light hpc ⟨fun _ => rfl, rfl, rfl⟩ hidle rfl nofun trivial
  | checkPoison =>
    simp only [Gate.nextLead] at hn
    split at hn
    · rename_i fr hpc
      cases hn
      obtain ⟨hk, howners⟩ := h.knows_at hpc
      split
      · exact h.step_light hpc ⟨fun _ => rfl, rfl, rfl⟩ hidle rfl nofun trivial
      · rename_i hclean
        exact h.step_light hpc ⟨fun _ => rfl, rfl, rfl⟩ ⟨fun _ => rfl, rfl, rfl⟩ rfl nofun
          ⟨hk, h.writtenBelow (Bool.eq_false_iff.mpr hclean) howners⟩
    · cases hn
  | startFsync =>
    simp only [Gate.nextLead] at hn
    split at hn
    · rename_i fr hpc
      cases hn
      have hknown : Knows s (.checked fr) := h.knows_at hpc
      exact h.step_light hpc ⟨fun _ => rfl, rfl, rfl⟩ ⟨fun _ => rfl, rfl, rfl⟩ rfl nofun hknown
    · cases hn
  | fsyncReturns ok =>
    simp only [Gate.nextLead] at hn
    split at hn
    · rename_i fr t hpc
      split at hn
      · cases hn
        exact h.fsyncSucceeds hpc
      · cases hn
        exact h.step_light hpc ⟨fun _ => rfl, rfl, rfl⟩ ⟨fun _ => rfl, rfl, rfl⟩ rfl nofun trivial
    · cases hn
  | poisonSync =>
    simp only [Gate.nextLead] at hn
    split at hn
    · rename_i hpc
      cases hn
      have hpoisoned := h.words s.closed true s.fsyncs s.syncedLsn (fun _ => rfl)
        (fun t ht => ht) h.durable
      exact hpoisoned.step_light (a := a) hpc ⟨fun _ => rfl, rfl, rfl⟩ hidle rfl nofun trivial
    · cases hn
  | publish =>
    simp only [Gate.nextLead] at hn
    split at hn
    · rename_i fr hpc
      cases hn
      exact h.publish hpc
    · cases hn
  | _ => cases hn

theorem GateInv.nextClose (h : GateInv pos s) {e : GateEvent}
    (hn : s.nextClose a e = some s') : GateInv pos s' := by
  have hidle : GatePc.idle.Light := ⟨fun _ => rfl, rfl, rfl⟩
  cases e with
  | lockClose =>
    simp only [Gate.nextClose] at hn
    split at hn
    · rename_i hguard
      cases hn
      have hpc := hguard.1
      exact h.lock hguard.2 (hpc ▸ hidle) ⟨fun _ => rfl, rfl, rfl⟩ rfl
        (lets_of_ne (by rw [hpc]; exact nofun)) trivial
    · cases hn
  | setClosed =>
    simp only [Gate.nextClose] at hn
    split at hn
    · rename_i hpc
      cases hn
      have hclosed := h.words true s.poison s.fsyncs s.syncedLsn (fun hp => hp) (fun t ht => ht)
        h.durable
      exact hclosed.step_light (a := a) hpc ⟨fun _ => rfl, rfl, rfl⟩ ⟨fun _ => rfl, rfl, rfl⟩ rfl
        nofun trivial
    · cases hn
  | loadClosed0 =>
    simp only [Gate.nextClose] at hn
    split at hn
    · rename_i hpc
      cases hn
      split
      all_goals
        exact h.step_light hpc ⟨fun _ => rfl, rfl, rfl⟩ ⟨fun _ => rfl, rfl, rfl⟩ rfl nofun trivial
    · cases hn
  | loadClosed1 =>
    simp only [Gate.nextClose] at hn
    split at hn
    · rename_i hpc
      cases hn
      split
      all_goals
        exact h.step_light hpc ⟨fun _ => rfl, rfl, rfl⟩ ⟨fun _ => rfl, rfl, rfl⟩ rfl nofun trivial
    · cases hn
  | reopen =>
    simp only [Gate.nextClose] at hn
    split at hn
    · rename_i hpc
      cases hn
      have hopen := h.words false s.poison s.fsyncs s.syncedLsn (fun hp => hp) (fun t ht => ht)
        h.durable
      exact hopen.step_light (a := a) hpc ⟨fun _ => rfl, rfl, rfl⟩ ⟨fun _ => rfl, rfl, rfl⟩ rfl
        nofun trivial
    · cases hn
  | unlockClose =>
    simp only [Gate.nextClose] at hn
    split at hn
    · rename_i hpc
      cases hn
      exact h.unlock (by rw [hpc]; rfl) (by rw [hpc]; exact ⟨fun _ => rfl, rfl, rfl⟩) hidle rfl
        (lets_of_ne (by rw [hpc]; exact nofun)) trivial
    · cases hn
  | _ => cases hn

theorem GateInv.next (h : GateInv pos s) {act : A × GateEvent} (hn : s.next act = some s') :
    GateInv pos s' := by
  unfold Gate.next at hn
  cases happ : s.nextAppend act.1 act.2 with
  | some t =>
    rw [happ] at hn
    cases hn
    exact h.nextAppend happ
  | none =>
    rw [happ] at hn
    cases hlead : s.nextLead act.1 act.2 with
    | some t =>
      rw [hlead] at hn
      cases hn
      exact h.nextLead hlead
    | none =>
      rw [hlead] at hn
      exact h.nextClose hn

omit [DecidableEq A] in
theorem gateInv_start (pos : ℕ) : GateInv pos (Gate.start pos : Gate A) := by
  refine ⟨?_, fun a => ⟨nofun, nofun⟩, nofun, nofun, nofun, nofun, nofun, ?_, fun _ => trivial, ?_⟩
  · intro p
    exact (Finset.sum_eq_zero fun a _ => rfl).symm
  · intro p hpos hlt
    exact absurd hlt (Nat.not_lt.mpr hpos)
  · exact ⟨Nat.le_refl _, nofun⟩

/-- In every interleaving of any number of appenders, leaders and closers, every byte below
the durable frontier belongs to a reservation that was written before the start of an
fsync that succeeded, and no reservation that is unfinished or failed starts below it. -/
theorem durable_frontier_covers_written (A : Type) [Fintype A] [DecidableEq A] (pos : ℕ)
    (s : Gate A) (h : Reach Gate.next (fun _ => True) (Gate.start pos) s) :
    (∀ p, pos ≤ p → p < s.syncedLsn → ∃ r ∈ s.reservations, r.start ≤ p ∧ p < r.stop ∧
      ∃ d, r.status = .written d ∧ ∃ t ∈ s.fsyncs, d < t) ∧
    ∀ r ∈ s.reservations, (∀ d, r.status ≠ .written d) → s.syncedLsn ≤ r.start := by
  have hinv : GateInv pos s := h.invariant (gateInv_start pos) fun _ _ _ ht _ hn => ht.next hn
  obtain ⟨hle, hdurable⟩ := hinv.durable
  refine ⟨?_, ?_⟩
  · intro p hpos hlt
    obtain ⟨r, hr, hstart, hstop⟩ := hinv.covers p hpos (by omega)
    exact ⟨r, hr, hstart, hstop, hdurable r hr (by omega)⟩
  · intro r hr hnot
    by_contra hlt
    obtain ⟨d, hd, -⟩ := hdurable r hr (Nat.lt_of_not_le hlt)
    exact hnot d hd

/-- Agent 0 appends 13 bytes and stalls in a second append of 20, which agent 1 syncs past:
it reads its frontier between the two. -/
def stalledAppend : List (Fin 2 × GateEvent) :=
  [(0, .callAppend), (0, .loadEpoch), (0, .register), (0, .confirm), (0, .reserve 13 false),
    (0, .writeEnds .full), (0, .leave), (1, .callLead), (1, .lockFlipper), (1, .readFrontier),
    (0, .callAppend), (0, .loadEpoch), (1, .flip), (0, .register), (0, .confirm), (0, .backOut),
    (0, .loadEpoch), (0, .register), (0, .confirm), (0, .reserve 20 true), (1, .loadZero),
    (1, .unlockFlipper), (1, .checkPoison), (1, .startFsync), (1, .fsyncReturns true),
    (1, .publish)]

theorem stalledAppend_isSome :
    (run Gate.next stalledAppend (Gate.start 0)).isSome = true := by decide +kernel

def afterStalledAppend : Gate (Fin 2) :=
  (run Gate.next stalledAppend (Gate.start 0)).get stalledAppend_isSome

theorem afterStalledAppend_lsns :
    afterStalledAppend.syncedLsn = 13 ∧ afterStalledAppend.nextLsn = 33 := by decide +kernel

theorem durable_frontier_covers_written_stalled :
    afterStalledAppend.syncedLsn = 13 ∧ afterStalledAppend.nextLsn = 33 ∧
      (∀ p, 0 ≤ p → p < afterStalledAppend.syncedLsn → ∃ r ∈ afterStalledAppend.reservations,
        r.start ≤ p ∧ p < r.stop ∧
          ∃ d, r.status = .written d ∧ ∃ t ∈ afterStalledAppend.fsyncs, d < t) ∧
      ∀ r ∈ afterStalledAppend.reservations, (∀ d, r.status ≠ .written d) →
        afterStalledAppend.syncedLsn ≤ r.start :=
  ⟨afterStalledAppend_lsns.1, afterStalledAppend_lsns.2,
    durable_frontier_covers_written (Fin 2) 0 afterStalledAppend
      (reach_of_run stalledAppend (Option.some_get _).symm fun _ _ => trivial)⟩

end Fsys.Journal
