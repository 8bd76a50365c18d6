import Fsys.Pipeline.DispatchInv

/-!
# Every step of the group lane keeps the invariant
-/

namespace Fsys.Lane
open Fsys.Base Fsys.Platform

variable {A π : Type} [LinearOrder π] {e : Setting A π} {s s' : Pipeline A π}
  {a : A} {k : ℕ} {p : Stage}

structure PipeInv (e : Setting A π) (s : Pipeline A π) : Prop where
  fleet : FleetInv e s
  jobs : JobInv e s

/-! ### Steps of a thread -/

theorem PipeInv.own (h : PipeInv e s) {sh : Shard A π} (hflow : Flow e sh)
    (hown : OwnStep (s.shard k) sh) (hfinished : sh.finished = (s.shard k).finished)
    (hlost : sh.lost = (s.shard k).lost) : PipeInv e (s.setShard k sh) :=
  ⟨h.fleet.same (sameFleet_setShard hown),
    h.jobs.setShard hflow hown.entered hfinished hlost⟩

theorem PipeInv.nextTake (h : PipeInv e s) (hstep : s.nextTake e k = some s') : PipeInv e s' := by
  obtain ⟨sh, hsh, rfl⟩ := Option.map_eq_some_iff.mp hstep
  obtain ⟨hown, hfinished, hlost, -⟩ := take_own hsh
  exact h.own ((h.jobs.flow k).take hsh) hown hfinished hlost

theorem pipeInv_new : PipeInv e (Pipeline.new : Pipeline A π) := ⟨fleetInv_new, jobInv_new⟩

variable [DecidableEq A]

theorem PipeInv.nextCall (h : PipeInv e s) (hstep : s.nextCall k = some s') : PipeInv e s' := by
  refine ⟨?_, h.jobs.nextCall hstep⟩
  unfold Pipeline.nextCall at hstep
  split at hstep
  · rename_i a c rest jobs last hd
    have hown : OwnStep (s.shard k) ((s.shard k).call a c rest jobs last) :=
      ⟨rfl, rfl, rfl, rfl, by simp [hd], by simp [Shard.call]⟩
    dsimp only at hstep
    cases c <;> cases hstep <;> exact h.fleet.same (sameFleet_setShard hown)
  · cases hstep

theorem PipeInv.nextDiscard (h : PipeInv e s) (hstep : s.nextDiscard k = some s') :
    PipeInv e s' := by
  refine ⟨?_, h.jobs.nextDiscard hstep⟩
  unfold Pipeline.nextDiscard at hstep
  split at hstep
  · cases hstep
    refine h.fleet.same ⟨rfl, ?_, ?_, ?_, ?_, fun _ => Or.inl rfl⟩
    all_goals
      intro j
      simp only [Pipeline.setShard]
      by_cases hj : j = k
      · rw [hj, Function.update_self]
        rfl
      · rw [Function.update_of_ne hj]
  · cases hstep

/-! ### Steps of callers outside `ensure_running` -/

theorem PipeInv.goto (h : PipeInv e s) (hold : (s.stage a).ensuring = false)
    (hnew : p.ensuring = false) (hjobs : JobInv e (s.goto a p)) : PipeInv e (s.goto a p) :=
  ⟨h.fleet.same (sameFleet_goto hold hnew), hjobs⟩

theorem Stage.not_ensuring_of_offering (h : p.offering = true) : p.ensuring = false := by
  cases p <;> first | rfl | cases h

theorem PipeInv.enter (h : PipeInv e s) (hoff : (s.stage a).offering = true)
    (hconn : (s.shard (e.shardOf a)).disconnected = false) : PipeInv e (s.enter e a) := by
  refine ⟨h.fleet.same ?_, h.jobs.enter hoff hconn⟩
  refine ⟨rfl, ?_, ?_, ?_, ?_, ?stage⟩
  case stage =>
    intro b
    by_cases hb : b = a
    · subst hb
      refine Or.inr ⟨Stage.not_ensuring_of_offering hoff, ?_⟩
      simp only [Pipeline.enter, Pipeline.goto, Function.update_self]
      cases s.stage b <;> rfl
    · exact Or.inl (by simp [Pipeline.enter, Pipeline.goto, Pipeline.setShard, hb])
  all_goals
    intro j
    simp only [Pipeline.enter, Pipeline.goto, Pipeline.setShard]
    by_cases hj : j = e.shardOf a
    · rw [hj, Function.update_self]
    · rw [Function.update_of_ne hj]

theorem PipeInv.nextSend (h : PipeInv e s) (hstep : s.nextSend e a = some s') : PipeInv e s' := by
  unfold Pipeline.nextSend at hstep
  dsimp only at hstep
  split at hstep
  · rename_i hoff
    have hpassed := Stage.passed_of_offering hoff
    have hens := Stage.not_ensuring_of_offering hoff
    split at hstep
    · cases hstep
      refine h.goto hens ?_ (h.jobs.refuse hpassed ?_)
      · cases s.stage a <;> rfl
      · cases s.stage a with
        | detached => exact Or.inr (by simp [Stage.refused])
        | _ => exact Or.inl rfl
    · rename_i hconn
      split at hstep
      · cases hstep
        exact h.enter hoff (by simpa using hconn)
      · split at hstep
        · cases hstep
          exact h.goto hens rfl (h.jobs.refuse hpassed (Or.inr (by simp)))
        · cases hstep
  · cases hstep

theorem PipeInv.nextHandOff (h : PipeInv e s) (hstep : s.nextHandOff e k a = some s') :
    PipeInv e s' := by
  unfold Pipeline.nextHandOff at hstep
  split at hstep
  · rename_i hmeet
    obtain ⟨-, hk, hmeet⟩ := hmeet
    subst hk
    have hoff : (s.stage a).offering = true := by
      revert hmeet
      cases s.stage a <;> simp [Pipeline.meets, Stage.offering]
    -- whoever takes the job is there to receive it
    obtain ⟨sh, hsh, -⟩ := Option.map_eq_some_iff.mp hstep
    have hrecv := (take_own hsh).2.2.2
    simp only [Pipeline.enter, Pipeline.goto, Pipeline.setShard, Function.update_self] at hrecv
    exact (h.enter hoff (disconnected_of_receiving hrecv)).nextTake hstep
  · cases hstep

theorem PipeInv.nextAwait (h : PipeInv e s) (hstep : s.nextAwait a = some s') : PipeInv e s' := by
  unfold Pipeline.nextAwait at hstep
  split at hstep
  · rename_i hstage
    have hens : (s.stage a).ensuring = false := by
      rw [hstage]
      rfl
    split at hstep
    · rename_i r hr
      cases hstep
      refine h.goto hens rfl (h.jobs.goto (fun _ => rfl) ?_)
      intro r' heq
      cases heq
      exact Or.inl (h.jobs.answered a r hr)
    · rename_i hr
      cases hstep
      refine h.goto hens rfl (h.jobs.goto (fun _ => rfl) ?_)
      intro r' heq
      cases heq
      exact Or.inr ⟨rfl, Or.inr (h.jobs.dropped a hr)⟩
    · cases hstep
  · cases hstep

theorem PipeInv.nextCancel (h : PipeInv e s) (hstep : s.nextCancel e a = some s') :
    PipeInv e s' := by
  unfold Pipeline.nextCancel at hstep
  split at hstep
  · split at hstep
    · rename_i hstage
      cases hstep
      refine h.goto (by rw [hstage]; rfl) rfl (h.jobs.refuse (by rw [hstage]; rfl) ?_)
      exact Or.inr (by simp)
    · rename_i hstage
      cases hstep
      refine h.goto (by rw [hstage]; rfl) rfl (h.jobs.goto (fun _ => rfl) ?_)
      intro r heq
      cases heq
    · cases hstep
  · cases hstep

theorem PipeInv.nextAbort (h : PipeInv e s) (hstep : s.nextAbort a = some s') : PipeInv e s' := by
  unfold Pipeline.nextAbort at hstep
  split at hstep
  · rename_i hstage
    rw [hstage] at hstep
    cases hstep
    exact h.goto (by rw [hstage]; rfl) rfl (h.jobs.refuse (by rw [hstage]; rfl) (Or.inl rfl))
  · rename_i hstage
    rw [hstage] at hstep
    cases hstep
    exact h.goto (by rw [hstage]; rfl) rfl
      (h.jobs.refuse (by rw [hstage]; rfl) (Or.inr (by simp [Stage.refused])))
  · cases hstep

/-! ### `ensure_running` -/

omit [DecidableEq A] [LinearOrder π] in
theorem send_light (e : Setting A π) (a : A) : (Pipeline.send e a).ensuring = false ∧
    (Pipeline.send e a).holds = false ∧ (Pipeline.send e a).passed = false ∧
    ∀ r, Pipeline.send e a ≠ .returned r := by
  unfold Pipeline.send
  split <;> simp [Stage.ensuring, Stage.holds, Stage.passed]

omit [DecidableEq A] [LinearOrder π] in
theorem setShard_self (s : Pipeline A π) (k : ℕ) : s.setShard k (s.shard k) = s := by
  simp [Pipeline.setShard]

theorem PipeInv.nextEnsure (h : PipeInv e s) {spawns : Bool}
    (hstep : s.nextEnsure e a spawns = some s') : PipeInv e s' := by
  obtain ⟨hensF, hholdF, hpassF, hretF⟩ := send_light e a
  unfold Pipeline.nextEnsure at hstep
  dsimp only at hstep
  split at hstep
  · rename_i hready
    have hopen : (s.shard (e.shardOf a)).closed = false := by
      by_contra hc
      have hcl := h.fleet.closed _ (by simpa using hc)
      rw [hready] at hcl
      cases hcl
    have hflow := h.jobs.flow (e.shardOf a)
    -- the shard may change, the jobs stay where they are
    have hjobs : ∀ {sh : Shard A π} {q : Stage}, Flow e sh →
        sh.entered = (s.shard (e.shardOf a)).entered →
        sh.finished = (s.shard (e.shardOf a)).finished →
        sh.lost = (s.shard (e.shardOf a)).lost → (s.stage a).passed = false →
        (q = .returned (.error shutdownErr) ∨ ∀ r, q ≠ .returned r) →
        JobInv e ((s.setShard (e.shardOf a) sh).goto a q) := by
      intro sh q hf h1 h2 h3 hp hq
      exact (h.jobs.setShard hf h1 h2 h3).refuse hp hq
    split at hstep
    · -- the first load
      rename_i hstage
      cases hstep
      have hhold : (s.stage a).holds = false := by
        rw [hstage]
        rfl
      have hpass : (s.stage a).passed = false := by
        rw [hstage]
        rfl
      split
      · refine ⟨h.fleet.goto hhold hholdF ?_, h.jobs.refuse hpass (Or.inr hretF)⟩
        intro hens
        rw [hensF] at hens
        cases hens
      · refine ⟨h.fleet.goto hhold rfl ?_, h.jobs.refuse hpass (Or.inr (by simp))⟩
        intro _
        rw [hready]
        rfl
    · -- the mutex
      rename_i hstage
      split at hstep
      · rename_i hfree
        cases hstep
        rw [Option.isNone_iff_eq_none] at hfree
        have hnobody : ∀ b, e.shardOf b = e.shardOf a → (s.stage b).holds = false := by
          intro b hk
          by_contra hb
          have hl := h.fleet.lock b (by simpa using hb)
          rw [hk, hfree] at hl
          cases hl
        refine ⟨h.fleet.update hready (fun b _ hk => hnobody b hk) (fun _ => rfl) nofun ?_ rfl,
          hjobs (hflow.lockAndRun _ _) rfl rfl rfl (by rw [hstage]; rfl) (Or.inr (by simp))⟩
        intro hrun hsp
        obtain ⟨b, hb, hk⟩ := h.fleet.spawned _ hrun hsp
        have hfalse := hnobody b hk
        rw [hb] at hfalse
        cases hfalse
      · cases hstep
    · -- the second load
      rename_i hstage
      have hhold : (s.stage a).holds = true := by
        rw [hstage]
        rfl
      have hsole := h.fleet.sole hhold
      split at hstep
      · rename_i hrun
        cases hstep
        refine ⟨h.fleet.update hready hsole ?_ ?_ ?_ rfl,
          hjobs (hflow.lockAndRun _ _) rfl rfl rfl (by rw [hstage]; rfl) (Or.inr hretF)⟩
        · intro hh
          rw [hholdF] at hh
          cases hh
        · intro hsp
          rw [hsp] at hholdF
          cases hholdF
        · intro hfalse
          exact absurd (hrun.symm.trans hfalse) (by simp)
      · rename_i hrun
        cases hstep
        have hun : (s.shard (e.shardOf a)).dispatcher = .unspawned := by
          by_contra hsp
          obtain ⟨b, hb, hk⟩ := h.fleet.spawned _ (by simpa using hrun) hsp
          have hba : b = a := h.fleet.unique (by rw [hb]; rfl) hhold hk
          rw [hba, hstage] at hb
          cases hb
        have hup : FleetInv e ((s.setShard (e.shardOf a) (s.shard (e.shardOf a))).goto a
            .spawning) :=
          h.fleet.update hready hsole (fun _ => h.fleet.lock a hhold) (fun _ => hun)
            (fun _ hsp => absurd hun hsp) rfl
        rw [setShard_self] at hup
        exact ⟨hup, h.jobs.refuse (by rw [hstage]; rfl) (Or.inr (by simp))⟩
    · -- the spawn
      rename_i hstage
      have hhold : (s.stage a).holds = true := by
        rw [hstage]
        rfl
      have hsole := h.fleet.sole hhold
      have hun := h.fleet.fresh a hstage
      split at hstep
      · cases hstep
        exact ⟨h.fleet.update hready hsole (fun _ => h.fleet.lock a hhold) nofun
            (fun _ _ => rfl) rfl,
          hjobs (hflow.spawn hun hopen _) rfl rfl rfl (by rw [hstage]; rfl) (Or.inr (by simp))⟩
      · cases hstep
        exact ⟨h.fleet.update hready hsole nofun nofun (fun _ hsp => absurd hun hsp) rfl,
          hjobs (hflow.lockAndRun _ _) rfl rfl rfl (by rw [hstage]; rfl) (Or.inl rfl)⟩
    · -- the store of `running`
      rename_i hstage
      have hsole := h.fleet.sole (a := a) (by rw [hstage]; rfl)
      cases hstep
      refine ⟨h.fleet.update hready hsole ?_ ?_ nofun rfl,
        hjobs (hflow.lockAndRun _ _) rfl rfl rfl (by rw [hstage]; rfl) (Or.inr hretF)⟩
      · intro hh
        rw [hholdF] at hh
        cases hh
      · intro hsp
        rw [hsp] at hholdF
        cases hholdF
    · cases hstep
  · cases hstep

/-! ### The fleet is filled, and dropped -/

theorem PipeInv.nextStart (h : PipeInv e s) {spawns : Bool}
    (hstep : s.nextStart e a spawns = some s') : PipeInv e s' := by
  cases hstage : s.stage a with
  | idle =>
    simp only [Pipeline.nextStart, hstage] at hstep
    cases hstep
    exact h.goto (by rw [hstage]; rfl) rfl
      (h.jobs.refuse (by rw [hstage]; rfl) (Or.inr (by simp)))
  | starting =>
    simp only [Pipeline.nextStart, hstage] at hstep
    have hhold : (s.stage a).holds = false := by
      rw [hstage]
      rfl
    have hpass : (s.stage a).passed = false := by
      rw [hstage]
      rfl
    cases hfleet : s.fleet with
    | unset =>
      simp only [hfleet] at hstep
      cases hstep
      have hfill : FleetInv e { s with fleet := .filling a 0 } :=
        h.fleet.setFleet (fun _ => by rw [hfleet]; rfl) (fun _ _ => by rw [hfleet]; rfl)
          (fun hc => by rw [hfleet] at hc; cases hc)
      exact ⟨hfill.goto hhold rfl nofun,
        (h.jobs.setFleet (.filling a 0)).refuse hpass (Or.inr (by simp))⟩
    | ready =>
      simp only [hfleet] at hstep
      cases hstep
      split
      · refine ⟨h.fleet.goto hhold rfl ?_, h.jobs.refuse hpass (Or.inr (by simp))⟩
        intro _
        rw [hfleet]
        rfl
      · exact ⟨h.fleet.goto hhold rfl nofun, h.jobs.refuse hpass (Or.inl rfl)⟩
    | _ =>
      simp only [hfleet] at hstep
      cases hstep
  | initialising =>
    simp only [Pipeline.nextStart, hstage] at hstep
    split at hstep
    · rename_i b idx hfleet
      split at hstep
      · rename_i hba
        subst hba
        have hclosed : ∀ j, (s.shard j).closed = false := by
          intro j
          by_contra hc
          have hcl := h.fleet.closed j (by simpa using hc)
          rw [hfleet] at hcl
          cases hcl
        split at hstep
        · have hun : (s.shard idx).dispatcher = .unspawned := by
            refine h.fleet.untouched idx ?_
            rw [hfleet]
            exact decide_eq_true (Nat.le_refl idx)
          cases spawns with
          | true =>
            cases hstep
            exact ⟨h.fleet.fill hfleet rfl nofun, (h.jobs.setShard
              ((h.jobs.flow idx).spawn hun (hclosed idx) true) rfl rfl rfl).setFleet _⟩
          | false =>
            cases hstep
            exact ⟨h.fleet.fill hfleet rfl fun _ => hun,
              (h.jobs.setShard (h.jobs.flow idx) rfl rfl rfl).setFleet _⟩
        · cases hstep
          have hready : FleetInv e { s with fleet := .ready } :=
            h.fleet.setFleet nofun nofun (fun hc => by rw [hfleet] at hc; cases hc)
          exact ⟨hready.goto (by rw [hstage]; rfl) rfl nofun,
            (h.jobs.setFleet .ready).refuse (by rw [hstage]; rfl) (Or.inr (by simp))⟩
      · cases hstep
    · cases hstep
  | _ => simp [Pipeline.nextStart, hstage] at hstep

omit [DecidableEq A] in
theorem PipeInv.nextDrop (h : PipeInv e s) (hstep : s.nextDrop e = some s') : PipeInv e s' := by
  -- each phase of `drop` hands the fleet to the next one
  have hfleet : ∀ {t : Pipeline A π} {f : Fleet A}, PipeInv e t → f.hidden = false →
      (∀ k, f.untouched k = false) → (t.fleet.closes = true → f.closes = true) →
      PipeInv e { t with fleet := f } := by
    intro t f ht hhid hunt hcl
    refine ⟨ht.fleet.setFleet ?_ ?_ hcl, ht.jobs.setFleet f⟩
    · intro hf
      rw [hhid] at hf
      cases hf
    · intro k hk
      rw [hunt] at hk
      cases hk
  cases hf : s.fleet with
  | unset =>
    simp only [Pipeline.nextDrop, hf] at hstep
    cases hstep
    exact hfleet h rfl (fun _ => rfl) fun _ => rfl
  | ready =>
    simp only [Pipeline.nextDrop, hf] at hstep
    cases hstep
    exact hfleet h rfl (fun _ => rfl) fun hc => by rw [hf] at hc; cases hc
  | signalling idx =>
    simp only [Pipeline.nextDrop, hf] at hstep
    split at hstep
    · cases hstep
      have hmark : PipeInv e (s.setShard idx { s.shard idx with signalled := true }) :=
        ⟨h.fleet.mark rfl rfl rfl fun hc => Or.inl hc,
          h.jobs.setShard (h.jobs.flow idx).signal rfl rfl rfl⟩
      refine hfleet hmark rfl (fun _ => rfl) ?_
      intro hc
      rw [show (s.setShard idx { s.shard idx with signalled := true }).fleet = s.fleet from rfl,
        hf] at hc
      cases hc
    · cases hstep
      exact hfleet h rfl (fun _ => rfl) fun _ => rfl
  | closing idx =>
    simp only [Pipeline.nextDrop, hf] at hstep
    split at hstep
    · cases hstep
      have hmark : PipeInv e (s.setShard idx { s.shard idx with closed := true }) :=
        ⟨h.fleet.mark rfl rfl rfl fun _ => Or.inr (by rw [hf]; rfl),
          h.jobs.setShard (h.jobs.flow idx).close rfl rfl rfl⟩
      exact hfleet hmark rfl (fun _ => rfl) fun _ => rfl
    · cases hstep
      exact hfleet h rfl (fun _ => rfl) fun _ => rfl
  | _ => simp [Pipeline.nextDrop, hf] at hstep

/-! ### All steps -/

theorem PipeInv.next (h : PipeInv e s) (act : Pipeline.Action A)
    (hstep : s.next e act = some s') : PipeInv e s' := by
  cases act with
  | start a spawns => exact h.nextStart hstep
  | ensure a spawns => exact h.nextEnsure hstep
  | send a => exact h.nextSend hstep
  | await a => exact h.nextAwait hstep
  | cancel a => exact h.nextCancel hstep
  | abort a => exact h.nextAbort hstep
  | take k => exact h.nextTake hstep
  | handOff k a => exact h.nextHandOff hstep
  | shutdown k =>
    obtain ⟨sh, hsh, rfl⟩ := Option.map_eq_some_iff.mp hstep
    obtain ⟨hown, hfinished, hlost⟩ := shutdown_own hsh
    exact h.own ((h.jobs.flow k).shutdown hsh) hown hfinished hlost
  | pass k =>
    obtain ⟨sh, hsh, rfl⟩ := Option.map_eq_some_iff.mp hstep
    obtain ⟨hown, hfinished, hlost⟩ := pass_own hsh
    exact h.own ((h.jobs.flow k).pass hsh) hown hfinished hlost
  | call k => exact h.nextCall hstep
  | discard k => exact h.nextDiscard hstep
  | drop => exact h.nextDrop hstep

end Fsys.Lane
