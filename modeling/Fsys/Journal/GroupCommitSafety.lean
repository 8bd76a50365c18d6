import Fsys.Journal.GroupCommitInv

/-!
# One leader, one frontier, no retried fsync (src/journal/mod.rs:1073-1244)

Each step of `Commit.next` keeps the invariant and advances the frontiers.
-/

namespace Fsys.Journal
open Fsys.Base

variable {A : Type} [DecidableEq A] {s s' : Commit A} {a : A} {p q : SyncPc}

/-! ### Every step -/

/-- A step between points with nothing ahead of them that leaves the leader's role. -/
structure CalmStep (q p : SyncPc) : Prop where
  lead : p.leads = q.leads
  poisoned : ∀ c, q ≠ .syncFailed c
  stored : ∀ c fr, q ≠ .storing c fr
  unarmed : p.armed = false
  looked : ∀ c, p ≠ .unpoisoned c

theorem CommitInv.pass (h : CommitInv s) (hp : s.pc a = q) (hcalm : CalmStep q p)
    (hpc : s'.pc = Function.update s.pc a p) (hsame : SameWords s s')
    (hissued : s'.issued = s.issued) (hpoison : s.poison = true → s'.poison = true)
    (hlock : Owner (SyncPc.holds ∘ s'.pc) s'.lock) (hjust : Justified s p) :
    CommitInv s' ∧ Advance s s' := by
  subst hp
  refine h.move hpc hsame hlock hcalm.lead hpoison (Or.inl hcalm.poisoned) hcalm.stored hjust ?_
  intro _
  exact ⟨hcalm.unarmed, hissued, fun c hc => absurd hc (hcalm.looked c)⟩

theorem CommitInv.goOn (h : CommitInv s) (hp : s.pc a = q) (hcalm : CalmStep q p)
    (hholds : p.holds = q.holds) (hjust : Justified s p) :
    CommitInv (s.goto a p) ∧ Advance s (s.goto a p) := by
  subst hp
  exact h.pass rfl hcalm rfl ⟨rfl, rfl, rfl, rfl, rfl, rfl⟩ rfl id (h.lock.keep hholds) hjust

theorem CommitInv.takeLock (h : CommitInv s) (hp : s.pc a = q) (hcalm : CalmStep q p)
    (hfree : s.lock = none) (hholds : p.holds = true) (hjust : Justified s p) :
    CommitInv ({ s with lock := some a }.goto a p) ∧
      Advance s ({ s with lock := some a }.goto a p) := by
  have hnone := h.lock
  rw [hfree] at hnone
  exact h.pass hp hcalm rfl ⟨rfl, rfl, rfl, rfl, rfl, rfl⟩ rfl id (hnone.take hholds) hjust

theorem CommitInv.dropLock (h : CommitInv s) (hp : s.pc a = q) (hcalm : CalmStep q p)
    (hheld : q.holds = true) (hholds : p.holds = false) (hjust : Justified s p) :
    CommitInv ({ s with lock := none }.goto a p) ∧ Advance s ({ s with lock := none }.goto a p) := by
  subst hp
  exact h.pass rfl hcalm rfl ⟨rfl, rfl, rfl, rfl, rfl, rfl⟩ rfl id (h.lock.release hheld hholds)
    hjust

/-- A step of a leader past its look at the poison: no fsync has failed. -/
theorem CommitInv.passArmed (h : CommitInv s) (hp : s.pc a = q) (harmed : q.armed = true)
    (hst : ∀ c fr, q ≠ .storing c fr) (hlead : p.leads = true) (hholds : p.holds = q.holds)
    (hjust : Justified s p) (n : ℕ) :
    CommitInv ({ s with issued := n }.goto a p) ∧ Advance s ({ s with issued := n }.goto a p) := by
  subst hp
  have hnot := h.not_failed harmed
  have hsf : ∀ c, s.pc a ≠ .syncFailed c := by
    intro c hc
    rw [hc] at harmed
    cases harmed
  refine h.move rfl ⟨rfl, rfl, rfl, rfl, rfl, rfl⟩ (h.lock.keep hholds) ?_ id (Or.inl hsf) hst
    hjust ?_
  · exact hlead.trans (SyncPc.leads_of_armed harmed).symm
  · intro hf
    exact absurd (hnot.symm.trans hf) Bool.false_ne_true

omit [DecidableEq A] in
/-- A step of an appender: the log grows, an append returns, or one fails. -/
theorem CommitInv.nextLog (h : CommitInv s) {ev : CommitEvent} (hn : s.nextLog ev = some s') :
    CommitInv s' ∧ Advance s s' := by
  have hfrozen : s.failed = true → s.failed = true ∧ s.issued = s.issued ∧
      s.committedLsn = s.committedLsn ∧ s.syncedLsn = s.syncedLsn :=
    fun hf => ⟨hf, rfl, rfl, rfl⟩
  cases ev with
  | append len =>
    cases hn
    refine ⟨⟨h.lock, h.lead, ?_, ?_, h.mirror, ?_⟩, le_rfl, le_rfl, hfrozen⟩
    · intro e he
      exact (h.acked e he).trans (Nat.le_add_right _ _)
    · intro b
      exact (h.just b).mono (Nat.le_add_right _ _) le_rfl fun _ _ _ => ⟨rfl, rfl⟩
    · intro hf
      obtain ⟨hpoison, harm, hmiss⟩ := h.stopped hf
      exact ⟨hpoison, harm, hmiss⟩
  | ack e =>
    simp only [Commit.nextLog] at hn
    split at hn
    · rename_i hle
      cases hn
      refine ⟨⟨h.lock, h.lead, ?_, ?_, h.mirror, ?_⟩, le_rfl, le_rfl, hfrozen⟩
      · intro e' he'
        rcases List.mem_cons.mp he' with rfl | hold
        · exact hle
        · exact h.acked e' hold
      · intro b
        exact (h.just b).mono le_rfl le_rfl fun _ _ _ => ⟨rfl, rfl⟩
      · intro hf
        obtain ⟨hpoison, harm, hmiss⟩ := h.stopped hf
        exact ⟨hpoison, harm, hmiss⟩
    · cases hn
  | poisonAppend =>
    cases hn
    refine ⟨⟨h.lock, h.lead, h.acked, ?_, h.mirror, ?_⟩, le_rfl, le_rfl, hfrozen⟩
    · intro b
      exact (h.just b).mono le_rfl le_rfl fun _ _ _ => ⟨rfl, rfl⟩
    · intro hf
      have hstop := h.stopped hf
      exact ⟨Or.inl rfl, hstop.unarmed, hstop.missed⟩
  | _ => cases hn

/-- The look at the poison under the lock: if an fsync has failed and the poison is not
set, its leader has not cleared `in_flight`. -/
theorem CommitInv.look (h : CommitInv s) {c : SyncCall} (hp : s.pc a = .head c)
    (hpoison : s.poison = false) :
    CommitInv (s.goto a (.unpoisoned c)) ∧ Advance s (s.goto a (.unpoisoned c)) := by
  have hjust := h.just a
  rw [hp] at hjust
  refine h.move rfl ⟨rfl, rfl, rfl, rfl, rfl, rfl⟩ (h.lock.keep (by rw [hp]; rfl))
    (by rw [hp]; rfl) id (Or.inl (by simp [hp])) (by simp [hp]) hjust ?_
  intro hf
  refine ⟨rfl, rfl, fun _ _ => ?_⟩
  rcases (h.stopped hf).poison with hset | ⟨b, c', hb⟩
  · exact absurd (hpoison.symm.trans hset) Bool.false_ne_true
  · refine h.inFlight_iff.mpr ⟨b, ?_⟩
    rw [hb]
    rfl

/-- A call takes the lock: the first time, behind its wake-up or behind the window. -/
theorem CommitInv.lockCall (h : CommitInv s) {opts : CommitOptions}
    (hn : Commit.nextCall opts s a .lock = some s') : CommitInv s' ∧ Advance s s' := by
  have hjust := h.just a
  simp only [Commit.nextCall] at hn
  split at hn
  · rename_i c hp
    rw [hp] at hjust
    split at hn
    · rename_i hfree
      cases hn
      exact h.takeLock hp ⟨rfl, nofun, nofun, rfl, nofun⟩ hfree rfl hjust
    · split at hn
      · cases hn
        exact h.goOn hp ⟨rfl, nofun, nofun, rfl, nofun⟩ rfl hjust
      · cases hn
  · rename_i c hp
    rw [hp] at hjust
    split at hn
    · rename_i hfree
      cases hn
      exact h.takeLock hp ⟨rfl, nofun, nofun, rfl, nofun⟩ hfree rfl hjust
    · cases hn
  · rename_i c hp
    rw [hp] at hjust
    split at hn
    · rename_i hfree
      cases hn
      exact h.takeLock hp ⟨rfl, nofun, nofun, rfl, nofun⟩ hfree rfl hjust
    · cases hn
  · cases hn

/-- What was committed while the call waited is found under the lock. -/
theorem CommitInv.lookCall (h : CommitInv s) {opts : CommitOptions}
    (hn : Commit.nextCall opts s a .lookCommitted = some s') : CommitInv s' ∧ Advance s s' := by
  simp only [Commit.nextCall] at hn
  split at hn
  · rename_i c hp
    have hmirror := h.mirror_of_holds (a := a) (by rw [hp]; rfl) (by simp [hp])
    split at hn
    · rename_i hle
      cases hn
      refine h.dropLock hp ⟨rfl, nofun, nofun, rfl, nofun⟩ rfl rfl ?_
      intro _ e _
      exact (min_le_left _ _).trans (hle.trans hmirror.le)
    · split at hn
      · cases hn
        exact h.dropLock hp ⟨rfl, nofun, nofun, rfl, nofun⟩ rfl rfl nofun
      · rename_i hpoison
        cases hn
        exact h.look hp (by simpa using hpoison)
  · cases hn

/-- A call leads, waits for the leader or, in a native call, starts over. -/
theorem CommitInv.joinCall (h : CommitInv s) {opts : CommitOptions}
    (hn : Commit.nextCall opts s a .join = some s') : CommitInv s' ∧ Advance s s' := by
  have hjust := h.just a
  simp only [Commit.nextCall] at hn
  split at hn
  · rename_i c hp
    rw [hp] at hjust
    split at hn
    · rename_i hin
      cases hn
      exact h.elect hp hin
    · split at hn
      · cases hn
        exact h.dropLock hp ⟨rfl, nofun, nofun, rfl, nofun⟩ rfl rfl hjust
      · cases hn
        exact h.pass (p := .parked c) hp ⟨rfl, nofun, nofun, rfl, nofun⟩ rfl
          ⟨rfl, rfl, rfl, rfl, rfl, rfl⟩ rfl id (h.lock.release (by rw [hp]; rfl) rfl) hjust
  · cases hn

/-- A step of a call up to its election. -/
theorem CommitInv.nextCall (h : CommitInv s) {opts : CommitOptions} {ev : CommitEvent}
    (hn : Commit.nextCall opts s a ev = some s') : CommitInv s' ∧ Advance s s' := by
  have hjust := h.just a
  cases ev with
  | call lsn native =>
    simp only [Commit.nextCall] at hn
    split at hn
    · rename_i hp
      cases hn
      exact h.goOn hp ⟨rfl, nofun, nofun, rfl, nofun⟩ rfl h.acked
    · cases hn
  | loadSynced =>
    simp only [Commit.nextCall] at hn
    split at hn
    · rename_i c hp
      rw [hp] at hjust
      cases hn
      split
      · rename_i hle
        exact h.goOn hp ⟨rfl, nofun, nofun, rfl, nofun⟩ rfl
          fun _ e _ => (min_le_left _ _).trans hle
      · exact h.goOn hp ⟨rfl, nofun, nofun, rfl, nofun⟩ rfl hjust
    · cases hn
  | lock => exact h.lockCall hn
  | lookCommitted => exact h.lookCall hn
  | join => exact h.joinCall hn
  | unlockWoken =>
    simp only [Commit.nextCall] at hn
    split at hn
    · rename_i c hp
      rw [hp] at hjust
      cases hn
      exact h.dropLock hp ⟨rfl, nofun, nofun, rfl, nofun⟩ rfl rfl hjust
    · cases hn
  | unpark =>
    simp only [Commit.nextCall] at hn
    split at hn
    · rename_i c hp
      rw [hp] at hjust
      cases hn
      exact h.pass (p := .called c) hp ⟨rfl, nofun, nofun, rfl, nofun⟩ rfl
        ⟨rfl, rfl, rfl, rfl, rfl, rfl⟩ rfl id (h.lock.keep (by rw [hp]; rfl)) hjust
    · cases hn
  | windowPark =>
    simp only [Commit.nextCall] at hn
    split at hn
    · rename_i c hp
      rw [hp] at hjust
      split at hn
      · cases hn
        exact h.dropLock hp ⟨rfl, nofun, nofun, rfl, nofun⟩ rfl rfl hjust
      · cases hn
    · cases hn
  | windowClose =>
    simp only [Commit.nextCall] at hn
    split at hn
    · rename_i c hp
      rw [hp] at hjust
      cases hn
      exact h.dropLock hp ⟨rfl, nofun, nofun, rfl, nofun⟩ rfl rfl hjust
    · cases hn
  | lose =>
    simp only [Commit.nextCall] at hn
    split at hn
    · rename_i c hp
      split at hn
      · cases hn
        exact h.goOn hp ⟨rfl, nofun, nofun, rfl, nofun⟩ rfl trivial
      · cases hn
    · cases hn
  | leave =>
    simp only [Commit.nextCall] at hn
    split at hn
    · rename_i c ok hp
      cases hn
      exact h.goOn hp ⟨rfl, nofun, nofun, rfl, nofun⟩ rfl trivial
    · cases hn
  | _ => cases hn

/-- A step of a leader up to the end of its fsync. -/
theorem CommitInv.nextLead (h : CommitInv s) {ev : CommitEvent}
    (hn : s.nextLead a ev = some s') : CommitInv s' ∧ Advance s s' := by
  have hjust := h.just a
  cases ev with
  | capture =>
    simp only [Commit.nextLead] at hn
    split at hn
    · rename_i c hp
      rw [hp] at hjust
      cases hn
      refine h.goOn hp ⟨rfl, nofun, nofun, rfl, nofun⟩ rfl ?_
      intro e he
      exact (min_le_right _ _).trans (hjust e he)
    · cases hn
  | flushFails =>
    simp only [Commit.nextLead] at hn
    split at hn
    · rename_i c hp
      cases hn
      exact h.pass (p := .ending c none) hp ⟨rfl, nofun, nofun, rfl, nofun⟩ rfl
        ⟨rfl, rfl, rfl, rfl, rfl, rfl⟩ rfl (fun _ => rfl) (h.lock.keep (by rw [hp]; rfl)) nofun
    · cases hn
  | quit =>
    simp only [Commit.nextLead] at hn
    split at hn
    · rename_i c hp
      cases hn
      exact h.goOn hp ⟨rfl, nofun, nofun, rfl, nofun⟩ rfl nofun
    · rename_i c fr hp
      cases hn
      exact h.goOn hp ⟨rfl, nofun, nofun, rfl, nofun⟩ rfl nofun
    · rename_i c fr hp
      cases hn
      exact h.goOn hp ⟨rfl, nofun, nofun, rfl, nofun⟩ rfl nofun
    · cases hn
  | checkPoison =>
    simp only [Commit.nextLead] at hn
    split at hn
    · rename_i c fr hp
      rw [hp] at hjust
      cases hn
      split
      · exact h.goOn hp ⟨rfl, nofun, nofun, rfl, nofun⟩ rfl nofun
      · rename_i hpoison
        refine h.move rfl ⟨rfl, rfl, rfl, rfl, rfl, rfl⟩ (h.lock.keep (by rw [hp]; rfl))
          (by rw [hp]; rfl) id (Or.inl (by simp [hp])) (by simp [hp]) hjust ?_
        intro hf
        -- a failed fsync with the poison unset has its own leader
        obtain ⟨c', hc'⟩ := h.leader_of_failed (a := a) hf (by simpa using hpoison)
          (by rw [hp]; rfl)
        simp [hp] at hc'
    · cases hn
  | submit =>
    simp only [Commit.nextLead] at hn
    split at hn
    · rename_i c fr hp
      rw [hp] at hjust
      split at hn
      · cases hn
        exact h.passArmed (p := .queued c fr) hp rfl nofun rfl rfl hjust s.issued
      · cases hn
    · cases hn
  | dropOp =>
    simp only [Commit.nextLead] at hn
    split at hn
    · rename_i c fr hp
      cases hn
      exact h.goOn hp ⟨rfl, nofun, nofun, rfl, nofun⟩ rfl nofun
    · cases hn
  | issue =>
    simp only [Commit.nextLead] at hn
    split at hn
    · rename_i c fr hp
      rw [hp] at hjust
      split at hn
      · cases hn
      · cases hn
        exact h.passArmed (p := .syncing c fr) hp rfl nofun rfl rfl hjust (s.issued + 1)
    · rename_i c fr hp
      rw [hp] at hjust
      cases hn
      exact h.passArmed (p := .syncing c fr) hp rfl nofun rfl rfl hjust (s.issued + 1)
    · cases hn
  | fsyncReturns ok =>
    simp only [Commit.nextLead] at hn
    split at hn
    · rename_i c fr hp
      rw [hp] at hjust
      split at hn
      · cases hn
        refine h.passArmed (p := .ending c (some fr)) hp rfl nofun rfl rfl ?_ s.issued
        intro fr' hfr
        cases hfr
        exact hjust
      · cases hn
        exact h.fail hp
    · cases hn
  | abandon =>
    simp only [Commit.nextLead] at hn
    split at hn
    · rename_i c fr hp
      split at hn
      · cases hn
        exact h.fail hp
      · cases hn
    · cases hn
  | poisonSync =>
    simp only [Commit.nextLead] at hn
    split at hn
    · rename_i c hp
      cases hn
      refine h.move rfl ⟨rfl, rfl, rfl, rfl, rfl, rfl⟩ (h.lock.keep (by rw [hp]; rfl))
        (by rw [hp]; rfl) (fun _ => rfl) (Or.inr rfl) (by simp [hp]) nofun ?_
      intro _
      exact ⟨rfl, rfl, nofun⟩
    · cases hn
  | _ => cases hn

/-- A step of a leader that ends its role, and the answer. -/
theorem CommitInv.nextEnd (h : CommitInv s) {ev : CommitEvent}
    (hn : s.nextEnd a ev = some s') : CommitInv s' ∧ Advance s s' := by
  have hjust := h.just a
  cases ev with
  | lockEnd =>
    simp only [Commit.nextEnd] at hn
    split at hn
    · rename_i c pub hp
      rw [hp] at hjust
      split at hn
      · rename_i hfree
        have hnone := h.lock
        rw [hfree] at hnone
        cases hn
        refine h.move (p := .publishing c pub) rfl ⟨rfl, rfl, rfl, rfl, rfl, rfl⟩ (hnone.take rfl)
          (by rw [hp]; rfl) id (Or.inl (by simp [hp])) (by simp [hp]) hjust ?_
        intro hf
        have harm := (h.stopped hf).unarmed a
        rw [hp] at harm
        exact ⟨harm, rfl, nofun⟩
      · cases hn
    · cases hn
  | storeCommitted =>
    simp only [Commit.nextEnd] at hn
    split at hn
    · rename_i c fr hp
      rw [hp] at hjust
      split at hn
      · rename_i hlt
        cases hn
        exact h.storeCommitted hp hlt
      · rename_i hnlt
        have hmirror := h.mirror_of_holds (a := a) (by rw [hp]; rfl) (by simp [hp])
        cases hn
        refine h.goOn hp ⟨rfl, nofun, nofun, rfl, nofun⟩ rfl ?_
        intro _ e he
        have hcov := hjust fr rfl e he
        omega
    · rename_i c hp
      cases hn
      exact h.goOn hp ⟨rfl, nofun, nofun, rfl, nofun⟩ rfl nofun
    · cases hn
  | storeSynced =>
    simp only [Commit.nextEnd] at hn
    split at hn
    · rename_i c fr hp
      cases hn
      exact h.storeSynced hp
    · cases hn
  | clearInFlight =>
    simp only [Commit.nextEnd] at hn
    split at hn
    · rename_i c ok hp
      cases hn
      exact h.clear hp
    · cases hn
  | notifyAll =>
    simp only [Commit.nextEnd] at hn
    split at hn
    · rename_i c ok hp
      rw [hp] at hjust
      cases hn
      have hp' : (s.pc a).woken = .notifying c ok := by rw [hp]; rfl
      obtain ⟨hinv, hadv⟩ := h.woken.dropLock (a := a) (p := .ended c ok) hp'
        ⟨rfl, nofun, nofun, rfl, nofun⟩ rfl rfl hjust
      exact ⟨hinv, hadv.committed, hadv.synced, hadv.frozen⟩
    · cases hn
  | answer =>
    simp only [Commit.nextEnd] at hn
    split at hn
    · rename_i c ok hp
      rw [hp] at hjust
      cases hn
      exact h.goOn hp ⟨rfl, nofun, nofun, rfl, nofun⟩ rfl hjust
    · cases hn
  | lose =>
    simp only [Commit.nextEnd] at hn
    split at hn
    · rename_i c ok hp
      split at hn
      · cases hn
        exact h.goOn hp ⟨rfl, nofun, nofun, rfl, nofun⟩ rfl trivial
      · cases hn
    · cases hn
  | _ => cases hn

theorem CommitInv.next (h : CommitInv s) {opts : CommitOptions} {act : A × CommitEvent}
    (hn : Commit.next opts s act = some s') : CommitInv s' ∧ Advance s s' := by
  unfold Commit.next at hn
  cases hlog : s.nextLog act.2 with
  | some t =>
    rw [hlog] at hn
    cases hn
    exact h.nextLog hlog
  | none =>
    rw [hlog] at hn
    cases hcall : Commit.nextCall opts s act.1 act.2 with
    | some t =>
      rw [hcall] at hn
      cases hn
      exact h.nextCall hcall
    | none =>
      rw [hcall] at hn
      cases hlead : s.nextLead act.1 act.2 with
      | some t =>
        rw [hlead] at hn
        cases hn
        exact h.nextLead hlead
      | none =>
        rw [hlead] at hn
        exact h.nextEnd hn

theorem CommitInv.reach {opts : CommitOptions} (h : CommitInv s)
    (hr : Reach (Commit.next opts) (fun _ => True) s s') : CommitInv s' :=
  hr.invariant h fun _ _ _ ht _ hn => (ht.next hn).1

/-- After a failed fsync nothing is issued and nothing is published. -/
theorem CommitInv.frozen {opts : CommitOptions} (h : CommitInv s) (hf : s.failed = true)
    (hr : Reach (Commit.next opts) (fun _ => True) s s') :
    s'.failed = true ∧ s'.issued = s.issued ∧ s'.committedLsn = s.committedLsn ∧
      s'.syncedLsn = s.syncedLsn := by
  induction hr with
  | start => exact ⟨hf, rfl, rfl, rfl⟩
  | step hreach _ hn ih =>
    obtain ⟨hfailed, hissued, hcommitted, hsynced⟩ := ih
    have hstep := ((h.reach hreach).next hn).2.frozen hfailed
    exact ⟨hstep.1, hstep.2.1.trans hissued, hstep.2.2.1.trans hcommitted,
      hstep.2.2.2.trans hsynced⟩

/-- Any number of blocking and native callers in any interleaving, with any outcome of every
fsync and any way out of the leader role. In every state: there is at most one leader and
`in_flight` is set exactly while there is one; the two frontiers agree unless the lock
holder is between its two stores; neither goes back in any step; a call that returned `Ok`
has its target, or all of its target that was appended before it, below the durable
frontier; and after a failed or abandoned fsync no run issues another or publishes. -/
theorem group_commit_protocol (A : Type) [DecidableEq A] (opts : CommitOptions) (pos : ℕ)
    (s : Commit A) (h : Reach (Commit.next opts) (fun _ => True) (Commit.new pos) s) :
    (∀ a b, (s.pc a).leads = true → (s.pc b).leads = true → a = b) ∧
    (s.inFlight = true ↔ ∃ a, (s.pc a).leads = true) ∧
    (s.committedLsn = s.syncedLsn ∨ ∃ a c fr, s.lock = some a ∧ s.pc a = .storing c fr) ∧
    (∀ act s', Commit.next opts s act = some s' →
      s.committedLsn ≤ s'.committedLsn ∧ s.syncedLsn ≤ s'.syncedLsn) ∧
    (∀ a c, s.pc a = .returned c true → ∀ e ∈ c.before, min c.lsn e ≤ s.syncedLsn) ∧
    (s.failed = true → ∀ s', Reach (Commit.next opts) (fun _ => True) s s' →
      s'.issued = s.issued ∧ s'.committedLsn = s.committedLsn ∧ s'.syncedLsn = s.syncedLsn) := by
  have hinv : CommitInv s := (commitInv_new pos).reach h
  refine ⟨fun a b ha hb => hinv.leader_unique ha hb, hinv.inFlight_iff, ?_, ?_, ?_, ?_⟩
  · rcases hinv.mirror with heq | ⟨a, c, fr, ha⟩
    · exact Or.inl heq
    · refine Or.inr ⟨a, c, fr, ?_, ha⟩
      apply (hinv.lock a).mp
      simp [ha, SyncPc.holds]
  · intro act s' hn
    have hadv := (hinv.next hn).2
    exact ⟨hadv.committed, hadv.synced⟩
  · intro a c ha
    have hjust := hinv.just a
    rw [ha] at hjust
    exact hjust rfl
  · intro hf s' hr
    exact (hinv.frozen hf hr).2

/-- Agent 0 leads and syncs 13 bytes, agent 1 follows; a native leader's fsync fails while
agent 0, past the poison check, waits for the role. -/
def failedLeader : List (Fin 3 × CommitEvent) :=
  [(2, .append 13), (2, .ack 13), (0, .call 13 false), (1, .call 13 false), (0, .loadSynced),
    (1, .loadSynced), (0, .lock), (0, .lookCommitted), (0, .join), (0, .windowPark), (1, .lock),
    (1, .lookCommitted), (1, .join), (0, .lock), (0, .windowClose), (0, .capture),
    (0, .checkPoison), (0, .issue), (0, .fsyncReturns true), (0, .lockEnd), (0, .storeCommitted),
    (0, .storeSynced), (0, .clearInFlight), (0, .notifyAll), (0, .answer), (1, .lock),
    (1, .unlockWoken), (1, .unpark), (1, .loadSynced), (0, .leave), (2, .append 20), (2, .ack 33),
    (2, .call 33 true), (2, .loadSynced), (2, .lock), (2, .lookCommitted), (2, .join),
    (2, .windowClose), (2, .capture), (2, .checkPoison), (2, .submit), (2, .issue),
    (0, .call 33 false), (0, .loadSynced), (0, .lock), (0, .lookCommitted), (2, .abandon),
    (0, .join), (2, .poisonSync), (2, .lockEnd), (2, .storeCommitted), (2, .clearInFlight),
    (2, .notifyAll)]

theorem failedLeader_isSome :
    (run (Commit.next ⟨true, 8⟩) failedLeader (Commit.new 0)).isSome = true := by decide +kernel

def afterFailedLeader : Commit (Fin 3) :=
  (run (Commit.next ⟨true, 8⟩) failedLeader (Commit.new 0)).get failedLeader_isSome

theorem afterFailedLeader_state :
    afterFailedLeader.syncedLsn = 13 ∧ afterFailedLeader.issued = 2 ∧
      afterFailedLeader.failed = true ∧ afterFailedLeader.inFlight = false ∧
      afterFailedLeader.pc 1 = .returned ⟨13, false, [13]⟩ true := by decide +kernel

theorem group_commit_protocol_failed_leader :
    afterFailedLeader.failed = true ∧
      afterFailedLeader.pc 1 = .returned ⟨13, false, [13]⟩ true ∧
      (∀ e ∈ [13], min 13 e ≤ afterFailedLeader.syncedLsn) ∧
      ∀ s', Reach (Commit.next ⟨true, 8⟩) (fun _ => True) afterFailedLeader s' →
        s'.issued = 2 ∧ s'.syncedLsn = 13 := by
  obtain ⟨hsynced, hissued, hfailed, -, hret⟩ := afterFailedLeader_state
  obtain ⟨-, -, -, -, hcov, hstop⟩ := group_commit_protocol (Fin 3) ⟨true, 8⟩ 0 afterFailedLeader
    (reach_of_run failedLeader (Option.some_get _).symm fun _ _ => trivial)
  refine ⟨hfailed, hret, hcov 1 _ hret, ?_⟩
  intro s' hr
  obtain ⟨h1, -, h2⟩ := hstop hfailed s' hr
  exact ⟨h1.trans hissued, h2.trans hsynced⟩

end Fsys.Journal
