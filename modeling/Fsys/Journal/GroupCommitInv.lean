import Fsys.Journal.GroupCommit
import Fsys.Base.Owner
import Mathlib.Order.Nat

/-!
# The invariant of group commit (src/journal/mod.rs:1097-1244, 1681-1702)

The lock and the leader role have at most one owner; the frontiers move only in the
hands of an owner of both. A failed fsync is poisoned before its leader lets go of the
role, so whoever saw the journal unpoisoned and holds the lock still finds `in_flight`.
-/

namespace Fsys.Journal
open Fsys.Base

/-! ### What a call holds -/

/-- The mutex of the group commit. -/
def SyncPc.holds : SyncPc → Bool
  | .head _ => true
  | .unpoisoned _ => true
  | .relocked _ => true
  | .window _ => true
  | .publishing _ _ => true
  | .storing _ _ => true
  | .clearing _ _ => true
  | .notifying _ _ => true
  | _ => false

/-- The leader role: from the election to the store that clears `in_flight`. -/
def SyncPc.leads : SyncPc → Bool
  | .window _ => true
  | .windowWait _ => true
  | .leading _ => true
  | .captured _ _ => true
  | .checked _ _ => true
  | .queued _ _ => true
  | .syncing _ _ => true
  | .syncFailed _ => true
  | .ending _ _ => true
  | .publishing _ _ => true
  | .storing _ _ => true
  | .clearing _ _ => true
  | _ => false

/-- Past the last look at the poison, with an fsync or a publication ahead. -/
def SyncPc.armed : SyncPc → Bool
  | .checked _ _ => true
  | .queued _ _ => true
  | .syncing _ _ => true
  | .ending _ pub => pub.isSome
  | .publishing _ pub => pub.isSome
  | .storing _ _ => true
  | _ => false

theorem SyncPc.leads_of_armed {pc : SyncPc} (h : pc.armed = true) : pc.leads = true := by
  cases pc <;> simp_all [SyncPc.armed, SyncPc.leads]

@[simp] theorem SyncPc.holds_woken (pc : SyncPc) : pc.woken.holds = pc.holds := by
  cases pc <;> rfl

@[simp] theorem SyncPc.leads_woken (pc : SyncPc) : pc.woken.leads = pc.leads := by
  cases pc <;> rfl

@[simp] theorem SyncPc.armed_woken (pc : SyncPc) : pc.woken.armed = pc.armed := by
  cases pc <;> rfl

theorem SyncPc.woken_eq_unpoisoned {pc : SyncPc} {c : SyncCall}
    (h : pc.woken = .unpoisoned c) : pc = .unpoisoned c := by
  cases pc <;> simp_all [SyncPc.woken]

/-! ### The invariant -/

variable {A : Type}

/-- The frontier is worth an `Ok` to the call. -/
def SyncCall.CoveredBy (c : SyncCall) (fr : ℕ) : Prop :=
  ∀ e ∈ c.before, min c.lsn e ≤ fr

/-- What the point where a call stands says of the log and the frontiers. -/
def Justified (s : Commit A) : SyncPc → Prop
  | .idle => True
  | .called c => ∀ e ∈ c.before, e ≤ s.logEnd
  | .locking c => ∀ e ∈ c.before, e ≤ s.logEnd
  | .head c => ∀ e ∈ c.before, e ≤ s.logEnd
  | .unpoisoned c => ∀ e ∈ c.before, e ≤ s.logEnd
  | .parked c => ∀ e ∈ c.before, e ≤ s.logEnd
  | .notified c => ∀ e ∈ c.before, e ≤ s.logEnd
  | .relocked c => ∀ e ∈ c.before, e ≤ s.logEnd
  | .unparked c => ∀ e ∈ c.before, e ≤ s.logEnd
  | .window c => ∀ e ∈ c.before, e ≤ s.logEnd
  | .windowWait c => ∀ e ∈ c.before, e ≤ s.logEnd
  | .leading c => ∀ e ∈ c.before, e ≤ s.logEnd
  | .captured c fr => c.CoveredBy fr
  | .checked c fr => c.CoveredBy fr
  | .queued c fr => c.CoveredBy fr
  | .syncing c fr => c.CoveredBy fr
  | .syncFailed _ => True
  | .ending c pub => ∀ fr, pub = some fr → c.CoveredBy fr
  | .publishing c pub => ∀ fr, pub = some fr → c.CoveredBy fr
  | .storing c fr => c.CoveredBy fr ∧ s.committedLsn = fr ∧ s.syncedLsn < fr
  | .clearing c ok => ok = true → c.CoveredBy s.syncedLsn
  | .notifying c ok => ok = true → c.CoveredBy s.syncedLsn
  | .ended c ok => ok = true → c.CoveredBy s.syncedLsn
  | .returned c ok => ok = true → c.CoveredBy s.syncedLsn

/-- After a failed fsync: the poison is set or about to be, nobody has an fsync or a
publication ahead, and who missed the poison finds a leader. -/
structure Stopped (s : Commit A) : Prop where
  poison : s.poison = true ∨ ∃ a c, s.pc a = .syncFailed c
  unarmed : ∀ a, (s.pc a).armed = false
  missed : ∀ a c, s.pc a = .unpoisoned c → s.inFlight = true

structure CommitInv (s : Commit A) : Prop where
  lock : Owner (SyncPc.holds ∘ s.pc) s.lock
  lead : ∃ l, Owner (SyncPc.leads ∘ s.pc) l ∧ s.inFlight = l.isSome
  acked : ∀ e ∈ s.acked, e ≤ s.logEnd
  just : ∀ a, Justified s (s.pc a)
  mirror : s.committedLsn = s.syncedLsn ∨ ∃ a c fr, s.pc a = .storing c fr
  stopped : s.failed = true → Stopped s

/-- What every step does to the frontiers. -/
structure Advance (s s' : Commit A) : Prop where
  committed : s.committedLsn ≤ s'.committedLsn
  synced : s.syncedLsn ≤ s'.syncedLsn
  frozen : s.failed = true → s'.failed = true ∧ s'.issued = s.issued ∧
    s'.committedLsn = s.committedLsn ∧ s'.syncedLsn = s.syncedLsn

theorem commitInv_new (pos : ℕ) : CommitInv (Commit.new pos : Commit A) where
  lock := by
    intro a
    simp [Commit.new, SyncPc.holds]
  lead := by
    refine ⟨none, ?_, rfl⟩
    intro a
    simp [Commit.new, SyncPc.leads]
  acked := by simp [Commit.new]
  just := fun _ => trivial
  mirror := Or.inl rfl
  stopped := by simp [Commit.new]

variable {s s' : Commit A} {a b : A} {p : SyncPc}

/-- The log grows and the durable frontier advances; the two stores of a publication
need that nobody else moves the frontiers. -/
theorem Justified.mono (h : Justified s p) (hlog : s.logEnd ≤ s'.logEnd)
    (hsynced : s.syncedLsn ≤ s'.syncedLsn)
    (hstore : ∀ c fr, p = .storing c fr →
      s'.committedLsn = s.committedLsn ∧ s'.syncedLsn = s.syncedLsn) : Justified s' p := by
  have hbefore : ∀ {c : SyncCall}, (∀ e ∈ c.before, e ≤ s.logEnd) →
      ∀ e ∈ c.before, e ≤ s'.logEnd := fun hc e he => (hc e he).trans hlog
  have hcovered : ∀ {c : SyncCall} {ok : Bool}, (ok = true → c.CoveredBy s.syncedLsn) →
      ok = true → c.CoveredBy s'.syncedLsn := fun hc hok e he => (hc hok e he).trans hsynced
  cases p with
  | idle => trivial
  | syncFailed c => trivial
  | captured c fr => exact h
  | checked c fr => exact h
  | queued c fr => exact h
  | syncing c fr => exact h
  | ending c pub => exact h
  | publishing c pub => exact h
  | storing c fr =>
    obtain ⟨hc, hs⟩ := hstore c fr rfl
    exact ⟨h.1, hc.trans h.2.1, hs.trans_lt h.2.2⟩
  | clearing c ok => exact hcovered h
  | notifying c ok => exact hcovered h
  | ended c ok => exact hcovered h
  | returned c ok => exact hcovered h
  | _ => exact hbefore h

/-- Nobody is between the two stores when another agent holds the lock. -/
theorem CommitInv.not_storing (h : CommitInv s) (ha : (s.pc a).holds = true)
    (hp : ∀ c fr, s.pc a ≠ .storing c fr) (b : A) (c : SyncCall) (fr : ℕ) :
    s.pc b ≠ .storing c fr := by
  intro hb
  have hhold : (s.pc b).holds = true := by
    rw [hb]
    rfl
  have heq := h.lock.unique hhold ha
  subst heq
  exact hp c fr hb

theorem CommitInv.mirror_of_holds (h : CommitInv s) (ha : (s.pc a).holds = true)
    (hp : ∀ c fr, s.pc a ≠ .storing c fr) : s.committedLsn = s.syncedLsn := by
  rcases h.mirror with heq | ⟨b, c, fr, hb⟩
  · exact heq
  · exact absurd hb (h.not_storing ha hp b c fr)

theorem CommitInv.inFlight_iff (h : CommitInv s) :
    s.inFlight = true ↔ ∃ a, (s.pc a).leads = true := by
  obtain ⟨l, howner, hl⟩ := h.lead
  rw [hl]
  exact howner.isSome_iff

theorem CommitInv.leader_unique (h : CommitInv s) (ha : (s.pc a).leads = true)
    (hb : (s.pc b).leads = true) : a = b := by
  obtain ⟨l, howner, hl⟩ := h.lead
  exact howner.unique ha hb

/-- Where the poison is not yet set the leader is the one that has to set it. -/
theorem CommitInv.leader_of_failed (h : CommitInv s) (hf : s.failed = true)
    (hpoison : s.poison = false) (ha : (s.pc a).leads = true) : ∃ c, s.pc a = .syncFailed c := by
  rcases (h.stopped hf).poison with hset | ⟨b, c, hb⟩
  · rw [hpoison] at hset
    cases hset
  · have hlead : (s.pc b).leads = true := by
      rw [hb]
      rfl
    rw [h.leader_unique ha hlead]
    exact ⟨c, hb⟩

/-! ### Steps that leave the role and the frontiers -/

/-- The words such a step leaves as they are. -/
structure SameWords (s s' : Commit A) : Prop where
  inFlight : s'.inFlight = s.inFlight
  committed : s'.committedLsn = s.committedLsn
  synced : s'.syncedLsn = s.syncedLsn
  logEnd : s'.logEnd = s.logEnd
  acked : s'.acked = s.acked
  failed : s'.failed = s.failed

variable [DecidableEq A]

theorem Stopped.move (h : Stopped s) (hpc : s'.pc = Function.update s.pc a p)
    (hin : s'.inFlight = s.inFlight) (hpoison : s.poison = true → s'.poison = true)
    (hsf : (∀ c, s.pc a ≠ .syncFailed c) ∨ s'.poison = true) (harm : p.armed = false)
    (hmiss : ∀ c, p = .unpoisoned c → s.inFlight = true) : Stopped s' where
  poison := by
    rcases h.poison with hset | ⟨b, c, hb⟩
    · exact Or.inl (hpoison hset)
    · rcases hsf with hne | hset
      · refine Or.inr ⟨b, c, ?_⟩
        have hba : b ≠ a := by
          intro heq
          subst heq
          exact hne c hb
        rw [hpc, Function.update_of_ne hba, hb]
      · exact Or.inl hset
  unarmed := by
    intro b
    rw [hpc]
    by_cases hb : b = a
    · subst hb
      rw [Function.update_self]
      exact harm
    · rw [Function.update_of_ne hb]
      exact h.unarmed b
  missed := by
    intro b c hb
    rw [hin]
    rw [hpc] at hb
    by_cases hba : b = a
    · subst hba
      rw [Function.update_self] at hb
      exact hmiss c hb
    · rw [Function.update_of_ne hba] at hb
      exact h.missed b c hb

theorem justified_update (hpc : s'.pc = Function.update s.pc a p)
    (hother : ∀ b, b ≠ a → Justified s' (s.pc b)) (ha : Justified s' p) (b : A) :
    Justified s' (s'.pc b) := by
  rw [hpc]
  by_cases hb : b = a
  · subst hb
    rw [Function.update_self]
    exact ha
  · rw [Function.update_of_ne hb]
    exact hother b hb

/-- An agent that neither takes nor gives up the role goes on; `hrest` is what the step
must not do after a failed fsync. -/
theorem CommitInv.move (h : CommitInv s) (hpc : s'.pc = Function.update s.pc a p)
    (hsame : SameWords s s') (hlock : Owner (SyncPc.holds ∘ s'.pc) s'.lock)
    (hlead : p.leads = (s.pc a).leads) (hpoison : s.poison = true → s'.poison = true)
    (hsf : (∀ c, s.pc a ≠ .syncFailed c) ∨ s'.poison = true)
    (hst : ∀ c fr, s.pc a ≠ .storing c fr) (hjust : Justified s p)
    (hrest : s.failed = true → p.armed = false ∧ s'.issued = s.issued ∧
      ∀ c, p = .unpoisoned c → s.inFlight = true) : CommitInv s' ∧ Advance s s' := by
  have hmono : ∀ q, Justified s q → Justified s' q := fun q hq =>
    hq.mono hsame.logEnd.ge hsame.synced.ge fun _ _ _ => ⟨hsame.committed, hsame.synced⟩
  refine ⟨⟨hlock, ?_, ?_, ?_, ?_, ?_⟩, hsame.committed.ge, hsame.synced.ge, ?_⟩
  · obtain ⟨l, howner, hl⟩ := h.lead
    refine ⟨l, ?_, hsame.inFlight.trans hl⟩
    rw [hpc]
    exact howner.keep hlead
  · rw [hsame.acked, hsame.logEnd]
    exact h.acked
  · exact justified_update hpc (fun b _ => hmono _ (h.just b)) (hmono _ hjust)
  · rw [hsame.committed, hsame.synced]
    rcases h.mirror with heq | ⟨b, c, fr, hb⟩
    · exact Or.inl heq
    · refine Or.inr ⟨b, c, fr, ?_⟩
      have hba : b ≠ a := by
        intro heq
        subst heq
        exact hst c fr hb
      rw [hpc, Function.update_of_ne hba, hb]
  · intro hf
    rw [hsame.failed] at hf
    obtain ⟨harm, -, hmiss⟩ := hrest hf
    exact (h.stopped hf).move hpc hsame.inFlight hpoison hsf harm hmiss
  · intro hf
    exact ⟨hsame.failed.trans hf, (hrest hf).2.1, hsame.committed, hsame.synced⟩

/-! ### Steps that move the role or the frontiers -/

omit [DecidableEq A] in
theorem CommitInv.not_failed (h : CommitInv s) (ha : (s.pc a).armed = true) :
    s.failed = false := by
  by_contra hf
  have hno := (h.stopped (by simpa using hf)).unarmed a
  rw [ha] at hno
  cases hno

theorem CommitInv.elect (h : CommitInv s) {c : SyncCall} (hp : s.pc a = .unpoisoned c)
    (hin : s.inFlight = false) :
    CommitInv ({ s with inFlight := true }.goto a (.window c)) ∧
      Advance s ({ s with inFlight := true }.goto a (.window c)) := by
  have hf : s.failed = false := by
    by_contra hf
    have htrue := (h.stopped (by simpa using hf)).missed a c hp
    rw [hin] at htrue
    cases htrue
  have hmirror := h.mirror_of_holds (a := a) (by rw [hp]; rfl) (by simp [hp])
  have hjust := h.just a
  rw [hp] at hjust
  refine ⟨⟨?_, ⟨some a, ?_, rfl⟩, h.acked, ?_, Or.inl hmirror, ?_⟩, le_rfl, le_rfl, ?_⟩
  · exact h.lock.keep (by rw [hp]; rfl)
  · obtain ⟨l, howner, hl⟩ := h.lead
    have hnone : l = none := by
      rw [hin] at hl
      simpa using hl.symm
    rw [hnone] at howner
    exact howner.take rfl
  · exact justified_update rfl (fun b _ => (h.just b).mono le_rfl le_rfl fun _ _ _ => ⟨rfl, rfl⟩)
      hjust
  · intro hf'
    exact absurd (hf.symm.trans hf') Bool.false_ne_true
  · intro hf'
    exact absurd (hf.symm.trans hf') Bool.false_ne_true

/-- The fsync of the leader fails or is abandoned: nobody else is armed. -/
theorem CommitInv.fail (h : CommitInv s) {c : SyncCall} {fr : ℕ} (hp : s.pc a = .syncing c fr) :
    CommitInv ({ s with failed := true }.goto a (.syncFailed c)) ∧
      Advance s ({ s with failed := true }.goto a (.syncFailed c)) := by
  have hlead : (s.pc a).leads = true := by
    rw [hp]
    rfl
  have hf := h.not_failed (a := a) (by rw [hp]; rfl)
  refine ⟨⟨?_, ?_, h.acked, ?_, ?_, ?_⟩, le_rfl, le_rfl, ?_⟩
  · exact h.lock.keep (by rw [hp]; rfl)
  · obtain ⟨l, howner, hl⟩ := h.lead
    exact ⟨l, howner.keep (by rw [hp]; rfl), hl⟩
  · exact justified_update rfl (fun b _ => (h.just b).mono le_rfl le_rfl fun _ _ _ => ⟨rfl, rfl⟩)
      trivial
  · rcases h.mirror with heq | ⟨b, c', fr', hb⟩
    · exact Or.inl heq
    · have hba : b ≠ a := by
        intro heq
        subst heq
        simp [hp] at hb
      exact Or.inr ⟨b, c', fr', (Function.update_of_ne hba _ _).trans hb⟩
  · intro _
    refine ⟨Or.inr ⟨a, c, Function.update_self ..⟩, ?_, ?_⟩
    · intro b
      by_cases hb : b = a
      · subst hb
        simp [Commit.goto, SyncPc.armed]
      · simp only [Commit.goto, Function.update_of_ne hb]
        by_contra harm
        have harmed : (s.pc b).armed = true := by simpa using harm
        exact hb (h.leader_unique (SyncPc.leads_of_armed harmed) hlead)
    · intro _ _ _
      exact h.inFlight_iff.mpr ⟨a, hlead⟩
  · intro hf'
    exact absurd (hf.symm.trans hf') Bool.false_ne_true

theorem CommitInv.storeCommitted (h : CommitInv s) {c : SyncCall} {fr : ℕ}
    (hp : s.pc a = .publishing c (some fr)) (hlt : s.committedLsn < fr) :
    CommitInv ({ s with committedLsn := fr }.goto a (.storing c fr)) ∧
      Advance s ({ s with committedLsn := fr }.goto a (.storing c fr)) := by
  have hholds : (s.pc a).holds = true := by
    rw [hp]
    rfl
  have hf := h.not_failed (a := a) (by rw [hp]; rfl)
  have hmirror := h.mirror_of_holds hholds (by simp [hp])
  have hjust := h.just a
  rw [hp] at hjust
  refine ⟨⟨?_, ?_, h.acked, ?_, ?_, ?_⟩, hlt.le, le_rfl, ?_⟩
  · exact h.lock.keep (by rw [hp]; rfl)
  · obtain ⟨l, howner, hl⟩ := h.lead
    exact ⟨l, howner.keep (by rw [hp]; rfl), hl⟩
  · refine justified_update rfl ?_ ⟨hjust fr rfl, rfl, by simpa [Commit.goto, ← hmirror] using hlt⟩
    intro b _
    refine (h.just b).mono le_rfl le_rfl ?_
    intro c' fr' hb
    exact absurd hb (h.not_storing hholds (by simp [hp]) b c' fr')
  · exact Or.inr ⟨a, c, fr, Function.update_self ..⟩
  · intro hf'
    exact absurd (hf.symm.trans hf') Bool.false_ne_true
  · intro hf'
    exact absurd (hf.symm.trans hf') Bool.false_ne_true

theorem CommitInv.storeSynced (h : CommitInv s) {c : SyncCall} {fr : ℕ}
    (hp : s.pc a = .storing c fr) :
    CommitInv ({ s with syncedLsn := fr }.goto a (.clearing c true)) ∧
      Advance s ({ s with syncedLsn := fr }.goto a (.clearing c true)) := by
  have hholds : (s.pc a).holds = true := by
    rw [hp]
    rfl
  have hf := h.not_failed (a := a) (by rw [hp]; rfl)
  have hjust := h.just a
  rw [hp] at hjust
  obtain ⟨hcov, hcommitted, hsynced⟩ := hjust
  refine ⟨⟨?_, ?_, h.acked, ?_, ?_, ?_⟩, le_rfl, hsynced.le, ?_⟩
  · exact h.lock.keep (by rw [hp]; rfl)
  · obtain ⟨l, howner, hl⟩ := h.lead
    exact ⟨l, howner.keep (by rw [hp]; rfl), hl⟩
  · refine justified_update rfl ?_ fun _ => hcov
    intro b hb
    refine (h.just b).mono le_rfl hsynced.le ?_
    intro c' fr' hst
    have hholds' : (s.pc b).holds = true := by
      rw [hst]
      rfl
    exact absurd (h.lock.unique hholds' hholds) hb
  · exact Or.inl hcommitted
  · intro hf'
    exact absurd (hf.symm.trans hf') Bool.false_ne_true
  · intro hf'
    exact absurd (hf.symm.trans hf') Bool.false_ne_true

/-- The role ends under the lock, so nobody that missed the poison is looking. -/
theorem CommitInv.clear (h : CommitInv s) {c : SyncCall} {ok : Bool}
    (hp : s.pc a = .clearing c ok) :
    CommitInv ({ s with inFlight := false }.goto a (.notifying c ok)) ∧
      Advance s ({ s with inFlight := false }.goto a (.notifying c ok)) := by
  have hholds : (s.pc a).holds = true := by
    rw [hp]
    rfl
  have hmirror := h.mirror_of_holds hholds (by simp [hp])
  have hjust := h.just a
  rw [hp] at hjust
  refine ⟨⟨?_, ⟨none, ?_, rfl⟩, h.acked, ?_, Or.inl hmirror, ?_⟩, le_rfl, le_rfl, ?_⟩
  · exact h.lock.keep (by rw [hp]; rfl)
  · obtain ⟨l, howner, hl⟩ := h.lead
    exact howner.release (by rw [hp]; rfl) rfl
  · exact justified_update rfl (fun b _ => (h.just b).mono le_rfl le_rfl fun _ _ _ => ⟨rfl, rfl⟩)
      hjust
  · intro hf
    have hstop : Stopped (s.goto a (.notifying c ok)) :=
      (h.stopped hf).move rfl rfl id (Or.inl (by simp [hp])) rfl (by simp)
    refine ⟨hstop.poison, hstop.unarmed, ?_⟩
    intro b c' hb
    by_cases hba : b = a
    · subst hba
      simp [Commit.goto] at hb
    · simp only [Commit.goto, Function.update_of_ne hba] at hb
      exact absurd (h.lock.unique (by rw [hb]; rfl) hholds) hba
  · intro hf
    exact ⟨hf, rfl, rfl, rfl⟩

omit [DecidableEq A] in
/-- `notify_all` changes who is parked and nothing else. -/
theorem CommitInv.woken (h : CommitInv s) : CommitInv { s with pc := fun b => (s.pc b).woken } where
  lock := h.lock.congr fun b => SyncPc.holds_woken (s.pc b)
  lead := by
    obtain ⟨l, howner, hl⟩ := h.lead
    exact ⟨l, howner.congr fun b => SyncPc.leads_woken (s.pc b), hl⟩
  acked := h.acked
  just := by
    intro b
    have hb := h.just b
    revert hb
    cases hpc : s.pc b <;> simp [hpc, SyncPc.woken, Justified]
  mirror := by
    rcases h.mirror with heq | ⟨b, c, fr, hb⟩
    · exact Or.inl heq
    · exact Or.inr ⟨b, c, fr, by simp [hb, SyncPc.woken]⟩
  stopped := by
    intro hf
    have hstop := h.stopped hf
    refine ⟨?_, fun b => (SyncPc.armed_woken _).trans (hstop.unarmed b), fun b c hb =>
      hstop.missed b c (SyncPc.woken_eq_unpoisoned hb)⟩
    rcases hstop.poison with hset | ⟨b, c, hb⟩
    · exact Or.inl hset
    · exact Or.inr ⟨b, c, by simp [hb, SyncPc.woken]⟩

end Fsys.Journal
