import Fsys.Pipeline.ShardFlow

/-!
# The invariant of the group lane

`FleetInv` says that a shard gets one thread: whoever spawns it holds the shard's mutex and
has seen no thread, or fills the fleet before anybody else sees it. `JobInv` follows the
jobs: a call whose job entered a queue has passed its send, an answer belongs to a finished
job, and a call that returned `ShutdownInProgress` has a job that never entered or was lost.
-/

namespace Fsys.Lane
open Fsys.Base Fsys.Platform

variable {A π : Type} {e : Setting A π} {s s' : Pipeline A π} {a : A} {k : ℕ} {p : Stage}

/-! ### One thread a shard -/

/-- The shard has not come up in the initialisation yet. -/
def Fleet.untouched : Fleet A → ℕ → Bool
  | .unset, _ => true
  | .filling _ idx, k => decide (idx ≤ k)
  | _, _ => false

/-- Nobody sees the fleet yet. -/
def Fleet.hidden : Fleet A → Bool
  | .unset => true
  | .filling _ _ => true
  | _ => false

structure FleetInv (e : Setting A π) (s : Pipeline A π) : Prop where
  hidden : s.fleet.hidden = true → ∀ a, (s.stage a).ensuring = false
  untouched : ∀ k, s.fleet.untouched k = true → (s.shard k).dispatcher = .unspawned
  lock : ∀ a, (s.stage a).holds = true → (s.shard (e.shardOf a)).lock = some a
  fresh : ∀ a, s.stage a = .spawning → (s.shard (e.shardOf a)).dispatcher = .unspawned
  spawned : ∀ k, (s.shard k).running = false → (s.shard k).dispatcher ≠ .unspawned →
    ∃ a, s.stage a = .marking ∧ e.shardOf a = k
  closed : ∀ k, (s.shard k).closed = true → s.fleet.closes = true

theorem fleetInv_new : FleetInv e (Pipeline.new : Pipeline A π) where
  hidden _ _ := rfl
  untouched _ _ := rfl
  lock a h := by cases h
  fresh a h := by cases h
  spawned k _ h := absurd rfl h
  closed k h := by cases h

theorem Stage.ensuring_of_holds (h : p.holds = true) : p.ensuring = true := by
  cases p <;> first | rfl | cases h

/-- What one thread a shard depends on is the same. -/
structure SameFleet (s s' : Pipeline A π) : Prop where
  fleet : s'.fleet = s.fleet
  lock : ∀ k, (s'.shard k).lock = (s.shard k).lock
  running : ∀ k, (s'.shard k).running = (s.shard k).running
  closed : ∀ k, (s'.shard k).closed = (s.shard k).closed
  unspawned : ∀ k, (s'.shard k).dispatcher = .unspawned ↔ (s.shard k).dispatcher = .unspawned
  stage : ∀ a, s'.stage a = s.stage a ∨
    ((s.stage a).ensuring = false ∧ (s'.stage a).ensuring = false)

theorem FleetInv.same (h : FleetInv e s) (hs : SameFleet s s') : FleetInv e s' := by
  have hback : ∀ a, (s'.stage a).ensuring = true → s'.stage a = s.stage a := by
    intro a ha
    rcases hs.stage a with heq | ⟨-, hfalse⟩
    · exact heq
    · rw [ha] at hfalse
      cases hfalse
  constructor
  · intro hhid a
    rw [hs.fleet] at hhid
    rcases hs.stage a with heq | ⟨-, hfalse⟩
    · rw [heq]
      exact h.hidden hhid a
    · exact hfalse
  · intro k hk
    rw [hs.fleet] at hk
    exact (hs.unspawned k).mpr (h.untouched k hk)
  · intro a ha
    rw [hs.lock]
    refine h.lock a ?_
    rw [← hback a (Stage.ensuring_of_holds ha)]
    exact ha
  · intro a ha
    refine (hs.unspawned _).mpr (h.fresh a ?_)
    rw [← hback a (by rw [ha]; rfl)]
    exact ha
  · intro k hrun hsp
    rw [hs.running] at hrun
    obtain ⟨a, ha, hk⟩ := h.spawned k hrun fun hun => hsp ((hs.unspawned k).mpr hun)
    refine ⟨a, ?_, hk⟩
    rcases hs.stage a with heq | ⟨hfalse, -⟩
    · rw [heq, ha]
    · rw [ha] at hfalse
      cases hfalse
  · intro k hk
    rw [hs.closed] at hk
    rw [hs.fleet]
    exact h.closed k hk

/-- Two callers of one shard do not both hold its mutex. -/
theorem FleetInv.unique (h : FleetInv e s) {b : A} (ha : (s.stage a).holds = true)
    (hb : (s.stage b).holds = true) (hk : e.shardOf a = e.shardOf b) : a = b := by
  have h1 := h.lock a ha
  have h2 := h.lock b hb
  rw [hk] at h1
  exact Option.some.inj (h1.symm.trans h2)

theorem FleetInv.sole (h : FleetInv e s) (ha : (s.stage a).holds = true) :
    ∀ b, b ≠ a → e.shardOf b = e.shardOf a → (s.stage b).holds = false := by
  intro b hba hk
  by_contra hb
  exact hba (h.unique (by simpa using hb) ha hk)

theorem sameFleet_setShard {sh : Shard A π} {response : A → Response}
    (hown : OwnStep (s.shard k) sh) :
    SameFleet s { s.setShard k sh with response := response } := by
  have hshard : ∀ {β : Type} (f : Shard A π → β) (j : ℕ), f sh = f (s.shard k) →
      f (Function.update s.shard k sh j) = f (s.shard j) := by
    intro β f j hf
    by_cases hj : j = k
    · rw [hj, Function.update_self, hf]
    · rw [Function.update_of_ne hj]
  refine ⟨rfl, fun j => hshard Shard.lock j hown.lock, fun j => hshard Shard.running j hown.running,
    fun j => hshard Shard.closed j hown.closed, ?_, fun _ => Or.inl rfl⟩
  intro j
  simp only [Pipeline.setShard]
  by_cases hj : j = k
  · rw [hj, Function.update_self]
    exact ⟨fun h => absurd h hown.spawned', fun h => absurd h hown.spawned⟩
  · rw [Function.update_of_ne hj]

/-- The thread of the next shard is started, or not, while the fleet is filled. -/
theorem FleetInv.fill (h : FleetInv e s) {idx : ℕ} (hfleet : s.fleet = .filling a idx)
    {sh : Shard A π} (hclosed : sh.closed = (s.shard idx).closed)
    (hrun : sh.running = false → sh.dispatcher = .unspawned) :
    FleetInv e { s.setShard idx sh with fleet := .filling a (idx + 1) } := by
  have hquiet := h.hidden (by rw [hfleet]; rfl)
  have hthere : ∀ j, j ≠ idx → Function.update s.shard idx sh j = s.shard j :=
    fun j hj => Function.update_of_ne hj _ _
  constructor
  · intro _
    exact hquiet
  · intro j hj
    have hle : idx + 1 ≤ j := of_decide_eq_true hj
    simp only [Pipeline.setShard]
    rw [hthere j (by omega)]
    refine h.untouched j ?_
    rw [hfleet]
    exact decide_eq_true (by omega)
  · intro b hb
    have hens : (s.stage b).ensuring = true := Stage.ensuring_of_holds hb
    exact absurd (hens.symm.trans (hquiet b)) (by simp)
  · intro b hb
    have hens := hquiet b
    rw [show s.stage b = .spawning from hb] at hens
    cases hens
  · intro j hrunj hsp
    simp only [Pipeline.setShard] at hrunj hsp ⊢
    by_cases hj : j = idx
    · subst hj
      rw [Function.update_self] at hrunj hsp
      exact absurd (hrun hrunj) hsp
    · rw [hthere j hj] at hrunj hsp
      exact h.spawned j hrunj hsp
  · intro j hj
    simp only [Pipeline.setShard] at hj
    have hold : (s.shard j).closed = true := by
      by_cases hji : j = idx
      · subst hji
        rw [Function.update_self, hclosed] at hj
        exact hj
      · rwa [hthere j hji] at hj
    have hcl := h.closed j hold
    rw [hfleet] at hcl
    cases hcl

/-- The fleet changes hands: it was seen by nobody, or stays out of the initialisation. -/
theorem FleetInv.setFleet (h : FleetInv e s) {f : Fleet A}
    (hhidden : f.hidden = true → s.fleet.hidden = true)
    (huntouched : ∀ k, f.untouched k = true → s.fleet.untouched k = true)
    (hcloses : s.fleet.closes = true → f.closes = true) : FleetInv e { s with fleet := f } :=
  ⟨fun hf => h.hidden (hhidden hf), fun k hk => h.untouched k (huntouched k hk), h.lock, h.fresh,
    h.spawned, fun k hk => hcloses (h.closed k hk)⟩

/-- `drop` marks a shard. -/
theorem FleetInv.mark (h : FleetInv e s) {sh : Shard A π} (hlock : sh.lock = (s.shard k).lock)
    (hrunning : sh.running = (s.shard k).running)
    (hdispatcher : sh.dispatcher = (s.shard k).dispatcher)
    (hclosed : sh.closed = true → (s.shard k).closed = true ∨ s.fleet.closes = true) :
    FleetInv e (s.setShard k sh) := by
  have hshard : ∀ {β : Type} (f : Shard A π → β) (j : ℕ), f sh = f (s.shard k) →
      f ((s.setShard k sh).shard j) = f (s.shard j) := by
    intro β f j hf
    simp only [Pipeline.setShard]
    by_cases hj : j = k
    · rw [hj, Function.update_self, hf]
    · rw [Function.update_of_ne hj]
  constructor
  · exact h.hidden
  · intro j hj
    rw [hshard Shard.dispatcher j hdispatcher]
    exact h.untouched j hj
  · intro b hb
    rw [hshard Shard.lock _ hlock]
    exact h.lock b hb
  · intro b hb
    rw [hshard Shard.dispatcher _ hdispatcher]
    exact h.fresh b hb
  · intro j hrun hsp
    rw [hshard Shard.running j hrunning] at hrun
    rw [hshard Shard.dispatcher j hdispatcher] at hsp
    exact h.spawned j hrun hsp
  · intro j hj
    simp only [Pipeline.setShard] at hj
    by_cases hjk : j = k
    · subst hjk
      rw [Function.update_self] at hj
      rcases hclosed hj with hold | hcl
      · exact h.closed j hold
      · exact hcl
    · rw [Function.update_of_ne hjk] at hj
      exact h.closed j hj

section

variable [DecidableEq A]

theorem sameFleet_goto (hold : (s.stage a).ensuring = false) (hnew : p.ensuring = false) :
    SameFleet s (s.goto a p) := by
  refine ⟨rfl, fun _ => rfl, fun _ => rfl, fun _ => rfl, fun _ => Iff.rfl, ?_⟩
  intro b
  by_cases hb : b = a
  · subst hb
    exact Or.inr ⟨hold, by simpa [Pipeline.goto] using hnew⟩
  · exact Or.inl (by simp [Pipeline.goto, hb])

/-- A caller moves without the mutex. -/
theorem FleetInv.goto (h : FleetInv e s) (hold : (s.stage a).holds = false)
    (hnew : p.holds = false) (hseen : p.ensuring = true → s.fleet.hidden = false) :
    FleetInv e (s.goto a p) := by
  have hother : ∀ b, b ≠ a → (s.goto a p).stage b = s.stage b := by
    intro b hb
    simp [Pipeline.goto, hb]
  have hself : (s.goto a p).stage a = p := by simp [Pipeline.goto]
  constructor
  · intro hhid b
    by_cases hb : b = a
    · subst hb
      rw [hself]
      by_contra hens
      have hnot := hseen (by simpa using hens)
      rw [show s.fleet.hidden = true from hhid] at hnot
      cases hnot
    · rw [hother b hb]
      exact h.hidden hhid b
  · exact h.untouched
  · intro b hb
    by_cases hba : b = a
    · subst hba
      rw [hself, hnew] at hb
      cases hb
    · rw [hother b hba] at hb
      exact h.lock b hb
  · intro b hb
    by_cases hba : b = a
    · subst hba
      rw [hself] at hb
      rw [hb] at hnew
      cases hnew
    · rw [hother b hba] at hb
      exact h.fresh b hb
  · intro j hrun hsp
    obtain ⟨b, hb, hj⟩ := h.spawned j hrun hsp
    refine ⟨b, ?_, hj⟩
    have hba : b ≠ a := by
      intro heq
      rw [← heq, hb] at hold
      cases hold
    rw [hother b hba]
    exact hb
  · exact h.closed

/-- A caller that is alone with the mutex of its shard moves and changes the shard. -/
theorem FleetInv.update (h : FleetInv e s) (hready : s.fleet = .ready) {sh : Shard A π}
    (hsole : ∀ b, b ≠ a → e.shardOf b = e.shardOf a → (s.stage b).holds = false)
    (hlock : p.holds = true → sh.lock = some a)
    (hfresh : p = .spawning → sh.dispatcher = .unspawned)
    (hspawned : sh.running = false → sh.dispatcher ≠ .unspawned → p = .marking)
    (hclosed : sh.closed = (s.shard (e.shardOf a)).closed) :
    FleetInv e ((s.setShard (e.shardOf a) sh).goto a p) := by
  have hother : ∀ b, b ≠ a → ((s.setShard (e.shardOf a) sh).goto a p).stage b = s.stage b := by
    intro b hb
    simp [Pipeline.goto, Pipeline.setShard, hb]
  have hself : ((s.setShard (e.shardOf a) sh).goto a p).stage a = p := by simp [Pipeline.goto]
  have hhere : ((s.setShard (e.shardOf a) sh).goto a p).shard (e.shardOf a) = sh := by
    simp [Pipeline.goto, Pipeline.setShard]
  have hthere : ∀ j, j ≠ e.shardOf a →
      ((s.setShard (e.shardOf a) sh).goto a p).shard j = s.shard j := by
    intro j hj
    simp [Pipeline.goto, Pipeline.setShard, hj]
  have hfleet : ((s.setShard (e.shardOf a) sh).goto a p).fleet = .ready := hready
  constructor
  · intro hhid
    rw [hfleet] at hhid
    cases hhid
  · intro j hj
    rw [hfleet] at hj
    cases hj
  · intro b hb
    by_cases hba : b = a
    · subst hba
      rw [hself] at hb
      rw [hhere]
      exact hlock hb
    · rw [hother b hba] at hb
      have hj : e.shardOf b ≠ e.shardOf a := by
        intro heq
        rw [hsole b hba heq] at hb
        cases hb
      rw [hthere _ hj]
      exact h.lock b hb
  · intro b hb
    by_cases hba : b = a
    · subst hba
      rw [hself] at hb
      rw [hhere]
      exact hfresh hb
    · rw [hother b hba] at hb
      have hj : e.shardOf b ≠ e.shardOf a := by
        intro heq
        have hfalse := hsole b hba heq
        rw [hb] at hfalse
        cases hfalse
      rw [hthere _ hj]
      exact h.fresh b hb
  · intro j hrun hsp
    by_cases hj : j = e.shardOf a
    · subst hj
      rw [hhere] at hrun hsp
      exact ⟨a, by rw [hself]; exact hspawned hrun hsp, rfl⟩
    · rw [hthere j hj] at hrun hsp
      obtain ⟨b, hb, hbj⟩ := h.spawned j hrun hsp
      have hba : b ≠ a := by
        intro heq
        rw [← hbj, heq] at hj
        exact hj rfl
      exact ⟨b, by rw [hother b hba]; exact hb, hbj⟩
  · intro j hj
    by_cases hja : j = e.shardOf a
    · subst hja
      rw [hhere, hclosed] at hj
      exact h.closed _ hj
    · rw [hthere j hja] at hj
      exact h.closed j hj

end

/-! ### Jobs -/

variable [LinearOrder π]

/-- What a call may return: the answer to its job, or `ShutdownInProgress` for a job that no
thread got. -/
def Settled (e : Setting A π) (s : Pipeline A π) (a : A) (r : Except BatchError Unit) : Prop :=
  (a ∈ (s.shard (e.shardOf a)).finished ∧ r = e.result a) ∨
  (r = .error shutdownErr ∧ (a ∉ (s.shard (e.shardOf a)).entered ∨
    a ∈ (s.shard (e.shardOf a)).lost))

structure JobInv (e : Setting A π) (s : Pipeline A π) : Prop where
  flow : ∀ k, Flow e (s.shard k)
  entered : ∀ k a, a ∈ (s.shard k).entered → e.shardOf a = k ∧ (s.stage a).passed = true
  nodup : ∀ k, (s.shard k).entered.Nodup
  answered : ∀ a r, s.response a = .answered r →
    a ∈ (s.shard (e.shardOf a)).finished ∧ r = e.result a
  dropped : ∀ a, s.response a = .dropped → a ∈ (s.shard (e.shardOf a)).lost
  returned : ∀ a r, s.stage a = .returned r → Settled e s a r

theorem jobInv_new : JobInv e (Pipeline.new : Pipeline A π) where
  flow _ := flow_new
  entered k a h := by cases h
  nodup _ := List.nodup_nil
  answered a r h := by cases h
  dropped a h := by cases h
  returned a r h := by cases h

/-- A shard goes on with the jobs that entered: some may be finished or lost now, and
responses may follow. -/
theorem JobInv.advance (h : JobInv e s) {sh : Shard A π} {response : A → Response}
    (hflow : Flow e sh) (hentered : sh.entered = (s.shard k).entered)
    (hfinished : (s.shard k).finished ⊆ sh.finished) (hlost : (s.shard k).lost ⊆ sh.lost)
    (hanswered : ∀ a r, response a = .answered r → s.response a = .answered r ∨
      (e.shardOf a = k ∧ a ∈ sh.finished ∧ r = e.result a))
    (hdropped : ∀ a, response a = .dropped → s.response a = .dropped ∨
      (e.shardOf a = k ∧ a ∈ sh.lost)) :
    JobInv e { s.setShard k sh with response := response } := by
  have hhere : Function.update s.shard k sh k = sh := Function.update_self ..
  have hsame : ∀ j, (Function.update s.shard k sh j).entered = (s.shard j).entered ∧
      (s.shard j).finished ⊆ (Function.update s.shard k sh j).finished ∧
      (s.shard j).lost ⊆ (Function.update s.shard k sh j).lost := by
    intro j
    by_cases hj : j = k
    · subst hj
      rw [hhere]
      exact ⟨hentered, hfinished, hlost⟩
    · rw [Function.update_of_ne hj]
      exact ⟨rfl, List.Subset.refl _, List.Subset.refl _⟩
  constructor
  · intro j
    by_cases hj : j = k
    · subst hj
      simp only [Pipeline.setShard, hhere]
      exact hflow
    · simp only [Pipeline.setShard, Function.update_of_ne hj]
      exact h.flow j
  · intro j a ha
    simp only [Pipeline.setShard, (hsame j).1] at ha
    exact h.entered j a ha
  · intro j
    simp only [Pipeline.setShard, (hsame j).1]
    exact h.nodup j
  · intro a r hr
    simp only [Pipeline.setShard]
    rcases hanswered a r hr with hold | ⟨hk, hfin, heq⟩
    · obtain ⟨hfin, heq⟩ := h.answered a r hold
      exact ⟨(hsame _).2.1 hfin, heq⟩
    · rw [hk, hhere]
      exact ⟨hfin, heq⟩
  · intro a ha
    simp only [Pipeline.setShard]
    rcases hdropped a ha with hold | ⟨hk, hl⟩
    · exact (hsame _).2.2 (h.dropped a hold)
    · rw [hk, hhere]
      exact hl
  · intro a r hr
    unfold Settled
    simp only [Pipeline.setShard, (hsame _).1]
    rcases h.returned a r hr with ⟨hfin, heq⟩ | ⟨heq, hnot | hl⟩
    · exact Or.inl ⟨(hsame _).2.1 hfin, heq⟩
    · exact Or.inr ⟨heq, Or.inl hnot⟩
    · exact Or.inr ⟨heq, Or.inr ((hsame _).2.2 hl)⟩

/-- A shard in which the jobs are where they were. -/
theorem JobInv.setShard (h : JobInv e s) {sh : Shard A π} (hflow : Flow e sh)
    (hentered : sh.entered = (s.shard k).entered) (hfinished : sh.finished = (s.shard k).finished)
    (hlost : sh.lost = (s.shard k).lost) : JobInv e (s.setShard k sh) :=
  h.advance hflow hentered (hfinished ▸ List.Subset.refl _) (hlost ▸ List.Subset.refl _)
    (fun _ _ hr => Or.inl hr) (fun _ ha => Or.inl ha)

theorem JobInv.setFleet (h : JobInv e s) (f : Fleet A) : JobInv e { s with fleet := f } :=
  ⟨h.flow, h.entered, h.nodup, h.answered, h.dropped, h.returned⟩

/-- A caller that has not passed its send has no job in a queue. -/
theorem JobInv.not_entered (h : JobInv e s) (hp : (s.stage a).passed = false) (k : ℕ) :
    a ∉ (s.shard k).entered := by
  intro ha
  have htrue := (h.entered k a ha).2
  rw [hp] at htrue
  cases htrue

variable [DecidableEq A]

/-- A caller goes on. -/
theorem JobInv.goto (h : JobInv e s) (hpassed : (s.stage a).passed = true → p.passed = true)
    (hreturned : ∀ r, p = .returned r → Settled e s a r) : JobInv e (s.goto a p) where
  flow := h.flow
  nodup := h.nodup
  answered := h.answered
  dropped := h.dropped
  entered j b hb := by
    obtain ⟨hk, hpast⟩ := h.entered j b hb
    refine ⟨hk, ?_⟩
    by_cases hba : b = a
    · subst hba
      simp only [Pipeline.goto, Function.update_self]
      exact hpassed hpast
    · simp only [Pipeline.goto, Function.update_of_ne hba]
      exact hpast
  returned b r hr := by
    by_cases hba : b = a
    · subst hba
      simp only [Pipeline.goto, Function.update_self] at hr
      exact hreturned r hr
    · simp only [Pipeline.goto, Function.update_of_ne hba] at hr
      exact h.returned b r hr

theorem JobInv.refuse (h : JobInv e s) (hp : (s.stage a).passed = false)
    (hr : p = .returned (.error shutdownErr) ∨ ∀ r, p ≠ .returned r) : JobInv e (s.goto a p) := by
  refine h.goto ?_ ?_
  · intro htrue
    rw [hp] at htrue
    cases htrue
  · intro r hret
    rcases hr with heq | hne
    · rw [heq] at hret
      cases hret
      exact Or.inr ⟨rfl, Or.inl (h.not_entered hp _)⟩
    · exact absurd hret (hne r)

theorem Stage.passed_of_offering (h : p.offering = true) : p.passed = false := by
  cases p <;> first | rfl | cases h

theorem Stage.sent_passed (p : Stage) : p.sent.passed = true := by
  cases p <;> rfl

theorem Stage.sent_ne_returned (p : Stage) (r : Except BatchError Unit) : p.sent ≠ .returned r := by
  cases p <;> intro h <;> cases h

/-- A job enters the queue of its shard. -/
theorem JobInv.enter (h : JobInv e s) (hoff : (s.stage a).offering = true)
    (hconn : (s.shard (e.shardOf a)).disconnected = false) : JobInv e (s.enter e a) := by
  have hnew := h.not_entered (Stage.passed_of_offering hoff)
  have hshard : ∀ j, j ≠ e.shardOf a → (s.enter e a).shard j = s.shard j := by
    intro j hj
    simp only [Pipeline.enter, Pipeline.goto, Pipeline.setShard, Function.update_of_ne hj]
  have hhere : (s.enter e a).shard (e.shardOf a) = { s.shard (e.shardOf a) with
      queue := (s.shard (e.shardOf a)).queue ++ [a]
      entered := (s.shard (e.shardOf a)).entered ++ [a] } := by
    simp only [Pipeline.enter, Pipeline.goto, Pipeline.setShard, Function.update_self]
  have hstage : ∀ b, b ≠ a → (s.enter e a).stage b = s.stage b := by
    intro b hb
    simp only [Pipeline.enter, Pipeline.goto, Function.update_of_ne hb, Pipeline.setShard]
  have hself : (s.enter e a).stage a = (s.stage a).sent := by
    simp only [Pipeline.enter, Pipeline.goto, Function.update_self]
  have hfinished : ∀ j, ((s.enter e a).shard j).finished = (s.shard j).finished := by
    intro j
    by_cases hj : j = e.shardOf a
    · rw [hj, hhere]
    · rw [hshard j hj]
  have hlost : ∀ j, ((s.enter e a).shard j).lost = (s.shard j).lost := by
    intro j
    by_cases hj : j = e.shardOf a
    · rw [hj, hhere]
    · rw [hshard j hj]
  have hentered : ∀ j b, b ≠ a →
      (b ∈ ((s.enter e a).shard j).entered ↔ b ∈ (s.shard j).entered) := by
    intro j b hb
    by_cases hj : j = e.shardOf a
    · rw [hj, hhere]
      simp [hb]
    · rw [hshard j hj]
  constructor
  · intro j
    by_cases hj : j = e.shardOf a
    · rw [hj, hhere]
      exact (h.flow _).push hconn a
    · rw [hshard j hj]
      exact h.flow j
  · intro j b hb
    by_cases hba : b = a
    · subst hba
      rw [hself]
      refine ⟨?_, Stage.sent_passed _⟩
      by_contra hj
      rw [hshard j fun heq => hj heq.symm] at hb
      exact hnew j hb
    · rw [hstage b hba]
      exact h.entered j b ((hentered j b hba).mp hb)
  · intro j
    by_cases hj : j = e.shardOf a
    · rw [hj, hhere]
      simp only [List.nodup_append, h.nodup, List.nodup_cons, List.not_mem_nil,
        not_false_eq_true, List.nodup_nil, and_self, true_and, List.mem_singleton]
      intro x hx y hy heq
      rw [hy] at heq
      exact hnew _ (heq ▸ hx)
    · rw [hshard j hj]
      exact h.nodup j
  · intro b r hr
    rw [hfinished]
    exact h.answered b r hr
  · intro b hb
    rw [hlost]
    exact h.dropped b hb
  · intro b r hr
    have hba : b ≠ a := by
      intro heq
      rw [heq, hself] at hr
      exact Stage.sent_ne_returned _ _ hr
    rw [hstage b hba] at hr
    unfold Settled
    rw [hfinished, hlost, hentered _ b hba]
    exact h.returned b r hr

/-- The current job makes a call; with the answer it is finished. -/
theorem JobInv.nextCall (h : JobInv e s) (hstep : s.nextCall k = some s') : JobInv e s' := by
  unfold Pipeline.nextCall at hstep
  split at hstep
  · rename_i a c rest jobs last hd
    have hflow := (h.flow k).call hd
    have hfinished : (s.shard k).finished ⊆
        ((s.shard k).call a c rest jobs last).finished := by
      intro b hb
      simp only [Shard.call]
      split
      · exact List.mem_append_left _ hb
      · exact hb
    dsimp only at hstep
    cases c with
    | sent r =>
      cases hstep
      refine h.advance hflow rfl hfinished (List.Subset.refl _) ?_ ?_
      · intro b r' hr
        by_cases hba : b = a
        · -- the answer is the one to the current job
          subst hba
          rw [Function.update_self] at hr
          cases hr
          have hmem : b ∈ (s.shard k).entered := by
            rw [(h.flow k).order, hd]
            simp [Dispatcher.inHand]
          have hlogged := (h.flow k).logged
          unfold Logged at hlogged
          rw [hd] at hlogged
          obtain ⟨-, made, hcalls, -⟩ := hlogged
          obtain ⟨hrest, hres⟩ := processJob_sent hcalls
          refine Or.inr ⟨(h.entered k b hmem).1, ?_, hres⟩
          simp [Shard.call, hrest]
        · rw [Function.update_of_ne hba] at hr
          exact Or.inl hr
      · intro b hb
        by_cases hba : b = a
        · rw [hba, Function.update_self] at hb
          cases hb
        · rw [Function.update_of_ne hba] at hb
          exact Or.inl hb
    | ran idx op outcome =>
      cases hstep
      exact h.advance hflow rfl hfinished (List.Subset.refl _) (fun _ _ hr => Or.inl hr)
        (fun _ hb => Or.inl hb)
    | syncedParent file =>
      cases hstep
      exact h.advance hflow rfl hfinished (List.Subset.refl _) (fun _ _ hr => Or.inl hr)
        (fun _ hb => Or.inl hb)
  · cases hstep

theorem JobInv.nextDiscard (h : JobInv e s) (hstep : s.nextDiscard k = some s') :
    JobInv e s' := by
  unfold Pipeline.nextDiscard at hstep
  split at hstep
  · rename_i hdis
    cases hstep
    refine h.advance ((h.flow k).discard hdis) rfl (List.Subset.refl _)
      (List.subset_append_left _ _) ?_ ?_
    · intro a r hr
      split at hr
      · cases hr
      · exact Or.inl hr
    · intro a ha
      split at ha
      · rename_i hq
        have hmem : a ∈ (s.shard k).entered := by
          rw [(h.flow k).order]
          simp [hq]
        exact Or.inr ⟨(h.entered k a hmem).1, List.mem_append_right _ hq⟩
      · exact Or.inl ha
  · cases hstep

end Fsys.Lane
