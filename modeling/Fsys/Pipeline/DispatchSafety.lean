import Fsys.Pipeline.DispatchSteps

/-!
# What the group lane promises (src/pipeline/mod.rs, src/pipeline/group.rs, src/batch.rs:182-229)
-/

namespace Fsys.Lane
open Fsys.Base Fsys.Platform

variable {A π : Type} {e : Setting A π}

/-! ### The log -/

section

variable [DecidableEq A]

/-- What a log has of one job. -/
def ofJob (log : List (A × JobCall π)) (a : A) : List (A × JobCall π) :=
  log.filter fun x => x.1 = a

theorem ofJob_map (a b : A) (calls : List (JobCall π)) :
    ofJob (calls.map fun c => (b, c)) a = if b = a then calls.map fun c => (b, c) else [] := by
  unfold ofJob
  split
  · rename_i hba
    rw [List.filter_eq_self]
    simp [hba]
  · rename_i hba
    rw [List.filter_eq_nil_iff]
    simp [hba]

theorem ofJob_append (log more : List (A × JobCall π)) (a : A) :
    ofJob (log ++ more) a = ofJob log a ++ ofJob more a := List.filter_append _ _

end

variable [LinearOrder π]

/-- The log: all calls of the finished jobs, then some of the first job in hand. -/
theorem Flow.log_parts {sh : Shard A π} (h : Flow e sh) :
    ∃ part, sh.log = sh.finished.flatMap e.jobLog ++ part ∧
      (part = [] ∨ ∃ a jobs made todo, sh.dispatcher.inHand = a :: jobs ∧
        e.calls a = made ++ todo ∧ part = made.map fun c => (a, c)) := by
  have hlogged := h.logged
  unfold Logged at hlogged
  cases hd : sh.dispatcher with
  | processing current jobs last =>
    rw [hd] at hlogged
    cases current with
    | none => exact ⟨[], by rw [List.append_nil]; exact hlogged, Or.inl rfl⟩
    | some cur =>
      obtain ⟨a, todo⟩ := cur
      obtain ⟨-, made, hcalls, hlog⟩ := hlogged
      exact ⟨_, hlog, Or.inr ⟨a, jobs, made, todo, rfl, hcalls, rfl⟩⟩
  | _ =>
    rw [hd] at hlogged
    exact ⟨[], by rw [List.append_nil]; exact hlogged, Or.inl rfl⟩

theorem Flow.nodup_finished {sh : Shard A π} (h : Flow e sh) (hnodup : sh.entered.Nodup) :
    (sh.finished ++ sh.dispatcher.inHand).Nodup := by
  rw [h.order, ← List.append_assoc] at hnodup
  exact (List.nodup_append.mp hnodup).1

/-- The log follows the queue: all calls of the jobs that entered first, then some of the
next one. -/
theorem Flow.log_order {sh : Shard A π} (h : Flow e sh) :
    ∃ n part, sh.log = (sh.entered.take n).flatMap e.jobLog ++ part ∧
      (part = [] ∨ ∃ a, sh.entered[n]? = some a ∧ part <+: e.jobLog a) := by
  obtain ⟨part, hlog, hpart⟩ := h.log_parts
  have htake : sh.entered.take sh.finished.length = sh.finished := by
    rw [h.order, List.take_left]
  refine ⟨sh.finished.length, part, by rw [htake]; exact hlog, ?_⟩
  rcases hpart with hnil | ⟨a, jobs, made, todo, hhand, hcalls, hpart⟩
  · exact Or.inl hnil
  · refine Or.inr ⟨a, ?_, ?_⟩
    · rw [h.order, hhand, List.getElem?_append_right (Nat.le_refl _), Nat.sub_self]
      rfl
    · rw [hpart, Setting.jobLog, hcalls, List.map_append]
      exact List.prefix_append _ _

/-- What holds of a job, whenever it is run. -/
structure JobContract (e : Setting A π) (a : A) : Prop where
  executed : ∃ c dirs, Executed e.parent (e.executor a) (e.job a) c dirs (e.result a) (e.calls a)
  ok_iff : e.result a = .ok () ↔ ∀ i, i < (e.job a).ops.length → e.executor a i = .ok
  error : ∀ err, e.result a = .error err → err.completed = err.failedAt ∧
    err.failedAt < (e.job a).ops.length ∧ (∀ i, i < err.failedAt → e.executor a i = .ok) ∧
    (∃ x, (e.executor a err.failedAt).failure = some x ∧ err.source = .op x) ∧
    ∀ i op o, JobCall.ran i op o ∈ e.calls a → i ≤ err.failedAt

theorem jobContract (e : Setting A π) (a : A) : JobContract e a :=
  ⟨processJob_executed _ _ _, jobResult_ok_iff _ _ _, jobResult_error _ _ _⟩

variable [DecidableEq A]

/-- Of different jobs, one after another, the log has each once. -/
theorem ofJob_flatMap (a : A) (jobs : List A) (h : jobs.Nodup) :
    ofJob (jobs.flatMap e.jobLog) a = if a ∈ jobs then e.jobLog a else [] := by
  induction jobs with
  | nil => rfl
  | cons b rest ih =>
    obtain ⟨hb, hrest⟩ := List.nodup_cons.mp h
    have hsplit : ofJob ((b :: rest).flatMap e.jobLog) a =
        ofJob (e.jobLog b) a ++ ofJob (rest.flatMap e.jobLog) a := by
      simp [ofJob]
    rw [hsplit, ih hrest]
    unfold Setting.jobLog
    rw [ofJob_map]
    by_cases hba : b = a
    · subst hba
      simp [hb]
    · simp [hba, Ne.symm hba]

variable {sh : Shard A π} {a : A}

/-- All calls of a finished job are in the log, once. -/
theorem Flow.ofJob_finished (h : Flow e sh) (hnodup : sh.entered.Nodup)
    (ha : a ∈ sh.finished) : ofJob sh.log a = e.jobLog a := by
  obtain ⟨hfin, -, hdisjoint⟩ := List.nodup_append.mp (h.nodup_finished hnodup)
  obtain ⟨part, hlog, hpart⟩ := h.log_parts
  have hnil : ofJob part a = [] := by
    rcases hpart with rfl | ⟨b, jobs, made, todo, hhand, -, rfl⟩
    · rfl
    · have hba : b ≠ a := by
        intro heq
        exact hdisjoint a ha b (by rw [hhand]; exact List.mem_cons_self) heq.symm
      rw [ofJob_map, if_neg hba]
  rw [hlog, ofJob_append, hnil, List.append_nil, ofJob_flatMap a _ hfin, if_pos ha]

/-- Of a job that is not finished the log has some first calls, and only while it is in hand. -/
theorem Flow.ofJob_unfinished (h : Flow e sh) (hnodup : sh.entered.Nodup)
    (ha : a ∉ sh.finished) :
    ofJob sh.log a <+: e.jobLog a ∧ (a ∉ sh.dispatcher.inHand → ofJob sh.log a = []) := by
  obtain ⟨hfin, -, -⟩ := List.nodup_append.mp (h.nodup_finished hnodup)
  obtain ⟨part, hlog, hpart⟩ := h.log_parts
  rw [hlog, ofJob_append, ofJob_flatMap a _ hfin, if_neg ha, List.nil_append]
  rcases hpart with rfl | ⟨b, jobs, made, todo, hhand, hcalls, rfl⟩
  · exact ⟨by simp [ofJob], fun _ => rfl⟩
  · rw [ofJob_map]
    by_cases hba : b = a
    · subst hba
      rw [if_pos rfl, Setting.jobLog, hcalls, List.map_append]
      refine ⟨List.prefix_append _ _, ?_⟩
      intro hnot
      rw [hhand] at hnot
      exact absurd List.mem_cons_self hnot
    · rw [if_neg hba]
      exact ⟨by simp, fun _ => rfl⟩

theorem Flow.ofJob_first (h : Flow e sh) (hnodup : sh.entered.Nodup) (a : A) :
    ofJob sh.log a <+: e.jobLog a := by
  by_cases ha : a ∈ sh.finished
  · exact ⟨[], by rw [List.append_nil, h.ofJob_finished hnodup ha]⟩
  · exact (h.ofJob_unfinished hnodup ha).1

/-- A job that never entered, or was lost, made no call. -/
theorem Flow.ofJob_none (h : Flow e sh) (hnodup : sh.entered.Nodup)
    (ha : a ∉ sh.entered ∨ a ∈ sh.lost) : ofJob sh.log a = [] := by
  have hnot : a ∉ sh.finished ++ sh.dispatcher.inHand := by
    have horder := h.order
    rw [← List.append_assoc] at horder
    rcases ha with hnew | hlost
    · intro hmem
      apply hnew
      rw [horder]
      exact List.mem_append_left _ hmem
    · intro hmem
      rw [horder] at hnodup
      exact (List.nodup_append.mp hnodup).2.2 a hmem a (List.mem_append_right _ hlost) rfl
  rw [List.mem_append, not_or] at hnot
  exact (h.ofJob_unfinished hnodup hnot.1).2 hnot.2

/-! ### After the drain -/

/-- The steps of the thread of shard `k`. -/
def OfThread (k : ℕ) (act : Pipeline.Action A) : Prop := act = .pass k ∨ act = .call k

/-- A thread that comes to `d`, with the history of the queue as it was. -/
def Comes (e : Setting A π) (k : ℕ) (s : Pipeline A π) (d : Dispatcher A π) : Prop :=
  ∃ s', Reach (Pipeline.next e) (OfThread k) s s' ∧ (s'.shard k).dispatcher = d ∧
    (s'.shard k).entered = (s.shard k).entered ∧ (s'.shard k).drained = (s.shard k).drained

variable {k : ℕ} {s s' : Pipeline A π} {d : Dispatcher A π}

theorem Comes.step {act : Pipeline.Action A} (hact : OfThread k act)
    (hstep : s.next e act = some s') (hentered : (s'.shard k).entered = (s.shard k).entered)
    (hdrained : (s'.shard k).drained = (s.shard k).drained) (h : Comes e k s' d) :
    Comes e k s d := by
  obtain ⟨t, hreach, hd, hent, hdr⟩ := h
  exact ⟨t, (Reach.step Reach.start hact hstep).trans hreach, hd, hent.trans hentered,
    hdr.trans hdrained⟩

theorem comes_of_pass {sh : Shard A π} (hstep : (s.shard k).pass e = some sh)
    (hentered : sh.entered = (s.shard k).entered) (hdrained : sh.drained = (s.shard k).drained)
    (h : Comes e k (s.setShard k sh) d) : Comes e k s d := by
  have hhere : (s.setShard k sh).shard k = sh := Function.update_self ..
  have hact : OfThread k (Pipeline.Action.pass (A := A) k) := Or.inl rfl
  refine Comes.step hact ?_ ?_ ?_ h
  · simp only [Pipeline.next, hstep, Option.map_some]
  · rw [hhere, hentered]
  · rw [hhere, hdrained]

theorem Comes.trans {d' : Dispatcher A π} (h : Comes e k s d)
    (hnext : ∀ t : Pipeline A π, (t.shard k).dispatcher = d → Comes e k t d') :
    Comes e k s d' := by
  obtain ⟨t, hreach, hdt, hent, hdr⟩ := h
  obtain ⟨u, hreach', hdu, hent', hdr'⟩ := hnext t hdt
  exact ⟨u, hreach.trans hreach', hdu, hent'.trans hent, hdr'.trans hdr⟩

/-- The current job makes all its calls. -/
theorem comes_of_job (todo : List (JobCall π)) (hne : todo ≠ []) {jobs : List A} {last : Bool}
    (hd : (s.shard k).dispatcher = .processing (some (a, todo)) jobs last) :
    Comes e k s (.processing none jobs last) := by
  induction todo generalizing s with
  | nil => exact absurd rfl hne
  | cons c rest ih =>
    have hact : OfThread k (Pipeline.Action.call (A := A) k) := Or.inr rfl
    obtain ⟨s', hstep, hhere⟩ : ∃ s', s.next e (.call k) = some s' ∧
        s'.shard k = (s.shard k).call a c rest jobs last := by
      simp only [Pipeline.next, Pipeline.nextCall, hd]
      cases c <;> exact ⟨_, rfl, Function.update_self ..⟩
    refine Comes.step hact hstep (by rw [hhere]; rfl) (by rw [hhere]; rfl) ?_
    cases rest with
    | nil => exact ⟨s', Reach.start, by rw [hhere]; rfl, rfl, rfl⟩
    | cons c' rest =>
      refine ih (List.cons_ne_nil _ _) ?_
      rw [hhere]
      rfl

/-- The jobs of the drain are run, and the thread exits. -/
theorem comes_of_jobs (jobs : List A)
    (hd : (s.shard k).dispatcher = .processing none jobs true) : Comes e k s .exited := by
  induction jobs generalizing s with
  | nil =>
    have hpass : (s.shard k).pass e = some { s.shard k with dispatcher := .acking } := by
      simp [Shard.pass, hd]
    refine comes_of_pass hpass rfl rfl ?_
    have hack : ((s.setShard k { s.shard k with dispatcher := .acking }).shard k).pass e =
        some { s.shard k with dispatcher := .exited } := by
      simp [Pipeline.setShard, Shard.pass]
    refine comes_of_pass hack ?_ ?_ ⟨_, Reach.start, ?_, rfl, rfl⟩
    all_goals simp [Pipeline.setShard]
  | cons a rest ih =>
    have hpass : (s.shard k).pass e =
        some { s.shard k with dispatcher := .processing (some (a, e.calls a)) rest true } := by
      simp [Shard.pass, hd]
    refine comes_of_pass hpass rfl rfl ?_
    have hjob : Comes e k (s.setShard k { s.shard k with
        dispatcher := .processing (some (a, e.calls a)) rest true }) (.processing none rest true) :=
      comes_of_job (a := a) (e.calls a) (processJob_ne_nil _ _ _) (by simp [Pipeline.setShard])
    exact hjob.trans fun t ht => ih ht

/-- Once the drain has ended, nothing can keep the thread from finishing what it took. -/
theorem Flow.comes_exited (h : Flow e (s.shard k))
    (hfinal : (s.shard k).dispatcher.final = true) : Comes e k s .exited := by
  have hlogged := h.logged
  unfold Logged at hlogged
  cases hd : (s.shard k).dispatcher with
  | processing current jobs last =>
    rw [hd] at hfinal hlogged
    obtain rfl : last = true := hfinal
    cases current with
    | none => exact comes_of_jobs jobs hd
    | some cur =>
      obtain ⟨a, todo⟩ := cur
      obtain ⟨hne, -⟩ := hlogged
      exact (comes_of_job todo hne hd).trans fun t ht => comes_of_jobs jobs ht
  | acking =>
    have hpass : (s.shard k).pass e = some { s.shard k with dispatcher := .exited } := by
      simp [Shard.pass, hd]
    refine comes_of_pass hpass rfl rfl ⟨_, Reach.start, ?_, rfl, rfl⟩
    simp [Pipeline.setShard]
  | exited => exact ⟨s, Reach.start, hd, rfl, rfl⟩
  | _ =>
    rw [hd] at hfinal
    cases hfinal

/-! ### The contract -/

/-- What holds at every moment. -/
structure LaneContract (e : Setting A π) (s : Pipeline A π) : Prop where
  /-- a shard runs the jobs one at a time as they entered, the calls of each in a row -/
  order : ∀ k, ∃ n part, (s.shard k).log = ((s.shard k).entered.take n).flatMap e.jobLog ++ part ∧
    (part = [] ∨ ∃ a, (s.shard k).entered[n]? = some a ∧ part <+: e.jobLog a)
  /-- a job enters one queue, once, and makes each of its calls once at most -/
  once : ∀ k, (s.shard k).entered.Nodup ∧ (∀ a ∈ (s.shard k).entered, e.shardOf a = k) ∧
    ∀ a, ofJob (s.shard k).log a <+: e.jobLog a ∧ (e.shardOf a ≠ k → ofJob (s.shard k).log a = [])
  /-- a call returns the answer to its job, or `ShutdownInProgress` for a job that did nothing -/
  returned : ∀ a r, s.stage a = .returned r →
    (r = e.result a ∧ ofJob (s.shard (e.shardOf a)).log a = e.jobLog a) ∨
    (r = .error shutdownErr ∧ ∀ k, ofJob (s.shard k).log a = [])
  shutdown : ∀ a err, s.stage a = .returned (.error err) → err.source = .shutdownInProgress →
    ∀ k, ofJob (s.shard k).log a = []
  /-- what entered before the drain ended has been run when the thread exits, and left to
  itself it does exit -/
  drained : ∀ k n, (s.shard k).drained = some n →
    ((s.shard k).dispatcher = .exited → ∀ a ∈ (s.shard k).entered.take n,
      ofJob (s.shard k).log a = e.jobLog a) ∧
    ∃ s', Reach (Pipeline.next e) (OfThread k) s s' ∧ (s'.shard k).dispatcher = .exited ∧
      ∀ a ∈ (s.shard k).entered.take n, ofJob (s'.shard k).log a = e.jobLog a

theorem JobInv.drained_done (h : JobInv e s) {n : ℕ} (hn : (s.shard k).drained = some n)
    (hexit : (s.shard k).dispatcher = .exited) :
    ∀ a ∈ (s.shard k).entered.take n, ofJob (s.shard k).log a = e.jobLog a := by
  intro a ha
  obtain ⟨-, -, htake⟩ := (h.flow k).drained n hn
  have hhand : (s.shard k).dispatcher.inHand = [] := by
    rw [hexit]
    rfl
  rw [htake, hhand, List.append_nil] at ha
  exact (h.flow k).ofJob_finished (h.nodup k) ha

theorem JobInv.ofJob_elsewhere (h : JobInv e s) (hk : e.shardOf a ≠ k) :
    ofJob (s.shard k).log a = [] := by
  refine (h.flow k).ofJob_none (h.nodup k) (Or.inl ?_)
  intro hmem
  exact hk (h.entered k a hmem).1

theorem JobInv.settled_calls (h : JobInv e s) {r : Except BatchError Unit}
    (hset : Settled e s a r) :
    (r = e.result a ∧ ofJob (s.shard (e.shardOf a)).log a = e.jobLog a) ∨
      (r = .error shutdownErr ∧ ∀ k, ofJob (s.shard k).log a = []) := by
  rcases hset with ⟨hfin, heq⟩ | ⟨heq, hnone⟩
  · exact Or.inl ⟨heq, (h.flow _).ofJob_finished (h.nodup _) hfin⟩
  · refine Or.inr ⟨heq, ?_⟩
    intro k
    by_cases hk : e.shardOf a = k
    · subst hk
      exact (h.flow _).ofJob_none (h.nodup _) hnone
    · exact h.ofJob_elsewhere hk

/-- The group lane in every run: any callers, sync or async, any bounds, outcomes, spawn
failures and cancellations, and a shutdown at any moment. -/
theorem group_lane_contract (A π : Type) [DecidableEq A] [LinearOrder π] (e : Setting A π)
    (s : Pipeline A π) (h : Reach (Pipeline.next e) (fun _ => True) Pipeline.new s) :
    LaneContract e s ∧ ∀ a, JobContract e a := by
  have hstep : ∀ (t : Pipeline A π) act t', PipeInv e t → True →
      Pipeline.next e t act = some t' → PipeInv e t' := fun t act t' ht _ hn => ht.next act hn
  have hinv : PipeInv e s := h.invariant pipeInv_new hstep
  have hjobs := hinv.jobs
  refine ⟨⟨fun k => (hjobs.flow k).log_order, ?_, ?_, ?_, ?_⟩, jobContract e⟩
  · intro k
    exact ⟨hjobs.nodup k, fun a ha => (hjobs.entered k a ha).1, fun a =>
      ⟨(hjobs.flow k).ofJob_first (hjobs.nodup k) a, hjobs.ofJob_elsewhere⟩⟩
  · intro a r hr
    exact hjobs.settled_calls (hjobs.returned a r hr)
  · intro a err hr hsource
    rcases hjobs.settled_calls (hjobs.returned a _ hr) with ⟨heq, -⟩ | ⟨-, hnone⟩
    · exact absurd hsource (jobResult_source _ _ _ err heq.symm)
    · exact hnone
  · intro k n hn
    refine ⟨hjobs.drained_done hn, ?_⟩
    have hfinal := ((hjobs.flow k).drained n hn).1
    obtain ⟨s', hreach, hexit, hent, hdr⟩ := (hjobs.flow k).comes_exited hfinal
    have hinv' : PipeInv e s' := (hreach.mono fun _ _ => trivial).invariant hinv hstep
    refine ⟨s', hreach, hexit, ?_⟩
    rw [← hent]
    exact hinv'.jobs.drained_done (hdr.trans hn) hexit

/-- Two calls: a grouped batch whose third op panics, and an async one behind it. -/
def twoCalls : Setting ℕ ℕ where
  config := ⟨2, 1, 1⟩
  parent := fun path => some (path / 10)
  hash := fun _ => 0
  job := fun a =>
    if a = 0 then ⟨[.write 11 [1], .write 12 [2], .delete 25], true⟩ else ⟨[.delete 31], false⟩
  isAsync := fun a => a ≠ 0
  executor := fun a i => if a = 0 ∧ i = 2 then .panicked else .ok

/-- The first spawn fails, the second call finds the queue full, and its job is drained. -/
def drainedRun : List (Pipeline.Action ℕ) :=
  [.start 0 false, .start 0 false, .start 0 false, .start 0 false, .start 0 false,
    .ensure 0 true, .ensure 0 true, .ensure 0 true, .ensure 0 true, .ensure 0 true, .send 0,
    .start 1 false, .start 1 false, .ensure 1 false, .send 1, .take 0, .send 1,
    .pass 0, .pass 0, .call 0, .call 0, .call 0, .call 0, .call 0, .drop, .drop,
    .pass 0, .shutdown 0, .take 0, .pass 0, .pass 0, .call 0, .call 0, .pass 0, .pass 0,
    .await 0, .await 1]

theorem drainedRun_ends : (run (Pipeline.next twoCalls) drainedRun Pipeline.new).map
    (fun s => ((s.shard 0).entered, (s.shard 0).drained, (s.shard 0).log.length)) =
      some ([0, 1], some 2, 7) := by
  decide +kernel

theorem group_lane_contract_drained :
    ∃ s, Reach (Pipeline.next twoCalls) (fun _ => True) Pipeline.new s ∧
      (s.shard 0).entered = [0, 1] ∧ (s.shard 0).drained = some 2 ∧ (s.shard 0).log.length = 7 ∧
      LaneContract twoCalls s ∧ ∀ a, JobContract twoCalls a := by
  obtain ⟨s, hs, hends⟩ := Option.map_eq_some_iff.mp drainedRun_ends
  have hr : Reach (Pipeline.next twoCalls) (fun _ => True) Pipeline.new s :=
    reach_of_run drainedRun hs fun _ _ => trivial
  simp only [Prod.mk.injEq] at hends
  exact ⟨s, hr, hends.1, hends.2.1, hends.2.2, group_lane_contract ℕ ℕ twoCalls s hr⟩

end Fsys.Lane
