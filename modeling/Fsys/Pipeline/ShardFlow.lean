import Fsys.Pipeline.Dispatch

/-!
# Jobs on their way through a shard

The jobs that entered the queue are, in this order, those that are finished, those the
thread has taken, those still queued and those dropped with the channel. The log has the
calls of the finished jobs one after another and then what the current job did so far.
Once the drain has ended, what entered before is finished or taken.
-/

namespace Fsys.Lane
open Fsys.Base Fsys.Platform

variable {A π : Type} {e : Setting A π} {sh sh' : Shard A π}

/-! ### What a step of the thread leaves alone -/

/-- A step of a thread leaves the rest of its shard alone. -/
structure OwnStep (sh sh' : Shard A π) : Prop where
  lock : sh'.lock = sh.lock
  running : sh'.running = sh.running
  closed : sh'.closed = sh.closed
  entered : sh'.entered = sh.entered
  spawned : sh.dispatcher ≠ .unspawned
  spawned' : sh'.dispatcher ≠ .unspawned

theorem take_own (h : sh.take e = some sh') :
    OwnStep sh sh' ∧ sh'.finished = sh.finished ∧ sh'.lost = sh.lost ∧
      sh.dispatcher.receiving = true := by
  unfold Shard.take at h
  split at h
  · cases h
  · cases hd : sh.dispatcher with
    | waiting =>
      simp only [hd] at h
      cases h
      exact ⟨⟨rfl, rfl, rfl, rfl, by simp [hd], by simp⟩, rfl, rfl, rfl⟩
    | scooping acc total =>
      simp only [hd] at h
      split at h
      · cases h
        exact ⟨⟨rfl, rfl, rfl, rfl, by simp [hd], by simp⟩, rfl, rfl, rfl⟩
      · cases h
    | draining all =>
      simp only [hd] at h
      cases h
      exact ⟨⟨rfl, rfl, rfl, rfl, by simp [hd], by simp⟩, rfl, rfl, rfl⟩
    | _ =>
      simp only [hd] at h
      cases h

theorem shutdown_own (h : sh.shutdown = some sh') :
    OwnStep sh sh' ∧ sh'.finished = sh.finished ∧ sh'.lost = sh.lost := by
  unfold Shard.shutdown at h
  split at h
  · rename_i hd
    split at h
    · cases h
      exact ⟨⟨rfl, rfl, rfl, rfl, by simp [hd], by simp⟩, rfl, rfl⟩
    · cases h
  · cases h

/-- The job the thread is at, with the calls it has still to make. -/
def Dispatcher.current : Dispatcher A π → Option (A × List (JobCall π))
  | .processing current _ _ => current
  | _ => none

theorem disconnected_of_receiving (h : sh.dispatcher.receiving = true) :
    sh.disconnected = false := by
  simp [Shard.disconnected, h]

variable [LinearOrder π]

theorem pass_own (h : sh.pass e = some sh') :
    OwnStep sh sh' ∧ sh'.finished = sh.finished ∧ sh'.lost = sh.lost := by
  cases hd : sh.dispatcher with
  | waiting =>
    simp only [Shard.pass, hd] at h
    split at h
    · cases h
      exact ⟨⟨rfl, rfl, rfl, rfl, by simp [hd], by simp⟩, rfl, rfl⟩
    · cases h
  | scooping acc total =>
    simp only [Shard.pass, hd] at h
    split at h
    · cases h
    · cases h
      exact ⟨⟨rfl, rfl, rfl, rfl, by simp [hd], by simp⟩, rfl, rfl⟩
  | draining all =>
    simp only [Shard.pass, hd] at h
    split at h
    · cases h
      refine ⟨⟨rfl, rfl, rfl, rfl, by simp [hd], ?_⟩, rfl, rfl⟩
      cases all <;> simp
    · cases h
  | processing current jobs last =>
    cases current with
    | some cur => simp [Shard.pass, hd] at h
    | none =>
      cases jobs with
      | nil =>
        simp only [Shard.pass, hd] at h
        cases h
        refine ⟨⟨rfl, rfl, rfl, rfl, by simp [hd], ?_⟩, rfl, rfl⟩
        cases last <;> simp
      | cons a jobs =>
        simp only [Shard.pass, hd] at h
        cases h
        exact ⟨⟨rfl, rfl, rfl, rfl, by simp [hd], by simp⟩, rfl, rfl⟩
  | acking =>
    simp only [Shard.pass, hd] at h
    cases h
    exact ⟨⟨rfl, rfl, rfl, rfl, by simp [hd], by simp⟩, rfl, rfl⟩
  | unspawned => simp [Shard.pass, hd] at h
  | exited => simp [Shard.pass, hd] at h

/-! ### The invariant of a shard -/

/-- The finished jobs, then the calls the current one has made. -/
def Logged (e : Setting A π) (sh : Shard A π) : Prop :=
  match sh.dispatcher.current with
  | none => sh.log = sh.finished.flatMap e.jobLog
  | some (a, todo) => todo ≠ [] ∧ ∃ made, e.calls a = made ++ todo ∧
      sh.log = sh.finished.flatMap e.jobLog ++ made.map fun c => (a, c)

structure Flow (e : Setting A π) (sh : Shard A π) : Prop where
  order : sh.entered = sh.finished ++ (sh.dispatcher.inHand ++ (sh.queue ++ sh.lost))
  logged : Logged e sh
  lost : sh.lost ≠ [] → sh.disconnected = true ∧ sh.queue = []
  drained : ∀ n, sh.drained = some n → sh.dispatcher.final = true ∧ n ≤ sh.entered.length ∧
    sh.entered.take n = sh.finished ++ sh.dispatcher.inHand

theorem flow_new : Flow e Shard.new where
  order := rfl
  logged := rfl
  lost h := absurd rfl h
  drained n h := by cases h

/-- Nothing is lost while there is a receiver. -/
theorem Flow.lost_nil (h : Flow e sh) (hconn : sh.disconnected = false) : sh.lost = [] := by
  by_contra hne
  rw [(h.lost hne).1] at hconn
  cases hconn

theorem Flow.not_drained (h : Flow e sh) (hfinal : sh.dispatcher.final = false) :
    sh.drained = none := by
  cases hd : sh.drained with
  | none => rfl
  | some n =>
    have htrue := (h.drained n hd).1
    rw [hfinal] at htrue
    cases htrue

/-! ### Steps of callers and of `drop` -/

theorem Flow.lockAndRun (h : Flow e sh) (lock : Option A) (running : Bool) :
    Flow e { sh with lock := lock, running := running } :=
  ⟨h.order, h.logged, h.lost, h.drained⟩

theorem Flow.signal (h : Flow e sh) : Flow e { sh with signalled := true } :=
  ⟨h.order, h.logged, h.lost, h.drained⟩

theorem Flow.close (h : Flow e sh) : Flow e { sh with closed := true } where
  order := h.order
  logged := h.logged
  drained := h.drained
  lost hne := by
    obtain ⟨hdis, hnil⟩ := h.lost hne
    simp only [Shard.disconnected, Bool.and_eq_true] at hdis ⊢
    exact ⟨⟨trivial, hdis.2⟩, hnil⟩

theorem Flow.spawn (h : Flow e sh) (hnew : sh.dispatcher = .unspawned)
    (hopen : sh.closed = false) (running : Bool) :
    Flow e { sh with dispatcher := .waiting, running := running } where
  order := by
    have horder := h.order
    rw [hnew] at horder
    exact horder
  logged := by
    have hlogged := h.logged
    unfold Logged at hlogged
    rw [hnew] at hlogged
    exact hlogged
  lost hne := by
    have hdis := (h.lost hne).1
    simp [Shard.disconnected, hopen] at hdis
  drained n hn := by
    have hnone := h.not_drained (by rw [hnew]; rfl)
    exact absurd (hnone.symm.trans hn) (by simp)

/-- A job enters the queue. -/
theorem Flow.push (h : Flow e sh) (hconn : sh.disconnected = false) (a : A) :
    Flow e { sh with queue := sh.queue ++ [a], entered := sh.entered ++ [a] } where
  order := by
    have hnil := h.lost_nil hconn
    have horder := h.order
    rw [hnil, List.append_nil] at horder
    simp only [hnil, horder, List.append_nil, List.append_assoc]
  logged := h.logged
  lost hne := absurd (h.lost_nil hconn) hne
  drained n hn := by
    obtain ⟨hfinal, hle, htake⟩ := h.drained n hn
    refine ⟨hfinal, ?_, ?_⟩
    · simp only [List.length_append]
      omega
    · simp only
      rw [List.take_append_of_le_length hle]
      exact htake

/-- The channel is dropped with what is in it. -/
theorem Flow.discard (h : Flow e sh) (hdis : sh.disconnected = true) : Flow e sh.discard where
  order := by
    have horder := h.order
    by_cases hnil : sh.lost = []
    · simp only [Shard.discard, hnil, List.append_nil, List.nil_append] at horder ⊢
      exact horder
    · simp only [Shard.discard, (h.lost hnil).2, List.append_nil, List.nil_append] at horder ⊢
      exact horder
  logged := h.logged
  lost _ := ⟨hdis, rfl⟩
  drained := h.drained

/-! ### Steps of the thread -/

/-- The thread moves jobs from the queue to its hands, or turns to its next job. -/
theorem Flow.move (h : Flow e sh) (hconn : sh.disconnected = false) {queue : List A}
    {d : Dispatcher A π} {drained : Option ℕ}
    (horder : d.inHand ++ queue = sh.dispatcher.inHand ++ sh.queue)
    (hcur : sh.dispatcher.current = none)
    (hnew : d.current = none ∨ ∃ a, d.current = some (a, e.calls a))
    (hdrained : ∀ n, drained = some n → d.final = true ∧ n ≤ sh.entered.length ∧
      sh.entered.take n = sh.finished ++ d.inHand) :
    Flow e { sh with queue := queue, dispatcher := d, drained := drained } where
  order := by
    have hold := h.order
    rw [← List.append_assoc sh.dispatcher.inHand, ← horder, List.append_assoc] at hold
    exact hold
  logged := by
    have hlog := h.logged
    unfold Logged at hlog ⊢
    rw [hcur] at hlog
    dsimp only at hlog ⊢
    rcases hnew with hnone | ⟨a, hsome⟩
    · rw [hnone]
      exact hlog
    · rw [hsome]
      refine ⟨processJob_ne_nil _ _ _, [], rfl, ?_⟩
      rw [List.map_nil, List.append_nil]
      exact hlog
  lost hne := absurd (h.lost_nil hconn) hne
  drained := hdrained

theorem Flow.take (h : Flow e sh) (hstep : sh.take e = some sh') : Flow e sh' := by
  have hmove : ∀ {a : A} {rest : List A} {d : Dispatcher A π}, sh.queue = a :: rest →
      sh.dispatcher.receiving = true → sh.dispatcher.final = false →
      sh.dispatcher.current = none → d.current = none →
      d.inHand = sh.dispatcher.inHand ++ [a] →
      Flow e { sh with queue := rest, dispatcher := d } := by
    intro a rest d hq hrecv hfinal hcur hnew hhand
    refine h.move (disconnected_of_receiving hrecv) ?_ hcur (Or.inl hnew) ?_
    · rw [hhand, hq, List.append_assoc, List.singleton_append]
    · intro n hn
      rw [h.not_drained hfinal] at hn
      cases hn
  unfold Shard.take at hstep
  split at hstep
  · cases hstep
  · rename_i a rest hq
    cases hd : sh.dispatcher with
    | waiting =>
      rw [hd] at hstep hmove
      cases hstep
      exact hmove hq rfl rfl rfl rfl rfl
    | scooping acc total =>
      rw [hd] at hstep hmove
      dsimp only at hstep
      split at hstep
      · cases hstep
        exact hmove hq rfl rfl rfl rfl rfl
      · cases hstep
    | draining all =>
      rw [hd] at hstep hmove
      cases hstep
      exact hmove hq rfl rfl rfl rfl rfl
    | _ =>
      rw [hd] at hstep
      cases hstep

theorem Flow.shutdown (h : Flow e sh) (hstep : sh.shutdown = some sh') : Flow e sh' := by
  unfold Shard.shutdown at hstep
  split at hstep
  · rename_i hd
    split at hstep
    · cases hstep
      refine h.move (disconnected_of_receiving (by rw [hd]; rfl)) ?_ (by rw [hd]; rfl)
        (Or.inl rfl) ?_
      · rw [hd]
        rfl
      · intro n hn
        rw [h.not_drained (by rw [hd]; rfl)] at hn
        cases hn
    · cases hstep
  · cases hstep

/-- What had entered when the queue was empty is what is finished or taken. -/
theorem Flow.entered_of_empty (h : Flow e sh) (hconn : sh.disconnected = false)
    (hq : sh.queue = []) : sh.entered = sh.finished ++ sh.dispatcher.inHand := by
  have horder := h.order
  rwa [h.lost_nil hconn, hq, List.append_nil, List.append_nil] at horder

theorem Flow.pass (h : Flow e sh) (hstep : sh.pass e = some sh') : Flow e sh' := by
  -- nothing is taken, and a thread that takes no more jobs stays so
  have hmove : ∀ {d : Dispatcher A π}, sh.dispatcher.receiving = true →
      sh.dispatcher.current = none → (d.current = none ∨ ∃ a, d.current = some (a, e.calls a)) →
      d.inHand = sh.dispatcher.inHand → (sh.dispatcher.final = true → d.final = true) →
      Flow e { sh with dispatcher := d } := by
    intro d hrecv hcur hnew hhand hfinal
    refine h.move (disconnected_of_receiving hrecv) (by rw [hhand]) hcur hnew ?_
    intro n hn
    obtain ⟨hf, hle, htake⟩ := h.drained n hn
    exact ⟨hfinal hf, hle, by rw [hhand, htake]⟩
  cases hd : sh.dispatcher with
  | waiting =>
    simp only [Shard.pass, hd] at hstep
    rw [hd] at hmove
    split at hstep
    · cases hstep
      exact hmove rfl rfl (Or.inl rfl) rfl nofun
    · cases hstep
  | scooping acc total =>
    simp only [Shard.pass, hd] at hstep
    rw [hd] at hmove
    split at hstep
    · cases hstep
    · cases hstep
      exact hmove rfl rfl (Or.inl rfl) rfl nofun
  | draining all =>
    simp only [Shard.pass, hd] at hstep
    split at hstep
    · rename_i hempty
      cases hstep
      have hconn : sh.disconnected = false := disconnected_of_receiving (by rw [hd]; rfl)
      have hall := h.entered_of_empty hconn (by simpa using hempty)
      rw [hd] at hall
      cases all with
      | nil =>
        refine h.move hconn (by rw [hd]; rfl) (by rw [hd]; rfl) (Or.inl rfl) ?_
        intro n hn
        cases hn
        exact ⟨rfl, Nat.le_refl _, by rw [List.take_length]; exact hall⟩
      | cons a rest =>
        refine h.move hconn (by rw [hd]; rfl) (by rw [hd]; rfl) (Or.inl rfl) ?_
        intro n hn
        cases hn
        exact ⟨rfl, Nat.le_refl _, by rw [List.take_length]; exact hall⟩
    · cases hstep
  | processing current jobs last =>
    rw [hd] at hmove
    cases current with
    | some cur => simp [Shard.pass, hd] at hstep
    | none =>
      cases jobs with
      | nil =>
        simp only [Shard.pass, hd] at hstep
        cases hstep
        cases last with
        | true => exact hmove rfl rfl (Or.inl rfl) rfl fun _ => rfl
        | false => exact hmove rfl rfl (Or.inl rfl) rfl nofun
      | cons a jobs =>
        simp only [Shard.pass, hd] at hstep
        cases hstep
        exact hmove rfl rfl (Or.inr ⟨a, rfl⟩) rfl id
  | acking =>
    simp only [Shard.pass, hd] at hstep
    rw [hd] at hmove
    cases hstep
    exact hmove rfl rfl (Or.inl rfl) rfl fun _ => rfl
  | unspawned => simp [Shard.pass, hd] at hstep
  | exited => simp [Shard.pass, hd] at hstep

/-- The current job makes a call. -/
theorem Flow.call (h : Flow e sh) {a : A} {c : JobCall π} {rest : List (JobCall π)}
    {jobs : List A} {last : Bool} (hd : sh.dispatcher = .processing (some (a, c :: rest)) jobs last) :
    Flow e (sh.call a c rest jobs last) := by
  have horder := h.order
  have hlogged := h.logged
  have hdrained := h.drained
  have hnil := h.lost_nil (disconnected_of_receiving (by rw [hd]; rfl))
  unfold Logged at hlogged
  rw [hd] at horder hlogged hdrained
  obtain ⟨-, made, hcalls, hlog⟩ := hlogged
  cases rest with
  | nil =>
    refine ⟨?_, ?_, fun hne => absurd hnil hne, ?_⟩
    · simp only [Shard.call, List.isEmpty_nil, if_true]
      simpa [Dispatcher.inHand] using horder
    · unfold Logged
      simp only [Shard.call, List.isEmpty_nil, if_true, Dispatcher.current]
      simp [hlog, Setting.jobLog, hcalls]
    · intro n hn
      obtain ⟨hfinal, hle, htake⟩ := hdrained n hn
      refine ⟨hfinal, hle, ?_⟩
      simpa [Shard.call, Dispatcher.inHand] using htake
  | cons c' rest =>
    refine ⟨?_, ?_, fun hne => absurd hnil hne, ?_⟩
    · simpa [Shard.call, Dispatcher.inHand] using horder
    · unfold Logged
      simp only [Shard.call, List.isEmpty_cons, Bool.false_eq_true, if_false, Dispatcher.current]
      refine ⟨List.cons_ne_nil _ _, made ++ [c], ?_, ?_⟩
      · simpa using hcalls
      · simp [hlog]
    · intro n hn
      obtain ⟨hfinal, hle, htake⟩ := hdrained n hn
      refine ⟨hfinal, hle, ?_⟩
      simpa [Shard.call, Dispatcher.inHand] using htake

end Fsys.Lane
