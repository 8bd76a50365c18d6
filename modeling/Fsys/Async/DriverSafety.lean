import Fsys.Async.DriverInv

/-!
# Every op ends once (src/async_io/completion_driver.rs:339-591)

What the driver owes an op, in every state that callers, owner and kernel can reach.
-/

namespace Fsys.Async
open Fsys.Base

variable {cfg : Config} {s : Driver} {key : ℕ} {req : Op}

/-- What the driver owes an op. -/
structure Contract (s : Driver) (key : ℕ) (req : Op) : Prop where
  /-- An op that was never started is at most dropped. -/
  notStarted : key ∉ s.started → s.history key = [] ∨ s.history key = req.drop
  /-- While the op is pending, its hook hears nothing. -/
  running : ∀ p ∈ s.pending, p.2.key = key → hookCalls (s.history key) = []
  /-- An op that was started and is not pending called its hook once. -/
  ended : key ∈ s.started → (∀ p ∈ s.pending, p.2.key ≠ key) → req.file.owner = .hooked →
    (hookCalls (s.history key)).length = 1
  /-- The hook hears the result before the reply goes out and the keep-alive is dropped. -/
  order : ∀ r before after, s.history key = before ++ .finished r :: after →
    Untouched before ∧ .dropFile ∈ after ∧ .reply r ∈ after
  /-- What is abandoned is leaked. -/
  leaked : .abandoned ∈ s.history key →
    .dropFile ∉ s.history key ∧ .dropBuf ∉ s.history key ∧ ∀ r, .reply r ∉ s.history key
  transfer : Transferred req (s.history key)

theorem Inv.contract (h : Inv cfg none s) (hop : s.ops[key]? = some req) : Contract s key req := by
  have hrunning : ∀ p ∈ s.pending, p.2.key = key → hookCalls (s.history key) = [] := by
    intro p hp hkey
    obtain ⟨req', n, io, e, -, -, hr, -, -, hh⟩ := h.of_pending (f := p.2) hp
    rw [hkey] at hh
    rw [hh]
    exact (ringOnly_chunk hr.ringOnly).hookCalls
  cases h.fates key req (by simp) hop with
  | queued hs hq hh =>
    refine ⟨fun _ => .inl hh, hrunning, fun hs' => absurd hs' hs, ?_, ?_, ?_⟩
    all_goals rw [hh]
    · exact fun r before after heq => absurd heq (no_finished (by simp))
    · simp
    · exact transferred_of_endOnly (by simp [EndOnly]) (by simp)
  | dropped hs hh =>
    refine ⟨fun _ => .inr hh, hrunning, fun hs' => absurd hs' hs, ?_, ?_, ?_⟩
    all_goals rw [hh]
    · exact fun r before after heq => absurd heq (no_finished (drop_no_hook req))
    · exact fun hmem => absurd (drop_no_hook req _ hmem) (by simp [Event.isHook])
    · refine transferred_of_endOnly (drop_endOnly req) ?_
      intro r hmem
      cases req <;> simp [Op.drop] at hmem
  | @pending id n io e hs hp hr hd he hh =>
    have hring := ringOnly_chunk (e := e) hr.ringOnly
    refine ⟨fun hs' => absurd hs hs', hrunning, ?_, ?_, ?_, ?_⟩
    · exact fun _ hnot => absurd (inFlight_key key req) (hnot _ hp)
    all_goals rw [hh]
    · exact fun r before after heq => absurd heq (no_finished fun ev hev => hring.no_hook hev)
    · exact fun hmem => absurd (hring.no_hook hmem) (by simp [Event.isHook])
    · exact hr.transferred hd he (by simp [EndOnly]) (by simp)
  | @finished id io r hs hp ho hh =>
    refine ⟨fun hs' => absurd hs hs', hrunning, ?_, ?_, ?_, ?_⟩
    all_goals rw [hh]
    · intro _ _ howner
      rw [hookCalls_append, ho.ringOnly.hookCalls,
        finish_hookCalls r ((congrArg FileRef.owner (inFlight_file key req)).trans howner)]
      rfl
    · exact fun r' before after heq => finish_order ho.ringOnly heq
    · intro hmem
      rcases List.mem_append.mp hmem with hmem | hmem
      · exact absurd (ho.ringOnly.no_hook hmem) (by simp [Event.isHook])
      · rcases mem_finish hmem with heq | heq | heq | heq
        all_goals cases heq
    · exact ho.transferred
  | @abandoned id n io e hs hp hr hd he hh =>
    have hring := ringOnly_chunk (e := e) hr.ringOnly
    have hword : s.history key = (io ++ [.pushed e]) ++ (Driver.inFlight key req).abandon := by
      rw [hh, List.append_assoc]
      rfl
    have hnot : ∀ ev ∈ s.history key, ev ≠ .dropFile ∧ ev ≠ .dropBuf ∧ (∀ r, ev ≠ .reply r) ∧
        ∀ r, ev ≠ .finished r := by
      intro ev hev
      rw [hword] at hev
      rcases List.mem_append.mp hev with hev | hev
      · rcases hring ev hev with ⟨e', rfl⟩ | ⟨res, rfl⟩
        all_goals simp
      · rcases mem_abandon hev with rfl | rfl | rfl | rfl
        all_goals simp
    refine ⟨fun hs' => absurd hs hs', hrunning, ?_, ?_, ?_, ?_⟩
    · intro _ _ howner
      rw [hword, hookCalls_append, hring.hookCalls,
        abandon_hookCalls ((congrArg FileRef.owner (inFlight_file key req)).trans howner)]
      rfl
    · intro r before after heq
      have hin : .finished r ∈ s.history key := heq ▸ List.mem_append_right _ List.mem_cons_self
      exact absurd rfl ((hnot _ hin).2.2.2 r)
    · intro _
      exact ⟨fun hm => (hnot _ hm).1 rfl, fun hm => (hnot _ hm).2.1 rfl,
        fun r hm => (hnot _ hm).2.2.1 r rfl⟩
    · rw [hh]
      refine hr.transferred hd he (abandon_endOnly _) ?_
      intro r hmem
      rcases mem_abandon hmem with heq | heq | heq | heq
      all_goals cases heq

/-- Every run of callers, owner and kernel: the table never outgrows the completion queue;
ids are reissued to no pending op before `2 ^ 64` ops were started; and as long as that
did not happen every op has its contract, with nothing left pending when the owner is gone. -/
theorem completion_driver_contract (cfg : Config) (s : Driver)
    (h : Reach (Driver.next cfg) (fun _ => True) Driver.start s) :
    s.pending.length ≤ cfg.maxInFlight ∧
      (s.started.length < 2 ^ 64 → s.reissued = false) ∧
      (s.reissued = false → (s.stopped = true → s.pending = []) ∧
        ∀ key req, s.ops[key]? = some req → Contract s key req) := by
  obtain ⟨hinv, hcount⟩ := reach_sound h
  refine ⟨?_, fun hlt => (hcount hlt).1, fun hid => ⟨fun hstop => ?_, ?_⟩⟩
  · exact h.invariant (Nat.zero_le _) fun t a t' ht _ hn => (next_moves hn).room ht
  · exact ((hinv hid).halted hstop).2.1
  · exact fun key req hop => (hinv hid).contract hop

def smallRing : Config := ⟨8, 16⟩

def threeBytes : Op := .write ⟨3, .hooked⟩ ⟨[1, 2, 3], by decide⟩ 10

/-- A write in two rounds, and a sync in flight when the task is torn down. -/
def twoRounds : List Action :=
  [.submit threeBytes, .startNext 0, .submitQueued 1, .complete 0 2, .reap 0, .submitQueued 1,
    .complete 0 1, .reap 0, .submit (.fdatasync ⟨3, .hooked⟩), .startNext 0, .teardown]

theorem twoRounds_isSome : (run (Driver.next smallRing) twoRounds Driver.start).isSome = true := by
  decide +kernel

def afterTwoRounds : Driver :=
  (run (Driver.next smallRing) twoRounds Driver.start).get twoRounds_isSome

theorem afterTwoRounds_facts : afterTwoRounds.reissued = false ∧
    afterTwoRounds.ops[0]? = some threeBytes ∧
    spans (afterTwoRounds.history 0) = [(10, 2), (12, 1)] := by
  decide +kernel

theorem completion_driver_contract_two_rounds :
    Contract afterTwoRounds 0 threeBytes ∧
      spans (afterTwoRounds.history 0) = [(10, 2), (12, 1)] := by
  obtain ⟨hid, hop, hspans⟩ := afterTwoRounds_facts
  have hreach : Reach (Driver.next smallRing) (fun _ => True) Driver.start afterTwoRounds :=
    reach_of_run twoRounds (Option.some_get _).symm fun _ _ => trivial
  exact ⟨((completion_driver_contract smallRing afterTwoRounds hreach).2.2 hid).2 0 threeBytes hop,
    hspans⟩

/-! ### A counter of 64 bits -/

def sync : Op := .fdatasync ⟨3, .hooked⟩

def emptyWrite : Op := .write ⟨3, .plain⟩ ⟨[], by decide⟩ 0

/-- A sync is in flight under id 1 and `n` empty writes were started after it. -/
structure Lapping (n : ℕ) (s : Driver) : Prop where
  queue : s.queue = []
  attached : s.attached = true
  poisoned : s.poisoned = false
  stopped : s.stopped = false
  closing : s.closing = false
  nextId : s.nextId = (n + 1) % 2 ^ 64
  pending : s.pending = [(1, Driver.inFlight 0 sync)]
  sq : s.sq.length = 1
  made : s.ops.length = n + 1
  first : s.ops[0]? = some sync
  started : 0 ∈ s.started
  history : s.history 0 = [.pushed ⟨1, 3, .fsync⟩]

theorem lapping_zero : ∃ s, Reach (Driver.next smallRing) (fun _ => True) Driver.start s ∧
    Lapping 0 s := by
  refine ⟨_, reach_of_run [.submit sync, .startNext 0] rfl fun _ _ => trivial, ?_⟩
  exact ⟨rfl, rfl, rfl, rfl, rfl, rfl, rfl, rfl, rfl, rfl, List.mem_cons_self, rfl⟩

/-- The state behind the channel: one more op, under the next id. -/
def accepted (s : Driver) (req : Op) : Driver :=
  { s with
    ops := s.ops ++ [req]
    queue := []
    nextId := (s.nextId + 1) % 2 ^ 64
    started := s.ops.length :: s.started }

theorem Lapping.accept {n : ℕ} (h : Lapping n s) (req : Op) :
    run (Driver.next smallRing) [.submit req, .startNext 0] s =
      some ((accepted s req).startOp smallRing 0 (accepted s req).nextId s.ops.length req) := by
  have hguard : ¬ (s.stopped = true ∨ s.closing = true ∨
      smallRing.maxInFlight ≤ s.pending.length) := by
    rw [h.stopped, h.closing, h.pending]
    decide
  have hsubmit : s.next smallRing (.submit req) =
      some { s with ops := s.ops ++ [req], queue := [(s.ops.length, req)] } := by
    simp only [Driver.next, h.attached, if_true, Driver.submit, h.poisoned, h.stopped, h.queue,
      Bool.false_eq_true, if_false, List.nil_append, Driver.make]
  have hstart : { s with ops := s.ops ++ [req], queue := [(s.ops.length, req)] }.next smallRing
      (.startNext 0) = some ((accepted s req).startOp smallRing 0 (accepted s req).nextId
        s.ops.length req) := (if_neg hguard).trans rfl
  rw [run, hsubmit, Option.bind_some, run, hstart]
  rfl

theorem Lapping.key_ne {n : ℕ} (h : Lapping n s) : 0 ≠ s.ops.length := by
  rw [h.made]
  exact (Nat.succ_ne_zero n).symm

theorem Lapping.accepted_first {n : ℕ} (h : Lapping n s) (req : Op) :
    (s.ops ++ [req])[0]? = some sync := by
  rw [List.getElem?_append_left (by rw [h.made]; exact Nat.succ_pos n)]
  exact h.first

/-- An empty write takes an id and ends at once. -/
theorem Lapping.lap {n : ℕ} (h : Lapping n s) : ∃ s',
    run (Driver.next smallRing) [.submit emptyWrite, .startNext 0] s = some s' ∧
      Lapping (n + 1) s' := by
  refine ⟨(accepted s emptyWrite).log s.ops.length
      ((Driver.inFlight s.ops.length emptyWrite).finish (.ok 0)), h.accept emptyWrite, ?_⟩
  refine ⟨rfl, h.attached, h.poisoned, h.stopped, h.closing, ?_, h.pending, h.sq, ?_,
    h.accepted_first emptyWrite, List.mem_cons_of_mem _ h.started, ?_⟩
  · show (s.nextId + 1) % 2 ^ 64 = _
    rw [h.nextId, Nat.mod_add_mod]
  · show (s.ops ++ [emptyWrite]).length = _
    rw [List.length_append, h.made, List.length_singleton]
  · rw [log_history_ne _ h.key_ne]
    exact h.history

theorem lapping (n : ℕ) : ∃ s, Reach (Driver.next smallRing) (fun _ => True) Driver.start s ∧
    Lapping n s := by
  induction n with
  | zero => exact lapping_zero
  | succ n ih =>
    obtain ⟨s, hs, hlap⟩ := ih
    obtain ⟨s', hrun, hlap'⟩ := hlap.lap
    exact ⟨s', hs.trans (reach_of_run _ hrun fun _ _ => trivial), hlap'⟩

/-- The next sync gets the id of the first, which leaves the table unheard. -/
theorem Lapping.collide {n : ℕ} (h : Lapping n s) (hn : (s.nextId + 1) % 2 ^ 64 = 1) : ∃ s',
    run (Driver.next smallRing) [.submit sync, .startNext 0] s = some s' ∧
      s'.stopped = false ∧ s'.queue = [] ∧
      s'.pending = [(1, Driver.inFlight s.ops.length sync)] ∧
      s'.ops[0]? = some sync ∧ 0 ∈ s'.started ∧
      s'.history 0 = [.pushed ⟨1, 3, .fsync⟩, .dropReply, .dropFile] := by
  have hroom : s.sq.length < smallRing.sqEntries := by
    rw [h.sq]
    decide
  have hpush : (accepted s sync).pushTwice smallRing 0 ⟨1, 3, .fsync⟩ = some { s with
      ops := s.ops ++ [sync]
      queue := []
      nextId := (s.nextId + 1) % 2 ^ 64
      started := s.ops.length :: s.started
      sq := s.sq ++ [⟨1, 3, .fsync⟩] } := by
    have hfirst : (accepted s sync).push smallRing ⟨1, 3, .fsync⟩ = some { s with
        ops := s.ops ++ [sync]
        queue := []
        nextId := (s.nextId + 1) % 2 ^ 64
        started := s.ops.length :: s.started
        sq := s.sq ++ [⟨1, 3, .fsync⟩] } := if_pos hroom
    unfold Driver.pushTwice
    rw [hfirst]
    rfl
  have hlook : s.pending.lookup 1 = some (Driver.inFlight 0 sync) := by
    rw [h.pending]
    rfl
  have hwithout : Driver.without s.pending 1 = [] := by
    rw [h.pending]
    rfl
  have hsqe : sqeFor 1 (Driver.inFlight s.ops.length sync) = some ⟨1, 3, .fsync⟩ := rfl
  have hstart : (accepted s sync).startOp smallRing 0 1 s.ops.length sync =
      ({ s with
        ops := s.ops ++ [sync]
        queue := []
        nextId := (s.nextId + 1) % 2 ^ 64
        started := s.ops.length :: s.started
        sq := s.sq ++ [(⟨1, 3, .fsync⟩ : Sqe)]
        pending := [(1, Driver.inFlight s.ops.length sync)]
        reissued := true }.log 0 [.dropReply, .dropFile]).log s.ops.length
          [.pushed ⟨1, 3, .fsync⟩] := by
    have hbuf : (Driver.inFlight s.ops.length sync).buf = none := rfl
    unfold Driver.startOp
    dsimp only
    rw [hbuf, Option.any_none, if_neg Bool.false_ne_true, Driver.submitOrFail, hsqe]
    dsimp only
    rw [hpush]
    simp only [Driver.track, hlook, hwithout]
    rfl
  refine ⟨(accepted s sync).startOp smallRing 0 1 s.ops.length sync, ?_, ?_⟩
  · rw [h.accept sync, show (accepted s sync).nextId = 1 from hn]
  · rw [hstart]
    refine ⟨h.stopped, rfl, rfl, h.accepted_first sync, List.mem_cons_of_mem _ h.started, ?_⟩
    rw [log_history_ne _ h.key_ne, log_history_self]
    show s.history 0 ++ _ = _
    rw [h.history]
    rfl

/-- The claim on hooks without a bound on the ops: an op that was started and is over
called its hook once. -/
theorem reissued_id_loses_a_hook :
    ¬ ∀ (cfg : Config) (s : Driver), Reach (Driver.next cfg) (fun _ => True) Driver.start s →
      ∀ key req, s.ops[key]? = some req → key ∈ s.started → req.file.owner = .hooked →
        s.stopped = true → (hookCalls (s.history key)).length = 1 := by
  intro hall
  obtain ⟨s, hreach, hlap⟩ := lapping (2 ^ 64 - 1)
  have hn : (s.nextId + 1) % 2 ^ 64 = 1 := by
    rw [hlap.nextId]
    rfl
  obtain ⟨s1, hrun, hstop, hqueue, hpend, hfirst, hstarted, hhist⟩ := hlap.collide hn
  have hreach1 := hreach.trans (reach_of_run _ hrun fun _ _ => trivial)
  have hdown : s1.next smallRing .teardown = some s1.stop := by
    rw [Driver.next, if_neg (by rw [hstop]; exact Bool.false_ne_true)]
  have hhook := hall smallRing s1.stop (hreach1.step trivial hdown) 0 sync hfirst hstarted rfl rfl
  have hne : s.ops.length ≠ 0 := hlap.key_ne.symm
  rw [stop_history, hhist, hqueue, hpend] at hhook
  have hkey : (Driver.inFlight s.ops.length sync).key ≠ 0 := hne
  simp [hookCalls, Event.isHook, hkey] at hhook

end Fsys.Async
