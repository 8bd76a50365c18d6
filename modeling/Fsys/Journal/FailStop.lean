import Fsys.Journal.Handle

/-!
# Fail-stop in Direct mode (src/journal/mod.rs:699-720, 890-960)

Callers of the handle over the log buffer: `append` and `append_batch` check the
poison flag once before they touch the log buffer, `append_frame` checks it again
under the state lock, `try_append_frames_batched` does not. A call returns in the
step of its last critical section.
-/

namespace Fsys.Journal
open Fsys.Base

/-! ### Callers of the handle -/

/-- Where a caller stands. -/
inductive CallPc where
  | idle
  | append
  /-- `append_batch`, checked and sized, in front of `try_append_frames_batched` -/
  | batch (records : List Bytes)
  /-- `append_batch` in its per-record loop, with the records it has left -/
  | each (records : List Bytes)
  | flush

/-- What a call on the handle returned. -/
structure Returned where
  t : Tid
  result : Except IoError ℕ

/-- A handle in Direct mode and its callers. -/
structure DirectSys where
  sys : LogSys
  nextLsn : ℕ
  call : Tid → CallPc
  returned : List Returned

inductive DirectAction where
  | append (t : Tid) (payload : Bytes)
  | appendBatch (t : Tid) (records : List Bytes)
  | lockBatch (t : Tid)
  | appendNext (t : Tid)
  | flushPartial (t : Tid)
  | step (t : Tid) (a : LogAction)

namespace DirectSys

def setCall (s : DirectSys) (t : Tid) (pc : CallPc) : DirectSys :=
  { s with call := Function.update s.call t pc }

def giveBack (s : DirectSys) (t : Tid) (result : Except IoError ℕ) : DirectSys :=
  { s.setCall t .idle with returned := s.returned ++ [⟨t, result⟩] }

/-- `next_lsn.fetch_max(end)` and the return behind it. -/
def appended (s : DirectSys) (t : Tid) (stop : ℕ) : DirectSys :=
  { s with nextLsn := max s.nextLsn stop }.giveBack t (.ok stop)

/-- What the caller does with the answer of the log buffer. -/
def answer (s : DirectSys) (t : Tid) : CallPc → Response → DirectSys
  | .append, .appended _ _ stop _ => s.appended t stop
  | .batch _, .appended _ _ stop _ => s.appended t stop
  | .batch records, .batchNotFitting _ => s.setCall t (.each records)
  | .each [_], .appended _ _ stop _ => s.appended t stop
  | .each (_ :: records), .appended _ _ _ _ => s.setCall t (.each records)
  | .flush, .flushed _ stop => s.giveBack t (.ok stop)
  | _, .appendFailed _ e => s.giveBack t (.error e)
  | _, .flushFailed _ e => s.giveBack t (.error e)
  | _, _ => s

/-- A step of the log buffer by `t`, with the answer it may have brought. -/
def after (s : DirectSys) (t : Tid) (sys : LogSys) : DirectSys :=
  match sys.responses[s.sys.responses.length]? with
  | none => { s with sys := sys }
  | some r => { s with sys := sys }.answer t (s.call t) r

/-- Which thread a step inside the log buffer belongs to; calls start from the handle. -/
def inner (t : Tid) : LogAction → Bool
  | .lockAppend u _ => u = t
  | .land u _ => u = t
  | .finish u => u = t
  | .lockFlush u _ => u = t
  | _ => false

/-- The checks of `append_batch_inner` in front of the log buffer (`mod.rs:890-925`). -/
def checkBatch (s : DirectSys) (t : Tid) (records : List Bytes) : DirectSys :=
  match s.sys.poison.check with
  | .error e => s.giveBack t (.error e)
  | .ok () =>
    if records = [] then s.giveBack t (.ok s.nextLsn)
    else match batchSize records 0 with
      | .error e => s.giveBack t (.error e)
      | .ok _ => s.setCall t (.batch records)

/-- The check of `append_inner` and the start of `append_frame`. -/
def checkAppend (geo : Geometry) (crc : Crc) (s : DirectSys) (t : Tid) (payload : Bytes) :
    Option DirectSys :=
  match s.sys.poison.check with
  | .error e => some (s.giveBack t (.error e))
  | .ok () => (s.sys.next geo crc (.callAppend t payload)).map ((s.setCall t .append).after t)

def next (geo : Geometry) (crc : Crc) (s : DirectSys) : DirectAction → Option DirectSys
  | .append t payload =>
    match s.call t with
    | .idle => s.checkAppend geo crc t payload
    | _ => none
  | .appendBatch t records =>
    match s.call t with
    | .idle => some (s.checkBatch t records)
    | _ => none
  | .lockBatch t =>
    match s.call t with
    | .batch records => (s.sys.next geo crc (.callBatch t records)).map (s.after t)
    | _ => none
  | .appendNext t =>
    match s.call t with
    | .each (record :: _) => (s.sys.next geo crc (.callAppend t record)).map (s.after t)
    | _ => none
  | .flushPartial t =>
    match s.call t with
    | .idle => (s.sys.next geo crc (.callFlush t)).map ((s.setCall t .flush).after t)
    | _ => none
  | .step t a => if inner t a then (s.sys.next geo crc a).map (s.after t) else none

def start (b : LogState) (file : Bytes) (nextLsn : ℕ) : DirectSys :=
  ⟨LogSys.start b file, nextLsn, fun _ => .idle, []⟩

end DirectSys

/-! ### One writer -/

/-- At most one thread has a write to issue or to settle, and none while the journal is
poisoned. -/
structure Sole (s : LogSys) : Prop where
  one : ∀ t u, (s.pc t).writing = true → (s.pc u).writing = true → t = u
  busy : ∀ t, (s.pc t).writing = true → s.buf.flushing.isSome = true ∧ s.poison = none

theorem Sole.none_of_idle {s : LogSys} (h : Sole s) (hf : s.buf.flushing.isSome = false) (t : Tid) :
    (s.pc t).writing = false := by
  cases hw : (s.pc t).writing with
  | false => rfl
  | true =>
    rw [(h.busy t hw).1] at hf
    cases hf

theorem Sole.none_of_poison {s : LogSys} (h : Sole s) {e : IoError} (hp : s.poison = some e)
    (t : Tid) : (s.pc t).writing = false := by
  cases hw : (s.pc t).writing with
  | false => rfl
  | true =>
    rw [(h.busy t hw).2] at hp
    cases hp

/-- A thread that has no write moves to a place that has none. -/
theorem Sole.of_pc {s s' : LogSys} (h : Sole s) (t : Tid) (pc : Pc) (hpc : pc.writing = false)
    (hs : s'.pc = Function.update s.pc t pc) (hf : s'.buf.flushing = s.buf.flushing)
    (hp : s'.poison = s.poison) : Sole s' := by
  have hback : ∀ u, (s'.pc u).writing = true → (s.pc u).writing = true := by
    intro u hu
    rw [hs] at hu
    by_cases hut : u = t
    · rw [hut, Function.update_self, hpc] at hu
      cases hu
    · rwa [Function.update_of_ne hut] at hu
  refine ⟨fun u v hu hv => h.one u v (hback u hu) (hback v hv), ?_⟩
  intro u hu
  rw [hf, hp]
  exact h.busy u (hback u hu)

/-- Nobody has a write. -/
theorem sole_of_none {s : LogSys} (h : ∀ t, (s.pc t).writing = false) : Sole s := by
  refine ⟨?_, ?_⟩
  · intro t u ht
    rw [h t] at ht
    cases ht
  · intro t ht
    rw [h t] at ht
    cases ht

/-- The thread that takes up a write is the only one. -/
theorem sole_of_one {s s' : LogSys} (t : Tid) (pc : Pc) (h : ∀ u, u ≠ t → (s.pc u).writing = false)
    (hs : s'.pc = Function.update s.pc t pc) (hf : s'.buf.flushing.isSome = true)
    (hp : s'.poison = none) : Sole s' := by
  have honly : ∀ u, (s'.pc u).writing = true → u = t := by
    intro u hu
    by_contra hut
    rw [hs, Function.update_of_ne hut, h u hut] at hu
    cases hu
  exact ⟨fun u v hu hv => (honly u hu).trans (honly v hv).symm, fun u _ => ⟨hf, hp⟩⟩

/-! ### What a pass can do to the write in flight -/

theorem rotateBegin_flushing {geo : Geometry} {b b' : LogState} {w : SlotWrite}
    (h : b.rotateBegin geo = .ok (b', w)) : b'.flushing.isSome = true := by
  unfold LogState.rotateBegin at h
  dsimp only at h
  split at h
  · cases h
  · cases h
    rfl

theorem oversizeBegin_flushing {geo : Geometry} {crc : Crc} {b b' : LogState} {payload : Bytes}
    {frame : Option Bytes} {size : ℕ} {alloc : Option IoError} {w : ScratchWrite}
    (h : b.oversizeBegin geo crc payload frame size alloc = .ok (b', w)) :
    b'.flushing.isSome = true := by
  unfold LogState.oversizeBegin at h
  dsimp only at h
  split at h
  · cases h
  · split at h
    · cases h
    · split at h
      · cases h
      · split at h
        · cases h
        · cases h
          rfl

/-- A pass takes up a write only when none is in flight and the journal is healthy. -/
def Pass.Allowed (b : LogState) (poison : Poison) : LogState.Pass → Prop
  | .fits b' _ _ => b'.flushing = b.flushing
  | .rotate b' _ => poison = none ∧ b.flushing.isSome = false ∧ b'.flushing.isSome = true
  | .oversize b' _ => poison = none ∧ b.flushing.isSome = false ∧ b'.flushing.isSome = true
  | .wait => True
  | .fail _ => True

theorem appendPass_allowed (geo : Geometry) (crc : Crc) (b : LogState) (poison : Poison)
    (payload : Bytes) (frame : Option Bytes) (size : ℕ) (alloc : Option IoError) :
    Pass.Allowed b poison (b.appendPass geo crc poison payload frame size alloc) := by
  unfold LogState.appendPass
  cases poison with
  | some e => trivial
  | none =>
    dsimp only [Poison.check]
    cases frame.filter fun _ => b.activeLen + size ≤ geo.capacity with
    | some frame => rfl
    | none =>
      dsimp only
      cases hf : b.flushing.isSome with
      | true => trivial
      | false =>
        simp only [Bool.false_eq_true, if_false]
        split
        · cases hr : b.rotateBegin geo with
          | error e => trivial
          | ok r => exact ⟨rfl, hf, rotateBegin_flushing hr⟩
        · cases ho : b.oversizeBegin geo crc payload frame size alloc with
          | error e => trivial
          | ok r => exact ⟨rfl, hf, oversizeBegin_flushing ho⟩

theorem appendPass_poisoned (geo : Geometry) (crc : Crc) (b : LogState) (e : IoError)
    (payload : Bytes) (frame : Option Bytes) (size : ℕ) (alloc : Option IoError) :
    b.appendPass geo crc (some e) payload frame size alloc = .fail (Poison.error e) := rfl

/-! ### The steps keep one writer -/

theorem Sole.lockAppend {s : LogSys} (h : Sole s) (geo : Geometry) (crc : Crc) (t : Tid)
    (payload : Bytes) (frame : Option Bytes) (size : ℕ) (alloc : Option IoError) :
    Sole (s.lockAppend geo crc t payload frame size alloc) := by
  have hall := appendPass_allowed geo crc s.buf s.poison payload frame size alloc
  unfold LogSys.lockAppend
  cases hpass : s.buf.appendPass geo crc s.poison payload frame size alloc with
  | fits b' start stop =>
    rw [hpass] at hall
    exact h.of_pc t .idle rfl rfl hall rfl
  | wait => exact h
  | rotate b' w =>
    rw [hpass] at hall
    obtain ⟨hp, hf, hf'⟩ := hall
    exact sole_of_one t _ (fun u _ => h.none_of_idle hf u) rfl hf' hp
  | oversize b' w =>
    rw [hpass] at hall
    obtain ⟨hp, hf, hf'⟩ := hall
    exact sole_of_one t _ (fun u _ => h.none_of_idle hf u) rfl hf' hp
  | fail e => exact h.of_pc t .idle rfl rfl rfl rfl

theorem callAppend_shape (geo : Geometry) (crc : Crc) (s : LogSys) (t : Tid) (payload : Bytes) :
    (∃ frame size, s.callAppend geo crc t payload = s.setPc t (.append payload frame size)) ∨
      (¬ Fits payload ∧ ∃ e, s.callAppend geo crc t payload = s.respond t (.appendFailed t e)) := by
  unfold LogSys.callAppend
  by_cases hfit : Fits payload
  · rw [frameLen_ok payload hfit]
    dsimp only
    rw [encodeFrameOwned_ok crc payload hfit]
    dsimp only
    split
    · exact Or.inl ⟨_, _, rfl⟩
    · exact Or.inl ⟨_, _, rfl⟩
  · rw [frameLen_error payload hfit]
    exact Or.inr ⟨hfit, _, rfl⟩

theorem tryAppendFramesBatched_flushing (geo : Geometry) (crc : Crc) (b : LogState)
    (records : List Bytes) (total : ℕ) :
    (b.tryAppendFramesBatched geo crc records total).2.flushing = b.flushing := by
  unfold LogState.tryAppendFramesBatched
  dsimp only
  split
  · rfl
  · split
    · rfl
    · rfl

theorem Sole.callBatch {s : LogSys} (h : Sole s) (geo : Geometry) (crc : Crc) (t : Tid)
    (records : List Bytes) : Sole (s.callBatch geo crc t records) := by
  have hf := tryAppendFramesBatched_flushing geo crc s.buf records (framesLen records)
  unfold LogSys.callBatch
  split
  · rename_i heq
    rw [heq] at hf
    exact h.of_pc t .idle rfl rfl hf rfl
  · rename_i heq
    rw [heq] at hf
    exact h.of_pc t .idle rfl rfl hf rfl
  · rename_i heq
    rw [heq] at hf
    exact h.of_pc t .idle rfl rfl hf rfl

theorem none_update {s : LogSys} (t : Tid) (pc : Pc) (hpc : pc.writing = false)
    (h : ∀ u, u ≠ t → (s.pc u).writing = false) (u : Tid) :
    ((Function.update s.pc t pc) u).writing = false := by
  by_cases hut : u = t
  · rw [hut, Function.update_self, hpc]
  · rw [Function.update_of_ne hut, h u hut]

theorem Sole.lockFlush {s : LogSys} (h : Sole s) (geo : Geometry) (t : Tid)
    (outcome : WriteOutcome) (hf : s.buf.flushing.isSome = false) :
    Sole (s.lockFlush geo t outcome) := by
  have hnone := none_update t .idle rfl fun u _ => h.none_of_idle hf u
  unfold LogSys.lockFlush
  split
  · exact sole_of_none hnone
  · split
    · exact sole_of_none hnone
    · split
      · exact sole_of_none hnone
      · exact sole_of_none hnone

/-- Nobody writes beside a thread that does. -/
theorem Sole.others {s : LogSys} (h : Sole s) {t : Tid} (hw : (s.pc t).writing = true) (u : Tid)
    (hut : u ≠ t) : (s.pc u).writing = false := by
  cases hu : (s.pc u).writing with
  | false => rfl
  | true => exact absurd (h.one u t hu hw) hut

/-- The thread whose write ends leaves nobody writing. -/
theorem Sole.finishRotate {s : LogSys} (h : Sole s) (t : Tid) (payload : Bytes)
    (frame : Option Bytes) (size : ℕ) (w : SlotWrite) (result : Except IoError Unit)
    (hw : (s.pc t).writing = true) :
    Sole (s.finishRotate t payload frame size w result) := by
  unfold LogSys.finishRotate
  split
  · exact sole_of_none (none_update t _ rfl (h.others hw))
  · exact sole_of_none (none_update t _ rfl (h.others hw))

theorem Sole.finishOversize {s : LogSys} (h : Sole s) (t : Tid) (payload : Bytes)
    (w : ScratchWrite) (result : Except IoError Unit) (hw : (s.pc t).writing = true) :
    Sole (s.finishOversize t payload w result) := by
  unfold LogSys.finishOversize
  split
  · exact sole_of_none (none_update t _ rfl (h.others hw))
  · exact sole_of_none (none_update t _ rfl (h.others hw))

theorem Sole.next {s s' : LogSys} (h : Sole s) (geo : Geometry) (crc : Crc) (a : LogAction)
    (hn : s.next geo crc a = some s') : Sole s' := by
  cases a with
  | callAppend t payload =>
    simp only [LogSys.next] at hn
    split at hn
    · cases hn
      rcases callAppend_shape geo crc s t payload with ⟨frame, size, heq⟩ | ⟨-, e, heq⟩
      · rw [heq]
        exact h.of_pc t _ rfl rfl rfl rfl
      · rw [heq]
        exact h.of_pc t .idle rfl rfl rfl rfl
    · cases hn
  | lockAppend t alloc =>
    simp only [LogSys.next] at hn
    split at hn
    · cases hn
      exact h.lockAppend geo crc t _ _ _ alloc
    · cases hn
  | land t outcome =>
    simp only [LogSys.next] at hn
    have hmoved : ∀ pc, (s.pc t).writing = true → s'.pc = Function.update s.pc t pc →
        s'.buf = s.buf → s'.poison = s.poison → Sole s' := by
      intro pc hw hs hb hp
      obtain ⟨hf, hnone⟩ := h.busy t hw
      refine sole_of_one t pc ?_ hs (hb ▸ hf) (hp.trans hnone)
      intro u hut
      cases hu : (s.pc u).writing with
      | false => rfl
      | true => exact absurd (h.one u t hu hw) hut
    split at hn
    · rename_i hpc
      cases hn
      exact hmoved _ (by rw [hpc]; rfl) rfl rfl rfl
    · rename_i hpc
      cases hn
      exact hmoved _ (by rw [hpc]; rfl) rfl rfl rfl
    · cases hn
  | finish t =>
    simp only [LogSys.next] at hn
    split at hn
    · rename_i hpc
      cases hn
      exact h.finishRotate t _ _ _ _ _ (by rw [hpc]; rfl)
    · rename_i hpc
      cases hn
      exact h.finishOversize t _ _ _ (by rw [hpc]; rfl)
    · cases hn
  | callBatch t records =>
    simp only [LogSys.next] at hn
    split at hn
    · split at hn
      · cases hn
        exact h.callBatch geo crc t records
      · cases hn
    · cases hn
  | callFlush t =>
    simp only [LogSys.next] at hn
    split at hn
    · cases hn
      exact h.of_pc t .flush rfl rfl rfl rfl
    · cases hn
  | lockFlush t outcome =>
    simp only [LogSys.next] at hn
    split at hn
    · split at hn
      · cases hn
      · rename_i hf
        cases hn
        exact h.lockFlush geo t outcome (by simpa using hf)
    · cases hn

/-! ### A poisoned log buffer -/

/-- An answer of a log buffer that is poisoned by `e`. -/
def Refused (e : IoError) : Response → Prop
  | .appendFailed _ x => x = Poison.error e
  | .flushFailed _ x => x = Poison.error e
  | .batchNotFitting _ => True
  | _ => False

/-- Nothing was written to the file, copied into a slot or given an LSN. -/
structure Untouched (s s' : LogSys) : Prop where
  file_eq : s'.file = s.file
  buf_eq : s'.buf = s.buf
  log_eq : s'.log = s.log
  poison_eq : s'.poison = s.poison

theorem Untouched.trans {s s' s'' : LogSys} (h : Untouched s s') (h' : Untouched s' s'') :
    Untouched s s'' :=
  ⟨h'.file_eq.trans h.file_eq, h'.buf_eq.trans h.buf_eq, h'.log_eq.trans h.log_eq,
    h'.poison_eq.trans h.poison_eq⟩

theorem untouched_setPc (s : LogSys) (t : Tid) (pc : Pc) : Untouched s (s.setPc t pc) :=
  ⟨rfl, rfl, rfl, rfl⟩

theorem untouched_respond (s : LogSys) (t : Tid) (r : Response) : Untouched s (s.respond t r) :=
  ⟨rfl, rfl, rfl, rfl⟩

/-- A step that brings no answer or a refusal. -/
def Refuses (e : IoError) (s s' : LogSys) : Prop :=
  s'.responses = s.responses ∨ ∃ r, s'.responses = s.responses ++ [r] ∧ Refused e r

/-- A batch that does not fit is sent back to the caller. -/
theorem callBatch_not_fitting (geo : Geometry) (crc : Crc) (s : LogSys) (t : Tid)
    (records : List Bytes) (h : ¬ framesLen records ≤ geo.capacity - s.buf.activeLen) :
    s.callBatch geo crc t records = s.respond t (.batchNotFitting t) := by
  unfold LogSys.callBatch LogState.tryAppendFramesBatched
  dsimp only
  rw [if_pos (Nat.lt_of_not_le h)]
  rfl

/-- A poisoned log buffer with nobody writing refuses every critical section, except the
one of a batch that fits. -/
theorem next_poisoned {s s' : LogSys} (h : Sole s) {e : IoError} (hp : s.poison = some e)
    (geo : Geometry) (crc : Crc) (a : LogAction) (hn : s.next geo crc a = some s')
    (hcall : ∀ t payload, a = .callAppend t payload → Fits payload)
    (hbatch : ∀ t records, a = .callBatch t records →
      ¬ framesLen records ≤ geo.capacity - s.buf.activeLen) :
    Untouched s s' ∧ Refuses e s s' := by
  have hnone := h.none_of_poison hp
  cases a with
  | callAppend t payload =>
    simp only [LogSys.next] at hn
    split at hn
    · cases hn
      rcases callAppend_shape geo crc s t payload with ⟨frame, size, heq⟩ | ⟨hlong, -⟩
      · rw [heq]
        exact ⟨untouched_setPc s t _, Or.inl rfl⟩
      · exact absurd (hcall t payload rfl) hlong
    · cases hn
  | lockAppend t alloc =>
    simp only [LogSys.next] at hn
    split at hn
    · cases hn
      rw [LogSys.lockAppend, hp, appendPass_poisoned]
      exact ⟨untouched_respond s t _, Or.inr ⟨_, rfl, rfl⟩⟩
    · cases hn
  | land t outcome =>
    simp only [LogSys.next] at hn
    split at hn
    · rename_i hpc
      have := hnone t
      rw [hpc] at this
      cases this
    · rename_i hpc
      have := hnone t
      rw [hpc] at this
      cases this
    · cases hn
  | finish t =>
    simp only [LogSys.next] at hn
    split at hn
    · rename_i hpc
      have := hnone t
      rw [hpc] at this
      cases this
    · rename_i hpc
      have := hnone t
      rw [hpc] at this
      cases this
    · cases hn
  | callBatch t records =>
    simp only [LogSys.next] at hn
    split at hn
    · split at hn
      · cases hn
        rw [callBatch_not_fitting geo crc s t records (hbatch t records rfl)]
        exact ⟨untouched_respond s t _, Or.inr ⟨_, rfl, trivial⟩⟩
      · cases hn
    · cases hn
  | callFlush t =>
    simp only [LogSys.next] at hn
    split at hn
    · cases hn
      exact ⟨untouched_setPc s t _, Or.inl rfl⟩
    · cases hn
  | lockFlush t outcome =>
    simp only [LogSys.next] at hn
    split at hn
    · split at hn
      · cases hn
      · cases hn
        rw [LogSys.lockFlush, hp]
        exact ⟨untouched_respond s t _, Or.inr ⟨_, rfl, rfl⟩⟩
    · cases hn

/-! ### A poisoned handle -/

/-- The records a call still has to append passed the size check. -/
def CallPc.Ok : CallPc → Prop
  | .batch records => ∀ p ∈ records, Fits p
  | .each records => ∀ p ∈ records, Fits p
  | _ => True

structure DirectInv (s : DirectSys) : Prop where
  sole : Sole s.sys
  calls : ∀ t, (s.call t).Ok

theorem calls_update {call : Tid → CallPc} (h : ∀ t, (call t).Ok) (t : Tid) (pc : CallPc)
    (hpc : pc.Ok) (u : Tid) : ((Function.update call t pc) u).Ok := by
  by_cases hut : u = t
  · rw [hut, Function.update_self]
    exact hpc
  · rw [Function.update_of_ne hut]
    exact h u

theorem answer_calls (s : DirectSys) (t : Tid) (pc : CallPc) (r : Response)
    (h : ∀ u, (s.call u).Ok) (hpc : pc.Ok) (u : Tid) : ((s.answer t pc r).call u).Ok := by
  unfold DirectSys.answer
  split
  · exact calls_update h t .idle trivial u
  · exact calls_update h t .idle trivial u
  · exact calls_update h t (.each _) hpc u
  · exact calls_update h t .idle trivial u
  · exact calls_update h t (.each _) (fun p hp => hpc p (List.mem_cons_of_mem _ hp)) u
  · exact calls_update h t .idle trivial u
  · exact calls_update h t .idle trivial u
  · exact calls_update h t .idle trivial u
  · exact h u

theorem answer_sys (s : DirectSys) (t : Tid) (pc : CallPc) (r : Response) :
    (s.answer t pc r).sys = s.sys := by
  unfold DirectSys.answer
  split <;> rfl

theorem after_sys (s : DirectSys) (t : Tid) (sys : LogSys) : (s.after t sys).sys = sys := by
  unfold DirectSys.after
  split
  · rfl
  · exact answer_sys _ _ _ _

theorem after_calls (s : DirectSys) (t : Tid) (sys : LogSys) (h : ∀ u, (s.call u).Ok) (u : Tid) :
    ((s.after t sys).call u).Ok := by
  unfold DirectSys.after
  split
  · exact h u
  · exact answer_calls { s with sys := sys } t _ _ h (h t) u

theorem DirectInv.setCall {s : DirectSys} (h : DirectInv s) (t : Tid) (pc : CallPc)
    (hpc : pc.Ok) : DirectInv (s.setCall t pc) :=
  ⟨h.sole, calls_update h.calls t pc hpc⟩

theorem DirectInv.giveBack {s : DirectSys} (h : DirectInv s) (t : Tid)
    (result : Except IoError ℕ) : DirectInv (s.giveBack t result) :=
  ⟨h.sole, calls_update h.calls t .idle trivial⟩

theorem DirectInv.after {s : DirectSys} (h : DirectInv s) (geo : Geometry) (crc : Crc) (t : Tid)
    {a : LogAction} {s' : DirectSys} (hn : (s.sys.next geo crc a).map (s.after t) = some s') :
    DirectInv s' := by
  obtain ⟨sys, hsys, heq⟩ := Option.map_eq_some_iff.mp hn
  rw [← heq]
  refine ⟨?_, after_calls s t sys h.calls⟩
  rw [after_sys]
  exact h.sole.next geo crc a hsys

theorem DirectInv.checkBatch {s : DirectSys} (h : DirectInv s) (t : Tid) (records : List Bytes) :
    DirectInv (s.checkBatch t records) := by
  unfold DirectSys.checkBatch
  split
  · exact h.giveBack t _
  · split
    · exact h.giveBack t _
    · split
      · exact h.giveBack t _
      · rename_i hsize
        exact h.setCall t (.batch records) (batchSize_ok hsize).2

theorem DirectInv.next {s s' : DirectSys} (h : DirectInv s) (geo : Geometry) (crc : Crc)
    (a : DirectAction) (hn : s.next geo crc a = some s') : DirectInv s' := by
  cases a with
  | append t payload =>
    simp only [DirectSys.next] at hn
    split at hn
    · unfold DirectSys.checkAppend at hn
      split at hn
      · cases hn
        exact h.giveBack t _
      · exact (h.setCall t .append trivial).after geo crc t hn
    · cases hn
  | appendBatch t records =>
    simp only [DirectSys.next] at hn
    split at hn
    · cases hn
      exact h.checkBatch t records
    · cases hn
  | lockBatch t =>
    simp only [DirectSys.next] at hn
    split at hn
    · exact h.after geo crc t hn
    · cases hn
  | appendNext t =>
    simp only [DirectSys.next] at hn
    split at hn
    · exact h.after geo crc t hn
    · cases hn
  | flushPartial t =>
    simp only [DirectSys.next] at hn
    split at hn
    · exact (h.setCall t .flush trivial).after geo crc t hn
    · cases hn
  | step t a =>
    simp only [DirectSys.next] at hn
    split at hn
    · exact h.after geo crc t hn
    · cases hn

/-- The journal stopped between `s` and `s'`: nothing was written, copied or given an LSN,
nobody has a write to issue, and every call that returned got the poison error. -/
structure FailStop (e : IoError) (s s' : DirectSys) : Prop where
  untouched : Untouched s.sys s'.sys
  quiet : ∀ t, (s'.sys.pc t).writing = false
  returned : ∃ new, s'.returned = s.returned ++ new ∧
    ∀ r ∈ new, r.result = .error (Poison.error e)

theorem FailStop.refl {e : IoError} {s : DirectSys} (h : DirectInv s)
    (hp : s.sys.poison = some e) : FailStop e s s :=
  ⟨⟨rfl, rfl, rfl, rfl⟩, h.sole.none_of_poison hp, [], (List.append_nil _).symm, nofun⟩

theorem FailStop.trans {e : IoError} {s s' s'' : DirectSys} (h : FailStop e s s')
    (h' : FailStop e s' s'') : FailStop e s s'' := by
  obtain ⟨new, hnew, herr⟩ := h.returned
  obtain ⟨new', hnew', herr'⟩ := h'.returned
  refine ⟨h.untouched.trans h'.untouched, h'.quiet, new ++ new', ?_, ?_⟩
  · rw [hnew', hnew, List.append_assoc]
  · intro r hr
    rcases List.mem_append.mp hr with hr | hr
    · exact herr r hr
    · exact herr' r hr

theorem answer_appendFailed (s : DirectSys) (t u : Tid) (pc : CallPc) (e : IoError) :
    s.answer t pc (.appendFailed u e) = s.giveBack t (.error e) := by
  cases pc <;> simp [DirectSys.answer]

theorem answer_flushFailed (s : DirectSys) (t u : Tid) (pc : CallPc) (e : IoError) :
    s.answer t pc (.flushFailed u e) = s.giveBack t (.error e) := by
  cases pc <;> simp [DirectSys.answer]

theorem answer_batchNotFitting (s : DirectSys) (t u : Tid) (pc : CallPc) :
    (s.answer t pc (.batchNotFitting u)).returned = s.returned := by
  cases pc <;> simp [DirectSys.answer, DirectSys.setCall]

/-- A refusal sends the call back with the poison error, or to its next record. -/
theorem answer_returned {e : IoError} (s : DirectSys) (t : Tid) (pc : CallPc) (r : Response)
    (hr : Refused e r) : (s.answer t pc r).returned = s.returned ∨
      (s.answer t pc r).returned = s.returned ++ [⟨t, .error (Poison.error e)⟩] := by
  cases r with
  | appended u start stop payloads => exact absurd hr id
  | flushed u stop => exact absurd hr id
  | appendFailed u x =>
    rw [show x = Poison.error e from hr, answer_appendFailed]
    exact Or.inr rfl
  | batchNotFitting u => exact Or.inl (answer_batchNotFitting s t u pc)
  | flushFailed u x =>
    rw [show x = Poison.error e from hr, answer_flushFailed]
    exact Or.inr rfl

/-- A call that returned the poison error and changed nothing else. -/
theorem FailStop.giveBack {e : IoError} {s : DirectSys} (h : DirectInv s)
    (hp : s.sys.poison = some e) (t : Tid) :
    FailStop e s (s.giveBack t (.error (Poison.error e))) := by
  refine ⟨⟨rfl, rfl, rfl, rfl⟩, h.sole.none_of_poison hp, [⟨t, .error (Poison.error e)⟩], rfl, ?_⟩
  intro r hr
  rw [List.mem_singleton.mp hr]

/-- The step of a log buffer that refuses is a step of a handle that stopped. -/
theorem FailStop.after {e : IoError} {s : DirectSys} (h : DirectInv s)
    (hp : s.sys.poison = some e) (geo : Geometry) (crc : Crc) (t : Tid) {a : LogAction}
    {s' : DirectSys} (hn : (s.sys.next geo crc a).map (s.after t) = some s')
    (hcall : ∀ u payload, a = .callAppend u payload → Fits payload)
    (hbatch : ∀ u records, a = .callBatch u records →
      ¬ framesLen records ≤ geo.capacity - s.sys.buf.activeLen) : FailStop e s s' := by
  have hinv := h.after geo crc t hn
  obtain ⟨sys, hsys, heq⟩ := Option.map_eq_some_iff.mp hn
  obtain ⟨hun, href⟩ := next_poisoned h.sole hp geo crc a hsys hcall hbatch
  have hsys' : s'.sys = sys := by rw [← heq, after_sys]
  have hp' : s'.sys.poison = some e := by rw [hsys', hun.poison_eq, hp]
  refine ⟨hsys' ▸ hun, hinv.sole.none_of_poison hp', ?_⟩
  rw [← heq]
  unfold DirectSys.after
  rcases href with hsame | ⟨r, hr, hrefused⟩
  · rw [hsame, List.getElem?_length]
    exact ⟨[], (List.append_nil _).symm, nofun⟩
  · rw [hr, List.getElem?_concat_length]
    rcases answer_returned { s with sys := sys } t (s.call t) r hrefused with hret | hret
    · exact ⟨[], by rw [List.append_nil]; exact hret, nofun⟩
    · refine ⟨[⟨t, .error (Poison.error e)⟩], hret, ?_⟩
      intro x hx
      rw [List.mem_singleton.mp hx]

/-- The critical section of a batch that fits into the active slot. -/
def Overtakes (geo : Geometry) (s : DirectSys) : DirectAction → Prop
  | .lockBatch t => ∃ records, s.call t = .batch records ∧
      framesLen records ≤ geo.capacity - s.sys.buf.activeLen
  | _ => False

/-- Once the journal is poisoned every step but that one refuses. -/
theorem DirectInv.failStop {s s' : DirectSys} (h : DirectInv s) {e : IoError}
    (hp : s.sys.poison = some e) (geo : Geometry) (crc : Crc) (a : DirectAction)
    (ha : ¬ Overtakes geo s a) (hn : s.next geo crc a = some s') : FailStop e s s' := by
  have hcheck : s.sys.poison.check = .error (Poison.error e) := by rw [hp]; rfl
  cases a with
  | append t payload =>
    simp only [DirectSys.next] at hn
    split at hn
    · rw [DirectSys.checkAppend, hcheck] at hn
      cases hn
      exact FailStop.giveBack h hp t
    · cases hn
  | appendBatch t records =>
    simp only [DirectSys.next] at hn
    split at hn
    · rw [DirectSys.checkBatch, hcheck] at hn
      cases hn
      exact FailStop.giveBack h hp t
    · cases hn
  | lockBatch t =>
    simp only [DirectSys.next] at hn
    split at hn
    · rename_i records hcall
      refine FailStop.after h hp geo crc t hn nofun ?_
      intro u rs heq hfits
      cases heq
      exact ha ⟨records, hcall, hfits⟩
    · cases hn
  | appendNext t =>
    simp only [DirectSys.next] at hn
    split at hn
    · rename_i record records hcall
      refine FailStop.after h hp geo crc t hn ?_ nofun
      intro u payload heq
      cases heq
      have hok := h.calls t
      rw [hcall] at hok
      exact hok record List.mem_cons_self
    · cases hn
  | flushPartial t =>
    simp only [DirectSys.next] at hn
    split at hn
    · have hset : FailStop e s (s.setCall t .flush) :=
        ⟨⟨rfl, rfl, rfl, rfl⟩, h.sole.none_of_poison hp, [], (List.append_nil _).symm, nofun⟩
      exact hset.trans (FailStop.after (h.setCall t .flush trivial) hp geo crc t hn nofun nofun)
    · cases hn
  | step t a =>
    simp only [DirectSys.next] at hn
    split at hn
    · rename_i hin
      refine FailStop.after h hp geo crc t hn ?_ ?_
      · intro u payload heq
        rw [heq] at hin
        cases hin
      · intro u records heq
        rw [heq] at hin
        cases hin
    · cases hn

/-- No step of the run is the critical section of a batch that fits. -/
def Avoids (geo : Geometry) (crc : Crc) : List DirectAction → DirectSys → Prop
  | [], _ => True
  | a :: as, s => ¬ Overtakes geo s a ∧ ∀ s', s.next geo crc a = some s' → Avoids geo crc as s'

theorem DirectInv.failStop_run {e : IoError} (geo : Geometry) (crc : Crc)
    (as : List DirectAction) {s s' : DirectSys} (h : DirectInv s) (hp : s.sys.poison = some e)
    (hr : run (DirectSys.next geo crc) as s = some s') (ha : Avoids geo crc as s) :
    FailStop e s s' := by
  induction as generalizing s with
  | nil =>
    cases hr
    exact FailStop.refl h hp
  | cons a as ih =>
    obtain ⟨s1, hs1, hrun⟩ := Option.bind_eq_some_iff.mp hr
    have hstep := h.failStop hp geo crc a ha.1 hs1
    have hp1 : s1.sys.poison = some e := hstep.untouched.poison_eq.trans hp
    exact hstep.trans (ih (h.next geo crc a hs1) hp1 hrun (ha.2 s1 hs1))

theorem directInv_start (b : LogState) (file : Bytes) (nextLsn : ℕ) :
    DirectInv (DirectSys.start b file nextLsn) :=
  ⟨sole_of_none fun _ => rfl, fun _ => trivial⟩

abbrev DirectReach (geo : Geometry) (crc : Crc) :=
  Reach (DirectSys.next geo crc) fun _ => True

/-- Fail-stop: from any reachable state in which a failed flush or write has poisoned the
journal, no run in which no batch takes its one-lock section with room for it writes to
the file, copies a frame or returns anything but the poison error. -/
theorem direct_mode_fail_stop (geo : Geometry) (crc : Crc) (b : LogState) (file : Bytes)
    (nextLsn : ℕ) (e : IoError) (as : List DirectAction) (s s' : DirectSys)
    (hs : DirectReach geo crc (DirectSys.start b file nextLsn) s) (hp : s.sys.poison = some e)
    (hr : run (DirectSys.next geo crc) as s = some s') (ha : Avoids geo crc as s) :
    FailStop e s s' := by
  have hinv : DirectInv s := hs.invariant (directInv_start b file nextLsn)
    fun _ a _ h _ hn => h.next geo crc a hn
  exact hinv.failStop_run geo crc as hp hr ha

/-! ### A failed flush with a batch in front of the lock -/

def diskError : IoError := ⟨.other, "Input/output error (os error 5)"⟩

/-- Thread 0 appends, thread 1 passes the check of `append_batch` and thread 3 that of `append`,
and the partial flush of thread 2 fails. -/
def failedFlush : List DirectAction :=
  [.append 0 [], .step 0 (.lockAppend 0 none), .appendBatch 1 [[]], .append 3 [1], .flushPartial 2,
    .step 2 (.lockFlush 2 (.failed 0 diskError))]

def fourSectorsStart : DirectSys := DirectSys.start (LogState.new fourSectors 0) [] 0

theorem failedFlush_isSome :
    (run (DirectSys.next fourSectors castagnoli) failedFlush fourSectorsStart).isSome = true := by
  decide +kernel

/-- The state the failed flush leaves. -/
def afterFailedFlush : DirectSys :=
  (run (DirectSys.next fourSectors castagnoli) failedFlush fourSectorsStart).get failedFlush_isSome

theorem failedFlush_run :
    run (DirectSys.next fourSectors castagnoli) failedFlush fourSectorsStart =
      some afterFailedFlush := (Option.some_get _).symm

theorem afterFailedFlush_poison : afterFailedFlush.sys.poison = some diskError := by
  decide +kernel

theorem afterFailedFlush_reach :
    DirectReach fourSectors castagnoli fourSectorsStart afterFailedFlush :=
  reach_of_run failedFlush failedFlush_run fun _ _ => trivial

/-- Thread 3, which waits at the lock, and thread 4, which comes later. -/
def laterAppends : List DirectAction := [.step 3 (.lockAppend 3 none), .append 4 [1]]

theorem laterAppends_isSome : (run (DirectSys.next fourSectors castagnoli) laterAppends
    afterFailedFlush).isSome = true := by decide +kernel

theorem laterAppends_returned : ((run (DirectSys.next fourSectors castagnoli) laterAppends
    afterFailedFlush).get laterAppends_isSome).returned.length =
    afterFailedFlush.returned.length + 2 := by decide +kernel

/-- Both are refused. -/
theorem direct_mode_fail_stop_append : ∃ s', run (DirectSys.next fourSectors castagnoli)
    laterAppends afterFailedFlush = some s' ∧ FailStop diskError afterFailedFlush s' ∧
    s'.returned.length = afterFailedFlush.returned.length + 2 := by
  have hrun := (Option.some_get laterAppends_isSome).symm
  refine ⟨_, hrun, ?_, laterAppends_returned⟩
  exact direct_mode_fail_stop fourSectors castagnoli _ _ _ _ laterAppends _ _
    afterFailedFlush_reach afterFailedFlush_poison hrun
    ⟨nofun, fun _ _ => ⟨nofun, fun _ _ => trivial⟩⟩

theorem overtake_isSome : (run (DirectSys.next fourSectors castagnoli) [.lockBatch 1]
    afterFailedFlush).isSome = true := by decide +kernel

/-- The batch of thread 1 takes the lock after the failed flush and is acknowledged. -/
theorem batch_overtakes_poison :
    ¬ ∀ (geo : Geometry) (crc : Crc) (b : LogState) (file : Bytes) (nextLsn : ℕ) (e : IoError)
      (as : List DirectAction) (s s' : DirectSys),
      DirectReach geo crc (DirectSys.start b file nextLsn) s → s.sys.poison = some e →
      run (DirectSys.next geo crc) as s = some s' → FailStop e s s' := by
  intro h
  have hstop := h fourSectors castagnoli _ _ _ diskError [.lockBatch 1] afterFailedFlush _
    afterFailedFlush_reach afterFailedFlush_poison (Option.some_get overtake_isSome).symm
  have hlen := congrArg List.length hstop.untouched.log_eq
  have hgrown : ((run (DirectSys.next fourSectors castagnoli) [.lockBatch 1]
      afterFailedFlush).get overtake_isSome).sys.log.length ≠
      afterFailedFlush.sys.log.length := by decide +kernel
  exact hgrown hlen

end Fsys.Journal
