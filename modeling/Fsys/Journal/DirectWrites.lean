import Fsys.Base.Stable
import Fsys.Journal.FailStop

/-!
# The log buffer when writes fail (src/journal/log_buffer.rs:460-758)

Until a write fails the log buffer goes on as in `log_buffer_interleavings`, whoever has
poisoned the journal. Behind a failed write no other is issued and no flush returns. So
the file keeps the log below every end that a flush has returned, and every write that is
issued has the bytes of the log there.
-/

namespace Fsys.Journal
open Fsys.Base

/-! ### The writes of the log buffer -/

/-- The write that a step of the log buffer issues. -/
def LogSys.issued (geo : Geometry) (s : LogSys) : LogAction → Option (ℕ × Bytes)
  | .land t _ => s.pendingWrite t
  | .lockFlush _ _ => if s.poison.isSome then none else s.buf.partialWrite geo
  | _ => none

variable {geo : Geometry} {crc : Crc} {resume junk : Bytes} {s s' : LogSys}

theorem outcome_file (o : WriteOutcome) (f : Bytes) (pos : ℕ) (data : Bytes) :
    ∃ done, o.file f pos data = overlay f pos (data.take done) := by
  cases o with
  | done => exact ⟨data.length, by rw [List.take_length]; rfl⟩
  | failed landed e => exact ⟨landed, rfl⟩

/-- The file changes by a part of the write that was issued. -/
theorem file_of_issued (a : LogAction) (hn : s.next geo crc a = some s') :
    s'.file = s.file ∨ ∃ w done, s.issued geo a = some w ∧
      s'.file = overlay s.file w.1 (w.2.take done) := by
  cases a with
  | callAppend t payload =>
    simp only [LogSys.next] at hn
    split at hn
    · cases hn
      rcases callAppend_shape geo crc s t payload with ⟨frame, size, heq⟩ | ⟨-, e, heq⟩
      · rw [heq]
        exact Or.inl rfl
      · rw [heq]
        exact Or.inl rfl
    · cases hn
  | lockAppend t alloc =>
    simp only [LogSys.next] at hn
    split at hn
    · cases hn
      unfold LogSys.lockAppend
      split <;> exact Or.inl rfl
    · cases hn
  | land t outcome =>
    simp only [LogSys.next] at hn
    split at hn
    · rename_i payload frame size w hpc
      cases hn
      obtain ⟨done, hdone⟩ := outcome_file outcome s.file w.oldFlushPos
        ((s.buf.slots w.oldIdx).take w.writeLen)
      have hissued : s.issued geo (.land t outcome) =
          some (w.oldFlushPos, (s.buf.slots w.oldIdx).take w.writeLen) := by
        simp only [LogSys.issued, LogSys.pendingWrite, hpc]
      exact Or.inr ⟨_, done, hissued, hdone⟩
    · rename_i payload w hpc
      cases hn
      obtain ⟨done, hdone⟩ := outcome_file outcome s.file w.startPos w.scratch
      have hissued : s.issued geo (.land t outcome) = some (w.startPos, w.scratch) := by
        simp only [LogSys.issued, LogSys.pendingWrite, hpc]
      exact Or.inr ⟨_, done, hissued, hdone⟩
    · cases hn
  | finish t =>
    simp only [LogSys.next] at hn
    split at hn
    · cases hn
      unfold LogSys.finishRotate
      split <;> exact Or.inl rfl
    · cases hn
      unfold LogSys.finishOversize
      split <;> exact Or.inl rfl
    · cases hn
  | callBatch t records =>
    simp only [LogSys.next] at hn
    split at hn
    · split at hn
      · cases hn
        unfold LogSys.callBatch
        split <;> exact Or.inl rfl
      · cases hn
    · cases hn
  | callFlush t =>
    simp only [LogSys.next] at hn
    split at hn
    · cases hn
      exact Or.inl rfl
    · cases hn
  | lockFlush t outcome =>
    simp only [LogSys.next] at hn
    split at hn
    · split at hn
      · cases hn
      · cases hn
        unfold LogSys.lockFlush
        cases hp : s.poison with
        | some e => exact Or.inl rfl
        | none =>
          dsimp only [Poison.check]
          cases hw : s.buf.partialWrite geo with
          | none => exact Or.inl rfl
          | some w =>
            obtain ⟨done, hdone⟩ := outcome_file outcome s.file w.1 w.2
            have hissued : s.issued geo (.lockFlush t outcome) = some w := by
              simp [LogSys.issued, hp, hw]
            refine Or.inr ⟨w, done, hissued, ?_⟩
            rw [← hdone]
            dsimp only
            split <;> rfl
    · cases hn

/-! ### Behind a failed write -/

/-- The write of the thread has failed and is not settled yet. -/
def Pc.failed : Pc → Bool
  | .rotated _ _ _ _ (.error _) => true
  | .oversized _ _ (.error _) => true
  | _ => false

/-- A write has failed: nobody has a write to issue, and none will be taken up. -/
structure Still (s : LogSys) : Prop where
  one : ∀ t u, (s.pc t).writing = true → (s.pc u).writing = true → t = u
  failed : ∀ t, (s.pc t).writing = true →
    (s.pc t).failed = true ∧ s.buf.flushing.isSome = true
  stopped : s.poison.isSome = true ∨ ∃ t, (s.pc t).writing = true

/-- Nobody writes and the journal is poisoned. -/
theorem still_of_poison (h : ∀ t, (s.pc t).writing = false) (hp : s.poison.isSome = true) :
    Still s := by
  refine ⟨?_, ?_, Or.inl hp⟩
  · intro t u ht
    rw [h t] at ht
    cases ht
  · intro t ht
    rw [h t] at ht
    cases ht

/-- One thread moves, away from its write or without one. -/
theorem Still.of_pc (h : Still s) (t : Tid) (pc : Pc) (hw : (s.pc t).writing = false)
    (hpc : pc.writing = false) (hs : s'.pc = Function.update s.pc t pc)
    (hf : s'.buf.flushing = s.buf.flushing) (hp : s'.poison = s.poison) : Still s' := by
  have hback : ∀ u, (s'.pc u).writing = true → u ≠ t ∧ s'.pc u = s.pc u := by
    intro u hu
    rw [hs] at hu ⊢
    by_cases hut : u = t
    · rw [hut, Function.update_self, hpc] at hu
      cases hu
    · exact ⟨hut, Function.update_of_ne hut _ _⟩
  refine ⟨?_, ?_, ?_⟩
  · intro u v hu hv
    have hu' := (hback u hu).2
    have hv' := (hback v hv).2
    rw [hu'] at hu
    rw [hv'] at hv
    exact h.one u v hu hv
  · intro u hu
    have hu' := (hback u hu).2
    rw [hu'] at hu ⊢
    rw [hf]
    exact h.failed u hu
  · rcases h.stopped with hpoison | ⟨u, hu⟩
    · rw [hp]
      exact Or.inl hpoison
    · have hut : u ≠ t := by
        intro heq
        rw [heq, hw] at hu
        cases hu
      refine Or.inr ⟨u, ?_⟩
      rw [hs, Function.update_of_ne hut]
      exact hu

theorem Still.none_of_idle (h : Still s) (hf : s.buf.flushing.isSome = false) (t : Tid) :
    (s.pc t).writing = false := by
  cases hw : (s.pc t).writing with
  | false => rfl
  | true =>
    rw [(h.failed t hw).2] at hf
    cases hf

/-- Then the journal is poisoned. -/
theorem Still.poisoned (h : Still s) (hf : s.buf.flushing.isSome = false) :
    s.poison.isSome = true := by
  rcases h.stopped with hp | ⟨t, ht⟩
  · exact hp
  · rw [h.none_of_idle hf t] at ht
    cases ht

theorem Still.none_of_other (h : Still s) (t : Tid) (hw : (s.pc t).writing = true) (u : Tid)
    (hut : u ≠ t) : (s.pc u).writing = false := by
  cases hu : (s.pc u).writing with
  | false => rfl
  | true => exact absurd (h.one u t hu hw) hut

/-- A failed write is settled. -/
theorem Still.settled (h : Still s) (t : Tid) (hw : (s.pc t).writing = true)
    (hs : s'.pc = Function.update s.pc t .idle) (hp : s'.poison.isSome = true) : Still s' := by
  apply still_of_poison _ hp
  intro u
  rw [hs]
  by_cases hut : u = t
  · rw [hut, Function.update_self]
    rfl
  · rw [Function.update_of_ne hut]
    exact h.none_of_other t hw u hut

theorem set_isSome (p : Poison) (e : IoError) : (p.set e).isSome = true := by
  cases p with
  | none => rfl
  | some e => rfl

/-- A step that issues no write and returns no flushed end. -/
structure Silent (geo : Geometry) (s s' : LogSys) (a : LogAction) : Prop where
  issued : s.issued geo a = none
  ends : s'.flushedEnds = s.flushedEnds

theorem flushedEnds_respond (t : Tid) (r : Response) (hr : r.flushed? = none) :
    (s.respond t r).flushedEnds = s.flushedEnds := by
  simp [LogSys.flushedEnds, LogSys.respond, LogSys.setPc, hr]

theorem flushedEnds_of_respond (r : Response) (hr : r.flushed? = none)
    (h : s'.responses = s.responses ++ [r]) : s'.flushedEnds = s.flushedEnds := by
  simp [LogSys.flushedEnds, h, hr]

theorem Still.lockAppend (h : Still s) (t : Tid) (payload : Bytes) (frame : Option Bytes)
    (size : ℕ) (alloc : Option IoError) (hpc : s.pc t = .append payload frame size) :
    Still (s.lockAppend geo crc t payload frame size alloc) ∧
      (s.lockAppend geo crc t payload frame size alloc).flushedEnds = s.flushedEnds := by
  have hw : (s.pc t).writing = false := by rw [hpc]; rfl
  have hall := appendPass_allowed geo crc s.buf s.poison payload frame size alloc
  have hbusy : ¬ (s.poison = none ∧ s.buf.flushing.isSome = false) := by
    intro hn
    have hp := h.poisoned hn.2
    rw [hn.1] at hp
    cases hp
  unfold LogSys.lockAppend
  cases hpass : s.buf.appendPass geo crc s.poison payload frame size alloc with
  | fits b' start stop =>
    rw [hpass] at hall
    exact ⟨h.of_pc t .idle hw rfl rfl hall rfl, flushedEnds_of_respond _ rfl rfl⟩
  | wait => exact ⟨h, rfl⟩
  | rotate b' w =>
    rw [hpass] at hall
    exact absurd ⟨hall.1, hall.2.1⟩ hbusy
  | oversize b' w =>
    rw [hpass] at hall
    exact absurd ⟨hall.1, hall.2.1⟩ hbusy
  | fail e => exact ⟨h.of_pc t .idle hw rfl rfl rfl rfl, flushedEnds_of_respond _ rfl rfl⟩

theorem Still.callBatch (h : Still s) (t : Tid) (records : List Bytes) (hpc : s.pc t = .idle) :
    Still (s.callBatch geo crc t records) ∧
      (s.callBatch geo crc t records).flushedEnds = s.flushedEnds := by
  have hw : (s.pc t).writing = false := by rw [hpc]; rfl
  have hf := tryAppendFramesBatched_flushing geo crc s.buf records (framesLen records)
  unfold LogSys.callBatch
  split
  · rename_i heq
    rw [heq] at hf
    exact ⟨h.of_pc t .idle hw rfl rfl hf rfl, flushedEnds_of_respond _ rfl rfl⟩
  · rename_i heq
    rw [heq] at hf
    exact ⟨h.of_pc t .idle hw rfl rfl hf rfl, flushedEnds_of_respond _ rfl rfl⟩
  · rename_i heq
    rw [heq] at hf
    exact ⟨h.of_pc t .idle hw rfl rfl hf rfl, flushedEnds_of_respond _ rfl rfl⟩

/-- Behind a failed write no write is issued and no flush returns. -/
theorem Still.next (h : Still s) (a : LogAction) (hn : s.next geo crc a = some s') :
    Still s' ∧ Silent geo s s' a := by
  cases a with
  | callAppend t payload =>
    simp only [LogSys.next] at hn
    split at hn
    · rename_i hpc
      have hw : (s.pc t).writing = false := by rw [hpc]; rfl
      cases hn
      rcases callAppend_shape geo crc s t payload with ⟨frame, size, heq⟩ | ⟨-, e, heq⟩
      · rw [heq]
        exact ⟨h.of_pc t _ hw rfl rfl rfl rfl, rfl, rfl⟩
      · rw [heq]
        exact ⟨h.of_pc t .idle hw rfl rfl rfl rfl, rfl, flushedEnds_respond t _ rfl⟩
    · cases hn
  | lockAppend t alloc =>
    simp only [LogSys.next] at hn
    split at hn
    · rename_i payload frame size hpc
      cases hn
      obtain ⟨hstill, hends⟩ : Still (s.lockAppend geo crc t payload frame size alloc) ∧ _ :=
        h.lockAppend t payload frame size alloc hpc
      exact ⟨hstill, rfl, hends⟩
    · cases hn
  | land t outcome =>
    -- a thread that would issue its write has not failed
    have hno : ∀ pc, s.pc t = pc → pc.writing = true → pc.failed = false → False := by
      intro pc hpc hw hf
      have hfail := (h.failed t (by rw [hpc]; exact hw)).1
      rw [hpc, hf] at hfail
      cases hfail
    simp only [LogSys.next] at hn
    split at hn
    · rename_i hpc
      exact (hno _ hpc rfl rfl).elim
    · rename_i hpc
      exact (hno _ hpc rfl rfl).elim
    · cases hn
  | finish t =>
    simp only [LogSys.next] at hn
    split at hn
    · rename_i payload frame size w result hpc
      have hw : (s.pc t).writing = true := by rw [hpc]; rfl
      have hfail := (h.failed t hw).1
      rw [hpc] at hfail
      cases result with
      | ok u => cases hfail
      | error e =>
        cases hn
        exact ⟨h.settled t hw rfl (set_isSome s.poison e), rfl, flushedEnds_of_respond _ rfl rfl⟩
    · rename_i payload w result hpc
      have hw : (s.pc t).writing = true := by rw [hpc]; rfl
      have hfail := (h.failed t hw).1
      rw [hpc] at hfail
      cases result with
      | ok u => cases hfail
      | error e =>
        cases hn
        exact ⟨h.settled t hw rfl (set_isSome s.poison e), rfl, flushedEnds_of_respond _ rfl rfl⟩
    · cases hn
  | callBatch t records =>
    simp only [LogSys.next] at hn
    split at hn
    · rename_i hpc
      split at hn
      · cases hn
        obtain ⟨hstill, hends⟩ : Still (s.callBatch geo crc t records) ∧ _ :=
          h.callBatch t records hpc
        exact ⟨hstill, rfl, hends⟩
      · cases hn
    · cases hn
  | callFlush t =>
    simp only [LogSys.next] at hn
    split at hn
    · rename_i hpc
      have hw : (s.pc t).writing = false := by rw [hpc]; rfl
      cases hn
      exact ⟨h.of_pc t .flush hw rfl rfl rfl rfl, rfl, rfl⟩
    · cases hn
  | lockFlush t outcome =>
    simp only [LogSys.next] at hn
    split at hn
    · rename_i hpc
      have hw : (s.pc t).writing = false := by rw [hpc]; rfl
      split at hn
      · cases hn
      · rename_i hf
        cases hn
        have hp := h.poisoned (by simpa using hf)
        have hissued : s.issued geo (.lockFlush t outcome) = none := by
          simp only [LogSys.issued, hp, if_true]
        obtain ⟨e, he⟩ := Option.isSome_iff_exists.mp hp
        have hstep : s.lockFlush geo t outcome = s.respond t (.flushFailed t (Poison.error e)) := by
          unfold LogSys.lockFlush
          rw [he]
          rfl
        rw [hstep]
        exact ⟨h.of_pc t .idle hw rfl rfl rfl rfl, hissued, flushedEnds_respond t _ rfl⟩
    · cases hn

/-! ### While no write has failed -/

/-- The state without the poison, with the resume point among the flushed ends. -/
def LogSys.healed (n : ℕ) (s : LogSys) : LogSys :=
  { s with poison := none, responses := .flushed 0 n :: s.responses }

@[simp] theorem healed_logical (n : ℕ) (s : LogSys) :
    (s.healed n).logical crc resume = s.logical crc resume := rfl

@[simp] theorem healed_flushedEnds (n : ℕ) (s : LogSys) :
    (s.healed n).flushedEnds = n :: s.flushedEnds := rfl

theorem healed_respond (n : ℕ) (s : LogSys) (t : Tid) (r : Response) :
    (s.respond t r).healed n = (s.healed n).respond t r := rfl

theorem healed_callAppend (n : ℕ) (s : LogSys) (t : Tid) (payload : Bytes) :
    (s.healed n).callAppend geo crc t payload = (s.callAppend geo crc t payload).healed n := by
  unfold LogSys.callAppend
  cases frameLen payload.length with
  | error e => rfl
  | ok size =>
    dsimp only
    split
    · cases encodeFrameOwned crc payload with
      | error e => rfl
      | ok frame => rfl
    · rfl

theorem healed_callBatch (n : ℕ) (s : LogSys) (t : Tid) (records : List Bytes) :
    (s.healed n).callBatch geo crc t records = (s.callBatch geo crc t records).healed n := by
  unfold LogSys.callBatch
  rw [show (s.healed n).buf = s.buf from rfl]
  split <;> rfl

theorem healed_lockAppend (n : ℕ) (s : LogSys) (hp : s.poison = none) (t : Tid) (payload : Bytes)
    (frame : Option Bytes) (size : ℕ) (alloc : Option IoError) :
    (s.healed n).lockAppend geo crc t payload frame size alloc =
      (s.lockAppend geo crc t payload frame size alloc).healed n := by
  unfold LogSys.lockAppend
  rw [show (s.healed n).buf = s.buf from rfl, show (s.healed n).poison = none from rfl, hp]
  cases s.buf.appendPass geo crc none payload frame size alloc <;> rfl

theorem healed_lockFlush (n : ℕ) (s : LogSys) (hp : s.poison = none) (t : Tid) :
    (s.healed n).lockFlush geo t .done = (s.lockFlush geo t .done).healed n := by
  unfold LogSys.lockFlush
  rw [show (s.healed n).buf = s.buf from rfl, show (s.healed n).poison = none from rfl, hp]
  dsimp only [Poison.check]
  cases s.buf.partialWrite geo with
  | none => rfl
  | some w => rfl

/-- A step that does not ask for the poison. -/
def LogAction.blind : LogAction → Bool
  | .lockAppend _ _ => false
  | .lockFlush _ _ => false
  | _ => true

/-- A step whose write succeeds is one of the healed state, unless the poison stops it. -/
theorem healed_next (n : ℕ) (a : LogAction) (ha : a.Succeeds)
    (hgood : ∀ t, (s.pc t).failed = false) (hp : a.blind = true ∨ s.poison = none)
    (hn : s.next geo crc a = some s') :
    (s.healed n).next geo crc a = some (s'.healed n) := by
  have hpcs : (s.healed n).pc = s.pc := rfl
  have hbuf : (s.healed n).buf = s.buf := rfl
  cases a with
  | callAppend t payload =>
    simp only [LogSys.next, hpcs] at hn ⊢
    split at hn
    · cases hn
      rw [healed_callAppend]
    · cases hn
  | lockAppend t alloc =>
    have hnone := hp.resolve_left (by simp [LogAction.blind])
    simp only [LogSys.next, hpcs] at hn ⊢
    split at hn
    · cases hn
      rw [healed_lockAppend n s hnone]
    · cases hn
  | land t outcome =>
    cases outcome with
    | failed landed e => exact ha.elim
    | done =>
      simp only [LogSys.next, hpcs] at hn ⊢
      split at hn
      · cases hn
        rfl
      · cases hn
        rfl
      · cases hn
  | finish t =>
    simp only [LogSys.next, hpcs] at hn ⊢
    have hfail := hgood t
    split at hn
    · rename_i payload frame size w result hpc
      rw [hpc] at hfail
      cases result with
      | error e => cases hfail
      | ok u =>
        cases hn
        rfl
    · rename_i payload w result hpc
      rw [hpc] at hfail
      cases result with
      | error e => cases hfail
      | ok u =>
        cases hn
        rfl
    · cases hn
  | callBatch t records =>
    simp only [LogSys.next, hpcs] at hn ⊢
    split at hn
    · split at hn
      · rename_i hrecords
        cases hn
        rw [if_pos hrecords, healed_callBatch]
      · cases hn
    · cases hn
  | callFlush t =>
    simp only [LogSys.next, hpcs] at hn ⊢
    split at hn
    · cases hn
      rfl
    · cases hn
  | lockFlush t outcome =>
    have hnone := hp.resolve_left (by simp [LogAction.blind])
    cases outcome with
    | failed landed e => exact ha.elim
    | done =>
      simp only [LogSys.next, hpcs, hbuf] at hn ⊢
      split at hn
      · split at hn
        · cases hn
        · rename_i hf
          cases hn
          rw [if_neg hf, healed_lockFlush n s hnone]
      · cases hn

theorem writer_not_failed {L : Bytes} {pc : Pc} (h : WriterAt geo L junk s pc) :
    pc.failed = false := by
  unfold WriterAt at h
  split at h
  · rfl
  · rfl
  · rfl
  · rfl
  · exact h.elim

theorem LogInv.not_failed (h : LogInv geo crc resume junk s) (t : Tid) :
    (s.pc t).failed = false := by
  cases hw : (s.pc t).writing with
  | true =>
    obtain ⟨-, owner⟩ := h.writer.of_writing t hw
    exact writer_not_failed owner
  | false =>
    cases hpc : s.pc t with
    | rotated payload frame size w result =>
      rw [hpc] at hw
      cases hw
    | oversized payload w result =>
      rw [hpc] at hw
      cases hw
    | _ => rfl

/-- The end of a slot or of a scratch buffer is padding. -/
theorem agrees_of_slice (L : Bytes) (pos hi k : ℕ) (hhi : hi ≤ L.length) :
    AgreesBelow L hi (pos, (L.take hi).drop pos ++ zeros k) := by
  intro p h1 h2 h3
  dsimp only at h1 ⊢
  have hlen : ((L.take hi).drop pos).length = hi - pos := by
    rw [List.length_drop, List.length_take_of_le hhi]
  have hpos : pos + (p - pos) = p := by omega
  rw [List.getElem?_append_left (by omega), List.getElem?_drop, hpos,
    List.getElem?_take_of_lt h3]

theorem RotOk.agrees {L : Bytes} {b : LogState} {w : SlotWrite} (h : RotOk geo L b w) :
    AgreesBelow L (w.oldFlushPos + w.oldLen)
      (w.oldFlushPos, (b.slots w.oldIdx).take w.writeLen) := by
  have hstop := h.stop_le
  have hlen : ((L.take (w.oldFlushPos + w.oldLen)).drop w.oldFlushPos).length = w.oldLen := by
    rw [List.length_drop, List.length_take_of_le hstop]
    omega
  have htake := take_slot geo ((L.take (w.oldFlushPos + w.oldLen)).drop w.oldFlushPos) (by
    rw [hlen]
    exact h.len_le)
  rw [hlen, ← h.slot_eq, ← h.write_eq] at htake
  rw [htake]
  exact agrees_of_slice L _ _ _ hstop

theorem OversizeOk.agrees {L : Bytes} {b : LogState} {w : ScratchWrite}
    (h : OversizeOk geo L b w) :
    AgreesBelow L (w.recordStart + w.frameSize) (w.startPos, w.scratch) := by
  obtain ⟨k, hk⟩ := h.scratch_eq
  rw [hk]
  exact agrees_of_slice L _ _ _ h.stop_le

theorem BufOk.agrees {L : Bytes} {b : LogState} (h : BufOk geo L b) {w : ℕ × Bytes}
    (hw : b.partialWrite geo = some w) : AgreesBelow L L.length w := by
  unfold LogState.partialWrite at hw
  split at hw
  · cases hw
  · cases hw
    have htake := take_slot geo (L.drop b.activeFlushPos) (by
      rw [h.length_tail]
      exact h.len_le)
    rw [h.length_tail, ← h.active_eq] at htake
    rw [htake]
    have hslice := agrees_of_slice L b.activeFlushPos L.length
      (roundUp b.activeLen geo.sectorSize - b.activeLen) (Nat.le_refl _)
    rw [List.take_length] at hslice
    exact hslice

theorem Frontier.end_le {L file : Bytes} {ends : List ℕ} {lo hi : ℕ}
    (h : Frontier L junk file ends lo hi) {stop : ℕ} (hs : stop ∈ ends) : stop ≤ hi := by
  obtain ⟨e, -, hhi, hends, -⟩ := h
  have := hends stop hs
  omega

/-- Below every flushed end a write has the bytes of the log. -/
theorem issued_agrees {n : ℕ} (h : LogInv geo crc resume junk (s.healed n)) (a : LogAction)
    (hn : s.next geo crc a = some s') {w : ℕ × Bytes} (hw : s.issued geo a = some w) (stop : ℕ)
    (hs : stop ∈ n :: s.flushedEnds) : AgreesBelow (s.logical crc resume) stop w := by
  have hends : stop ∈ (s.healed n).flushedEnds := hs
  cases a with
  | land t outcome =>
    simp only [LogSys.issued, LogSys.pendingWrite] at hw
    split at hw
    · rename_i payload frame size rot hpc
      have hpc' : (s.healed n).pc t = .rotating payload frame size rot := hpc
      cases hw
      obtain ⟨-, owner⟩ := h.writer.of_writing t (by rw [hpc']; rfl)
      rw [hpc'] at owner
      obtain ⟨hrot, hfront, -⟩ := owner
      exact hrot.agrees.mono (hfront.end_le hends)
    · rename_i payload large hpc
      have hpc' : (s.healed n).pc t = .oversizing payload large := hpc
      cases hw
      obtain ⟨-, owner⟩ := h.writer.of_writing t (by rw [hpc']; rfl)
      rw [hpc'] at owner
      obtain ⟨hlarge, hfront, -⟩ := owner
      exact hlarge.agrees.mono (hfront.end_le hends)
    · cases hw
  | lockFlush t outcome =>
    simp only [LogSys.issued] at hw
    simp only [LogSys.next] at hn
    split at hn
    · split at hn
      · cases hn
      · rename_i hf
        have hidle : s.buf.flushing = none := by simpa using hf
        obtain ⟨-, -, hfront, -⟩ := h.writer.of_idle hidle
        split at hw
        · cases hw
        · exact (h.buf.agrees hw).mono (hfront.end_le hends)
    · cases hn
  | _ => cases hw

/-- The thread whose write failed. -/
theorem still_of_failed {n : ℕ} (h : LogInv geo crc resume junk (s.healed n)) (t : Tid)
    (hw : (s.pc t).writing = true) (pc : Pc) (hpc : pc.failed = true)
    (hs : s'.pc = Function.update s.pc t pc) (hf : s'.buf.flushing = s.buf.flushing)
    (hpcw : pc.writing = true) : Still s' := by
  obtain ⟨others, owner⟩ := h.writer.of_writing t hw
  have hbusy : s'.buf.flushing.isSome = true := by
    rw [hf]
    exact Option.isSome_iff_ne_none.mpr owner.busy
  have honly : ∀ u, (s'.pc u).writing = true → u = t := by
    intro u hu
    by_contra hut
    have hother : (s.pc u).writing = false := others u hut
    rw [hs, Function.update_of_ne hut, hother] at hu
    cases hu
  have hself : s'.pc t = pc := by rw [hs, Function.update_self]
  refine ⟨?_, ?_, Or.inr ⟨t, by rw [hself]; exact hpcw⟩⟩
  · intro u v hu hv
    rw [honly u hu, honly v hv]
  · intro u hu
    rw [honly u hu, hself]
    exact ⟨hpc, hbusy⟩

/-- As long as no write has failed the log buffer goes on as without the poison. -/
theorem healed_step {n : ℕ} (h : LogInv geo crc resume junk (s.healed n)) (a : LogAction)
    (hn : s.next geo crc a = some s') :
    LogInv geo crc resume junk (s'.healed n) ∨ (Still s' ∧ s'.flushedEnds = s.flushedEnds) := by
  have hgood : ∀ t, (s.pc t).failed = false := fun t => h.not_failed t
  have hstep : a.Succeeds → (a.blind = true ∨ s.poison = none) →
      LogInv geo crc resume junk (s'.healed n) :=
    fun ha hp => h.next a ha (healed_next n a ha hgood hp hn)
  cases a with
  | callAppend t payload => exact Or.inl (hstep trivial (Or.inl rfl))
  | finish t => exact Or.inl (hstep trivial (Or.inl rfl))
  | callBatch t records => exact Or.inl (hstep trivial (Or.inl rfl))
  | callFlush t => exact Or.inl (hstep trivial (Or.inl rfl))
  | lockAppend t alloc =>
    cases hp : s.poison with
    | none => exact Or.inl (hstep trivial (Or.inr hp))
    | some e =>
      simp only [LogSys.next] at hn
      split at hn
      · rename_i payload frame size hpc
        have hw : ((s.healed n).pc t).writing = false := by
          show (s.pc t).writing = false
          rw [hpc]
          rfl
        cases hn
        have hfail : s.lockAppend geo crc t payload frame size alloc =
            s.respond t (.appendFailed t (Poison.error e)) := by
          unfold LogSys.lockAppend
          rw [hp, appendPass_poisoned]
        rw [hfail, healed_respond]
        exact Or.inl (h.respond t hw _ rfl rfl)
      · cases hn
  | land t outcome =>
    cases outcome with
    | done => exact Or.inl (hstep trivial (Or.inl rfl))
    | failed landed e =>
      simp only [LogSys.next] at hn
      split at hn
      · rename_i payload frame size w hpc
        cases hn
        have hw : (s.pc t).writing = true := by rw [hpc]; rfl
        exact Or.inr ⟨still_of_failed h t hw _ rfl rfl rfl rfl, rfl⟩
      · rename_i payload w hpc
        cases hn
        have hw : (s.pc t).writing = true := by rw [hpc]; rfl
        exact Or.inr ⟨still_of_failed h t hw _ rfl rfl rfl rfl, rfl⟩
      · cases hn
  | lockFlush t outcome =>
    cases hp : s.poison with
    | some e =>
      simp only [LogSys.next] at hn
      split at hn
      · rename_i hpc
        have hw : ((s.healed n).pc t).writing = false := by
          show (s.pc t).writing = false
          rw [hpc]
          rfl
        split at hn
        · cases hn
        · cases hn
          have hfail : s.lockFlush geo t outcome =
              s.respond t (.flushFailed t (Poison.error e)) := by
            unfold LogSys.lockFlush
            rw [hp]
            rfl
          rw [hfail, healed_respond]
          exact Or.inl (h.respond t hw _ rfl rfl)
      · cases hn
    | none =>
      cases outcome with
      | done => exact Or.inl (hstep trivial (Or.inr hp))
      | failed landed e =>
        simp only [LogSys.next] at hn
        split at hn
        · rename_i hpc
          split at hn
          · cases hn
          · rename_i hf
            have hidle : s.buf.flushing = none := by simpa using hf
            obtain ⟨hnone, -⟩ := h.writer.of_idle hidle
            cases hn
            unfold LogSys.lockFlush
            rw [hp]
            dsimp only [Poison.check]
            cases hw : s.buf.partialWrite geo with
            | none =>
              -- nothing was buffered, the outcome does not matter
              have hflush := h.lockFlush t hidle
              rw [healed_lockFlush n s hp t] at hflush
              unfold LogSys.lockFlush at hflush
              rw [hp] at hflush
              dsimp only [Poison.check] at hflush
              rw [hw] at hflush
              exact Or.inl hflush
            | some w =>
              refine Or.inr ⟨still_of_poison ?_ rfl, flushedEnds_of_respond _ rfl rfl⟩
              intro u
              exact none_update t .idle rfl (fun v _ => hnone v) u
        · cases hn

/-! ### Payloads -/

/-- The record a thread of the log buffer is to append. -/
def Pc.payload? : Pc → Option Bytes
  | .append payload _ _ => some payload
  | .rotating payload _ _ _ => some payload
  | .rotated payload _ _ _ _ => some payload
  | _ => none

/-- Every record is within the maximum. -/
structure AllFit (s : LogSys) : Prop where
  log : ∀ p ∈ s.payloads, Fits p
  calls : ∀ t p, (s.pc t).payload? = some p → Fits p

theorem AllFit.of_pc (h : AllFit s) (t : Tid) (pc : Pc) (hpc : ∀ p, pc.payload? = some p → Fits p)
    (hs : s'.pc = Function.update s.pc t pc) (hlog : ∀ p ∈ s'.payloads, Fits p) : AllFit s' := by
  refine ⟨hlog, ?_⟩
  intro u p hp
  rw [hs] at hp
  by_cases hut : u = t
  · rw [hut, Function.update_self] at hp
    exact hpc p hp
  · rw [Function.update_of_ne hut] at hp
    exact h.calls u p hp

/-- A thread that has no record to append. -/
theorem AllFit.of_idle (h : AllFit s) (t : Tid) (pc : Pc) (hpc : pc.payload? = none)
    (hs : s'.pc = Function.update s.pc t pc) (hlog : ∀ p ∈ s'.payloads, Fits p) : AllFit s' := by
  refine h.of_pc t pc ?_ hs hlog
  intro p hp
  rw [hpc] at hp
  cases hp

theorem payloads_snoc (log : List Assigned) (a : Assigned) (hlog : s.log = log)
    (hlog' : s'.log = log ++ [a]) : s'.payloads = s.payloads ++ a.payloads := by
  simp [LogSys.payloads, hlog, hlog']

theorem AllFit.snoc (h : AllFit s) (a : Assigned) (ha : ∀ p ∈ a.payloads, Fits p)
    (hlog : s'.log = s.log ++ [a]) : ∀ p ∈ s'.payloads, Fits p := by
  intro p hp
  rw [payloads_snoc s.log a rfl hlog] at hp
  rcases List.mem_append.mp hp with hp | hp
  · exact h.log p hp
  · exact ha p hp

theorem AllFit.lockAppend (h : AllFit s) (t : Tid) (payload : Bytes) (frame : Option Bytes)
    (size : ℕ) (alloc : Option IoError) (hfit : Fits payload) :
    AllFit (s.lockAppend geo crc t payload frame size alloc) := by
  have hone : ∀ p ∈ [payload], Fits p := by
    intro p hp
    rw [List.mem_singleton.mp hp]
    exact hfit
  have hsame : ∀ p, some payload = some p → Fits p := by
    intro p hp
    cases hp
    exact hfit
  unfold LogSys.lockAppend
  split
  · exact h.of_pc t .idle nofun rfl (h.snoc _ hone rfl)
  · exact h
  · exact h.of_pc t (.rotating payload frame size _) hsame rfl h.log
  · exact h.of_pc t (.oversizing payload _) nofun rfl (h.snoc _ hone rfl)
  · exact h.of_pc t .idle nofun rfl h.log

/-- Oversize records are refused before anything happens. -/
theorem AllFit.next (h : AllFit s) (a : LogAction) (hn : s.next geo crc a = some s') :
    AllFit s' := by
  cases a with
  | callAppend t payload =>
    simp only [LogSys.next] at hn
    split at hn
    · cases hn
      by_cases hfit : Fits payload
      · rcases callAppend_shape geo crc s t payload with ⟨frame, size, heq⟩ | ⟨hno, -⟩
        · rw [heq]
          refine h.of_pc t (.append payload frame size) ?_ rfl h.log
          intro p hp
          cases hp
          exact hfit
        · exact absurd hfit hno
      · unfold LogSys.callAppend
        rw [frameLen_error payload hfit]
        exact h.of_idle t .idle rfl rfl h.log
    · cases hn
  | lockAppend t alloc =>
    simp only [LogSys.next] at hn
    split at hn
    · rename_i payload frame size hpc
      cases hn
      exact h.lockAppend t payload frame size alloc (h.calls t payload (by rw [hpc]; rfl))
    · cases hn
  | land t outcome =>
    simp only [LogSys.next] at hn
    split at hn
    · rename_i payload frame size w hpc
      cases hn
      refine h.of_pc t (.rotated payload frame size w outcome.result) ?_ rfl h.log
      intro p hp
      exact h.calls t p (by rw [hpc]; exact hp)
    · rename_i payload w hpc
      cases hn
      exact h.of_idle t (.oversized payload w outcome.result) rfl rfl h.log
    · cases hn
  | finish t =>
    simp only [LogSys.next] at hn
    split at hn
    · rename_i payload frame size w result hpc
      cases hn
      unfold LogSys.finishRotate
      split
      · refine h.of_pc t (.append payload frame size) ?_ rfl h.log
        intro p hp
        exact h.calls t p (by rw [hpc]; exact hp)
      · exact h.of_idle t .idle rfl rfl h.log
    · cases hn
      unfold LogSys.finishOversize
      split
      · exact h.of_idle t .idle rfl rfl h.log
      · exact h.of_idle t .idle rfl rfl h.log
    · cases hn
  | callBatch t records =>
    simp only [LogSys.next] at hn
    split at hn
    · split at hn
      · rename_i hrecords
        cases hn
        unfold LogSys.callBatch
        split
        · exact h.of_idle t .idle rfl rfl h.log
        · exact h.of_idle t .idle rfl rfl h.log
        · exact h.of_idle t .idle rfl rfl (h.snoc _ hrecords.2 rfl)
      · cases hn
    · cases hn
  | callFlush t =>
    simp only [LogSys.next] at hn
    split at hn
    · cases hn
      exact h.of_idle t .flush rfl rfl h.log
    · cases hn
  | lockFlush t outcome =>
    simp only [LogSys.next] at hn
    split at hn
    · split at hn
      · cases hn
      · cases hn
        unfold LogSys.lockFlush
        split
        · exact h.of_idle t .idle rfl rfl h.log
        · split
          · exact h.of_idle t .idle rfl rfl h.log
          · split
            · exact h.of_idle t .idle rfl rfl h.log
            · exact h.of_idle t .idle rfl rfl h.log
    · cases hn

/-! ### The file under failing writes -/

theorem LogSys.Extends.logical (h : s.Extends s') :
    ∃ more, s'.logical crc resume = s.logical crc resume ++ more := by
  obtain ⟨⟨new, hlog⟩, -⟩ := h
  refine ⟨framesBytes crc (new.flatMap Assigned.payloads), ?_⟩
  unfold LogSys.logical LogSys.payloads
  rw [hlog, List.flatMap_append, framesBytes_append, List.append_assoc]

theorem LogSys.Extends.ends (h : s.Extends s') {stop : ℕ} (hs : stop ∈ s.flushedEnds) :
    stop ∈ s'.flushedEnds := by
  obtain ⟨-, rs, hresp⟩ := h
  rw [LogSys.flushedEnds, hresp, List.filterMap_append]
  exact List.mem_append_left _ hs

/-- The file holds the log below the resume point and below every flushed end. -/
structure FileInv (geo : Geometry) (crc : Crc) (resume junk : Bytes) (s : LogSys) : Prop where
  ends : ∀ stop ∈ resume.length :: s.flushedEnds, stop ≤ (s.logical crc resume).length ∧
    s.file.take stop = (s.logical crc resume).take stop
  phase : LogInv geo crc resume junk (s.healed resume.length) ∨ Still s
  fits : AllFit s

theorem fileInv_of_healed (h : LogInv geo crc resume junk (s.healed resume.length))
    (hfit : AllFit s) : FileInv geo crc resume junk s := by
  refine ⟨?_, Or.inl h, hfit⟩
  intro stop hs
  obtain ⟨hle, htake, -⟩ := h.flushed_stays Reach.start stop hs
  exact ⟨by rw [← h.buf.len_eq] at hle; exact hle, htake⟩

/-- Whatever the outcome of its write, a step leaves the file as it has to be. -/
theorem FileInv.next (h : FileInv geo crc resume junk s) (a : LogAction)
    (hn : s.next geo crc a = some s') : FileInv geo crc resume junk s' ∧
      ∀ w, s.issued geo a = some w → ∀ stop ∈ resume.length :: s.flushedEnds,
        AgreesBelow (s.logical crc resume) stop w := by
  have hagrees : ∀ w, s.issued geo a = some w → ∀ stop ∈ resume.length :: s.flushedEnds,
      AgreesBelow (s.logical crc resume) stop w := by
    intro w hw stop hs
    rcases h.phase with hinv | hstill
    · exact issued_agrees hinv a hn hw stop hs
    · rw [(hstill.next a hn).2.issued] at hw
      cases hw
  refine ⟨?_, hagrees⟩
  -- a step that returns no new end: part of a write that agrees with the log
  have hold : Still s' → s'.flushedEnds = s.flushedEnds → FileInv geo crc resume junk s' := by
    intro hstill hends
    obtain ⟨more, hmore⟩ : ∃ more, s'.logical crc resume = s.logical crc resume ++ more :=
      (next_extends a hn).logical
    refine ⟨?_, Or.inr hstill, h.fits.next a hn⟩
    intro stop hs
    rw [hends] at hs
    obtain ⟨hle, htake⟩ := h.ends stop hs
    rw [hmore, List.length_append, List.take_append_of_le_length hle]
    refine ⟨by omega, ?_⟩
    rcases file_of_issued a hn with hsame | ⟨w, done, hw, hfile⟩
    · rw [hsame, htake]
    · rw [hfile]
      exact (hagrees w hw stop hs).take_overlay htake hle done
  rcases h.phase with hinv | hstill
  · rcases healed_step hinv a hn with hinv' | ⟨hstill, hends⟩
    · exact fileInv_of_healed hinv' (h.fits.next a hn)
    · exact hold hstill hends
  · obtain ⟨hstill', hsilent⟩ := hstill.next a hn
    exact hold hstill' hsilent.ends

end Fsys.Journal
