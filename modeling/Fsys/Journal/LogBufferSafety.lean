import Fsys.Journal.LogBufferInv
import Mathlib.Data.List.Perm.Basic

/-!
# The log buffer under any interleaving (src/journal/log_buffer.rs:390-758)

One invariant for the whole system: at most one thread has a write in flight,
the file holds the log up to a frontier that write respects, and every range
that was assigned is returned or belongs to the oversize record in flight.
Each action keeps it; what the module documentation promises follows.
-/

namespace Fsys.Journal
open Fsys.Base

/-! ### History -/

/-- Ranges in a row, each as long as the frames in it. -/
def Tiles : ℕ → List Assigned → ℕ → Prop
  | start, [], stop => start = stop
  | start, a :: as, stop => a.start = start ∧ a.stop = start + framesLen a.payloads ∧
      Tiles a.stop as stop

theorem Tiles.snoc {start stop : ℕ} {log : List Assigned} (h : Tiles start log stop)
    (payloads : List Bytes) :
    Tiles start (log ++ [⟨stop, stop + framesLen payloads, payloads⟩])
      (stop + framesLen payloads) := by
  induction log generalizing start with
  | nil =>
    cases h
    exact ⟨rfl, rfl, rfl⟩
  | cons a as ih =>
    obtain ⟨hs, he, htail⟩ := h
    exact ⟨hs, he, ih htail⟩

theorem Tiles.le {start stop : ℕ} {log : List Assigned} (h : Tiles start log stop) :
    start ≤ stop := by
  induction log generalizing start with
  | nil => exact Nat.le_of_eq h
  | cons a as ih =>
    obtain ⟨-, he, htail⟩ := h
    have := ih htail
    omega

theorem Tiles.start_le {start stop : ℕ} {log : List Assigned} (h : Tiles start log stop) :
    ∀ a ∈ log, start ≤ a.start := by
  induction log generalizing start with
  | nil => intro a ha; cases ha
  | cons a as ih =>
    obtain ⟨hs, he, htail⟩ := h
    intro c hc
    rcases List.mem_cons.mp hc with rfl | hmem
    · exact Nat.le_of_eq hs.symm
    · have := ih htail c hmem
      omega

/-- Tiled ranges do not overlap. -/
theorem Tiles.pairwise {start stop : ℕ} {log : List Assigned} (h : Tiles start log stop) :
    log.Pairwise fun a c => a.stop ≤ c.start := by
  induction log generalizing start with
  | nil => exact List.Pairwise.nil
  | cons a as ih =>
    obtain ⟨-, -, htail⟩ := h
    exact List.Pairwise.cons (htail.start_le) (ih htail)

namespace LogSys

/-- The payloads in LSN order. -/
def payloads (s : LogSys) : List Bytes := s.log.flatMap Assigned.payloads

/-- The resume contents and the frames behind them. -/
def logical (crc : Crc) (resume : Bytes) (s : LogSys) : Bytes :=
  resume ++ framesBytes crc s.payloads

/-- The ranges returned to callers. -/
def ranges (s : LogSys) : List Assigned := s.responses.filterMap Response.range?

/-- The ends that `flush_partial` returned. -/
def flushedEnds (s : LogSys) : List ℕ := s.responses.filterMap Response.flushed?

end LogSys

/-! ### The invariant -/

/-- The thread owns the write in flight. -/
def Pc.writing : Pc → Bool
  | .rotating .. => true
  | .rotated .. => true
  | .oversizing .. => true
  | .oversized .. => true
  | _ => false

/-- What `append_frame` has computed before its loop. -/
structure CallOk (crc : Crc) (payload : Bytes) (frame : Option Bytes) (frameSize : ℕ) : Prop where
  fits : Fits payload
  size_eq : frameSize = payload.length + frameOverhead
  frame_eq : ∀ f, frame = some f → f = frameBytes crc payload

def Pc.Ok (crc : Crc) : Pc → Prop
  | .append payload frame size => CallOk crc payload frame size
  | .rotating payload frame size _ => CallOk crc payload frame size
  | .rotated payload frame size _ _ => CallOk crc payload frame size
  | _ => True

/-- The file holds the log up to a frontier between `lo` and `hi` that covers every end in
`ends`. -/
def Frontier (L junk file : Bytes) (ends : List ℕ) (lo hi : ℕ) : Prop :=
  ∃ e, lo ≤ e ∧ e ≤ hi ∧ (∀ x ∈ ends, x ≤ e) ∧ OnDisk L junk file e

theorem Frontier.grow {L junk file : Bytes} {ends : List ℕ} {lo hi : ℕ}
    (h : Frontier L junk file ends lo hi) (more : Bytes) (hi' : ℕ) (hle : hi ≤ hi') :
    Frontier (L ++ more) junk file ends lo hi' := by
  obtain ⟨e, hlo, hhi, hends, hdisk⟩ := h
  exact ⟨e, hlo, by omega, hends, hdisk.grow more⟩

/-- The range of an oversize record. -/
def ScratchWrite.range (w : ScratchWrite) (payload : Bytes) : Assigned :=
  ⟨w.recordStart, w.recordStart + w.frameSize, [payload]⟩

/-- What holds while the thread that stands at this place owns the write in flight: the
write it has to issue or has issued, the frontier on disk, and the returned ranges. -/
def WriterAt (geo : Geometry) (L junk : Bytes) (s : LogSys) : Pc → Prop
  | .rotating _ _ _ w => RotOk geo L s.buf w ∧
      Frontier L junk s.file s.flushedEnds w.oldFlushPos (w.oldFlushPos + w.oldLen) ∧
      s.ranges.Perm s.log
  | .rotated _ _ _ w (.ok ()) => RotOk geo L s.buf w ∧
      Frontier L junk s.file s.flushedEnds (w.oldFlushPos + w.oldLen) L.length ∧
      s.ranges.Perm s.log
  | .oversizing payload w => OversizeOk geo L s.buf w ∧
      Frontier L junk s.file s.flushedEnds w.startPos (w.recordStart + w.frameSize) ∧
      (s.ranges ++ [w.range payload]).Perm s.log
  | .oversized payload w (.ok ()) => OversizeOk geo L s.buf w ∧
      Frontier L junk s.file s.flushedEnds (w.recordStart + w.frameSize) L.length ∧
      (s.ranges ++ [w.range payload]).Perm s.log
  | _ => False

/-- At most one thread has a write in flight. -/
inductive Writer (geo : Geometry) (L junk : Bytes) (s : LogSys) : Prop where
  | quiet (idle : s.buf.flushing = none) (pcs : ∀ t, (s.pc t).writing = false)
      (dormant : s.buf.slots (!s.buf.activeIdx) = zeros geo.capacity)
      (disk : Frontier L junk s.file s.flushedEnds s.buf.activeFlushPos L.length)
      (returned : s.ranges.Perm s.log)
  | busy (t : Tid) (pc : Pc) (here : s.pc t = pc)
      (others : ∀ u, u ≠ t → (s.pc u).writing = false) (owner : WriterAt geo L junk s pc)

structure LogInv (geo : Geometry) (crc : Crc) (resume junk : Bytes) (s : LogSys) : Prop where
  buf : BufOk geo (s.logical crc resume) s.buf
  tiles : Tiles resume.length s.log s.buf.nextLsn
  fits : ∀ p ∈ s.payloads, Fits p
  pcs : ∀ t, (s.pc t).Ok crc
  healthy : s.poison = none
  writer : Writer geo (s.logical crc resume) junk s

variable {geo : Geometry} {crc : Crc} {resume junk L : Bytes} {s s' : LogSys}

/-! ### Steps that start no write -/

/-- What a step that starts and ends no write does to the rest of the system. -/
structure Calm (s s' : LogSys) (new : List Assigned) : Prop where
  file_eq : s'.file = s.file
  flushing_eq : s'.buf.flushing = s.buf.flushing
  idx_eq : s'.buf.activeIdx = s.buf.activeIdx
  pos_eq : s'.buf.activeFlushPos = s.buf.activeFlushPos
  dormant_eq : s'.buf.slots (!s.buf.activeIdx) = s.buf.slots (!s.buf.activeIdx)
  owner_eq : ∀ t, (s.pc t).writing = true → s'.pc t = s.pc t
  others_eq : ∀ t, (s.pc t).writing = false → (s'.pc t).writing = false
  ends_eq : s'.flushedEnds = s.flushedEnds
  ranges_eq : s'.ranges = s.ranges ++ new
  log_eq : s'.log = s.log ++ new

theorem RotOk.calm {w : SlotWrite} {new : List Assigned} (h : RotOk geo L s.buf w)
    (hc : Calm s s' new) (more : Bytes) : RotOk geo (L ++ more) s'.buf w := by
  have hstop := h.stop_le
  refine ⟨by rw [hc.flushing_eq, h.flushing_eq], by rw [hc.idx_eq, h.idx_eq], ?_, ?_, h.len_le,
    h.write_eq, ?_⟩
  · rw [List.length_append]
    omega
  · rw [hc.pos_eq]
    exact h.flush_le
  · rw [List.take_append_of_le_length hstop, ← h.slot_eq, h.idx_eq, hc.dormant_eq]

theorem OversizeOk.calm {w : ScratchWrite} {new : List Assigned} (h : OversizeOk geo L s.buf w)
    (hc : Calm s s' new) (more : Bytes) : OversizeOk geo (L ++ more) s'.buf w := by
  have hstop := h.stop_le
  obtain ⟨k, hk⟩ := h.scratch_eq
  refine ⟨by rw [hc.flushing_eq, h.flushing_eq], ?_, h.start_le, ?_, ?_, k, ?_⟩
  · rw [hc.idx_eq, hc.dormant_eq, h.dormant_eq]
  · rw [List.length_append]
    omega
  · rw [hc.pos_eq]
    exact h.flush_le
  · rw [List.take_append_of_le_length hstop]
    exact hk

theorem perm_snoc_append (as new log : List Assigned) (a : Assigned)
    (h : (as ++ [a]).Perm log) : (as ++ new ++ [a]).Perm (log ++ new) := by
  have h1 : (as ++ (new ++ [a])).Perm (as ++ ([a] ++ new)) :=
    List.Perm.append_left as List.perm_append_comm
  rw [List.append_assoc]
  refine h1.trans ?_
  rw [← List.append_assoc]
  exact h.append_right new

theorem WriterAt.writing {pc : Pc} (h : WriterAt geo L junk s pc) : pc.writing = true := by
  cases pc with
  | rotating | rotated | oversizing | oversized => rfl
  | idle | append | flush => exact h.elim

theorem WriterAt.busy {pc : Pc} (h : WriterAt geo L junk s pc) : s.buf.flushing ≠ none := by
  unfold WriterAt at h
  split at h
  · rw [h.1.flushing_eq]
    nofun
  · rw [h.1.flushing_eq]
    nofun
  · rw [h.1.flushing_eq]
    nofun
  · rw [h.1.flushing_eq]
    nofun
  · exact h.elim

theorem WriterAt.calm {new : List Assigned} {pc : Pc} (h : WriterAt geo L junk s pc)
    (hc : Calm s s' new) (more : Bytes) : WriterAt geo (L ++ more) junk s' pc := by
  have hlen : L.length ≤ (L ++ more).length := by
    rw [List.length_append]
    omega
  unfold WriterAt at h ⊢
  rw [hc.file_eq, hc.ends_eq, hc.ranges_eq, hc.log_eq]
  split at h
  · exact ⟨h.1.calm hc more, h.2.1.grow more _ (Nat.le_refl _), h.2.2.append_right new⟩
  · exact ⟨h.1.calm hc more, h.2.1.grow more _ hlen, h.2.2.append_right new⟩
  · exact ⟨h.1.calm hc more, h.2.1.grow more _ (Nat.le_refl _), perm_snoc_append _ _ _ _ h.2.2⟩
  · exact ⟨h.1.calm hc more, h.2.1.grow more _ hlen, perm_snoc_append _ _ _ _ h.2.2⟩
  · exact h.elim

theorem Writer.calm {new : List Assigned} (h : Writer geo L junk s) (hc : Calm s s' new)
    (more : Bytes) : Writer geo (L ++ more) junk s' := by
  cases h with
  | quiet idle pcs dormant disk returned =>
    refine .quiet (by rw [hc.flushing_eq, idle]) (fun t => hc.others_eq t (pcs t)) ?_ ?_ ?_
    · rw [hc.idx_eq, hc.dormant_eq, dormant]
    · rw [hc.file_eq, hc.ends_eq, hc.pos_eq]
      exact disk.grow more _ (by rw [List.length_append]; omega)
    · rw [hc.ranges_eq, hc.log_eq]
      exact returned.append_right new
  | busy t pc here others owner =>
    have hw : (s.pc t).writing = true := by rw [here, owner.writing]
    exact .busy t pc ((hc.owner_eq t hw).trans here) (fun u hu => hc.others_eq u (others u hu))
      (owner.calm hc more)

/-- A calm step keeps the invariant if it does so for the buffer and the history. -/
theorem LogInv.calm (h : LogInv geo crc resume junk s) (new : List Assigned)
    (hc : Calm s s' new) (hbuf : BufOk geo (s'.logical crc resume) s'.buf)
    (htiles : Tiles resume.length s'.log s'.buf.nextLsn)
    (hfits : ∀ a ∈ new, ∀ p ∈ a.payloads, Fits p) (hpcs : ∀ t, (s'.pc t).Ok crc)
    (hpoison : s'.poison = s.poison) : LogInv geo crc resume junk s' := by
  have hpay : s'.payloads = s.payloads ++ new.flatMap Assigned.payloads := by
    unfold LogSys.payloads
    rw [hc.log_eq, List.flatMap_append]
  have hlog : s'.logical crc resume =
      s.logical crc resume ++ framesBytes crc (new.flatMap Assigned.payloads) := by
    unfold LogSys.logical
    rw [hpay, framesBytes_append, List.append_assoc]
  refine ⟨hbuf, htiles, ?_, hpcs, hpoison.trans h.healthy, ?_⟩
  · intro p hp
    rw [hpay] at hp
    rcases List.mem_append.mp hp with hold | hnew
    · exact h.fits p hold
    · obtain ⟨a, ha, hpa⟩ := List.mem_flatMap.mp hnew
      exact hfits a ha p hpa
  · rw [hlog]
    exact h.writer.calm hc _

/-- A step that only moves one thread that does not write, and answers it perhaps. -/
theorem calm_of_pc (s' : LogSys) (t : Tid) (hw : (s.pc t).writing = false) (pc : Pc)
    (hpc : s'.pc = Function.update s.pc t pc) (hw' : pc.writing = false)
    (hfile : s'.file = s.file) (hbuf : s'.buf.flushing = s.buf.flushing ∧
      s'.buf.activeIdx = s.buf.activeIdx ∧ s'.buf.activeFlushPos = s.buf.activeFlushPos ∧
      s'.buf.slots (!s.buf.activeIdx) = s.buf.slots (!s.buf.activeIdx))
    (new : List Assigned) (hends : s'.flushedEnds = s.flushedEnds)
    (hranges : s'.ranges = s.ranges ++ new) (hlog : s'.log = s.log ++ new) : Calm s s' new where
  file_eq := hfile
  flushing_eq := hbuf.1
  idx_eq := hbuf.2.1
  pos_eq := hbuf.2.2.1
  dormant_eq := hbuf.2.2.2
  owner_eq u hu := by
    have hne : u ≠ t := by
      rintro rfl
      rw [hw] at hu
      cases hu
    rw [hpc, Function.update_of_ne hne]
  others_eq u hu := by
    rw [hpc]
    by_cases hut : u = t
    · rw [hut, Function.update_self, hw']
    · rw [Function.update_of_ne hut, hu]
  ends_eq := hends
  ranges_eq := hranges
  log_eq := hlog

theorem ok_update (h : ∀ t, (s.pc t).Ok crc) (t : Tid) (pc : Pc) (hpc : pc.Ok crc) :
    ∀ u, (Function.update s.pc t pc u).Ok crc := by
  intro u
  by_cases hut : u = t
  · rw [hut, Function.update_self]
    exact hpc
  · rw [Function.update_of_ne hut]
    exact h u

/-- Moving a thread that does not write to another place where it does not. -/
theorem LogInv.setPc (h : LogInv geo crc resume junk s) (t : Tid)
    (hw : (s.pc t).writing = false) (pc : Pc) (hw' : pc.writing = false) (hpc : pc.Ok crc) :
    LogInv geo crc resume junk (s.setPc t pc) := by
  have hc : Calm s (s.setPc t pc) [] := by
    refine calm_of_pc (s.setPc t pc) t hw pc rfl hw' rfl ⟨rfl, rfl, rfl, rfl⟩ [] rfl ?_ ?_
    · exact (List.append_nil _).symm
    · exact (List.append_nil _).symm
  exact h.calm [] hc h.buf h.tiles nofun (ok_update h.pcs t pc hpc) rfl

/-- An answer that is neither a range nor a flushed end. -/
theorem LogInv.respond (h : LogInv geo crc resume junk s) (t : Tid)
    (hw : (s.pc t).writing = false) (r : Response) (hr : r.range? = none)
    (hf : r.flushed? = none) : LogInv geo crc resume junk (s.respond t r) := by
  have hc : Calm s (s.respond t r) [] := by
    refine calm_of_pc (s.respond t r) t hw .idle rfl rfl rfl ⟨rfl, rfl, rfl, rfl⟩ [] ?_ ?_ ?_
    · show (s.responses ++ [r]).filterMap Response.flushed? = _
      rw [List.filterMap_append, List.filterMap_cons, hf, List.filterMap_nil, List.append_nil]
      rfl
    · show (s.responses ++ [r]).filterMap Response.range? = _
      rw [List.filterMap_append, List.filterMap_cons, hr, List.filterMap_nil]
      rfl
    · exact (List.append_nil _).symm
  exact h.calm [] hc h.buf h.tiles nofun (ok_update h.pcs t .idle trivial) rfl

/-- The system after frames were put behind the active length. -/
def LogSys.withFrames (crc : Crc) (s : LogSys) (t : Tid) (records : List Bytes) : LogSys :=
  { s.respond t (.appended t s.buf.nextLsn (s.buf.nextLsn + framesLen records) records) with
    buf := { s.buf.setSlot s.buf.activeIdx
        (overlay s.buf.active s.buf.activeLen (framesBytes crc records)) with
      activeLen := s.buf.activeLen + (framesBytes crc records).length }
    log := s.log ++ [⟨s.buf.nextLsn, s.buf.nextLsn + framesLen records, records⟩] }

theorem calm_withFrames (t : Tid) (hw : (s.pc t).writing = false) (records : List Bytes) :
    Calm s (s.withFrames crc t records)
      [⟨s.buf.nextLsn, s.buf.nextLsn + framesLen records, records⟩] := by
  refine calm_of_pc (s.withFrames crc t records) t hw .idle rfl rfl rfl ⟨rfl, rfl, rfl, ?_⟩ _ ?_ ?_
    rfl
  · show Function.update s.buf.slots s.buf.activeIdx _ (!s.buf.activeIdx) = _
    rw [Function.update_of_ne (by simp)]
  · show (s.responses ++ [_]).filterMap Response.flushed? = _
    rw [List.filterMap_append]
    exact List.append_nil _
  · show (s.responses ++ [_]).filterMap Response.range? = _
    rw [List.filterMap_append]
    rfl

theorem logical_snoc (log : List Assigned) (a : Assigned) :
    resume ++ framesBytes crc ((log ++ [a]).flatMap Assigned.payloads) =
      resume ++ framesBytes crc (log.flatMap Assigned.payloads) ++ framesBytes crc a.payloads := by
  rw [List.flatMap_append, framesBytes_append, ← List.append_assoc, List.flatMap_singleton]

theorem LogInv.withFrames (h : LogInv geo crc resume junk s) (t : Tid)
    (hw : (s.pc t).writing = false) (records : List Bytes) (hfits : ∀ p ∈ records, Fits p)
    (hroom : s.buf.activeLen + framesLen records ≤ geo.capacity) :
    LogInv geo crc resume junk (s.withFrames crc t records) := by
  have hlen := length_framesBytes crc records
  have hbuf := h.buf.append (framesBytes crc records) (by rw [hlen]; exact hroom)
  refine h.calm _ (calm_withFrames t hw records) ?_ ?_ ?_ (ok_update h.pcs t .idle trivial) rfl
  · show BufOk geo (resume ++ framesBytes crc (List.flatMap Assigned.payloads (s.log ++ [_]))) _
    rw [logical_snoc]
    exact hbuf
  · have hsnoc := h.tiles.snoc records
    show Tiles resume.length (s.log ++ [_])
      (s.buf.activeFlushPos + (s.buf.activeLen + (framesBytes crc records).length))
    rw [hlen, ← Nat.add_assoc]
    exact hsnoc
  · intro a ha p hp
    rw [List.mem_singleton.mp ha] at hp
    exact hfits p hp

/-! ### Starting and ending a write -/

/-- With no write in flight the writer case is the quiet one. -/
theorem Writer.of_idle (h : Writer geo L junk s) (hf : s.buf.flushing = none) :
    (∀ t, (s.pc t).writing = false) ∧ s.buf.slots (!s.buf.activeIdx) = zeros geo.capacity ∧
      Frontier L junk s.file s.flushedEnds s.buf.activeFlushPos L.length ∧
      s.ranges.Perm s.log := by
  cases h with
  | quiet idle pcs dormant disk returned => exact ⟨pcs, dormant, disk, returned⟩
  | busy t pc here others owner => exact absurd hf owner.busy

/-- A thread at a writing place is the one writer. -/
theorem Writer.of_writing (h : Writer geo L junk s) (t : Tid) (hw : (s.pc t).writing = true) :
    (∀ u, u ≠ t → (s.pc u).writing = false) ∧ WriterAt geo L junk s (s.pc t) := by
  cases h with
  | quiet idle pcs dormant disk returned =>
    rw [pcs t] at hw
    cases hw
  | busy t' pc here others owner =>
    obtain rfl : t = t' := by
      by_contra hne
      rw [others t hne] at hw
      cases hw
    rw [here]
    exact ⟨others, owner⟩

theorem setPc_self (pc : Tid → Pc) (t : Tid) (p : Pc) : Function.update pc t p t = p :=
  Function.update_self t p pc

theorem others_update (t : Tid) (pc : Pc) (h : ∀ u, u ≠ t → (s.pc u).writing = false) :
    ∀ u, u ≠ t → (Function.update s.pc t pc u).writing = false := by
  intro u hu
  rw [Function.update_of_ne hu]
  exact h u hu

theorem LogInv.rotate (h : LogInv geo crc resume junk s) (t : Tid) (payload : Bytes)
    (frame : Option Bytes) (size : ℕ) (hcall : CallOk crc payload frame size)
    (hf : s.buf.flushing = none) (b : LogState) (w : SlotWrite)
    (hr : s.buf.rotateBegin geo = .ok (b, w)) :
    LogInv geo crc resume junk { s.setPc t (.rotating payload frame size w) with buf := b } := by
  obtain ⟨hpcs, hdorm, hdisk, hret⟩ := h.writer.of_idle hf
  obtain ⟨hbuf, hrot, hpos, hstop⟩ := rotateBegin_spec h.buf hdorm b w hr
  refine ⟨hbuf, ?_, h.fits, ok_update h.pcs t _ hcall, h.healthy, ?_⟩
  · have hn : b.nextLsn = s.buf.nextLsn := hbuf.len_eq.symm.trans h.buf.len_eq
    show Tiles resume.length s.log b.nextLsn
    rw [hn]
    exact h.tiles
  · refine .busy t _ (setPc_self _ _ _) (others_update t _ fun u _ => hpcs u) ⟨hrot, ?_, hret⟩
    rw [hstop, hpos]
    exact hdisk

theorem LogInv.oversize (h : LogInv geo crc resume junk s) (t : Tid) (payload : Bytes)
    (frame : Option Bytes) (size : ℕ) (hcall : CallOk crc payload frame size)
    (hf : s.buf.flushing = none) (alloc : Option IoError) (b : LogState) (w : ScratchWrite)
    (hr : s.buf.oversizeBegin geo crc payload frame size alloc = .ok (b, w)) :
    LogInv geo crc resume junk { s.setPc t (.oversizing payload w) with
      buf := b
      log := s.log ++ [w.range payload] } := by
  obtain ⟨hpcs, hdorm, hdisk, hret⟩ := h.writer.of_idle hf
  rw [hcall.size_eq] at hr
  obtain ⟨hbuf, hover, hpos, hstart, hsize⟩ :=
    oversizeBegin_spec h.buf hdorm payload hcall.fits frame hcall.frame_eq alloc b w hr
  have hL : ∀ a : Assigned, a.payloads = [payload] →
      resume ++ framesBytes crc ((s.log ++ [a]).flatMap Assigned.payloads) =
        s.logical crc resume ++ frameBytes crc payload := by
    intro a ha
    rw [logical_snoc, ha]
    show _ ++ (frameBytes crc payload ++ []) = _
    rw [List.append_nil]
    rfl
  have hlen : (s.logical crc resume ++ frameBytes crc payload).length =
      w.recordStart + w.frameSize := by
    rw [List.length_append, h.buf.len_eq, length_frameBytes, hstart, hsize]
  refine ⟨?_, ?_, ?_, ok_update h.pcs t _ trivial, h.healthy, ?_⟩
  · show BufOk geo (resume ++ framesBytes crc (List.flatMap Assigned.payloads (s.log ++ [_]))) b
    rw [hL _ rfl]
    exact hbuf
  · have hsnoc := h.tiles.snoc [payload]
    have hn : b.nextLsn = s.buf.nextLsn + framesLen [payload] := by
      rw [← hbuf.len_eq, hlen, hstart, hsize]
      rfl
    show Tiles resume.length (s.log ++ [w.range payload]) b.nextLsn
    unfold ScratchWrite.range
    rw [hn, hstart, hsize]
    exact hsnoc
  · intro p hp
    have hp' : p ∈ (s.log ++ [w.range payload]).flatMap Assigned.payloads := hp
    rw [List.flatMap_append, List.flatMap_singleton] at hp'
    rcases List.mem_append.mp hp' with hold | hnew
    · exact h.fits p hold
    · rw [List.mem_singleton.mp hnew]
      exact hcall.fits
  · show Writer geo (resume ++ framesBytes crc
      (List.flatMap Assigned.payloads (s.log ++ [w.range payload]))) junk _
    rw [hL _ rfl]
    refine .busy t _ (setPc_self _ _ _) (others_update t _ fun u _ => hpcs u)
      ⟨hover, ?_, hret.append_right _⟩
    rw [hpos, ← hlen]
    exact hdisk.grow (frameBytes crc payload) _ (by rw [List.length_append]; omega)

/-- The write of a rotated slot lands. -/
theorem LogInv.landRotate (h : LogInv geo crc resume junk s) (t : Tid) (payload : Bytes)
    (frame : Option Bytes) (size : ℕ) (w : SlotWrite)
    (hpc : s.pc t = .rotating payload frame size w) :
    LogInv geo crc resume junk { s.setPc t (.rotated payload frame size w (.ok ())) with
      file := overlay s.file w.oldFlushPos ((s.buf.slots w.oldIdx).take w.writeLen) } := by
  have hcall := h.pcs t
  obtain ⟨others, owner⟩ := h.writer.of_writing t (by rw [hpc]; rfl)
  rw [hpc] at hcall owner
  obtain ⟨rot, ⟨e, hlo, hhi, hends, hdisk⟩, returned⟩ := owner
  refine ⟨h.buf, h.tiles, h.fits, ok_update h.pcs t _ hcall, h.healthy, ?_⟩
  refine .busy t _ (setPc_self _ _ _) (others_update t _ others) ?_
  have hdata : (((s.logical crc resume).take (w.oldFlushPos + w.oldLen)).drop
      w.oldFlushPos).length = w.oldLen := by
    have := rot.stop_le
    rw [List.length_drop, List.length_take]
    omega
  have htake := take_slot geo (((s.logical crc resume).take (w.oldFlushPos + w.oldLen)).drop
      w.oldFlushPos) (by rw [hdata]; exact rot.len_le)
  rw [hdata, ← rot.slot_eq, ← rot.write_eq] at htake
  refine ⟨rot, ⟨w.oldFlushPos + w.oldLen, Nat.le_refl _, rot.stop_le, ?_, ?_⟩, returned⟩
  · intro x hx
    exact Nat.le_trans (hends x hx) hhi
  · show OnDisk _ _ (overlay s.file w.oldFlushPos ((s.buf.slots w.oldIdx).take w.writeLen)) _
    rw [htake]
    exact hdisk.write w.oldFlushPos _ _ hlo hhi rot.stop_le

/-- The write of an oversize record lands. -/
theorem LogInv.landOversize (h : LogInv geo crc resume junk s) (t : Tid) (payload : Bytes)
    (w : ScratchWrite) (hpc : s.pc t = .oversizing payload w) :
    LogInv geo crc resume junk { s.setPc t (.oversized payload w (.ok ())) with
      file := overlay s.file w.startPos w.scratch } := by
  obtain ⟨others, owner⟩ := h.writer.of_writing t (by rw [hpc]; rfl)
  rw [hpc] at owner
  obtain ⟨large, ⟨e, hlo, hhi, hends, hdisk⟩, returned⟩ := owner
  refine ⟨h.buf, h.tiles, h.fits, ok_update h.pcs t _ trivial, h.healthy, ?_⟩
  refine .busy t _ (setPc_self _ _ _) (others_update t _ others) ?_
  obtain ⟨k, hk⟩ := large.scratch_eq
  refine ⟨large, ⟨w.recordStart + w.frameSize, Nat.le_refl _, large.stop_le, ?_, ?_⟩, returned⟩
  · intro x hx
    exact Nat.le_trans (hends x hx) hhi
  · show OnDisk _ _ (overlay s.file w.startPos w.scratch) _
    rw [hk]
    exact hdisk.write w.startPos _ _ hlo hhi large.stop_le

theorem RotOk.cleared {b : LogState} {w : SlotWrite} (h : RotOk geo L b w) :
    overlay (b.slots w.oldIdx) 0 (zeros w.oldLen) = zeros geo.capacity := by
  have hlen := h.len_le
  have hstop := h.stop_le
  have h0 := overlay_append [] (b.slots w.oldIdx) (zeros w.oldLen) 0 rfl
  have hdata : ((L.take (w.oldFlushPos + w.oldLen)).drop w.oldFlushPos).length = w.oldLen := by
    rw [List.length_drop, List.length_take]
    omega
  rw [List.nil_append, List.nil_append, length_zeros] at h0
  rw [h0, h.slot_eq, List.drop_left' hdata, zeros_append]
  congr 1
  omega

/-- `rotate` ends: the rotated slot is zero again and the thread goes back to its loop. -/
theorem LogInv.finishRotate (h : LogInv geo crc resume junk s) (t : Tid) (payload : Bytes)
    (frame : Option Bytes) (size : ℕ) (w : SlotWrite)
    (hpc : s.pc t = .rotated payload frame size w (.ok ())) :
    LogInv geo crc resume junk (s.finishRotate t payload frame size w (.ok ())) := by
  have hcall := h.pcs t
  obtain ⟨others, owner⟩ := h.writer.of_writing t (by rw [hpc]; rfl)
  rw [hpc] at hcall owner
  obtain ⟨rot, ⟨e, hlo, hhi, hends, hdisk⟩, returned⟩ := owner
  have hne : s.buf.activeIdx ≠ w.oldIdx := by
    rw [rot.idx_eq]
    simp
  have hactive : (s.buf.rotateEnd w).active = s.buf.active := by
    show Function.update s.buf.slots w.oldIdx _ s.buf.activeIdx = _
    rw [Function.update_of_ne hne]
    rfl
  refine ⟨?_, h.tiles, h.fits, ok_update h.pcs t _ hcall, h.healthy, ?_⟩
  · exact ⟨h.buf.len_eq, h.buf.aligned, h.buf.len_le, hactive.trans h.buf.active_eq⟩
  · refine .quiet rfl ?_ ?_ ⟨e, Nat.le_trans rot.flush_le hlo, hhi, hends, hdisk⟩ returned
    · intro u
      show (Function.update s.pc t _ u).writing = false
      by_cases hu : u = t
      · rw [hu, setPc_self]
        rfl
      · exact others_update t _ others u hu
    · show Function.update s.buf.slots w.oldIdx _ (!s.buf.activeIdx) = _
      rw [← rot.idx_eq, Function.update_self]
      exact rot.cleared

/-- `append_oversize` ends: the range of its record is returned. -/
theorem LogInv.finishOversize (h : LogInv geo crc resume junk s) (t : Tid) (payload : Bytes)
    (w : ScratchWrite) (hpc : s.pc t = .oversized payload w (.ok ())) :
    LogInv geo crc resume junk (s.finishOversize t payload w (.ok ())) := by
  obtain ⟨others, owner⟩ := h.writer.of_writing t (by rw [hpc]; rfl)
  rw [hpc] at owner
  obtain ⟨large, ⟨e, hlo, hhi, hends, hdisk⟩, returned⟩ := owner
  have hends' : (s.finishOversize t payload w (.ok ())).flushedEnds = s.flushedEnds := by
    show (s.responses ++ [_]).filterMap Response.flushed? = _
    rw [List.filterMap_append]
    exact List.append_nil _
  have hranges : (s.finishOversize t payload w (.ok ())).ranges =
      s.ranges ++ [w.range payload] := by
    show (s.responses ++ [_]).filterMap Response.range? = _
    rw [List.filterMap_append]
    rfl
  refine ⟨⟨h.buf.len_eq, h.buf.aligned, h.buf.len_le, h.buf.active_eq⟩, h.tiles, h.fits,
    ok_update h.pcs t _ trivial, h.healthy, ?_⟩
  refine .quiet rfl ?_ large.dormant_eq ?_ (by rw [hranges]; exact returned)
  · intro u
    show (Function.update s.pc t _ u).writing = false
    by_cases hu : u = t
    · rw [hu, setPc_self]
      rfl
    · exact others_update t _ others u hu
  · rw [hends']
    exact ⟨e, Nat.le_trans large.flush_le hlo, hhi, hends, hdisk⟩

/-- `flush_partial` writes the active slot up to the end of the log. -/
theorem LogInv.lockFlush (h : LogInv geo crc resume junk s) (t : Tid)
    (hf : s.buf.flushing = none) : LogInv geo crc resume junk (s.lockFlush geo t .done) := by
  obtain ⟨hpcs, hdorm, ⟨e, hlo, hhi, hends, hdisk⟩, hret⟩ := h.writer.of_idle hf
  have hcheck : s.poison.check = .ok () := by
    rw [h.healthy]
    rfl
  -- in both branches the frontier on disk becomes the end of the log
  have hdone : ∀ file, OnDisk (s.logical crc resume) junk file s.buf.nextLsn →
      LogInv geo crc resume junk { s.respond t (.flushed t s.buf.nextLsn) with file := file } := by
    intro file hfile
    refine ⟨h.buf, h.tiles, h.fits, ok_update h.pcs t _ trivial, h.healthy, ?_⟩
    refine .quiet hf ?_ hdorm ⟨s.buf.nextLsn, Nat.le_add_right _ _,
      Nat.le_of_eq h.buf.len_eq.symm, ?_, hfile⟩ ?_
    · intro u
      show (Function.update s.pc t _ u).writing = false
      by_cases hu : u = t
      · rw [hu, setPc_self]
        rfl
      · rw [Function.update_of_ne hu]
        exact hpcs u
    · intro x hx
      have hx' : x ∈ (s.responses ++ [Response.flushed t s.buf.nextLsn]).filterMap
        Response.flushed? := hx
      rw [List.filterMap_append] at hx'
      rcases List.mem_append.mp hx' with hold | hnew
      · exact Nat.le_trans (hends x hold) (by rw [← h.buf.len_eq]; exact hhi)
      · exact Nat.le_of_eq (List.mem_singleton.mp hnew)
    · have hr : LogSys.ranges { s.respond t (.flushed t s.buf.nextLsn) with file := file } =
          s.ranges := by
        show (s.responses ++ [_]).filterMap Response.range? = _
        rw [List.filterMap_append]
        exact List.append_nil _
      rw [hr]
      exact hret
  unfold LogSys.lockFlush
  rw [hcheck]
  dsimp only
  unfold LogState.partialWrite
  by_cases h0 : s.buf.activeLen = 0
  · rw [if_pos h0]
    have hfull : e = s.buf.nextLsn := by
      have := h.buf.len_eq
      unfold LogState.nextLsn at this ⊢
      omega
    exact hdone s.file (hfull ▸ hdisk)
  · rw [if_neg h0]
    refine hdone _ ?_
    have htake := take_slot geo ((s.logical crc resume).drop s.buf.activeFlushPos) (by
      rw [h.buf.length_tail]
      exact h.buf.len_le)
    rw [h.buf.length_tail, ← h.buf.active_eq] at htake
    have hlen := h.buf.len_eq
    have hall : ((s.logical crc resume).take s.buf.nextLsn).drop s.buf.activeFlushPos =
        (s.logical crc resume).drop s.buf.activeFlushPos := by
      rw [← hlen, List.take_length]
    show OnDisk _ _ (overlay s.file s.buf.activeFlushPos _) _
    rw [htake, ← hall]
    exact hdisk.write _ _ _ hlo (by omega) (by omega)

/-! ### Every step -/

theorem LogInv.lockAppend (h : LogInv geo crc resume junk s) (t : Tid) (payload : Bytes)
    (frame : Option Bytes) (size : ℕ) (alloc : Option IoError)
    (hpc : s.pc t = .append payload frame size) :
    LogInv geo crc resume junk (s.lockAppend geo crc t payload frame size alloc) := by
  have hw : (s.pc t).writing = false := by rw [hpc]; rfl
  have hcall : CallOk crc payload frame size := by
    have := h.pcs t
    rw [hpc] at this
    exact this
  have hcheck : s.poison.check = .ok () := by
    rw [h.healthy]
    rfl
  unfold LogSys.lockAppend LogState.appendPass
  rw [hcheck]
  dsimp only
  cases hframe : frame.filter fun _ => s.buf.activeLen + size ≤ geo.capacity with
  | some f =>
    -- the frame fits behind the active length
    obtain ⟨hsome, hroom⟩ := Option.filter_eq_some_iff.mp hframe
    have hroom' : s.buf.activeLen + size ≤ geo.capacity := by simpa using hroom
    have hf : f = framesBytes crc [payload] := by
      rw [hcall.frame_eq f hsome]
      exact (List.append_nil _).symm
    have hsize : size = framesLen [payload] := hcall.size_eq
    have hlen : size = (framesBytes crc [payload]).length := by
      rw [length_framesBytes, hsize]
    have hstep := h.withFrames t hw [payload] (fun p hp => by
      rw [List.mem_singleton.mp hp]
      exact hcall.fits) (by rw [← hsize]; exact hroom')
    unfold LogSys.withFrames at hstep
    rw [← hlen, ← hsize, ← hf] at hstep
    exact hstep
  | none =>
    dsimp only
    by_cases hfl : s.buf.flushing.isSome
    · rw [if_pos hfl]
      exact h
    · rw [if_neg hfl]
      have hidle : s.buf.flushing = none := by simpa using hfl
      by_cases hcarry : s.buf.activeLen % geo.sectorSize + size ≤ geo.capacity
      · rw [if_pos hcarry]
        cases hr : s.buf.rotateBegin geo with
        | error e => exact h.respond t hw (.appendFailed t e) rfl rfl
        | ok res =>
          obtain ⟨b, w⟩ := res
          exact h.rotate t payload frame size hcall hidle b w hr
      · rw [if_neg hcarry]
        cases hr : s.buf.oversizeBegin geo crc payload frame size alloc with
        | error e => exact h.respond t hw (.appendFailed t e) rfl rfl
        | ok res =>
          obtain ⟨b, w⟩ := res
          exact h.oversize t payload frame size hcall hidle alloc b w hr

theorem LogInv.callAppend (h : LogInv geo crc resume junk s) (t : Tid) (payload : Bytes)
    (hpc : s.pc t = .idle) : LogInv geo crc resume junk (s.callAppend geo crc t payload) := by
  have hw : (s.pc t).writing = false := by rw [hpc]; rfl
  unfold LogSys.callAppend
  by_cases hfit : Fits payload
  · rw [frameLen_ok payload hfit]
    dsimp only
    split
    · rw [encodeFrameOwned_ok crc payload hfit]
      refine h.setPc t hw _ rfl ⟨hfit, rfl, ?_⟩
      intro f hf
      exact (Option.some.inj hf).symm
    · exact h.setPc t hw _ rfl ⟨hfit, rfl, nofun⟩
  · have hlong : frameLen payload.length = .error payloadTooLong := by
      unfold frameLen
      rw [if_pos (Nat.lt_of_not_le hfit)]
    rw [hlong]
    exact h.respond t hw _ rfl rfl

theorem LogInv.callBatch (h : LogInv geo crc resume junk s) (t : Tid) (records : List Bytes)
    (hpc : s.pc t = .idle) (hfits : ∀ p ∈ records, Fits p) :
    LogInv geo crc resume junk (s.callBatch geo crc t records) := by
  have hw : (s.pc t).writing = false := by rw [hpc]; rfl
  unfold LogSys.callBatch
  rcases tryAppendFramesBatched_spec crc h.buf records hfits with ⟨hroom, heq⟩ | heq
  · rw [heq]
    exact h.withFrames t hw records hfits hroom
  · rw [heq]
    exact h.respond t hw (.batchNotFitting t) rfl rfl

/-- Every action whose writes succeed keeps the invariant. -/
theorem LogInv.next (h : LogInv geo crc resume junk s) (a : LogAction) (ha : a.Succeeds)
    (hn : s.next geo crc a = some s') : LogInv geo crc resume junk s' := by
  cases a with
  | callAppend t payload =>
    simp only [LogSys.next] at hn
    split at hn
    · cases hn
      exact h.callAppend t payload ‹_›
    · cases hn
  | lockAppend t alloc =>
    simp only [LogSys.next] at hn
    split at hn
    · cases hn
      exact h.lockAppend t _ _ _ alloc ‹_›
    · cases hn
  | land t outcome =>
    cases outcome with
    | failed landed e => exact ha.elim
    | done =>
      simp only [LogSys.next] at hn
      split at hn
      · cases hn
        exact h.landRotate t _ _ _ _ ‹_›
      · cases hn
        exact h.landOversize t _ _ ‹_›
      · cases hn
  | finish t =>
    simp only [LogSys.next] at hn
    split at hn
    · rename_i payload frame size w result hpc
      cases hn
      obtain ⟨-, owner⟩ := h.writer.of_writing t (by rw [hpc]; rfl)
      rw [hpc] at owner
      cases result with
      | ok u => exact h.finishRotate t payload frame size w hpc
      | error e => exact owner.elim
    · rename_i payload w result hpc
      cases hn
      obtain ⟨-, owner⟩ := h.writer.of_writing t (by rw [hpc]; rfl)
      rw [hpc] at owner
      cases result with
      | ok u => exact h.finishOversize t payload w hpc
      | error e => exact owner.elim
    · cases hn
  | callBatch t records =>
    simp only [LogSys.next] at hn
    split at hn
    · split at hn
      · rename_i hpc hok
        cases hn
        exact h.callBatch t records hpc hok.2
      · cases hn
    · cases hn
  | callFlush t =>
    simp only [LogSys.next] at hn
    split at hn
    · rename_i hpc
      cases hn
      exact h.setPc t (by rw [hpc]; rfl) .flush rfl trivial
    · cases hn
  | lockFlush t outcome =>
    cases outcome with
    | failed landed e => exact ha.elim
    | done =>
      simp only [LogSys.next] at hn
      split at hn
      · split at hn
        · cases hn
        · rename_i _ hfl
          cases hn
          exact h.lockFlush t (by simpa using hfl)
      · cases hn

/-! ### Resuming -/

/-- The system after `set_flush_pos_for_resume`. -/
def LogSys.start (b : LogState) (file : Bytes) : LogSys :=
  ⟨b, file, none, fun _ => .idle, [], []⟩

/-- The slot primed with the partial sector in front of the resume LSN. -/
def resumeState (geo : Geometry) (resume : Bytes) : Except IoError LogState :=
  let sector := resume.length - resume.length % geo.sectorSize
  (LogState.new geo 0).setFlushPosForResume geo sector (resume.drop sector)

theorem resumeState_spec (geo : Geometry) (resume : Bytes) :
    ∃ b, resumeState geo resume = .ok b ∧ BufOk geo resume b ∧ b.flushing = none ∧
      b.slots (!b.activeIdx) = zeros geo.capacity := by
  have hmod := Nat.mod_lt resume.length geo.sector_pos
  have hmodle := Nat.mod_le resume.length geo.sectorSize
  have hdvd : geo.sectorSize ∣ resume.length - resume.length % geo.sectorSize :=
    Nat.dvd_sub_mod resume.length
  have hlen : (resume.drop (resume.length - resume.length % geo.sectorSize)).length =
      resume.length % geo.sectorSize := by
    rw [List.length_drop]
    omega
  have hcond : ¬ ((resume.length - resume.length % geo.sectorSize) % geo.sectorSize ≠ 0 ∨
      (resume.drop (resume.length - resume.length % geo.sectorSize)).length ≥
        geo.sectorSize) := by
    rw [hlen, Nat.mod_eq_zero_of_dvd hdvd]
    omega
  unfold resumeState
  dsimp only
  unfold LogState.setFlushPosForResume
  rw [if_neg hcond]
  refine ⟨_, rfl, ?_, rfl, ?_⟩
  · refine bufOk_reseat geo resume (zeros geo.capacity) _ 0 resume.length (by omega) (dvd_zero _)
      (Nat.zero_add _).symm ?_ rfl ?_
    · show (resume.drop _).length = _
      rw [hlen]
      omega
    · rw [Nat.zero_add]
      exact active_setSlot (LogState.new geo 0) _ _ _ none
  · rfl

/-- A primed buffer over the resume contents, with some flushes of these in the history. -/
theorem logInv_resumed (geo : Geometry) (crc : Crc) (resume junk : Bytes) (b : LogState)
    (hb : resumeState geo resume = .ok b) (responses : List Response)
    (hranges : responses.filterMap Response.range? = [])
    (hends : ∀ x ∈ responses.filterMap Response.flushed?, x ≤ resume.length) :
    LogInv geo crc resume junk
      { LogSys.start b (resume ++ junk) with responses := responses } := by
  obtain ⟨b', hb', hbuf, hidle, hdorm⟩ := resumeState_spec geo resume
  obtain rfl : b' = b := Except.ok.inj (hb'.symm.trans hb)
  have hL : LogSys.logical crc resume
      { LogSys.start b' (resume ++ junk) with responses := responses } = resume :=
    List.append_nil _
  refine ⟨by rw [hL]; exact hbuf, hbuf.len_eq, nofun, fun _ => trivial, rfl, ?_⟩
  rw [hL]
  refine .quiet hidle (fun _ => rfl) hdorm ⟨resume.length, ?_, Nat.le_refl _, hends, ?_⟩ ?_
  · have := hbuf.len_eq
    unfold LogState.nextLsn at this
    show b'.activeFlushPos ≤ resume.length
    omega
  · exact ⟨Nat.le_refl _, junk, by rw [List.take_length]; rfl, fun x hx => Or.inr hx⟩
  · show (responses.filterMap Response.range?).Perm []
    rw [hranges]

theorem logInv_start (geo : Geometry) (crc : Crc) (resume junk : Bytes) (b : LogState)
    (hb : resumeState geo resume = .ok b) :
    LogInv geo crc resume junk (LogSys.start b (resume ++ junk)) :=
  logInv_resumed geo crc resume junk b hb [] rfl nofun

abbrev LogReach (geo : Geometry) (crc : Crc) := Reach (LogSys.next geo crc) LogAction.Succeeds

theorem LogInv.reach {t : LogSys} (h : LogInv geo crc resume junk s)
    (hr : LogReach geo crc s t) : LogInv geo crc resume junk t :=
  hr.invariant h fun _ a _ hi ha hn => hi.next a ha hn

/-! ### What follows -/

/-- The write a thread has decided on and not issued yet. -/
def LogSys.pendingWrite (s : LogSys) (t : Tid) : Option (ℕ × Bytes) :=
  match s.pc t with
  | .rotating _ _ _ w => some (w.oldFlushPos, (s.buf.slots w.oldIdx).take w.writeLen)
  | .oversizing _ w => some (w.startPos, w.scratch)
  | _ => none

/-- The file once the write in flight has landed. -/
def LogSys.Landed (s : LogSys) (file : Bytes) : Prop :=
  ((∀ t, s.pendingWrite t = none) ∧ file = s.file) ∨
    ∃ t pos data, s.pendingWrite t = some (pos, data) ∧ file = overlay s.file pos data

theorem pendingWrite_none (t : Tid) (h : (s.pc t).writing = false) : s.pendingWrite t = none := by
  unfold LogSys.pendingWrite
  split
  · rename_i hpc
    rw [hpc] at h
    cases h
  · rename_i hpc
    rw [hpc] at h
    cases h
  · rfl

/-- With the write in flight landed, the file reaches the start of the active slot. -/
theorem LogInv.landed (h : LogInv geo crc resume junk s) (file : Bytes) (hf : s.Landed file) :
    ∃ e, s.buf.activeFlushPos ≤ e ∧ (∀ x ∈ s.flushedEnds, x ≤ e) ∧
      OnDisk (s.logical crc resume) junk file e := by
  rcases hf with ⟨hnone, rfl⟩ | ⟨t, pos, data, hpend, rfl⟩
  · cases h.writer with
    | quiet idle pcs dormant disk returned =>
      obtain ⟨e, hlo, -, hends, hdisk⟩ := disk
      exact ⟨e, hlo, hends, hdisk⟩
    | busy t pc here others owner =>
      have ht := hnone t
      unfold LogSys.pendingWrite at ht
      rw [here] at ht
      unfold WriterAt at owner
      split at owner
      · cases ht
      · obtain ⟨rot, ⟨e, hlo, -, hends, hdisk⟩, -⟩ := owner
        exact ⟨e, Nat.le_trans rot.flush_le hlo, hends, hdisk⟩
      · cases ht
      · obtain ⟨large, ⟨e, hlo, -, hends, hdisk⟩, -⟩ := owner
        exact ⟨e, Nat.le_trans large.flush_le hlo, hends, hdisk⟩
      · exact owner.elim
  · unfold LogSys.pendingWrite at hpend
    split at hpend
    · rename_i payload frame size w hpc
      cases hpend
      have hland := h.landRotate t payload frame size w hpc
      obtain ⟨-, owner⟩ := hland.writer.of_writing t (by
        show (Function.update s.pc t _ t).writing = true
        rw [setPc_self]
        rfl)
      rw [show LogSys.pc _ t = _ from setPc_self s.pc t _] at owner
      obtain ⟨rot, ⟨e, hlo, -, hends, hdisk⟩, -⟩ := owner
      exact ⟨e, Nat.le_trans rot.flush_le hlo, hends, hdisk⟩
    · rename_i payload w hpc
      cases hpend
      have hland := h.landOversize t payload w hpc
      obtain ⟨-, owner⟩ := hland.writer.of_writing t (by
        show (Function.update s.pc t _ t).writing = true
        rw [setPc_self]
        rfl)
      rw [show LogSys.pc _ t = _ from setPc_self s.pc t _] at owner
      obtain ⟨large, ⟨e, hlo, -, hends, hdisk⟩, -⟩ := owner
      exact ⟨e, Nat.le_trans large.flush_le hlo, hends, hdisk⟩
    · cases hpend

theorem LogInv.exists_landed (h : LogInv geo crc resume junk s) : ∃ file, s.Landed file := by
  cases h.writer with
  | quiet idle pcs dormant disk returned =>
    exact ⟨s.file, Or.inl ⟨fun t => pendingWrite_none t (pcs t), rfl⟩⟩
  | busy t pc here others owner =>
    cases hp : s.pendingWrite t with
    | none =>
      refine ⟨s.file, Or.inl ⟨fun u => ?_, rfl⟩⟩
      by_cases hu : u = t
      · rw [hu, hp]
      · exact pendingWrite_none u (others u hu)
    | some w => exact ⟨_, Or.inr ⟨t, w.1, w.2, hp, rfl⟩⟩

/-- The file under the active slot reads as the log. -/
theorem BufOk.overlay_eq {b : LogState} {file : Bytes} {e : ℕ} (h : BufOk geo L b)
    (hdisk : OnDisk L junk file e) (he : b.activeFlushPos ≤ e) :
    (overlay file b.activeFlushPos b.active).take b.nextLsn = L := by
  have hlen := hdisk.length_le
  have htail := h.length_tail
  have ht := take_overlay_end file b.activeFlushPos b.activeLen b.active (by omega) (by
    rw [h.active_eq, List.length_append]
    omega)
  unfold LogState.nextLsn
  rw [ht, h.take_active, hdisk.take _ he, List.take_append_drop]

/-- History only grows. -/
def LogSys.Extends (s s' : LogSys) : Prop :=
  (∃ new, s'.log = s.log ++ new) ∧ ∃ new, s'.responses = s.responses ++ new

theorem extends_of_same (hl : s'.log = s.log) (hr : s'.responses = s.responses) : s.Extends s' :=
  ⟨⟨[], by rw [hl, List.append_nil]⟩, [], by rw [hr, List.append_nil]⟩

theorem extends_respond (r : Response) (hl : s'.log = s.log)
    (hr : s'.responses = s.responses ++ [r]) : s.Extends s' :=
  ⟨⟨[], by rw [hl, List.append_nil]⟩, [r], hr⟩

theorem next_extends (a : LogAction) (hn : s.next geo crc a = some s') : s.Extends s' := by
  cases a with
  | callAppend t payload =>
    simp only [LogSys.next] at hn
    split at hn
    · cases hn
      unfold LogSys.callAppend
      split
      · exact extends_respond _ rfl rfl
      · split
        · split
          · exact extends_respond _ rfl rfl
          · exact extends_of_same rfl rfl
        · exact extends_of_same rfl rfl
    · cases hn
  | lockAppend t alloc =>
    simp only [LogSys.next] at hn
    split at hn
    · cases hn
      unfold LogSys.lockAppend
      split
      · exact ⟨⟨_, rfl⟩, _, rfl⟩
      · exact extends_of_same rfl rfl
      · exact extends_of_same rfl rfl
      · exact ⟨⟨_, rfl⟩, [], (List.append_nil _).symm⟩
      · exact extends_respond _ rfl rfl
    · cases hn
  | land t outcome =>
    simp only [LogSys.next] at hn
    split at hn
    · cases hn
      exact extends_of_same rfl rfl
    · cases hn
      exact extends_of_same rfl rfl
    · cases hn
  | finish t =>
    simp only [LogSys.next] at hn
    split at hn
    · cases hn
      unfold LogSys.finishRotate
      split
      · exact extends_of_same rfl rfl
      · exact extends_respond _ rfl rfl
    · cases hn
      unfold LogSys.finishOversize
      split
      · exact extends_respond _ rfl rfl
      · exact extends_respond _ rfl rfl
    · cases hn
  | callBatch t records =>
    simp only [LogSys.next] at hn
    split at hn
    · split at hn
      · cases hn
        unfold LogSys.callBatch
        split
        · exact extends_respond _ rfl rfl
        · exact extends_respond _ rfl rfl
        · exact ⟨⟨_, rfl⟩, _, rfl⟩
      · cases hn
    · cases hn
  | callFlush t =>
    simp only [LogSys.next] at hn
    split at hn
    · cases hn
      exact extends_of_same rfl rfl
    · cases hn
  | lockFlush t outcome =>
    simp only [LogSys.next] at hn
    split at hn
    · split at hn
      · cases hn
      · cases hn
        unfold LogSys.lockFlush
        split
        · exact extends_respond _ rfl rfl
        · split
          · exact extends_respond _ rfl rfl
          · split
            · exact extends_respond _ rfl rfl
            · exact extends_respond _ rfl rfl
    · cases hn

theorem LogReach.extends {t : LogSys} (hr : LogReach geo crc s t) : s.Extends t := by
  induction hr with
  | start => exact extends_of_same rfl rfl
  | step _ _ hn ih =>
    obtain ⟨⟨as, hlog⟩, rs, hresp⟩ := ih
    obtain ⟨⟨as', hlog'⟩, rs', hresp'⟩ := next_extends _ hn
    exact ⟨⟨as ++ as', by rw [hlog', hlog, List.append_assoc]⟩,
      rs ++ rs', by rw [hresp', hresp, List.append_assoc]⟩

/-- Bytes below an end that `flush_partial` returned never change again. -/
theorem LogInv.flushed_stays {t : LogSys} (h : LogInv geo crc resume junk s)
    (hr : LogReach geo crc s t) (stop : ℕ) (hstop : stop ∈ s.flushedEnds) :
    stop ≤ s.buf.nextLsn ∧ s.file.take stop = (s.logical crc resume).take stop ∧
      t.file.take stop = s.file.take stop := by
  have hfile : ∀ u, LogInv geo crc resume junk u → stop ∈ u.flushedEnds →
      stop ≤ u.buf.nextLsn ∧ u.file.take stop = (u.logical crc resume).take stop := by
    intro u hu hmem
    have hdisk : ∃ e, stop ≤ e ∧ OnDisk (u.logical crc resume) junk u.file e := by
      cases hu.writer with
      | quiet idle pcs dormant disk returned =>
        obtain ⟨e, -, -, hends, hdisk⟩ := disk
        exact ⟨e, hends stop hmem, hdisk⟩
      | busy v pc here others owner =>
        unfold WriterAt at owner
        split at owner
        · obtain ⟨-, ⟨e, -, -, hends, hdisk⟩, -⟩ := owner
          exact ⟨e, hends stop hmem, hdisk⟩
        · obtain ⟨-, ⟨e, -, -, hends, hdisk⟩, -⟩ := owner
          exact ⟨e, hends stop hmem, hdisk⟩
        · obtain ⟨-, ⟨e, -, -, hends, hdisk⟩, -⟩ := owner
          exact ⟨e, hends stop hmem, hdisk⟩
        · obtain ⟨-, ⟨e, -, -, hends, hdisk⟩, -⟩ := owner
          exact ⟨e, hends stop hmem, hdisk⟩
        · exact owner.elim
    obtain ⟨e, he, hdisk⟩ := hdisk
    have hle := hdisk.le
    rw [hu.buf.len_eq] at hle
    exact ⟨Nat.le_trans he hle, hdisk.take stop he⟩
  obtain ⟨⟨as, hlog⟩, rs, hresp⟩ := hr.extends
  obtain ⟨hs1, hs2⟩ := hfile s h hstop
  obtain ⟨-, ht2⟩ := hfile t (h.reach hr) (by
    unfold LogSys.flushedEnds
    rw [hresp, List.filterMap_append]
    exact List.mem_append_left _ hstop)
  refine ⟨hs1, hs2, ?_⟩
  have hmore : t.logical crc resume =
      s.logical crc resume ++ framesBytes crc (as.flatMap Assigned.payloads) := by
    unfold LogSys.logical LogSys.payloads
    rw [hlog, List.flatMap_append, framesBytes_append, List.append_assoc]
  rw [ht2, hs2, hmore, List.take_append_of_le_length (by rw [h.buf.len_eq]; exact hs1)]

/-- The ranges not returned yet: the one of the oversize record in flight, if any. -/
theorem LogInv.returned (h : LogInv geo crc resume junk s) :
    ∃ pending, (s.ranges ++ pending).Perm s.log ∧ (pending = [] ∨ ∃ t payload w,
      pending = [w.range payload] ∧
        (s.pc t = .oversizing payload w ∨ s.pc t = .oversized payload w (.ok ()))) := by
  cases h.writer with
  | quiet idle pcs dormant disk returned =>
    exact ⟨[], by rw [List.append_nil]; exact returned, Or.inl rfl⟩
  | busy t pc here others owner =>
    unfold WriterAt at owner
    split at owner
    · exact ⟨[], by rw [List.append_nil]; exact owner.2.2, Or.inl rfl⟩
    · exact ⟨[], by rw [List.append_nil]; exact owner.2.2, Or.inl rfl⟩
    · rename_i payload w
      exact ⟨_, owner.2.2, Or.inr ⟨t, payload, w, rfl, Or.inl here⟩⟩
    · rename_i payload w
      exact ⟨_, owner.2.2, Or.inr ⟨t, payload, w, rfl, Or.inr here⟩⟩
    · exact owner.elim

/-- The slot in flight is not the active one, and the other slot is zero without one. -/
theorem LogInv.slots (h : LogInv geo crc resume junk s) :
    s.buf.flushing ≠ some (.slot s.buf.activeIdx) ∧
      ((∀ i, s.buf.flushing ≠ some (.slot i)) →
        s.buf.slots (!s.buf.activeIdx) = zeros geo.capacity) := by
  have hrot : ∀ w, RotOk geo (s.logical crc resume) s.buf w →
      s.buf.flushing ≠ some (.slot s.buf.activeIdx) ∧
      ((∀ i, s.buf.flushing ≠ some (.slot i)) →
        s.buf.slots (!s.buf.activeIdx) = zeros geo.capacity) := by
    intro w rot
    refine ⟨?_, fun hno => absurd rot.flushing_eq (hno w.oldIdx)⟩
    rw [rot.flushing_eq, rot.idx_eq]
    simp
  have hover : ∀ w, OversizeOk geo (s.logical crc resume) s.buf w →
      s.buf.flushing ≠ some (.slot s.buf.activeIdx) ∧
      ((∀ i, s.buf.flushing ≠ some (.slot i)) →
        s.buf.slots (!s.buf.activeIdx) = zeros geo.capacity) := by
    intro w large
    refine ⟨?_, fun _ => large.dormant_eq⟩
    rw [large.flushing_eq]
    nofun
  cases h.writer with
  | quiet idle pcs dormant disk returned =>
    refine ⟨?_, fun _ => dormant⟩
    rw [idle]
    nofun
  | busy t pc here others owner =>
    unfold WriterAt at owner
    split at owner
    · exact hrot _ owner.1
    · exact hrot _ owner.1
    · exact hover _ owner.1
    · exact hover _ owner.1
    · exact owner.elim

/-- The log buffer under every interleaving in which the writes succeed: assigned ranges
tile the log and are the returned ones but for the record in flight; positions, lengths
and slots are as the module documentation says; file and active slot read as the log; and
what a `flush_partial` covered is on disk for good. -/
theorem log_buffer_interleavings (geo : Geometry) (crc : Crc) (resume junk : Bytes)
    (b : LogState) (hb : resumeState geo resume = .ok b) (s : LogSys)
    (hr : LogReach geo crc (LogSys.start b (resume ++ junk)) s) :
    (Tiles resume.length s.log s.buf.nextLsn ∧
      s.log.Pairwise (fun a c => a.stop ≤ c.start) ∧
      ∃ pending, (s.ranges ++ pending).Perm s.log ∧ (pending = [] ∨ ∃ t payload w,
        pending = [w.range payload] ∧
          (s.pc t = .oversizing payload w ∨ s.pc t = .oversized payload w (.ok ())))) ∧
    (geo.sectorSize ∣ s.buf.activeFlushPos ∧ s.buf.activeLen ≤ geo.capacity ∧
      s.buf.flushing ≠ some (.slot s.buf.activeIdx) ∧
      s.buf.active.drop s.buf.activeLen = zeros (geo.capacity - s.buf.activeLen) ∧
      ((∀ i, s.buf.flushing ≠ some (.slot i)) →
        s.buf.slots (!s.buf.activeIdx) = zeros geo.capacity)) ∧
    ((∃ file, s.Landed file) ∧ ∀ file, s.Landed file →
      (overlay file s.buf.activeFlushPos s.buf.active).take s.buf.nextLsn =
        resume ++ framesBytes crc s.payloads) ∧
    (∀ stop ∈ s.flushedEnds, stop ≤ s.buf.nextLsn ∧
      s.file.take stop = (resume ++ framesBytes crc s.payloads).take stop ∧
      ∀ s', LogReach geo crc s s' → s'.file.take stop = s.file.take stop) := by
  have h := (logInv_start geo crc resume junk b hb).reach hr
  obtain ⟨hne, hdorm⟩ := h.slots
  refine ⟨⟨h.tiles, h.tiles.pairwise, h.returned⟩,
    ⟨h.buf.aligned, h.buf.len_le, hne, ?_, hdorm⟩, ⟨h.exists_landed, ?_⟩, ?_⟩
  · rw [h.buf.active_eq, ← h.buf.length_tail, List.drop_left]
  · intro file hf
    obtain ⟨e, he, -, hdisk⟩ := h.landed file hf
    exact h.buf.overlay_eq hdisk he
  · intro stop hstop
    obtain ⟨h1, h2, -⟩ := h.flushed_stays Reach.start stop hstop
    exact ⟨h1, h2, fun s' hs' => (h.flushed_stays hs' stop hstop).2.2⟩

/-- Two appends on a log of three bytes; the second one rotates the slot. -/
def rotationRun : List LogAction :=
  [.callAppend 0 [7], .lockAppend 0 none, .callAppend 1 [9], .lockAppend 1 none, .callFlush 0,
    .land 1 .done, .finish 1, .lockAppend 1 none, .lockFlush 0 .done]

theorem rotationRun_succeeds : ∀ a ∈ rotationRun, a.Succeeds := by
  intro a ha
  simp only [rotationRun, List.mem_cons, List.not_mem_nil, or_false] at ha
  rcases ha with rfl | rfl | rfl | rfl | rfl | rfl | rfl | rfl | rfl <;> trivial

theorem log_buffer_interleavings_rotation :
    ∃ b s, resumeState twoSectors [1, 2, 3] = .ok b ∧
      LogReach twoSectors castagnoli (LogSys.start b ([1, 2, 3] ++ [])) s ∧
      29 ∈ s.flushedEnds ∧
      s.file.take 29 = ([1, 2, 3] ++ framesBytes castagnoli s.payloads).take 29 := by
  obtain ⟨b, hb, -, -, -⟩ := resumeState_spec twoSectors [1, 2, 3]
  have hends : (match resumeState twoSectors [1, 2, 3] with
      | .ok b => (run (LogSys.next twoSectors castagnoli) rotationRun
          (LogSys.start b ([1, 2, 3] ++ []))).map LogSys.flushedEnds
      | .error _ => none) = some [29] := by
    decide +kernel
  rw [hb] at hends
  obtain ⟨s, hrun, hs⟩ := Option.map_eq_some_iff.mp hends
  have hreach : LogReach twoSectors castagnoli (LogSys.start b ([1, 2, 3] ++ [])) s :=
    reach_of_run rotationRun hrun rotationRun_succeeds
  have hmem : 29 ∈ s.flushedEnds := by
    rw [hs]
    exact List.mem_singleton.mpr rfl
  obtain ⟨-, -, -, hd⟩ := log_buffer_interleavings twoSectors castagnoli [1, 2, 3] [] b hb s hreach
  exact ⟨b, s, hb, hreach, hmem, (hd 29 hmem).2.1⟩

end Fsys.Journal
