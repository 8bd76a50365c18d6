import Fsys.Journal.LogBuffer

/-!
# Invariants of the log buffer (src/journal/log_buffer.rs:30-59)

The logical log is what was on disk at resume followed by the frames in the
order in which they got their LSNs. The active slot holds its end from
`active_flush_pos` on; the file holds a prefix of it that reaches
`active_flush_pos` whenever no write is in flight. Every write puts log bytes
where they belong, starting inside the prefix that is already there.
-/

namespace Fsys.Journal
open Fsys.Base

/-! ### Rounding to sectors -/

namespace Geometry

theorem sector_pos (geo : Geometry) : 0 < geo.sectorSize := by
  obtain ⟨k, hk⟩ := geo.sectorSize_pow
  rw [hk]
  exact Nat.two_pow_pos k

theorem sector_le (geo : Geometry) : geo.sectorSize ≤ geo.capacity :=
  Nat.le_of_dvd geo.capacity_pos geo.sector_dvd

theorem roundUp_eq (geo : Geometry) (n : ℕ) : roundUp n geo.sectorSize = alignUp n geo.sectorSize := by
  obtain ⟨k, hk⟩ := geo.sectorSize_pow
  rw [hk, roundUp_pow]

theorem le_roundUp (geo : Geometry) (n : ℕ) : n ≤ roundUp n geo.sectorSize := by
  rw [geo.roundUp_eq]
  exact le_alignUp n _ geo.sector_pos

theorem roundUp_le (geo : Geometry) (n : ℕ) (hn : n ≤ geo.capacity) :
    roundUp n geo.sectorSize ≤ geo.capacity := by
  rw [geo.roundUp_eq]
  exact alignUp_le_of_dvd n _ _ geo.sector_pos geo.sector_dvd hn

end Geometry

/-! ### The active slot -/

/-- The buffer holds the end of the log `L`. -/
structure BufOk (geo : Geometry) (L : Bytes) (b : LogState) : Prop where
  len_eq : L.length = b.nextLsn
  aligned : geo.sectorSize ∣ b.activeFlushPos
  len_le : b.activeLen ≤ geo.capacity
  active_eq : b.active = L.drop b.activeFlushPos ++ zeros (geo.capacity - b.activeLen)

variable {geo : Geometry} {crc : Crc} {L junk : Bytes} {b : LogState}

theorem BufOk.length_tail (h : BufOk geo L b) :
    (L.drop b.activeFlushPos).length = b.activeLen := by
  have hl := h.len_eq
  unfold LogState.nextLsn at hl
  rw [List.length_drop]
  omega

theorem BufOk.take_active (h : BufOk geo L b) :
    b.active.take b.activeLen = L.drop b.activeFlushPos := by
  rw [h.active_eq, ← h.length_tail, List.take_left]

/-- A sector-rounded prefix of a slot is the log bytes and padding. -/
theorem take_slot (geo : Geometry) (data : Bytes) (hn : data.length ≤ geo.capacity) :
    (data ++ zeros (geo.capacity - data.length)).take (roundUp data.length geo.sectorSize) =
      data ++ zeros (roundUp data.length geo.sectorSize - data.length) := by
  have h1 := geo.le_roundUp data.length
  have h2 := geo.roundUp_le data.length hn
  rw [List.take_append, List.take_of_length_le h1, take_zeros, Nat.min_eq_left (by omega)]

theorem active_setSlot (b : LogState) (bytes : Bytes) (len pos : ℕ) (f : Option InFlight) :
    LogState.active { b.setSlot b.activeIdx bytes with
      activeLen := len, activeFlushPos := pos, flushing := f } = bytes := by
  show Function.update b.slots b.activeIdx bytes b.activeIdx = bytes
  exact Function.update_self _ _ _

/-- Frames behind the active length. -/
theorem BufOk.append (h : BufOk geo L b) (frames : Bytes)
    (hfit : b.activeLen + frames.length ≤ geo.capacity) :
    BufOk geo (L ++ frames)
      { b.setSlot b.activeIdx (overlay b.active b.activeLen frames) with
        activeLen := b.activeLen + frames.length } := by
  have hl := h.len_eq
  have htail := h.length_tail
  unfold LogState.nextLsn at hl
  refine ⟨?_, h.aligned, hfit, ?_⟩
  · show (L ++ frames).length = b.activeFlushPos + (b.activeLen + frames.length)
    rw [List.length_append]
    omega
  · refine (active_setSlot b _ _ b.activeFlushPos b.flushing).trans ?_
    show _ = (L ++ frames).drop b.activeFlushPos ++
      zeros (geo.capacity - (b.activeLen + frames.length))
    rw [h.active_eq, overlay_append _ _ _ b.activeLen htail.symm, drop_zeros,
      List.drop_append_of_le_length (by omega), Nat.sub_sub]

theorem encodeFrames_spec (crc : Crc) (records : List Bytes) (pre rest : Bytes)
    (hfit : ∀ p ∈ records, Fits p) (hlen : framesLen records ≤ rest.length) :
    LogState.encodeFrames crc records pre.length (pre ++ rest) =
      .ok (pre.length + framesLen records,
        pre ++ framesBytes crc records ++ rest.drop (framesLen records)) := by
  induction records generalizing pre rest with
  | nil => simp [LogState.encodeFrames, framesBytes]
  | cons r records ih =>
    rw [framesLen_cons] at hlen
    have hr : Fits r := hfit r List.mem_cons_self
    have hview : ((pre ++ rest).drop pre.length).take (r.length + frameOverhead) =
        rest.take (r.length + frameOverhead) := by rw [List.drop_left]
    have henc := encodeFrameInto_ok crc r (rest.take (r.length + frameOverhead)) hr (by
      rw [List.length_take]
      omega)
    have hnil : (rest.take (r.length + frameOverhead)).drop (r.length + frameOverhead) = [] :=
      List.drop_eq_nil_of_le (by rw [List.length_take]; omega)
    rw [hnil, List.append_nil] at henc
    have hover : overlay (pre ++ rest) pre.length (frameBytes crc r) =
        (pre ++ frameBytes crc r) ++ rest.drop (r.length + frameOverhead) := by
      rw [overlay_append _ _ _ _ rfl, length_frameBytes]
    have hnext := ih (pre ++ frameBytes crc r) (rest.drop (r.length + frameOverhead))
      (fun p hp => hfit p (List.mem_cons_of_mem r hp)) (by
        rw [List.length_drop]
        omega)
    rw [List.length_append, length_frameBytes] at hnext
    simp only [LogState.encodeFrames, hview, henc]
    rw [hover, hnext, framesLen_cons, framesBytes_cons, List.drop_drop, List.append_assoc pre,
      Nat.add_assoc]

/-- A batch that fits is encoded behind the active length; one that does not changes
nothing. -/
theorem tryAppendFramesBatched_spec (crc : Crc) (h : BufOk geo L b) (records : List Bytes)
    (hfit : ∀ p ∈ records, Fits p) :
    (b.activeLen + framesLen records ≤ geo.capacity ∧
      b.tryAppendFramesBatched geo crc records (framesLen records) =
        (.ok (some (b.nextLsn, b.nextLsn + framesLen records)),
          { b.setSlot b.activeIdx (overlay b.active b.activeLen (framesBytes crc records)) with
            activeLen := b.activeLen + (framesBytes crc records).length })) ∨
    b.tryAppendFramesBatched geo crc records (framesLen records) = (.ok none, b) := by
  have hle := h.len_le
  by_cases hroom : framesLen records > geo.capacity - b.activeLen
  · refine Or.inr ?_
    simp only [LogState.tryAppendFramesBatched, if_pos hroom]
  · refine Or.inl ⟨by omega, ?_⟩
    have htail := h.length_tail
    have henc := encodeFrames_spec crc records (L.drop b.activeFlushPos)
      (zeros (geo.capacity - b.activeLen)) hfit (by
        rw [length_zeros]
        omega)
    rw [← h.active_eq, htail] at henc
    have hover : overlay b.active b.activeLen (framesBytes crc records) =
        L.drop b.activeFlushPos ++ framesBytes crc records ++
          (zeros (geo.capacity - b.activeLen)).drop (framesLen records) := by
      rw [h.active_eq, overlay_append _ _ _ b.activeLen htail.symm, length_framesBytes]
    simp only [LogState.tryAppendFramesBatched, if_neg hroom, henc, hover, length_framesBytes,
      LogState.nextLsn, Nat.add_assoc]

/-! ### Writes in flight -/

/-- A rotated slot whose write is in flight. -/
structure RotOk (geo : Geometry) (L : Bytes) (b : LogState) (w : SlotWrite) : Prop where
  flushing_eq : b.flushing = some (.slot w.oldIdx)
  idx_eq : w.oldIdx = !b.activeIdx
  stop_le : w.oldFlushPos + w.oldLen ≤ L.length
  flush_le : b.activeFlushPos ≤ w.oldFlushPos + w.oldLen
  len_le : w.oldLen ≤ geo.capacity
  write_eq : w.writeLen = roundUp w.oldLen geo.sectorSize
  slot_eq : b.slots w.oldIdx =
    (L.take (w.oldFlushPos + w.oldLen)).drop w.oldFlushPos ++ zeros (geo.capacity - w.oldLen)

/-- An oversize record whose write is in flight. -/
structure OversizeOk (geo : Geometry) (L : Bytes) (b : LogState) (w : ScratchWrite) : Prop where
  flushing_eq : b.flushing = some .scratch
  dormant_eq : b.slots (!b.activeIdx) = zeros geo.capacity
  start_le : w.startPos ≤ w.recordStart
  stop_le : w.recordStart + w.frameSize ≤ L.length
  flush_le : b.activeFlushPos ≤ w.recordStart + w.frameSize
  scratch_eq : ∃ k, w.scratch =
    (L.take (w.recordStart + w.frameSize)).drop w.startPos ++ zeros k

/-- Re-seating the active slot at the last sector boundary of the log. -/
theorem bufOk_reseat (geo : Geometry) (L slot : Bytes) (b' : LogState) (pos len : ℕ)
    (hL : L.length = pos + len) (hpos : geo.sectorSize ∣ pos)
    (hb' : b'.activeFlushPos = pos + (len - len % geo.sectorSize))
    (hlen : b'.activeLen = len - (len - len % geo.sectorSize))
    (hslot : slot = zeros geo.capacity)
    (hactive : b'.active = overlay slot 0 (L.drop (pos + (len - len % geo.sectorSize)))) :
    BufOk geo L b' := by
  have hmod := Nat.mod_lt len geo.sector_pos
  have hmodle := Nat.mod_le len geo.sectorSize
  have hle := geo.sector_le
  have htail : (L.drop (pos + (len - len % geo.sectorSize))).length = len % geo.sectorSize := by
    rw [List.length_drop]
    omega
  refine ⟨?_, ?_, by omega, ?_⟩
  · unfold LogState.nextLsn
    omega
  · rw [hb']
    refine Nat.dvd_add hpos ?_
    exact Nat.dvd_sub_mod len
  · have hover := overlay_append [] (zeros geo.capacity)
      (L.drop (pos + (len - len % geo.sectorSize))) 0 rfl
    rw [List.nil_append, List.nil_append, drop_zeros, htail] at hover
    have hsub : len - (len - len % geo.sectorSize) = len % geo.sectorSize := by omega
    rw [hactive, hslot, hover, hb', hlen, hsub]

theorem rotateBegin_spec (h : BufOk geo L b) (hd : b.slots (!b.activeIdx) = zeros geo.capacity)
    (b' : LogState) (w : SlotWrite) (hr : b.rotateBegin geo = .ok (b', w)) :
    BufOk geo L b' ∧ RotOk geo L b' w ∧ w.oldFlushPos = b.activeFlushPos ∧
      w.oldFlushPos + w.oldLen = L.length := by
  have hl := h.len_eq
  have hlen := h.len_le
  have hmodle := Nat.mod_le b.activeLen geo.sectorSize
  unfold LogState.nextLsn at hl
  unfold LogState.rotateBegin at hr
  dsimp only at hr
  split at hr
  · cases hr
  · rename_i pos hpos
    unfold checkedAdd at hpos
    split at hpos
    · cases hpos
      cases hr
      have hcarry : (List.take b.activeLen (b.slots b.activeIdx)).drop
            (b.activeLen - b.activeLen % geo.sectorSize) =
          L.drop (b.activeFlushPos + (b.activeLen - b.activeLen % geo.sectorSize)) := by
        have ht := h.take_active
        unfold LogState.active at ht
        rw [ht, List.drop_drop]
      refine ⟨?_, ?_, rfl, hl.symm⟩
      · refine bufOk_reseat geo L _ _ b.activeFlushPos b.activeLen hl h.aligned rfl rfl hd ?_
        show Function.update b.slots (!b.activeIdx) _ (!b.activeIdx) = _
        rw [Function.update_self, hcarry]
      · refine ⟨rfl, (Bool.not_not _).symm, Nat.le_of_eq hl.symm, ?_, hlen, rfl, ?_⟩
        · show b.activeFlushPos + (b.activeLen - b.activeLen % geo.sectorSize) ≤
            b.activeFlushPos + b.activeLen
          omega
        · show Function.update b.slots (!b.activeIdx) _ b.activeIdx = _
          rw [Function.update_of_ne (by simp)]
          show b.active = (L.take (b.activeFlushPos + b.activeLen)).drop b.activeFlushPos ++ _
          rw [← hl, List.take_length]
          exact h.active_eq
    · cases hpos

theorem scratchFrame_ok (payload : Bytes) (hfit : Fits payload) (encoded : Option Bytes)
    (hframe : ∀ f, encoded = some f → f = frameBytes crc payload) (pre R : ℕ)
    (hR : pre + (payload.length + frameOverhead) ≤ R) :
    LogState.scratchFrame crc payload encoded
      (((zeros R).take (pre + (payload.length + frameOverhead))).drop pre) =
        .ok (frameBytes crc payload) := by
  cases encoded with
  | some f => rw [LogState.scratchFrame, hframe f rfl]
  | none =>
    have hz : ((zeros R).take (pre + (payload.length + frameOverhead))).drop pre =
        zeros (payload.length + frameOverhead) := by
      rw [take_zeros, drop_zeros]
      congr 1
      omega
    rw [LogState.scratchFrame, hz, encodeFrameInto_ok crc payload _ hfit (by rw [length_zeros]),
      drop_zeros, Nat.sub_self, zeros_zero, List.append_nil]

/-- The scratch buffer holds the end of the log, the frame and padding. -/
theorem BufOk.scratch_eq (h : BufOk geo L b) (frame : Bytes) (R : ℕ)
    (hR : b.activeLen + frame.length ≤ R) :
    overlay (overlay (zeros R) b.activeLen frame) 0 (b.active.take b.activeLen) =
      (L ++ frame).drop b.activeFlushPos ++ zeros (R - (b.activeLen + frame.length)) := by
  have htail := h.length_tail
  have hl := h.len_eq
  unfold LogState.nextLsn at hl
  have hz : zeros R = zeros b.activeLen ++ zeros (R - b.activeLen) := by
    rw [zeros_append]
    congr 1
    omega
  have h0 := overlay_append [] (zeros b.activeLen ++
    (frame ++ (zeros (R - b.activeLen)).drop frame.length)) (L.drop b.activeFlushPos) 0 rfl
  rw [List.nil_append, List.nil_append, htail, List.drop_left' (length_zeros b.activeLen)] at h0
  rw [hz, overlay_append _ _ _ b.activeLen (length_zeros _).symm, h.take_active,
    List.append_assoc (zeros b.activeLen), h0, drop_zeros,
    List.drop_append_of_le_length (by omega), List.append_assoc, Nat.sub_sub]

/-- Zeroing the used part of the active slot zeroes all of it. -/
theorem BufOk.cleared (h : BufOk geo L b) :
    overlay b.active 0 (zeros b.activeLen) = zeros geo.capacity := by
  have hlen := h.len_le
  have h0 := overlay_append [] b.active (zeros b.activeLen) 0 rfl
  rw [List.nil_append, List.nil_append, length_zeros] at h0
  rw [h0, h.active_eq, List.drop_left' h.length_tail, zeros_append]
  congr 1
  omega

theorem oversizeBegin_spec (h : BufOk geo L b)
    (hd : b.slots (!b.activeIdx) = zeros geo.capacity) (payload : Bytes) (hfit : Fits payload)
    (encoded : Option Bytes) (hframe : ∀ f, encoded = some f → f = frameBytes crc payload)
    (alloc : Option IoError) (b' : LogState) (w : ScratchWrite)
    (hr : b.oversizeBegin geo crc payload encoded (payload.length + frameOverhead) alloc =
      .ok (b', w)) :
    BufOk geo (L ++ frameBytes crc payload) b' ∧
      OversizeOk geo (L ++ frameBytes crc payload) b' w ∧
      w.startPos = b.activeFlushPos ∧ w.recordStart = b.nextLsn ∧
      w.frameSize = payload.length + frameOverhead := by
  have hl := h.len_eq
  have hfl := length_frameBytes crc payload
  unfold LogState.nextLsn at hl
  unfold LogState.oversizeBegin at hr
  dsimp only at hr
  split at hr
  · cases hr
  · rename_i total htotal
    unfold checkedAdd at htotal
    split at htotal
    · cases htotal
      split at hr
      · cases hr
      · rename_i pos hpos
        unfold checkedAdd at hpos
        split at hpos
        · cases hpos
          split at hr
          · cases hr
          · have hR := geo.le_roundUp (b.activeLen + (payload.length + frameOverhead))
            rw [scratchFrame_ok payload hfit encoded hframe _ _ hR] at hr
            cases hr
            have hscratch := h.scratch_eq (frameBytes crc payload)
              (roundUp (b.activeLen + (payload.length + frameOverhead)) geo.sectorSize)
              (by rw [hfl]; exact hR)
            have hcut : ((L ++ frameBytes crc payload).drop b.activeFlushPos).length =
                b.activeLen + (payload.length + frameOverhead) := by
              rw [List.length_drop, List.length_append, hfl]
              omega
            have hL' : (L ++ frameBytes crc payload).length =
                b.activeFlushPos + (b.activeLen + (payload.length + frameOverhead)) := by
              rw [List.length_append, hfl]
              omega
            refine ⟨?_, ?_, rfl, rfl, rfl⟩
            · refine bufOk_reseat geo _ _ _ b.activeFlushPos _ hL' h.aligned rfl rfl h.cleared ?_
              show Function.update b.slots b.activeIdx _ b.activeIdx = _
              rw [Function.update_self, hscratch, List.take_left' hcut, List.drop_drop]
              rfl
            · refine ⟨rfl, ?_, Nat.le_add_right _ _, ?_, ?_,
                roundUp (b.activeLen + (payload.length + frameOverhead)) geo.sectorSize -
                  (b.activeLen + (frameBytes crc payload).length), ?_⟩
              · show Function.update b.slots b.activeIdx _ (!b.activeIdx) = _
                rw [Function.update_of_ne (by simp)]
                exact hd
              · show b.activeFlushPos + b.activeLen + (payload.length + frameOverhead) ≤ _
                omega
              · show b.activeFlushPos + _ ≤
                  b.activeFlushPos + b.activeLen + (payload.length + frameOverhead)
                omega
              · show overlay _ 0 _ = ((L ++ frameBytes crc payload).take
                  (b.activeFlushPos + b.activeLen + (payload.length + frameOverhead))).drop
                    b.activeFlushPos ++ _
                rw [hscratch, List.take_of_length_le (by omega)]
        · cases hpos
    · cases htotal

end Fsys.Journal
