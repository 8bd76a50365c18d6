import Fsys.Journal.LogBufferInv
import Fsys.Journal.Handle

/-!
# `append_frame` slice by slice

`log_buffer.rs:464-696` once more, with the slots changed in place and in the
order of the source, so that a range outside its buffer panics and a failure
leaves whatever was changed before it. The passes of `LogBuffer` are what these
programs do, which never panic and fail before their first change.
-/

namespace Fsys.Journal
open Fsys.Base

/-! ### Slices -/

/-- How a critical section ends that does not go through. -/
inductive Abort where
  | failed (e : IoError)
  | panicked

abbrev BufIo := Prog LogState Abort

section

variable {α : Type}

def orFail (e : IoError) (r : Option α) : BufIo α :=
  Prog.lift (match r with
    | some a => .ok a
    | none => .error (.failed e))

/-- `&buf[lo..hi]` -/
def sliceOf (buf : Bytes) (lo hi : ℕ) : BufIo Bytes :=
  if lo ≤ hi ∧ hi ≤ buf.length then pure ((buf.take hi).drop lo) else Prog.throw .panicked

/-- `buf[lo..hi].copy_from_slice(src)` -/
def copyFrom (buf : Bytes) (lo hi : ℕ) (src : Bytes) : BufIo Bytes :=
  if lo ≤ hi ∧ hi ≤ buf.length ∧ src.length = hi - lo then pure (overlay buf lo src)
  else Prog.throw .panicked

/-- `copy_from_slice` into a slot -/
def copyToSlot (idx : Bool) (lo hi : ℕ) (src : Bytes) : BufIo Unit := do
  let b ← Prog.get
  let slot ← copyFrom (b.slots idx) lo hi src
  Prog.modify fun b => b.setSlot idx slot

/-- `slot[..n].fill(0)` -/
def fillSlot (idx : Bool) (n : ℕ) : BufIo Unit := copyToSlot idx 0 n (zeros n)

end

/-! ### The critical sections -/

section

variable (geo : Geometry) (crc : Crc)

/-- `rotate` until it drops the lock (`log_buffer.rs:557-585`) -/
def rotateSection : BufIo SlotWrite := do
  let b ← Prog.get
  let oldIdx := b.activeIdx
  let oldLen := b.activeLen
  let oldFlushPos := b.activeFlushPos
  let newIdx := !oldIdx
  let whole := oldLen - oldLen % geo.sectorSize
  let tail := oldLen - whole
  let writeLen := roundUp oldLen geo.sectorSize
  let newFlushPos ← orFail ⟨.other, "flush_pos overflow"⟩ (checkedAdd oldFlushPos whole)
  let src ← sliceOf (b.slots oldIdx) whole oldLen
  copyToSlot newIdx 0 tail src
  Prog.modify fun b => { b with activeIdx := newIdx }
  Prog.modify fun b => { b with activeLen := tail }
  Prog.modify fun b => { b with activeFlushPos := newFlushPos }
  Prog.modify fun b => { b with flushing := some (.slot oldIdx) }
  pure ⟨oldIdx, oldLen, oldFlushPos, writeLen⟩

/-- The bytes `rotate` writes with the lock dropped, and what it does after -/
def rotateWrite (w : SlotWrite) : BufIo Bytes := do
  let b ← Prog.get
  sliceOf (b.slots w.oldIdx) 0 w.writeLen

def rotateEndSection (w : SlotWrite) : BufIo Unit := do
  fillSlot w.oldIdx w.oldLen
  Prog.modify fun b => { b with flushing := none }

/-- The frame in the scratch buffer (`log_buffer.rs:661-667`) -/
def fillScratch (scratch : Bytes) (pre total : ℕ) (payload : Bytes) (encoded : Option Bytes) :
    BufIo Bytes :=
  match encoded with
  | some frame => copyFrom scratch pre total frame
  | none => do
    let room ← sliceOf scratch pre total
    match encodeFrameInto crc payload room with
    | (.error e, _) => Prog.throw (.failed e)
    | (.ok _, bytes) => pure (overlay scratch pre bytes)

/-- `append_oversize` until it drops the lock (`log_buffer.rs:633-683`). `alloc` is the
error of the scratch buffer's allocation. -/
def oversizeSection (payload : Bytes) (encoded : Option Bytes) (frameSize : ℕ)
    (alloc : Option IoError) : BufIo ScratchWrite := do
  let b ← Prog.get
  let pre := b.activeLen
  let startPos := b.activeFlushPos
  let total ← orFail ⟨.other, "oversize frame length overflow"⟩ (checkedAdd pre frameSize)
  let whole := total - total % geo.sectorSize
  let tail := total - whole
  let newFlushPos ← orFail ⟨.other, "flush_pos overflow"⟩ (checkedAdd startPos whole)
  let scratch ← Prog.lift (match alloc with
    | some e => .error (.failed e)
    | none => .ok (zeros (roundUp total geo.sectorSize)))
  let scratch ← fillScratch crc scratch pre total payload encoded
  let slot ← sliceOf (b.slots b.activeIdx) 0 pre
  let scratch ← copyFrom scratch 0 pre slot
  fillSlot b.activeIdx pre
  let last ← sliceOf scratch whole total
  copyToSlot b.activeIdx 0 tail last
  Prog.modify fun b => { b with activeLen := tail }
  Prog.modify fun b => { b with activeFlushPos := newFlushPos }
  Prog.modify fun b => { b with flushing := some .scratch }
  pure ⟨startPos + pre, frameSize, startPos, scratch⟩

/-- The first lines of `append_frame` (`log_buffer.rs:475-485`): a frame that can fit a slot
is encoded before the lock is taken. -/
def prepareFrame (payload : Bytes) : Except IoError (Option Bytes × ℕ) := do
  let frameSize ← frameLen payload.length
  if frameSize ≤ geo.capacity then do
    let frame ← encodeFrameOwned crc payload
    pure (some frame, frameSize)
  else pure (none, frameSize)

/-- What a pass leaves to do. -/
inductive PassEnd where
  | returns (start stop : ℕ)
  | waits
  | rotates (w : SlotWrite)
  | oversizes (w : ScratchWrite)

/-- One pass of the loop in `append_frame` (`log_buffer.rs:487-542`) -/
def passSection (poison : Poison) (payload : Bytes) (frame : Option Bytes) (frameSize : ℕ)
    (alloc : Option IoError) : BufIo PassEnd := do
  Prog.lift (poison.check.mapError .failed)
  let b ← Prog.get
  match frame.filter fun _ => b.activeLen + frameSize ≤ geo.capacity with
  | some frame => do
    let start := b.activeFlushPos + b.activeLen
    copyToSlot b.activeIdx b.activeLen (b.activeLen + frameSize) frame
    Prog.modify fun b => { b with activeLen := b.activeLen + frameSize }
    pure (.returns start (start + frameSize))
  | none =>
    if b.flushing.isSome then pure .waits
    else if b.activeLen % geo.sectorSize + frameSize ≤ geo.capacity then do
      let w ← rotateSection geo
      pure (.rotates w)
    else do
      let w ← oversizeSection geo crc payload frame frameSize alloc
      pure (.oversizes w)

end

/-! ### Buffers in bounds -/

/-- Slots of the full capacity, filled at most that far. -/
structure InBounds (geo : Geometry) (b : LogState) : Prop where
  slot : ∀ idx, (b.slots idx).length = geo.capacity
  le : b.activeLen ≤ geo.capacity

/-- A call of `append_frame` past its first lines: the frame is there if it fits a slot. -/
structure Called (geo : Geometry) (crc : Crc) (payload : Bytes) (frame : Option Bytes)
    (frameSize : ℕ) : Prop where
  fits : Fits payload
  size : frameSize = payload.length + frameOverhead
  frame : frame = if frameSize ≤ geo.capacity then some (frameBytes crc payload) else none

variable {geo : Geometry} {crc : Crc} {b : LogState}

theorem prepareFrame_ok (geo : Geometry) (crc : Crc) {payload : Bytes} (hfit : Fits payload) :
    ∃ frame frameSize, prepareFrame geo crc payload = .ok (frame, frameSize) ∧
      Called geo crc payload frame frameSize := by
  refine ⟨_, _, ?_, hfit, rfl, rfl⟩
  unfold prepareFrame
  rw [frameLen_ok payload hfit]
  by_cases hle : payload.length + frameOverhead ≤ geo.capacity
  · simp only [bind, Except.bind, if_pos hle, encodeFrameOwned_ok crc payload hfit]
    rfl
  · simp only [bind, Except.bind, if_neg hle]
    rfl

theorem InBounds.setSlot (h : InBounds geo b) (idx : Bool) {bytes : Bytes}
    (hl : bytes.length = geo.capacity) : InBounds geo (b.setSlot idx bytes) where
  slot i := by
    show (Function.update b.slots idx bytes i).length = geo.capacity
    by_cases hi : i = idx
    · subst hi
      rw [Function.update_self, hl]
    · rw [Function.update_of_ne hi, h.slot i]
  le := h.le

theorem InBounds.overlaySlot (h : InBounds geo b) (idx : Bool) (pos : ℕ) (bytes : Bytes)
    (hp : pos + bytes.length ≤ geo.capacity) :
    InBounds geo (b.setSlot idx (overlay (b.slots idx) pos bytes)) := by
  apply h.setSlot
  rw [length_overlay, h.slot]
  exact Nat.max_eq_left hp

theorem Called.length {payload f : Bytes} {frame : Option Bytes} {frameSize : ℕ}
    (h : Called geo crc payload frame frameSize) (hf : frame = some f) :
    f.length = frameSize := by
  rw [h.frame] at hf
  split at hf
  · cases hf
    rw [length_frameBytes, h.size]
  · cases hf

theorem sliceOf_run {buf : Bytes} {lo hi : ℕ} (h : lo ≤ hi) (hh : hi ≤ buf.length) (b : LogState) :
    sliceOf buf lo hi b = (.ok ((buf.take hi).drop lo), b) := by
  rw [sliceOf, if_pos ⟨h, hh⟩]
  rfl

theorem copyFrom_run {buf src : Bytes} {lo hi : ℕ} (h : lo ≤ hi) (hh : hi ≤ buf.length)
    (hs : src.length = hi - lo) (b : LogState) :
    copyFrom buf lo hi src b = (.ok (overlay buf lo src), b) := by
  rw [copyFrom, if_pos ⟨h, hh, hs⟩]
  rfl

theorem copyToSlot_run {idx : Bool} {src : Bytes} {lo hi : ℕ} (h : lo ≤ hi)
    (hh : hi ≤ (b.slots idx).length) (hs : src.length = hi - lo) :
    copyToSlot idx lo hi src b = (.ok (), b.setSlot idx (overlay (b.slots idx) lo src)) := by
  show (copyFrom (b.slots idx) lo hi src >>= fun slot =>
    Prog.modify fun b => b.setSlot idx slot) b = _
  rw [Prog.bind_run (copyFrom_run h hh hs b)]
  rfl

theorem length_overlay_of_le {f d : Bytes} {pos : ℕ} (h : pos + d.length ≤ f.length) :
    (overlay f pos d).length = f.length := by
  rw [length_overlay]
  exact Nat.max_eq_left h

/-! ### The sections are the passes -/

theorem rotateSection_run (h : InBounds geo b) :
    rotateSection geo b = match b.rotateBegin geo with
      | .error e => (.error (.failed e), b)
      | .ok (b', w) => (.ok w, b') := by
  have hle := h.le
  have hmod := Nat.mod_le b.activeLen geo.sectorSize
  have hsrc : sliceOf (b.slots b.activeIdx) (b.activeLen - b.activeLen % geo.sectorSize)
      b.activeLen b = _ := sliceOf_run (Nat.sub_le _ _) (by rw [h.slot]; exact hle) b
  have hlen : (((b.slots b.activeIdx).take b.activeLen).drop
      (b.activeLen - b.activeLen % geo.sectorSize)).length =
      b.activeLen - (b.activeLen - b.activeLen % geo.sectorSize) - 0 := by
    rw [List.length_drop, List.length_take, h.slot, Nat.min_eq_left hle, Nat.sub_zero]
  have hcopy : copyToSlot (!b.activeIdx) 0
      (b.activeLen - (b.activeLen - b.activeLen % geo.sectorSize)) _ b = _ :=
    copyToSlot_run (Nat.zero_le _) (by rw [h.slot]; omega) hlen
  unfold LogState.rotateBegin
  simp only [rotateSection, Prog.get_bind_run]
  cases hadd : checkedAdd b.activeFlushPos (b.activeLen - b.activeLen % geo.sectorSize) with
  | none => rfl
  | some pos =>
    simp only [orFail, Prog.lift_ok_bind_run]
    rw [Prog.bind_run hsrc, Prog.bind_run hcopy]
    rfl

/-- The frame goes into the scratch buffer, whoever encodes it. -/
theorem fillScratch_run {payload scratch : Bytes} {frame : Option Bytes} {frameSize pre : ℕ}
    (hc : Called geo crc payload frame frameSize) (hs : pre + frameSize ≤ scratch.length)
    (b : LogState) :
    fillScratch crc scratch pre (pre + frameSize) payload frame b =
      (.ok (overlay scratch pre (frameBytes crc payload)), b) ∧
    LogState.scratchFrame crc payload frame ((scratch.take (pre + frameSize)).drop pre) =
      .ok (frameBytes crc payload) := by
  have hlen : (frameBytes crc payload).length = frameSize := by
    rw [length_frameBytes, hc.size]
  rw [hc.frame]
  by_cases hfit : frameSize ≤ geo.capacity
  · rw [if_pos hfit]
    exact ⟨copyFrom_run (Nat.le_add_right _ _) hs (by omega) b, rfl⟩
  · rw [if_neg hfit]
    have hroom : ((scratch.take (pre + frameSize)).drop pre).length = frameSize := by
      rw [List.length_drop, List.length_take]
      omega
    have henc := encodeFrameInto_ok crc payload _ hc.fits (hc.size ▸ hroom.ge)
    rw [← hc.size, List.drop_eq_nil_of_le hroom.le, List.append_nil] at henc
    constructor
    · rw [fillScratch, Prog.bind_run (sliceOf_run (Nat.le_add_right _ _) hs b), henc]
      rfl
    · rw [LogState.scratchFrame, henc]

theorem oversizeSection_run {payload : Bytes} {frame : Option Bytes} {frameSize : ℕ}
    (h : InBounds geo b) (hc : Called geo crc payload frame frameSize) (alloc : Option IoError) :
    oversizeSection geo crc payload frame frameSize alloc b =
      match b.oversizeBegin geo crc payload frame frameSize alloc with
      | .error e => (.error (.failed e), b)
      | .ok (b', w) => (.ok w, b') := by
  unfold LogState.oversizeBegin
  simp only [oversizeSection, Prog.get_bind_run]
  cases htotal : checkedAdd b.activeLen frameSize with
  | none => rfl
  | some total =>
    have htotal' : b.activeLen + frameSize = total := by
      unfold checkedAdd at htotal
      split at htotal
      · exact Option.some.inj htotal
      · cases htotal
    subst htotal'
    simp only [orFail, Prog.lift_ok_bind_run]
    cases hpos : checkedAdd b.activeFlushPos (b.activeLen + frameSize -
        (b.activeLen + frameSize) % geo.sectorSize) with
    | none => rfl
    | some pos =>
      simp only [Prog.lift_ok_bind_run]
      cases alloc with
      | some e => rfl
      | none =>
        simp only [Prog.lift_ok_bind_run]
        have hscratch : b.activeLen + frameSize ≤
            (zeros (roundUp (b.activeLen + frameSize) geo.sectorSize)).length := by
          rw [length_zeros]
          exact geo.le_roundUp _
        obtain ⟨hframe, hmodel⟩ := fillScratch_run hc hscratch b
        have hle := h.le
        have hmod := Nat.mod_lt (b.activeLen + frameSize) geo.sector_pos
        have hsector := geo.sector_le
        have hflen : (frameBytes crc payload).length = frameSize := by
          rw [length_frameBytes, hc.size]
        have hslot : sliceOf (b.slots b.activeIdx) 0 b.activeLen b =
            (.ok (b.active.take b.activeLen), b) :=
          sliceOf_run (Nat.zero_le _) (by rw [h.slot]; exact hle) b
        have hpre : (b.active.take b.activeLen).length = b.activeLen := by
          rw [List.length_take]
          exact Nat.min_eq_left (by rw [LogState.active, h.slot]; exact hle)
        -- the scratch buffer keeps its length
        have hlen1 : (overlay (zeros (roundUp (b.activeLen + frameSize) geo.sectorSize))
            b.activeLen (frameBytes crc payload)).length =
            (zeros (roundUp (b.activeLen + frameSize) geo.sectorSize)).length :=
          length_overlay_of_le (by rw [hflen]; exact hscratch)
        have hlen2 : (overlay (overlay (zeros (roundUp (b.activeLen + frameSize) geo.sectorSize))
            b.activeLen (frameBytes crc payload)) 0 (b.active.take b.activeLen)).length =
            (zeros (roundUp (b.activeLen + frameSize) geo.sectorSize)).length := by
          rw [length_overlay_of_le, hlen1]
          rw [hpre, hlen1]
          omega
        rw [Prog.bind_run hframe, hmodel, Prog.bind_run hslot,
          Prog.bind_run (copyFrom_run (Nat.zero_le _) (by rw [hlen1]; omega)
            (by rw [hpre, Nat.sub_zero]) b)]
        have hfill : fillSlot b.activeIdx b.activeLen b =
            (.ok (), b.setSlot b.activeIdx (overlay b.active 0 (zeros b.activeLen))) :=
          copyToSlot_run (Nat.zero_le _) (by rw [h.slot]; exact hle)
            (by rw [length_zeros, Nat.sub_zero])
        have hwhole : b.activeLen + frameSize - (b.activeLen + frameSize) % geo.sectorSize ≤
            b.activeLen + frameSize := Nat.sub_le _ _
        dsimp only
        generalize overlay (overlay (zeros (roundUp (b.activeLen + frameSize) geo.sectorSize))
          b.activeLen (frameBytes crc payload)) 0 (b.active.take b.activeLen) = scratch at hlen2 ⊢
        have hlast := sliceOf_run hwhole (hlen2.symm ▸ hscratch)
          (b.setSlot b.activeIdx (overlay b.active 0 (zeros b.activeLen)))
        have hslot2 : (b.setSlot b.activeIdx (overlay b.active 0 (zeros b.activeLen))).slots
            b.activeIdx = overlay b.active 0 (zeros b.activeLen) := Function.update_self _ _ _
        have hroom : b.activeLen + frameSize - (b.activeLen + frameSize -
            (b.activeLen + frameSize) % geo.sectorSize) ≤
            ((b.setSlot b.activeIdx (overlay b.active 0 (zeros b.activeLen))).slots
              b.activeIdx).length := by
          rw [hslot2, length_overlay_of_le, LogState.active, h.slot]
          · omega
          · rw [LogState.active, h.slot, length_zeros]
            omega
        have hlastLen : ((scratch.take (b.activeLen + frameSize)).drop (b.activeLen + frameSize -
            (b.activeLen + frameSize) % geo.sectorSize)).length = b.activeLen + frameSize -
            (b.activeLen + frameSize - (b.activeLen + frameSize) % geo.sectorSize) - 0 := by
          rw [List.length_drop, List.length_take, hlen2, Nat.min_eq_left hscratch, Nat.sub_zero]
        have hcopy := copyToSlot_run (Nat.zero_le _) hroom hlastLen
        rw [Prog.bind_run hfill, Prog.bind_run hlast, Prog.bind_run hcopy, hslot2]
        simp only [Prog.modify_bind_run, LogState.setSlot, Function.update_idem]
        rfl

theorem passSection_run {payload : Bytes} {frame : Option Bytes} {frameSize : ℕ}
    (h : InBounds geo b) (hc : Called geo crc payload frame frameSize) (poison : Poison)
    (alloc : Option IoError) :
    passSection geo crc poison payload frame frameSize alloc b =
      match b.appendPass geo crc poison payload frame frameSize alloc with
      | .fits b' start stop => (.ok (.returns start stop), b')
      | .wait => (.ok .waits, b)
      | .rotate b' w => (.ok (.rotates w), b')
      | .oversize b' w => (.ok (.oversizes w), b')
      | .fail e => (.error (.failed e), b) := by
  unfold LogState.appendPass
  simp only [passSection]
  cases hp : poison.check with
  | error e => rfl
  | ok u =>
    simp only [Except.mapError, Prog.lift_ok_bind_run, Prog.get_bind_run]
    cases hf : frame.filter fun _ => b.activeLen + frameSize ≤ geo.capacity with
    | some f =>
      obtain ⟨hframe, hroom⟩ := Option.filter_eq_some_iff.mp hf
      have hlen : f.length = b.activeLen + frameSize - b.activeLen := by
        rw [hc.length hframe]
        omega
      have hslot : b.activeLen + frameSize ≤ (b.slots b.activeIdx).length := by
        rw [h.slot]
        exact of_decide_eq_true hroom
      have hcopy := copyToSlot_run (Nat.le_add_right b.activeLen frameSize) hslot hlen
      dsimp only
      rw [Prog.bind_run hcopy]
      rfl
    | none =>
      dsimp only
      by_cases hfl : b.flushing.isSome
      · rw [if_pos hfl, if_pos hfl]
        rfl
      · rw [if_neg hfl, if_neg hfl]
        by_cases hrot : b.activeLen % geo.sectorSize + frameSize ≤ geo.capacity
        · rw [if_pos hrot, if_pos hrot]
          have hrun := rotateSection_run h
          cases hb : b.rotateBegin geo with
          | error e =>
            rw [hb] at hrun
            exact Prog.bind_fail hrun
          | ok r =>
            rw [hb] at hrun
            rw [Prog.bind_run hrun]
            rfl
        · rw [if_neg hrot, if_neg hrot]
          have hrun := oversizeSection_run h hc alloc
          cases hb : b.oversizeBegin geo crc payload frame frameSize alloc with
          | error e =>
            rw [hb] at hrun
            exact Prog.bind_fail hrun
          | ok r =>
            rw [hb] at hrun
            rw [Prog.bind_run hrun]
            rfl

/-! ### Rotations -/

section

variable {payload : Bytes} {frame : Option Bytes} {frameSize : ℕ} {poison : Poison}
variable {alloc : Option IoError} {b' : LogState}

theorem checkedAdd_some {x y z : ℕ} (h : checkedAdd x y = some z) : z = x + y := by
  unfold checkedAdd at h
  split at h
  · exact (Option.some.inj h).symm
  · cases h

theorem rotateBegin_ok {w : SlotWrite} (h : b.rotateBegin geo = .ok (b', w)) :
    b' = { b.setSlot (!b.activeIdx) (overlay (b.slots (!b.activeIdx)) 0
        (((b.slots b.activeIdx).take b.activeLen).drop
          (b.activeLen - b.activeLen % geo.sectorSize))) with
      activeIdx := !b.activeIdx
      activeLen := b.activeLen - (b.activeLen - b.activeLen % geo.sectorSize)
      activeFlushPos := b.activeFlushPos + (b.activeLen - b.activeLen % geo.sectorSize)
      flushing := some (.slot b.activeIdx) } ∧
    w = ⟨b.activeIdx, b.activeLen, b.activeFlushPos, roundUp b.activeLen geo.sectorSize⟩ := by
  unfold LogState.rotateBegin at h
  dsimp only at h
  cases hadd : checkedAdd b.activeFlushPos (b.activeLen - b.activeLen % geo.sectorSize) with
  | none =>
    rw [hadd] at h
    cases h
  | some pos =>
    rw [hadd] at h
    cases h
    rw [checkedAdd_some hadd]
    exact ⟨rfl, rfl⟩

theorem appendPass_rotate {w : SlotWrite}
    (hp : b.appendPass geo crc poison payload frame frameSize alloc = .rotate b' w) :
    frame.filter (fun _ => b.activeLen + frameSize ≤ geo.capacity) = none ∧
      b.activeLen % geo.sectorSize + frameSize ≤ geo.capacity ∧
      b.rotateBegin geo = .ok (b', w) := by
  unfold LogState.appendPass at hp
  split at hp
  · cases hp
  · split at hp
    · cases hp
    · rename_i hfilter
      split at hp
      · cases hp
      · split at hp
        · rename_i hroom
          split at hp
          · cases hp
          · rename_i hb
            cases hp
            exact ⟨hfilter, hroom, hb⟩
        · split at hp
          · cases hp
          · cases hp

/-- A pass rotates only a slot with a whole sector in it, and so moves the flush position. -/
theorem rotate_advances {w : SlotWrite} (hc : Called geo crc payload frame frameSize)
    (hp : b.appendPass geo crc poison payload frame frameSize alloc = .rotate b' w) :
    geo.sectorSize ≤ b.activeLen ∧ b.activeFlushPos < b'.activeFlushPos := by
  obtain ⟨hfilter, hroom, hb⟩ := appendPass_rotate hp
  have hfit : frameSize ≤ geo.capacity := Nat.le_trans (Nat.le_add_left _ _) hroom
  have hnot : ¬ b.activeLen + frameSize ≤ geo.capacity := by
    intro hle
    rw [hc.frame, if_pos hfit, Option.filter_some, if_pos (decide_eq_true hle)] at hfilter
    cases hfilter
  have hdiv := Nat.div_add_mod b.activeLen geo.sectorSize
  have hsector : geo.sectorSize ≤ b.activeLen := by
    by_contra hlt
    rw [Nat.mod_eq_of_lt (Nat.not_le.mp hlt)] at hroom
    exact hnot hroom
  refine ⟨hsector, ?_⟩
  have hpos := geo.sector_pos
  have hmod := Nat.mod_lt b.activeLen hpos
  rw [(rotateBegin_ok hb).1]
  dsimp only
  omega

/-- Behind the carried partial sector there is room for the frame. -/
theorem pass_after_rotation {w : SlotWrite} (hc : Called geo crc payload frame frameSize)
    (hp : b.appendPass geo crc poison payload frame frameSize alloc = .rotate b' w)
    (poison' : Poison) (alloc' : Option IoError) :
    (∃ e, (b'.rotateEnd w).appendPass geo crc poison' payload frame frameSize alloc' = .fail e) ∨
    ∃ b'' start stop, (b'.rotateEnd w).appendPass geo crc poison' payload frame frameSize alloc' =
      .fits b'' start stop := by
  obtain ⟨-, hroom, hb⟩ := appendPass_rotate hp
  have hfit : frameSize ≤ geo.capacity := Nat.le_trans (Nat.le_add_left _ _) hroom
  have hlen : (b'.rotateEnd w).activeLen + frameSize ≤ geo.capacity := by
    have hmod := Nat.mod_le b.activeLen geo.sectorSize
    rw [(rotateBegin_ok hb).1]
    show b.activeLen - (b.activeLen - b.activeLen % geo.sectorSize) + frameSize ≤ geo.capacity
    omega
  unfold LogState.appendPass
  cases poison'.check with
  | error e => exact Or.inl ⟨e, rfl⟩
  | ok u =>
    rw [hc.frame, if_pos hfit, Option.filter_some, if_pos (decide_eq_true hlen)]
    exact Or.inr ⟨_, _, _, rfl⟩

/-! ### Bounds are kept -/

theorem InBounds.rotate {w : SlotWrite} (h : InBounds geo b)
    (hb : b.rotateBegin geo = .ok (b', w)) : InBounds geo b' := by
  have hmod := Nat.mod_lt b.activeLen geo.sector_pos
  have hle := h.le
  have hcarried : (((b.slots b.activeIdx).take b.activeLen).drop
      (b.activeLen - b.activeLen % geo.sectorSize)).length ≤ geo.capacity := by
    rw [List.length_drop, List.length_take]
    omega
  rw [(rotateBegin_ok hb).1]
  refine ⟨(h.overlaySlot (!b.activeIdx) 0 _ ?_).slot, ?_⟩
  · omega
  · dsimp only
    omega

theorem InBounds.rotateEnd {w : SlotWrite} (h : InBounds geo b) (hw : w.oldLen ≤ geo.capacity) :
    InBounds geo (b.rotateEnd w) := by
  refine ⟨(h.overlaySlot w.oldIdx 0 (zeros w.oldLen) ?_).slot, h.le⟩
  rw [length_zeros]
  omega

/-- The record's last partial sector is what the slot holds. -/
theorem InBounds.oversize {w : ScratchWrite} (h : InBounds geo b)
    (hb : b.oversizeBegin geo crc payload frame frameSize alloc = .ok (b', w)) :
    InBounds geo b' := by
  have hmod := Nat.mod_lt (b.activeLen + frameSize) geo.sector_pos
  have hsector := geo.sector_le
  have hle := h.le
  unfold LogState.oversizeBegin at hb
  cases htotal : checkedAdd b.activeLen frameSize with
  | none =>
    simp only [htotal] at hb
    cases hb
  | some total =>
    obtain rfl := checkedAdd_some htotal
    simp only [htotal] at hb
    split at hb
    · cases hb
    · cases alloc with
      | some e => cases hb
      | none =>
        dsimp only at hb
        split at hb
        · cases hb
        · cases hb
          have hlen : (overlay b.active 0 (zeros b.activeLen)).length = geo.capacity := by
            rw [length_overlay, LogState.active, h.slot, length_zeros]
            omega
          refine ⟨(h.setSlot b.activeIdx ?_).slot, ?_⟩
          · rw [length_overlay, hlen, List.length_drop, List.length_take]
            omega
          · dsimp only
            omega

/-- Whatever a pass does, the next one finds its buffers in bounds. -/
theorem passSection_inBounds (h : InBounds geo b) (hc : Called geo crc payload frame frameSize)
    (poison : Poison) (alloc : Option IoError) :
    InBounds geo (passSection geo crc poison payload frame frameSize alloc b).2 := by
  rw [passSection_run h hc]
  unfold LogState.appendPass
  cases poison.check with
  | error e => exact h
  | ok u =>
    dsimp only
    cases hf : frame.filter fun _ => b.activeLen + frameSize ≤ geo.capacity with
    | some f =>
      obtain ⟨hframe, hroom⟩ := Option.filter_eq_some_iff.mp hf
      have hle : b.activeLen + frameSize ≤ geo.capacity := of_decide_eq_true hroom
      have hset := h.overlaySlot b.activeIdx b.activeLen f (by rw [hc.length hframe]; exact hle)
      exact ⟨hset.slot, hle⟩
    | none =>
      dsimp only
      by_cases hfl : b.flushing.isSome
      · rw [if_pos hfl]
        exact h
      · rw [if_neg hfl]
        by_cases hrot : b.activeLen % geo.sectorSize + frameSize ≤ geo.capacity
        · rw [if_pos hrot]
          cases hb : b.rotateBegin geo with
          | error e => exact h
          | ok r => exact h.rotate hb
        · rw [if_neg hrot]
          cases hb : b.oversizeBegin geo crc payload frame frameSize alloc with
          | error e => exact h
          | ok r => exact h.oversize hb

/-! ### The loop -/

/-- A state in which every pass returns or fails needs one pass. -/
theorem appendLoop_one (plan : Plan PathBuf) (h : ∀ poison alloc,
      (∃ e, b.appendPass geo crc poison payload frame frameSize alloc = .fail e) ∨
      ∃ b' start stop, b.appendPass geo crc poison payload frame frameSize alloc =
        .fits b' start stop) (fuel : ℕ) :
    appendLoop crc plan geo payload frame frameSize (fuel + 1) b =
      appendLoop crc plan geo payload frame frameSize 1 b := by
  unfold appendLoop
  congr 1
  funext alloc
  congr 1
  funext hd
  obtain ⟨e, he⟩ | ⟨b', start, stop, he⟩ := h hd.poison alloc
  · rw [he]
  · rw [he]

/-- A caller alone goes through the loop twice at most. -/
theorem appendLoop_two (plan : Plan PathBuf) (hc : Called geo crc payload frame frameSize)
    (fuel : ℕ) :
    appendLoop crc plan geo payload frame frameSize (fuel + 2) b =
      appendLoop crc plan geo payload frame frameSize 2 b := by
  rw [appendLoop, appendLoop]
  congr 1
  funext alloc
  congr 1
  funext hd
  cases hp : b.appendPass geo crc hd.poison payload frame frameSize alloc with
  | fits b' start stop => rfl
  | wait => rfl
  | rotate b' w =>
    dsimp only
    rw [appendLoop_one plan (pass_after_rotation hc hp) fuel]
  | oversize b' w => rfl
  | fail e => rfl

/-- The write of a rotated slot and the scrubbing of it. -/
theorem rotate_rest {w : SlotWrite} (h : InBounds geo b) (hw : w.oldLen ≤ geo.capacity)
    (hl : w.writeLen ≤ geo.capacity) :
    rotateWrite w b = (.ok ((b.slots w.oldIdx).take w.writeLen), b) ∧
      rotateEndSection w b = (.ok (), b.rotateEnd w) := by
  constructor
  · have hs := sliceOf_run (Nat.zero_le w.writeLen) (by rw [h.slot w.oldIdx]; exact hl) b
    exact hs
  · have hfill : fillSlot w.oldIdx w.oldLen b =
        (.ok (), b.setSlot w.oldIdx (overlay (b.slots w.oldIdx) 0 (zeros w.oldLen))) :=
      copyToSlot_run (Nat.zero_le _) (by rw [h.slot]; exact hw) (by rw [length_zeros, Nat.sub_zero])
    rw [rotateEndSection, Prog.bind_run hfill]
    rfl

end

/-- What is asked of `append_frame` in a state of its buffers: a pass stays inside them and
leaves them so; a pass that fails changes nothing; a rotation is of a whole sector at least,
moves the flush position, stays inside the slots to its end, and is the last one when nobody
else appends. -/
structure AppendBounded (geo : Geometry) (crc : Crc) (payload : Bytes) (frame : Option Bytes)
    (frameSize : ℕ) (b : LogState) (poison : Poison) (alloc : Option IoError) : Prop where
  noPanic : (passSection geo crc poison payload frame frameSize alloc b).1 ≠ .error .panicked
  keeps : InBounds geo (passSection geo crc poison payload frame frameSize alloc b).2
  unchanged : ∀ e, (passSection geo crc poison payload frame frameSize alloc b).1 =
    .error (.failed e) → (passSection geo crc poison payload frame frameSize alloc b).2 = b
  advances : ∀ w, (passSection geo crc poison payload frame frameSize alloc b).1 =
    .ok (.rotates w) → geo.sectorSize ≤ b.activeLen ∧ b.activeFlushPos <
      (passSection geo crc poison payload frame frameSize alloc b).2.activeFlushPos
  rotation : ∀ w, (passSection geo crc poison payload frame frameSize alloc b).1 =
    .ok (.rotates w) → ∀ b1, InBounds geo b1 → ∃ bytes, rotateWrite w b1 = (.ok bytes, b1) ∧
      rotateEndSection w b1 = (.ok (), b1.rotateEnd w) ∧ InBounds geo (b1.rotateEnd w)
  once : ∀ w, (passSection geo crc poison payload frame frameSize alloc b).1 =
    .ok (.rotates w) → ∀ poison' alloc' w',
      (passSection geo crc poison' payload frame frameSize alloc'
        ((passSection geo crc poison payload frame frameSize alloc b).2.rotateEnd w)).1 ≠
        .ok (.rotates w')

/-- A pass that does not rotate. -/
theorem appendBounded_of_run {payload : Bytes} {frame : Option Bytes} {frameSize : ℕ}
    {poison : Poison} {alloc : Option IoError} {r : Except Abort PassEnd} {b' : LogState}
    (hrun : passSection geo crc poison payload frame frameSize alloc b = (r, b'))
    (hk : InBounds geo b') (hpanic : r ≠ .error .panicked)
    (hfail : ∀ e, r = .error (.failed e) → b' = b) (hrot : ∀ w, r ≠ .ok (.rotates w)) :
    AppendBounded geo crc payload frame frameSize b poison alloc := by
  refine ⟨?_, ?_, ?_, ?_, ?_, ?_⟩ <;> rw [hrun]
  · exact hpanic
  · exact hk
  · exact hfail
  · exact fun w hw => absurd hw (hrot w)
  · exact fun w hw => absurd hw (hrot w)
  · exact fun w hw => absurd hw (hrot w)

theorem appendBounded_of_rotate {payload : Bytes} {frame : Option Bytes} {frameSize : ℕ}
    {poison : Poison} {alloc : Option IoError} {b' : LogState} {w : SlotWrite}
    (h : InBounds geo b) (hc : Called geo crc payload frame frameSize)
    (hpass : b.appendPass geo crc poison payload frame frameSize alloc = .rotate b' w) :
    AppendBounded geo crc payload frame frameSize b poison alloc := by
  have hrun := passSection_run h hc poison alloc
  have hk := passSection_inBounds h hc poison alloc
  rw [hpass] at hrun
  rw [hrun] at hk
  obtain ⟨-, -, hb⟩ := appendPass_rotate hpass
  have hw := (rotateBegin_ok hb).2
  have hle := h.le
  have hround := geo.roundUp_le b.activeLen hle
  refine ⟨?_, ?_, ?_, ?_, ?_, ?_⟩ <;> rw [hrun]
  · nofun
  · exact hk
  · nofun
  · intro w' _
    exact rotate_advances hc hpass
  · intro w' hw' b1 h1
    cases hw'
    have hold : w.oldLen ≤ geo.capacity := by rw [hw]; exact hle
    obtain ⟨hwrite, hend⟩ := rotate_rest h1 hold (by rw [hw]; exact hround)
    exact ⟨_, hwrite, hend, h1.rotateEnd hold⟩
  · intro w' hw' poison' alloc' w''
    cases hw'
    have hold : w.oldLen ≤ geo.capacity := by rw [hw]; exact hle
    rw [passSection_run (hk.rotateEnd hold) hc]
    obtain ⟨e, he⟩ | ⟨b'', start, stop, he⟩ := pass_after_rotation hc hpass poison' alloc'
    · rw [he]
      nofun
    · rw [he]
      nofun

/-- `append_frame` in every state of its buffers, for every payload it accepts. -/
theorem append_frame_bounded (geo : Geometry) (crc : Crc) (payload : Bytes) (b : LogState)
    (hfit : Fits payload) (h : InBounds geo b) :
    ∃ frame frameSize, prepareFrame geo crc payload = .ok (frame, frameSize) ∧
      (∀ poison alloc, AppendBounded geo crc payload frame frameSize b poison alloc) ∧
      ∀ plan fuel, appendLoop crc plan geo payload frame frameSize (fuel + 2) b =
        appendLoop crc plan geo payload frame frameSize 2 b := by
  obtain ⟨frame, frameSize, hp, hc⟩ := prepareFrame_ok geo crc hfit
  refine ⟨frame, frameSize, hp, fun poison alloc => ?_, fun plan fuel => appendLoop_two plan hc fuel⟩
  have hrun := passSection_run h hc poison alloc
  have hk := passSection_inBounds h hc poison alloc
  cases hpass : b.appendPass geo crc poison payload frame frameSize alloc with
  | fits b' start stop =>
    rw [hpass] at hrun
    rw [hrun] at hk
    exact appendBounded_of_run hrun hk nofun nofun nofun
  | wait =>
    rw [hpass] at hrun
    exact appendBounded_of_run hrun h nofun nofun nofun
  | rotate b' w => exact appendBounded_of_rotate h hc hpass
  | oversize b' w =>
    rw [hpass] at hrun
    rw [hrun] at hk
    exact appendBounded_of_run hrun hk nofun nofun nofun
  | fail e =>
    rw [hpass] at hrun
    exact appendBounded_of_run hrun h nofun (fun _ _ => rfl) nofun

/-- Slots of two sectors, the active one full. -/
def smallSlots : Geometry := twoSectors

def fullSlot : LogState := ⟨fun _ => zeros 16, false, 16, 0, none⟩

/-- A payload that makes a full slot rotate. -/
theorem append_frame_bounded_full : Fits [7] ∧ InBounds smallSlots fullSlot ∧
    ∃ frame frameSize, prepareFrame smallSlots castagnoli [7] = .ok (frame, frameSize) ∧
      AppendBounded smallSlots castagnoli [7] frame frameSize fullSlot none none := by
  have hfit : Fits [7] := by decide
  have hin : InBounds smallSlots fullSlot := ⟨fun _ => rfl, Nat.le_refl 16⟩
  obtain ⟨frame, frameSize, hp, hb, -⟩ := append_frame_bounded smallSlots castagnoli [7] _ hfit hin
  exact ⟨hfit, hin, frame, frameSize, hp, hb none none⟩

example : ∃ b w, fullSlot.appendPass smallSlots castagnoli none [7]
    (some (frameBytes castagnoli [7])) 13 none = .rotate b w := ⟨_, _, rfl⟩

end Fsys.Journal
