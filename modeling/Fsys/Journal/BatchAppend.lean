import Fsys.Journal.SoloBuffer

/-!
# A batch is its records in a row (src/journal/mod.rs:890-1006)

`append_batch` and a sequence of `append` calls, with nobody else around and no
write or allocation that fails. Where a frame goes in Direct mode is a function
of the log buffer and the file alone (`placeFrame`); the per-record loop and the
sequence of calls fold it over the records, and the one-lock path is that fold
when everything fits.
-/

namespace Fsys.Journal
open Fsys.Base

variable (crc : Crc) (plan : Plan PathBuf)

/-! ### Records one by one -/

/-- `append` on each record, `last` being the LSN the call before returned. -/
def appendFrom : List Bytes → ℕ → HandleIo ℕ
  | [], last => pure last
  | record :: records, _ => do
    let lsn ← append crc plan record
    appendFrom records lsn

/-- `append` on each record in order, and the LSN the last call returned. -/
def appendAll (records : List Bytes) : HandleIo ℕ := do
  let last ← nextLsn
  appendFrom crc plan records last

/-- What the journal holds: the file, in Direct mode with the active slot over it. -/
def logicalBytes (s : World PathBuf × JournalHandle) : Bytes :=
  match s.2.logBuffer with
  | none => s.1.disk.data s.2.file
  | some lb => overlay (s.1.disk.data s.2.file) lb.state.activeFlushPos
      (lb.state.active.take lb.state.activeLen)

/-- A log buffer between two calls of a lone caller. -/
structure LogState.Ready (geo : Geometry) (b : LogState) : Prop where
  slot : ∀ i, (b.slots i).length = geo.capacity
  fill : b.activeLen ≤ geo.capacity
  idle : b.flushing = none

/-- A journal that accepts appends: any file, any slot contents and fill, any frontiers. -/
structure JournalHandle.Ready (h : JournalHandle) : Prop where
  healthy : h.poison = none
  buffer : ∀ lb, h.logBuffer = some lb → lb.state.Ready lb.geo

/-- No write to the file and no allocation fails. -/
structure NoFailure (plan : Plan PathBuf) (file : ℕ) : Prop where
  write : Io.Works plan (.write file)
  alloc : Io.Works plan .alloc

variable {plan}

/-! ### Calls that work -/

theorem allocError_works (h : Io.Works plan .alloc) (w : World PathBuf) (hd : JournalHandle) :
    ∃ w', allocError plan (w, hd) = (.ok none, (w', hd)) ∧ w'.disk = w.disk := by
  obtain ⟨n, hn⟩ := h w.clock
  have hcall : (call (Io.alloc plan)).attempt (w, hd) =
      ((.ok (.ok ()), (Io.World.tick w w.disk, hd)) :
        Except IoError (Except IoError Unit) × (World PathBuf × JournalHandle)) := by
    simp only [Prog.attempt, call, Prog.onFst, Io.alloc, Io.look, hn]
  refine ⟨Io.World.tick w w.disk, ?_, rfl⟩
  unfold allocError
  rw [Prog.bind_run hcall]
  rfl

theorem poisoning_write_works {file : ℕ} (h : Io.Works plan (.write file)) (pos : ℕ)
    (bytes : Bytes) (w : World PathBuf) (hd : JournalHandle) :
    ∃ w', poisoning (Io.writeAt plan file pos bytes) (w, hd) = (.ok (), (w', hd)) ∧
      w'.disk = w.disk.setData file (overlay (w.disk.data file) pos bytes) := by
  obtain ⟨n, hn⟩ := h w.clock
  have hcall : (call (Io.writeAt plan file pos bytes)).attempt (w, hd) =
      ((.ok (.ok ()), (Io.World.tick w
          (w.disk.setData file (overlay (w.disk.data file) pos bytes)), hd)) :
        Except IoError (Except IoError Unit) × (World PathBuf × JournalHandle)) := by
    simp only [Prog.attempt, call, Prog.onFst, Io.writeAt, hn]
  refine ⟨Io.World.tick w (w.disk.setData file (overlay (w.disk.data file) pos bytes)), ?_, rfl⟩
  unfold poisoning
  rw [Prog.bind_run hcall]
  rfl

/-! ### Where a frame goes -/

section

variable (geo : Geometry)

/-- The frame `append_frame` encodes in front of its loop. -/
def frameOf (payload : Bytes) : Option Bytes :=
  if payload.length + frameOverhead ≤ geo.capacity then some (frameBytes crc payload) else none

/-- One pass of a healthy journal that gets its memory. -/
def placePass (b : LogState) (payload : Bytes) : LogState.Pass :=
  b.appendPass geo crc none payload (frameOf crc geo payload) (payload.length + frameOverhead) none

/-- The log buffer and the file behind an append. -/
def placeFrame (b : LogState) (file payload : Bytes) : LogState × Bytes :=
  match placePass crc geo b payload with
  | .fits b _ _ => (b, file)
  | .rotate b w =>
    let file := overlay file w.oldFlushPos ((b.slots w.oldIdx).take w.writeLen)
    match placePass crc geo (b.rotateEnd w) payload with
    | .fits b _ _ => (b, file)
    | _ => (b, file)
  | .oversize b w => ({ b with flushing := none }, overlay file w.startPos w.scratch)
  | _ => (b, file)

/-- The log buffer and the file behind an append of each record. -/
def placeFrames (b : LogState) (file : Bytes) : List Bytes → LogState × Bytes
  | [] => (b, file)
  | payload :: records =>
    placeFrames (placeFrame crc geo b file payload).1 (placeFrame crc geo b file payload).2 records

/-- Bytes copied behind the active length. -/
def LogState.copied (b : LogState) (bytes : Bytes) : LogState :=
  { b.setSlot b.activeIdx (overlay b.active b.activeLen bytes) with
    activeLen := b.activeLen + bytes.length }

end

variable {geo : Geometry} {b : LogState}

theorem frameOf_eq {payload f : Bytes} (h : frameOf crc geo payload = some f) :
    f = frameBytes crc payload := by
  unfold frameOf at h
  split at h
  · exact (Option.some.inj h).symm
  · cases h

theorem placePass_fits (payload : Bytes)
    (h : b.activeLen + (payload.length + frameOverhead) ≤ geo.capacity) :
    placePass crc geo b payload = .fits (b.copied (frameBytes crc payload)) b.nextLsn
      (b.nextLsn + (payload.length + frameOverhead)) := by
  have hframe : frameOf crc geo payload = some (frameBytes crc payload) := by
    unfold frameOf
    rw [if_pos (by omega)]
  unfold placePass LogState.appendPass
  simp only [Poison.check, hframe, Option.filter, decide_eq_true h, if_true, LogState.copied,
    length_frameBytes, LogState.nextLsn]

theorem slot_setSlot (hs : ∀ i, (b.slots i).length = geo.capacity) (idx : Bool) (bytes : Bytes)
    (hb : bytes.length = geo.capacity) (i : Bool) :
    ((b.setSlot idx bytes).slots i).length = geo.capacity := by
  show (Function.update b.slots idx bytes i).length = geo.capacity
  by_cases hi : i = idx
  · rw [hi, Function.update_self, hb]
  · rw [Function.update_of_ne hi, hs i]

theorem LogState.Ready.copied (h : b.Ready geo) (bytes : Bytes)
    (hb : b.activeLen + bytes.length ≤ geo.capacity) : (b.copied bytes).Ready geo := by
  refine ⟨slot_setSlot h.slot _ _ ?_, hb, h.idle⟩
  rw [length_overlay, show b.active.length = geo.capacity from h.slot _]
  omega

theorem tail_lt (geo : Geometry) (n : ℕ) : n - (n - n % geo.sectorSize) < geo.sectorSize := by
  have h := Nat.mod_lt n geo.sector_pos
  have hle := Nat.mod_le n geo.sectorSize
  omega

/-- A pass that does not fit and can make room by a rotation: behind the write the slot
holds the partial sector and the end of the log is where it was. -/
theorem placePass_rotate (h : b.Ready geo) (payload : Bytes)
    (hfull : ¬ b.activeLen + (payload.length + frameOverhead) ≤ geo.capacity)
    (hroom : b.activeLen % geo.sectorSize + (payload.length + frameOverhead) ≤ geo.capacity)
    (hlsn : b.nextLsn < 2 ^ 64) :
    ∃ b' w, placePass crc geo b payload = .rotate b' w ∧ (b'.rotateEnd w).Ready geo ∧
      (b'.rotateEnd w).activeLen = b.activeLen % geo.sectorSize ∧
      (b'.rotateEnd w).nextLsn = b.nextLsn := by
  have hframe : frameOf crc geo payload = some (frameBytes crc payload) := by
    unfold frameOf
    rw [if_pos (by omega)]
  have hmod := Nat.mod_le b.activeLen geo.sectorSize
  have hadd : checkedAdd b.activeFlushPos (b.activeLen - b.activeLen % geo.sectorSize) =
      some (b.activeFlushPos + (b.activeLen - b.activeLen % geo.sectorSize)) := by
    unfold checkedAdd
    unfold LogState.nextLsn at hlsn
    rw [if_pos (by omega)]
  have hidle : b.flushing.isSome = false := by rw [h.idle]; rfl
  have hsector := geo.sector_le
  have htail := tail_lt geo b.activeLen
  unfold placePass LogState.appendPass LogState.rotateBegin
  simp only [Poison.check, hframe, Option.filter, decide_eq_false hfull, Bool.false_eq_true,
    if_false, hidle, if_pos hroom, hadd]
  refine ⟨_, _, rfl, ⟨?_, ?_, rfl⟩, ?_, ?_⟩
  · intro i
    unfold LogState.rotateEnd
    refine slot_setSlot (slot_setSlot h.slot _ _ ?_) _ _ ?_ i
    · rw [length_overlay, h.slot, List.length_drop, List.length_take, h.slot]
      have := h.fill
      omega
    · rw [length_overlay, length_zeros]
      have hold : (Function.update b.slots (!b.activeIdx) (overlay (b.slots (!b.activeIdx)) 0
          (((b.slots b.activeIdx).take b.activeLen).drop
            (b.activeLen - b.activeLen % geo.sectorSize))) b.activeIdx).length = geo.capacity := by
        rw [Function.update_of_ne (by simp), h.slot]
      have hfill := h.fill
      refine (congrArg (max · _) hold).trans (Nat.max_eq_left ?_)
      show 0 + b.activeLen ≤ geo.capacity
      omega
  · show b.activeLen - (b.activeLen - b.activeLen % geo.sectorSize) ≤ geo.capacity
    omega
  · show b.activeLen - (b.activeLen - b.activeLen % geo.sectorSize) = _
    omega
  · show b.activeFlushPos + (b.activeLen - b.activeLen % geo.sectorSize) +
      (b.activeLen - (b.activeLen - b.activeLen % geo.sectorSize)) = b.activeFlushPos + b.activeLen
    omega

/-- A pass whose record fits in no slot. -/
theorem placePass_oversize (h : b.Ready geo) (payload : Bytes) (hfit : Fits payload)
    (hfull : ¬ b.activeLen + (payload.length + frameOverhead) ≤ geo.capacity)
    (hroom : ¬ b.activeLen % geo.sectorSize + (payload.length + frameOverhead) ≤ geo.capacity)
    (hlsn : b.nextLsn + (payload.length + frameOverhead) < 2 ^ 64) :
    ∃ b' w, placePass crc geo b payload = .oversize b' w ∧
      { b' with flushing := none }.Ready geo ∧
      { b' with flushing := none }.nextLsn = b.nextLsn + (payload.length + frameOverhead) ∧
      w.recordStart = b.nextLsn ∧ w.frameSize = payload.length + frameOverhead := by
  have hnofit : (frameOf crc geo payload).filter
      (fun _ => b.activeLen + (payload.length + frameOverhead) ≤ geo.capacity) = none := by
    cases frameOf crc geo payload with
    | none => rfl
    | some f => simp only [Option.filter, decide_eq_false hfull, Bool.false_eq_true, if_false]
  have hidle : b.flushing.isSome = false := by rw [h.idle]; rfl
  have hmod := Nat.mod_le (b.activeLen + (payload.length + frameOverhead)) geo.sectorSize
  have htail := tail_lt geo (b.activeLen + (payload.length + frameOverhead))
  have hsector := geo.sector_le
  unfold LogState.nextLsn at hlsn
  have htotal : checkedAdd b.activeLen (payload.length + frameOverhead) =
      some (b.activeLen + (payload.length + frameOverhead)) := by
    unfold checkedAdd
    rw [if_pos (by omega)]
  generalize hT : b.activeLen + (payload.length + frameOverhead) = total at *
  have hwhole : checkedAdd b.activeFlushPos (total - total % geo.sectorSize) =
      some (b.activeFlushPos + (total - total % geo.sectorSize)) := by
    unfold checkedAdd
    rw [if_pos (by omega)]
  have hscratch := scratchFrame_ok payload hfit (frameOf crc geo payload)
    (fun f hf => frameOf_eq crc hf) b.activeLen (roundUp total geo.sectorSize)
    (by rw [hT]; exact geo.le_roundUp total)
  rw [hT] at hscratch
  unfold placePass LogState.appendPass LogState.oversizeBegin
  simp only [Poison.check, hT, hnofit, hidle, Bool.false_eq_true, if_false, if_neg hroom, htotal,
    hwhole, hscratch]
  refine ⟨_, _, rfl, ⟨?_, ?_, rfl⟩, ?_, rfl, rfl⟩
  · refine slot_setSlot h.slot _ _ ?_
    rw [length_overlay, length_overlay, length_zeros, show b.active.length = _ from h.slot _,
      List.length_drop, List.length_take]
    have := h.fill
    omega
  · show total - (total - total % geo.sectorSize) ≤ geo.capacity
    omega
  · show b.activeFlushPos + (total - total % geo.sectorSize) +
      (total - (total - total % geo.sectorSize)) = b.activeFlushPos + b.activeLen +
        (payload.length + frameOverhead)
    omega

/-! ### Appending is placing frames -/

/-- The disk after the journal file got these contents: nothing else changed. -/
structure FileIs (w w' : World PathBuf) (file : ℕ) (bytes : Bytes) : Prop where
  data : w'.disk.data file = bytes
  others : ∀ j, j ≠ file → w'.disk.data j = w.disk.data j
  names : w'.disk.names = w.disk.names

theorem FileIs.same {w w' : World PathBuf} (h : w'.disk = w.disk) (file : ℕ) :
    FileIs w w' file (w.disk.data file) :=
  ⟨by rw [h], fun _ _ => by rw [h], by rw [h]⟩

theorem FileIs.set {w w1 w' : World PathBuf} {file : ℕ} {bytes : Bytes}
    (h : FileIs w w1 file bytes) {bytes' : Bytes}
    (hd : w'.disk = w1.disk.setData file bytes') : FileIs w w' file bytes' := by
  refine ⟨by rw [hd, Disk.data_setData], ?_, by rw [hd]; exact h.names⟩
  intro j hj
  rw [hd]
  exact (Function.update_of_ne hj _ _).trans (h.others j hj)

theorem FileIs.trans {w w1 w' : World PathBuf} {file : ℕ} {bytes bytes' : Bytes}
    (h : FileIs w w1 file bytes) (h' : FileIs w1 w' file bytes') : FileIs w w' file bytes' :=
  ⟨h'.data, fun j hj => (h'.others j hj).trans (h.others j hj), h'.names.trans h.names⟩

theorem handle_run (w : World PathBuf) (h : JournalHandle) : handle (w, h) = (.ok h, (w, h)) := rfl

theorem setBuffer_run (w : World PathBuf) (h : JournalHandle) (b : LogState) :
    setBuffer geo b (w, h) = (.ok (), (w, h.withBuffer geo b)) := rfl

theorem withBuffer_logBuffer (h : JournalHandle) (geo : Geometry) (b : LogState) :
    (h.withBuffer geo b).logBuffer = some ⟨geo, b⟩ := rfl

theorem LogState.copied_nextLsn (b : LogState) (bytes : Bytes) :
    (b.copied bytes).nextLsn = b.nextLsn + bytes.length := by
  show b.activeFlushPos + (b.activeLen + bytes.length) = b.activeFlushPos + b.activeLen + _
  omega

/-- A pass that finds room. -/
theorem appendLoop_fits {h : JournalHandle} (ha : Io.Works plan .alloc) (hpoison : h.poison = none)
    (payload : Bytes) (hfits : b.activeLen + (payload.length + frameOverhead) ≤ geo.capacity)
    (fuel : ℕ) (w : World PathBuf) :
    ∃ w', appendLoop crc plan geo payload (frameOf crc geo payload)
        (payload.length + frameOverhead) (fuel + 1) b (w, h) =
          (.ok (b.nextLsn, b.nextLsn + (payload.length + frameOverhead)),
            (w', h.withBuffer geo (b.copied (frameBytes crc payload)))) ∧ w'.disk = w.disk := by
  obtain ⟨w1, halloc, hd1⟩ := allocError_works ha w h
  have hpass := placePass_fits crc payload hfits
  unfold placePass at hpass
  unfold appendLoop
  rw [Prog.bind_run halloc, Prog.bind_run (handle_run w1 h), hpoison, hpass]
  exact ⟨w1, rfl, hd1⟩

/-- The loop of `append_frame` of a lone caller places the frame. -/
theorem appendLoop_places {h : JournalHandle} (hn : NoFailure plan h.file)
    (hpoison : h.poison = none) (hb : b.Ready geo) (payload : Bytes) (hfit : Fits payload)
    (hlsn : b.nextLsn + (payload.length + frameOverhead) < 2 ^ 64) (w : World PathBuf) :
    ∃ w', appendLoop crc plan geo payload (frameOf crc geo payload)
        (payload.length + frameOverhead) 2 b (w, h) =
          (.ok (b.nextLsn, b.nextLsn + (payload.length + frameOverhead)),
            (w', h.withBuffer geo (placeFrame crc geo b (w.disk.data h.file) payload).1)) ∧
      FileIs w w' h.file (placeFrame crc geo b (w.disk.data h.file) payload).2 ∧
      (placeFrame crc geo b (w.disk.data h.file) payload).1.Ready geo ∧
      (placeFrame crc geo b (w.disk.data h.file) payload).1.nextLsn =
        b.nextLsn + (payload.length + frameOverhead) := by
  have hlen := length_frameBytes crc payload
  by_cases hfits : b.activeLen + (payload.length + frameOverhead) ≤ geo.capacity
  · have hplace : placeFrame crc geo b (w.disk.data h.file) payload =
        (b.copied (frameBytes crc payload), w.disk.data h.file) := by
      unfold placeFrame
      rw [placePass_fits crc payload hfits]
    obtain ⟨w1, hloop, hd1⟩ := appendLoop_fits crc hn.alloc hpoison payload hfits 1 w
    rw [hplace]
    refine ⟨w1, hloop, .same hd1 h.file, hb.copied _ (by rw [hlen]; exact hfits), ?_⟩
    rw [LogState.copied_nextLsn, hlen]
  · obtain ⟨w1, halloc, hd1⟩ := allocError_works hn.alloc w h
    by_cases hroom : b.activeLen % geo.sectorSize + (payload.length + frameOverhead) ≤ geo.capacity
    · -- a rotation makes room for the second pass
      obtain ⟨b', sw, hpass, hb', htail, hnext⟩ :=
        placePass_rotate crc hb payload hfits hroom (by omega)
      have hfits' : (b'.rotateEnd sw).activeLen + (payload.length + frameOverhead) ≤
          geo.capacity := by rw [htail]; exact hroom
      have hplace : placeFrame crc geo b (w.disk.data h.file) payload =
          ((b'.rotateEnd sw).copied (frameBytes crc payload), overlay (w.disk.data h.file)
            sw.oldFlushPos ((b'.slots sw.oldIdx).take sw.writeLen)) := by
        unfold placeFrame
        rw [hpass]
        dsimp only
        rw [placePass_fits crc payload hfits']
      obtain ⟨w2, hwrite, hd2⟩ := poisoning_write_works hn.write sw.oldFlushPos
        ((b'.slots sw.oldIdx).take sw.writeLen) w1 (h.withBuffer geo (b'.rotateEnd sw))
      obtain ⟨w3, hloop, hd3⟩ := appendLoop_fits crc
        (h := h.withBuffer geo (b'.rotateEnd sw)) hn.alloc hpoison payload hfits' 0 w2
      rw [hplace]
      unfold placePass at hpass
      unfold appendLoop
      rw [Prog.bind_run halloc, Prog.bind_run (handle_run w1 h), hpoison, hpass]
      dsimp only
      rw [Prog.bind_run (setBuffer_run w1 h (b'.rotateEnd sw)), Prog.bind_run hwrite, hloop, hnext]
      refine ⟨w3, rfl, ?_, hb'.copied _ (by rw [hlen]; exact hfits'), ?_⟩
      · have h2 : FileIs w w2 h.file _ := (FileIs.same hd1 h.file).set hd2
        rw [hd1] at h2
        have h3 := h2.trans (FileIs.same hd3 h.file)
        rw [h2.data] at h3
        exact h3
      · rw [LogState.copied_nextLsn, hlen, hnext]
    · obtain ⟨b', sw, hpass, hb', hnext, hstart, hsize⟩ :=
        placePass_oversize crc hb payload hfit hfits hroom hlsn
      have hplace : placeFrame crc geo b (w.disk.data h.file) payload =
          ({ b' with flushing := none }, overlay (w.disk.data h.file) sw.startPos sw.scratch) := by
        unfold placeFrame
        rw [hpass]
      obtain ⟨w2, hwrite, hd2⟩ := poisoning_write_works hn.write sw.startPos sw.scratch w1
        (h.withBuffer geo { b' with flushing := none })
      rw [hplace]
      unfold placePass at hpass
      unfold appendLoop
      rw [Prog.bind_run halloc, Prog.bind_run (handle_run w1 h), hpoison, hpass]
      dsimp only
      rw [Prog.bind_run (setBuffer_run w1 h { b' with flushing := none }), Prog.bind_run hwrite,
        hstart, hsize]
      refine ⟨w2, rfl, ?_, hb', hnext⟩
      have h2 : FileIs w w2 h.file _ := (FileIs.same hd1 h.file).set hd2
      rw [hd1] at h2
      exact h2

theorem appendFrame_eq (payload : Bytes) (hfit : Fits payload)
    (s : World PathBuf × JournalHandle) :
    appendFrame crc plan ⟨geo, b⟩ payload s = appendLoop crc plan geo payload
      (frameOf crc geo payload) (payload.length + frameOverhead) 2 b s := by
  have hlen : (Prog.lift (frameLen payload.length) : HandleIo ℕ) s =
      (.ok (payload.length + frameOverhead), s) := by
    rw [frameLen_ok payload hfit]
    rfl
  have henc : (Prog.lift (encodeFrameOwned crc payload) : HandleIo Bytes) s =
      (.ok (frameBytes crc payload), s) := by
    rw [encodeFrameOwned_ok crc payload hfit]
    rfl
  unfold appendFrame frameOf
  rw [Prog.bind_run hlen]
  dsimp only
  split
  · rw [Prog.bind_run henc]
  · rfl

/-- The LSN behind a list of records, `last` for the empty one. -/
def lsnAfter (b : LogState) (records : List Bytes) (last : ℕ) : ℕ :=
  if records = [] then last else b.nextLsn + framesLen records

theorem lsnAfter_cons {b' : LogState} (payload : Bytes) (records : List Bytes) (last : ℕ)
    (h : b'.nextLsn = b.nextLsn + (payload.length + frameOverhead)) :
    lsnAfter b' records (b.nextLsn + (payload.length + frameOverhead)) =
      lsnAfter b (payload :: records) last := by
  unfold lsnAfter
  cases records with
  | nil => simp [framesLen]
  | cons r records =>
    simp only [reduceCtorEq, if_false, h, framesLen_cons payload]
    omega

/-- The per-record loop of a batch places its frames. -/
theorem appendEach_places (records : List Bytes) (h : JournalHandle)
    (hn : NoFailure plan h.file) (hpoison : h.poison = none) (b : LogState) (hb : b.Ready geo)
    (hfits : ∀ p ∈ records, Fits p) (hlsn : b.nextLsn + framesLen records < 2 ^ 64)
    (w : World PathBuf) (last : ℕ) :
    ∃ w', appendEach crc plan records last (w, h.withBuffer geo b) =
        (.ok (lsnAfter b records last),
          (w', h.withBuffer geo (placeFrames crc geo b (w.disk.data h.file) records).1)) ∧
      FileIs w w' h.file (placeFrames crc geo b (w.disk.data h.file) records).2 := by
  induction records generalizing b w last with
  | nil => exact ⟨w, rfl, .same rfl h.file⟩
  | cons payload records ih =>
    rw [framesLen_cons] at hlsn
    obtain ⟨w1, hloop, hfile1, hb1, hnext1⟩ := appendLoop_places crc
      (h := h.withBuffer geo b) hn hpoison hb payload (hfits payload List.mem_cons_self)
      (by omega) w
    obtain ⟨w2, hrest, hfile2⟩ := ih _ hb1 (fun p hp => hfits p (List.mem_cons_of_mem _ hp))
      (by omega) w1 (b.nextLsn + (payload.length + frameOverhead))
    have hdata : w1.disk.data h.file = _ := hfile1.data
    rw [hdata] at hrest hfile2
    refine ⟨w2, ?_, hfile1.trans hfile2⟩
    unfold appendEach
    rw [Prog.bind_run (handle_run w _)]
    simp only [withBuffer_logBuffer]
    rw [Prog.bind_run ((appendFrame_eq crc payload (hfits payload List.mem_cons_self) _).trans hloop)]
    refine hrest.trans ?_
    rw [lsnAfter_cons payload records last hnext1]
    rfl

/-- An append in Direct mode places its frame and moves the public frontier up. -/
theorem append_places (h : JournalHandle) (hn : NoFailure plan h.file) (hpoison : h.poison = none)
    (hb : b.Ready geo) (payload : Bytes) (hfit : Fits payload)
    (hlsn : b.nextLsn + (payload.length + frameOverhead) < 2 ^ 64) (w : World PathBuf) :
    ∃ w', append crc plan payload (w, h.withBuffer geo b) =
        (.ok (b.nextLsn + (payload.length + frameOverhead)),
          (w', { h with nextLsn := max h.nextLsn (b.nextLsn + (payload.length + frameOverhead)) }.withBuffer
            geo (placeFrame crc geo b (w.disk.data h.file) payload).1)) ∧
      FileIs w w' h.file (placeFrame crc geo b (w.disk.data h.file) payload).2 ∧
      (placeFrame crc geo b (w.disk.data h.file) payload).1.Ready geo ∧
      (placeFrame crc geo b (w.disk.data h.file) payload).1.nextLsn =
        b.nextLsn + (payload.length + frameOverhead) := by
  obtain ⟨w1, hloop, hfile1, hb1, hnext1⟩ := appendLoop_places crc
    (h := h.withBuffer geo b) hn hpoison hb payload hfit hlsn w
  refine ⟨w1, ?_, hfile1, hb1, hnext1⟩
  have hcheck : (Prog.lift (h.withBuffer geo b).poison.check : HandleIo Unit)
      (w, h.withBuffer geo b) = (.ok (), (w, h.withBuffer geo b)) := by
    show (Poison.check h.poison, _) = _
    rw [hpoison]
    rfl
  unfold append
  rw [Prog.bind_run (handle_run w _), Prog.bind_run hcheck]
  simp only [withBuffer_logBuffer]
  rw [Prog.bind_run ((appendFrame_eq crc payload hfit _).trans hloop)]
  rfl

/-- Appends in a row place their frames. -/
theorem appendFrom_places (records : List Bytes) (h : JournalHandle)
    (hn : NoFailure plan h.file) (hpoison : h.poison = none) (b : LogState) (hb : b.Ready geo)
    (hfits : ∀ p ∈ records, Fits p) (hlsn : b.nextLsn + framesLen records < 2 ^ 64)
    (w : World PathBuf) (last : ℕ) :
    ∃ w', appendFrom crc plan records last (w, h.withBuffer geo b) =
        (.ok (lsnAfter b records last),
          (w', { h with nextLsn := max h.nextLsn (lsnAfter b records h.nextLsn) }.withBuffer geo
            (placeFrames crc geo b (w.disk.data h.file) records).1)) ∧
      FileIs w w' h.file (placeFrames crc geo b (w.disk.data h.file) records).2 := by
  induction records generalizing b w last h with
  | nil =>
    refine ⟨w, ?_, .same rfl h.file⟩
    show (Except.ok last, (w, h.withBuffer geo b)) = _
    simp only [lsnAfter, if_true, Nat.max_self, placeFrames]
  | cons payload records ih =>
    rw [framesLen_cons] at hlsn
    obtain ⟨w1, happ, hfile1, hb1, hnext1⟩ := append_places crc h hn hpoison hb payload
      (hfits payload List.mem_cons_self) (by omega) w
    obtain ⟨w2, hrest, hfile2⟩ := ih
      { h with nextLsn := max h.nextLsn (b.nextLsn + (payload.length + frameOverhead)) } hn hpoison
      _ hb1 (fun p hp => hfits p (List.mem_cons_of_mem _ hp)) (by omega) w1
      (b.nextLsn + (payload.length + frameOverhead))
    have hdata : w1.disk.data h.file = _ := hfile1.data
    dsimp only at hrest hfile2
    rw [hdata] at hrest hfile2
    have hfront : max (max h.nextLsn (b.nextLsn + (payload.length + frameOverhead)))
        (lsnAfter (placeFrame crc geo b (w.disk.data h.file) payload).1 records
          (max h.nextLsn (b.nextLsn + (payload.length + frameOverhead)))) =
        max h.nextLsn (lsnAfter b (payload :: records) h.nextLsn) := by
      unfold lsnAfter
      cases records with
      | nil => simp [framesLen]
      | cons r records =>
        simp only [reduceCtorEq, if_false, hnext1, framesLen_cons payload]
        omega
    refine ⟨w2, ?_, hfile1.trans hfile2⟩
    unfold appendFrom
    rw [Prog.bind_run happ, hrest, hfront, lsnAfter_cons payload records last hnext1]
    rfl

/-! ### The one-lock path -/

theorem LogState.copied_copied (b : LogState) (x y : Bytes) :
    (b.copied x).copied y = b.copied (x ++ y) := by
  have hactive : (b.copied x).active = overlay b.active b.activeLen x :=
    Function.update_self _ _ _
  have hslots : Function.update (b.copied x).slots b.activeIdx
      (overlay (overlay b.active b.activeLen x) (b.activeLen + x.length) y) =
      Function.update b.slots b.activeIdx (overlay b.active b.activeLen (x ++ y)) := by
    rw [overlay_overlay]
    exact Function.update_idem _ _ _
  show ({ slots := Function.update (b.copied x).slots b.activeIdx (overlay (b.copied x).active
      (b.activeLen + x.length) y)
          activeIdx := b.activeIdx
          activeLen := b.activeLen + x.length + y.length
          activeFlushPos := b.activeFlushPos
          flushing := b.flushing } : LogState) = _
  rw [hactive, hslots, LogState.copied, List.length_append, Nat.add_assoc]
  rfl

/-- Frames that all fit are copied behind each other. -/
theorem placeFrames_fits (records : List Bytes) (b : LogState) (file : Bytes)
    (hne : records ≠ []) (h : b.activeLen + framesLen records ≤ geo.capacity) :
    placeFrames crc geo b file records = (b.copied (framesBytes crc records), file) := by
  induction records generalizing b with
  | nil => exact absurd rfl hne
  | cons payload records ih =>
    rw [framesLen_cons] at h
    have hplace : placeFrame crc geo b file payload = (b.copied (frameBytes crc payload), file) := by
      unfold placeFrame
      rw [placePass_fits crc payload (by omega)]
    rw [placeFrames, hplace]
    cases records with
    | nil => rw [placeFrames, framesBytes_cons, framesBytes, List.flatMap_nil, List.append_nil]
    | cons r records =>
      have hfill : (b.copied (frameBytes crc payload)).activeLen =
          b.activeLen + (payload.length + frameOverhead) := by
        show b.activeLen + _ = _
        rw [length_frameBytes]
      rw [ih _ (List.cons_ne_nil _ _) (by rw [hfill]; omega), LogState.copied_copied,
        framesBytes_cons crc payload]

/-- The batch section copies the frames of a batch that fits, and changes nothing else. -/
theorem tryAppend_fits (hb : b.Ready geo) (records : List Bytes) (hfits : ∀ p ∈ records, Fits p)
    (h : framesLen records ≤ geo.capacity - b.activeLen) :
    b.tryAppendFramesBatched geo crc records (framesLen records) =
      (.ok (some (b.nextLsn, b.nextLsn + framesLen records)),
        b.copied (framesBytes crc records)) := by
  have hfill := hb.fill
  have hslot : b.active.length = geo.capacity := hb.slot _
  have hpre : (b.active.take b.activeLen).length = b.activeLen := by
    rw [List.length_take]
    omega
  have hsplit := List.take_append_drop b.activeLen b.active
  have henc := encodeFrames_spec crc records (b.active.take b.activeLen)
    (b.active.drop b.activeLen) hfits (by rw [List.length_drop]; omega)
  have hover := overlay_append (b.active.take b.activeLen) (b.active.drop b.activeLen)
    (framesBytes crc records) b.activeLen hpre.symm
  rw [length_framesBytes] at hover
  rw [← hover, hpre, hsplit] at henc
  unfold LogState.tryAppendFramesBatched
  dsimp only
  rw [if_neg (Nat.not_lt.mpr h), henc]
  simp only [LogState.copied, length_framesBytes, LogState.nextLsn, Nat.add_assoc]

theorem tryAppend_full (records : List Bytes)
    (h : ¬ framesLen records ≤ geo.capacity - b.activeLen) :
    b.tryAppendFramesBatched geo crc records (framesLen records) = (.ok none, b) := by
  unfold LogState.tryAppendFramesBatched
  dsimp only
  rw [if_pos (Nat.lt_of_not_le h)]

/-- A batch in Direct mode places its frames, on either path. -/
theorem appendBatchDirect_places (records : List Bytes) (hne : records ≠ []) (h : JournalHandle)
    (hn : NoFailure plan h.file) (hpoison : h.poison = none) (hb : b.Ready geo)
    (hfits : ∀ p ∈ records, Fits p) (hlsn : b.nextLsn + framesLen records < 2 ^ 64)
    (w : World PathBuf) (last : ℕ) :
    ∃ w', appendBatchDirect crc plan ⟨geo, b⟩ records (framesLen records) last
        (w, h.withBuffer geo b) = (.ok (b.nextLsn + framesLen records),
          (w', h.withBuffer geo (placeFrames crc geo b (w.disk.data h.file) records).1)) ∧
      FileIs w w' h.file (placeFrames crc geo b (w.disk.data h.file) records).2 := by
  unfold appendBatchDirect
  dsimp only
  have hfill := hb.fill
  by_cases hroom : framesLen records ≤ geo.capacity - b.activeLen
  · rw [tryAppend_fits crc hb records hfits hroom,
      placeFrames_fits crc records b _ hne (by omega)]
    exact ⟨w, rfl, .same rfl h.file⟩
  · rw [tryAppend_full crc records hroom]
    obtain ⟨w', heach, hfile⟩ := appendEach_places crc records h hn hpoison b hb hfits
      hlsn w last
    refine ⟨w', ?_, hfile⟩
    rw [lsnAfter, if_neg hne] at heach
    exact heach

/-! ### Buffered mode -/

theorem encodeForAppend_eq (record : Bytes) (h : Fits record) :
    encodeForAppend crc record = .ok (frameBytes crc record) := by
  unfold encodeForAppend
  rw [frameLen_ok record h]
  show (if _ then _ else _) = _
  split
  · rename_i hsmall
    rw [encodeFrameIntoUninit_ok crc record _ h (by rw [List.length_replicate]; exact hsmall)]
  · exact encodeFrameOwned_ok crc record h

theorem encodeBatch_eq (records : List Bytes) (out : Bytes) (h : ∀ p ∈ records, Fits p) :
    encodeBatch crc records out = .ok (out ++ framesBytes crc records) := by
  induction records generalizing out with
  | nil =>
    rw [framesBytes, List.flatMap_nil, List.append_nil]
    rfl
  | cons record records ih =>
    unfold encodeBatch
    rw [encodeFrameExtend_ok crc record out (h record List.mem_cons_self)]
    have hrest := ih (out ++ frameBytes crc record) fun p hp => h p (List.mem_cons_of_mem _ hp)
    rw [framesBytes_cons, ← List.append_assoc]
    exact hrest

theorem writeReserved_places (h : JournalHandle) (hn : NoFailure plan h.file) (bytes : Bytes)
    (w : World PathBuf) :
    ∃ w', writeReserved plan bytes (w, h) = (.ok (h.nextLsn + bytes.length),
        (w', { h with nextLsn := h.nextLsn + bytes.length })) ∧
      FileIs w w' h.file (overlay (w.disk.data h.file) h.nextLsn bytes) := by
  obtain ⟨w', hwrite, hd⟩ := poisoning_write_works hn.write h.nextLsn bytes w
    { h with nextLsn := h.nextLsn + bytes.length }
  have hset : setHandle (fun h => { h with nextLsn := h.nextLsn + bytes.length }) (w, h) =
      ((.ok (), (w, { h with nextLsn := h.nextLsn + bytes.length })) :
        Except IoError Unit × (World PathBuf × JournalHandle)) := rfl
  refine ⟨w', ?_, (FileIs.same rfl h.file).set hd⟩
  unfold writeReserved
  rw [Prog.bind_run (handle_run w h), Prog.bind_run hset, Prog.bind_run hwrite]
  rfl

theorem append_buffered (h : JournalHandle) (hn : NoFailure plan h.file)
    (hpoison : h.poison = none) (hnone : h.logBuffer = none) (record : Bytes) (hfit : Fits record)
    (w : World PathBuf) :
    ∃ w', append crc plan record (w, h) = (.ok (h.nextLsn + (record.length + frameOverhead)),
        (w', { h with nextLsn := h.nextLsn + (record.length + frameOverhead) })) ∧
      FileIs w w' h.file (overlay (w.disk.data h.file) h.nextLsn (frameBytes crc record)) := by
  obtain ⟨w', hwrite, hfile⟩ := writeReserved_places h hn (frameBytes crc record) w
  refine ⟨w', ?_, hfile⟩
  have hcheck : (Prog.lift h.poison.check : HandleIo Unit) (w, h) = (.ok (), (w, h)) := by
    rw [hpoison]
    rfl
  have henc : (Prog.lift (encodeForAppend crc record) : HandleIo Bytes) (w, h) =
      (.ok (frameBytes crc record), (w, h)) := by
    rw [encodeForAppend_eq crc record hfit]
    rfl
  rw [length_frameBytes] at hwrite
  unfold append
  rw [Prog.bind_run (handle_run w h), Prog.bind_run hcheck]
  simp only [hnone] at hwrite ⊢
  rw [Prog.bind_run henc, hwrite]

theorem appendFrom_buffered (records : List Bytes) (h : JournalHandle)
    (hn : NoFailure plan h.file) (hpoison : h.poison = none) (hnone : h.logBuffer = none)
    (hfits : ∀ p ∈ records, Fits p) (w : World PathBuf) :
    ∃ w', appendFrom crc plan records h.nextLsn (w, h) = (.ok (h.nextLsn + framesLen records),
        (w', { h with nextLsn := h.nextLsn + framesLen records })) ∧
      FileIs w w' h.file (match records with
        | [] => w.disk.data h.file
        | _ => overlay (w.disk.data h.file) h.nextLsn (framesBytes crc records)) := by
  induction records generalizing h w with
  | nil => exact ⟨w, rfl, .same rfl h.file⟩
  | cons record records ih =>
    obtain ⟨w1, happ, hfile1⟩ := append_buffered crc h hn hpoison hnone record
      (hfits record List.mem_cons_self) w
    obtain ⟨w2, hrest, hfile2⟩ := ih { h with nextLsn := h.nextLsn + (record.length + frameOverhead) }
      hn hpoison hnone (fun p hp => hfits p (List.mem_cons_of_mem _ hp)) w1
    dsimp only at hrest hfile2
    refine ⟨w2, ?_, ?_⟩
    · unfold appendFrom
      rw [Prog.bind_run happ, hrest, framesLen_cons, Nat.add_assoc]
    · have hboth := hfile1.trans hfile2
      rw [hfile1.data] at hboth
      cases records with
      | nil =>
        rw [framesBytes_cons, framesBytes, List.flatMap_nil, List.append_nil]
        exact hboth
      | cons r records =>
        dsimp only at hboth ⊢
        rw [← length_frameBytes crc record, overlay_overlay] at hboth
        rw [framesBytes_cons crc record]
        exact hboth

/-! ### Batches -/

theorem batchSize_valid (records : List Bytes) (total : ℕ) (hfits : ∀ p ∈ records, Fits p)
    (h : total + framesLen records < 2 ^ 64) :
    batchSize records total = .ok (total + framesLen records) := by
  induction records generalizing total with
  | nil => rfl
  | cons record records ih =>
    rw [framesLen_cons] at h ⊢
    have hfit : ¬ record.length > frameMaxPayload := Nat.not_lt.mpr (hfits record List.mem_cons_self)
    have hsize : checkedAdd record.length frameOverhead = some (record.length + frameOverhead) := by
      unfold checkedAdd
      rw [if_pos (by omega)]
    have htotal : checkedAdd total (record.length + frameOverhead) =
        some (total + (record.length + frameOverhead)) := by
      unfold checkedAdd
      rw [if_pos (by omega)]
    simp only [batchSize, if_neg hfit, hsize, htotal]
    rw [ih _ (fun p hp => hfits p (List.mem_cons_of_mem _ hp)) (by omega), Nat.add_assoc]

theorem batchSize_lt {records : List Bytes} {total size : ℕ}
    (h : batchSize records total = .ok size) (htotal : total < 2 ^ 64) : size < 2 ^ 64 := by
  induction records generalizing total with
  | nil =>
    cases h
    exact htotal
  | cons record records ih =>
    unfold batchSize checkedAdd at h
    split at h
    · cases h
    · split at h
      · cases h
      · split at h
        · cases h
        · rename_i htotal'
          split at htotal'
          · cases htotal'
            exact ih h (by assumption)
          · cases htotal'

/-- A batch that fails its size check has a record that is too long, or too many bytes. -/
theorem batchSize_error (records : List Bytes)
    (h : (∃ p ∈ records, ¬ Fits p) ∨ 2 ^ 64 ≤ framesLen records) :
    ∃ e, batchSize records 0 = .error e := by
  cases hsize : batchSize records 0 with
  | error e => exact ⟨e, rfl⟩
  | ok size =>
    obtain ⟨hlen, hfits⟩ := batchSize_ok hsize
    have hbound := batchSize_lt hsize (by decide)
    rcases h with ⟨p, hp, hfit⟩ | hlong
    · exact absurd (hfits p hp) hfit
    · omega

theorem appendBatch_rejected (records : List Bytes) (e : IoError)
    (hsize : batchSize records 0 = .error e) (w : World PathBuf) (h : JournalHandle) :
    ∃ e, appendBatch crc plan records (w, h) = (.error e, (w, h)) := by
  have hne : records ≠ [] := by
    intro hnil
    rw [hnil] at hsize
    cases hsize
  unfold appendBatch
  rw [Prog.bind_run (handle_run w h)]
  cases hpoison : h.poison with
  | some cause => exact ⟨_, rfl⟩
  | none =>
    refine ⟨e, ?_⟩
    have hcheck : (Prog.lift (Poison.check none) : HandleIo Unit) (w, h) = (.ok (), (w, h)) := rfl
    rw [Prog.bind_run hcheck, if_neg hne, hsize]
    rfl

variable (plan) in
theorem appendBatch_valid (records : List Bytes) (hne : records ≠ []) (h : JournalHandle)
    (hpoison : h.poison = none) (hfits : ∀ p ∈ records, Fits p)
    (hlen : framesLen records < 2 ^ 64) (w : World PathBuf) :
    appendBatch crc plan records (w, h) = (match h.logBuffer with
      | some lb => do
        let lastEnd ← appendBatchDirect crc plan lb records (framesLen records) h.nextLsn
        setHandle fun h => { h with nextLsn := max h.nextLsn lastEnd }
        pure lastEnd
      | none => writeReserved plan (framesBytes crc records) : HandleIo ℕ) (w, h) := by
  have hcheck : (Prog.lift h.poison.check : HandleIo Unit) (w, h) = (.ok (), (w, h)) := by
    rw [hpoison]
    rfl
  have hsize : (Prog.lift (batchSize records 0) : HandleIo ℕ) (w, h) =
      (.ok (framesLen records), (w, h)) := by
    rw [batchSize_valid records 0 hfits (by omega), Nat.zero_add]
    rfl
  have henc : (Prog.lift (encodeBatch crc records []) : HandleIo Bytes) (w, h) =
      (.ok (framesBytes crc records), (w, h)) := by
    rw [encodeBatch_eq crc records [] hfits]
    rfl
  unfold appendBatch
  rw [Prog.bind_run (handle_run w h), Prog.bind_run hcheck, if_neg hne, Prog.bind_run hsize]
  cases h.logBuffer with
  | some lb => rfl
  | none =>
    dsimp only
    rw [Prog.bind_run henc]

theorem withBuffer_self {h : JournalHandle} {lb : LogBuffer} (hlb : h.logBuffer = some lb) :
    h.withBuffer lb.geo lb.state = h := by
  unfold JournalHandle.withBuffer
  rw [show (⟨lb.geo, lb.state⟩ : LogBuffer) = lb from rfl, ← hlb]

theorem FileIs.data_eq {w wa wb : World PathBuf} {file : ℕ} {bytes : Bytes}
    (ha : FileIs w wa file bytes) (hb : FileIs w wb file bytes) : wb.disk.data = wa.disk.data := by
  funext j
  by_cases hj : j = file
  · rw [hj, ha.data, hb.data]
  · rw [ha.others j hj, hb.others j hj]

/-- Two runs from one world that end in the same LSN and handle, with the same files. -/
def SameEnd (batch each : Except IoError ℕ × (World PathBuf × JournalHandle)) : Prop :=
  ∃ lsn h wb wa, batch = (.ok lsn, (wb, h)) ∧ each = (.ok lsn, (wa, h)) ∧
    logicalBytes (wb, h) = logicalBytes (wa, h) ∧ wb.disk.data = wa.disk.data ∧
    wb.disk.names = wa.disk.names

theorem sameEnd_of_file {w wb wa : World PathBuf} {file : ℕ} {bytes : Bytes} {lsn : ℕ}
    {h : JournalHandle} {batch each : Except IoError ℕ × (World PathBuf × JournalHandle)}
    (hbatch : batch = (.ok lsn, (wb, h))) (heach : each = (.ok lsn, (wa, h)))
    (hb : FileIs w wb file bytes) (ha : FileIs w wa file bytes) : SameEnd batch each := by
  have hdata := ha.data_eq hb
  refine ⟨lsn, h, wb, wa, hbatch, heach, ?_, hdata, hb.names.trans ha.names.symm⟩
  unfold logicalBytes
  rw [hdata]

theorem appendBatch_direct (records : List Bytes) (hne : records ≠ []) (h : JournalHandle)
    (hn : NoFailure plan h.file) (hpoison : h.poison = none) (hb : b.Ready geo)
    (hfits : ∀ p ∈ records, Fits p) (hlsn : b.nextLsn + framesLen records < 2 ^ 64)
    (w : World PathBuf) :
    SameEnd (appendBatch crc plan records (w, h.withBuffer geo b))
      (appendAll crc plan records (w, h.withBuffer geo b)) := by
  obtain ⟨wb, hbatch, hfileb⟩ := appendBatchDirect_places crc records hne h hn hpoison hb hfits
    hlsn w h.nextLsn
  obtain ⟨wa, heach, hfilea⟩ := appendFrom_places crc records h hn hpoison b hb hfits hlsn w
    h.nextLsn
  have hvalid := appendBatch_valid crc plan records hne (h.withBuffer geo b) hpoison hfits
    (by omega) w
  simp only [lsnAfter, if_neg hne] at heach
  simp only [withBuffer_logBuffer] at hvalid
  refine sameEnd_of_file (hvalid.trans ?_) heach hfileb hfilea
  exact Prog.bind_run hbatch

theorem appendBatch_buffered (records : List Bytes) (hne : records ≠ []) (h : JournalHandle)
    (hn : NoFailure plan h.file) (hpoison : h.poison = none) (hnone : h.logBuffer = none)
    (hfits : ∀ p ∈ records, Fits p) (hlen : framesLen records < 2 ^ 64) (w : World PathBuf) :
    SameEnd (appendBatch crc plan records (w, h)) (appendAll crc plan records (w, h)) := by
  obtain ⟨wb, hbatch, hfileb⟩ := writeReserved_places h hn (framesBytes crc records) w
  obtain ⟨wa, heach, hfilea⟩ := appendFrom_buffered crc records h hn hpoison hnone hfits w
  have hvalid := appendBatch_valid crc plan records hne h hpoison hfits hlen w
  simp only [hnone] at hvalid
  rw [length_framesBytes] at hbatch
  cases records with
  | nil => exact absurd rfl hne
  | cons record records => exact sameEnd_of_file (hvalid.trans hbatch) heach hfileb hfilea

/-- `append_batch` on a journal that accepts appends ends as the appends of its records in
a row do: same LSN, same handle, same bytes. A batch that fails its size check changes
nothing, on any journal. LSNs are `u64`. -/
theorem append_batch_is_sequential (crc : Crc) (plan : Plan PathBuf) (records : List Bytes)
    (w : World PathBuf) (h : JournalHandle) :
    (h.Ready → NoFailure plan h.file → (∀ p ∈ records, Fits p) →
      h.frontier + framesLen records < 2 ^ 64 →
      SameEnd (appendBatch crc plan records (w, h)) (appendAll crc plan records (w, h))) ∧
    ((∃ p ∈ records, ¬ Fits p) ∨ 2 ^ 64 ≤ framesLen records →
      ∃ e, appendBatch crc plan records (w, h) = (.error e, (w, h))) := by
  refine ⟨?_, ?_⟩
  · intro hready hn hfits hlsn
    have hpoison := hready.healthy
    by_cases hne : records = []
    · have hbatch : appendBatch crc plan records (w, h) = (.ok h.nextLsn, (w, h)) := by
        have hcheck : (Prog.lift h.poison.check : HandleIo Unit) (w, h) = (.ok (), (w, h)) := by
          rw [hpoison]
          rfl
        unfold appendBatch
        rw [Prog.bind_run (handle_run w h), Prog.bind_run hcheck, if_pos hne]
        rfl
      refine sameEnd_of_file hbatch ?_ (.same rfl h.file) (.same rfl h.file)
      rw [hne]
      rfl
    · cases hlb : h.logBuffer with
      | none => exact appendBatch_buffered crc records hne h hn hpoison hlb hfits (by omega) w
      | some lb =>
        have hfront : h.frontier = lb.state.nextLsn := by
          unfold JournalHandle.frontier
          rw [hlb]
        rw [hfront] at hlsn
        have hdirect := appendBatch_direct crc records hne h hn hpoison (hready.buffer lb hlb) hfits
          hlsn w
        rw [withBuffer_self hlb] at hdirect
        exact hdirect
  · intro hbad
    obtain ⟨e, hsize⟩ := batchSize_error records hbad
    exact appendBatch_rejected crc records e hsize w h

/-- Two slots of four sectors of eight bytes, five bytes into the first. -/
def halfFull : JournalHandle where
  file := 0
  nextLsn := 21
  syncedLsn := 0
  committedLsn := 0
  logBuffer := some ⟨fourSectors, ⟨fun _ => zeros 32, false, 5, 16, none⟩⟩
  poison := none
  closed := false

theorem halfFull_ready : halfFull.Ready := by
  refine ⟨rfl, ?_⟩
  intro lb hlb
  cases hlb
  exact ⟨fun _ => length_zeros 32, by decide, rfl⟩

/-- An empty disk. -/
def bareWorld : World PathBuf :=
  ⟨⟨fun _ => none, fun _ => [], fun _ => false, 0, Disk.fresh_none⟩, 0, []⟩

/-- A record that fits, one behind a rotation and one that no slot holds. -/
theorem append_batch_is_sequential_half_full :
    SameEnd
      (appendBatch castagnoli (fun _ _ => .ok 0) [[1], zeros 18, zeros 90] (bareWorld, halfFull))
      (appendAll castagnoli (fun _ _ => .ok 0) [[1], zeros 18, zeros 90] (bareWorld, halfFull)) :=
  (append_batch_is_sequential castagnoli (fun _ _ => .ok 0) [[1], zeros 18, zeros 90] bareWorld
    halfFull).1 halfFull_ready ⟨fun _ => ⟨0, rfl⟩, fun _ => ⟨0, rfl⟩⟩ (by decide) (by decide)

end Fsys.Journal
