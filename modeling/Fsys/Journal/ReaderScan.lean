import Fsys.Journal.Reader

/-!
# The buffered iterator refines the one-shot scan

The valid region of the buffer mirrors the file from the cursor on. Compaction,
growth and short reads keep that; a decode of the mirrored prefix that is not
`Truncated` is the decode of the whole rest of the file, and a truncated one
either is final or is repeated with more bytes.
-/

namespace Fsys.Journal
open Fsys.Base Fsys.Base.Scan

/-- A schedule of non-empty short reads. -/
def shortReads (extra : ℕ → ℕ) : ReadSchedule := fun k => .short (extra k)

/-- The loops of `refill` and `read_exact_at`, which differ in what they make of the end of the
file. -/
def readUntil (eof : Bytes → Except IoError Bytes) (sched : ReadSchedule) (file : Bytes)
    (offset want : ℕ) : ℕ → ℕ → Bytes → Except IoError Bytes × ℕ
  | 0, k, got => (.ok got, k)
  | fuel + 1, k, got =>
    if got.length < want then
      match osRead (sched k) file (offset + got.length) (want - got.length) with
      | .error e => (.error e, k + 1)
      | .ok data =>
        if data.length = 0 then (eof got, k + 1)
        else readUntil eof sched file offset want fuel (k + 1) (got ++ data)
    else (.ok got, k)

/-- Non-empty short reads deliver every byte asked for, or come to the end of the file. -/
theorem readUntil_short (eof : Bytes → Except IoError Bytes) (extra : ℕ → ℕ) (file : Bytes)
    (offset want fuel k n : ℕ) (hn : n ≤ want) (hf : want ≤ n + fuel)
    (hin : n = 0 ∨ offset + n ≤ file.length) :
    ∃ k', readUntil eof (shortReads extra) file offset want fuel k ((file.drop offset).take n) =
      (if offset + want ≤ file.length ∨ want = 0 then .ok ((file.drop offset).take want)
        else eof (file.drop offset), k') := by
  induction fuel generalizing k n with
  | zero =>
    have he : n = want := by omega
    refine ⟨k, ?_⟩
    rw [readUntil, he, if_pos (by omega)]
  | succ fuel ih =>
    have hlen : ((file.drop offset).take n).length = n := by
      rw [List.length_take, List.length_drop]
      omega
    rw [readUntil, hlen]
    by_cases hlt : n < want
    · rw [if_pos hlt]
      simp only [osRead, shortReads]
      generalize hd : (file.drop (offset + n)).take (min (want - n) (extra k + 1)) = data
      have hdlen : data.length =
          min (min (want - n) (extra k + 1)) (file.length - (offset + n)) := by
        rw [← hd, List.length_take, List.length_drop]
      by_cases hend : file.length ≤ offset + n
      · have h0 : data.length = 0 := by omega
        have hall : (file.drop offset).take n = file.drop offset := by
          refine List.take_of_length_le ?_
          rw [List.length_drop]
          omega
        refine ⟨k + 1, ?_⟩
        rw [if_pos h0, if_neg (by omega), hall]
      · have hjoin : (file.drop offset).take n ++ data =
            (file.drop offset).take (n + data.length) := by
          rw [List.take_add, List.drop_drop, ← hd, List.length_take, ← List.take_eq_take_min]
        rw [if_neg (by omega), hjoin]
        exact ih (k + 1) (n + data.length) (by omega) (by omega) (by omega)
    · rw [if_neg hlt]
      have he : n = want := by omega
      exact ⟨k, by rw [he, if_pos (by omega)]⟩

namespace JournalIter

/-- The buffer invariant (`reader.rs:451-454`). -/
structure Mirrors (file : Bytes) (it : JournalIter) : Prop where
  file_eq : it.reader.file = file
  size_eq : it.reader.fileSize = file.length
  start_le : it.validStart ≤ it.validEnd
  end_le : it.validEnd ≤ it.buf.length
  room : readBufSize ≤ it.buf.length
  inFile : it.buffered = 0 ∨ it.reader.cursor + it.buffered ≤ file.length
  view_eq : it.view = (file.drop it.reader.cursor).take it.buffered

variable {file : Bytes} {it : JournalIter}

theorem Mirrors.length_view (h : Mirrors file it) : it.view.length = it.buffered := by
  have h1 := h.end_le
  have h2 := h.start_le
  simp only [view, buffered, List.length_take, List.length_drop]
  omega

/-- The rest of the file is the view and what has not been read yet. -/
theorem Mirrors.rest_eq (h : Mirrors file it) :
    file.drop it.reader.cursor = it.view ++ file.drop (it.reader.cursor + it.buffered) := by
  rw [h.view_eq, ← List.drop_drop, List.take_append_drop]

theorem mirrors_iter (file : Bytes) (r : JournalReader) (hf : r.file = file)
    (hs : r.fileSize = file.length) : Mirrors file r.iter where
  file_eq := hf
  size_eq := hs
  start_le := Nat.le_refl 0
  end_le := Nat.zero_le _
  room := by simp [JournalReader.iter]
  inFile := Or.inl rfl
  view_eq := by simp [JournalReader.iter, view, buffered]

/-! ### Consuming buffered bytes -/

theorem buffered_advance (it : JournalIter) (n : ℕ) :
    (it.advance n).buffered = it.buffered - n := by
  show it.validEnd - (it.validStart + n) = it.validEnd - it.validStart - n
  omega

theorem Mirrors.advance (h : Mirrors file it) (n : ℕ) (hn : n ≤ it.buffered) :
    Mirrors file (it.advance n) := by
  have hstart := h.start_le
  have hb := buffered_advance it n
  refine ⟨h.file_eq, h.size_eq, ?_, h.end_le, h.room, ?_, ?_⟩
  · show it.validStart + n ≤ it.validEnd
    unfold buffered at hn
    omega
  · have hc : (it.advance n).reader.cursor = it.reader.cursor + n := rfl
    have hin := h.inFile
    omega
  · have hv := congrArg (List.drop n) h.view_eq
    rw [view, List.drop_take, List.drop_take, List.drop_drop, List.drop_drop] at hv
    rw [view, hb]
    exact hv

theorem Mirrors.drain_eq (h : Mirrors file it) : it.drain = it.advance it.buffered := by
  have hstart := h.start_le
  have hend : it.validEnd = it.validStart + it.buffered := by
    unfold buffered
    omega
  rw [drain, JournalIter.advance, h.length_view, ← hend]

/-! ### Refill -/

theorem compact_spec (h : Mirrors file it) :
    Mirrors file it.compact ∧ it.compact.validStart = 0 ∧ it.compact.validEnd = it.buffered ∧
      it.compact.reader = it.reader ∧ it.compact.finished = it.finished ∧
      it.compact.buf.length = it.buf.length := by
  unfold compact
  by_cases hv : it.validStart > 0
  · rw [if_pos hv]
    have hlen := h.length_view
    have hle := h.end_le
    have hbuf : (overlay it.buf 0 it.view).length = it.buf.length := by
      rw [length_overlay, hlen]
      unfold buffered
      omega
    refine ⟨⟨h.file_eq, h.size_eq, Nat.zero_le _, ?_, ?_, h.inFile, ?_⟩, rfl, rfl, rfl, rfl, hbuf⟩
    · show it.buffered ≤ (overlay it.buf 0 it.view).length
      rw [hbuf]
      unfold buffered
      omega
    · show readBufSize ≤ (overlay it.buf 0 it.view).length
      rw [hbuf]
      exact h.room
    · show ((overlay it.buf 0 it.view).drop 0).take (it.buffered - 0) = _
      have ht := take_overlay_end it.buf 0 it.view.length it.view (Nat.zero_le _) (Nat.le_refl _)
      rw [Nat.zero_add, List.take_zero, List.nil_append, List.take_length, hlen] at ht
      rw [List.drop_zero, Nat.sub_zero, ht]
      exact h.view_eq
  · rw [if_neg hv]
    have h0 : it.validStart = 0 := by omega
    refine ⟨h, h0, ?_, rfl, rfl, rfl⟩
    unfold buffered
    omega

theorem grow_spec (h : Mirrors file it) (payloadLen : ℕ) :
    Mirrors file (it.grow payloadLen) ∧ (it.grow payloadLen).validStart = it.validStart ∧
      (it.grow payloadLen).validEnd = it.validEnd ∧ (it.grow payloadLen).reader = it.reader ∧
      (it.grow payloadLen).finished = it.finished ∧
      (it.grow payloadLen).buf.length =
        max it.buf.length (min (frameOverhead + payloadLen) (file.length - it.reader.cursor)) := by
  unfold grow
  dsimp only
  rw [h.size_eq]
  split
  · rename_i hlt
    have hle := h.end_le
    have hlen : (it.buf ++ zeros (min (frameOverhead + payloadLen)
        (file.length - it.reader.cursor) - it.buf.length)).length =
        max it.buf.length (min (frameOverhead + payloadLen)
          (file.length - it.reader.cursor)) := by
      rw [List.length_append, length_zeros]
      omega
    refine ⟨⟨h.file_eq, h.size_eq, h.start_le, ?_, ?_, h.inFile, ?_⟩, rfl, rfl, rfl, rfl, hlen⟩
    · show it.validEnd ≤ (it.buf ++ _).length
      rw [List.length_append]
      omega
    · show readBufSize ≤ (it.buf ++ _).length
      rw [List.length_append]
      have hr := h.room
      omega
    · show ((it.buf ++ _).drop it.validStart).take it.buffered = _
      have hs := h.start_le
      rw [List.drop_append_of_le_length (by omega), List.take_append_of_le_length (by
        rw [List.length_drop]
        unfold buffered
        omega)]
      exact h.view_eq
  · refine ⟨h, rfl, rfl, rfl, rfl, ?_⟩
    omega

theorem readLoop_eq (sched : ReadSchedule) (file : Bytes) (offset want fuel k : ℕ) (got : Bytes) :
    readLoop sched file offset want fuel k got =
      readUntil .ok sched file offset want fuel k got := by
  induction fuel generalizing k got with
  | zero => rfl
  | succ fuel ih =>
    unfold readLoop readUntil
    cases osRead (sched k) file (offset + got.length) (want - got.length) with
    | error e => rfl
    | ok data => simp only [ih]

/-- Non-empty short reads inside the file deliver every byte asked for. -/
theorem readLoop_short (extra : ℕ → ℕ) (file : Bytes) (offset want k : ℕ)
    (hin : offset + want ≤ file.length) :
    ∃ k', readLoop (shortReads extra) file offset want want k [] =
      (.ok ((file.drop offset).take want), k') := by
  obtain ⟨k', hloop⟩ := readUntil_short .ok extra file offset want want k 0
    (Nat.zero_le _) (by omega) (Or.inl rfl)
  rw [List.take_zero, if_pos (Or.inl hin)] at hloop
  exact ⟨k', by rw [readLoop_eq, hloop]⟩

/-- What `fill` and `refill` do to an iterator when they deliver `n` bytes. -/
structure Refilled (file : Bytes) (it : JournalIter) (n : ℕ) (it' : JournalIter) : Prop where
  mirrors : Mirrors file it'
  cursor_eq : it'.reader.cursor = it.reader.cursor
  finished_eq : it'.finished = it.finished
  buffered_eq : it'.buffered = it.buffered + n
  inFile : it.reader.cursor + it.buffered + n ≤ max file.length (it.reader.cursor + it.buffered)

theorem fill_spec (extra : ℕ → ℕ) (h : Mirrors file it) (h0 : it.validStart = 0) :
    ∃ n it', fill (shortReads extra) it = (.ok n, it') ∧ Refilled file it n it' ∧
      it'.buf.length = it.buf.length ∧
      n = min (file.length - (it.reader.cursor + it.validEnd)) (it.buf.length - it.validEnd) := by
  have hbuf : it.buffered = it.validEnd := by
    unfold buffered
    omega
  have hle := h.end_le
  have hstay : Refilled file it 0 it := ⟨h, rfl, rfl, rfl, by omega⟩
  unfold fill
  dsimp only
  rw [h.size_eq, h.file_eq]
  by_cases hoff : it.reader.cursor + it.validEnd ≥ file.length
  · exact ⟨0, it, if_pos hoff, hstay, rfl, by omega⟩
  · rw [if_neg hoff]
    by_cases hz : min (file.length - (it.reader.cursor + it.validEnd))
        (it.buf.length - it.validEnd) = 0
    · exact ⟨0, it, if_pos hz, hstay, rfl, by omega⟩
    · rw [if_neg hz]
      generalize hw : min (file.length - (it.reader.cursor + it.validEnd))
        (it.buf.length - it.validEnd) = want at hz ⊢
      obtain ⟨k', hk⟩ := readLoop_short extra file (it.reader.cursor + it.validEnd) want
        it.reader.reads (by omega)
      rw [hk]
      dsimp only
      generalize hd : (file.drop (it.reader.cursor + it.validEnd)).take want = data
      have hdl : data.length = want := by
        rw [← hd, List.length_take, List.length_drop]
        omega
      have hbl : (overlay it.buf it.validEnd data).length = it.buf.length := by
        rw [length_overlay]
        omega
      refine ⟨data.length, _, rfl, ⟨⟨rfl, rfl, ?_, ?_, ?_, ?_, ?_⟩, rfl, rfl, ?_, ?_⟩, hbl, hdl⟩
      · show it.validStart ≤ it.validEnd + data.length
        omega
      · show it.validEnd + data.length ≤ (overlay it.buf it.validEnd data).length
        rw [hbl]
        omega
      · show readBufSize ≤ (overlay it.buf it.validEnd data).length
        rw [hbl]
        exact h.room
      · refine Or.inr ?_
        show it.reader.cursor + (it.validEnd + data.length - it.validStart) ≤ file.length
        omega
      · show ((overlay it.buf it.validEnd data).drop it.validStart).take
          (it.validEnd + data.length - it.validStart) = _
        have hv := h.view_eq
        unfold view at hv
        rw [hbuf, h0, List.drop_zero] at hv
        have ht := take_overlay_end it.buf it.validEnd data.length data hle (Nat.le_refl _)
        rw [List.take_length, hv] at ht
        show _ = (file.drop it.reader.cursor).take (it.validEnd + data.length - it.validStart)
        rw [h0, List.drop_zero, Nat.sub_zero, ht, hdl, ← hd, ← List.drop_drop,
          ← List.take_add (i := it.validEnd)]
      · show it.validEnd + data.length - it.validStart = it.buffered + data.length
        omega
      · omega

theorem eight_lt_readBufSize : 8 < readBufSize := by decide

/-- The buffer has room, or it is full and the frame at its start needs more. -/
def NeedsMore (it : JournalIter) : Prop :=
  it.buffered < it.buf.length ∨
    (8 ≤ it.buffered ∧ leAt it.view 4 ≤ frameMaxPayload ∧
      it.buffered < frameOverhead + leAt it.view 4)

/-- `refill` delivers at least a byte as long as the file has one, and grows the buffer
only when it is full, to no more than the file holds from the cursor on. -/
theorem refill_spec (extra : ℕ → ℕ) (h : Mirrors file it) (hm : NeedsMore it) :
    ∃ n it', refill (shortReads extra) it = (.ok n, it') ∧ Refilled file it n it' ∧
      (it.reader.cursor + it.buffered < file.length → 0 < n) ∧
      (it'.buf.length = it.buf.length ∨
        it.buf.length = it.buffered ∧ it'.buf.length ≤ file.length - it.reader.cursor) := by
  obtain ⟨hc, hc0, hce, hcr, hcf, hcl⟩ := compact_spec h
  have hcb : it.compact.buffered = it.buffered := by
    unfold buffered at hce ⊢
    omega
  have hlift : ∀ n it', Refilled file it.compact n it' → Refilled file it n it' := by
    intro n it' hr
    have h1 := hr.cursor_eq
    have h2 := hr.finished_eq
    have h3 := hr.buffered_eq
    have h4 := hr.inFile
    rw [hcr] at h1 h4
    rw [hcf] at h2
    rw [hcb] at h3 h4
    exact ⟨hr.mirrors, h1, h2, h3, h4⟩
  unfold refill
  dsimp only
  by_cases hfull : it.compact.buf.length = it.compact.validEnd
  · rw [if_pos hfull]
    have hroom := h.room
    have hbig := eight_lt_readBufSize
    rcases hm with hm | ⟨h8, hmax, hneed⟩
    · omega
    · have hview : it.compact.view = it.view := by
        rw [hc.view_eq, h.view_eq, hcr, hcb]
      have hle4 : leAt it.compact.buf 4 = leAt it.view 4 := by
        have hv : it.compact.view = it.compact.buf.take it.buffered := by
          rw [view, hc0, List.drop_zero, hcb]
        have h1 := leAt_append_left (it.compact.buf.take it.buffered)
          (it.compact.buf.drop it.buffered) 4 (by
            rw [List.length_take]
            omega)
        rw [List.take_append_drop, ← hv, hview] at h1
        exact h1
      rw [if_neg (by omega), hle4, if_neg (by omega)]
      obtain ⟨hg, hg0, hge, hgr, hgf, hgl⟩ := grow_spec hc (leAt it.view 4)
      obtain ⟨n, it', hfill, hr, hbl, hn⟩ := fill_spec extra hg (by omega)
      have hgb : (it.compact.grow (leAt it.view 4)).buffered = it.compact.buffered := by
        unfold buffered
        omega
      have hr' : Refilled file it.compact n it' := by
        have h1 := hr.cursor_eq
        have h2 := hr.finished_eq
        have h3 := hr.buffered_eq
        have h4 := hr.inFile
        rw [hgr] at h1 h4
        rw [hgf] at h2
        rw [hgb] at h3 h4
        exact ⟨hr.mirrors, h1, h2, h3, h4⟩
      rw [hgr, hcr, hge, hce, hgl, hcl, hcr] at hn
      rw [hgl, hcl, hcr] at hbl
      rw [hcl, hce] at hfull
      refine ⟨n, it', hfill, hlift n it' hr', ?_, ?_⟩
      -- the declared length is a number like any other from here on
      all_goals
        clear hfill hr hr' hle4 hg hg0 hge hgr hgf hgl hgb
        generalize leAt it.view 4 = len at *
        omega
  · rw [if_neg hfull]
    obtain ⟨n, it', hfill, hr, hbl, hn⟩ := fill_spec extra hc hc0
    have hend := hc.end_le
    rw [hcr, hce] at hn
    refine ⟨n, it', hfill, hlift n it' hr, ?_, Or.inl (hbl.trans hcl)⟩
    intro hmore
    omega

/-! ### Zero runs -/

/-- The zero loop stops at the end of the zero run, with a byte of the view behind it,
or at the end of the file. It never grows the buffer. -/
theorem zeroLoop_spec (extra : ℕ → ℕ) (fuel : ℕ) (h : Mirrors file it) (hb : 0 < it.buffered)
    (hf : file.length - it.reader.cursor < fuel) :
    ∃ found it', zeroLoop (shortReads extra) fuel it = some (.ok found, it') ∧
      it'.finished = it.finished ∧ it'.buf.length = it.buf.length ∧
      (found = true → Mirrors file it' ∧
        zeroRun (file.drop it.reader.cursor) < (file.drop it.reader.cursor).length ∧
        it'.reader.cursor = it.reader.cursor + zeroRun (file.drop it.reader.cursor) ∧
        it.reader.cursor + it.buffered ≤ it'.reader.cursor + it'.buffered) ∧
      (found = false →
        zeroRun (file.drop it.reader.cursor) = (file.drop it.reader.cursor).length) := by
  induction fuel generalizing it with
  | zero => omega
  | succ fuel ih =>
    have hlen := h.length_view
    have hrest := h.rest_eq
    have hin := h.inFile.resolve_left (by omega)
    unfold zeroLoop
    dsimp only
    by_cases hk : zeroRun it.view < it.view.length
    · rw [if_pos hk]
      have hrun : zeroRun (file.drop it.reader.cursor) = zeroRun it.view := by
        rw [hrest, zeroRun_append_of_lt _ _ hk]
      have hb' := buffered_advance it (zeroRun it.view)
      have hc' : (it.advance (zeroRun it.view)).reader.cursor =
          it.reader.cursor + zeroRun it.view := rfl
      refine ⟨true, _, rfl, rfl, rfl, fun _ => ⟨h.advance _ (by omega), ?_, ?_, by omega⟩, nofun⟩
      · rw [hrun, List.length_drop]
        omega
      · rw [hrun, hc']
    · rw [if_neg hk]
      have hle := zeroRun_le it.view
      have hall : zeroRun it.view = it.view.length := by omega
      have hrun : zeroRun (file.drop it.reader.cursor) =
          it.buffered + zeroRun (file.drop (it.reader.cursor + it.buffered)) := by
        rw [hrest, zeroRun_append_of_eq _ _ hall, hlen]
      -- everything buffered was zero: the cursor goes behind it
      rw [h.drain_eq]
      have hm2 := h.advance it.buffered (Nat.le_refl _)
      have hb2 : (it.advance it.buffered).buffered = 0 := by
        rw [buffered_advance, Nat.sub_self]
      have hc2 : (it.advance it.buffered).reader.cursor = it.reader.cursor + it.buffered := rfl
      have hl2 : (it.advance it.buffered).buf.length = it.buf.length := rfl
      have hf2 : (it.advance it.buffered).finished = it.finished := rfl
      generalize it.advance it.buffered = it2 at *
      rw [hm2.size_eq, hc2]
      by_cases heof : it.reader.cursor + it.buffered ≥ file.length
      · rw [if_pos heof]
        refine ⟨false, it2, rfl, hf2, hl2, nofun, fun _ => ?_⟩
        have hnil : file.drop (it.reader.cursor + it.buffered) = [] :=
          List.drop_eq_nil_of_le heof
        rw [hrun, hnil, List.length_drop]
        show it.buffered + 0 = _
        omega
      · rw [if_neg heof]
        have hroom : it2.buffered < it2.buf.length := by
          have h1 := eight_lt_readBufSize
          have h2 := h.room
          omega
        obtain ⟨n, it3, hre, hr, hpos, hgrow⟩ := refill_spec extra hm2 (Or.inl hroom)
        have hn : 0 < n := hpos (by omega)
        have hl3 : it3.buf.length = it.buf.length := by omega
        obtain ⟨m, rfl⟩ : ∃ m, n = m + 1 := ⟨n - 1, by omega⟩
        rw [hre]
        dsimp only
        have h3c := hr.cursor_eq
        have h3b := hr.buffered_eq
        obtain ⟨found, it', hloop, hfin, hbl, htrue, hfalse⟩ := ih hr.mirrors (by omega) (by omega)
        rw [h3c, hc2] at htrue hfalse
        refine ⟨found, it', hloop, hfin.trans (hr.finished_eq.trans hf2), hbl.trans hl3, ?_, ?_⟩
        · intro ht
          obtain ⟨hm', hlt, hcur, hreach⟩ := htrue ht
          rw [List.length_drop] at hlt
          refine ⟨hm', ?_, ?_, ?_⟩
          · rw [hrun, List.length_drop]
            omega
          · rw [hcur, hrun]
            omega
          · omega
        · intro hff
          have hz := hfalse hff
          rw [List.length_drop] at hz
          rw [hrun, hz, List.length_drop]
          omega

/-! ### One pass of the loop in `next` -/

/-- Bytes not consumed yet and bytes not read yet. -/
def toGo (file : Bytes) (it : JournalIter) : ℕ :=
  (file.length - it.reader.cursor) + (file.length - (it.reader.cursor + it.buffered))

/-- What a pass may do to the buffer: nothing, or one growth within what the file holds
from the frame at the cursor on. -/
def Bounded (file : Bytes) (it it' : JournalIter) : Prop :=
  it'.buf.length = it.buf.length ∨
    (it'.reader.cursor = it.reader.cursor ∧
      it'.buf.length ≤ file.length - it.reader.cursor)

/-- A pass agrees with the one-shot scan. -/
inductive Agrees (crc : Crc) (file : Bytes) (it : JournalIter) : Turn → Prop where
  | again (it' : JournalIter) (mirrors : Mirrors file it') (live : it'.finished = false)
      (moved : it.reader.cursor ≤ it'.reader.cursor) (less : toGo file it' < toGo file it)
      (bounded : Bounded file it it')
      (same : plainScan crc file it.reader.cursor = plainScan crc file it'.reader.cursor) :
      Agrees crc file it (.again it')
  | item (it' : JournalIter) (r : JournalRecord) (mirrors : Mirrors file it')
      (live : it'.finished = false) (moved : it.reader.cursor < it'.reader.cursor)
      (inFile : it'.reader.cursor ≤ file.length) (bounded : Bounded file it it')
      (same : plainScan crc file it.reader.cursor =
        (plainScan crc file it'.reader.cursor).prepend [r]) :
      Agrees crc file it (.ret it' (some (.ok r)))
  | stop (it' : JournalIter) (moved : it.reader.cursor ≤ it'.reader.cursor)
      (done : it'.finished = true) (bounded : Bounded file it it')
      (same : plainScan crc file it.reader.cursor =
        ⟨[], it'.reader.lastState, it'.reader.cursor⟩) :
      Agrees crc file it (.ret it' none)

/-- A pass that only read more bytes first. -/
theorem Agrees.of_refilled {crc : Crc} {n : ℕ} {it' : JournalIter} {t : Turn}
    (hr : Refilled file it n it') (hbuf : it'.buf.length = it.buf.length)
    (h : Agrees crc file it' t) : Agrees crc file it t := by
  have hc := hr.cursor_eq
  have hb := hr.buffered_eq
  have hbound : ∀ it'', Bounded file it' it'' → Bounded file it it'' := by
    intro it'' h''
    unfold Bounded at h'' ⊢
    rw [hbuf, hc] at h''
    exact h''
  cases h with
  | again it'' mirrors live moved less bounded same =>
    refine .again it'' mirrors live (by omega) ?_ (hbound it'' bounded) (by rw [← hc, same])
    unfold toGo at less ⊢
    omega
  | item it'' r mirrors live moved inFile bounded same =>
    exact .item it'' r mirrors live (by omega) inFile (hbound it'' bounded) (by rw [← hc, same])
  | stop it'' moved done bounded same =>
    exact .stop it'' (by omega) done (hbound it'' bounded) (by rw [← hc, same])

/-- The rest of the file, split at its first byte. -/
theorem Mirrors.rest_cons (h : Mirrors file it) (hb : 0 < it.buffered) :
    ∃ bs, file.drop it.reader.cursor = it.buf.getD it.validStart 0 :: bs := by
  have hrest := h.rest_eq
  have hlen := h.length_view
  have hend := h.end_le
  unfold buffered at hb
  have hdrop : it.buf.drop it.validStart =
      it.buf.getD it.validStart 0 :: it.buf.drop (it.validStart + 1) := by
    rw [List.drop_eq_getElem_cons (by omega), List.getD_eq_getElem _ _ (by omega)]
  obtain ⟨k, hk⟩ : ∃ k, it.buffered = k + 1 := ⟨it.buffered - 1, by unfold buffered; omega⟩
  rw [hrest, view, hdrop, hk, List.take_succ_cons, List.cons_append]
  exact ⟨_, rfl⟩

/-- The zero branch of a pass. -/
theorem zeroTurn_agrees (crc : Crc) (extra : ℕ → ℕ) (h : Mirrors file it) (hb : 0 < it.buffered)
    (hlive : it.finished = false) (hz : it.buf.getD it.validStart 0 = 0) :
    ∃ t, bufferedTurn crc (shortReads extra) it = some t ∧ Agrees crc file it t := by
  obtain ⟨bs, hrest⟩ := h.rest_cons hb
  rw [hz] at hrest
  have hin := h.inFile.resolve_left (by omega)
  have hhead : journalHead crc it.reader.cursor (file.drop it.reader.cursor) =
      zeroHead it.reader.cursor (file.drop it.reader.cursor) := by
    rw [hrest]
    simp only [journalHead, if_true]
  obtain ⟨found, it', hloop, hfin, hbl, htrue, hfalse⟩ :=
    zeroLoop_spec extra it.zeroFuel h hb (by
      unfold zeroFuel
      rw [h.size_eq]
      omega)
  unfold bufferedTurn skipZeroRun
  dsimp only
  rw [if_pos hz, hloop]
  cases found with
  | false =>
    have hall := hfalse rfl
    refine ⟨_, rfl, .stop _ (Nat.le_refl _) rfl (Or.inl hbl) ?_⟩
    refine plainScan_stop crc file it.reader.cursor .cleanEnd ?_
    rw [hhead, zeroHead, hall]
    simp only [if_true]
  | true =>
    obtain ⟨hm, hlt, hcur, hreach⟩ := htrue rfl
    have hpos : 0 < zeroRun (file.drop it.reader.cursor) := by
      rw [hrest, zeroRun_cons_zero]
      omega
    dsimp only
    rw [hcur]
    by_cases hgap : IsGap it.reader.cursor
        (it.reader.cursor + zeroRun (file.drop it.reader.cursor))
    · rw [if_pos hgap]
      refine ⟨_, rfl, .again it' hm (hfin.trans hlive) (by omega) ?_ (Or.inl hbl) ?_⟩
      · unfold toGo
        rw [List.length_drop] at hlt
        omega
      · rw [hcur]
        refine plainScan_skip crc file it.reader.cursor _ ?_
        rw [hhead, zeroHead, if_neg (Nat.ne_of_lt hlt), if_pos hgap]
    · rw [if_neg hgap]
      refine ⟨_, rfl, .stop _ (Nat.le_refl _) rfl (Or.inl hbl) ?_⟩
      refine plainScan_stop crc file it.reader.cursor .truncatedHeader ?_
      rw [hhead, zeroHead, if_neg (Nat.ne_of_lt hlt), if_neg hgap]

/-- The decode branch of a pass. -/
theorem decodeTurn_agrees (crc : Crc) (extra : ℕ → ℕ) (h : Mirrors file it)
    (hb : 0 < it.buffered) (hlive : it.finished = false)
    (hz : it.buf.getD it.validStart 0 ≠ 0) :
    Agrees crc file it (decodeTurn crc (shortReads extra) it) := by
  obtain ⟨bs, hcons⟩ := h.rest_cons hb
  have hin := h.inFile.resolve_left (by omega)
  have hlen := h.length_view
  have hrest := h.rest_eq
  have hhead : journalHead crc it.reader.cursor (file.drop it.reader.cursor) =
      frameHead crc it.reader.cursor (file.drop it.reader.cursor) := by
    rw [hcons]
    simp only [journalHead, if_neg hz]
  -- a decode that does not ask for more is the decode of the whole rest
  have hwhole : decodeFrame crc it.view ≠ .truncated →
      decodeFrame crc (file.drop it.reader.cursor) = decodeFrame crc it.view := by
    intro hne
    rw [hrest, decodeFrame_append crc it.view _ hne]
  have hstop : ∀ state, decodeFrame crc it.view ≠ .truncated →
      (∀ rest, decodeFrame crc rest = decodeFrame crc it.view →
        frameHead crc it.reader.cursor rest = .stop state) →
      Agrees crc file it (.ret (it.finish state) none) := by
    intro state hne hf
    refine .stop _ (Nat.le_refl _) rfl (Or.inl rfl) ?_
    refine plainScan_stop crc file it.reader.cursor state ?_
    rw [hhead]
    exact hf _ (hwhole hne)
  unfold decodeTurn
  cases hd : decodeFrame crc it.view with
  | ok consumed payloadStart payloadEnd =>
    dsimp only
    have hd' := hwhole (by simp [hd])
    rw [hd] at hd'
    obtain ⟨-, -, hn, hle, -, he, -⟩ := (decodeFrame_ok_iff crc it.view _ _ _).mp hd
    unfold frameOverhead at hn
    have htake : (file.drop it.reader.cursor).take payloadEnd = it.view.take payloadEnd := by
      rw [hrest, List.take_append_of_le_length]
      generalize leAt it.view 4 = len at *
      omega
    have hpos : 0 < consumed := by
      generalize leAt it.view 4 = len at *
      omega
    refine .item _ _ (h.advance consumed (by omega)) hlive ?_ ?_ (Or.inl rfl) ?_
    · show it.reader.cursor < it.reader.cursor + consumed
      omega
    · show it.reader.cursor + consumed ≤ file.length
      omega
    · refine plainScan_item crc file it.reader.cursor consumed _ ?_
      rw [hhead, frameHead, hd']
      dsimp only
      rw [htake]
  | truncated =>
    dsimp only
    rw [h.size_eq]
    by_cases heof : it.reader.cursor + it.buffered ≥ file.length
    · rw [if_pos heof]
      refine .stop _ (Nat.le_refl _) rfl (Or.inl rfl) ?_
      refine plainScan_stop crc file it.reader.cursor _ ?_
      have hall : file.drop it.reader.cursor = it.view := by
        rw [hrest, List.drop_eq_nil_of_le heof, List.append_nil]
      rw [hhead, hall, frameHead, hd]
      dsimp only
      rw [hlen]
      rfl
    · rw [if_neg heof]
      have hmore : NeedsMore it := by
        have h1 := eight_lt_readBufSize
        have h2 := h.room
        rcases decodeFrame_truncated crc it.view hd with hs | ⟨h8, hmax, htotal⟩
        · exact Or.inl (by omega)
        · exact Or.inr ⟨by omega, hmax, by rw [← hlen]; exact htotal⟩
      obtain ⟨n, it', hre, hr, hpos, hgrow⟩ := refill_spec extra h hmore
      obtain ⟨m, rfl⟩ : ∃ m, n = m + 1 := ⟨n - 1, by
        have := hpos (by omega)
        omega⟩
      rw [hre]
      have hc := hr.cursor_eq
      have hbe := hr.buffered_eq
      have hle := hr.inFile
      refine .again it' hr.mirrors (hr.finished_eq.trans hlive) (by omega) ?_ ?_ (by rw [hc])
      · unfold toGo
        omega
      · rcases hgrow with hg | ⟨-, hg⟩
        · exact Or.inl hg
        · exact Or.inr ⟨hc, hg⟩
  | badMagic => exact hstop .badMagic (by simp [hd]) fun rest hr => by rw [frameHead, hr, hd]
  | lengthOverflow =>
    exact hstop .lengthOverflow (by simp [hd]) fun rest hr => by rw [frameHead, hr, hd]
  | checksumMismatch =>
    exact hstop .checksumMismatch (by simp [hd]) fun rest hr => by rw [frameHead, hr, hd]

theorem bufferedTurn_agrees (crc : Crc) (extra : ℕ → ℕ) (h : Mirrors file it)
    (hb : 0 < it.buffered) (hlive : it.finished = false) :
    ∃ t, bufferedTurn crc (shortReads extra) it = some t ∧ Agrees crc file it t := by
  by_cases hz : it.buf.getD it.validStart 0 = 0
  · exact zeroTurn_agrees crc extra h hb hlive hz
  · refine ⟨_, ?_, decodeTurn_agrees crc extra h hb hlive hz⟩
    rw [bufferedTurn, if_neg hz]

theorem turn_agrees (crc : Crc) (extra : ℕ → ℕ) (h : Mirrors file it)
    (hlive : it.finished = false) :
    ∃ t, turn crc (shortReads extra) it = some t ∧ Agrees crc file it t := by
  unfold turn
  by_cases hb : it.buffered = 0
  · rw [if_pos hb, h.size_eq]
    by_cases heof : it.reader.cursor ≥ file.length
    · rw [if_pos heof]
      refine ⟨_, rfl, .stop _ (Nat.le_refl _) rfl (Or.inl rfl) ?_⟩
      refine plainScan_stop crc file it.reader.cursor .cleanEnd ?_
      rw [List.drop_eq_nil_of_le heof]
      rfl
    · rw [if_neg heof]
      have hroom : it.buffered < it.buf.length := by
        have h1 := eight_lt_readBufSize
        have h2 := h.room
        omega
      obtain ⟨n, it', hre, hr, hpos, hgrow⟩ := refill_spec extra h (Or.inl hroom)
      have hn := hpos (by omega)
      obtain ⟨m, rfl⟩ : ∃ m, n = m + 1 := ⟨n - 1, by omega⟩
      rw [hre]
      have hbe := hr.buffered_eq
      obtain ⟨t, ht, ha⟩ := bufferedTurn_agrees crc extra hr.mirrors (by omega)
        (hr.finished_eq.trans hlive)
      exact ⟨t, ht, ha.of_refilled hr (by omega)⟩
  · rw [if_neg hb]
    exact bufferedTurn_agrees crc extra h (by omega) hlive

/-! ### Whole runs -/

/-- What a call of `next` at the cursor `cursor` may return. -/
inductive Yields (crc : Crc) (file : Bytes) (cursor : ℕ) :
    JournalIter → Option (Except IoError JournalRecord) → Prop where
  | item (it' : JournalIter) (r : JournalRecord) (mirrors : Mirrors file it')
      (live : it'.finished = false) (moved : cursor < it'.reader.cursor)
      (inFile : it'.reader.cursor ≤ file.length)
      (same : plainScan crc file cursor = (plainScan crc file it'.reader.cursor).prepend [r]) :
      Yields crc file cursor it' (some (.ok r))
  | stop (it' : JournalIter)
      (same : plainScan crc file cursor = ⟨[], it'.reader.lastState, it'.reader.cursor⟩) :
      Yields crc file cursor it' none

theorem next_yields (crc : Crc) (extra : ℕ → ℕ) (fuel : ℕ) (h : Mirrors file it)
    (hlive : it.finished = false) (hf : toGo file it < fuel) :
    ∃ it' item, next crc (shortReads extra) fuel it = some (it', item) ∧
      Yields crc file it.reader.cursor it' item := by
  induction fuel generalizing it with
  | zero => omega
  | succ fuel ih =>
    obtain ⟨t, ht, ha⟩ := turn_agrees crc extra h hlive
    unfold next
    rw [hlive, if_neg (by decide), ht]
    cases ha with
    | again it1 mirrors live moved less bounded same =>
      obtain ⟨it', item, hnext, hy⟩ := ih mirrors live (by omega)
      refine ⟨it', item, hnext, ?_⟩
      cases hy with
      | item r mirrors' live' moved' inFile same' =>
        exact .item it' r mirrors' live' (by omega) inFile (same.trans same')
      | stop same' => exact .stop it' (same.trans same')
    | item it' r mirrors live moved inFile bounded same =>
      exact ⟨it', _, rfl, .item it' r mirrors live moved inFile same⟩
    | stop it' moved done bounded same => exact ⟨it', none, rfl, .stop it' same⟩

theorem toGo_lt_turnFuel (file : Bytes) (it : JournalIter) :
    toGo file it < turnFuel file.length := by
  unfold toGo turnFuel
  omega

theorem collect_eq_plainScan (crc : Crc) (extra : ℕ → ℕ) (fuel : ℕ) (h : Mirrors file it)
    (hlive : it.finished = false) (hf : file.length - it.reader.cursor < fuel) :
    ∃ it', collect crc (shortReads extra) (turnFuel file.length) fuel it =
        some (.ok (plainScan crc file it.reader.cursor).records, it') ∧
      it'.reader.lastState = (plainScan crc file it.reader.cursor).state ∧
      it'.reader.cursor = (plainScan crc file it.reader.cursor).position := by
  induction fuel generalizing it with
  | zero => omega
  | succ fuel ih =>
    obtain ⟨it1, item, hnext, hy⟩ := next_yields crc extra (turnFuel file.length) h hlive
      (toGo_lt_turnFuel file it)
    unfold collect
    rw [hnext]
    cases hy with
    | item r mirrors live moved inFile same =>
      obtain ⟨it', hcollect, hstate, hpos⟩ := ih mirrors live (by omega)
      rw [same]
      dsimp only
      rw [hcollect]
      exact ⟨it', rfl, hstate, hpos⟩
    | stop same =>
      rw [same]
      exact ⟨it1, rfl, rfl, rfl⟩

/-- Every pass of a run keeps the mirror until the run is over. -/
theorem Visits.mirrors (crc : Crc) (extra : ℕ → ℕ) {start : JournalIter}
    (hs : Mirrors file start)
    (h : Visits crc (shortReads extra) start it) :
    (it.finished = false → Mirrors file it) ∧ start.reader.cursor ≤ it.reader.cursor ∧
      it.buf.length ≤ max start.buf.length (file.length - start.reader.cursor) := by
  induction h with
  | start => exact ⟨fun _ => hs, Nat.le_refl _, Nat.le_max_left _ _⟩
  | @pass it t _ live ht ih =>
    obtain ⟨hm, hcur, hbuf⟩ := ih
    obtain ⟨t', ht', ha⟩ := turn_agrees crc extra (hm live) live
    obtain rfl : t' = t := Option.some.inj (ht'.symm.trans ht)
    have hgrow : ∀ it', Bounded file it it' →
        it'.buf.length ≤ max start.buf.length (file.length - start.reader.cursor) := by
      intro it' hb
      unfold Bounded at hb
      omega
    cases ha with
    | again it' mirrors live' moved less bounded same =>
      exact ⟨fun _ => mirrors, Nat.le_trans hcur moved, hgrow it' bounded⟩
    | item it' r mirrors live' moved inFile bounded same =>
      exact ⟨fun _ => mirrors, Nat.le_trans hcur (Nat.le_of_lt moved), hgrow it' bounded⟩
    | stop it' moved done bounded same =>
      refine ⟨fun hl => ?_, Nat.le_trans hcur moved, hgrow it' bounded⟩
      have hl' : it'.finished = false := hl
      rw [done] at hl'
      cases hl'

theorem Agrees.bounded {crc : Crc} {t : Turn} (h : Agrees crc file it t) :
    Bounded file it t.iter := by
  cases h with
  | again _ _ _ _ _ bounded _ => exact bounded
  | item _ _ _ _ _ _ bounded _ => exact bounded
  | stop _ _ _ bounded _ => exact bounded

end JournalIter

/-- Replaying a file in chunks gives the one-shot scan. -/
theorem replay_eq_plainScan (crc : Crc) (file : Bytes) (cursor : ℕ) (extra : ℕ → ℕ) :
    ∃ reader, replay crc (shortReads extra) ((JournalReader.open file).seekTo cursor) =
        some (.ok (plainScan crc file cursor).records, reader) ∧
      reader.tailState = (plainScan crc file cursor).state ∧
      reader.position = (plainScan crc file cursor).position := by
  have hm := JournalIter.mirrors_iter file ((JournalReader.open file).seekTo cursor) rfl rfl
  obtain ⟨it', hc, hstate, hpos⟩ := JournalIter.collect_eq_plainScan crc extra (file.length + 1) hm
    rfl (by omega)
  refine ⟨it'.reader, ?_, hstate, hpos⟩
  unfold replay
  show (JournalIter.collect crc (shortReads extra) (turnFuel file.length) (file.length + 1)
    ((JournalReader.open file).seekTo cursor).iter).map _ = _
  rw [hc]
  rfl

/-- A chunked replay of any file from any cursor, under any schedule of short reads, ends
and agrees with the one-shot scan; the buffer starts at `READ_BUF_SIZE` and a pass leaves
it alone or grows it within what the file holds behind the frame at the cursor. -/
theorem chunked_replay_refines_plain_scan (crc : Crc) (file : Bytes) (cursor : ℕ)
    (extra : ℕ → ℕ) :
    (∃ reader, replay crc (shortReads extra) ((JournalReader.open file).seekTo cursor) =
        some (.ok (plainScan crc file cursor).records, reader) ∧
      reader.tailState = (plainScan crc file cursor).state ∧
      reader.position = (plainScan crc file cursor).position) ∧
    ((JournalReader.open file).seekTo cursor).iter.buf.length = readBufSize ∧
    ∀ it, JournalIter.Visits crc (shortReads extra) ((JournalReader.open file).seekTo cursor).iter it →
      it.buf.length ≤ max readBufSize (file.length - cursor) ∧
      ∀ t, it.finished = false → JournalIter.turn crc (shortReads extra) it = some t →
        t.iter.buf.length = it.buf.length ∨
          (t.iter.reader.cursor = it.reader.cursor ∧
            t.iter.buf.length ≤ file.length - it.reader.cursor) := by
  have hm := JournalIter.mirrors_iter file ((JournalReader.open file).seekTo cursor) rfl rfl
  have hlen : ((JournalReader.open file).seekTo cursor).iter.buf.length = readBufSize :=
    length_zeros readBufSize
  refine ⟨replay_eq_plainScan crc file cursor extra, hlen, ?_⟩
  intro it hv
  obtain ⟨hmir, hcur, hbuf⟩ := JournalIter.Visits.mirrors crc extra hm hv
  rw [hlen] at hbuf
  refine ⟨hbuf, ?_⟩
  intro t hlive ht
  obtain ⟨t', ht', ha⟩ := JournalIter.turn_agrees crc extra (hmir hlive) hlive
  obtain rfl : t' = t := Option.some.inj (ht'.symm.trans ht)
  exact ha.bounded

end Fsys.Journal
