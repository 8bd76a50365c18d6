import Fsys.Base.Scan
import Fsys.Journal.Frame

/-!
# One-shot scan of a journal (rules of src/journal/reader.rs)

The reference behaviour of a replay: at each position the whole rest of the
file is in view, `decodeFrame` is applied to it directly, and a zero byte at a
frame position is classified by where its zero run ends. The buffered iterator
of the source is compared with this scan in `Fsys.Journal.ReaderScan`.
-/

namespace Fsys.Journal
open Fsys.Base Fsys.Base.Scan

/-- `JournalTailState` (`reader.rs:110-171`). -/
inductive JournalTailState where
  | cleanEnd
  | truncatedHeader
  | truncatedPayload
  | checksumMismatch
  | badMagic
  | lengthOverflow
  deriving DecidableEq, Repr

/-- `JournalRecord` (`reader.rs:174-183`). -/
structure JournalRecord where
  lsn : ℕ
  payload : Bytes
  deriving DecidableEq, Repr

/-- `GAP_ALIGN`. -/
def gapAlign : ℕ := 512

/-- `MAX_GAP_SKIP`, the 64 MiB of `MAX_LOG_BUFFER_BYTES`. -/
def maxGapSkip : ℕ := 64 * 1024 * 1024

/-- A zero run that ends at `runEnd` is taken for a gap of an old Direct-IO writer. -/
def IsGap (runStart runEnd : ℕ) : Prop :=
  runEnd % gapAlign = 0 ∧ runEnd - runStart ≤ maxGapSkip

instance (runStart runEnd : ℕ) : Decidable (IsGap runStart runEnd) :=
  inferInstanceAs (Decidable (_ ∧ _))

abbrev JournalHead := Head JournalRecord JournalTailState
abbrev JournalScan := Outcome JournalRecord JournalTailState

/-- The zero-run rule: end of file, skippable gap, or a hole. -/
def zeroHead (pos : ℕ) (rest : Bytes) : JournalHead :=
  let run := zeroRun rest
  if run = rest.length then .stop .cleanEnd
  else if IsGap pos (pos + run) then .skip run
  else .stop .truncatedHeader

/-- The frame rule: one decode of everything that is left. -/
def frameHead (crc : Crc) (pos : ℕ) (rest : Bytes) : JournalHead :=
  match decodeFrame crc rest with
  | .ok consumed payloadStart payloadEnd =>
    .item ⟨pos, (rest.take payloadEnd).drop payloadStart⟩ consumed
  | .truncated =>
    .stop (if rest.length < 8 then .truncatedHeader else .truncatedPayload)
  | .badMagic => .stop .badMagic
  | .lengthOverflow => .stop .lengthOverflow
  | .checksumMismatch => .stop .checksumMismatch

/-- What a replay finds at `pos` when `rest` is the rest of the file. -/
def journalHead (crc : Crc) (pos : ℕ) : Bytes → JournalHead
  | [] => .stop .cleanEnd
  | b :: bs => if b = 0 then zeroHead pos (b :: bs) else frameHead crc pos (b :: bs)

/-- One-shot scan of the file `file` from the cursor `cursor`. -/
def plainScan (crc : Crc) (file : Bytes) (cursor : ℕ) : JournalScan :=
  scan (journalHead crc) .cleanEnd cursor (file.drop cursor)

abbrev JournalPath (crc : Crc) := Path (journalHead crc)

variable (crc : Crc)

/-! ### The answers, one by one -/

theorem journalHead_zeros (pos n : ℕ) : journalHead crc pos (zeros n) = .stop .cleanEnd := by
  cases n with
  | zero => rfl
  | succ n =>
    have h : zeroRun (0 :: zeros n) = (0 :: zeros n).length := by
      rw [zeroRun_cons_zero, zeroRun_zeros, List.length_cons, length_zeros]
    simp only [zeros_succ, journalHead, zeroHead, h, if_true]

/-- A non-empty zero run that a non-zero byte ends. -/
theorem journalHead_run (pos n : ℕ) (b : UInt8) (bs : Bytes) (hn : 0 < n) (hb : b ≠ 0) :
    journalHead crc pos (zeros n ++ b :: bs) =
      if IsGap pos (pos + n) then .skip n else .stop .truncatedHeader := by
  obtain ⟨m, rfl⟩ : ∃ m, n = m + 1 := ⟨n - 1, by omega⟩
  have hrun := zeroRun_zeros_append_cons (m + 1) b bs hb
  rw [zeros_succ, List.cons_append] at hrun ⊢
  have hne : m + 1 ≠ (0 :: (zeros m ++ b :: bs)).length := by
    simp only [List.length_cons, List.length_append, length_zeros]
    omega
  simp only [journalHead, zeroHead, hrun, if_true, if_neg hne]

theorem journalHead_frame (pos : ℕ) (payload rest : Bytes) (h : Fits payload) :
    journalHead crc pos (frameBytes crc payload ++ rest) =
      .item ⟨pos, payload⟩ (payload.length + frameOverhead) := by
  obtain ⟨tail, ht⟩ := frameBytes_head crc payload
  have hd := decodeFrame_frameBytes crc payload rest h
  have hp := payload_frameBytes crc payload rest
  rw [ht, List.cons_append] at hd hp ⊢
  have h46 : (0x46 : UInt8) ≠ 0 := by decide
  simp only [journalHead, if_neg h46, frameHead, hd, hp]

/-- A torn frame: a proper prefix of a frame, and nothing behind it. -/
theorem journalHead_torn (pos : ℕ) (payload : Bytes) (h : Fits payload) (n : ℕ)
    (hn0 : 0 < n) (hn : n < payload.length + frameOverhead) :
    journalHead crc pos ((frameBytes crc payload).take n) =
      .stop (if n < 8 then .truncatedHeader else .truncatedPayload) := by
  have hd := decodeFrame_take crc payload h n hn
  have hlen : ((frameBytes crc payload).take n).length = n := by
    rw [List.length_take, length_frameBytes]
    omega
  obtain ⟨tail, ht⟩ := frameBytes_head crc payload
  obtain ⟨m, rfl⟩ : ∃ m, n = m + 1 := ⟨n - 1, by omega⟩
  rw [ht, List.take_succ_cons] at hd hlen ⊢
  have h46 : (0x46 : UInt8) ≠ 0 := by decide
  simp only [journalHead, if_neg h46, frameHead, hd, hlen]

/-- An item is exactly the frame of its payload. -/
theorem journalHead_item (pos : ℕ) (rest : Bytes) (r : JournalRecord) (n : ℕ)
    (h : journalHead crc pos rest = .item r n) :
    r.lsn = pos ∧ Fits r.payload ∧ n = r.payload.length + frameOverhead ∧
      rest = frameBytes crc r.payload ++ rest.drop n := by
  cases rest with
  | nil => cases h
  | cons b bs =>
    simp only [journalHead] at h
    split at h
    · unfold zeroHead at h
      dsimp only at h
      split at h
      · cases h
      · split at h <;> cases h
    · unfold frameHead at h
      split at h
      · rename_i n s e hd
        cases h
        obtain ⟨hfit, hn, hb⟩ := decodeFrame_sound crc (b :: bs) n s e hd
        exact ⟨rfl, hfit, hn, by rw [← hb, List.take_append_drop]⟩
      · cases h
      · cases h
      · cases h
      · cases h

/-- A skip covers a zero run that a non-zero byte ends and that looks like a gap. -/
theorem journalHead_skip (pos : ℕ) (rest : Bytes) (n : ℕ)
    (h : journalHead crc pos rest = .skip n) :
    0 < n ∧ IsGap pos (pos + n) ∧
      ∃ b bs, rest = zeros n ++ b :: bs ∧ rest.drop n = b :: bs ∧ b ≠ 0 := by
  cases rest with
  | nil => cases h
  | cons c cs =>
    simp only [journalHead] at h
    split at h
    · rename_i hc
      unfold zeroHead at h
      dsimp only at h
      split at h
      · cases h
      · rename_i hlen
        split at h
        · rename_i hgap
          cases h
          have hle := zeroRun_le (c :: cs)
          obtain ⟨b, bs, hdrop, hb⟩ := drop_zeroRun (c :: cs) (by omega)
          refine ⟨?_, hgap, b, bs, ?_, hdrop, hb⟩
          · subst hc
            rw [zeroRun_cons_zero]
            omega
          · rw [← take_zeroRun, ← hdrop, List.take_append_drop]
        · cases h
    · unfold frameHead at h
      split at h <;> cases h

theorem journalHead_progress : Progress (journalHead crc) := by
  intro pos rest
  split
  · trivial
  · rename_i n h
    obtain ⟨hn, -, b, bs, hrest, -, -⟩ := journalHead_skip crc pos rest n h
    refine ⟨hn, ?_⟩
    rw [hrest, List.length_append, length_zeros]
    omega
  · rename_i r n h
    obtain ⟨-, -, hn, hrest⟩ := journalHead_item crc pos rest r n h
    have hl := congrArg List.length hrest
    rw [List.length_append, length_frameBytes] at hl
    unfold frameOverhead at hl hn
    omega

theorem plainScan_stop (file : Bytes) (cursor : ℕ) (s : JournalTailState)
    (h : journalHead crc cursor (file.drop cursor) = .stop s) :
    plainScan crc file cursor = ⟨[], s, cursor⟩ :=
  scan_stop (journalHead_progress crc) h

theorem plainScan_skip (file : Bytes) (cursor n : ℕ)
    (h : journalHead crc cursor (file.drop cursor) = .skip n) :
    plainScan crc file cursor = plainScan crc file (cursor + n) := by
  unfold plainScan
  rw [scan_skip (journalHead_progress crc) h, List.drop_drop]

theorem plainScan_item (file : Bytes) (cursor n : ℕ) (r : JournalRecord)
    (h : journalHead crc cursor (file.drop cursor) = .item r n) :
    plainScan crc file cursor = (plainScan crc file (cursor + n)).prepend [r] := by
  unfold plainScan
  rw [scan_item (journalHead_progress crc) h, List.drop_drop]

/-! ### Records in a row -/

/-- Where the frame of a record ends. -/
def JournalRecord.endLsn (r : JournalRecord) : ℕ := r.lsn + r.payload.length + frameOverhead

/-- End of the last record of a list, `start` for none. -/
def endOf (start : ℕ) : List JournalRecord → ℕ
  | [] => start
  | r :: rs => endOf r.endLsn rs

/-- The frames of a list of payloads, one behind the other. -/
def framesBytes (crc : Crc) (ps : List Bytes) : Bytes := ps.flatMap (frameBytes crc)

/-- The records of a list of payloads whose frames start at `lsn`. -/
def recordsAt (lsn : ℕ) : List Bytes → List JournalRecord
  | [] => []
  | p :: ps => ⟨lsn, p⟩ :: recordsAt (lsn + (p.length + frameOverhead)) ps

/-- Total encoded length of a list of payloads. -/
def framesLen (ps : List Bytes) : ℕ := (ps.map fun p => p.length + frameOverhead).sum

@[simp] theorem framesLen_nil : framesLen [] = 0 := rfl

@[simp] theorem framesLen_cons (p : Bytes) (ps : List Bytes) :
    framesLen (p :: ps) = p.length + frameOverhead + framesLen ps := rfl

theorem framesLen_append (ps qs : List Bytes) :
    framesLen (ps ++ qs) = framesLen ps + framesLen qs := by
  simp only [framesLen, List.map_append, List.sum_append]

theorem framesBytes_cons (p : Bytes) (ps : List Bytes) :
    framesBytes crc (p :: ps) = frameBytes crc p ++ framesBytes crc ps := rfl

theorem framesBytes_append (ps qs : List Bytes) :
    framesBytes crc (ps ++ qs) = framesBytes crc ps ++ framesBytes crc qs :=
  List.flatMap_append

@[simp] theorem length_framesBytes (ps : List Bytes) :
    (framesBytes crc ps).length = framesLen ps := by
  induction ps with
  | nil => rfl
  | cons p ps ih =>
    rw [framesBytes_cons, List.length_append, ih, length_frameBytes, framesLen_cons]

theorem recordsAt_append (lsn : ℕ) (ps qs : List Bytes) :
    recordsAt lsn (ps ++ qs) = recordsAt lsn ps ++ recordsAt (lsn + framesLen ps) qs := by
  induction ps generalizing lsn with
  | nil => simp [recordsAt]
  | cons p ps ih =>
    simp only [List.cons_append, recordsAt, ih, framesLen_cons, Nat.add_assoc]

theorem endOf_recordsAt (lsn : ℕ) (ps : List Bytes) :
    endOf lsn (recordsAt lsn ps) = lsn + framesLen ps := by
  induction ps generalizing lsn with
  | nil => rfl
  | cons p ps ih =>
    have h : JournalRecord.endLsn ⟨lsn, p⟩ = lsn + (p.length + frameOverhead) := by
      simp only [JournalRecord.endLsn]
      omega
    rw [recordsAt, endOf, h, ih, framesLen_cons]
    omega

/-- Frames in a row are walked over one by one. -/
theorem path_frames (pos : ℕ) (ps : List Bytes) (rest : Bytes) (h : ∀ p ∈ ps, Fits p) :
    JournalPath crc pos (framesBytes crc ps ++ rest) (recordsAt pos ps)
      (pos + framesLen ps) rest := by
  induction ps generalizing pos with
  | nil => exact Scan.Path.refl pos rest
  | cons p ps ih =>
    have hp : Fits p := h p List.mem_cons_self
    have hps : ∀ q ∈ ps, Fits q := fun q hq => h q (List.mem_cons_of_mem p hq)
    rw [framesBytes_cons, List.append_assoc]
    refine Scan.Path.item (journalHead_frame crc pos p _ hp) ?_
    have hd : (frameBytes crc p ++ (framesBytes crc ps ++ rest)).drop
        (p.length + frameOverhead) = framesBytes crc ps ++ rest := by
      rw [← length_frameBytes crc p, List.drop_left]
    have htail := ih (pos + (p.length + frameOverhead)) hps
    rw [Nat.add_assoc, ← framesLen_cons] at htail
    rw [hd]
    exact htail

/-! ### Replacing what lies behind a path -/

theorem path_endOf_le {pos pos' : ℕ} {rest rest' : Bytes} {rs : List JournalRecord}
    (h : JournalPath crc pos rest rs pos' rest') : endOf pos rs ≤ pos' := by
  induction h with
  | refl => exact Nat.le_refl _
  | @skip pos rest n rs pos' rest' h tail ih =>
    have hle := tail.rest_eq.1
    cases rs with
    | nil =>
      show pos ≤ pos'
      omega
    | cons r rs => exact ih
  | @item pos rest r n rs pos' rest' h tail ih =>
    obtain ⟨hlsn, -, hn, -⟩ := journalHead_item crc pos rest r n h
    have he : r.endLsn = pos + n := by
      unfold JournalRecord.endLsn
      omega
    rw [endOf, he]
    exact ih

theorem path_le_endOf {pos pos' : ℕ} {rest rest' : Bytes} {rs : List JournalRecord}
    (h : JournalPath crc pos rest rs pos' rest') : pos ≤ endOf pos rs := by
  induction h with
  | refl => exact Nat.le_refl _
  | @skip pos rest n rs pos' rest' h tail ih =>
    cases rs with
    | nil => exact Nat.le_refl _
    | cons r rs => exact Nat.le_trans (Nat.le_add_right pos n) ih
  | @item pos rest r n rs pos' rest' h tail ih =>
    obtain ⟨hlsn, -, hn, -⟩ := journalHead_item crc pos rest r n h
    have he : r.endLsn = pos + n := by
      unfold JournalRecord.endLsn
      omega
    rw [endOf, he]
    omega

theorem path_lt_endOf {pos pos' : ℕ} {rest rest' : Bytes} {r : JournalRecord}
    {rs : List JournalRecord} (h : JournalPath crc pos rest (r :: rs) pos' rest') :
    pos < endOf pos (r :: rs) := by
  cases h with
  | @skip _ _ n _ _ _ h tail =>
    have hle : pos + n ≤ endOf pos (r :: rs) := path_le_endOf crc tail
    have hn := (journalHead_skip crc pos rest n h).1
    omega
  | @item _ _ _ n _ _ _ h tail =>
    have hle := path_le_endOf crc tail
    obtain ⟨hlsn, -, hn, -⟩ := journalHead_item crc pos rest r n h
    have he : r.endLsn = pos + n := by
      unfold JournalRecord.endLsn
      omega
    unfold frameOverhead at hn
    rw [endOf, he]
    omega

/-- A path survives any change behind its end, unless its last step is a skipped gap
and the change puts a zero byte (or the end of the file) there. -/
theorem path_replace {pos pos' : ℕ} {rest rest' : Bytes} {rs : List JournalRecord}
    (h : JournalPath crc pos rest rs pos' rest') (new : Bytes)
    (hnew : pos' = endOf pos rs ∨ ∃ b bs, new = b :: bs ∧ b ≠ 0) :
    JournalPath crc pos (rest.take (pos' - pos) ++ new) rs pos' new := by
  induction h with
  | refl pos rest =>
    rw [Nat.sub_self, List.take_zero, List.nil_append]
    exact Scan.Path.refl pos new
  | @skip pos rest n rs pos' rest' h tail ih =>
    obtain ⟨hn, hgap, b, bs, hrest, hdrop, hb⟩ := journalHead_skip crc pos rest n h
    have hle := tail.rest_eq.1
    have hend := path_endOf_le crc tail
    -- without records behind the gap the path ends in the gap itself
    have hnew' : pos' = endOf (pos + n) rs ∨ ∃ b bs, new = b :: bs ∧ b ≠ 0 := by
      cases rs with
      | nil =>
        refine Or.inr (hnew.resolve_left ?_)
        show pos' ≠ pos
        omega
      | cons r rs => exact hnew
    have htail := ih hnew'
    have hsplit : rest.take (pos' - pos) ++ new =
        zeros n ++ ((rest.drop n).take (pos' - (pos + n)) ++ new) := by
      have h1 : (zeros n ++ b :: bs).take (pos' - pos) =
          zeros n ++ (b :: bs).take (pos' - pos - n) := by
        rw [List.take_append, length_zeros, take_zeros, Nat.min_eq_right (by omega)]
      rw [hdrop, ← List.append_assoc, hrest, h1, Nat.sub_sub]
    -- the byte behind the gap is still not zero
    have hfirst : ∃ c cs, (rest.drop n).take (pos' - (pos + n)) ++ new = c :: cs ∧ c ≠ 0 := by
      rw [hdrop]
      by_cases h0 : pos' - (pos + n) = 0
      · rw [h0, List.take_zero, List.nil_append]
        refine hnew.resolve_left ?_
        intro he
        cases rs with
        | nil =>
          have he' : pos' = pos := he
          omega
        | cons r rs =>
          have hrec := path_lt_endOf crc tail
          have hr : endOf (pos + n) (r :: rs) = endOf pos (r :: rs) := rfl
          omega
      · obtain ⟨k, hk⟩ : ∃ k, pos' - (pos + n) = k + 1 := ⟨pos' - (pos + n) - 1, by omega⟩
        rw [hk, List.take_succ_cons, List.cons_append]
        exact ⟨b, _, rfl, hb⟩
    obtain ⟨c, cs, hc, hcne⟩ := hfirst
    have hhead : journalHead crc pos (rest.take (pos' - pos) ++ new) = .skip n := by
      rw [hsplit, hc, journalHead_run crc pos n c cs hn hcne, if_pos hgap]
    refine Scan.Path.skip hhead ?_
    have hd : (rest.take (pos' - pos) ++ new).drop n =
        (rest.drop n).take (pos' - (pos + n)) ++ new := by
      rw [hsplit]
      exact List.drop_left' (length_zeros n)
    rw [hd]
    exact htail
  | @item pos rest r n rs pos' rest' h tail ih =>
    obtain ⟨hlsn, hfit, hn, hrest⟩ := journalHead_item crc pos rest r n h
    have hle := tail.rest_eq.1
    have he : r.endLsn = pos + n := by
      unfold JournalRecord.endLsn
      omega
    have htail := ih (by rw [endOf, he] at hnew; exact hnew)
    have hlen : (frameBytes crc r.payload).length = n := by rw [length_frameBytes, hn]
    have hsplit : rest.take (pos' - pos) ++ new =
        frameBytes crc r.payload ++ ((rest.drop n).take (pos' - (pos + n)) ++ new) := by
      have h1 : (frameBytes crc r.payload ++ rest.drop n).take (pos' - pos) =
          frameBytes crc r.payload ++ (rest.drop n).take (pos' - pos - n) := by
        rw [List.take_append, hlen, List.take_of_length_le (by omega)]
      conv_lhs => rw [hrest]
      rw [h1, List.append_assoc, Nat.sub_sub]
    have hhead : journalHead crc pos (rest.take (pos' - pos) ++ new) = .item r n := by
      rw [hsplit, journalHead_frame crc pos r.payload _ hfit, ← hn, ← hlsn]
    refine Scan.Path.item hhead ?_
    have hd : (rest.take (pos' - pos) ++ new).drop n =
        (rest.drop n).take (pos' - (pos + n)) ++ new := by
      rw [hsplit, ← hlen, List.drop_left]
    rw [hd]
    exact htail

end Fsys.Journal
