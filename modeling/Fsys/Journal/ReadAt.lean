import Fsys.Journal.LogBuffer
import Fsys.Journal.ReaderScan

/-!
# Reading one record (src/journal/reader.rs:321-433)

`read_at_lsn` parses a frame on its own: the header first, then the length
against the limit and the file, then the whole frame, which it decodes. It
accepts what `decode_frame` accepts on the rest of the file.
-/

namespace Fsys.Journal
open Fsys.Base

/-- Contents of a file. Offsets are `off_t`, so no file is longer than `i64::MAX`. -/
structure FileContent where
  bytes : Bytes
  length_lt : bytes.length < 2 ^ 63

/-- `seek(SeekFrom::Start(offset))`. -/
def osSeek (offset : ℕ) : Except IoError Unit :=
  if offset < 2 ^ 63 then .ok () else .error ⟨.invalidInput, "Invalid argument (os error 22)"⟩

def readExactEof : IoError := ⟨.unexpectedEof, "unexpected EOF in journal read_exact_at"⟩

/-- The read loop of `read_exact_at`: as in `JournalIter.readLoop`, `fuel = want` covers
every pass. -/
def readExactLoop (sched : ReadSchedule) (file : Bytes) (offset want : ℕ) :
    ℕ → ℕ → Bytes → Except IoError Bytes × ℕ
  | 0, k, got => (.ok got, k)
  | fuel + 1, k, got =>
    if got.length < want then
      match osRead (sched k) file (offset + got.length) (want - got.length) with
      | .error e => (.error e, k + 1)
      | .ok data =>
        if data.length = 0 then (.error readExactEof, k + 1)
        else readExactLoop sched file offset want fuel (k + 1) (got ++ data)
    else (.ok got, k)

/-- `read_exact_at` (`reader.rs:408-433`) of `want` bytes. -/
def JournalReader.readExactAt (sched : ReadSchedule) (r : JournalReader) (offset want : ℕ) :
    Except IoError Bytes × JournalReader :=
  match osSeek offset with
  | .error e => (.error e, r)
  | .ok () =>
    let (result, reads) := readExactLoop sched r.file offset want want r.reads []
    (result, { r with reads := reads })

def badMagicAt (lsn : ℕ) : IoError := ⟨.invalidData, s!"bad magic at LSN Lsn({lsn})"⟩

def lengthOverflowAt (lsn : ℕ) : IoError :=
  ⟨.invalidData, s!"frame length at LSN Lsn({lsn}) exceeds FRAME_MAX_PAYLOAD"⟩

def truncatedAt (lsn : ℕ) : IoError := ⟨.unexpectedEof, s!"frame at LSN Lsn({lsn}) is truncated"⟩

def checksumMismatchAt (lsn : ℕ) : IoError :=
  ⟨.invalidData, s!"CRC-32C mismatch at LSN Lsn({lsn})"⟩

/-- What the decode of the frame buffer becomes. -/
def recordOf (lsn : ℕ) (frame : Bytes) : FrameDecode → Except IoError JournalRecord
  | .ok _ payloadStart payloadEnd => .ok ⟨lsn, (frame.take payloadEnd).drop payloadStart⟩
  | .badMagic => .error (badMagicAt lsn)
  | .checksumMismatch => .error (checksumMismatchAt lsn)
  | .truncated => .error (truncatedAt lsn)
  | .lengthOverflow => .error (lengthOverflowAt lsn)

/-- What a call of `read_at_lsn` returns and leaves, with the size of the frame buffer if
it came to allocate one. -/
structure ReadAt where
  result : Except IoError JournalRecord
  reader : JournalReader
  frameBuf : Option ℕ

/-- `lsn.checked_add(frame_len).is_some_and(|end| end <= file_len)`. -/
def fitsInFile (lsn frameLen fileLen : ℕ) : Bool :=
  match checkedAdd lsn frameLen with
  | some stop => decide (stop ≤ fileLen)
  | none => false

/-- The part behind the header checks; `stat` is the failure of `metadata`, if it fails. -/
def JournalReader.readFrameAt (crc : Crc) (sched : ReadSchedule) (stat : Option IoError)
    (r : JournalReader) (lsn length : ℕ) : ReadAt :=
  let frameLen := frameOverhead + length
  match stat with
  | some e => ⟨.error e, r, none⟩
  | none =>
    if fitsInFile lsn frameLen r.file.length then
      match r.readExactAt sched lsn frameLen with
      | (.error e, r) => ⟨.error e, r, some frameLen⟩
      | (.ok frame, r) => ⟨recordOf lsn frame (decodeFrame crc frame), r, some frameLen⟩
    else ⟨.error (truncatedAt lsn), r, none⟩

/-- `read_at_lsn` (`reader.rs:341-401`). -/
def JournalReader.readAtLsn (crc : Crc) (sched : ReadSchedule) (stat : Option IoError)
    (r : JournalReader) (lsn : ℕ) : ReadAt :=
  match r.readExactAt sched lsn 8 with
  | (.error e, r) => ⟨.error e, r, none⟩
  | (.ok header, r) =>
    if beAt header 0 ≠ frameMagicV1 then ⟨.error (badMagicAt lsn), r, none⟩
    else if leAt header 4 > frameMaxPayload then ⟨.error (lengthOverflowAt lsn), r, none⟩
    else r.readFrameAt crc sched stat lsn (leAt header 4)

/-! ### Exact reads -/

theorem readExactLoop_eq (sched : ReadSchedule) (file : Bytes) (offset want fuel k : ℕ)
    (got : Bytes) :
    readExactLoop sched file offset want fuel k got =
      readUntil (fun _ => .error readExactEof) sched file offset want fuel k got := by
  induction fuel generalizing k got with
  | zero => rfl
  | succ fuel ih =>
    unfold readExactLoop readUntil
    cases osRead (sched k) file (offset + got.length) (want - got.length) with
    | error e => rfl
    | ok data => simp only [ih]

theorem readExactLoop_short (extra : ℕ → ℕ) (file : Bytes) (offset want k : ℕ) :
    ∃ k', readExactLoop (shortReads extra) file offset want want k [] =
      (if offset + want ≤ file.length ∨ want = 0 then .ok ((file.drop offset).take want)
        else .error readExactEof, k') := by
  obtain ⟨k', hloop⟩ := readUntil_short (fun _ => .error readExactEof) extra file offset want want
    k 0 (Nat.zero_le _) (by omega) (Or.inl rfl)
  rw [List.take_zero] at hloop
  exact ⟨k', by rw [readExactLoop_eq, hloop]⟩

/-- An exact read gets its bytes, or fails at the end of the file. -/
theorem readExactAt_short (extra : ℕ → ℕ) (r : JournalReader) (offset want : ℕ)
    (hwant : 0 < want) (hfile : r.file.length < 2 ^ 63) :
    ∃ result reads, r.readExactAt (shortReads extra) offset want =
        (result, { r with reads := reads }) ∧
      ((offset + want ≤ r.file.length ∧ result = .ok ((r.file.drop offset).take want)) ∨
        (r.file.length < offset + want ∧ ∃ e, result = .error e)) := by
  unfold JournalReader.readExactAt osSeek
  by_cases hseek : offset < 2 ^ 63
  · obtain ⟨k', hloop⟩ := readExactLoop_short extra r.file offset want r.reads
    simp only [if_pos hseek, hloop]
    refine ⟨_, k', rfl, ?_⟩
    by_cases hin : offset + want ≤ r.file.length
    · rw [if_pos (Or.inl hin)]
      exact Or.inl ⟨hin, rfl⟩
    · rw [if_neg (by omega)]
      exact Or.inr ⟨Nat.lt_of_not_le hin, _, rfl⟩
  · simp only [if_neg hseek]
    exact ⟨_, r.reads, rfl, Or.inr ⟨by omega, _, rfl⟩⟩

/-! ### Agreement with the decoder -/

/-- What the decoder reads of a frame are the bytes its header declares. -/
theorem decodeFrame_take_declared (crc : Crc) (bs : Bytes)
    (h : frameOverhead + leAt bs 4 ≤ bs.length) :
    decodeFrame crc (bs.take (frameOverhead + leAt bs 4)) = decodeFrame crc bs := by
  have hlen : (bs.take (frameOverhead + leAt bs 4)).length = frameOverhead + leAt bs 4 := by
    rw [List.length_take]
    omega
  have hsplit := List.take_append_drop (frameOverhead + leAt bs 4) bs
  have hl := leAt_append_left (bs.take (frameOverhead + leAt bs 4))
    (bs.drop (frameOverhead + leAt bs 4)) 4 (by unfold frameOverhead at *; omega)
  have happ := decodeFrame_append crc (bs.take (frameOverhead + leAt bs 4))
    (bs.drop (frameOverhead + leAt bs 4))
  rw [hsplit] at hl happ
  refine (happ ?_).symm
  intro ht
  have htr := decodeFrame_truncated crc _ ht
  rw [hlen, ← hl] at htr
  unfold frameOverhead at htr
  omega

theorem fitsInFile_iff (lsn frameLen fileLen : ℕ) (h : fileLen < 2 ^ 63) :
    fitsInFile lsn frameLen fileLen = true ↔ lsn + frameLen ≤ fileLen := by
  unfold fitsInFile checkedAdd
  by_cases hlt : lsn + frameLen < 2 ^ 64
  · simp only [if_pos hlt, decide_eq_true_eq]
  · simp only [if_neg hlt, Bool.false_eq_true, false_iff]
    omega

/-- The record a decode finds at `lsn` in `rest`. -/
def DecodesTo (crc : Crc) (lsn : ℕ) (rest : Bytes) (record : JournalRecord) : Prop :=
  record.lsn = lsn ∧ ∃ n s e, decodeFrame crc rest = .ok n s e ∧
    record.payload = (rest.take e).drop s

/-- A decode needs a whole frame with an intact header. -/
theorem DecodesTo.header {crc : Crc} {lsn : ℕ} {rest : Bytes} {record : JournalRecord}
    (h : DecodesTo crc lsn rest record) : beAt rest 0 = frameMagicV1 ∧
      leAt rest 4 ≤ frameMaxPayload ∧ frameOverhead + leAt rest 4 ≤ rest.length := by
  obtain ⟨-, n, s, e, hdec, -⟩ := h
  obtain ⟨hm, hl, hn, hle, -⟩ := (decodeFrame_ok_iff crc rest n s e).mp hdec
  exact ⟨hm, hl, by omega⟩

theorem recordOf_ok_iff (lsn : ℕ) (frame : Bytes) (d : FrameDecode) (record : JournalRecord) :
    recordOf lsn frame d = .ok record ↔
      record.lsn = lsn ∧ ∃ n s e, d = .ok n s e ∧ record.payload = (frame.take e).drop s := by
  cases d with
  | ok n s e =>
    simp only [recordOf, Except.ok.injEq, FrameDecode.ok.injEq]
    constructor
    · intro hr
      rw [← hr]
      exact ⟨rfl, n, s, e, ⟨rfl, rfl, rfl⟩, rfl⟩
    · intro ⟨hlsn, n', s', e', ⟨hn', hs', he'⟩, hp⟩
      rw [hs', he', ← hp, ← hlsn]
  | truncated => simp [recordOf]
  | badMagic => simp [recordOf]
  | lengthOverflow => simp [recordOf]
  | checksumMismatch => simp [recordOf]

/-- The frame buffer holds all that a decode of the rest of the file looks at. -/
theorem recordOf_take_iff (crc : Crc) (lsn len : ℕ) (rest : Bytes) (record : JournalRecord)
    (hl : leAt rest 4 = len) (h : frameOverhead + len ≤ rest.length) :
    recordOf lsn (rest.take (frameOverhead + len))
        (decodeFrame crc (rest.take (frameOverhead + len))) = .ok record ↔
      DecodesTo crc lsn rest record := by
  have hover : frameOverhead = 12 := rfl
  have htake : ∀ n s e, decodeFrame crc rest = .ok n s e →
      (rest.take (frameOverhead + len)).take e = rest.take e := by
    intro n s e hdec
    obtain ⟨-, -, -, -, -, he, -⟩ := (decodeFrame_ok_iff crc rest n s e).mp hdec
    rw [List.take_take, Nat.min_eq_left (by omega)]
  have hdecl := decodeFrame_take_declared crc rest (by rw [hl]; exact h)
  rw [hl] at hdecl
  rw [recordOf_ok_iff, hdecl, DecodesTo]
  constructor
  · intro ⟨hlsn, n, s, e, hdec, hp⟩
    rw [htake n s e hdec] at hp
    exact ⟨hlsn, n, s, e, hdec, hp⟩
  · intro ⟨hlsn, n, s, e, hdec, hp⟩
    rw [← htake n s e hdec] at hp
    exact ⟨hlsn, n, s, e, hdec, hp⟩

-- The length is a variable here: the kernel would compute with the word `leAt` spells.
theorem readFrameAt_ok_iff (crc : Crc) (extra : ℕ → ℕ) (r : JournalReader) (lsn len : ℕ)
    (record : JournalRecord) (hfile : r.file.length < 2 ^ 63)
    (hl : leAt (r.file.drop lsn) 4 = len) :
    (r.readFrameAt crc (shortReads extra) none lsn len).result = .ok record ↔
      DecodesTo crc lsn (r.file.drop lsn) record := by
  have hover : 0 < frameOverhead := by decide
  have hfits := fitsInFile_iff lsn (frameOverhead + len) _ hfile
  unfold JournalReader.readFrameAt
  dsimp only
  by_cases hin : lsn + (frameOverhead + len) ≤ r.file.length
  · rw [if_pos (hfits.mpr hin)]
    obtain ⟨result, reads, hread, hres⟩ := readExactAt_short extra r lsn (frameOverhead + len)
      (by omega) hfile
    rcases hres with ⟨-, hok⟩ | ⟨hshort, -⟩
    · simp only [hread, hok]
      apply recordOf_take_iff crc lsn len _ record hl
      rw [List.length_drop]
      omega
    · omega
  · rw [if_neg (mt hfits.mp hin)]
    simp only [reduceCtorEq, false_iff]
    intro h
    have hlen := h.header.2.2
    rw [List.length_drop, hl] at hlen
    omega

/-- `read_at_lsn` accepts what the decoder accepts on the rest of the file. -/
theorem readAtLsn_ok_iff (crc : Crc) (extra : ℕ → ℕ) (r : JournalReader) (lsn : ℕ)
    (record : JournalRecord) (hfile : r.file.length < 2 ^ 63) :
    (r.readAtLsn crc (shortReads extra) none lsn).result = .ok record ↔
      DecodesTo crc lsn (r.file.drop lsn) record := by
  unfold JournalReader.readAtLsn
  obtain ⟨result, reads, hread, hres⟩ := readExactAt_short extra r lsn 8 (by decide) hfile
  rw [hread]
  rcases hres with ⟨hin, hok⟩ | ⟨hshort, e, herr⟩
  · have hsplit := List.take_append_drop 8 (r.file.drop lsn)
    have h8 : ((r.file.drop lsn).take 8).length = 8 := by
      rw [List.length_take, List.length_drop]
      omega
    have hm : beAt ((r.file.drop lsn).take 8) 0 = beAt (r.file.drop lsn) 0 := by
      have h := beAt_append_left ((r.file.drop lsn).take 8) ((r.file.drop lsn).drop 8) 0 (by omega)
      rw [hsplit] at h
      exact h.symm
    have hl : leAt ((r.file.drop lsn).take 8) 4 = leAt (r.file.drop lsn) 4 := by
      have h := leAt_append_left ((r.file.drop lsn).take 8) ((r.file.drop lsn).drop 8) 4 (by omega)
      rw [hsplit] at h
      exact h.symm
    rw [hok]
    dsimp only
    rw [hm, hl]
    split
    · rename_i hmagic
      simp only [reduceCtorEq, false_iff]
      exact fun h => hmagic h.header.1
    · split
      · rename_i hlong
        simp only [reduceCtorEq, false_iff]
        exact fun h => Nat.not_le.mpr hlong h.header.2.1
      · exact readFrameAt_ok_iff crc extra { r with reads := reads } lsn _ record hfile rfl
  · rw [herr]
    simp only [reduceCtorEq, false_iff]
    intro h
    have hlen := h.header.2.2
    rw [List.length_drop] at hlen
    unfold frameOverhead at hlen
    omega

/-! ### The frame buffer -/

theorem readExactAt_file (sched : ReadSchedule) (r : JournalReader) (offset want : ℕ) :
    (r.readExactAt sched offset want).2.file = r.file := by
  unfold JournalReader.readExactAt
  split <;> rfl

theorem readAtLsn_frameBuf (crc : Crc) (sched : ReadSchedule) (stat : Option IoError)
    (r : JournalReader) (lsn n : ℕ) (h : (r.readAtLsn crc sched stat lsn).frameBuf = some n) :
    lsn + n ≤ r.file.length := by
  have hfits : ∀ m, fitsInFile lsn m r.file.length = true → lsn + m ≤ r.file.length := by
    intro m hm
    unfold fitsInFile checkedAdd at hm
    split at hm
    · rename_i stop hs
      split at hs
      · rw [Option.some.inj hs]
        exact of_decide_eq_true hm
      · cases hs
    · cases hm
  have hfile := readExactAt_file sched r lsn 8
  unfold JournalReader.readAtLsn at h
  split at h
  · cases h
  · rename_i header r' hread
    rw [hread] at hfile
    split at h
    · cases h
    · split at h
      · cases h
      · unfold JournalReader.readFrameAt at h
        dsimp only at h
        split at h
        · cases h
        · split at h
          · rename_i hm
            rw [hfile] at hm
            have hle := hfits _ hm
            split at h <;> cases h <;> exact hle
          · cases h

/-! ### Agreement with the iterator -/

theorem path_decodes (crc : Crc) {pos pos' : ℕ} {rest rest' : Bytes} {rs : List JournalRecord}
    (h : JournalPath crc pos rest rs pos' rest') (record : JournalRecord) (hr : record ∈ rs) :
    pos ≤ record.lsn ∧
      DecodesTo crc record.lsn (rest.drop (record.lsn - pos)) record := by
  induction h with
  | refl => cases hr
  | @skip pos rest n rs pos' rest' h tail ih =>
    obtain ⟨hle, hdec⟩ := ih hr
    rw [List.drop_drop, show n + (record.lsn - (pos + n)) = record.lsn - pos by omega] at hdec
    exact ⟨by omega, hdec⟩
  | @item pos rest r n rs pos' rest' h tail ih =>
    rcases List.mem_cons.mp hr with heq | hr
    · obtain ⟨hlsn, hfit, hn, hrest⟩ := journalHead_item crc pos rest r n h
      rw [heq, hlsn, Nat.sub_self, List.drop_zero]
      refine ⟨Nat.le_refl _, hlsn, n, 8, 8 + r.payload.length, ?_, ?_⟩
      · rw [hrest, decodeFrame_frameBytes crc r.payload _ hfit, hn]
      · rw [hrest, payload_frameBytes]
    · obtain ⟨hle, hdec⟩ := ih hr
      rw [List.drop_drop, show n + (record.lsn - (pos + n)) = record.lsn - pos by omega] at hdec
      exact ⟨by omega, hdec⟩

theorem plainScan_decodes (crc : Crc) (file : Bytes) (cursor : ℕ) (record : JournalRecord)
    (hr : record ∈ (plainScan crc file cursor).records) :
    DecodesTo crc record.lsn (file.drop record.lsn) record := by
  obtain ⟨rest', hpath, -⟩ := Scan.path_of_scan (journalHead_progress crc) .cleanEnd cursor
    (file.drop cursor)
  obtain ⟨hle, hdec⟩ := path_decodes crc hpath record hr
  rw [List.drop_drop, Nat.add_sub_cancel' hle] at hdec
  exact hdec

/-- A record any pass of an iteration yields is what the decoder finds at its LSN. -/
theorem visits_decodes (crc : Crc) (file : Bytes) (cursor : ℕ) (extra : ℕ → ℕ)
    {it it' : JournalIter} {record : JournalRecord}
    (hv : JournalIter.Visits crc (shortReads extra)
      ((JournalReader.open file).seekTo cursor).iter it) (live : it.finished = false)
    (ht : JournalIter.turn crc (shortReads extra) it = some (.ret it' (some (.ok record)))) :
    DecodesTo crc record.lsn (file.drop record.lsn) record := by
  have hstart := JournalIter.mirrors_iter file ((JournalReader.open file).seekTo cursor) rfl rfl
  have hm := (JournalIter.Visits.mirrors crc extra hstart hv).1 live
  obtain ⟨t, ht', ha⟩ := JournalIter.turn_agrees crc extra hm live
  obtain rfl : t = .ret it' (some (.ok record)) := Option.some.inj (ht'.symm.trans ht)
  cases ha with
  | item _ _ mirrors live' moved inFile bounded same =>
    apply plainScan_decodes crc file it.reader.cursor
    rw [same]
    exact List.mem_cons_self

/-- `read_at_lsn` returns a record exactly when the decoder accepts the rest of the file,
whatever state the reader is in; it agrees with every record an iteration yields, and it
never allocates a frame buffer larger than what the file holds from the LSN on, also when
a read or `metadata` fails. -/
theorem read_at_lsn_agrees (crc : Crc) (file : FileContent) (fileSize cursor reads : ℕ)
    (lastState : JournalTailState) (extra : ℕ → ℕ) :
    let r : JournalReader := ⟨file.bytes, fileSize, cursor, lastState, reads⟩
    (∀ lsn record, (r.readAtLsn crc (shortReads extra) none lsn).result = .ok record ↔
      record.lsn = lsn ∧ ∃ n s e, decodeFrame crc (file.bytes.drop lsn) = .ok n s e ∧
        record.payload = ((file.bytes.drop lsn).take e).drop s) ∧
    (∀ start extra' it it' record,
      JournalIter.Visits crc (shortReads extra')
        ((JournalReader.open file.bytes).seekTo start).iter it → it.finished = false →
      JournalIter.turn crc (shortReads extra') it = some (.ret it' (some (.ok record))) →
      (r.readAtLsn crc (shortReads extra) none record.lsn).result = .ok record) ∧
    (∀ sched stat lsn n, (r.readAtLsn crc sched stat lsn).frameBuf = some n →
      n ≤ (file.bytes.drop lsn).length) := by
  refine ⟨?_, ?_, ?_⟩
  · intro lsn record
    exact readAtLsn_ok_iff crc extra _ lsn record file.length_lt
  · intro start extra' it it' record hv live ht
    rw [readAtLsn_ok_iff crc extra _ _ record file.length_lt]
    exact visits_decodes crc file.bytes start extra' hv live ht
  · intro sched stat lsn n h
    have hle := readAtLsn_frameBuf crc sched stat _ lsn n h
    rw [List.length_drop]
    exact Nat.le_sub_of_add_le' hle

end Fsys.Journal
