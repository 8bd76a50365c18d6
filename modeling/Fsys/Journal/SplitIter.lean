import Fsys.Journal.ReaderScan

/-!
# Interrupted iteration (src/journal/reader.rs:449-685)

`iter` borrows the reader: when the iterator is dropped, its read-ahead buffer is
gone and only the reader's cursor and tail state are left. A partial iteration
takes at most `k` records and drops the iterator; a full one is `replay`.
-/

namespace Fsys.Journal
open Fsys.Base Fsys.Base.Scan

/-- A reader of an unchanging file, wherever earlier calls have left it. -/
def JournalReader.on (file : Bytes) (cursor : ℕ) (lastState : JournalTailState) (reads : ℕ) :
    JournalReader :=
  ⟨file, file.length, cursor, lastState, reads⟩

namespace JournalIter

/-- `iter.by_ref().take(k)`: `next` is called until it has returned `k` records, or
something that is not a record. -/
def takeRecords (crc : Crc) (sched : ReadSchedule) (turns : ℕ) :
    ℕ → JournalIter → Option (Except IoError (List JournalRecord) × JournalIter)
  | 0, it => some (.ok [], it)
  | k + 1, it =>
    match next crc sched turns it with
    | none => none
    | some (it, none) => some (.ok [], it)
    | some (it, some (.error e)) => some (.error e, it)
    | some (it, some (.ok record)) =>
      match takeRecords crc sched turns k it with
      | none => none
      | some (.error e, it) => some (.error e, it)
      | some (.ok recs, it) => some (.ok (record :: recs), it)

end JournalIter

/-- One partial iteration: the records it returned, and the reader it leaves. -/
def takeReplay (crc : Crc) (sched : ReadSchedule) (k : ℕ) (r : JournalReader) :
    Option (Except IoError (List JournalRecord) × JournalReader) :=
  (JournalIter.takeRecords crc sched (turnFuel r.fileSize) k r.iter).map
    fun res => (res.1, res.2.reader)

/-- Partial iterations one after the other, each on the reader the last one left. -/
def takeReplays (crc : Crc) (sched : ReadSchedule) :
    List ℕ → JournalReader → Option (Except IoError (List JournalRecord) × JournalReader)
  | [], r => some (.ok [], r)
  | k :: ks, r =>
    match takeReplay crc sched k r with
    | none => none
    | some (.error e, r) => some (.error e, r)
    | some (.ok recs, r) =>
      match takeReplays crc sched ks r with
      | none => none
      | some (.error e, r) => some (.error e, r)
      | some (.ok more, r) => some (.ok (recs ++ more), r)

namespace JournalIter

/-! ### The reader's file is never exchanged -/

/-- The iterator reads `file`, whose length was cached when it was opened. -/
def Reads (file : Bytes) (it : JournalIter) : Prop :=
  it.reader.file = file ∧ it.reader.fileSize = file.length

variable {file : Bytes} {it : JournalIter} {crc : Crc}

theorem Reads.compact (h : Reads file it) : Reads file it.compact := by
  unfold JournalIter.compact
  split
  · exact h
  · exact h

theorem Reads.grow (h : Reads file it) (payloadLen : ℕ) : Reads file (it.grow payloadLen) := by
  unfold JournalIter.grow
  dsimp only
  split
  · exact h
  · exact h

theorem Reads.fill (sched : ReadSchedule) (h : Reads file it) :
    Reads file (JournalIter.fill sched it).2 := by
  unfold JournalIter.fill
  dsimp only
  split
  · exact h
  · split
    · exact h
    · split
      · exact h
      · exact h

theorem Reads.refill (sched : ReadSchedule) (h : Reads file it) :
    Reads file (JournalIter.refill sched it).2 := by
  unfold JournalIter.refill
  dsimp only
  have hc := h.compact
  split
  · split
    · exact hc
    · split
      · exact hc
      · exact (hc.grow _).fill sched
  · exact hc.fill sched

theorem Reads.zeroLoop (sched : ReadSchedule) (fuel : ℕ) (h : Reads file it)
    {res : Except IoError Bool × JournalIter}
    (hz : JournalIter.zeroLoop sched fuel it = some res) : Reads file res.2 := by
  induction fuel generalizing it with
  | zero => cases hz
  | succ fuel ih =>
    simp only [JournalIter.zeroLoop] at hz
    have hd : Reads file it.drain := h
    have hr := hd.refill sched
    split at hz
    · cases hz
      exact h
    · split at hz
      · cases hz
        exact hd
      · split at hz
        · rename_i heq
          cases hz
          rw [heq] at hr
          exact hr
        · rename_i heq
          cases hz
          rw [heq] at hr
          exact hr
        · rename_i heq
          rw [heq] at hr
          exact ih hr hz

theorem Reads.skipZeroRun (sched : ReadSchedule) (h : Reads file it)
    {res : Except IoError (Option JournalTailState) × JournalIter}
    (hz : JournalIter.skipZeroRun sched it = some res) : Reads file res.2 := by
  simp only [JournalIter.skipZeroRun] at hz
  split at hz
  · cases hz
  · rename_i heq
    cases hz
    exact h.zeroLoop sched _ heq
  · rename_i heq
    cases hz
    exact h.zeroLoop sched _ heq
  · rename_i heq
    have hr := h.zeroLoop sched _ heq
    split at hz
    · cases hz
      exact hr
    · cases hz
      exact hr

theorem Reads.decodeTurn (sched : ReadSchedule) (h : Reads file it) :
    Reads file (JournalIter.decodeTurn crc sched it).iter := by
  unfold JournalIter.decodeTurn
  have hr := h.refill sched
  split
  · exact h
  · dsimp only
    split
    · exact h
    · split
      · rename_i heq
        rw [heq] at hr
        exact hr
      · rename_i heq
        rw [heq] at hr
        exact hr
      · rename_i heq
        rw [heq] at hr
        exact hr
  · exact h
  · exact h
  · exact h

theorem Reads.bufferedTurn (sched : ReadSchedule) (h : Reads file it) {t : Turn}
    (ht : JournalIter.bufferedTurn crc sched it = some t) : Reads file t.iter := by
  unfold JournalIter.bufferedTurn at ht
  split at ht
  · split at ht
    · cases ht
    · rename_i heq
      cases ht
      exact h.skipZeroRun sched heq
    · rename_i heq
      cases ht
      exact h.skipZeroRun sched heq
    · rename_i heq
      cases ht
      exact h.skipZeroRun sched heq
  · cases ht
    exact h.decodeTurn sched

theorem Reads.turn (sched : ReadSchedule) (h : Reads file it) {t : Turn}
    (ht : JournalIter.turn crc sched it = some t) : Reads file t.iter := by
  unfold JournalIter.turn at ht
  have hr := h.refill sched
  split at ht
  · split at ht
    · cases ht
      exact h
    · split at ht
      · rename_i heq
        cases ht
        rw [heq] at hr
        exact hr
      · rename_i heq
        rw [heq] at hr
        exact hr.bufferedTurn sched ht
      · rename_i heq
        cases ht
        rw [heq] at hr
        exact hr
  · exact h.bufferedTurn sched ht

theorem Reads.next (sched : ReadSchedule) (fuel : ℕ) (h : Reads file it)
    {res : JournalIter × Option (Except IoError JournalRecord)}
    (hn : JournalIter.next crc sched fuel it = some res) : Reads file res.1 := by
  induction fuel generalizing it with
  | zero => cases hn
  | succ fuel ih =>
    unfold JournalIter.next at hn
    split at hn
    · cases hn
      exact h
    · split at hn
      · cases hn
      · rename_i heq
        exact ih (h.turn sched heq) hn
      · rename_i heq
        cases hn
        exact h.turn sched heq

end JournalIter

/-! ### A scan can be taken up again -/

/-- The cursor a scan ends on is enough to find out again why it ended. -/
theorem plainScan_again (crc : Crc) (file : Bytes) (cursor : ℕ) :
    plainScan crc file (plainScan crc file cursor).position =
      ⟨[], (plainScan crc file cursor).state, (plainScan crc file cursor).position⟩ := by
  obtain ⟨rest, hpath, hstop⟩ := path_of_scan (journalHead_progress crc) .cleanEnd cursor
    (file.drop cursor)
  obtain ⟨hle, hrest⟩ := hpath.rest_eq
  apply plainScan_stop
  have hdrop : file.drop (plainScan crc file cursor).position = rest := by
    rw [hrest, List.drop_drop]
    congr 1
    show _ = cursor + ((plainScan crc file cursor).position - cursor)
    have h : cursor ≤ (plainScan crc file cursor).position := hle
    omega
  rw [hdrop]
  exact hstop

namespace JournalIter

variable {file : Bytes} {it : JournalIter}

/-- What is behind the records that a partial iteration returned: the cursor it leaves is
where the scan goes on, and the tail state is final when it came to the end. -/
structure Taken (crc : Crc) (file : Bytes) (cursor k : ℕ) (recs : List JournalRecord)
    (it : JournalIter) : Prop where
  reads : Reads file it
  recs_eq : recs = (plainScan crc file cursor).records.take k
  rest_eq : plainScan crc file it.reader.cursor =
    ⟨(plainScan crc file cursor).records.drop k, (plainScan crc file cursor).state,
      (plainScan crc file cursor).position⟩
  ended : (plainScan crc file cursor).records.length < k →
    it.reader.lastState = (plainScan crc file cursor).state ∧
      it.reader.cursor = (plainScan crc file cursor).position

theorem Taken.start (crc : Crc) (h : Reads file it) :
    Taken crc file it.reader.cursor 0 [] it where
  reads := h
  recs_eq := by simp
  rest_eq := by simp
  ended := by simp

/-- The first `next` found a record, the others took the rest. -/
theorem Taken.cons {crc : Crc} {cursor cursor' k : ℕ} {r : JournalRecord}
    {recs : List JournalRecord}
    (hsame : plainScan crc file cursor = (plainScan crc file cursor').prepend [r])
    (h : Taken crc file cursor' k recs it) : Taken crc file cursor (k + 1) (r :: recs) it where
  reads := h.reads
  recs_eq := by
    rw [hsame, h.recs_eq]
    simp [Outcome.prepend]
  rest_eq := by
    rw [hsame, h.rest_eq]
    simp [Outcome.prepend]
  ended := by
    rw [hsame]
    intro hlt
    simp only [Outcome.prepend, List.length_append, List.length_singleton] at hlt ⊢
    exact h.ended (by omega)

/-- The first `next` already found the end. -/
theorem Taken.stop {crc : Crc} {cursor k : ℕ} (h : Reads file it)
    (hsame : plainScan crc file cursor = ⟨[], it.reader.lastState, it.reader.cursor⟩) :
    Taken crc file cursor (k + 1) [] it where
  reads := h
  recs_eq := by simp [hsame]
  rest_eq := by
    have hagain := plainScan_again crc file cursor
    rw [hsame] at hagain ⊢
    simpa using hagain
  ended := by simp [hsame]

theorem takeRecords_spec (crc : Crc) (extra : ℕ → ℕ) (k : ℕ) (h : Mirrors file it)
    (hlive : it.finished = false) :
    ∃ recs it', takeRecords crc (shortReads extra) (turnFuel file.length) k it =
        some (.ok recs, it') ∧
      Taken crc file it.reader.cursor k recs it' := by
  induction k generalizing it with
  | zero => exact ⟨[], it, rfl, Taken.start crc ⟨h.file_eq, h.size_eq⟩⟩
  | succ k ih =>
    obtain ⟨it1, item, hnext, hy⟩ := next_yields crc extra (turnFuel file.length) h hlive
      (toGo_lt_turnFuel file it)
    have hreads : Reads file it1 := Reads.next _ _ ⟨h.file_eq, h.size_eq⟩ hnext
    unfold takeRecords
    rw [hnext]
    cases hy with
    | item r mirrors live moved inFile same =>
      obtain ⟨recs, it', htake, ht⟩ := ih mirrors live
      dsimp only
      rw [htake]
      exact ⟨r :: recs, it', rfl, ht.cons same⟩
    | stop same => exact ⟨[], it1, rfl, Taken.stop hreads same⟩

theorem Reads.collect (crc : Crc) (sched : ReadSchedule) (turns fuel : ℕ) (h : Reads file it)
    {res : Except IoError (List JournalRecord) × JournalIter}
    (hc : JournalIter.collect crc sched turns fuel it = some res) : Reads file res.2 := by
  induction fuel generalizing it res with
  | zero => cases hc
  | succ fuel ih =>
    unfold JournalIter.collect at hc
    split at hc
    · cases hc
    · rename_i hnext
      cases hc
      exact h.next sched _ hnext
    · rename_i hnext
      cases hc
      exact h.next sched _ hnext
    · rename_i hnext
      have hr := h.next sched _ hnext
      split at hc
      · cases hc
      · rename_i hrest
        cases hc
        have hf := ih hr hrest
        exact hf
      · rename_i hrest
        cases hc
        have hf := ih hr hrest
        exact hf

end JournalIter

/-! ### Readers -/

/-- The reader is one of this file. -/
def JournalReader.Of (file : Bytes) (r : JournalReader) : Prop :=
  r.file = file ∧ r.fileSize = file.length

variable {file : Bytes} {r : JournalReader}

theorem replay_spec (crc : Crc) (extra : ℕ → ℕ) (h : r.Of file) :
    ∃ r', replay crc (shortReads extra) r =
        some (.ok (plainScan crc file r.cursor).records, r') ∧ r'.Of file ∧
      r'.lastState = (plainScan crc file r.cursor).state ∧
      r'.cursor = (plainScan crc file r.cursor).position := by
  have hm := JournalIter.mirrors_iter file r h.1 h.2
  obtain ⟨it', hc, hstate, hpos⟩ := JournalIter.collect_eq_plainScan crc extra (file.length + 1) hm
    rfl (by omega)
  have hiter : JournalIter.Reads file r.iter := h
  have hreads : JournalIter.Reads file it' := hiter.collect crc _ _ _ hc
  refine ⟨it'.reader, ?_, hreads, hstate, hpos⟩
  unfold replay
  rw [h.2, hc]
  rfl

theorem takeReplay_spec (crc : Crc) (extra : ℕ → ℕ) (k : ℕ) (h : r.Of file) :
    ∃ it, takeReplay crc (shortReads extra) k r =
        some (.ok ((plainScan crc file r.cursor).records.take k), it.reader) ∧
      JournalIter.Taken crc file r.cursor k ((plainScan crc file r.cursor).records.take k) it := by
  have hm := JournalIter.mirrors_iter file r h.1 h.2
  obtain ⟨recs, it', htake, ht⟩ := JournalIter.takeRecords_spec crc extra k hm rfl
  obtain rfl := ht.recs_eq
  refine ⟨it', ?_, ht⟩
  unfold takeReplay
  rw [h.2, htake]
  rfl

/-- The reader `e` as an ended iteration leaves it: iterations of it, however many and
however far each is taken, return no record and leave tail state and position alone. -/
def Exhausted (crc : Crc) (e : JournalReader) : Prop :=
  ∀ extra : ℕ → ℕ,
    (∀ ks, ∃ r, takeReplays crc (shortReads extra) ks e = some (.ok [], r) ∧
      r.tailState = e.tailState ∧ r.position = e.position) ∧
    ∃ r, replay crc (shortReads extra) e = some (.ok [], r) ∧
      r.tailState = e.tailState ∧ r.position = e.position

/-- The reader is of this file and its tail state is what a scan from its cursor finds. -/
structure Ended (crc : Crc) (file : Bytes) (r : JournalReader) : Prop where
  ofFile : r.Of file
  scan_eq : plainScan crc file r.cursor = ⟨[], r.lastState, r.cursor⟩

theorem Ended.of_scan {crc : Crc} {cursor : ℕ} (h : r.Of file)
    (hs : r.lastState = (plainScan crc file cursor).state)
    (hp : r.cursor = (plainScan crc file cursor).position) : Ended crc file r where
  ofFile := h
  scan_eq := by
    rw [hs, hp]
    exact plainScan_again crc file cursor

/-- A partial iteration of an ended reader calls `next` once, or not at all. -/
theorem Ended.take {crc : Crc} (h : Ended crc file r) (extra : ℕ → ℕ) (k : ℕ) :
    ∃ r', takeReplay crc (shortReads extra) k r = some (.ok [], r') ∧ Ended crc file r' ∧
      r'.lastState = r.lastState ∧ r'.cursor = r.cursor := by
  cases k with
  | zero => exact ⟨r, rfl, h, rfl, rfl⟩
  | succ k =>
    obtain ⟨it, htake, ht⟩ := takeReplay_spec crc extra (k + 1) h.ofFile
    have hended := ht.ended
    rw [h.scan_eq] at htake hended
    obtain ⟨hstate, hcursor⟩ := hended (Nat.succ_pos k)
    refine ⟨it.reader, htake, ⟨ht.reads, ?_⟩, hstate, hcursor⟩
    rw [hcursor, hstate]
    exact h.scan_eq

theorem Ended.takes {crc : Crc} (h : Ended crc file r) (extra : ℕ → ℕ) (ks : List ℕ) :
    ∃ r', takeReplays crc (shortReads extra) ks r = some (.ok [], r') ∧
      r'.lastState = r.lastState ∧ r'.cursor = r.cursor := by
  induction ks generalizing r with
  | nil => exact ⟨r, rfl, rfl, rfl⟩
  | cons k ks ih =>
    obtain ⟨r1, htake, h1, hstate1, hcursor1⟩ := h.take extra k
    obtain ⟨r2, htakes, hstate2, hcursor2⟩ := ih h1
    refine ⟨r2, ?_, hstate2.trans hstate1, hcursor2.trans hcursor1⟩
    unfold takeReplays
    rw [htake]
    dsimp only
    rw [htakes]
    rfl

theorem Ended.exhausted {crc : Crc} (h : Ended crc file r) : Exhausted crc r := by
  intro extra
  refine ⟨fun ks => h.takes extra ks, ?_⟩
  obtain ⟨r', hreplay, -, hstate, hpos⟩ := replay_spec crc extra h.ofFile
  rw [h.scan_eq] at hreplay hstate hpos
  exact ⟨r', hreplay, hstate, hpos⟩

/-- An iteration can be dropped after any number `k` of records and taken up again by a
new `iter()`: nothing is lost, repeated or classified in another way. Once an iteration has
ended, in one piece or in two, further ones find the same end. -/
theorem iter_split_anywhere (crc : Crc) (file : Bytes) (cursor : ℕ)
    (lastState : JournalTailState) (reads k : ℕ) (extra extra' : ℕ → ℕ) :
    ∃ records ended,
      replay crc (shortReads extra) (.on file cursor lastState reads) =
        some (.ok records, ended) ∧
      Exhausted crc ended ∧
      ∃ dropped r,
        takeReplay crc (shortReads extra') k (.on file cursor lastState reads) =
          some (.ok (records.take k), dropped) ∧
        (records.length < k → dropped.tailState = ended.tailState ∧
          dropped.position = ended.position ∧ Exhausted crc dropped) ∧
        replay crc (shortReads extra') dropped = some (.ok (records.drop k), r) ∧
        r.tailState = ended.tailState ∧ r.position = ended.position ∧ Exhausted crc r := by
  have hof : (JournalReader.on file cursor lastState reads).Of file := ⟨rfl, rfl⟩
  obtain ⟨ended, hwhole, hended, hstate, hpos⟩ := replay_spec crc extra hof
  obtain ⟨it, htake, ht⟩ := takeReplay_spec crc extra' k hof
  obtain ⟨r, hrest, hr, hstate', hpos'⟩ := replay_spec crc extra' ht.reads
  rw [ht.rest_eq] at hrest hstate' hpos'
  refine ⟨_, ended, hwhole, (Ended.of_scan hended hstate hpos).exhausted,
    it.reader, r, htake, ?_, hrest, hstate'.trans hstate.symm, hpos'.trans hpos.symm,
    (Ended.of_scan hr hstate' hpos').exhausted⟩
  intro hlt
  obtain ⟨hs, hp⟩ := ht.ended hlt
  exact ⟨hs.trans hstate.symm, hp.trans hpos.symm,
    (Ended.of_scan ht.reads hs hp).exhausted⟩

end Fsys.Journal
