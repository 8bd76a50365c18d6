import Fsys.Journal.ReadAt
import Fsys.Journal.TailSafety

/-!
# Interrupted reads

`File::read` returns `ErrorKind::Interrupted` as it comes. Neither read loop of the reader
tries again, so a signal during a call ends an iteration, a `read_at_lsn` or the scan of an
open with an error.
-/

namespace Fsys.Journal
open Fsys.Base

/-- The call was interrupted by a signal. -/
def ReadReply.Interrupted (reply : ReadReply) : Prop :=
  ∃ e, reply = .fail e ∧ e.kind = .interrupted

/-- Short and interrupted reads; the interruptions do not go on for ever. -/
structure SignalSchedule (sched : ReadSchedule) : Prop where
  only : ∀ k, (sched k).Fails → (sched k).Interrupted
  finite : ∀ k, ∃ j, k ≤ j ∧ ¬(sched j).Fails

/-- Every call gets all it asks for. -/
def fullReads (file : Bytes) : ReadSchedule := shortReads fun _ => file.length

/-- A run fails exactly when one of the calls it comes to does. -/
theorem Follows.iff {sched : ReadSchedule} {n : ℕ} {same failed p : Prop}
    (h : Follows sched 0 n same failed) (hsame : same → p) (hfailed : failed → ¬p) :
    p ↔ ∀ j < n, ¬(sched j).Fails := by
  obtain ⟨hshort, hs⟩ | ⟨⟨j, -, hj, hfails⟩, hf⟩ := h.cases
  · exact ⟨fun _ j hj => hshort j (Nat.zero_le j) hj, fun _ => hsame hs⟩
  · exact ⟨fun hp => absurd hp (hfailed hf), fun hnone => absurd hfails (hnone j hj)⟩

/-! ### Reading one record -/

/-- What an exact read gives when no call fails. -/
def exactBytes (file : Bytes) (offset want : ℕ) : Except IoError Bytes :=
  match osSeek offset with
  | .error e => .error e
  | .ok () =>
    if offset + want ≤ file.length ∨ want = 0 then .ok ((file.drop offset).take want)
    else .error readExactEof

theorem readExactAt_exact (extra : ℕ → ℕ) (r : JournalReader) (offset want : ℕ) :
    ∃ k, r.readExactAt (shortReads extra) offset want =
      (exactBytes r.file offset want, { r with reads := k }) := by
  unfold JournalReader.readExactAt exactBytes
  cases osSeek offset with
  | error e => exact ⟨r.reads, rfl⟩
  | ok u =>
    obtain ⟨k', hloop⟩ := readExactLoop_short extra r.file offset want r.reads
    exact ⟨k', by rw [hloop]⟩

/-- What the part behind the header checks gives then. -/
def frameAt (crc : Crc) (file : Bytes) (lsn length : ℕ) : Except IoError JournalRecord :=
  if fitsInFile lsn (frameOverhead + length) file.length then
    match exactBytes file lsn (frameOverhead + length) with
    | .error e => .error e
    | .ok frame => recordOf lsn frame (decodeFrame crc frame)
  else .error (truncatedAt lsn)

/-- What `read_at_lsn` gives when no call fails. -/
def recordAt (crc : Crc) (file : Bytes) (lsn : ℕ) : Except IoError JournalRecord :=
  match exactBytes file lsn 8 with
  | .error e => .error e
  | .ok header =>
    if beAt header 0 ≠ frameMagicV1 then .error (badMagicAt lsn)
    else if leAt header 4 > frameMaxPayload then .error (lengthOverflowAt lsn)
    else frameAt crc file lsn (leAt header 4)

theorem readFrameAt_exact (crc : Crc) (extra : ℕ → ℕ) (r : JournalReader) (lsn length : ℕ) :
    (r.readFrameAt crc (shortReads extra) none lsn length).result =
      frameAt crc r.file lsn length := by
  unfold JournalReader.readFrameAt frameAt
  obtain ⟨k, hread⟩ := readExactAt_exact extra r lsn (frameOverhead + length)
  dsimp only
  split
  · rw [hread]
    cases exactBytes r.file lsn (frameOverhead + length) <;> rfl
  · rfl

theorem readAtLsn_exact (crc : Crc) (extra : ℕ → ℕ) (r : JournalReader) (lsn : ℕ) :
    (r.readAtLsn crc (shortReads extra) none lsn).result = recordAt crc r.file lsn := by
  unfold JournalReader.readAtLsn recordAt
  obtain ⟨k, hread⟩ := readExactAt_exact extra r lsn 8
  rw [hread]
  cases exactBytes r.file lsn 8 with
  | error e => rfl
  | ok header =>
    dsimp only
    by_cases hmagic : beAt header 0 ≠ frameMagicV1
    · rw [if_pos hmagic, if_pos hmagic]
    · rw [if_neg hmagic, if_neg hmagic]
      by_cases hlong : leAt header 4 > frameMaxPayload
      · rw [if_pos hlong, if_pos hlong]
      · rw [if_neg hlong, if_neg hlong]
        exact readFrameAt_exact crc extra _ lsn _

theorem exactBytes_kind {file : Bytes} {offset want : ℕ} {e : IoError}
    (h : exactBytes file offset want = .error e) : e.kind ≠ .interrupted := by
  unfold exactBytes osSeek at h
  by_cases hseek : offset < 2 ^ 63
  · rw [if_pos hseek] at h
    dsimp only at h
    split at h
    · cases h
    · cases h
      decide
  · rw [if_neg hseek] at h
    cases h
    decide

theorem frameAt_kind {crc : Crc} {file : Bytes} {lsn length : ℕ} {e : IoError}
    (h : frameAt crc file lsn length = .error e) : e.kind ≠ .interrupted := by
  unfold frameAt at h
  split at h
  · cases hframe : exactBytes file lsn (frameOverhead + length) with
    | error e' =>
      rw [hframe] at h
      cases h
      exact exactBytes_kind hframe
    | ok frame =>
      rw [hframe] at h
      dsimp only at h
      generalize decodeFrame crc frame = decoded at h
      cases decoded <;> cases h <;>
        simp [badMagicAt, checksumMismatchAt, truncatedAt, lengthOverflowAt]
  · cases h
    simp [truncatedAt]

/-- No error of `read_at_lsn` is an interruption unless a call was interrupted. -/
theorem recordAt_kind {crc : Crc} {file : Bytes} {lsn : ℕ} {e : IoError}
    (h : recordAt crc file lsn = .error e) : e.kind ≠ .interrupted := by
  unfold recordAt at h
  cases hheader : exactBytes file lsn 8 with
  | error e' =>
    rw [hheader] at h
    cases h
    exact exactBytes_kind hheader
  | ok header =>
    rw [hheader] at h
    dsimp only at h
    by_cases hmagic : beAt header 0 ≠ frameMagicV1
    · rw [if_pos hmagic] at h
      cases h
      simp [badMagicAt]
    · rw [if_neg hmagic] at h
      by_cases hlong : leAt header 4 > frameMaxPayload
      · rw [if_pos hlong] at h
        cases h
        simp [lengthOverflowAt]
      · rw [if_neg hlong] at h
        exact frameAt_kind h

/-! ### `read_at_lsn` against the schedule -/

section Exact

variable (sched : ReadSchedule)

theorem readExactAt_follows (r : JournalReader) (offset want : ℕ) :
    Follows sched r.reads (r.readExactAt (shortReads (shortsOf sched)) offset want).2.reads
      (r.readExactAt sched offset want = r.readExactAt (shortReads (shortsOf sched)) offset want)
      (∃ e r', Answered sched e ∧ r.readExactAt sched offset want = (.error e, r')) := by
  unfold JournalReader.readExactAt
  split
  · exact .of_same rfl
  · rw [readExactLoop_eq, readExactLoop_eq]
    refine (readUntil_follows _ sched r.file offset want want r.reads []).imp ?_ ?_
    · intro hsame
      rw [hsame]
    · rintro ⟨e, k', he, hfailed⟩
      exact ⟨e, _, he, by rw [hfailed]⟩

theorem readFrameAt_follows (crc : Crc) (r : JournalReader) (lsn length : ℕ) :
    Follows sched r.reads
      (r.readFrameAt crc (shortReads (shortsOf sched)) none lsn length).reader.reads
      (r.readFrameAt crc sched none lsn length =
        r.readFrameAt crc (shortReads (shortsOf sched)) none lsn length)
      (∃ e, Answered sched e ∧ (r.readFrameAt crc sched none lsn length).result = .error e) := by
  unfold JournalReader.readFrameAt
  dsimp only
  split
  · have hexact := readExactAt_follows sched r lsn (frameOverhead + length)
    generalize r.readExactAt (shortReads (shortsOf sched)) lsn (frameOverhead + length) = shorts
      at hexact ⊢
    generalize r.readExactAt sched lsn (frameOverhead + length) = run at hexact ⊢
    obtain ⟨result, r₁⟩ := shorts
    cases result <;>
      · refine hexact.imp (fun hsame => by rw [hsame]) ?_
        rintro ⟨e, r', he, hfailed⟩
        exact ⟨e, he, by rw [hfailed]⟩
  · exact .of_same rfl

theorem readAtLsn_follows (crc : Crc) (r : JournalReader) (lsn : ℕ) :
    Follows sched r.reads (r.readAtLsn crc (shortReads (shortsOf sched)) none lsn).reader.reads
      (r.readAtLsn crc sched none lsn = r.readAtLsn crc (shortReads (shortsOf sched)) none lsn)
      (∃ e, Answered sched e ∧ (r.readAtLsn crc sched none lsn).result = .error e) := by
  unfold JournalReader.readAtLsn
  have hexact := readExactAt_follows sched r lsn 8
  generalize r.readExactAt (shortReads (shortsOf sched)) lsn 8 = shorts at hexact ⊢
  generalize r.readExactAt sched lsn 8 = run at hexact ⊢
  obtain ⟨result, r₁⟩ := shorts
  cases result with
  | error e =>
    refine hexact.imp (fun hsame => by rw [hsame]) ?_
    rintro ⟨e, r', he, hfailed⟩
    exact ⟨e, he, by rw [hfailed]⟩
  | ok header =>
    dsimp only
    by_cases hmagic : beAt header 0 ≠ frameMagicV1
    · rw [if_pos hmagic]
      refine hexact.imp ?_ ?_
      · intro hsame
        rw [hsame]
        exact if_pos hmagic
      · rintro ⟨e, r', he, hfailed⟩
        exact ⟨e, he, by rw [hfailed]⟩
    · rw [if_neg hmagic]
      by_cases hlong : leAt header 4 > frameMaxPayload
      · rw [if_pos hlong]
        refine hexact.imp ?_ ?_
        · intro hsame
          rw [hsame]
          dsimp only
          rw [if_neg hmagic, if_pos hlong]
        · rintro ⟨e, r', he, hfailed⟩
          exact ⟨e, he, by rw [hfailed]⟩
      · rw [if_neg hlong]
        refine hexact.trans (readFrameAt_follows sched crc r₁ lsn (leAt header 4)) ?_ ?_ ?_
        · intro hsame hframe
          rw [hsame]
          dsimp only
          rw [if_neg hmagic, if_neg hlong, hframe]
        · rintro ⟨e, r', he, hfailed⟩
          exact ⟨e, he, by rw [hfailed]⟩
        · rintro hsame ⟨e, he, hfailed⟩
          refine ⟨e, he, ?_⟩
          rw [hsame]
          dsimp only
          rw [if_neg hmagic, if_neg hlong, hfailed]

end Exact

/-! ### The scan of an open -/

section Scan

variable (crc : Crc)

/-- What `scan_clean_end` returns for the answers to its reads. -/
def scanResult (sched : ReadSchedule) (file : Bytes) :
    Except IoError (ℕ × ℕ × JournalTailState) :=
  if file.length = 0 then .ok (0, 0, .cleanEnd)
  else
    match replay crc sched (JournalReader.open file) with
    | some (.ok _, reader) => .ok (reader.position, file.length, reader.tailState)
    | some (.error e, _) => .error e
    | none => .error ⟨.other, "the scan did not end"⟩

theorem scanCleanEnd_result {plan : Plan PathBuf} {path : PathBuf} {i : ℕ} {w : World PathBuf}
    (hi : w.disk.names path = some i) (hopen : Io.Works plan (.openRead path))
    (hlen : Io.Works plan (.len i)) :
    (scanCleanEnd crc plan path w).1 =
      scanResult crc (readsFrom plan i (w.clock + 2)) (w.disk.data i) := by
  obtain ⟨n, hn⟩ := hopen w.clock
  obtain ⟨m, hm⟩ := hlen (w.clock + 1)
  have hstart : Io.openRead plan path w = (.ok i, Io.World.tick w w.disk) := by
    unfold Io.openRead Io.look Io.fileOf
    rw [hn]
    dsimp only
    rw [hi]
  have hsize : Io.len plan i (Io.World.tick w w.disk) =
      (.ok (w.disk.data i).length, ⟨w.disk, w.clock + 2, w.renames⟩) := by
    unfold Io.len Io.look Io.World.tick
    dsimp only
    rw [hm]
  unfold scanCleanEnd scanResult
  rw [Prog.bind_run hstart, Prog.bind_run hsize]
  by_cases hzero : (w.disk.data i).length = 0
  · rw [if_pos hzero, if_pos hzero]
    rfl
  · rw [if_neg hzero, if_neg hzero]
    obtain ⟨reader, hreplay, -, -⟩ | ⟨e, reader, hreplay⟩ :=
      replay_cases crc (readsFrom plan i (w.clock + 2)) (w.disk.data i) 0
    all_goals
      rw [JournalReader.seekTo_zero] at hreplay
      rw [hreplay]
    · rw [Prog.bind_run (a := (reader.position, reader.tailState))
        (by unfold scanFile; dsimp only; rw [hreplay])]
      rfl
    · rw [Prog.bind_fail (e := e) (by unfold scanFile; dsimp only; rw [hreplay])]

/-- An empty file is not read. -/
theorem readsOf_nil (sched : ReadSchedule) : readsOf crc sched (JournalReader.open []) = 0 := by
  simp [readsOf, replay, JournalReader.open, JournalReader.iter, turnFuel, JournalIter.collect,
    JournalIter.next, JournalIter.turn, JournalIter.buffered, JournalIter.finish]

theorem scanResult_follows (sched : ReadSchedule) (file : Bytes) :
    Follows sched 0 (readsOf crc sched (JournalReader.open file))
      (scanResult crc sched file =
        .ok (cleanEndOf crc file, file.length, (plainScan crc file 0).state))
      (∃ e, scanResult crc sched file = .error e) := by
  unfold scanResult
  by_cases hzero : file.length = 0
  · have hnil : file = [] := List.eq_nil_of_length_eq_zero hzero
    subst hnil
    rw [if_pos hzero]
    rw [readsOf_nil]
    refine .of_same ?_
    rw [cleanEndOf_nil, plainScan_stop crc [] 0 .cleanEnd rfl]
    rfl
  · rw [if_neg hzero]
    have hreplay := replay_follows crc sched file 0
    rw [JournalReader.seekTo_zero] at hreplay
    refine hreplay.imp ?_ ?_
    · rintro ⟨reader, hrun, hstate, hpos⟩
      rw [hrun]
      dsimp only
      rw [hstate, hpos]
      rfl
    · rintro ⟨e, reader, hrun⟩
      exact ⟨e, by rw [hrun]⟩

end Scan

/-! ### Interruptions -/

section

variable (crc : Crc) (file : FileContent) (cursor : ℕ) (sched : ReadSchedule)

/-- A fresh reader, moved to the cursor. -/
def readerAt : JournalReader := (JournalReader.open file.bytes).seekTo cursor

/-- What an iteration driven to its end gives: the records or the error, the tail state and
the position. -/
def outcome (sched : ReadSchedule) :
    Option (Except IoError (List JournalRecord) × JournalTailState × ℕ) :=
  (replay crc sched (readerAt file cursor)).map fun out =>
    (out.1, out.2.tailState, out.2.position)

/-- Iteration and `read_at_lsn` at the cursor give what they give over full reads, and the
scan of an open that meets the schedule returns. -/
structure InterruptsUnseen : Prop where
  iteration : outcome crc file cursor sched = outcome crc file cursor (fullReads file.bytes)
  readAt : ((readerAt file cursor).readAtLsn crc sched none cursor).result =
    ((readerAt file cursor).readAtLsn crc (fullReads file.bytes) none cursor).result
  opening : ∀ (plan : Plan PathBuf) (path : PathBuf) (i : ℕ) (w : World PathBuf),
    w.disk.names path = some i → w.disk.data i = file.bytes →
    Io.Works plan (.openRead path) → Io.Works plan (.len i) →
    readsFrom plan i (w.clock + 2) = sched →
    (scanCleanEnd crc plan path w).1 =
      .ok (cleanEndOf crc file.bytes, file.bytes.length, (plainScan crc file.bytes 0).state)

/-- The read calls that the three make when the interrupted ones are left out. -/
def callsMade : ℕ :=
  max (readsOf crc sched (readerAt file cursor))
    (max
      ((readerAt file cursor).readAtLsn crc (shortReads (shortsOf sched)) none cursor).reader.reads
      (readsOf crc sched (readerAt file 0)))

theorem outcome_of_replay {reader : JournalReader} (result : Except IoError (List JournalRecord))
    (h : replay crc sched (readerAt file cursor) = some (result, reader)) :
    outcome crc file cursor sched = some (result, reader.tailState, reader.position) := by
  unfold outcome
  rw [h]
  rfl

theorem outcome_full : outcome crc file cursor (fullReads file.bytes) =
    some (.ok (plainScan crc file.bytes cursor).records, (plainScan crc file.bytes cursor).state,
      (plainScan crc file.bytes cursor).position) := by
  obtain ⟨reader, hreplay, hstate, hpos⟩ :=
    replay_eq_plainScan crc file.bytes cursor fun _ => file.bytes.length
  rw [outcome_of_replay crc file cursor (fullReads file.bytes) _ hreplay, hstate, hpos]

theorem iteration_iff :
    outcome crc file cursor sched = outcome crc file cursor (fullReads file.bytes) ↔
      ∀ j < readsOf crc sched (readerAt file cursor), ¬(sched j).Fails := by
  refine (replay_follows crc sched file.bytes cursor).iff ?_ ?_
  · rintro ⟨reader, hreplay, hstate, hpos⟩
    rw [outcome_full, outcome_of_replay crc file cursor sched _ hreplay, hstate, hpos]
  · rintro ⟨e, reader, hreplay⟩ hsame
    rw [outcome_full, outcome_of_replay crc file cursor sched _ hreplay] at hsame
    cases hsame

theorem readAt_full :
    ((readerAt file cursor).readAtLsn crc (fullReads file.bytes) none cursor).result =
      recordAt crc file.bytes cursor :=
  readAtLsn_exact crc (fun _ => file.bytes.length) (readerAt file cursor) cursor

theorem readAt_iff (hs : SignalSchedule sched) :
    ((readerAt file cursor).readAtLsn crc sched none cursor).result =
        ((readerAt file cursor).readAtLsn crc (fullReads file.bytes) none cursor).result ↔
      ∀ j < ((readerAt file cursor).readAtLsn crc (shortReads (shortsOf sched)) none
        cursor).reader.reads, ¬(sched j).Fails := by
  refine (readAtLsn_follows sched crc (readerAt file cursor) cursor).iff ?_ ?_
  · intro hsame
    rw [hsame, readAtLsn_exact, readAt_full]
    rfl
  · -- the error of the run is an interruption, and the run over full reads has none
    rintro ⟨e, ⟨j, hj⟩, hfailed⟩ hsame
    have hfull : recordAt crc file.bytes cursor = .error e := by
      rw [← hfailed, hsame, readAt_full]
    obtain ⟨e', he', hkind⟩ := hs.only j ⟨e, hj⟩
    rw [hj] at he'
    cases he'
    exact recordAt_kind hfull hkind

/-- A plan whose reads answer as the schedule says once the file is open. -/
def planOf (sched : ReadSchedule) : Plan PathBuf
  | .read _, t =>
    match sched (t - 2) with
    | .short extra => .ok extra
    | .fail e => .fail e 0
  | _, _ => .ok 0

theorem readsFrom_planOf (i : ℕ) : readsFrom (planOf sched) i 2 = sched := by
  funext k
  unfold readsFrom planOf
  dsimp only
  rw [Nat.add_sub_cancel_left]
  cases sched k <;> rfl

theorem opening_iff :
    (∀ (plan : Plan PathBuf) (path : PathBuf) (i : ℕ) (w : World PathBuf),
      w.disk.names path = some i → w.disk.data i = file.bytes →
      Io.Works plan (.openRead path) → Io.Works plan (.len i) →
      readsFrom plan i (w.clock + 2) = sched →
      (scanCleanEnd crc plan path w).1 = .ok (cleanEndOf crc file.bytes, file.bytes.length,
        (plainScan crc file.bytes 0).state)) ↔
      ∀ j < readsOf crc sched (readerAt file 0), ¬(sched j).Fails := by
  refine (scanResult_follows crc sched file.bytes).iff ?_ ?_
  · intro hsame plan path i w hi hdata hopen hlen hreads
    rw [scanCleanEnd_result crc hi hopen hlen, hreads, hdata, hsame]
  · rintro ⟨e, hfailed⟩ hopens
    have hwrong := hopens (planOf sched) oddJournal 0
      ⟨{ oddDisk false with data := fun _ => file.bytes }, 0, []⟩ rfl rfl (fun _ => ⟨0, rfl⟩)
      (fun _ => ⟨0, rfl⟩) (readsFrom_planOf sched 0)
    rw [scanCleanEnd_result crc rfl (fun _ => ⟨0, rfl⟩) (fun _ => ⟨0, rfl⟩)] at hwrong
    dsimp only at hwrong
    rw [readsFrom_planOf, hfailed] at hwrong
    cases hwrong

theorem fails_iff {sched : ReadSchedule} (hs : SignalSchedule sched) (k : ℕ) :
    (sched k).Fails ↔ (sched k).Interrupted := by
  refine ⟨hs.only k, ?_⟩
  rintro ⟨e, he, -⟩
  exact ⟨e, he⟩

theorem unseen_iff (hs : SignalSchedule sched) :
    InterruptsUnseen crc file cursor sched ↔
      ∀ k < callsMade crc file cursor sched, ¬(sched k).Interrupted := by
  have hparts : InterruptsUnseen crc file cursor sched ↔ _ ∧ _ ∧ _ :=
    ⟨fun h => ⟨h.iteration, h.readAt, h.opening⟩, fun h => ⟨h.1, h.2.1, h.2.2⟩⟩
  rw [hparts, iteration_iff, readAt_iff crc file cursor sched hs, opening_iff]
  simp only [callsMade, lt_max_iff, fails_iff hs, or_imp, forall_and]

/-- The answers that are left after the first `k`. -/
def ReadSchedule.after (sched : ReadSchedule) (k : ℕ) : ReadSchedule := fun j => sched (k + j)

theorem SignalSchedule.after {sched : ReadSchedule} (hs : SignalSchedule sched) (k : ℕ) :
    SignalSchedule (sched.after k) := by
  refine ⟨fun j => hs.only (k + j), ?_⟩
  intro j
  obtain ⟨m, hm, hshort⟩ := hs.finite (k + j)
  refine ⟨m - k, by omega, ?_⟩
  unfold ReadSchedule.after
  rwa [Nat.add_sub_cancel' (by omega)]

theorem emptyFile_lt : ([] : Bytes).length < 2 ^ 63 := by decide

/-- A file that was just created. -/
def emptyFile : FileContent := ⟨[], emptyFile_lt⟩

/-- Even an empty file takes a call. -/
theorem callsMade_empty (sched : ReadSchedule) : callsMade crc emptyFile 0 sched = 1 := by
  have hempty : ∀ k, osRead (shortReads (shortsOf sched) k) [] 0 8 = .ok [] := by
    simp [osRead, shortReads]
  have hread : ((readerAt emptyFile 0).readAtLsn crc (shortReads (shortsOf sched)) none
      0).reader.reads = 1 := by
    simp [JournalReader.readAtLsn, JournalReader.readExactAt, osSeek, readExactLoop, readerAt,
      emptyFile, JournalReader.open, JournalReader.seekTo, hempty]
  have hreplay : readsOf crc sched (readerAt emptyFile 0) = 0 := readsOf_nil crc sched
  rw [callsMade, hread, hreplay]
  rfl

/-- For each file, cursor and schedule the interruptions are unseen if and only if none of
them meets a call that is made. So a schedule is safe for all files, all cursors and
readers opened at all times if and only if it interrupts no call. -/
theorem interrupts_unseen_iff (sched : ReadSchedule) (hs : SignalSchedule sched) :
    (∀ (file : FileContent) (cursor : ℕ), InterruptsUnseen crc file cursor sched ↔
      ∀ k < callsMade crc file cursor sched, ¬(sched k).Interrupted) ∧
    ((∀ (file : FileContent) (cursor k : ℕ), InterruptsUnseen crc file cursor (sched.after k)) ↔
      ∀ k, ¬(sched k).Interrupted) := by
  refine ⟨fun file cursor => unseen_iff crc file cursor sched hs, ?_, ?_⟩
  · intro hall k
    have hone := (unseen_iff crc emptyFile 0 (sched.after k) (hs.after k)).mp (hall emptyFile 0 k)
    exact hone 0 (by rw [callsMade_empty]; exact Nat.one_pos)
  · intro hnone file cursor k
    refine (unseen_iff crc file cursor (sched.after k) (hs.after k)).mpr ?_
    intro j _
    exact hnone (k + j)

end

/-! ### One signal -/

/-- A fresh iterator over a file that is not at its end starts with a call. -/
theorem collect_first_fails (crc : Crc) {sched : ReadSchedule} {r : JournalReader} {buf : Bytes}
    {e : IoError} (turns fuel : ℕ) (hfails : sched r.reads = .fail e) (hlt : r.cursor < r.fileSize)
    (hbuf : ¬buf.length = 0) :
    ∃ it, JournalIter.collect crc sched (turns + 1) (fuel + 1) ⟨r, buf, 0, 0, false⟩ =
      some (.error e, it) := by
  obtain ⟨want, hwant⟩ :=
    Nat.exists_eq_succ_of_ne_zero (n := min (r.fileSize - r.cursor) buf.length) (by omega)
  simp [JournalIter.collect, JournalIter.next, JournalIter.turn, JournalIter.buffered,
    JournalIter.refill, JournalIter.compact, JournalIter.fill, JournalIter.readLoop,
    JournalIter.fail, osRead, hbuf, Nat.not_le.mpr hlt, hwant, hfails]

theorem replay_first_fails (crc : Crc) {sched : ReadSchedule} {file : Bytes} {cursor : ℕ}
    {e : IoError} (hfails : sched 0 = .fail e) (hlt : cursor < file.length) :
    ∃ reader, replay crc sched ((JournalReader.open file).seekTo cursor) =
      some (.error e, reader) := by
  have hbuf : ¬(zeros readBufSize).length = 0 := by
    rw [length_zeros]
    decide
  obtain ⟨it, hit⟩ := collect_first_fails crc (2 * file.length + 2) file.length
    (r := (JournalReader.open file).seekTo cursor) hfails hlt hbuf
  refine ⟨it.reader, ?_⟩
  unfold replay
  exact congrArg (Option.map fun res => (res.1, res.2.reader)) hit

def eintr : IoError := ⟨.interrupted, "Interrupted system call (os error 4)"⟩

/-- Call `n` is interrupted, the others get what they ask for. -/
def signalAt (n : ℕ) : ReadSchedule := fun k => if k = n then .fail eintr else .short readBufSize

theorem signalAt_signals (n : ℕ) : SignalSchedule (signalAt n) := by
  constructor
  · intro k hfails
    obtain ⟨e, he⟩ := hfails
    unfold signalAt at he ⊢
    split at he
    · exact ⟨eintr, by simp [*], rfl⟩
    · cases he
  · intro k
    refine ⟨max k (n + 1), Nat.le_max_left _ _, ?_⟩
    rintro ⟨e, he⟩
    unfold signalAt at he
    rw [if_neg (by omega)] at he
    cases he

theorem recordFile_lt : (frameBytes castagnoli [7]).length < 2 ^ 63 := by decide +kernel

/-- A journal of one record. -/
def recordFile : FileContent := ⟨frameBytes castagnoli [7], recordFile_lt⟩

theorem callsMade_recordFile : callsMade castagnoli recordFile 0 (signalAt 2) = 2 := by
  decide +kernel

/-- Two calls are made for it at most, so a signal at the third goes unseen. -/
theorem interrupts_unseen_late : SignalSchedule (signalAt 2) ∧
    callsMade castagnoli recordFile 0 (signalAt 2) = 2 ∧ (signalAt 2 2).Interrupted ∧
    InterruptsUnseen castagnoli recordFile 0 (signalAt 2) ∧
    outcome castagnoli recordFile 0 (signalAt 2) = some (.ok [⟨0, [7]⟩], .cleanEnd, 13) := by
  have h := interrupts_unseen_iff castagnoli (signalAt 2) (signalAt_signals 2)
  have hunseen : InterruptsUnseen castagnoli recordFile 0 (signalAt 2) := by
    refine (h.1 recordFile 0).mpr ?_
    intro k hk
    rw [callsMade_recordFile] at hk
    rintro ⟨e, he, -⟩
    unfold signalAt at he
    rw [if_neg (by omega)] at he
    cases he
  refine ⟨signalAt_signals 2, callsMade_recordFile, ⟨eintr, rfl, rfl⟩, hunseen, ?_⟩
  have hrecords : (plainScan castagnoli recordFile.bytes 0).records = [⟨0, [7]⟩] := by
    decide +kernel
  have hstate : (plainScan castagnoli recordFile.bytes 0).state = .cleanEnd := by decide +kernel
  have hposition : (plainScan castagnoli recordFile.bytes 0).position = 13 := by decide +kernel
  rw [hunseen.iteration, outcome_full, hrecords, hstate, hposition]

theorem oddFile_lt : ([1] : Bytes).length < 2 ^ 63 := by decide

def oddFile : FileContent := ⟨[1], oddFile_lt⟩

/-- A signal at the first call: the iteration, `read_at_lsn` and the open fail with it. -/
theorem first_interrupt_seen : SignalSchedule (signalAt 0) ∧
    (∃ reader, replay castagnoli (signalAt 0) (readerAt oddFile 0) = some (.error eintr, reader)) ∧
    ((readerAt oddFile 0).readAtLsn castagnoli (signalAt 0) none 0).result = .error eintr ∧
    (scanCleanEnd castagnoli (planOf (signalAt 0)) oddJournal ⟨oddDisk false, 0, []⟩).1 =
      .error eintr ∧
    ¬InterruptsUnseen castagnoli oddFile 0 (signalAt 0) := by
  have hreplay : ∃ reader, replay castagnoli (signalAt 0) (readerAt oddFile 0) =
      some (.error eintr, reader) := replay_first_fails castagnoli rfl Nat.one_pos
  have hread : ((readerAt oddFile 0).readAtLsn castagnoli (signalAt 0) none 0).result =
      .error eintr := rfl
  refine ⟨signalAt_signals 0, hreplay, hread, ?_, ?_⟩
  · obtain ⟨reader, hreader⟩ := hreplay
    rw [scanCleanEnd_result castagnoli (i := 0) rfl (fun _ => ⟨0, rfl⟩) (fun _ => ⟨0, rfl⟩)]
    dsimp only
    rw [readsFrom_planOf]
    unfold scanResult
    rw [if_neg (by decide)]
    rw [show JournalReader.open ((oddDisk false).data 0) = readerAt oddFile 0 from rfl, hreader]
  · intro hunseen
    have hfull := hunseen.readAt
    rw [hread, readAt_full] at hfull
    exact recordAt_kind hfull.symm rfl

end Fsys.Journal
