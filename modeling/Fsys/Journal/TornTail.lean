import Fsys.Journal.ReaderScan

/-!
# Torn tails

A journal that was written front to back and cut anywhere (`reader.rs:895-973`,
docs/CRASH-SAFETY.md "valid prefix"): a replay yields the frames that are
complete, stops behind the last of them, and says how much of the next frame
is there. Zero bytes behind a frame boundary change nothing.
-/

namespace Fsys.Journal
open Fsys.Base Fsys.Base.Scan

variable (crc : Crc)

/-! ### Where a cut falls -/

/-- A cut falls behind some frames and inside the next one, if it is not at its start. -/
theorem exists_cut (ps : List Bytes) (n : ℕ) (hn : n ≤ framesLen ps) :
    ∃ as bs, ps = as ++ bs ∧ framesLen as ≤ n ∧
      (n = framesLen as ∨ ∃ p cs, bs = p :: cs ∧ n < framesLen as + (p.length + frameOverhead)) := by
  induction ps generalizing n with
  | nil => exact ⟨[], [], rfl, Nat.zero_le n, Or.inl (Nat.le_zero.mp hn)⟩
  | cons p ps ih =>
    rw [framesLen_cons] at hn
    by_cases hp : p.length + frameOverhead ≤ n
    · obtain ⟨as, bs, hps, hle, hcut⟩ := ih (n - (p.length + frameOverhead)) (by omega)
      refine ⟨p :: as, bs, by rw [hps, List.cons_append], ?_, ?_⟩
      · rw [framesLen_cons]
        omega
      · rw [framesLen_cons]
        rcases hcut with heq | ⟨q, cs, hbs, hlt⟩
        · exact Or.inl (by omega)
        · exact Or.inr ⟨q, cs, hbs, by omega⟩
    · refine ⟨[], p :: ps, rfl, Nat.zero_le n, Or.inr ⟨p, ps, rfl, ?_⟩⟩
      rw [framesLen_nil]
      omega

theorem endLsn_le_of_mem (lsn : ℕ) (ps : List Bytes) (r : JournalRecord)
    (hr : r ∈ recordsAt lsn ps) : r.endLsn ≤ lsn + framesLen ps := by
  induction ps generalizing lsn with
  | nil => cases hr
  | cons p ps ih =>
    rw [framesLen_cons]
    rcases List.mem_cons.mp hr with rfl | hmem
    · simp only [JournalRecord.endLsn]
      omega
    · have := ih (lsn + (p.length + frameOverhead)) hmem
      omega

theorem le_endLsn_of_mem (lsn : ℕ) (p : Bytes) (ps : List Bytes) (r : JournalRecord)
    (hr : r ∈ recordsAt lsn (p :: ps)) : lsn + (p.length + frameOverhead) ≤ r.endLsn := by
  induction ps generalizing lsn p with
  | nil =>
    rcases List.mem_cons.mp hr with rfl | hmem
    · simp only [JournalRecord.endLsn]
      omega
    · cases hmem
  | cons q ps ih =>
    rcases List.mem_cons.mp hr with rfl | hmem
    · simp only [JournalRecord.endLsn]
      omega
    · have := ih (lsn + (p.length + frameOverhead)) q hmem
      omega

/-- The complete frames are those of the part in front of the cut. -/
theorem filter_recordsAt (as bs : List Bytes) (n : ℕ) (hle : framesLen as ≤ n)
    (hcut : bs = [] ∨ ∃ p cs, bs = p :: cs ∧ n < framesLen as + (p.length + frameOverhead)) :
    (recordsAt 0 (as ++ bs)).filter (fun r => r.endLsn ≤ n) = recordsAt 0 as := by
  have hfront : (recordsAt 0 as).filter (fun r => r.endLsn ≤ n) = recordsAt 0 as := by
    refine List.filter_eq_self.mpr ?_
    intro r hr
    have := endLsn_le_of_mem 0 as r hr
    exact decide_eq_true (by omega)
  have hback : (recordsAt (0 + framesLen as) bs).filter (fun r => r.endLsn ≤ n) = [] := by
    rcases hcut with rfl | ⟨p, cs, rfl, hlt⟩
    · rfl
    · refine List.filter_eq_nil_iff.mpr ?_
      intro r hr
      have := le_endLsn_of_mem _ p cs r hr
      rw [decide_eq_true_eq]
      omega
  rw [recordsAt_append, List.filter_append, hfront, hback, List.append_nil]

/-- `n` is the end of one of the frames, or the start of the first. -/
def IsBoundary (ps : List Bytes) (n : ℕ) : Prop := ∃ k, n = framesLen (ps.take k)

theorem framesLen_take_le (ps : List Bytes) (k : ℕ) : framesLen (ps.take k) ≤ framesLen ps := by
  conv_rhs => rw [← List.take_append_drop k ps, framesLen_append]
  omega

theorem isBoundary_iff (as : List Bytes) (p : Bytes) (cs : List Bytes) (n : ℕ)
    (hle : framesLen as ≤ n) (hlt : n < framesLen as + (p.length + frameOverhead)) :
    IsBoundary (as ++ p :: cs) n ↔ n = framesLen as := by
  constructor
  · rintro ⟨k, hk⟩
    rw [List.take_append, framesLen_append] at hk
    have hfront := framesLen_take_le as k
    by_cases hlen : k ≤ as.length
    · have h0 : k - as.length = 0 := by omega
      rw [h0, List.take_zero, framesLen_nil] at hk
      omega
    · obtain ⟨j, hj⟩ : ∃ j, k - as.length = j + 1 := ⟨k - as.length - 1, by omega⟩
      rw [hj, List.take_succ_cons, framesLen_cons, List.take_of_length_le (by omega)] at hk
      omega
  · intro h
    exact ⟨as.length, by rw [List.take_left, h]⟩

theorem take_framesBytes (as bs : List Bytes) (n : ℕ) (hle : framesLen as ≤ n) :
    (framesBytes crc (as ++ bs)).take n =
      framesBytes crc as ++ (framesBytes crc bs).take (n - framesLen as) := by
  rw [framesBytes_append, List.take_append, length_framesBytes, List.take_of_length_le]
  rw [length_framesBytes]
  exact hle

/-! ### The scan of a cut journal -/

/-- Why a scan of the first `n` bytes stops, `left` of them behind the last whole frame. -/
def tornState (left : ℕ) : JournalTailState :=
  if left = 0 then .cleanEnd else if left < 8 then .truncatedHeader else .truncatedPayload

theorem plainScan_cut (as bs : List Bytes) (n : ℕ) (hfit : ∀ p ∈ as ++ bs, Fits p)
    (hle : framesLen as ≤ n)
    (hcut : n = framesLen as ∨
      ∃ p cs, bs = p :: cs ∧ n < framesLen as + (p.length + frameOverhead)) :
    plainScan crc ((framesBytes crc (as ++ bs)).take n) 0 =
      ⟨recordsAt 0 as, tornState (n - framesLen as), framesLen as⟩ := by
  have hfa : ∀ p ∈ as, Fits p := fun p hp => hfit p (List.mem_append_left bs hp)
  have hpath := path_frames crc 0 as ((framesBytes crc bs).take (n - framesLen as)) hfa
  rw [← take_framesBytes crc as bs n hle, Nat.zero_add] at hpath
  refine scan_of_path (journalHead_progress crc) hpath ?_
  by_cases h0 : n - framesLen as = 0
  · rw [h0]
    rfl
  · obtain heq | ⟨p, cs, rfl, hlt⟩ := hcut
    · omega
    · have hp : Fits p := hfit p (List.mem_append_right as List.mem_cons_self)
      have htake : (framesBytes crc (p :: cs)).take (n - framesLen as) =
          (frameBytes crc p).take (n - framesLen as) := by
        rw [framesBytes_cons, List.take_append_of_le_length]
        rw [length_frameBytes]
        omega
      rw [htake, journalHead_torn crc _ p hp _ (by omega) (by omega), tornState, if_neg h0]

/-- The journal of `as` followed by zero bytes. -/
theorem plainScan_zero_extended (as : List Bytes) (z : ℕ) (hfit : ∀ p ∈ as, Fits p) :
    plainScan crc (framesBytes crc as ++ zeros z) 0 =
      ⟨recordsAt 0 as, .cleanEnd, framesLen as⟩ := by
  have hpath := path_frames crc 0 as (zeros z) hfit
  rw [Nat.zero_add] at hpath
  exact scan_of_path (journalHead_progress crc) hpath (journalHead_zeros crc _ z)

theorem lsn_recordsAt (lsn : ℕ) (ps : List Bytes) (k : ℕ) (r : JournalRecord)
    (h : (recordsAt lsn ps)[k]? = some r) :
    r.lsn = lsn + framesLen (ps.take k) ∧ ps[k]? = some r.payload := by
  induction ps generalizing lsn k with
  | nil => cases h
  | cons p ps ih =>
    cases k with
    | zero =>
      cases h
      exact ⟨rfl, rfl⟩
    | succ k =>
      obtain ⟨hl, hp⟩ := ih (lsn + (p.length + frameOverhead)) k h
      refine ⟨?_, hp⟩
      rw [hl, List.take_succ_cons, framesLen_cons]
      omega

/-- A replay of the first `n` bytes yields the frames that end at or before `n`, at the
prefix sums of the frame lengths, and tells how the frame behind them is cut off. Zero
bytes behind a boundary leave everything as it is. -/
theorem torn_tail_replay (ps : List Bytes) (n : ℕ) (extra : ℕ → ℕ)
    (hfit : ∀ p ∈ ps, Fits p) (hn : n ≤ framesLen ps) :
    (∀ k r, (recordsAt 0 ps)[k]? = some r →
      r.lsn = framesLen (ps.take k) ∧ ps[k]? = some r.payload) ∧
    (∃ reader,
      replay crc (shortReads extra) (JournalReader.open ((framesBytes crc ps).take n)) =
        some (.ok ((recordsAt 0 ps).filter fun r => r.endLsn ≤ n), reader) ∧
      reader.position = endOf 0 ((recordsAt 0 ps).filter fun r => r.endLsn ≤ n) ∧
      (IsBoundary ps n → reader.tailState = .cleanEnd) ∧
      (¬ IsBoundary ps n → n - reader.position < 8 → reader.tailState = .truncatedHeader) ∧
      (¬ IsBoundary ps n → ¬ n - reader.position < 8 → reader.tailState = .truncatedPayload)) ∧
    ∀ z, IsBoundary ps n → ∃ reader,
      replay crc (shortReads extra)
          (JournalReader.open ((framesBytes crc ps).take n ++ zeros z)) =
        some (.ok ((recordsAt 0 ps).filter fun r => r.endLsn ≤ n), reader) ∧
      reader.position = endOf 0 ((recordsAt 0 ps).filter fun r => r.endLsn ≤ n) ∧
      reader.tailState = .cleanEnd := by
  obtain ⟨as, bs, rfl, hle, hcut⟩ := exists_cut ps n hn
  have hrecords : (recordsAt 0 (as ++ bs)).filter (fun r => r.endLsn ≤ n) = recordsAt 0 as := by
    refine filter_recordsAt as bs n hle ?_
    rcases hcut with heq | hin
    · cases bs with
      | nil => exact Or.inl rfl
      | cons p cs =>
        refine Or.inr ⟨p, cs, rfl, ?_⟩
        unfold frameOverhead
        omega
    · exact Or.inr hin
  have hboundary : IsBoundary (as ++ bs) n ↔ n = framesLen as := by
    rcases hcut with heq | ⟨p, cs, rfl, hlt⟩
    · exact ⟨fun _ => heq, fun h => ⟨as.length, by rw [List.take_left, h]⟩⟩
    · exact isBoundary_iff as p cs n hle hlt
  have hend : endOf 0 (recordsAt 0 as) = framesLen as := by rw [endOf_recordsAt, Nat.zero_add]
  refine ⟨fun k r hr => ?_, ?_, ?_⟩
  · obtain ⟨hl, hp⟩ := lsn_recordsAt 0 (as ++ bs) k r hr
    exact ⟨by rw [hl, Nat.zero_add], hp⟩
  · obtain ⟨reader, hreplay, hstate, hpos⟩ :=
      replay_eq_plainScan crc ((framesBytes crc (as ++ bs)).take n) 0 extra
    rw [plainScan_cut crc as bs n hfit hle hcut] at hreplay hstate hpos
    dsimp only at hreplay hstate hpos
    refine ⟨reader, ?_, ?_, ?_, ?_, ?_⟩
    · rw [← JournalReader.seekTo_zero, hrecords, hreplay]
    · rw [hrecords, hend, hpos]
    · intro hb
      rw [hstate, hboundary.mp hb, Nat.sub_self]
      rfl
    · intro hb h8
      rw [hboundary] at hb
      rw [hpos] at h8
      rw [hstate, tornState, if_neg (by omega), if_pos h8]
    · intro hb h8
      rw [hboundary] at hb
      rw [hpos] at h8
      rw [hstate, tornState, if_neg (by omega), if_neg h8]
  · intro z hb
    have hna : n = framesLen as := hboundary.mp hb
    have hcontents : (framesBytes crc (as ++ bs)).take n = framesBytes crc as := by
      rw [take_framesBytes crc as bs n hle, hna, Nat.sub_self, List.take_zero, List.append_nil]
    have hfa : ∀ p ∈ as, Fits p := fun p hp => hfit p (List.mem_append_left bs hp)
    obtain ⟨reader, hreplay, hstate, hpos⟩ :=
      replay_eq_plainScan crc (framesBytes crc as ++ zeros z) 0 extra
    rw [plainScan_zero_extended crc as z hfa] at hreplay hstate hpos
    rw [JournalReader.seekTo_zero] at hreplay
    exact ⟨reader, by rw [hcontents, hrecords, hreplay], by rw [hrecords, hend, hpos], hstate⟩

/-- The law at a journal of two records cut six bytes into the second. -/
theorem torn_tail_replay_two_records :
    (∀ p ∈ [[1, 2], [3]], Fits p) ∧ 20 ≤ framesLen [[1, 2], [3]] ∧
    ∃ reader, replay castagnoli (shortReads fun _ => 0)
        (JournalReader.open ((framesBytes castagnoli [[1, 2], [3]]).take 20)) =
      some (.ok [⟨0, [1, 2]⟩], reader) ∧
      reader.position = 14 ∧ reader.tailState = .truncatedHeader := by
  have hfit : ∀ p ∈ [[1, 2], [3]], Fits p := by decide
  have hlen : 20 ≤ framesLen [[1, 2], [3]] := by decide
  obtain ⟨-, ⟨reader, hreplay, hpos, -, hshort, -⟩, -⟩ :=
    torn_tail_replay castagnoli [[1, 2], [3]] 20 (fun _ => 0) hfit hlen
  have hpos' : reader.position = 14 := hpos
  have hb : ¬ IsBoundary [[1, 2], [3]] 20 :=
    (isBoundary_iff [[1, 2]] [3] [] 20 (by decide) (by decide)).not.mpr (by decide)
  exact ⟨hfit, hlen, reader, hreplay, hpos', hshort hb (by rw [hpos']; decide)⟩

end Fsys.Journal
