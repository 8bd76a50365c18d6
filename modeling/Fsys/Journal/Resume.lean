import Fsys.Journal.TailSafety

/-!
# The clean end and what lies behind it

A scan stops at the end of its last frame or, when it has just skipped a gap and
finds no frame there, at the end of the gap. Cut at its clean end a journal
yields the same records; frames written there are read behind them.
-/

namespace Fsys.Journal
open Fsys.Base Fsys.Base.Scan

variable (crc : Crc)

/-- The records the scan of a file yields. -/
def recordsOf (file : Bytes) : List JournalRecord := (plainScan crc file 0).records

/-- The walk of a scan over the whole file. -/
theorem path_scan (file : Bytes) :
    JournalPath crc 0 file (recordsOf crc file) (cleanEndOf crc file)
      (file.drop (cleanEndOf crc file)) ∧
    journalHead crc (cleanEndOf crc file) (file.drop (cleanEndOf crc file)) =
      .stop (plainScan crc file 0).state := by
  obtain ⟨rest, hpath, hstop⟩ := path_of_scan (journalHead_progress crc) .cleanEnd 0 file
  have hrest := hpath.rest_eq.2
  rw [Nat.sub_zero] at hrest
  rw [hrest] at hpath hstop
  exact ⟨hpath, hstop⟩

theorem cleanEndOf_le (file : Bytes) : cleanEndOf crc file ≤ file.length := by
  have h := (path_scan crc file).1.le_length (journalHead_progress crc)
  omega

theorem length_take_cleanEnd (file : Bytes) :
    (file.take (cleanEndOf crc file)).length = cleanEndOf crc file :=
  List.length_take_of_le (cleanEndOf_le crc file)

/-- A path ends at its last record, or skips a gap behind it. -/
theorem path_last_gap {pos pos' : ℕ} {rest rest' : Bytes} {rs : List JournalRecord}
    (h : JournalPath crc pos rest rs pos' rest') :
    pos' = endOf pos rs ∨ ∃ n rest'', JournalPath crc pos rest rs (endOf pos rs) rest'' ∧
      journalHead crc (endOf pos rs) rest'' = .skip n ∧ pos' = endOf pos rs + n := by
  induction h with
  | refl => exact Or.inl rfl
  | @skip pos rest n rs pos' rest' h tail ih =>
    cases rs with
    | nil =>
      refine Or.inr ⟨n, rest, Scan.Path.refl pos rest, h, ?_⟩
      rcases ih with hend | ⟨m, rest'', hpath, hskip, -⟩
      · exact hend
      · -- no second gap: the byte behind a gap is not zero
        have heq := hpath.rest_eq.2
        rw [show endOf (pos + n) [] = pos + n from rfl, Nat.sub_self, List.drop_zero] at heq
        obtain ⟨-, -, b, bs, -, hdrop, hb⟩ := journalHead_skip crc pos rest n h
        obtain ⟨hm, -, c, cs, hzero, -⟩ := journalHead_skip crc _ rest'' m hskip
        obtain ⟨k, rfl⟩ : ∃ k, m = k + 1 := ⟨m - 1, by omega⟩
        rw [heq, hdrop, zeros_succ, List.cons_append] at hzero
        exact absurd (List.cons.inj hzero).1 hb
    | cons r rs =>
      rcases ih with hend | ⟨m, rest'', hpath, hskip, hpos⟩
      · exact Or.inl hend
      · exact Or.inr ⟨m, rest'', Scan.Path.skip h hpath, hskip, hpos⟩
  | @item pos rest r n rs pos' rest' h tail ih =>
    obtain ⟨hlsn, -, hn, -⟩ := journalHead_item crc pos rest r n h
    have he : endOf pos (r :: rs) = endOf (pos + n) rs := by
      rw [endOf]
      congr 1
      unfold JournalRecord.endLsn
      omega
    rw [he]
    rcases ih with hend | ⟨m, rest'', hpath, hskip, hpos⟩
    · exact Or.inl hend
    · exact Or.inr ⟨m, rest'', Scan.Path.item h hpath, hskip, hpos⟩

/-- The clean end, cut: the records up to there, followed by zeros at most. -/
theorem take_cleanEnd (file : Bytes) :
    ∃ m rest, JournalPath crc 0 file (recordsOf crc file) (endOf 0 (recordsOf crc file)) rest ∧
      file.take (cleanEndOf crc file) =
        file.take (endOf 0 (recordsOf crc file)) ++ zeros m := by
  obtain ⟨hpath, -⟩ := path_scan crc file
  rcases path_last_gap crc hpath with hend | ⟨n, rest, hlast, hskip, hpos⟩
  · refine ⟨0, file.drop (cleanEndOf crc file), ?_, ?_⟩
    · rw [← hend]
      exact hpath
    · rw [← hend, zeros_zero, List.append_nil]
  · refine ⟨n, rest, hlast, ?_⟩
    have hrest := hlast.rest_eq.2
    rw [Nat.sub_zero] at hrest
    obtain ⟨-, -, b, bs, hzero, -⟩ := journalHead_skip crc _ rest n hskip
    rw [hpos, List.take_add, ← hrest, hzero, List.take_left' (length_zeros n)]

/-- Cut at the clean end and extended with zeros a journal yields the same records. -/
theorem plainScan_take_cleanEnd (file : Bytes) (k : ℕ) :
    plainScan crc (file.take (cleanEndOf crc file) ++ zeros k) 0 =
      ⟨recordsOf crc file, .cleanEnd, endOf 0 (recordsOf crc file)⟩ := by
  obtain ⟨m, rest, hpath, htake⟩ := take_cleanEnd crc file
  have hnew := path_replace crc hpath (zeros (m + k)) (Or.inl rfl)
  rw [Nat.sub_zero] at hnew
  rw [htake, List.append_assoc, zeros_append]
  exact scan_of_path (journalHead_progress crc) hnew (journalHead_zeros crc _ _)

theorem cleanEndOf_take (file : Bytes) (k : ℕ) :
    cleanEndOf crc (file.take (cleanEndOf crc file) ++ zeros k) = endOf 0 (recordsOf crc file) :=
  congrArg Outcome.position (plainScan_take_cleanEnd crc file k)

theorem recordsOf_take (file : Bytes) (k : ℕ) :
    recordsOf crc (file.take (cleanEndOf crc file) ++ zeros k) = recordsOf crc file := by
  have h := plainScan_take_cleanEnd crc file k
  show (plainScan crc _ 0).records = _
  rw [h]

/-- Frames at the clean end are read behind the records that were there. -/
theorem plainScan_resumed (file : Bytes) (ps : List Bytes) (k : ℕ) (hfits : ∀ p ∈ ps, Fits p)
    (hne : ps ≠ []) :
    plainScan crc (file.take (cleanEndOf crc file) ++ framesBytes crc ps ++ zeros k) 0 =
      ⟨recordsOf crc file ++ recordsAt (cleanEndOf crc file) ps, .cleanEnd,
        cleanEndOf crc file + framesLen ps⟩ := by
  obtain ⟨hpath, -⟩ := path_scan crc file
  have hfirst : ∃ b bs, framesBytes crc ps ++ zeros k = b :: bs ∧ b ≠ 0 := by
    obtain ⟨p, qs, rfl⟩ := List.exists_cons_of_ne_nil hne
    exact ⟨0x46, _, rfl, by decide⟩
  have hnew := path_replace crc hpath (framesBytes crc ps ++ zeros k) (Or.inr hfirst)
  rw [Nat.sub_zero, ← List.append_assoc] at hnew
  have hframes := path_frames crc (cleanEndOf crc file) ps (zeros k) hfits
  exact scan_of_path (journalHead_progress crc) (hnew.trans hframes) (journalHead_zeros crc _ _)

/-- The two together. -/
theorem plainScan_reopened (file : Bytes) (ps : List Bytes) (k : ℕ) (hfits : ∀ p ∈ ps, Fits p) :
    (plainScan crc (file.take (cleanEndOf crc file) ++ framesBytes crc ps ++ zeros k) 0).records =
      recordsOf crc file ++ recordsAt (cleanEndOf crc file) ps ∧
    (plainScan crc (file.take (cleanEndOf crc file) ++ framesBytes crc ps ++ zeros k) 0).state =
      .cleanEnd := by
  by_cases hne : ps = []
  · subst hne
    have hnil : framesBytes crc [] = [] := rfl
    rw [hnil, List.append_nil, plainScan_take_cleanEnd]
    exact ⟨(List.append_nil _).symm, rfl⟩
  · rw [plainScan_resumed crc file ps k hfits hne]
    exact ⟨rfl, rfl⟩

/-! ### When the clean end is the end of a frame -/

/-- Frames and gaps lead from the start of the file to a gap behind which no frame starts. -/
def GapBeforeJunk (file : Bytes) : Prop :=
  ∃ rs pos n, JournalPath crc 0 file rs pos (file.drop pos) ∧
    journalHead crc pos (file.drop pos) = .skip n ∧
    ∀ r m, journalHead crc (pos + n) (file.drop (pos + n)) ≠ .item r m

theorem cleanEndOf_eq_iff (file : Bytes) :
    cleanEndOf crc file = endOf 0 (recordsOf crc file) ↔ ¬ GapBeforeJunk crc file := by
  obtain ⟨hpath, hstop⟩ := path_scan crc file
  constructor
  · rintro hend ⟨rs, pos, n, hto, hskip, hno⟩
    obtain ⟨hn, -, b, bs, -, hdrop, hb⟩ := journalHead_skip crc pos _ n hskip
    rw [List.drop_drop] at hdrop
    -- behind the gap the scan can only stop
    have hhead : ∃ s, journalHead crc (pos + n) (file.drop (pos + n)) = .stop s := by
      cases hh : journalHead crc (pos + n) (file.drop (pos + n)) with
      | stop s => exact ⟨s, rfl⟩
      | skip m =>
        obtain ⟨hm, -, c, cs, hzero, -⟩ := journalHead_skip crc _ _ m hh
        obtain ⟨k, rfl⟩ : ∃ k, m = k + 1 := ⟨m - 1, by omega⟩
        rw [hdrop, zeros_succ, List.cons_append] at hzero
        exact absurd (List.cons.inj hzero).1 hb
      | item r m => exact absurd hh (hno r m)
    obtain ⟨s, hs⟩ := hhead
    have hthere : JournalPath crc 0 file (rs ++ []) (pos + n) (file.drop (pos + n)) := by
      refine hto.trans (Scan.Path.skip hskip ?_)
      rw [List.drop_drop]
      exact Scan.Path.refl _ _
    rw [List.append_nil] at hthere
    have hscan : plainScan crc file 0 = ⟨rs, s, pos + n⟩ :=
      scan_of_path (journalHead_progress crc) hthere hs
    have hle := path_endOf_le crc hto
    unfold cleanEndOf recordsOf at hend
    rw [hscan] at hend
    dsimp only at hend
    omega
  · intro hno
    rcases path_last_gap crc hpath with hend | ⟨n, rest, hlast, hskip, hpos⟩
    · exact hend
    · have hrest := hlast.rest_eq.2
      rw [Nat.sub_zero] at hrest
      rw [hrest] at hlast hskip
      refine absurd ⟨_, _, n, hlast, hskip, fun r m hitem => ?_⟩ hno
      rw [← hpos, hstop] at hitem
      cases hitem

end Fsys.Journal
