import Fsys.Journal.TornTail
import Mathlib.Data.List.TakeWhile

/-!
# Holes left by a crash (src/journal/reader.rs:42-65, src/journal/mod.rs:1017-1029)

Appends of a buffered journal reserve tiled ranges and fill them in any order.
After a crash a range was written in full or reads as zeros, and the file may
end behind the last written range. A replay should stop at the first range that
was not written. It does, unless the hole has the shape of a gap of an old
Direct-IO writer: then the reader skips it.
-/

namespace Fsys.Journal
open Fsys.Base Fsys.Base.Scan

/-- One reservation: the records of an `append` or an `append_batch`, and whether its
write had completed before the crash. A batch without records reserves nothing. -/
structure Reservation where
  payloads : List Bytes
  written : Bool
  nonempty : payloads ≠ []
  fits : ∀ p ∈ payloads, Fits p

namespace Reservation

def len (r : Reservation) : ℕ := framesLen r.payloads

/-- What the file holds in the range of a reservation. -/
def bytes (crc : Crc) (r : Reservation) : Bytes :=
  if r.written then framesBytes crc r.payloads else zeros r.len

theorem len_pos (r : Reservation) : 0 < r.len := by
  cases h : r.payloads with
  | nil => exact absurd h r.nonempty
  | cons p ps =>
    unfold len
    rw [h, framesLen_cons]
    unfold frameOverhead
    omega

@[simp] theorem length_bytes (crc : Crc) (r : Reservation) : (r.bytes crc).length = r.len := by
  unfold bytes
  split
  · exact length_framesBytes crc r.payloads
  · exact length_zeros r.len

end Reservation

/-- Total length of tiled reservations. -/
def reservedLen (rs : List Reservation) : ℕ := (rs.map Reservation.len).sum

/-- The whole reserved range as it would read if the file reached its end. -/
def image (crc : Crc) (rs : List Reservation) : Bytes := rs.flatMap (Reservation.bytes crc)

/-- The file reaches the end of every reservation that was written. -/
def Covers (rs : List Reservation) (fileLen : ℕ) : Prop :=
  ∀ as w cs, rs = as ++ w :: cs → w.written = true → reservedLen (as ++ [w]) ≤ fileLen

/-- The file after the crash, `fileLen` bytes long at most. -/
def crashFile (crc : Crc) (rs : List Reservation) (fileLen : ℕ) : Bytes :=
  (image crc rs).take fileLen

def payloadsOf (rs : List Reservation) : List Bytes := rs.flatMap Reservation.payloads

/-- The reservations in front of the first hole. -/
def beforeHole (rs : List Reservation) : List Reservation := rs.takeWhile (·.written)

/-- The first hole: the unwritten reservations from there on. -/
def hole (rs : List Reservation) : List Reservation :=
  (rs.dropWhile (·.written)).takeWhile (!·.written)

/-- What follows the first hole, from a written reservation on. -/
def afterHole (rs : List Reservation) : List Reservation :=
  (rs.dropWhile (·.written)).dropWhile (!·.written)

/-- The first hole ends where a gap of an old Direct-IO writer could end. -/
def HoleLooksLikeGap (rs : List Reservation) : Prop :=
  afterHole rs ≠ [] ∧
    IsGap (reservedLen (beforeHole rs)) (reservedLen (beforeHole rs) + reservedLen (hole rs))

/-- The prefix law: a replay yields the records in front of the first hole, at their LSNs,
and stops there. -/
def StopsAtHole (crc : Crc) (rs : List Reservation) (fileLen : ℕ) (extra : ℕ → ℕ) : Prop :=
  ∃ reader, replay crc (shortReads extra) (JournalReader.open (crashFile crc rs fileLen)) =
      some (.ok (recordsAt 0 (payloadsOf (beforeHole rs))), reader) ∧
    reader.position = reservedLen (beforeHole rs)

variable (crc : Crc)

/-! ### The three parts of the file -/

theorem reservedLen_append (rs ts : List Reservation) :
    reservedLen (rs ++ ts) = reservedLen rs + reservedLen ts := by
  simp only [reservedLen, List.map_append, List.sum_append]

theorem reservedLen_eq (rs : List Reservation) : reservedLen rs = framesLen (payloadsOf rs) := by
  induction rs with
  | nil => rfl
  | cons r rs ih =>
    have hcons : payloadsOf (r :: rs) = r.payloads ++ payloadsOf rs := rfl
    rw [hcons, framesLen_append, ← ih]
    rfl

theorem image_append (rs ts : List Reservation) :
    image crc (rs ++ ts) = image crc rs ++ image crc ts := List.flatMap_append

theorem image_written (rs : List Reservation) (h : ∀ r ∈ rs, r.written = true) :
    image crc rs = framesBytes crc (payloadsOf rs) := by
  induction rs with
  | nil => rfl
  | cons r rs ih =>
    have hr : r.bytes crc = framesBytes crc r.payloads := by
      rw [Reservation.bytes, h r List.mem_cons_self, if_pos rfl]
    have hcons : image crc (r :: rs) = r.bytes crc ++ image crc rs := rfl
    have hpay : payloadsOf (r :: rs) = r.payloads ++ payloadsOf rs := rfl
    rw [hcons, hpay, framesBytes_append, hr, ih fun t ht => h t (List.mem_cons_of_mem r ht)]

theorem image_unwritten (rs : List Reservation) (h : ∀ r ∈ rs, r.written = false) :
    image crc rs = zeros (reservedLen rs) := by
  induction rs with
  | nil => rfl
  | cons r rs ih =>
    have hr : r.bytes crc = zeros r.len := by
      rw [Reservation.bytes, h r List.mem_cons_self, if_neg Bool.false_ne_true]
    have hcons : image crc (r :: rs) = r.bytes crc ++ image crc rs := rfl
    have hlen : reservedLen (r :: rs) = r.len + reservedLen rs := rfl
    rw [hcons, hlen, hr, ih fun t ht => h t (List.mem_cons_of_mem r ht), zeros_append]

theorem fits_payloadsOf (rs : List Reservation) : ∀ p ∈ payloadsOf rs, Fits p := by
  intro p hp
  obtain ⟨r, -, hr⟩ := List.mem_flatMap.mp hp
  exact r.fits p hr

theorem written_beforeHole (rs : List Reservation) : ∀ r ∈ beforeHole rs, r.written = true :=
  fun _ hr => List.mem_takeWhile_imp hr

theorem written_hole (rs : List Reservation) : ∀ r ∈ hole rs, r.written = false := by
  intro r hr
  have h := List.mem_takeWhile_imp hr
  simpa using h

theorem split_hole (rs : List Reservation) :
    rs = beforeHole rs ++ (hole rs ++ afterHole rs) := by
  unfold beforeHole hole afterHole
  rw [List.takeWhile_append_dropWhile, List.takeWhile_append_dropWhile]

/-- What follows the hole starts with a written reservation, and the hole is not empty. -/
theorem afterHole_cons (rs : List Reservation) (w : Reservation) (cs : List Reservation)
    (h : afterHole rs = w :: cs) : w.written = true ∧ 0 < reservedLen (hole rs) := by
  have hw : w.written = true := by
    have h1 := List.head?_dropWhile_not (fun r : Reservation => !r.written)
      (rs.dropWhile (·.written))
    unfold afterHole at h
    rw [h] at h1
    simpa using h1
  refine ⟨hw, ?_⟩
  cases hd : rs.dropWhile (·.written) with
  | nil =>
    unfold afterHole at h
    rw [hd] at h
    cases h
  | cons u us =>
    have hu : u.written = false := by
      have h1 := List.head?_dropWhile_not (fun r : Reservation => r.written) rs
      rw [hd] at h1
      simpa using h1
    have hh : hole rs = u :: us.takeWhile (!·.written) := by
      rw [hole, hd, List.takeWhile_cons, hu]
      rfl
    have hpos := u.len_pos
    rw [hh]
    show 0 < u.len + _
    omega

/-! ### The scan of the three parts -/

/-- The file when nothing behind the hole was written. -/
theorem crashFile_open_end (rs : List Reservation) (fileLen : ℕ) (hc : Covers rs fileLen)
    (h : afterHole rs = []) :
    ∃ z, crashFile crc rs fileLen = framesBytes crc (payloadsOf (beforeHole rs)) ++ zeros z := by
  have hsplit := split_hole rs
  rw [h, List.append_nil] at hsplit
  have hbefore := image_written crc (beforeHole rs) (written_beforeHole rs)
  have hhole := image_unwritten crc (hole rs) (written_hole rs)
  have hreach : reservedLen (beforeHole rs) ≤ fileLen := by
    rcases List.eq_nil_or_concat (beforeHole rs) with hnil | ⟨as, w, hw⟩
    · rw [hnil]
      exact Nat.zero_le _
    · rw [List.concat_eq_append] at hw
      rw [hw]
      refine hc as w (hole rs) ?_ (written_beforeHole rs w (by rw [hw]; simp))
      conv_lhs => rw [hsplit, hw]
      simp
  refine ⟨min (fileLen - reservedLen (beforeHole rs)) (reservedLen (hole rs)), ?_⟩
  unfold crashFile
  conv_lhs => rw [hsplit]
  rw [image_append, hbefore, hhole, List.take_append, length_framesBytes, ← reservedLen_eq,
    List.take_of_length_le, take_zeros]
  rw [length_framesBytes, ← reservedLen_eq]
  exact hreach

/-- The file when a reservation behind the hole was written: its first frame is there. -/
theorem crashFile_beyond (rs : List Reservation) (fileLen : ℕ) (hc : Covers rs fileLen)
    (h : afterHole rs ≠ []) :
    ∃ p more, Fits p ∧ 0 < reservedLen (hole rs) ∧
      crashFile crc rs fileLen = framesBytes crc (payloadsOf (beforeHole rs)) ++
        (zeros (reservedLen (hole rs)) ++ (frameBytes crc p ++ more)) := by
  obtain ⟨w, cs, hwcs⟩ : ∃ w cs, afterHole rs = w :: cs := List.exists_cons_of_ne_nil h
  obtain ⟨hw, hpos⟩ := afterHole_cons rs w cs hwcs
  obtain ⟨p, ps, hps⟩ : ∃ p ps, w.payloads = p :: ps := List.exists_cons_of_ne_nil w.nonempty
  have hsplit := split_hole rs
  rw [hwcs] at hsplit
  have hreach := hc (beforeHole rs ++ hole rs) w cs (by rw [List.append_assoc]; exact hsplit) hw
  rw [reservedLen_append, reservedLen_append] at hreach
  have hbefore := image_written crc (beforeHole rs) (written_beforeHole rs)
  have hhole := image_unwritten crc (hole rs) (written_hole rs)
  have hwlen : reservedLen [w] = w.len := Nat.add_zero _
  have hwbytes : image crc (w :: cs) = framesBytes crc w.payloads ++ image crc cs := by
    show w.bytes crc ++ image crc cs = _
    rw [Reservation.bytes, hw, if_pos rfl]
  refine ⟨p, framesBytes crc ps ++ (image crc cs).take
    (fileLen - reservedLen (beforeHole rs) - reservedLen (hole rs) - w.len),
    w.fits p (by rw [hps]; exact List.mem_cons_self), hpos, ?_⟩
  unfold crashFile
  conv_lhs => rw [hsplit]
  rw [image_append, image_append, hbefore, hhole, hwbytes]
  -- the cut is behind the frames of the written reservation
  rw [List.take_append, List.take_append, List.take_append, length_framesBytes,
    length_framesBytes, length_zeros, ← reservedLen_eq, List.take_of_length_le,
    List.take_of_length_le, List.take_of_length_le, hps, framesBytes_cons]
  · rw [List.append_assoc]
    congr 5
    unfold Reservation.len
    rw [hps]
  · rw [length_framesBytes]
    unfold Reservation.len at hwlen
    omega
  · rw [length_zeros]
    omega
  · rw [length_framesBytes, ← reservedLen_eq]
    omega

theorem plainScan_open_end (rs : List Reservation) (fileLen : ℕ) (hc : Covers rs fileLen)
    (h : afterHole rs = []) :
    plainScan crc (crashFile crc rs fileLen) 0 =
      ⟨recordsAt 0 (payloadsOf (beforeHole rs)), .cleanEnd, reservedLen (beforeHole rs)⟩ := by
  obtain ⟨z, hz⟩ := crashFile_open_end crc rs fileLen hc h
  rw [hz, plainScan_zero_extended crc _ z (fits_payloadsOf _), reservedLen_eq]

/-- Behind the frames in front of the hole the reader finds the hole's zeros. -/
theorem head_at_hole (rs : List Reservation) (p more : Bytes)
    (hpos : 0 < reservedLen (hole rs)) :
    journalHead crc (reservedLen (beforeHole rs))
        (zeros (reservedLen (hole rs)) ++ (frameBytes crc p ++ more)) =
      if IsGap (reservedLen (beforeHole rs))
          (reservedLen (beforeHole rs) + reservedLen (hole rs))
      then .skip (reservedLen (hole rs)) else .stop .truncatedHeader := by
  obtain ⟨tail, ht⟩ := frameBytes_head crc p
  rw [ht, List.cons_append]
  exact journalHead_run crc _ _ _ _ hpos (by decide)

theorem plainScan_hole (rs : List Reservation) (fileLen : ℕ) (hc : Covers rs fileLen)
    (h : afterHole rs ≠ [])
    (hgap : ¬ IsGap (reservedLen (beforeHole rs))
      (reservedLen (beforeHole rs) + reservedLen (hole rs))) :
    plainScan crc (crashFile crc rs fileLen) 0 =
      ⟨recordsAt 0 (payloadsOf (beforeHole rs)), .truncatedHeader,
        reservedLen (beforeHole rs)⟩ := by
  obtain ⟨p, more, -, hpos, hfile⟩ := crashFile_beyond crc rs fileLen hc h
  have hpath := path_frames crc 0 (payloadsOf (beforeHole rs))
    (zeros (reservedLen (hole rs)) ++ (frameBytes crc p ++ more)) (fits_payloadsOf _)
  rw [← hfile, Nat.zero_add, ← reservedLen_eq] at hpath
  refine scan_of_path (journalHead_progress crc) hpath ?_
  rw [head_at_hole crc rs p more hpos, if_neg hgap]

/-- A hole that looks like a gap is skipped, and the record behind it is replayed. -/
theorem plainScan_gap (rs : List Reservation) (fileLen : ℕ) (hc : Covers rs fileLen)
    (h : HoleLooksLikeGap rs) :
    ∃ r ts, (plainScan crc (crashFile crc rs fileLen) 0).records =
      recordsAt 0 (payloadsOf (beforeHole rs)) ++ r :: ts := by
  obtain ⟨hafter, hgap⟩ := h
  obtain ⟨p, more, hfit, hpos, hfile⟩ := crashFile_beyond crc rs fileLen hc hafter
  have hpath := path_frames crc 0 (payloadsOf (beforeHole rs))
    (zeros (reservedLen (hole rs)) ++ (frameBytes crc p ++ more)) (fits_payloadsOf _)
  rw [← hfile, Nat.zero_add, ← reservedLen_eq] at hpath
  have hskip := head_at_hole crc rs p more hpos
  rw [if_pos hgap] at hskip
  have hdrop : (zeros (reservedLen (hole rs)) ++ (frameBytes crc p ++ more)).drop
      (reservedLen (hole rs)) = frameBytes crc p ++ more := List.drop_left' (length_zeros _)
  have hitem := journalHead_frame crc (reservedLen (beforeHole rs) + reservedLen (hole rs)) p
    more hfit
  have hscan : plainScan crc (crashFile crc rs fileLen) 0 = _ :=
    scan_append_path (journalHead_progress crc) hpath
  rw [scan_skip (journalHead_progress crc) hskip, hdrop,
    scan_item (journalHead_progress crc) hitem] at hscan
  rw [hscan]
  exact ⟨_, _, rfl⟩

/-- What a replay of a crashed journal yields is exactly the prefix law's, if and only if
the first hole does not look like a gap. -/
theorem stops_at_hole_iff (rs : List Reservation) (fileLen : ℕ) (extra : ℕ → ℕ)
    (hc : Covers rs fileLen) :
    StopsAtHole crc rs fileLen extra ↔ ¬ HoleLooksLikeGap rs := by
  obtain ⟨reader, hreplay, -, hpos⟩ :=
    replay_eq_plainScan crc (crashFile crc rs fileLen) 0 extra
  rw [JournalReader.seekTo_zero] at hreplay
  constructor
  · rintro ⟨reader', hreplay', -⟩ hlooks
    obtain ⟨r, ts, hrecords⟩ := plainScan_gap crc rs fileLen hc hlooks
    rw [hreplay, hrecords] at hreplay'
    have hlen := congrArg List.length
      (Except.ok.inj (Prod.mk.inj (Option.some.inj hreplay')).1)
    rw [List.length_append, List.length_cons] at hlen
    omega
  · intro hlooks
    have hscan : (plainScan crc (crashFile crc rs fileLen) 0).records =
          recordsAt 0 (payloadsOf (beforeHole rs)) ∧
        (plainScan crc (crashFile crc rs fileLen) 0).position = reservedLen (beforeHole rs) := by
      by_cases h : afterHole rs = []
      · rw [plainScan_open_end crc rs fileLen hc h]
        exact ⟨rfl, rfl⟩
      · rw [plainScan_hole crc rs fileLen hc h fun hgap => hlooks ⟨h, hgap⟩]
        exact ⟨rfl, rfl⟩
    exact ⟨reader, by rw [hreplay, hscan.1], by rw [hpos, hscan.2]⟩

/-- The reservation of one `append`. -/
def Reservation.single (payload : Bytes) (written : Bool) (h : Fits payload) : Reservation :=
  ⟨[payload], written, List.cons_ne_nil payload [], by
    intro p hp
    rw [List.mem_singleton.mp hp]
    exact h⟩

theorem Reservation.len_single (payload : Bytes) (written : Bool) (h : Fits payload) :
    (Reservation.single payload written h).len = payload.length + frameOverhead := rfl

theorem fits_500 : Fits (zeros 500) := by
  unfold Fits
  rw [length_zeros]
  decide

/-- A lost record of 500 bytes, and one byte appended behind it that was written. -/
def lostAtSector : List Reservation :=
  [.single (zeros 500) false fits_500, .single [7] true (by decide)]

theorem reservedLen_lostAtSector : reservedLen lostAtSector = 525 := by
  simp only [lostAtSector, reservedLen, List.map_cons, List.map_nil, List.sum_cons, List.sum_nil,
    Reservation.len_single, length_zeros, List.length_cons, List.length_nil]
  decide

theorem covers_lostAtSector : Covers lostAtSector 525 := by
  intro as w cs h hw
  have hle : reservedLen (as ++ [w]) + reservedLen cs = reservedLen lostAtSector := by
    rw [h, ← reservedLen_append, List.append_assoc]
    rfl
  have hall := reservedLen_lostAtSector
  omega

theorem lostAtSector_looksLikeGap : HoleLooksLikeGap lostAtSector := by
  have hbefore : beforeHole lostAtSector = [] := rfl
  have hhole : hole lostAtSector = [.single (zeros 500) false fits_500] := rfl
  refine ⟨List.cons_ne_nil _ [], ?_⟩
  rw [hbefore, hhole]
  simp only [reservedLen, List.map_cons, List.map_nil, List.sum_cons, List.sum_nil,
    Reservation.len_single, length_zeros]
  decide

/-- The lost record is skipped and the later one is replayed. -/
theorem lost_at_sector_is_skipped :
    Covers lostAtSector 525 ∧ ¬ StopsAtHole castagnoli lostAtSector 525 (fun _ => 0) := by
  refine ⟨covers_lostAtSector, ?_⟩
  rintro ⟨reader, hreplay, -⟩
  obtain ⟨reader', hreplay', -, -⟩ :=
    replay_eq_plainScan castagnoli (crashFile castagnoli lostAtSector 525) 0 (fun _ => 0)
  obtain ⟨r, ts, hrecords⟩ := plainScan_gap castagnoli lostAtSector 525 covers_lostAtSector
    lostAtSector_looksLikeGap
  rw [JournalReader.seekTo_zero, hreplay, hrecords] at hreplay'
  have hnil := congrArg List.length (Except.ok.inj (Prod.mk.inj (Option.some.inj hreplay')).1)
  rw [List.length_append, List.length_cons] at hnil
  omega

/-- A lost record of two bytes in front of a written one: the hole ends off a boundary. -/
theorem stops_at_hole_iff_two_bytes :
    Covers [.single [1, 2] false (by decide), .single [7] true (by decide)] 27 ∧
    StopsAtHole castagnoli [.single [1, 2] false (by decide), .single [7] true (by decide)] 27
      (fun _ => 0) := by
  have hc : Covers [.single [1, 2] false (by decide), .single [7] true (by decide)] 27 := by
    intro as w cs h hw
    have hle : reservedLen (as ++ [w]) + reservedLen cs = 27 := by
      rw [← reservedLen_append, List.append_assoc]
      show reservedLen (as ++ w :: cs) = 27
      rw [← h]
      rfl
    omega
  refine ⟨hc, (stops_at_hole_iff castagnoli _ 27 _ hc).mpr ?_⟩
  rintro ⟨-, hmod, -⟩
  revert hmod
  decide

end Fsys.Journal
