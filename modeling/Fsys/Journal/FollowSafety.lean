import Fsys.Journal.Follow

/-!
# A follower sees each record once

The bytes below the size that a reader has are frames in a row and the first part of one more.
An iterator on them stands in front of a frame: it reads on, returns the record, or finds that
the frame is not all there and stays.
-/

namespace Fsys.Journal
open Fsys.Base

/-- `tail_state` when the frames end at `cursor` and the file at `size`. -/
def followerTail (cursor size : ℕ) : JournalTailState :=
  if size ≤ cursor then .cleanEnd
  else if size - cursor < 8 then .truncatedHeader
  else .truncatedPayload

namespace JournalIter

variable {crc : Crc} (sched : ReadSchedule) {F G : Bytes} {it it' : JournalIter}
  {p : Bytes} {rest more : List Bytes}

/-! ### Reading on -/

/-- The iterator stands where it stood. -/
structure Stays (it it' : JournalIter) : Prop where
  fileSize : it'.reader.fileSize = it.reader.fileSize
  cursor : it'.reader.cursor = it.reader.cursor

theorem fill_stays (it : JournalIter) :
    Stays it (fill sched it).2 ∧ (fill sched it).2.finished = it.finished := by
  unfold fill
  dsimp only
  split
  · exact ⟨⟨rfl, rfl⟩, rfl⟩
  · split
    · exact ⟨⟨rfl, rfl⟩, rfl⟩
    · split
      · exact ⟨⟨rfl, rfl⟩, rfl⟩
      · exact ⟨⟨rfl, rfl⟩, rfl⟩

theorem compact_finished (it : JournalIter) : it.compact.finished = it.finished := by
  unfold compact
  split
  · rfl
  · rfl

theorem grow_finished (it : JournalIter) (len : ℕ) : (it.grow len).finished = it.finished := by
  unfold grow
  dsimp only
  split
  · rfl
  · rfl

theorem refill_stays (it : JournalIter) :
    Stays it (refill sched it).2 ∧ (refill sched it).2.finished = it.finished := by
  have hfill : ∀ c : JournalIter, c.reader = it.reader → c.finished = it.finished →
      Stays it (fill sched c).2 ∧ (fill sched c).2.finished = it.finished := by
    intro c hr hf
    obtain ⟨hstays, hfin⟩ := fill_stays sched c
    exact ⟨⟨hstays.fileSize.trans (by rw [hr]), hstays.cursor.trans (by rw [hr])⟩, hfin.trans hf⟩
  have hr := compact_reader it
  have hf := compact_finished it
  have hsame : Stays it it.compact := ⟨by rw [hr], by rw [hr]⟩
  unfold refill
  dsimp only
  split
  · split
    · exact ⟨hsame, hf⟩
    · split
      · exact ⟨hsame, hf⟩
      · exact hfill _ ((grow_reader _ _).trans hr) ((grow_finished _ _).trans hf)
  · exact hfill _ hr hf

theorem on_self (h : it.reader.file = F) : it.on F = it := by
  subst h
  rfl

/-- A read fails, or brings at least a byte where there is one. -/
theorem refill_cases (hG : G.take F.length = F) (hm : Mirrors F (it.on F))
    (hmore : NeedsMore (it.on F)) :
    ∃ it', Stays it it' ∧ it'.finished = it.finished ∧
      ((∃ e, refill sched (it.on G) = (.error e, it'.on G)) ∨
        ∃ n, refill sched (it.on G) = (.ok n, it'.on G) ∧ Mirrors F (it'.on F) ∧
          it'.buffered = it.buffered + n ∧
          (it.reader.cursor + it.buffered < F.length → 0 < n)) := by
  have hsize : it.reader.fileSize = F.length := hm.size_eq
  have hsame : G.take it.reader.fileSize = F.take it.reader.fileSize := by
    rw [hsize, hG, List.take_length]
  obtain ⟨hstays, hfin⟩ := refill_stays sched (it.on F)
  refine ⟨(refill sched (it.on F)).2, ⟨hstays.fileSize, hstays.cursor⟩, hfin, ?_⟩
  rw [refill_on sched hsame]
  rcases (refill_follows sched (it.on F)).cases with ⟨-, heq⟩ | ⟨-, e, it', he⟩
  · obtain ⟨n, it', hok, hr, hpos, -⟩ := refill_spec (shortsOf sched) hm hmore
    rw [heq, hok]
    refine Or.inr ⟨n, rfl, ?_, hr.buffered_eq, hpos⟩
    rw [on_self hr.mirrors.file_eq]
    exact hr.mirrors
  · rw [he]
    exact Or.inl ⟨e, rfl⟩

/-! ### The frame at the cursor -/

/-- The iterator stands in front of the frames of `rest`. -/
structure Ahead (crc : Crc) (F : Bytes) (rest : List Bytes) (it : JournalIter) : Prop where
  mirrors : Mirrors F (it.on F)
  bytes : F.drop it.reader.cursor <+: framesBytes crc rest
  inFile : it.reader.cursor ≤ F.length
  fits : ∀ p ∈ rest, Fits p

theorem Ahead.view (h : Ahead crc F rest it) :
    it.view = (framesBytes crc rest).take it.buffered := by
  have hview : it.view = (F.drop it.reader.cursor).take it.buffered := h.mirrors.view_eq
  have hin : it.buffered = 0 ∨ it.reader.cursor + it.buffered ≤ F.length := h.mirrors.inFile
  have hlen := List.length_drop (i := it.reader.cursor) (l := F)
  rw [hview, List.prefix_iff_eq_take.mp h.bytes, List.take_take, Nat.min_eq_left (by omega)]

/-- What is buffered is the first part of a frame. -/
theorem Ahead.cons (h : Ahead crc F rest it) (hb : 0 < it.buffered) :
    ∃ p more, rest = p :: more ∧ Fits p := by
  cases rest with
  | nil =>
    have hview := congrArg List.length h.view
    have hlen : it.view.length = it.buffered := h.mirrors.length_view
    rw [hlen] at hview
    simp [framesBytes] at hview
    omega
  | cons p more => exact ⟨p, more, rfl, h.fits p List.mem_cons_self⟩

theorem Ahead.head (h : Ahead crc F rest it) (hb : 0 < it.buffered) :
    it.buf.getD it.validStart 0 ≠ 0 := by
  obtain ⟨p, more, rfl, -⟩ := h.cons hb
  obtain ⟨bs, hcons⟩ := h.mirrors.rest_cons hb
  have hbytes : F.drop it.reader.cursor <+: framesBytes crc (p :: more) := h.bytes
  obtain ⟨tail, htail⟩ := frameBytes_head crc p
  rw [framesBytes_cons, htail, List.cons_append,
    show F.drop it.reader.cursor = it.buf.getD it.validStart 0 :: bs from hcons] at hbytes
  obtain ⟨t, ht⟩ := hbytes
  rw [List.cons_append] at ht
  rw [(List.cons.inj ht).1]
  decide

/-- What a pass does, whatever its reads answer. -/
inductive Turned (F : Bytes) (rest : List Bytes) (it : JournalIter) : Turn → Prop where
  | again (it' : JournalIter) (stays : Stays it it') (mirrors : Mirrors F (it'.on F))
      (live : it'.finished = false) : Turned F rest it (.again it')
  | item (p : Bytes) (more : List Bytes) (hrest : rest = p :: more) (it' : JournalIter)
      (mirrors : Mirrors F (it'.on F)) (fileSize : it'.reader.fileSize = it.reader.fileSize)
      (cursor : it'.reader.cursor = it.reader.cursor + (p.length + frameOverhead))
      (inFile : it'.reader.cursor ≤ F.length) (live : it'.finished = false) :
      Turned F rest it (.ret it' (some (.ok ⟨it.reader.cursor, p⟩)))
  | failed (e : IoError) (it' : JournalIter) (stays : Stays it it')
      (done : it'.finished = true) : Turned F rest it (.ret it' (some (.error e)))
  | ended (it' : JournalIter) (stays : Stays it it') (done : it'.finished = true)
      (state : it'.reader.tailState = followerTail it.reader.cursor F.length)
      (torn : ∀ p more, rest = p :: more →
        F.length < it.reader.cursor + (p.length + frameOverhead)) :
      Turned F rest it (.ret it' none)

theorem Turned.of_stays {t : Turn} (hs : Stays it it') (h : Turned F rest it' t) :
    Turned F rest it t := by
  have hc := hs.cursor
  have hf := hs.fileSize
  cases h with
  | again x stays mirrors live =>
    exact .again x ⟨stays.fileSize.trans hf, stays.cursor.trans hc⟩ mirrors live
  | item p more hrest x mirrors fileSize cursor inFile live =>
    rw [hc] at cursor ⊢
    exact .item p more hrest x mirrors (fileSize.trans hf) cursor inFile live
  | failed e x stays done =>
    exact .failed e x ⟨stays.fileSize.trans hf, stays.cursor.trans hc⟩ done
  | ended x stays done state torn =>
    rw [hc] at state torn
    exact .ended x ⟨stays.fileSize.trans hf, stays.cursor.trans hc⟩ done state torn

theorem decodeTurn_turned (h : Ahead crc F rest it) (hG : G.take F.length = F)
    (hb : 0 < it.buffered) (hlive : it.finished = false) :
    Turned F rest it (decodeTurn crc sched (it.on G)) := by
  obtain ⟨p, more, hrest, hfit⟩ := h.cons hb
  have hview := h.view
  have hin : it.buffered = 0 ∨ it.reader.cursor + it.buffered ≤ F.length := h.mirrors.inFile
  have hsize : it.reader.fileSize = F.length := h.mirrors.size_eq
  have hsame : (it.on G).buffered = it.buffered := rfl
  rw [hrest, framesBytes_cons] at hview
  unfold decodeTurn
  by_cases hlen : p.length + frameOverhead ≤ it.buffered
  · -- the frame is there
    have hwhole : it.view = frameBytes crc p ++
        (framesBytes crc more).take (it.buffered - (p.length + frameOverhead)) := by
      rw [hview, List.take_append, List.take_of_length_le, length_frameBytes]
      rw [length_frameBytes]
      exact hlen
    have hdecode := decodeFrame_frameBytes crc p
      ((framesBytes crc more).take (it.buffered - (p.length + frameOverhead))) hfit
    have hpayload := payload_frameBytes crc p
      ((framesBytes crc more).take (it.buffered - (p.length + frameOverhead)))
    rw [← hwhole] at hdecode hpayload
    rw [show (it.on G).view = it.view from rfl, hdecode]
    dsimp only
    rw [hpayload]
    refine .item p more hrest _ ?_ rfl rfl ?_ hlive
    · exact h.mirrors.advance _ hlen
    · show it.reader.cursor + (p.length + frameOverhead) ≤ F.length
      omega
  · -- a part of it
    have hpart : it.view = (frameBytes crc p).take it.buffered := by
      rw [hview, List.take_append_of_le_length]
      rw [length_frameBytes]
      omega
    have hdecode : decodeFrame crc it.view = .truncated := by
      rw [hpart]
      exact decodeFrame_take crc p hfit it.buffered (Nat.lt_of_not_le hlen)
    rw [show (it.on G).view = it.view from rfl, hdecode]
    dsimp only
    by_cases heof : it.reader.cursor + (it.on G).buffered ≥ it.reader.fileSize
    · rw [if_pos heof]
      refine .ended _ ⟨rfl, rfl⟩ rfl ?_ ?_
      · have hleft : F.length - it.reader.cursor = it.buffered := by omega
        have hlt : ¬ F.length ≤ it.reader.cursor := by omega
        rw [followerTail, if_neg hlt, hleft]
        rfl
      · intro q qs hq
        rw [hrest] at hq
        cases hq
        omega
    · rw [if_neg heof]
      have hmore : NeedsMore (it.on F) := by
        have h1 := eight_lt_readBufSize
        have h2 : readBufSize ≤ it.buf.length := h.mirrors.room
        have h3 : it.view.length = it.buffered := h.mirrors.length_view
        rcases decodeFrame_truncated crc it.view hdecode with hs | ⟨h8, hmax, htotal⟩
        · refine Or.inl ?_
          show it.buffered < it.buf.length
          omega
        · rw [h3] at h8 htotal
          exact Or.inr ⟨h8, hmax, htotal⟩
      obtain ⟨it', hstays, hfin, ⟨e, he⟩ | ⟨n, hok, hm, -, hpos⟩⟩ :=
        refill_cases sched hG h.mirrors hmore
      · rw [he]
        exact .failed e _ ⟨hstays.fileSize, hstays.cursor⟩ rfl
      · obtain ⟨m, rfl⟩ := Nat.exists_eq_succ_of_ne_zero (hpos (by omega)).ne'
        rw [hok]
        exact .again _ ⟨hstays.fileSize, hstays.cursor⟩ hm (hfin.trans hlive)

theorem bufferedTurn_turned (h : Ahead crc F rest it) (hG : G.take F.length = F)
    (hb : 0 < it.buffered) (hlive : it.finished = false) :
    ∃ t, bufferedTurn crc sched (it.on G) = some t ∧ Turned F rest it t := by
  have hz : (it.on G).buf.getD (it.on G).validStart 0 ≠ 0 := h.head hb
  unfold bufferedTurn
  rw [if_neg hz]
  exact ⟨_, rfl, decodeTurn_turned sched h hG hb hlive⟩

theorem turn_turned (h : Ahead crc F rest it) (hG : G.take F.length = F)
    (hlive : it.finished = false) :
    ∃ t, turn crc sched (it.on G) = some t ∧ Turned F rest it t := by
  have hsize : it.reader.fileSize = F.length := h.mirrors.size_eq
  have hsame : (it.on G).buffered = it.buffered := rfl
  unfold turn
  by_cases hb : (it.on G).buffered = 0
  · rw [if_pos hb]
    by_cases hend : it.reader.cursor ≥ it.reader.fileSize
    · rw [if_pos hend]
      refine ⟨_, rfl, .ended _ ⟨rfl, rfl⟩ rfl ?_ ?_⟩
      · show JournalTailState.cleanEnd = _
        rw [followerTail, if_pos (by omega)]
      · intro p more _
        unfold frameOverhead
        omega
    · rw [if_neg hend]
      have hroom : NeedsMore (it.on F) := by
        have h1 := eight_lt_readBufSize
        have h2 : readBufSize ≤ it.buf.length := h.mirrors.room
        refine Or.inl ?_
        show it.buffered < it.buf.length
        omega
      obtain ⟨it', hstays, hfin, ⟨e, he⟩ | ⟨n, hok, hm, hbuf, hpos⟩⟩ :=
        refill_cases sched hG h.mirrors hroom
      · rw [he]
        exact ⟨_, rfl, .failed e _ ⟨hstays.fileSize, hstays.cursor⟩ rfl⟩
      · have hn : 0 < n := hpos (by omega)
        obtain ⟨m, rfl⟩ := Nat.exists_eq_succ_of_ne_zero hn.ne'
        rw [hok]
        have hahead : Ahead crc F rest it' :=
          ⟨hm, by rw [hstays.cursor]; exact h.bytes, by rw [hstays.cursor]; exact h.inFile, h.fits⟩
        obtain ⟨t, ht, hturned⟩ := bufferedTurn_turned sched hahead hG (by omega)
          (hfin.trans hlive)
        exact ⟨t, ht, hturned.of_stays hstays⟩
  · rw [if_neg hb]
    exact bufferedTurn_turned sched h hG (by omega) hlive

end JournalIter

/-! ### The follower -/

theorem payloads_recordsAt (lsn : ℕ) (ps : List Bytes) :
    (recordsAt lsn ps).map JournalRecord.payload = ps := by
  induction ps generalizing lsn with
  | nil => rfl
  | cons p ps ih => rw [recordsAt, List.map_cons, ih]

/-- The reader has returned the records of `ps`; those of `rest` are to come. -/
structure FollowInv (crc : Crc) (s : Following) (ps rest : List Bytes) : Prop where
  appended : s.appended = ps ++ rest
  seen : s.seen = recordsAt 0 ps
  position : s.position = framesLen ps
  fits : ∀ p ∈ s.appended, Fits p
  file : s.file <+: framesBytes crc s.appended
  inSize : s.position ≤ s.fileSize
  inFile : s.fileSize ≤ s.file.length
  iter : ∀ it, s.borrow = .iter it → it.finished = false →
    JournalIter.Mirrors (s.file.take s.fileSize) (it.on (s.file.take s.fileSize))
  ended : ∀ state, s.ended = some state → state = followerTail s.position s.fileSize ∧
    ∀ p more, rest = p :: more → s.fileSize < s.position + (p.length + frameOverhead)

variable {crc : Crc} {sched : ReadSchedule} {s s' : Following} {ps rest : List Bytes}

theorem followInv_start (records : List Bytes) (h : ∀ p ∈ records, Fits p) :
    FollowInv crc (Following.start crc records) [] records where
  appended := rfl
  seen := rfl
  position := rfl
  fits := h
  file := List.prefix_rfl
  inSize := Nat.zero_le _
  inFile := Nat.le_refl _
  iter it hit := by cases hit
  ended state hs := by cases hs

namespace FollowInv

theorem append (h : FollowInv crc s ps rest) {records : List Bytes}
    (hfile : s.file = framesBytes crc s.appended) (hfits : ∀ p ∈ records, Fits p) :
    FollowInv crc { s with appended := s.appended ++ records } ps (rest ++ records) := by
  refine ⟨?_, h.seen, h.position, ?_, ?_, h.inSize, h.inFile, h.iter, ?_⟩
  · show s.appended ++ records = _
    rw [h.appended, List.append_assoc]
  · intro p hp
    rcases List.mem_append.mp hp with hp | hp
    · exact h.fits p hp
    · exact hfits p hp
  · rw [framesBytes_append]
    exact h.file.trans (List.prefix_append _ _)
  · intro state hs
    obtain ⟨hstate, htorn⟩ := h.ended state hs
    refine ⟨hstate, ?_⟩
    intro p more hrest
    cases hr : rest with
    | nil =>
      -- all that was appended has been read
      have hlen := congrArg List.length hfile
      rw [length_framesBytes, h.appended, hr, List.append_nil, ← h.position] at hlen
      have hle := h.inFile
      show s.fileSize < s.position + _
      unfold frameOverhead
      omega
    | cons q qs =>
      rw [hr, List.cons_append] at hrest
      cases hrest
      exact htorn p qs hr

theorem pwrite (h : FollowInv crc s ps rest) (n : ℕ) :
    FollowInv crc { s with file := (framesBytes crc s.appended).take (s.file.length + n) } ps
      rest := by
  have hfile := List.prefix_iff_eq_take.mp h.file
  have hle := h.file.length_le
  have hin := h.inFile
  have hsame : ((framesBytes crc s.appended).take (s.file.length + n)).take s.fileSize =
      s.file.take s.fileSize := by
    conv_rhs => rw [hfile]
    rw [List.take_take, List.take_take, Nat.min_eq_left (by omega), Nat.min_eq_left hin]
  refine ⟨h.appended, h.seen, h.position, h.fits, List.take_prefix _ _, h.inSize, ?_, ?_, h.ended⟩
  · show s.fileSize ≤ ((framesBytes crc s.appended).take (s.file.length + n)).length
    rw [List.length_take]
    omega
  · intro it hit hlive
    show JournalIter.Mirrors (((framesBytes crc s.appended).take _).take s.fileSize)
      (it.on (((framesBytes crc s.appended).take _).take s.fileSize))
    rw [hsame]
    exact h.iter it hit hlive

theorem refresh (h : FollowInv crc s ps rest) {r : JournalReader} (hr : s.borrow = .reader r) :
    FollowInv crc
      { s with borrow := .reader { r with fileSize := s.file.length }, ended := none } ps
      rest := by
  have hpos : s.position = r.cursor := by rw [Following.position, hr]; rfl
  have hin := Nat.le_trans h.inSize h.inFile
  refine ⟨h.appended, h.seen, ?_, h.fits, h.file, ?_, Nat.le_refl _, ?_, ?_⟩
  · exact hpos.symm.trans h.position
  · rw [hpos] at hin
    exact hin
  · intro it hit
    cases hit
  · intro state hs
    cases hs

theorem open_iter (h : FollowInv crc s ps rest) {r : JournalReader} (hr : s.borrow = .reader r) :
    FollowInv crc { s with borrow := .iter r.iter, ended := none } ps rest := by
  have hpos : s.position = r.cursor := by rw [Following.position, hr]; rfl
  have hsize : s.fileSize = r.fileSize := by rw [Following.fileSize, hr]; rfl
  have hin := h.inFile
  have hinSize := h.inSize
  rw [hsize] at hin hinSize
  rw [hpos] at hinSize
  refine ⟨h.appended, h.seen, hpos.symm.trans h.position, h.fits, h.file, hinSize, hin, ?_, ?_⟩
  · intro it hit _
    cases hit
    apply JournalIter.mirrors_iter _ { r with file := s.file.take r.fileSize } rfl
    rw [List.length_take]
    exact (Nat.min_eq_left hin).symm
  · intro state hs
    cases hs

theorem drop_iter (h : FollowInv crc s ps rest) {it : JournalIter} (hit : s.borrow = .iter it) :
    FollowInv crc { s with borrow := .reader it.reader } ps rest := by
  have hsame : (Borrow.reader it.reader).get = s.borrow.get := by rw [hit]; rfl
  refine ⟨h.appended, h.seen, ?_, h.fits, h.file, ?_, ?_, ?_, ?_⟩
  · show (Borrow.reader it.reader).get.cursor = _
    rw [hsame]
    exact h.position
  · show (Borrow.reader it.reader).get.cursor ≤ (Borrow.reader it.reader).get.fileSize
    rw [hsame]
    exact h.inSize
  · show (Borrow.reader it.reader).get.fileSize ≤ _
    rw [hsame]
    exact h.inFile
  · intro it' hit'
    cases hit'
  · intro state hs
    have hended := h.ended state hs
    unfold Following.position Following.fileSize at hended
    rw [← hsame] at hended
    exact hended

theorem ahead (h : FollowInv crc s ps rest) {it : JournalIter} (hit : s.borrow = .iter it)
    (hlive : it.finished = false) :
    JournalIter.Ahead crc (s.file.take s.fileSize) rest it := by
  have hpos : s.position = it.reader.cursor := by rw [Following.position, hit]; rfl
  have hin := h.inFile
  have hsize := h.inSize
  have hposition := h.position
  refine ⟨h.iter it hit hlive, ?_, ?_, ?_⟩
  · have hpre : s.file.take s.fileSize <+: framesBytes crc ps ++ framesBytes crc rest := by
      rw [← framesBytes_append, ← h.appended]
      exact (List.take_prefix _ _).trans h.file
    have hdrop := List.IsPrefix.drop hpre it.reader.cursor
    rw [← hpos, h.position, ← length_framesBytes crc ps, List.drop_left] at hdrop
    rw [← hpos, h.position, ← length_framesBytes crc ps]
    exact hdrop
  · rw [List.length_take]
    omega
  · intro p hp
    apply h.fits p
    rw [h.appended]
    exact List.mem_append_right ps hp

/-- One pass: nothing new, or the next record. -/
theorem pass (h : FollowInv crc s ps rest) {it : JournalIter} (hit : s.borrow = .iter it)
    (hlive : it.finished = false) {t : JournalIter.Turn}
    (ht : JournalIter.turn crc sched (it.on s.file) = some t) :
    ∃ ps' rest', FollowInv crc (s.returned t) ps' rest' := by
  have hpos : s.position = it.reader.cursor := by rw [Following.position, hit]; rfl
  have hsize : s.fileSize = it.reader.fileSize := by rw [Following.fileSize, hit]; rfl
  have hin := h.inFile
  have hlen : (s.file.take s.fileSize).length = s.fileSize := by
    rw [List.length_take]
    omega
  obtain ⟨t', ht', hturned⟩ := JournalIter.turn_turned sched (h.ahead hit hlive)
    (show s.file.take (s.file.take s.fileSize).length = s.file.take s.fileSize by rw [hlen]) hlive
  rw [ht] at ht'
  cases ht'
  have hpsize := h.inSize
  have hposition := h.position
  cases hturned with
  | again it' stays mirrors live =>
    have hc : it'.reader.cursor = s.position := stays.cursor.trans hpos.symm
    have hf : it'.reader.fileSize = s.fileSize := stays.fileSize.trans hsize.symm
    refine ⟨ps, rest, h.appended, h.seen, hc.trans h.position, h.fits, h.file, ?_, ?_, ?_, ?_⟩
    · show it'.reader.cursor ≤ it'.reader.fileSize
      omega
    · show it'.reader.fileSize ≤ s.file.length
      omega
    · intro it'' hit'' _
      cases hit''
      show JournalIter.Mirrors (s.file.take it'.reader.fileSize)
        (it'.on (s.file.take it'.reader.fileSize))
      rw [hf]
      exact mirrors
    · intro state hs
      show state = followerTail it'.reader.cursor it'.reader.fileSize ∧ ∀ p more, rest = p :: more →
        it'.reader.fileSize < it'.reader.cursor + (p.length + frameOverhead)
      rw [hc, hf]
      exact h.ended state hs
  | item p more hrest it' mirrors fileSize cursor inFile live =>
    have hf : it'.reader.fileSize = s.fileSize := fileSize.trans hsize.symm
    rw [← hpos] at cursor ⊢
    rw [hlen] at inFile
    have hstep : framesLen (ps ++ [p]) = s.position + (p.length + frameOverhead) := by
      rw [framesLen_append, ← hposition, framesLen_cons, framesLen_nil, Nat.add_zero]
    refine ⟨ps ++ [p], more, ?_, ?_, ?_, h.fits, h.file, ?_, ?_, ?_, ?_⟩
    · show s.appended = _
      rw [h.appended, hrest, List.append_assoc]
      rfl
    · show s.seen ++ [_] = _
      rw [recordsAt_append, h.seen, ← hposition]
      simp [recordsAt]
    · exact cursor.trans hstep.symm
    · show it'.reader.cursor ≤ it'.reader.fileSize
      omega
    · show it'.reader.fileSize ≤ s.file.length
      omega
    · intro it'' hit'' _
      cases hit''
      show JournalIter.Mirrors (s.file.take it'.reader.fileSize)
        (it'.on (s.file.take it'.reader.fileSize))
      rw [hf]
      exact mirrors
    · intro state hs
      -- an iterator that ended had found that this frame is not all there
      have htorn := (h.ended state hs).2 p more hrest
      omega
  | failed e it' stays done =>
    have hc : it'.reader.cursor = s.position := stays.cursor.trans hpos.symm
    have hf : it'.reader.fileSize = s.fileSize := stays.fileSize.trans hsize.symm
    refine ⟨ps, rest, h.appended, h.seen, hc.trans h.position, h.fits, h.file, ?_, ?_, ?_, ?_⟩
    · show it'.reader.cursor ≤ it'.reader.fileSize
      omega
    · show it'.reader.fileSize ≤ s.file.length
      omega
    · intro it'' hit'' hlive'
      cases hit''
      rw [done] at hlive'
      cases hlive'
    · intro state hs
      show state = followerTail it'.reader.cursor it'.reader.fileSize ∧ ∀ p more, rest = p :: more →
        it'.reader.fileSize < it'.reader.cursor + (p.length + frameOverhead)
      rw [hc, hf]
      exact h.ended state hs
  | ended it' stays done state torn =>
    have hc : it'.reader.cursor = s.position := stays.cursor.trans hpos.symm
    have hf : it'.reader.fileSize = s.fileSize := stays.fileSize.trans hsize.symm
    rw [hlen, ← hpos] at state torn
    refine ⟨ps, rest, h.appended, h.seen, hc.trans h.position, h.fits, h.file, ?_, ?_, ?_, ?_⟩
    · show it'.reader.cursor ≤ it'.reader.fileSize
      omega
    · show it'.reader.fileSize ≤ s.file.length
      omega
    · intro it'' hit'' hlive'
      cases hit''
      rw [done] at hlive'
      cases hlive'
    · intro state' hs
      cases hs
      show it'.reader.tailState = followerTail it'.reader.cursor it'.reader.fileSize ∧
        ∀ p more, rest = p :: more →
          it'.reader.fileSize < it'.reader.cursor + (p.length + frameOverhead)
      rw [hc, hf]
      exact ⟨state, torn⟩

theorem step (h : FollowInv crc s ps rest) (a : FollowAction)
    (hn : Following.next crc sched s a = some s') : ∃ ps' rest', FollowInv crc s' ps' rest' := by
  unfold Following.next at hn
  cases a with
  | append records =>
    dsimp only at hn
    split at hn
    case isTrue hg =>
      cases hn
      exact ⟨ps, rest ++ records, h.append hg.1 hg.2⟩
    case isFalse => cases hn
  | pwrite n =>
    cases hn
    exact ⟨ps, rest, h.pwrite n⟩
  | refresh =>
    cases hb : s.borrow with
    | reader r =>
      simp only [hb] at hn
      cases hn
      exact ⟨ps, rest, h.refresh hb⟩
    | iter it => simp [hb] at hn
  | iter =>
    cases hb : s.borrow with
    | reader r =>
      simp only [hb] at hn
      cases hn
      exact ⟨ps, rest, h.open_iter hb⟩
    | iter it => simp [hb] at hn
  | pass =>
    cases hb : s.borrow with
    | reader r => simp [hb] at hn
    | iter it =>
      simp only [hb] at hn
      split at hn
      case isTrue => cases hn
      case isFalse hlive =>
        obtain ⟨t, ht, rfl⟩ := Option.map_eq_some_iff.mp hn
        exact h.pass hb (Bool.eq_false_iff.mpr hlive) ht
  | drop =>
    cases hb : s.borrow with
    | reader r => simp [hb] at hn
    | iter it =>
      simp only [hb] at hn
      cases hn
      exact ⟨ps, rest, h.drop_iter hb⟩

/-- The loop in `next` does not stall. -/
theorem can_pass (h : FollowInv crc s ps rest) {it : JournalIter} (hit : s.borrow = .iter it)
    (hlive : it.finished = false) : ∃ s', Following.next crc sched s .pass = some s' := by
  have hin := h.inFile
  have hlen : (s.file.take s.fileSize).length = s.fileSize := by
    rw [List.length_take]
    omega
  obtain ⟨t, ht, -⟩ := JournalIter.turn_turned sched (h.ahead hit hlive)
    (show s.file.take (s.file.take s.fileSize).length = s.file.take s.fileSize by rw [hlen]) hlive
  simp [Following.next, hit, hlive, ht]

theorem reach {records : List Bytes} (hfits : ∀ p ∈ records, Fits p)
    (h : Reach (Following.next crc sched) (fun _ => True) (Following.start crc records) s) :
    ∃ ps rest, FollowInv crc s ps rest := by
  induction h with
  | start => exact ⟨[], records, followInv_start records hfits⟩
  | step _ _ hn ih =>
    obtain ⟨ps, rest, ht⟩ := ih
    exact ht.step _ hn

end FollowInv

/-- What the follower returned is the records that were appended, in order and without a gap,
each once, up to where it stands. When an iterator ends by itself, the next record is not all
there. -/
theorem follower_sees_each_record_once (crc : Crc) (sched : ReadSchedule) (records : List Bytes)
    (hfits : ∀ p ∈ records, Fits p) (s : Following)
    (h : Reach (Following.next crc sched) (fun _ => True) (Following.start crc records) s) :
    ∃ ps rest, s.appended = ps ++ rest ∧ s.seen = recordsAt 0 ps ∧ s.position = framesLen ps ∧
      (∀ state, s.ended = some state → state = followerTail s.position s.fileSize ∧
        ∀ p, rest.head? = some p → s.fileSize < framesLen (ps ++ [p])) ∧
      (s.ended ≠ none → s.fileSize = framesLen s.appended →
        s.seen.map JournalRecord.payload = s.appended) ∧
      ∀ it, s.borrow = .iter it → it.finished = false →
        ∃ s', Following.next crc sched s .pass = some s' := by
  obtain ⟨ps, rest, hs⟩ := FollowInv.reach hfits h
  have htorn : ∀ state, s.ended = some state → ∀ p, rest.head? = some p →
      s.fileSize < framesLen (ps ++ [p]) := by
    intro state hstate p hp
    obtain ⟨more, hrest⟩ := List.head?_eq_some_iff.mp hp
    have hlt := (hs.ended state hstate).2 p more hrest
    rw [hs.position] at hlt
    simp only [framesLen_append, framesLen_cons, framesLen_nil]
    omega
  refine ⟨ps, rest, hs.appended, hs.seen, hs.position, ?_, ?_, ?_⟩
  · intro state hstate
    exact ⟨(hs.ended state hstate).1, htorn state hstate⟩
  · intro hended hsize
    obtain ⟨state, hstate⟩ := Option.ne_none_iff_exists'.mp hended
    rw [hs.seen, payloads_recordsAt, hs.appended]
    cases hrest : rest with
    | nil => rw [List.append_nil]
    | cons p more =>
      have hlt := htorn state hstate p (by rw [hrest]; rfl)
      rw [hsize, hs.appended, hrest] at hlt
      simp only [framesLen_append, framesLen_cons, framesLen_nil] at hlt
      omega
  · intro it hit hlive
    exact hs.can_pass hit hlive

/-- The reader takes the size while the second frame is being written, and makes one pass. -/
def growing : List FollowAction := [.append [[7], [8, 9]], .pwrite 20, .refresh, .iter, .pass]

theorem growing_run : (run (Following.next castagnoli (shortReads fun _ => readBufSize)) growing
    (Following.start castagnoli [])).map (fun s => (s.appended, s.seen, s.position, s.ended)) =
    some ([[7], [8, 9]], [⟨0, [7]⟩], 13, none) := by decide +kernel

theorem follower_sees_each_record_once_growing :
    ∃ s ps rest, run (Following.next castagnoli (shortReads fun _ => readBufSize)) growing
        (Following.start castagnoli []) = some s ∧ s.seen = [⟨0, [7]⟩] ∧ s.position = 13 ∧
      [[7], [8, 9]] = ps ++ rest ∧ [⟨0, [7]⟩] = recordsAt 0 ps ∧ 13 = framesLen ps ∧
      ∀ it, s.borrow = .iter it → it.finished = false → ∃ s',
        Following.next castagnoli (shortReads fun _ => readBufSize) s .pass = some s' := by
  have hfits : ∀ p ∈ ([] : List Bytes), Fits p := by simp
  obtain ⟨s, hrun, hs⟩ := Option.map_eq_some_iff.mp growing_run
  simp only [Prod.mk.injEq] at hs
  obtain ⟨happended, hseen, hposition, -⟩ := hs
  obtain ⟨ps, rest, hsplit, hrecords, hframes, -, -, hpass⟩ :=
    follower_sees_each_record_once castagnoli (shortReads fun _ => readBufSize) [] hfits s
      (reach_of_run growing hrun fun _ _ => trivial)
  rw [happended] at hsplit
  rw [hseen] at hrecords
  rw [hposition] at hframes
  exact ⟨s, ps, rest, hrun, hseen, hposition, hsplit, hrecords, hframes, hpass⟩

end Fsys.Journal
