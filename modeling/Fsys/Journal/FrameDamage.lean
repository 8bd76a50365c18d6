import Fsys.Base.ShiftRegister
import Fsys.Journal.ReaderScan
import Mathlib.Tactic.IntervalCases

/-!
# Damaged frames (src/journal/format.rs:371-404)

What `decode_frame` says about a frame that changed on disk. The checksum is
CRC-32C here. Its register, run over a whole frame with the stored checksum, ends
in one fixed state; a change behind the header that is no wider than the register
ends in another one. A change of the length field moves the place the checksum is
read from, and then nothing of the kind holds.
-/

namespace Fsys.Journal
open Fsys.Base

/-! ### The register over a frame -/

/-- The polynomial of CRC-32C, reflected. -/
def castagnoliPoly : BitVec 32 := 0x82F63B78#32

/-- The register after `bs`, before the final complement. -/
def register (bs : Bytes) : BitVec 32 :=
  ShiftRegister.feed castagnoliPoly (BitVec.allOnes 32) bs

/-- Where the register ends on a frame whose checksum is right. -/
def residue : BitVec 32 := ShiftRegister.shifts castagnoliPoly 32 (BitVec.allOnes 32)

theorem castagnoliPoly_msb : castagnoliPoly.msb = true := by decide

theorem crcBit_toBitVec (c : UInt32) :
    (crcBit c).toBitVec = ShiftRegister.shift castagnoliPoly c.toBitVec := by
  have hlow : c &&& 1 = 1 ↔ c.toBitVec.getLsbD 0 = true := by
    rw [← UInt32.toBitVec_inj, UInt32.toBitVec_and]
    have h : c.toBitVec &&& 1#32 = BitVec.setWidth 32 (BitVec.ofBool (c.toBitVec.getLsbD 0)) :=
      BitVec.and_one_eq_setWidth_ofBool_getLsbD
    show c.toBitVec &&& 1#32 = 1#32 ↔ _
    rw [h]
    cases c.toBitVec.getLsbD 0 <;> decide
  unfold crcBit ShiftRegister.shift
  by_cases h : c &&& 1 = 1
  · rw [if_pos h, if_pos (hlow.mp h)]
    rfl
  · rw [if_neg h, if_neg (mt hlow.mpr h)]
    rfl

theorem crcByte_toBitVec (c : UInt32) (b : UInt8) :
    (crcByte c b).toBitVec = ShiftRegister.feedByte castagnoliPoly c.toBitVec b := by
  simp only [crcByte, crcBit_toBitVec, ShiftRegister.feedByte, ShiftRegister.shifts,
    UInt32.toBitVec_xor]
  rfl

theorem foldl_crcByte_toBitVec (bs : Bytes) (c : UInt32) :
    (bs.foldl crcByte c).toBitVec = ShiftRegister.feed castagnoliPoly c.toBitVec bs := by
  induction bs generalizing c with
  | nil => rfl
  | cons b bs ih =>
    rw [List.foldl_cons, ih, crcByte_toBitVec]
    rfl

theorem castagnoli_sum_toBitVec (bs : Bytes) :
    (castagnoli.sum bs).toBitVec = ~~~register bs := by
  show (~~~(bs.foldl crcByte 0xFFFFFFFF)).toBitVec = _
  rw [UInt32.toBitVec_not, foldl_crcByte_toBitVec]
  rfl

theorem toNat_word (bs : Bytes) (h : bs.length = 4) :
    (ShiftRegister.word 32 bs).toNat = leAt bs 0 := by
  match bs, h with
  | [a, b, c, d], _ =>
    simp only [ShiftRegister.toNat_word_cons, List.length_cons, List.length_nil, Nat.reduceAdd,
      Nat.reduceMul, Nat.reduceLeDiff, leAt, byteAt, List.getD_cons_zero, List.getD_cons_succ]
    simp only [ShiftRegister.word, BitVec.toNat_ofNat]
    omega

/-- The checksum of `body` is what `stored` spells exactly when the register ends in the
residue. -/
theorem sum_eq_stored_iff (body stored : Bytes) (h : stored.length = 4) :
    (castagnoli.sum body).toNat = leAt stored 0 ↔ register (body ++ stored) = residue := by
  have hreg : register (body ++ stored) = ShiftRegister.shifts castagnoliPoly 32
      (register body ^^^ ShiftRegister.word 32 stored) := by
    unfold register
    rw [ShiftRegister.feed_append, ShiftRegister.feed_eq_shifts_word _ _ stored (by omega), h]
  have hinj := (ShiftRegister.shifts_injective castagnoliPoly castagnoliPoly_msb 32).eq_iff
    (a := register body ^^^ ShiftRegister.word 32 stored) (b := BitVec.allOnes 32)
  rw [hreg, residue, hinj, ← toNat_word stored h, ← UInt32.toNat_toBitVec, BitVec.toNat_inj,
    castagnoli_sum_toBitVec, ← BitVec.xor_right_inj (register body)]
  have hones : register body ^^^ ~~~register body = BitVec.allOnes 32 := by
    apply BitVec.eq_of_getLsbD_eq
    intro i hi
    rw [BitVec.getLsbD_xor, BitVec.getLsbD_not, BitVec.getLsbD_allOnes]
    simp [hi]
  rw [hones]
  exact eq_comm

/-- The checksum test of the decoder at `m`, as a test of the register. -/
theorem checks_iff (bs : Bytes) (m : ℕ) (h : m + 4 ≤ bs.length) :
    (castagnoli.sum (bs.take m)).toNat = leAt bs m ↔ register (bs.take (m + 4)) = residue := by
  have hlen : ((bs.drop m).take 4).length = 4 := by
    rw [List.length_take, List.length_drop]
    omega
  have hstored : leAt ((bs.drop m).take 4) 0 = leAt bs m := by
    have h1 := leAt_append_right (bs.take m) (bs.drop m) 0
    rw [List.take_append_drop, List.length_take, Nat.min_eq_left (by omega), Nat.add_zero] at h1
    have h2 := leAt_append_left ((bs.drop m).take 4) ((bs.drop m).drop 4) 0 (by omega)
    rw [List.take_append_drop] at h2
    rw [← h2, h1]
  have h3 := sum_eq_stored_iff (bs.take m) ((bs.drop m).take 4) hlen
  rw [hstored, ← List.take_add] at h3
  exact h3

theorem register_frameBytes (payload : Bytes) (h : Fits payload) :
    register (frameBytes castagnoli payload) = residue := by
  have hdec := decodeFrame_frameBytes castagnoli payload [] h
  rw [List.append_nil] at hdec
  obtain ⟨-, -, -, -, -, -, hsum⟩ := (decodeFrame_ok_iff _ _ _ _ _).mp hdec
  have hlen := length_frameBytes castagnoli payload
  unfold frameOverhead at hlen
  rw [checks_iff _ _ (by omega), List.take_of_length_le (by omega)] at hsum
  exact hsum

/-- Behind an intact header the register alone decides. -/
theorem decodeFrame_intact_header (bs : Bytes) (n : ℕ) (hm : beAt bs 0 = frameMagicV1)
    (hl : leAt bs 4 = n) (hn : n ≤ frameMaxPayload) (hle : n + frameOverhead ≤ bs.length)
    (hreg : register (bs.take (n + frameOverhead)) ≠ residue) :
    decodeFrame castagnoli bs = .checksumMismatch := by
  unfold frameOverhead at hle hreg
  have hsum : (castagnoli.sum (bs.take (8 + n))).toNat ≠ leAt bs (8 + n) := by
    rw [Ne, checks_iff bs (8 + n) (by omega), show 8 + n + 4 = n + 12 by omega]
    exact hreg
  have h8 : ¬ bs.length < 8 := by omega
  have hmax : ¬ n > frameMaxPayload := Nat.not_lt.mpr hn
  have ht : ¬ bs.length < 8 + n + 4 := by omega
  simp only [decodeFrame, h8, hm, hl, hmax, ht, hsum, ne_eq, not_true_eq_false, not_false_eq_true,
    if_true, if_false]

/-! ### Bursts behind the header -/

/-- `bs` and `bs'` are equally long and differ in the four bytes at `k` at most. -/
def DifferAt (k : ℕ) (bs bs' : Bytes) : Prop :=
  bs'.length = bs.length ∧ ∀ i, i < k ∨ k + 4 ≤ i → bs'[i]? = bs[i]?

theorem DifferAt.take_eq {k n : ℕ} {bs bs' : Bytes} (h : DifferAt k bs bs') (hn : n ≤ k) :
    bs'.take n = bs.take n := by
  apply List.ext_getElem?
  intro i
  by_cases hi : i < n
  · rw [List.getElem?_take_of_lt hi, List.getElem?_take_of_lt hi, h.2 i (Or.inl (by omega))]
  · rw [List.getElem?_take_eq_none (Nat.le_of_not_lt hi),
      List.getElem?_take_eq_none (Nat.le_of_not_lt hi)]

theorem DifferAt.drop_eq {k : ℕ} {bs bs' : Bytes} (h : DifferAt k bs bs') :
    bs'.drop (k + 4) = bs.drop (k + 4) := by
  apply List.ext_getElem?
  intro i
  rw [List.getElem?_drop, List.getElem?_drop, h.2 _ (Or.inr (by omega))]

/-- A window that reaches past the end can be moved back to the end. -/
theorem DifferAt.fit {k : ℕ} {bs bs' : Bytes} (h : DifferAt k bs bs') (h4 : 4 ≤ bs.length) :
    DifferAt (min k (bs.length - 4)) bs bs' := by
  refine ⟨h.1, ?_⟩
  intro i hi
  rcases Nat.lt_or_ge i k with hik | hik
  · exact h.2 i (Or.inl hik)
  · rcases Nat.lt_or_ge i bs.length with hlen | hlen
    · exact h.2 i (Or.inr (by omega))
    · rw [List.getElem?_eq_none hlen, List.getElem?_eq_none (h.1 ▸ hlen)]

/-- The register tells two strings apart that differ in four bytes in a row. -/
theorem DifferAt.register_ne {k : ℕ} {bs bs' : Bytes} (h : DifferAt k bs bs')
    (hk : k + 4 ≤ bs.length) (hne : bs' ≠ bs) : register bs' ≠ register bs := by
  have hsplit : ∀ cs : Bytes, cs = cs.take k ++ (cs.drop k).take 4 ++ cs.drop (k + 4) := by
    intro cs
    rw [← List.take_add, List.take_append_drop]
  have hlen : ∀ cs : Bytes, cs.length = bs.length → ((cs.drop k).take 4).length = 4 := by
    intro cs hcs
    rw [List.length_take, List.length_drop]
    omega
  intro hreg
  unfold register at hreg
  rw [hsplit bs', hsplit bs, h.take_eq (Nat.le_refl k), h.drop_eq] at hreg
  have hwin := ShiftRegister.feed_window_injective castagnoliPoly castagnoliPoly_msb _ _ _
    ((hlen bs' h.1).trans (hlen bs rfl).symm) (by rw [hlen bs rfl]) hreg
  apply hne
  rw [hsplit bs', hsplit bs, h.take_eq (Nat.le_refl k), h.drop_eq, hwin]

/-- A frame changed in four bytes in a row behind its header fails its checksum, whatever
follows it. -/
theorem decodeFrame_burst (payload bs' suffix : Bytes) (k : ℕ) (hfit : Fits payload) (hk : 8 ≤ k)
    (hd : DifferAt k (frameBytes castagnoli payload) bs')
    (hne : bs' ≠ frameBytes castagnoli payload) :
    decodeFrame castagnoli (bs' ++ suffix) = .checksumMismatch := by
  have hlen := length_frameBytes castagnoli payload
  have hlen' : bs'.length = payload.length + frameOverhead := hd.1.trans hlen
  have hover : frameOverhead = 12 := rfl
  have hhead : bs'.take 8 = (frameBytes castagnoli payload).take 8 := hd.take_eq hk
  have hsplit : ∀ cs : Bytes, cs = cs.take 8 ++ cs.drop 8 := fun cs =>
    (List.take_append_drop 8 cs).symm
  have h8 : ((frameBytes castagnoli payload).take 8).length = 8 := by
    rw [List.length_take]
    omega
  have hm := beAt_frameBytes castagnoli payload suffix
  have hl := leAt_frameBytes castagnoli payload suffix hfit
  rw [hsplit (frameBytes castagnoli payload), List.append_assoc] at hm hl
  rw [beAt_append_left _ _ 0 (by omega)] at hm
  rw [leAt_append_left _ _ 4 (by omega)] at hl
  apply decodeFrame_intact_header _ payload.length _ _ hfit
  · rw [List.length_append]
    omega
  · rw [← hlen', List.take_left, ← register_frameBytes payload hfit]
    have hfitd := hd.fit (by omega)
    exact hfitd.register_ne (by omega) hne
  · rw [hsplit bs', List.append_assoc, hhead, beAt_append_left _ _ 0 (by omega), hm]
  · rw [hsplit bs', List.append_assoc, hhead, leAt_append_left _ _ 4 (by omega), hl]

/-- Burst detection: a frame that `encode_frame_owned` made and that changed in at most
four bytes in a row at offset 8 or later is reported as a checksum mismatch. -/
theorem burst_past_header_detected (payload frame bs' suffix : Bytes) (k : ℕ)
    (henc : encodeFrameOwned castagnoli payload = .ok frame) (hk : 8 ≤ k)
    (hd : DifferAt k frame bs') (hne : bs' ≠ frame) :
    decodeFrame castagnoli (bs' ++ suffix) = .checksumMismatch := by
  obtain ⟨hfit, hframe⟩ := (encodeFrameOwned_ok_iff castagnoli payload frame).mp henc
  rw [hframe] at hd hne
  exact decodeFrame_burst payload bs' suffix k hfit hk hd hne

/-- The frame of the payload `[7]` with the payload and the first byte of the checksum
overwritten. -/
theorem burst_past_header_detected_seven :
    decodeFrame castagnoli ([70, 83, 89, 1, 1, 0, 0, 0, 8, 9, 64, 98, 223] ++ [1, 2]) =
      .checksumMismatch := by
  refine burst_past_header_detected [7] [70, 83, 89, 1, 1, 0, 0, 0, 7, 138, 64, 98, 223] _ _ 8
    (by decide +kernel) (by decide) ⟨rfl, ?_⟩ (by decide)
  intro i hi
  rcases Nat.lt_or_ge i 13 with h | h
  · interval_cases i <;> first | rfl | omega
  · rw [List.getElem?_eq_none (by exact h), List.getElem?_eq_none (by exact h)]

/-! ### Single bits -/

/-- `corrupted[i] ^= 1 << bit`. -/
def flipBit (bs : Bytes) (i : ℕ) (bit : Fin 8) : Bytes :=
  bs.set i (bs.getD i 0 ^^^ (1 <<< UInt8.ofNat bit))

@[simp] theorem length_flipBit (bs : Bytes) (i : ℕ) (bit : Fin 8) :
    (flipBit bs i bit).length = bs.length := List.length_set

theorem xor_bit_ne (b : UInt8) (bit : Fin 8) : b ^^^ (1 <<< UInt8.ofNat bit) ≠ b := by
  intro h
  have hx := congrArg (fun x => b ^^^ x) h
  simp only [← UInt8.xor_assoc, UInt8.xor_self, UInt8.zero_xor] at hx
  have hbit : ∀ bit : Fin 8, (1 : UInt8) <<< UInt8.ofNat bit ≠ 0 := by decide
  exact hbit bit hx

theorem flipBit_ne (bs : Bytes) (i : ℕ) (bit : Fin 8) (h : i < bs.length) :
    flipBit bs i bit ≠ bs := by
  intro heq
  have hi := congrArg (fun l : Bytes => l.getD i 0) heq
  simp only [flipBit, List.getD_eq_getElem?_getD, List.getElem?_set_self h, Option.getD_some] at hi
  exact xor_bit_ne _ bit hi

theorem flipBit_append_left (as bs : Bytes) (i : ℕ) (bit : Fin 8) (h : i < as.length) :
    flipBit (as ++ bs) i bit = flipBit as i bit ++ bs := by
  unfold flipBit
  rw [List.getD_append _ _ _ _ h, List.set_append_left i _ h]

theorem flipBit_append_right (as bs : Bytes) (j : ℕ) (bit : Fin 8) :
    flipBit (as ++ bs) (as.length + j) bit = as ++ flipBit bs j bit := by
  unfold flipBit
  rw [List.getD_append_right _ _ _ _ (by omega), List.set_append_right _ _ (by omega),
    Nat.add_sub_cancel_left]

/-- The length field of the frame of `payload` after one of its bits flipped, in byte `j`
of the field. -/
def flippedLength (payload : Bytes) (j : ℕ) (bit : Fin 8) : ℕ :=
  leAt (flipBit (leBytes payload.length) j bit) 0

/-- The bytes from offset 8 on also hold a payload of the flipped length, with its
checksum right behind it. -/
def Aliased (payload bytes : Bytes) (j : ℕ) (bit : Fin 8) : Prop :=
  let len := flippedLength payload j bit
  len ≤ frameMaxPayload ∧ len + frameOverhead ≤ bytes.length ∧
    (castagnoli.sum (frameHeader len ++ (bytes.drop 8).take len)).toNat = leAt bytes (8 + len)

theorem frameBytes_fields (crc : Crc) (payload suffix : Bytes) :
    frameBytes crc payload ++ suffix = beBytes frameMagicV1 ++ (leBytes payload.length ++
      (frameBytes crc payload ++ suffix).drop 8) := rfl

theorem decodeFrame_flip_magic (payload suffix : Bytes) (i : ℕ) (bit : Fin 8) (hi : i < 4) :
    decodeFrame castagnoli (flipBit (frameBytes castagnoli payload ++ suffix) i bit) =
      .badMagic := by
  have hlen : 8 ≤ (flipBit (frameBytes castagnoli payload ++ suffix) i bit).length := by
    rw [length_flipBit, List.length_append, length_frameBytes, frameOverhead]
    omega
  have hne : beAt (flipBit (frameBytes castagnoli payload ++ suffix) i bit) 0 ≠ frameMagicV1 := by
    intro hm
    have hmagic : (flipBit (beBytes frameMagicV1) i bit).length = 4 := length_flipBit _ _ _
    have htake := beBytes_take _ (Nat.le_trans (by decide) hlen)
    rw [hm, frameBytes_fields, flipBit_append_left _ _ _ _ hi, List.take_left' hmagic] at htake
    exact flipBit_ne (beBytes frameMagicV1) i bit hi htake.symm
  simp only [decodeFrame, if_neg (Nat.not_lt.mpr hlen), if_pos hne]

/-- After a flip in the length field the header declares the flipped length and
everything behind it is as before. -/
theorem flip_length_eq (payload suffix : Bytes) (j : ℕ) (bit : Fin 8) (hj : j < 4) :
    flipBit (frameBytes castagnoli payload ++ suffix) (4 + j) bit =
      frameHeader (flippedLength payload j bit) ++
        (frameBytes castagnoli payload ++ suffix).drop 8 := by
  have hfield : flipBit (leBytes payload.length) j bit =
      leBytes (flippedLength payload j bit) :=
    (leBytes_leAt _ (length_flipBit _ _ _)).symm
  rw [frameBytes_fields]
  have h1 := flipBit_append_right (beBytes frameMagicV1) (leBytes payload.length ++
    (frameBytes castagnoli payload ++ suffix).drop 8) j bit
  rw [length_beBytes, flipBit_append_left (leBytes payload.length) _ _ _ hj, hfield,
    ← List.append_assoc] at h1
  exact h1

theorem decodeFrame_flip_length (payload suffix : Bytes) (j : ℕ) (bit : Fin 8) (hj : j < 4) :
    (∃ n s e, decodeFrame castagnoli
      (flipBit (frameBytes castagnoli payload ++ suffix) (4 + j) bit) = .ok n s e) ↔
      Aliased payload (frameBytes castagnoli payload ++ suffix) j bit := by
  have hsame : (flipBit (frameBytes castagnoli payload ++ suffix) (4 + j) bit).length =
      (frameBytes castagnoli payload ++ suffix).length := length_flipBit _ _ _
  have hsuffix := List.take_append_drop 8 (frameBytes castagnoli payload ++ suffix)
  have h8 : ((frameBytes castagnoli payload ++ suffix).take 8).length = 8 := rfl
  have hlt : flippedLength payload j bit < 2 ^ 32 := leAt_lt _ _
  rw [flip_length_eq payload suffix j bit hj] at hsame ⊢
  unfold Aliased
  generalize flippedLength payload j bit = len at *
  generalize frameBytes castagnoli payload ++ suffix = bytes at *
  have hm : beAt (frameHeader len ++ bytes.drop 8) 0 = frameMagicV1 := by
    rw [frameHeader, List.append_assoc, beAt_append_left _ _ 0 (by simp)]
    exact beAt_beBytes frameMagicV1 (by decide)
  have hl : leAt (frameHeader len ++ bytes.drop 8) 4 = len := by
    have h4 := leAt_append_right (beBytes frameMagicV1) (leBytes len ++ bytes.drop 8) 0
    rw [length_beBytes, Nat.add_zero, leAt_append_left _ _ 0 (by simp), leAt_leBytes len hlt,
      ← List.append_assoc] at h4
    exact h4
  have htake : (frameHeader len ++ bytes.drop 8).take (8 + len) =
      frameHeader len ++ (bytes.drop 8).take len := by
    rw [← length_frameHeader len, List.take_length_add_append]
  have hstored : leAt (frameHeader len ++ bytes.drop 8) (8 + len) = leAt bytes (8 + len) := by
    have h1 := leAt_append_right (frameHeader len) (bytes.drop 8) len
    have h2 := leAt_append_right (bytes.take 8) (bytes.drop 8) len
    rw [hsuffix, h8] at h2
    rw [h2, ← h1, length_frameHeader]
  simp only [decodeFrame_ok_iff, hm, hl, hsame, true_and]
  constructor
  · intro hok
    obtain ⟨n, s, e, hmax, hn, hle, hs, he, hsum⟩ := hok
    rw [he, htake, hstored] at hsum
    exact ⟨hmax, hn ▸ hle, hsum⟩
  · intro haliased
    obtain ⟨hmax, hle, hsum⟩ := haliased
    refine ⟨len + frameOverhead, 8, 8 + len, hmax, rfl, hle, rfl, rfl, ?_⟩
    rw [htake, hstored]
    exact hsum

theorem decodeFrame_flip_body (payload suffix : Bytes) (i : ℕ) (bit : Fin 8)
    (hfit : Fits payload) (h8 : 8 ≤ i) (hi : i < payload.length + frameOverhead) :
    decodeFrame castagnoli (flipBit (frameBytes castagnoli payload ++ suffix) i bit) =
      .checksumMismatch := by
  rw [flipBit_append_left _ _ _ _ (by rw [length_frameBytes]; exact hi)]
  apply decodeFrame_burst payload _ suffix i hfit h8
  · refine ⟨length_flipBit _ _ _, ?_⟩
    intro k hk
    unfold flipBit
    rw [List.getElem?_set_ne (by omega)]
  · exact flipBit_ne _ _ _ (by rw [length_frameBytes]; exact hi)

/-- Where a damaged frame still starts with a non-zero byte, a replay from there yields a
record exactly when the decoder accepts. -/
theorem replay_nil_iff (crc : Crc) (before bytes : Bytes) (extra : ℕ → ℕ)
    (hhead : ∃ b rest, bytes = b :: rest ∧ b ≠ 0) :
    (∃ reader, replay crc (shortReads extra)
      ((JournalReader.open (before ++ bytes)).seekTo before.length) = some (.ok [], reader)) ↔
      ∀ n s e, decodeFrame crc bytes ≠ .ok n s e := by
  obtain ⟨b, rest, hbytes, hb⟩ := hhead
  obtain ⟨reader, hreplay, -, -⟩ := replay_eq_plainScan crc (before ++ bytes) before.length extra
  have hrest : (before ++ bytes).drop before.length = bytes := List.drop_left
  have hframe : journalHead crc before.length bytes = frameHead crc before.length bytes := by
    rw [hbytes, journalHead, if_neg hb]
  constructor
  · intro hnil n s e hok
    obtain ⟨reader', hnil⟩ := hnil
    rw [hreplay] at hnil
    have hitem : journalHead crc before.length ((before ++ bytes).drop before.length) =
        .item ⟨before.length, (bytes.take e).drop s⟩ n := by
      rw [hrest, hframe, frameHead, hok]
    rw [plainScan_item crc _ _ _ _ hitem] at hnil
    cases hnil
  · intro hno
    refine ⟨reader, ?_⟩
    have hstop : ∃ state, journalHead crc before.length ((before ++ bytes).drop before.length) =
        .stop state := by
      rw [hrest, hframe, frameHead]
      cases hdec : decodeFrame crc bytes with
      | ok n s e => exact absurd hdec (hno n s e)
      | truncated => exact ⟨_, rfl⟩
      | badMagic => exact ⟨_, rfl⟩
      | lengthOverflow => exact ⟨_, rfl⟩
      | checksumMismatch => exact ⟨_, rfl⟩
    obtain ⟨state, hstate⟩ := hstop
    rw [hreplay, plainScan_stop crc _ _ state hstate]

theorem flipBit_head (payload suffix : Bytes) (i : ℕ) (bit : Fin 8) :
    ∃ b rest, flipBit (frameBytes castagnoli payload ++ suffix) i bit = b :: rest ∧ b ≠ 0 := by
  obtain ⟨tail, htail⟩ := frameBytes_head castagnoli payload
  rw [htail]
  cases i with
  | zero =>
    have hbit : ∀ bit : Fin 8, (0x46 : UInt8) ^^^ (1 <<< UInt8.ofNat bit) ≠ 0 := by decide
    exact ⟨_, tail ++ suffix, rfl, hbit bit⟩
  | succ i => exact ⟨0x46, _, rfl, by decide⟩

theorem decodeFrame_flip_iff (payload suffix : Bytes) (i : ℕ) (bit : Fin 8) (hfit : Fits payload)
    (hi : i < payload.length + frameOverhead) :
    (∃ n s e, decodeFrame castagnoli
      (flipBit (frameBytes castagnoli payload ++ suffix) i bit) = .ok n s e) ↔
      4 ≤ i ∧ i < 8 ∧ Aliased payload (frameBytes castagnoli payload ++ suffix) (i - 4) bit := by
  rcases Nat.lt_or_ge i 4 with h4 | h4
  · rw [decodeFrame_flip_magic payload suffix i bit h4]
    simp only [reduceCtorEq, exists_false, false_iff]
    omega
  · rcases Nat.lt_or_ge i 8 with h8 | h8
    · have h := decodeFrame_flip_length payload suffix (i - 4) bit (by omega)
      rw [show 4 + (i - 4) = i by omega] at h
      rw [h]
      simp only [h4, h8, true_and]
    · rw [decodeFrame_flip_body payload suffix i bit hfit h8 hi]
      simp only [reduceCtorEq, exists_false, false_iff]
      omega

/-- One flipped bit is detected, by the decoder and so by a replay from there, unless it is
a bit of the length field and the bytes also read as a frame of the length it then
declares. -/
theorem single_bit_flip_detected_iff (payload frame suffix before : Bytes) (i : ℕ) (bit : Fin 8)
    (extra : ℕ → ℕ) (henc : encodeFrameOwned castagnoli payload = .ok frame)
    (hi : i < frame.length) :
    ((∀ n s e, decodeFrame castagnoli (flipBit frame i bit ++ suffix) ≠ .ok n s e) ↔
      ¬ (4 ≤ i ∧ i < 8 ∧ Aliased payload (frame ++ suffix) (i - 4) bit)) ∧
    ((∃ reader, replay castagnoli (shortReads extra)
        ((JournalReader.open (before ++ (flipBit frame i bit ++ suffix))).seekTo before.length) =
          some (.ok [], reader)) ↔
      ¬ (4 ≤ i ∧ i < 8 ∧ Aliased payload (frame ++ suffix) (i - 4) bit)) := by
  obtain ⟨hfit, hframe⟩ := (encodeFrameOwned_ok_iff castagnoli payload frame).mp henc
  rw [hframe, length_frameBytes] at hi
  have hflip : flipBit frame i bit ++ suffix = flipBit (frame ++ suffix) i bit := by
    rw [hframe, flipBit_append_left _ _ _ _ (by rw [length_frameBytes]; exact hi)]
  have hdec := decodeFrame_flip_iff payload suffix i bit hfit hi
  rw [hflip, hframe, replay_nil_iff castagnoli before _ extra (flipBit_head payload suffix i bit),
    ← hdec]
  simp only [not_exists, ne_eq, and_self]

/-- The payload `[7]`, the last bit of its checksum flipped. -/
theorem single_bit_flip_detected_iff_seven :
    encodeFrameOwned castagnoli [7] = .ok [70, 83, 89, 1, 1, 0, 0, 0, 7, 138, 64, 98, 223] ∧
      ∀ n s e, decodeFrame castagnoli
        (flipBit [70, 83, 89, 1, 1, 0, 0, 0, 7, 138, 64, 98, 223] 12 7 ++ []) ≠ .ok n s e := by
  have henc : encodeFrameOwned castagnoli [7] =
      .ok [70, 83, 89, 1, 1, 0, 0, 0, 7, 138, 64, 98, 223] := by decide +kernel
  exact ⟨henc, (single_bit_flip_detected_iff [7] _ [] [] 12 7 (fun _ => 0) henc
    (by decide)).1.mpr (by omega)⟩

/-- A payload that spells the checksum of the empty frame: once bit 2 of the length falls,
the frame reads as an empty record. -/
theorem flipped_length_is_accepted :
    ¬ ∀ (payload frame suffix : Bytes) (i : ℕ) (bit : Fin 8),
      encodeFrameOwned castagnoli payload = .ok frame → i < frame.length →
      ∀ n s e, decodeFrame castagnoli (flipBit frame i bit ++ suffix) ≠ .ok n s e := by
  intro h
  exact h [96, 254, 139, 2] [70, 83, 89, 1, 4, 0, 0, 0, 96, 254, 139, 2, 170, 201, 122, 105] [] 4 2
    (by decide +kernel) (by decide) 12 8 8 (by decide +kernel)

end Fsys.Journal
