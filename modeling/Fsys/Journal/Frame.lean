import Fsys.Base.Prog
import Fsys.Base.Words

/-!
# Journal frames (src/journal/format.rs)

A record is wrapped in a 12-byte frame: the magic `46 53 59 01` (big endian),
the payload length (little endian), the payload and the CRC-32C of everything
before it (little endian). The checksum comes from the `crc32c` crate, so it is
a parameter here: `Crc` holds its one-shot and incremental entry points and the
documented law that relates them.
-/

namespace Fsys.Journal
open Fsys.Base

/-- The two entry points of the `crc32c` crate (`format.rs:136-176`). The
incremental form continues a finished checksum; `Crc32cBuilder` starts at 0. -/
structure Crc where
  sum : Bytes → UInt32
  append : UInt32 → Bytes → UInt32
  sum_nil : sum [] = 0
  append_sum : ∀ as bs, append (sum as) bs = sum (as ++ bs)

/-! ### CRC-32C

The checksum of RFC 3720: reflected polynomial `0x82F63B78`, register preset
and final complement all ones. -/

def crcBit (c : UInt32) : UInt32 :=
  if c &&& 1 = 1 then (c >>> 1) ^^^ 0x82F63B78 else c >>> 1

def crcByte (c : UInt32) (b : UInt8) : UInt32 :=
  crcBit (crcBit (crcBit (crcBit (crcBit (crcBit (crcBit (crcBit (c ^^^ b.toUInt32))))))))

/-- CRC-32C as a `Crc`. -/
def castagnoli : Crc where
  sum bs := ~~~(bs.foldl crcByte 0xFFFFFFFF)
  append c bs := ~~~(bs.foldl crcByte (~~~c))
  sum_nil := by decide
  append_sum as bs := by
    rw [UInt32.not_not, List.foldl_append]

/-! ### Encoding -/

/-- `FRAME_MAGIC_V1`. -/
def frameMagicV1 : ℕ := 0x46535901

/-- `FRAME_OVERHEAD`. -/
def frameOverhead : ℕ := 12

/-- `FRAME_MAX_PAYLOAD`. -/
def frameMaxPayload : ℕ := 2 ^ 28 - 1

/-- A payload `append` accepts. -/
def Fits (payload : Bytes) : Prop := payload.length ≤ frameMaxPayload

instance (payload : Bytes) : Decidable (Fits payload) :=
  inferInstanceAs (Decidable (_ ≤ _))

def payloadTooLong : IoError :=
  ⟨.invalidInput, "journal record exceeds FRAME_MAX_PAYLOAD (256 MiB)"⟩

/-- `frame_len` (`format.rs:227-238`). -/
def frameLen (payloadLen : ℕ) : Except IoError ℕ :=
  if payloadLen > frameMaxPayload then .error payloadTooLong
  else .ok (payloadLen + frameOverhead)

/-- `frame_header` (`format.rs:255-261`). -/
def frameHeader (len : ℕ) : Bytes := beBytes frameMagicV1 ++ leBytes len

/-- `frame_crc` (`format.rs:266-272`): header and payload fed to the builder in turn. -/
def frameCrc (crc : Crc) (header payload : Bytes) : Bytes :=
  leBytes (crc.append (crc.append 0 header) payload).toNat

/-- The bytes of the frame for `payload`. -/
def frameBytes (crc : Crc) (payload : Bytes) : Bytes :=
  let header := frameHeader payload.length
  header ++ payload ++ leBytes (crc.sum (header ++ payload)).toNat

/-- `encode_frame_into` (`format.rs:187-216`): the result and the buffer afterwards. -/
def encodeFrameInto (crc : Crc) (payload buf : Bytes) : Except IoError ℕ × Bytes :=
  let total := payload.length + frameOverhead
  if buf.length < total then
    (.error ⟨.invalidInput, "encode_frame_into: buffer too small"⟩, buf)
  else if payload.length > frameMaxPayload then (.error payloadTooLong, buf)
  else
    let buf := overlay buf 0 (beBytes frameMagicV1)
    let buf := overlay buf 4 (leBytes payload.length)
    let buf := overlay buf 8 payload
    let sum := crc.sum (buf.take (8 + payload.length))
    (.ok total, overlay buf (8 + payload.length) (leBytes sum.toNat))

/-- `encode_frame_owned` (`format.rs:244-249`). -/
def encodeFrameOwned (crc : Crc) (payload : Bytes) : Except IoError Bytes := do
  let total ← frameLen payload.length
  let (result, buf) := encodeFrameInto crc payload (zeros total)
  let _ ← result
  pure buf

/-- `MaybeUninit<u8>`: a byte, once one was written. -/
abbrev MaybeUninit := Option UInt8

/-- The `dst.write(*src)` loop over two zipped iterators. -/
def writeEach : List MaybeUninit → Bytes → List MaybeUninit
  | [], _ => []
  | dsts, [] => dsts
  | _ :: dsts, src :: srcs => some src :: writeEach dsts srcs

/-- The cast of the written cells to initialized bytes. A cell nobody wrote would be read
as it is: zero here. -/
def assumeInit (cells : List MaybeUninit) : Bytes := cells.map fun cell => cell.getD 0

/-- `encode_frame_into_uninit` (`format.rs:290-319`): the slice it returns and the buffer
afterwards. -/
def encodeFrameIntoUninit (crc : Crc) (payload : Bytes) (out : List MaybeUninit) :
    Except IoError Bytes × List MaybeUninit :=
  match frameLen payload.length with
  | .error e => (.error e, out)
  | .ok total =>
    if out.length < total then
      (.error ⟨.invalidInput, "encode_frame_into_uninit: buffer too small"⟩, out)
    else
      let header := frameHeader payload.length
      let sum := frameCrc crc header payload
      let cells := writeEach (out.take total) (header ++ payload ++ sum)
      (.ok (assumeInit cells), cells ++ out.drop total)

/-- `encode_frame_extend` (`format.rs:328-336`): the result and the vector afterwards. -/
def encodeFrameExtend (crc : Crc) (payload out : Bytes) : Except IoError ℕ × Bytes :=
  match frameLen payload.length with
  | .error e => (.error e, out)
  | .ok total =>
    let header := frameHeader payload.length
    let sum := frameCrc crc header payload
    (.ok total, out ++ header ++ payload ++ sum)

@[simp] theorem length_frameHeader (len : ℕ) : (frameHeader len).length = 8 := rfl

@[simp] theorem length_frameBytes (crc : Crc) (payload : Bytes) :
    (frameBytes crc payload).length = payload.length + frameOverhead := by
  simp only [frameBytes, List.length_append, length_frameHeader, length_leBytes, frameOverhead]
  omega

theorem frameLen_ok (payload : Bytes) (h : Fits payload) :
    frameLen payload.length = .ok (payload.length + frameOverhead) := by
  unfold frameLen
  rw [if_neg (Nat.not_lt.mpr h)]

theorem frameLen_error (payload : Bytes) (h : ¬ Fits payload) :
    frameLen payload.length = .error payloadTooLong := by
  unfold frameLen
  rw [if_pos (Nat.lt_of_not_le h)]

/-- The builder over header and payload is the one-shot checksum of both. -/
theorem frameCrc_eq (crc : Crc) (header payload : Bytes) :
    frameCrc crc header payload = leBytes (crc.sum (header ++ payload)).toNat := by
  have h0 : crc.append 0 header = crc.sum header := by
    have h := crc.append_sum [] header
    rw [crc.sum_nil, List.nil_append] at h
    exact h
  rw [frameCrc, h0, crc.append_sum]

theorem encodeFrameExtend_ok (crc : Crc) (payload out : Bytes) (h : Fits payload) :
    encodeFrameExtend crc payload out =
      (.ok (payload.length + frameOverhead), out ++ frameBytes crc payload) := by
  simp only [encodeFrameExtend, frameLen_ok payload h, frameCrc_eq, frameBytes,
    List.append_assoc]

theorem writeEach_eq (dsts : List MaybeUninit) (srcs : Bytes) (h : dsts.length = srcs.length) :
    writeEach dsts srcs = srcs.map some := by
  induction srcs generalizing dsts with
  | nil => cases dsts with
    | nil => rfl
    | cons _ _ => cases h
  | cons src srcs ih => cases dsts with
    | nil => cases h
    | cons dst dsts => simp only [writeEach, List.map_cons, ih dsts (Nat.succ.inj h)]

theorem assumeInit_map_some (bs : Bytes) : assumeInit (bs.map some) = bs := by
  simp [assumeInit]

/-- Every cell of the frame is written, so the cast reads nothing uninitialized. -/
theorem encodeFrameIntoUninit_ok (crc : Crc) (payload : Bytes) (out : List MaybeUninit)
    (h : Fits payload) (hb : payload.length + frameOverhead ≤ out.length) :
    encodeFrameIntoUninit crc payload out =
      (.ok (frameBytes crc payload),
        (frameBytes crc payload).map some ++ out.drop (payload.length + frameOverhead)) := by
  have hbytes : frameHeader payload.length ++ payload ++
      frameCrc crc (frameHeader payload.length) payload = frameBytes crc payload := by
    rw [frameCrc_eq]
    rfl
  have hcells : writeEach (out.take (payload.length + frameOverhead)) (frameBytes crc payload) =
      (frameBytes crc payload).map some := by
    apply writeEach_eq
    rw [List.length_take, length_frameBytes]
    exact Nat.min_eq_left hb
  simp only [encodeFrameIntoUninit, frameLen_ok payload h, if_neg (Nat.not_lt.mpr hb), hbytes,
    hcells, assumeInit_map_some]

/-- `encode_frame_into` puts the frame at the start of the buffer and keeps the rest. -/
theorem encodeFrameInto_ok (crc : Crc) (payload buf : Bytes) (h : Fits payload)
    (hb : payload.length + frameOverhead ≤ buf.length) :
    encodeFrameInto crc payload buf =
      (.ok (payload.length + frameOverhead),
        frameBytes crc payload ++ buf.drop (payload.length + frameOverhead)) := by
  have h1 : overlay buf 0 (beBytes frameMagicV1) = beBytes frameMagicV1 ++ buf.drop 4 :=
    overlay_append [] buf (beBytes frameMagicV1) 0 rfl
  have h2 : overlay (beBytes frameMagicV1 ++ buf.drop 4) 4 (leBytes payload.length) =
      frameHeader payload.length ++ buf.drop 8 := by
    rw [overlay_append _ _ _ 4 rfl, List.drop_drop]
    rfl
  have h3 : overlay (frameHeader payload.length ++ buf.drop 8) 8 payload =
      frameHeader payload.length ++ payload ++ buf.drop (8 + payload.length) := by
    rw [overlay_append _ _ _ 8 rfl, List.drop_drop]
  have hl : (frameHeader payload.length ++ payload).length = 8 + payload.length := by
    rw [List.length_append, length_frameHeader]
  have h4 : (frameHeader payload.length ++ payload ++ buf.drop (8 + payload.length)).take
      (8 + payload.length) = frameHeader payload.length ++ payload := by
    rw [← hl, List.take_left]
  unfold encodeFrameInto
  simp only [if_neg (Nat.not_lt.mpr hb), if_neg (Nat.not_lt.mpr h), h1, h2, h3, h4]
  rw [overlay_append _ _ _ (8 + payload.length) hl.symm, List.drop_drop]
  simp only [frameBytes, length_leBytes, frameOverhead]
  rw [show 8 + payload.length + 4 = payload.length + 12 by omega]

theorem encodeFrameOwned_ok (crc : Crc) (payload : Bytes) (h : Fits payload) :
    encodeFrameOwned crc payload = .ok (frameBytes crc payload) := by
  have hz : payload.length + frameOverhead ≤ (zeros (payload.length + frameOverhead)).length := by
    rw [length_zeros]
  unfold encodeFrameOwned
  rw [frameLen_ok payload h]
  simp only [bind, Except.bind, encodeFrameInto_ok crc payload _ h hz, drop_zeros, Nat.sub_self,
    zeros_zero, List.append_nil]
  rfl

/-! ### Decoding -/

/-- `FrameDecode` (`format.rs:339-364`). -/
inductive FrameDecode where
  | ok (consumed payloadStart payloadEnd : ℕ)
  | truncated
  | badMagic
  | lengthOverflow
  | checksumMismatch
  deriving DecidableEq, Repr

/-- `decode_frame` (`format.rs:371-404`). -/
def decodeFrame (crc : Crc) (bytes : Bytes) : FrameDecode :=
  if bytes.length < 8 then .truncated
  else if beAt bytes 0 ≠ frameMagicV1 then .badMagic
  else
    let length := leAt bytes 4
    if length > frameMaxPayload then .lengthOverflow
    else
      let total := 8 + length + 4
      if bytes.length < total then .truncated
      else
        let computed := crc.sum (bytes.take (8 + length))
        let stored := leAt bytes (8 + length)
        if computed.toNat ≠ stored then .checksumMismatch
        else .ok total 8 (8 + length)

/-- What a decode that is not `Truncated` says does not depend on bytes behind it. -/
theorem decodeFrame_append (crc : Crc) (bs rest : Bytes)
    (h : decodeFrame crc bs ≠ .truncated) :
    decodeFrame crc (bs ++ rest) = decodeFrame crc bs := by
  unfold decodeFrame at h ⊢
  by_cases h8 : bs.length < 8
  · simp [h8] at h
  · have h8' : ¬ (bs ++ rest).length < 8 := by
      rw [List.length_append]
      omega
    have hm : beAt (bs ++ rest) 0 = beAt bs 0 := beAt_append_left bs rest 0 (by omega)
    have hl : leAt (bs ++ rest) 4 = leAt bs 4 := leAt_append_left bs rest 4 (by omega)
    simp only [h8, h8', if_false, hm, hl] at h ⊢
    by_cases hmag : beAt bs 0 ≠ frameMagicV1
    · rw [if_pos hmag, if_pos hmag]
    · rw [if_neg hmag] at h ⊢
      rw [if_neg hmag]
      by_cases hlen : leAt bs 4 > frameMaxPayload
      · rw [if_pos hlen, if_pos hlen]
      · rw [if_neg hlen] at h ⊢
        rw [if_neg hlen]
        by_cases ht : bs.length < 8 + leAt bs 4 + 4
        · rw [if_pos ht] at h
          exact absurd rfl h
        · have ht' : ¬ (bs ++ rest).length < 8 + leAt bs 4 + 4 := by
            rw [List.length_append]
            omega
          have hs : leAt (bs ++ rest) (8 + leAt bs 4) = leAt bs (8 + leAt bs 4) :=
            leAt_append_left bs rest _ (by omega)
          have hk : (bs ++ rest).take (8 + leAt bs 4) = bs.take (8 + leAt bs 4) :=
            List.take_append_of_le_length (by omega)
          rw [if_neg ht, if_neg ht', hs, hk]

/-- Everything a successful decode checked. -/
theorem decodeFrame_ok_iff (crc : Crc) (bs : Bytes) (n s e : ℕ) :
    decodeFrame crc bs = .ok n s e ↔
      beAt bs 0 = frameMagicV1 ∧ leAt bs 4 ≤ frameMaxPayload ∧ n = leAt bs 4 + frameOverhead ∧
      n ≤ bs.length ∧ s = 8 ∧ e = 8 + leAt bs 4 ∧
      (crc.sum (bs.take e)).toNat = leAt bs e := by
  unfold decodeFrame frameOverhead
  dsimp only
  constructor
  · intro h
    split at h
    · cases h
    · split at h
      · cases h
      · split at h
        · cases h
        · split at h
          · cases h
          · split at h
            · cases h
            · cases h
              refine ⟨by simpa using ‹¬ beAt bs 0 ≠ _›, by omega, by omega, by omega, rfl, rfl, ?_⟩
              simpa using ‹¬ _ ≠ leAt bs _›
  · rintro ⟨hm, hl, rfl, hn, rfl, rfl, hs⟩
    have h8 : ¬ bs.length < 8 := by omega
    have hl' : ¬ leAt bs 4 > frameMaxPayload := by omega
    have ht : ¬ bs.length < 8 + leAt bs 4 + 4 := by omega
    simp only [h8, hm, hl', ht, hs, ne_eq, not_true_eq_false, if_false]
    congr 1
    omega

/-- A truncated decode wants more bytes than there are, and says how many. -/
theorem decodeFrame_truncated (crc : Crc) (bs : Bytes) (h : decodeFrame crc bs = .truncated) :
    bs.length < 8 ∨ (8 ≤ bs.length ∧ leAt bs 4 ≤ frameMaxPayload ∧
      bs.length < frameOverhead + leAt bs 4) := by
  unfold decodeFrame at h
  dsimp only at h
  split at h
  · exact Or.inl ‹_›
  · split at h
    · cases h
    · split at h
      · cases h
      · split at h
        · rename_i h8 _ hmax htotal
          refine Or.inr ⟨Nat.le_of_not_lt h8, Nat.le_of_not_lt hmax, ?_⟩
          unfold frameOverhead
          omega
        · split at h <;> cases h

theorem beAt_frameBytes (crc : Crc) (payload rest : Bytes) :
    beAt (frameBytes crc payload ++ rest) 0 = frameMagicV1 := by
  simp only [frameBytes, frameHeader, List.append_assoc]
  rw [beAt_append_left _ _ 0 (by simp)]
  exact beAt_beBytes frameMagicV1 (by decide)

theorem leAt_frameBytes (crc : Crc) (payload rest : Bytes) (h : Fits payload) :
    leAt (frameBytes crc payload ++ rest) 4 = payload.length := by
  have hlt : payload.length < 2 ^ 32 := by
    unfold Fits frameMaxPayload at h
    omega
  simp only [frameBytes, frameHeader, List.append_assoc]
  have h4 := leAt_append_right (beBytes frameMagicV1)
    (leBytes payload.length ++ (payload ++ (leBytes
      (crc.sum (beBytes frameMagicV1 ++ (leBytes payload.length ++ payload))).toNat ++ rest))) 0
  rw [length_beBytes, Nat.add_zero] at h4
  rw [h4, leAt_append_left _ _ 0 (by simp), leAt_leBytes _ hlt]

/-- Decoding undoes encoding, whatever follows the frame. -/
theorem decodeFrame_frameBytes (crc : Crc) (payload rest : Bytes) (h : Fits payload) :
    decodeFrame crc (frameBytes crc payload ++ rest) =
      .ok (payload.length + frameOverhead) 8 (8 + payload.length) := by
  rw [decodeFrame_ok_iff]
  have hlen := leAt_frameBytes crc payload rest h
  have hh : (frameHeader payload.length ++ payload).length = 8 + payload.length := by
    rw [List.length_append, length_frameHeader]
  have hsplit : frameBytes crc payload ++ rest = (frameHeader payload.length ++ payload) ++
      (leBytes (crc.sum (frameHeader payload.length ++ payload)).toNat ++ rest) := by
    simp only [frameBytes, List.append_assoc]
  refine ⟨beAt_frameBytes crc payload rest, by rw [hlen]; exact h, by rw [hlen], ?_, rfl,
    by rw [hlen], ?_⟩
  · rw [List.length_append, length_frameBytes]
    omega
  · have hs := leAt_append_right (frameHeader payload.length ++ payload)
      (leBytes (crc.sum (frameHeader payload.length ++ payload)).toNat ++ rest) 0
    rw [hh, Nat.add_zero, ← hsplit] at hs
    have ht : (frameBytes crc payload ++ rest).take (8 + payload.length) =
        frameHeader payload.length ++ payload := by
      rw [hsplit, ← hh, List.take_left]
    rw [hs, ht, leAt_append_left _ _ 0 (by simp),
      leAt_leBytes _ (UInt32.toNat_lt _)]

/-- Encoding undoes decoding: an accepted prefix is the frame of its payload range. -/
theorem decodeFrame_sound (crc : Crc) (bs : Bytes) (n s e : ℕ)
    (h : decodeFrame crc bs = .ok n s e) :
    Fits ((bs.take e).drop s) ∧ n = ((bs.take e).drop s).length + frameOverhead ∧
      bs.take n = frameBytes crc ((bs.take e).drop s) := by
  obtain ⟨hm, hl, hn, hle, rfl, rfl, hs⟩ := (decodeFrame_ok_iff crc bs n s e).mp h
  unfold frameOverhead at hn
  have hplen : ((bs.take (8 + leAt bs 4)).drop 8).length = leAt bs 4 := by
    rw [List.length_drop, List.length_take]
    omega
  have hhead : bs.take 8 = frameHeader (leAt bs 4) := by
    rw [frameHeader, ← hm, beBytes_take bs (by omega), leBytes_slice bs 4 (by omega),
      List.take_add (i := 4) (j := 4)]
  have hbody : bs.take (8 + leAt bs 4) =
      frameHeader (leAt bs 4) ++ (bs.take (8 + leAt bs 4)).drop 8 := by
    conv_lhs => rw [← List.take_append_drop 8 (bs.take (8 + leAt bs 4))]
    rw [List.take_take, Nat.min_eq_left (by omega), hhead]
  refine ⟨by rw [Fits, hplen]; exact hl, by rw [hplen, frameOverhead]; exact hn, ?_⟩
  rw [hn, show leAt bs 4 + 12 = 8 + leAt bs 4 + 4 by omega,
    List.take_add (i := 8 + leAt bs 4) (j := 4), ← leBytes_slice bs (8 + leAt bs 4) (by omega),
    ← hs, frameBytes, hplen, ← hbody]

/-- The payload range of an encoded frame is the payload. -/
theorem payload_frameBytes (crc : Crc) (payload rest : Bytes) :
    ((frameBytes crc payload ++ rest).take (8 + payload.length)).drop 8 = payload := by
  have hh : (frameHeader payload.length ++ payload).length = 8 + payload.length := by
    rw [List.length_append, length_frameHeader]
  have hsplit : frameBytes crc payload ++ rest = (frameHeader payload.length ++ payload) ++
      (leBytes (crc.sum (frameHeader payload.length ++ payload)).toNat ++ rest) := by
    simp only [frameBytes, List.append_assoc]
  rw [hsplit, ← hh, List.take_left]
  show (frameHeader payload.length ++ payload).drop (frameHeader payload.length).length = payload
  exact List.drop_left

/-- A proper prefix of a frame that holds the header decodes as truncated, and so
does one that does not. -/
theorem decodeFrame_take (crc : Crc) (payload : Bytes) (h : Fits payload) (n : ℕ)
    (hn : n < payload.length + frameOverhead) :
    decodeFrame crc ((frameBytes crc payload).take n) = .truncated := by
  have hlen : ((frameBytes crc payload).take n).length = n := by
    rw [List.length_take, length_frameBytes]
    omega
  unfold decodeFrame
  by_cases h8 : n < 8
  · simp only [hlen, h8, if_true]
  · have hsplit := List.take_append_drop n (frameBytes crc payload)
    have hm : beAt ((frameBytes crc payload).take n) 0 = frameMagicV1 := by
      have h1 := beAt_append_left ((frameBytes crc payload).take n)
        ((frameBytes crc payload).drop n) 0 (by omega)
      rw [hsplit] at h1
      have h2 := beAt_frameBytes crc payload []
      rw [List.append_nil] at h2
      rw [← h1, h2]
    have hl : leAt ((frameBytes crc payload).take n) 4 = payload.length := by
      have h1 := leAt_append_left ((frameBytes crc payload).take n)
        ((frameBytes crc payload).drop n) 4 (by omega)
      rw [hsplit] at h1
      have h2 := leAt_frameBytes crc payload [] h
      rw [List.append_nil] at h2
      rw [← h1, h2]
    have hle : ¬ payload.length > frameMaxPayload := Nat.not_lt.mpr h
    have ht : n < 8 + payload.length + 4 := by
      unfold frameOverhead at hn
      omega
    simp only [hlen, h8, hm, hl, hle, ht, ne_eq, not_true_eq_false, if_false, if_true]

/-- A frame starts with the non-zero byte `0x46`. -/
theorem frameBytes_head (crc : Crc) (payload : Bytes) :
    ∃ tail, frameBytes crc payload = 0x46 :: tail := by
  exact ⟨_, rfl⟩

/-! ### The codec as a whole -/

theorem encodeFrameInto_error (crc : Crc) (payload buf : Bytes)
    (h : ¬ Fits payload ∨ buf.length < payload.length + frameOverhead) :
    ∃ e, encodeFrameInto crc payload buf = (.error e, buf) := by
  by_cases hb : buf.length < payload.length + frameOverhead
  · simp [encodeFrameInto, hb]
  · have hlong : payload.length > frameMaxPayload := Nat.lt_of_not_le (h.resolve_right hb)
    simp [encodeFrameInto, hb, hlong]

theorem encodeFrameIntoUninit_error (crc : Crc) (payload : Bytes) (out : List MaybeUninit)
    (h : ¬ Fits payload ∨ out.length < payload.length + frameOverhead) :
    ∃ e, encodeFrameIntoUninit crc payload out = (.error e, out) := by
  by_cases hfit : Fits payload
  · have hb := h.resolve_left (not_not_intro hfit)
    simp [encodeFrameIntoUninit, frameLen_ok payload hfit, hb]
  · simp [encodeFrameIntoUninit, frameLen_error payload hfit]

theorem encodeFrameExtend_error (crc : Crc) (payload out : Bytes) (h : ¬ Fits payload) :
    encodeFrameExtend crc payload out = (.error payloadTooLong, out) := by
  simp [encodeFrameExtend, frameLen_error payload h]

theorem encodeFrameOwned_error (crc : Crc) (payload : Bytes) (h : ¬ Fits payload) :
    encodeFrameOwned crc payload = .error payloadTooLong := by
  unfold encodeFrameOwned
  rw [frameLen_error payload h]
  rfl

theorem encodeFrameOwned_ok_iff (crc : Crc) (payload frame : Bytes) :
    encodeFrameOwned crc payload = .ok frame ↔ Fits payload ∧ frame = frameBytes crc payload := by
  by_cases hfit : Fits payload
  · rw [encodeFrameOwned_ok crc payload hfit, Except.ok.injEq]
    simp only [hfit, true_and]
    exact eq_comm
  · rw [encodeFrameOwned_error crc payload hfit]
    simp [hfit]

/-- One encoding for all four encoders. Each rejects a payload exactly when it is too
long, the two with a buffer of a given size also when it does not fit there, and a
rejected payload leaves the output as it was. -/
theorem frame_encoders_agree (crc : Crc) (payload buf vec : Bytes) (out : List MaybeUninit) :
    (Fits payload → ∃ frame, frameLen payload.length = .ok frame.length ∧
      encodeFrameOwned crc payload = .ok frame ∧
      encodeFrameExtend crc payload vec = (.ok frame.length, vec ++ frame) ∧
      (frame.length ≤ buf.length → encodeFrameInto crc payload buf =
        (.ok frame.length, frame ++ buf.drop frame.length)) ∧
      (frame.length ≤ out.length → encodeFrameIntoUninit crc payload out =
        (.ok frame, frame.map some ++ out.drop frame.length))) ∧
    (payload.length > frameMaxPayload ↔ ∃ e, encodeFrameOwned crc payload = .error e) ∧
    (payload.length > frameMaxPayload ↔ ∃ e, encodeFrameExtend crc payload vec = (.error e, vec)) ∧
    (payload.length > frameMaxPayload ∨ buf.length < payload.length + frameOverhead ↔
      ∃ e, encodeFrameInto crc payload buf = (.error e, buf)) ∧
    (payload.length > frameMaxPayload ∨ out.length < payload.length + frameOverhead ↔
      ∃ e, encodeFrameIntoUninit crc payload out = (.error e, out)) := by
  have hlong : payload.length > frameMaxPayload ↔ ¬ Fits payload := Nat.not_le.symm
  simp only [hlong]
  refine ⟨?_, ?_, ?_, ?_, ?_⟩
  · intro hfit
    refine ⟨frameBytes crc payload, ?_, encodeFrameOwned_ok crc payload hfit, ?_, ?_, ?_⟩
    · rw [length_frameBytes, frameLen_ok payload hfit]
    · rw [length_frameBytes, encodeFrameExtend_ok crc payload vec hfit]
    · rw [length_frameBytes]
      exact encodeFrameInto_ok crc payload buf hfit
    · rw [length_frameBytes]
      exact encodeFrameIntoUninit_ok crc payload out hfit
  · constructor
    · exact fun h => ⟨_, encodeFrameOwned_error crc payload h⟩
    · intro ⟨e, he⟩ hfit
      rw [encodeFrameOwned_ok crc payload hfit] at he
      cases he
  · constructor
    · exact fun h => ⟨_, encodeFrameExtend_error crc payload vec h⟩
    · intro ⟨e, he⟩ hfit
      rw [encodeFrameExtend_ok crc payload vec hfit] at he
      cases he
  · constructor
    · exact encodeFrameInto_error crc payload buf
    · intro ⟨e, he⟩
      by_contra hno
      rw [not_or, not_not, Nat.not_lt] at hno
      rw [encodeFrameInto_ok crc payload buf hno.1 hno.2] at he
      cases he
  · constructor
    · exact encodeFrameIntoUninit_error crc payload out
    · intro ⟨e, he⟩
      by_contra hno
      rw [not_or, not_not, Nat.not_lt] at hno
      rw [encodeFrameIntoUninit_ok crc payload out hno.1 hno.2] at he
      cases he

/-- A buffer of the right length becomes the encoding, whatever it held. -/
theorem encodeFrameInto_exact (crc : Crc) (payload out : Bytes) (h : Fits payload)
    (hout : out.length = payload.length + frameOverhead) :
    encodeFrameInto crc payload out =
      (.ok (payload.length + frameOverhead), frameBytes crc payload) := by
  rw [encodeFrameInto_ok crc payload out h (Nat.le_of_eq hout.symm), ← hout, List.drop_length,
    List.append_nil]

/-- A prefix that is an encoding decodes to its payload. -/
theorem decodeFrame_of_encoding (crc : Crc) (buf payload : Bytes) (n : ℕ) (h : Fits payload)
    (hn : n = payload.length + frameOverhead)
    (henc : ∀ out : Bytes, out.length = n → encodeFrameInto crc payload out = (.ok n, buf.take n)) :
    decodeFrame crc buf = .ok n 8 (8 + payload.length) ∧
      (buf.take (8 + payload.length)).drop 8 = payload := by
  have htake : buf.take n = frameBytes crc payload := by
    have h1 := henc (zeros n) (length_zeros n)
    rw [encodeFrameInto_exact crc payload (zeros n) h ((length_zeros n).trans hn)] at h1
    exact (congrArg Prod.snd h1).symm
  have hsplit : buf = frameBytes crc payload ++ buf.drop n := by
    rw [← htake, List.take_append_drop]
  rw [hsplit]
  refine ⟨?_, payload_frameBytes crc payload _⟩
  rw [decodeFrame_frameBytes crc payload _ h, hn]

/-- The decoder accepts exactly the encodings, with the payload between header and
checksum, whatever the buffer held that `encode_frame_into` wrote to. -/
theorem decode_frame_iff_encoding (crc : Crc) (buf : Bytes) :
    (∀ n s e, decodeFrame crc buf = .ok n s e ↔
      s = 8 ∧ e = n - 4 ∧ Fits ((buf.take e).drop s) ∧
      n = ((buf.take e).drop s).length + frameOverhead ∧
      ∀ out : Bytes, out.length = n →
        encodeFrameInto crc ((buf.take e).drop s) out = (.ok n, buf.take n)) ∧
    (∀ n payload, (∃ s e, decodeFrame crc buf = .ok n s e ∧ (buf.take e).drop s = payload) ↔
      Fits payload ∧ n = payload.length + frameOverhead ∧
      ∀ out : Bytes, out.length = n → encodeFrameInto crc payload out = (.ok n, buf.take n)) ∧
    (∀ payload frame rest, encodeFrameOwned crc payload = .ok frame →
      decodeFrame crc (frame ++ rest) = .ok frame.length 8 (8 + payload.length) ∧
      ((frame ++ rest).take (8 + payload.length)).drop 8 = payload) ∧
    (∀ n s e, decodeFrame crc buf = .ok n s e →
      encodeFrameOwned crc ((buf.take e).drop s) = .ok (buf.take n)) := by
  have hsound : ∀ n s e, decodeFrame crc buf = .ok n s e →
      Fits ((buf.take e).drop s) ∧ n = ((buf.take e).drop s).length + frameOverhead ∧
      ∀ out : Bytes, out.length = n →
        encodeFrameInto crc ((buf.take e).drop s) out = (.ok n, buf.take n) := by
    intro n s e h
    obtain ⟨hfit, hn, htake⟩ := decodeFrame_sound crc buf n s e h
    refine ⟨hfit, hn, ?_⟩
    intro out hout
    rw [encodeFrameInto_exact crc _ out hfit (hout.trans hn), ← hn, htake]
  refine ⟨?_, ?_, ?_, ?_⟩
  · intro n s e
    constructor
    · intro h
      obtain ⟨hm, hl, hn, hle, hs, he, hsum⟩ := (decodeFrame_ok_iff crc buf n s e).mp h
      refine ⟨hs, ?_, hsound n s e h⟩
      unfold frameOverhead at hn
      omega
    · intro ⟨hs, he, hfit, hn, henc⟩
      subst hs
      have hdec := (decodeFrame_of_encoding crc buf _ n hfit hn henc).1
      rw [hdec]
      congr 1
      unfold frameOverhead at hn
      omega
  · intro n payload
    constructor
    · intro ⟨s, e, h, hp⟩
      rw [← hp]
      exact hsound n s e h
    · intro ⟨hfit, hn, henc⟩
      exact ⟨8, 8 + payload.length, decodeFrame_of_encoding crc buf payload n hfit hn henc⟩
  · intro payload frame rest h
    obtain ⟨hfit, hframe⟩ := (encodeFrameOwned_ok_iff crc payload frame).mp h
    rw [hframe, length_frameBytes]
    exact ⟨decodeFrame_frameBytes crc payload rest hfit, payload_frameBytes crc payload rest⟩
  · intro n s e h
    obtain ⟨hfit, hn, htake⟩ := decodeFrame_sound crc buf n s e h
    rw [encodeFrameOwned_ok crc _ hfit, htake]

end Fsys.Journal
