import Fsys.Base.Words

/-!
# Linear feedback shift registers fed with bytes

A register of `w` bits moves down one bit at a time and takes the exclusive or
with `poly` when a one falls out. Shifting is linear, and invertible when `poly`
has its top bit set; so the register tells apart any two byte strings that differ
in a window no wider than the register.
-/

namespace Fsys.Base.ShiftRegister

variable {w : ℕ} (poly : BitVec w)

/-! ### Shifting -/

def shift (c : BitVec w) : BitVec w :=
  if c.getLsbD 0 then (c >>> 1) ^^^ poly else c >>> 1

def shifts : ℕ → BitVec w → BitVec w
  | 0, c => c
  | n + 1, c => shifts n (shift poly c)

theorem shift_xor (a b : BitVec w) : shift poly (a ^^^ b) = shift poly a ^^^ shift poly b := by
  unfold shift
  rw [BitVec.getLsbD_xor, BitVec.ushiftRight_xor_distrib]
  cases a.getLsbD 0 <;> cases b.getLsbD 0
  · rfl
  · exact BitVec.xor_assoc _ _ _
  · simp only [Bool.xor_false, if_true, Bool.false_eq_true, if_false]
    ac_rfl
  · simp only [bne_self_eq_false, Bool.false_eq_true, if_false, if_true]
    calc (a >>> 1) ^^^ (b >>> 1)
        = (a >>> 1) ^^^ (b >>> 1) ^^^ (poly ^^^ poly) := by rw [BitVec.xor_self, BitVec.xor_zero]
      _ = (a >>> 1) ^^^ poly ^^^ ((b >>> 1) ^^^ poly) := by ac_rfl

theorem shifts_xor (n : ℕ) (a b : BitVec w) :
    shifts poly n (a ^^^ b) = shifts poly n a ^^^ shifts poly n b := by
  induction n generalizing a b with
  | zero => rfl
  | succ n ih => simp only [shifts, shift_xor, ih]

theorem shifts_add (m n : ℕ) (c : BitVec w) :
    shifts poly (m + n) c = shifts poly n (shifts poly m c) := by
  induction m generalizing c with
  | zero => rw [Nat.zero_add, shifts]
  | succ m ih => rw [Nat.succ_add, shifts, ih, shifts]

/-- Bits that are clear fall out and leave no trace. -/
theorem shifts_of_clear (n : ℕ) (c : BitVec w) (h : ∀ i < n, c.getLsbD i = false) :
    shifts poly n c = c >>> n := by
  induction n generalizing c with
  | zero => simp [shifts]
  | succ n ih =>
    have h0 : shift poly c = c >>> 1 := by simp [shift, h 0 (Nat.succ_pos n)]
    have hnext : ∀ i < n, (c >>> 1).getLsbD i = false := by
      intro i hi
      rw [BitVec.getLsbD_ushiftRight]
      exact h (1 + i) (by omega)
    rw [shifts, h0, ih (c >>> 1) hnext, ← BitVec.shiftRight_add, Nat.add_comm]

/-- The top bit of the result tells whether a one fell out. -/
theorem shift_eq_zero (hp : poly.msb = true) {c : BitVec w} (h : shift poly c = 0#w) : c = 0#w := by
  unfold shift at h
  split at h
  · have hpoly : c >>> 1 = poly := BitVec.xor_eq_zero_iff.mp h
    rw [← hpoly, BitVec.msb_ushiftRight] at hp
    simp at hp
  · rename_i hlow
    apply BitVec.eq_of_getLsbD_eq
    intro i _
    rw [BitVec.getLsbD_zero]
    cases i with
    | zero => simpa using hlow
    | succ i =>
      have hi := congrArg (fun x => x.getLsbD i) h
      simp only [BitVec.getLsbD_ushiftRight, BitVec.getLsbD_zero] at hi
      rwa [Nat.add_comm] at hi

theorem shift_injective (hp : poly.msb = true) : Function.Injective (shift poly) := by
  intro a b h
  apply BitVec.xor_eq_zero_iff.mp
  apply shift_eq_zero poly hp
  rw [shift_xor, h, BitVec.xor_self]

theorem shifts_injective (hp : poly.msb = true) (n : ℕ) : Function.Injective (shifts poly n) := by
  induction n with
  | zero => exact Function.injective_id
  | succ n ih => exact ih.comp (shift_injective poly hp)

/-! ### Feeding bytes -/

def feedByte (c : BitVec w) (b : UInt8) : BitVec w :=
  shifts poly 8 (c ^^^ b.toBitVec.setWidth w)

def feed (c : BitVec w) (bs : Bytes) : BitVec w := bs.foldl (feedByte poly) c

theorem feed_append (c : BitVec w) (as bs : Bytes) :
    feed poly c (as ++ bs) = feed poly (feed poly c as) bs := List.foldl_append

theorem feed_injective (hp : poly.msb = true) (bs : Bytes) :
    Function.Injective fun c => feed poly c bs := by
  induction bs with
  | nil => exact Function.injective_id
  | cons b bs ih =>
    intro c c' h
    have h8 := shifts_injective poly hp 8 (ih h)
    exact (BitVec.xor_left_inj _).mp h8

/-- Little-endian value of a byte string. -/
def word (w : ℕ) : Bytes → BitVec w
  | [] => 0#w
  | b :: bs => b.toBitVec.setWidth w ^^^ (word w bs <<< 8)

theorem getLsbD_word_of_ge (bs : Bytes) (i : ℕ) (h : 8 * bs.length ≤ i) :
    (word w bs).getLsbD i = false := by
  induction bs generalizing i with
  | nil => simp [word]
  | cons b bs ih =>
    rw [List.length_cons] at h
    have hb : b.toBitVec.getLsbD i = false := BitVec.getLsbD_of_ge _ _ (by omega)
    have hrest := ih (i - 8) (by omega)
    simp [word, hb, hrest]

theorem toNat_word_cons (b : UInt8) (bs : Bytes) (h : 8 * bs.length + 8 ≤ w) :
    (word w (b :: bs)).toNat = b.toNat + 2 ^ 8 * (word w bs).toNat := by
  have hb : b.toNat < 2 ^ 8 := b.toNat_lt
  have hbw : 2 ^ 8 ≤ 2 ^ w := Nat.pow_le_pow_right (by decide) (by omega)
  have hbyte : (b.toBitVec.setWidth w).toNat = b.toNat := by
    rw [BitVec.toNat_setWidth, UInt8.toNat_toBitVec, Nat.mod_eq_of_lt (by omega)]
  have hrest : (word w bs <<< 8).toNat = 2 ^ 8 * (word w bs).toNat := by
    have hlt : (word w bs).toNat < 2 ^ (w - 8) := by
      apply Nat.lt_pow_two_of_testBit
      intro i hi
      rw [BitVec.testBit_toNat]
      exact getLsbD_word_of_ge bs i (by omega)
    rw [BitVec.toNat_shiftLeft, Nat.shiftLeft_eq, Nat.mul_comm, Nat.mod_eq_of_lt]
    calc 2 ^ 8 * (word w bs).toNat < 2 ^ 8 * 2 ^ (w - 8) := by omega
      _ = 2 ^ w := by rw [← Nat.pow_add]; congr 1; omega
  rw [word, BitVec.toNat_xor, hbyte, hrest, Nat.add_comm]
  apply Nat.eq_of_testBit_eq
  intro i
  rw [Nat.testBit_xor, Nat.testBit_two_pow_mul_add _ hb, Nat.testBit_two_pow_mul]
  by_cases hi : i < 8
  · simp [hi, Nat.not_le.mpr hi]
  · have hz : b.toNat.testBit i = false :=
      Nat.testBit_lt_two_pow (Nat.lt_of_lt_of_le hb (Nat.pow_le_pow_right (by decide) (by omega)))
    simp [hi, hz, Nat.le_of_not_lt hi]

/-- The bytes behind the first, and room for one more byte above them. -/
theorem word_shiftLeft_shiftRight (bs : Bytes) (h : 8 * bs.length + 8 ≤ w) :
    word w bs <<< 8 >>> 8 = word w bs := by
  apply BitVec.eq_of_getLsbD_eq
  intro i hi
  rw [BitVec.getLsbD_ushiftRight, BitVec.getLsbD_shiftLeft]
  by_cases hiw : 8 + i < w
  · simp [hiw]
  · have hz := getLsbD_word_of_ge (w := w) bs i (by omega)
    simp [hiw, hz]

/-- Feeding bytes one at a time is shifting their word in at once. -/
theorem feed_eq_shifts_word (c : BitVec w) (bs : Bytes) (h : 8 * bs.length ≤ w) :
    feed poly c bs = shifts poly (8 * bs.length) (c ^^^ word w bs) := by
  induction bs generalizing c with
  | nil => simp [feed, shifts, word]
  | cons b bs ih =>
    rw [List.length_cons] at h
    have hclear : ∀ i < 8, (word w bs <<< 8).getLsbD i = false := by
      intro i hi
      simp [BitVec.getLsbD_shiftLeft, hi]
    have hhigh : shifts poly 8 (word w bs <<< 8) = word w bs := by
      rw [shifts_of_clear poly 8 _ hclear, word_shiftLeft_shiftRight bs (by omega)]
    calc feed poly c (b :: bs)
        = shifts poly (8 * bs.length) (feedByte poly c b ^^^ word w bs) := ih _ (by omega)
      _ = shifts poly (8 * bs.length)
            (shifts poly 8 (c ^^^ b.toBitVec.setWidth w ^^^ (word w bs <<< 8))) := by
          rw [shifts_xor poly 8, hhigh, feedByte]
      _ = shifts poly (8 * (b :: bs).length) (c ^^^ word w (b :: bs)) := by
          rw [← shifts_add, List.length_cons, word, BitVec.xor_assoc, Nat.mul_add, Nat.add_comm]

theorem word_injective {as bs : Bytes} (hlen : as.length = bs.length) (hw : 8 * bs.length ≤ w)
    (h : word w as = word w bs) : as = bs := by
  induction bs generalizing as with
  | nil => exact List.eq_nil_of_length_eq_zero hlen
  | cons b bs ih =>
    match as, hlen with
    | a :: as, hlen =>
      rw [List.length_cons] at hw
      have hbit : ∀ i, (word w (a :: as)).getLsbD i = (word w (b :: bs)).getLsbD i := by
        intro i
        rw [h]
      have hhead : a = b := by
        apply UInt8.toBitVec_inj.mp
        apply BitVec.eq_of_getLsbD_eq
        intro i hi
        have hi' : i < w := by omega
        have := hbit i
        simpa [word, hi, hi'] using this
      have htail : word w as = word w bs := by
        apply BitVec.eq_of_getLsbD_eq
        intro i hi
        by_cases hiw : 8 + i < w
        · have := hbit (8 + i)
          simpa [word, hi, hiw, hhead, BitVec.getLsbD_eq_getElem] using this
        · rw [getLsbD_word_of_ge as i (by simp at hlen; omega),
            getLsbD_word_of_ge bs i (by omega)]
      rw [hhead, ih (by simpa using hlen) (by omega) htail]

/-- Strings that differ in a window no wider than the register leave it in different
states. -/
theorem feed_window_injective (hp : poly.msb = true) (c : BitVec w) (pre tail : Bytes)
    {as bs : Bytes} (hlen : as.length = bs.length) (hw : 8 * bs.length ≤ w)
    (h : feed poly c (pre ++ as ++ tail) = feed poly c (pre ++ bs ++ tail)) : as = bs := by
  rw [feed_append, feed_append, feed_append, feed_append] at h
  have hmid := feed_injective poly hp tail h
  rw [feed_eq_shifts_word poly _ as (by omega), feed_eq_shifts_word poly _ bs hw, hlen] at hmid
  have hword := shifts_injective poly hp _ hmid
  apply word_injective hlen hw
  exact (BitVec.xor_right_inj _).mp hword

end Fsys.Base.ShiftRegister
