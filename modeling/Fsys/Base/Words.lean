import Fsys.Base.Bytes
import Mathlib.Data.List.GetD

/-!
# 32-bit words as byte strings

`u32::to_le_bytes`, `u32::to_be_bytes` and their inverses, over the numeric
value of a word.
-/

namespace Fsys.Base

/-- Little-endian bytes of a 32-bit value. -/
def leBytes (w : ℕ) : Bytes :=
  [UInt8.ofNat w, UInt8.ofNat (w / 2 ^ 8), UInt8.ofNat (w / 2 ^ 16), UInt8.ofNat (w / 2 ^ 24)]

/-- Big-endian bytes of a 32-bit value. -/
def beBytes (w : ℕ) : Bytes :=
  [UInt8.ofNat (w / 2 ^ 24), UInt8.ofNat (w / 2 ^ 16), UInt8.ofNat (w / 2 ^ 8), UInt8.ofNat w]

/-- Byte `i` of a string, zero past its end. -/
def byteAt (bs : Bytes) (i : ℕ) : ℕ := (bs.getD i 0).toNat

/-- Little-endian value of the four bytes at `i`. -/
def leAt (bs : Bytes) (i : ℕ) : ℕ :=
  byteAt bs i + byteAt bs (i + 1) * 2 ^ 8 + byteAt bs (i + 2) * 2 ^ 16 +
    byteAt bs (i + 3) * 2 ^ 24

/-- Big-endian value of the four bytes at `i`. -/
def beAt (bs : Bytes) (i : ℕ) : ℕ :=
  byteAt bs i * 2 ^ 24 + byteAt bs (i + 1) * 2 ^ 16 + byteAt bs (i + 2) * 2 ^ 8 +
    byteAt bs (i + 3)

@[simp] theorem length_leBytes (w : ℕ) : (leBytes w).length = 4 := rfl

@[simp] theorem length_beBytes (w : ℕ) : (beBytes w).length = 4 := rfl

theorem byteAt_lt (bs : Bytes) (i : ℕ) : byteAt bs i < 256 := UInt8.toNat_lt _

theorem leAt_lt (bs : Bytes) (i : ℕ) : leAt bs i < 2 ^ 32 := by
  have h0 := byteAt_lt bs i
  have h1 := byteAt_lt bs (i + 1)
  have h2 := byteAt_lt bs (i + 2)
  have h3 := byteAt_lt bs (i + 3)
  unfold leAt
  omega

theorem byteAt_append_left (as bs : Bytes) (i : ℕ) (h : i < as.length) :
    byteAt (as ++ bs) i = byteAt as i := by
  unfold byteAt
  rw [List.getD_append _ _ _ _ h]

theorem byteAt_append_right (as bs : Bytes) (i : ℕ) :
    byteAt (as ++ bs) (as.length + i) = byteAt bs i := by
  unfold byteAt
  rw [List.getD_append_right _ _ _ _ (by omega), Nat.add_sub_cancel_left]

theorem leAt_append_left (as bs : Bytes) (i : ℕ) (h : i + 4 ≤ as.length) :
    leAt (as ++ bs) i = leAt as i := by
  unfold leAt
  rw [byteAt_append_left as bs i (by omega), byteAt_append_left as bs (i + 1) (by omega),
    byteAt_append_left as bs (i + 2) (by omega), byteAt_append_left as bs (i + 3) (by omega)]

theorem beAt_append_left (as bs : Bytes) (i : ℕ) (h : i + 4 ≤ as.length) :
    beAt (as ++ bs) i = beAt as i := by
  unfold beAt
  rw [byteAt_append_left as bs i (by omega), byteAt_append_left as bs (i + 1) (by omega),
    byteAt_append_left as bs (i + 2) (by omega), byteAt_append_left as bs (i + 3) (by omega)]

theorem leAt_append_right (as bs : Bytes) (i : ℕ) :
    leAt (as ++ bs) (as.length + i) = leAt bs i := by
  unfold leAt
  simp only [Nat.add_assoc, byteAt_append_right]

theorem leAt_leBytes (w : ℕ) (hw : w < 2 ^ 32) : leAt (leBytes w) 0 = w := by
  simp only [leAt, byteAt, leBytes, List.getD_cons_zero, List.getD_cons_succ, UInt8.toNat_ofNat']
  omega

theorem beAt_beBytes (w : ℕ) (hw : w < 2 ^ 32) : beAt (beBytes w) 0 = w := by
  simp only [beAt, byteAt, beBytes, List.getD_cons_zero, List.getD_cons_succ, UInt8.toNat_ofNat']
  omega

/-- The bytes of a word are determined by its value. -/
theorem leBytes_leAt (bs : Bytes) (h : bs.length = 4) : leBytes (leAt bs 0) = bs := by
  match bs, h with
  | [a, b, c, d], _ =>
    have ha := a.toNat_lt
    have hb := b.toNat_lt
    have hc := c.toNat_lt
    have hd := d.toNat_lt
    simp only [leBytes, leAt, byteAt, List.getD_cons_zero, List.getD_cons_succ, List.cons.injEq,
      and_true]
    refine ⟨?_, ?_, ?_, ?_⟩ <;> apply UInt8.toNat_inj.mp <;> rw [UInt8.toNat_ofNat'] <;> omega

theorem beBytes_beAt (bs : Bytes) (h : bs.length = 4) : beBytes (beAt bs 0) = bs := by
  match bs, h with
  | [a, b, c, d], _ =>
    have ha := a.toNat_lt
    have hb := b.toNat_lt
    have hc := c.toNat_lt
    have hd := d.toNat_lt
    simp only [beBytes, beAt, byteAt, List.getD_cons_zero, List.getD_cons_succ, List.cons.injEq,
      and_true]
    refine ⟨?_, ?_, ?_, ?_⟩ <;> apply UInt8.toNat_inj.mp <;> rw [UInt8.toNat_ofNat'] <;> omega

/-- The four bytes at `i` spell the word read there. -/
theorem leBytes_slice (bs : Bytes) (i : ℕ) (h : i + 4 ≤ bs.length) :
    leBytes (leAt bs i) = (bs.drop i).take 4 := by
  have hl : ((bs.drop i).take 4).length = 4 := by
    rw [List.length_take, List.length_drop]
    omega
  have hv : leAt ((bs.drop i).take 4) 0 = leAt bs i := by
    have h1 := leAt_append_right (bs.take i) (bs.drop i) 0
    rw [List.take_append_drop, List.length_take, Nat.min_eq_left (by omega), Nat.add_zero] at h1
    have h2 := leAt_append_left ((bs.drop i).take 4) ((bs.drop i).drop 4) 0 (by omega)
    rw [List.take_append_drop] at h2
    rw [← h2, h1]
  rw [← hv, leBytes_leAt _ hl]

theorem beBytes_take (bs : Bytes) (h : 4 ≤ bs.length) : beBytes (beAt bs 0) = bs.take 4 := by
  have hl : (bs.take 4).length = 4 := by
    rw [List.length_take]
    omega
  have hv := beAt_append_left (bs.take 4) (bs.drop 4) 0 (by omega)
  rw [List.take_append_drop] at hv
  rw [hv, beBytes_beAt _ hl]

end Fsys.Base
