import Mathlib.Data.List.TakeDrop
import Mathlib.Data.Nat.Bits
import Mathlib.Tactic.Ring

/-!
# Byte strings, zero runs and positional writes

Byte strings are lists of `UInt8`. `overlay` is the effect of a positioned
write on the contents of a file: the file is extended with zeros up to the
write position, and the bytes under the written range are replaced.
-/

namespace Fsys.Base

abbrev Bytes := List UInt8

/-- A run of `n` zero bytes. -/
def zeros (n : ℕ) : Bytes := List.replicate n 0

@[simp] theorem length_zeros (n : ℕ) : (zeros n).length = n := List.length_replicate

@[simp] theorem zeros_zero : zeros 0 = [] := rfl

theorem zeros_succ (n : ℕ) : zeros (n + 1) = 0 :: zeros n := rfl

theorem zeros_append (m n : ℕ) : zeros m ++ zeros n = zeros (m + n) :=
  List.replicate_append_replicate

theorem take_zeros (m n : ℕ) : (zeros n).take m = zeros (min m n) := List.take_replicate

theorem drop_zeros (m n : ℕ) : (zeros n).drop m = zeros (n - m) := List.drop_replicate

theorem eq_zeros_of_forall (bs : Bytes) (h : ∀ b ∈ bs, b = 0) : bs = zeros bs.length :=
  List.eq_replicate_of_mem h

/-! ### Leading zeros -/

/-- Length of the run of zero bytes a byte string starts with. -/
def zeroRun : Bytes → ℕ
  | [] => 0
  | b :: bs => if b = 0 then zeroRun bs + 1 else 0

theorem zeroRun_le (bs : Bytes) : zeroRun bs ≤ bs.length := by
  induction bs with
  | nil => exact Nat.le_refl 0
  | cons b bs ih =>
    unfold zeroRun
    split
    · simp only [List.length_cons]
      omega
    · exact Nat.zero_le _

theorem zeroRun_cons_zero (bs : Bytes) : zeroRun (0 :: bs) = zeroRun bs + 1 := by
  simp only [zeroRun, ite_true]

theorem zeroRun_cons_ne (b : UInt8) (bs : Bytes) (h : b ≠ 0) : zeroRun (b :: bs) = 0 := by
  simp only [zeroRun, h, ite_false]

theorem take_zeroRun (bs : Bytes) : bs.take (zeroRun bs) = zeros (zeroRun bs) := by
  induction bs with
  | nil => rfl
  | cons b bs ih =>
    by_cases hb : b = 0
    · subst hb
      rw [zeroRun_cons_zero, List.take_succ_cons, ih, zeros_succ]
    · rw [zeroRun_cons_ne b bs hb]
      rfl

/-- A zero run followed by a non-zero byte is exactly the leading run. -/
theorem zeroRun_zeros_append_cons (n : ℕ) (b : UInt8) (bs : Bytes) (hb : b ≠ 0) :
    zeroRun (zeros n ++ b :: bs) = n := by
  induction n with
  | zero => exact zeroRun_cons_ne b bs hb
  | succ n ih =>
    rw [zeros_succ, List.cons_append, zeroRun_cons_zero, ih]

theorem zeroRun_zeros (n : ℕ) : zeroRun (zeros n) = n := by
  induction n with
  | zero => rfl
  | succ n ih => rw [zeros_succ, zeroRun_cons_zero, ih]

/-- When the leading run is shorter than the string, a non-zero byte ends it. -/
theorem drop_zeroRun (bs : Bytes) (h : zeroRun bs < bs.length) :
    ∃ b rest, bs.drop (zeroRun bs) = b :: rest ∧ b ≠ 0 := by
  induction bs with
  | nil => exact absurd h (by simp [zeroRun])
  | cons b bs ih =>
    by_cases hb : b = 0
    · subst hb
      rw [zeroRun_cons_zero] at h ⊢
      simp only [List.length_cons] at h
      obtain ⟨c, rest, hc, hne⟩ := ih (by omega)
      exact ⟨c, rest, by simpa using hc, hne⟩
    · rw [zeroRun_cons_ne b bs hb]
      exact ⟨b, bs, rfl, hb⟩

theorem zeroRun_append_of_lt (as bs : Bytes) (h : zeroRun as < as.length) :
    zeroRun (as ++ bs) = zeroRun as := by
  induction as with
  | nil => exact absurd h (by simp)
  | cons a as ih =>
    by_cases ha : a = 0
    · subst ha
      rw [zeroRun_cons_zero] at h
      simp only [List.length_cons] at h
      rw [List.cons_append, zeroRun_cons_zero, zeroRun_cons_zero, ih (by omega)]
    · rw [List.cons_append, zeroRun_cons_ne a _ ha, zeroRun_cons_ne a _ ha]

theorem zeroRun_append_of_eq (as bs : Bytes) (h : zeroRun as = as.length) :
    zeroRun (as ++ bs) = as.length + zeroRun bs := by
  induction as with
  | nil => simp
  | cons a as ih =>
    by_cases ha : a = 0
    · subst ha
      rw [zeroRun_cons_zero] at h
      simp only [List.length_cons] at h
      rw [List.cons_append, zeroRun_cons_zero, ih (by omega), List.length_cons]
      omega
    · rw [zeroRun_cons_ne a as ha] at h
      simp at h

/-! ### Positioned writes -/

/-- File contents after writing `d` at offset `pos`. -/
def overlay (f : Bytes) (pos : ℕ) (d : Bytes) : Bytes :=
  f.take pos ++ zeros (pos - f.length) ++ d ++ f.drop (pos + d.length)

theorem length_overlay (f : Bytes) (pos : ℕ) (d : Bytes) :
    (overlay f pos d).length = max f.length (pos + d.length) := by
  simp only [overlay, List.length_append, List.length_take, length_zeros, List.length_drop]
  omega

/-- The written range reads back, after a file that reaches the write position. -/
theorem take_overlay_end (f : Bytes) (pos n : ℕ) (d : Bytes)
    (hf : pos ≤ f.length) (hn : n ≤ d.length) :
    (overlay f pos d).take (pos + n) = f.take pos ++ d.take n := by
  have h0 : pos - f.length = 0 := by omega
  have hl : (f.take pos).length = pos := by
    simp only [List.length_take]
    omega
  rw [overlay, h0, zeros_zero, List.append_nil, List.append_assoc, List.take_append, hl,
    List.take_of_length_le (by omega), Nat.add_sub_cancel_left, List.take_append_of_le_length hn]

theorem overlay_nil (f : Bytes) (pos : ℕ) (hf : pos ≤ f.length) : overlay f pos [] = f := by
  have h0 : pos - f.length = 0 := by omega
  simp only [overlay, h0, zeros_zero, List.append_nil, List.length_nil, Nat.add_zero,
    List.take_append_drop]

/-- Writing at the end of a file appends. -/
theorem overlay_length (f d : Bytes) : overlay f f.length d = f ++ d := by
  have h : f.drop (f.length + d.length) = [] := List.drop_eq_nil_of_le (by omega)
  simp only [overlay, List.take_length, Nat.sub_self, zeros_zero, List.append_nil, h]

/-- Writing right behind a known prefix. -/
theorem overlay_append (as rest d : Bytes) (n : ℕ) (hn : n = as.length) :
    overlay (as ++ rest) n d = as ++ d ++ rest.drop d.length := by
  subst hn
  have h0 : as.length - (as ++ rest).length = 0 := by
    rw [List.length_append]
    omega
  rw [overlay, List.take_left, h0, zeros_zero, List.append_nil, List.drop_append,
    Nat.add_sub_cancel_left, List.drop_eq_nil_of_le (by omega), List.nil_append]

/-- Two writes in a row are one write of both. -/
theorem overlay_overlay (f x y : Bytes) (pos : ℕ) :
    overlay (overlay f pos x) (pos + x.length) y = overlay f pos (x ++ y) := by
  have hlen : pos + x.length = (f.take pos ++ zeros (pos - f.length) ++ x).length := by
    rw [List.length_append, List.length_append, List.length_take, length_zeros]
    omega
  have h := overlay_append (f.take pos ++ zeros (pos - f.length) ++ x)
    (f.drop (pos + x.length)) y _ hlen
  rw [List.drop_drop] at h
  unfold overlay at h ⊢
  rw [h, List.length_append, List.append_assoc _ x y, Nat.add_assoc]

/-- Writing the same bytes again changes nothing. -/
theorem overlay_self (f x : Bytes) (pos : ℕ) : overlay (overlay f pos x) pos x = overlay f pos x := by
  have hlen : pos = (f.take pos ++ zeros (pos - f.length)).length := by
    rw [List.length_append, List.length_take, length_zeros]
    omega
  have h : overlay f pos x =
      (f.take pos ++ zeros (pos - f.length)) ++ (x ++ f.drop (pos + x.length)) := by
    rw [overlay, List.append_assoc _ x]
  rw [h, overlay_append _ _ x pos hlen, List.drop_left, List.append_assoc]

/-- A write over the start of itself. -/
theorem overlay_of_prefix (f x y : Bytes) (pos : ℕ) (h : x <+: y) :
    overlay (overlay f pos x) pos y = overlay f pos y := by
  obtain ⟨z, rfl⟩ := h
  rw [← overlay_overlay, ← overlay_overlay, overlay_self]

/-- The bytes of a written file one by one. -/
theorem getElem?_overlay (f : Bytes) (pos : ℕ) (d : Bytes) (i : ℕ) :
    (overlay f pos d)[i]? =
      if i < pos then (if i < f.length then f[i]? else some 0)
      else if i < pos + d.length then d[i - pos]? else f[i]? := by
  have hhead : (f.take pos ++ zeros (pos - f.length)).length = pos := by
    rw [List.length_append, List.length_take, length_zeros]
    omega
  rw [overlay, List.append_assoc, List.getElem?_append, hhead]
  split
  · rename_i hi
    rw [List.getElem?_append, List.length_take]
    split
    · rename_i hlt
      rw [if_pos (by omega), List.getElem?_take_of_lt hi]
    · rename_i hge
      rw [if_neg (by omega), zeros, List.getElem?_replicate_of_lt (by omega)]
  · rename_i hi
    rw [List.getElem?_append]
    split
    · rename_i hlt
      rw [if_pos (by omega)]
    · rename_i hge
      rw [if_neg (by omega), List.getElem?_drop]
      congr 1
      omega

/-- Zeros behind the end of a file stay behind the end of what is written. -/
theorem overlay_append_zeros (f d : Bytes) (pos k : ℕ) :
    ∃ k', overlay (f ++ zeros k) pos d = overlay f pos d ++ zeros k' := by
  refine ⟨max (f.length + k) (pos + d.length) - max f.length (pos + d.length), ?_⟩
  apply List.ext_getElem?
  intro i
  rw [List.getElem?_append, length_overlay, getElem?_overlay, getElem?_overlay,
    List.length_append, length_zeros, List.getElem?_append, zeros, zeros,
    List.getElem?_replicate, List.getElem?_replicate]
  split_ifs <;> first | rfl | omega

/-! ### Rounding -/

/-- `n` rounded up to a multiple of `a`. -/
def alignUp (n a : ℕ) : ℕ := (n + a - 1) / a * a

theorem alignUp_dvd (n a : ℕ) : a ∣ alignUp n a := Dvd.intro_left _ rfl

theorem le_alignUp (n a : ℕ) (ha : 0 < a) : n ≤ alignUp n a := by
  unfold alignUp
  have h := Nat.div_add_mod (n + a - 1) a
  have hm := Nat.mod_lt (n + a - 1) ha
  rw [Nat.mul_comm] at h
  omega

theorem alignUp_lt (n a : ℕ) (ha : 0 < a) : alignUp n a < n + a := by
  unfold alignUp
  have h := Nat.div_mul_le_self (n + a - 1) a
  omega

theorem alignUp_of_dvd (n a : ℕ) (ha : 0 < a) (h : a ∣ n) : alignUp n a = n := by
  obtain ⟨k, rfl⟩ := h
  have h1 := le_alignUp (a * k) a ha
  have h2 := alignUp_lt (a * k) a ha
  obtain ⟨j, hj⟩ := alignUp_dvd (a * k) a
  rw [hj] at h1 h2 ⊢
  have hle : k ≤ j := Nat.le_of_mul_le_mul_left h1 ha
  have hlt : j < k + 1 := by
    by_contra hge
    have h3 : a * (k + 1) ≤ a * j := Nat.mul_le_mul_left a (by omega)
    rw [Nat.mul_succ] at h3
    omega
  have he : j = k := by omega
  rw [he]

theorem alignUp_le_of_dvd (n m a : ℕ) (ha : 0 < a) (hm : a ∣ m) (h : n ≤ m) :
    alignUp n a ≤ m := by
  have h2 := alignUp_lt n a ha
  obtain ⟨j, hj⟩ := alignUp_dvd n a
  obtain ⟨k, rfl⟩ := hm
  by_contra hgt
  rw [hj] at h2 hgt
  have hkj : k < j := by
    by_contra hle
    exact hgt (Nat.mul_le_mul_left a (by omega))
  have h3 : a * (k + 1) ≤ a * j := Nat.mul_le_mul_left a hkj
  rw [Nat.mul_succ] at h3
  omega

/-! ### A log and the file it is written to -/

/-- The first `e` bytes of `file` are those of the log; what follows is zero, or comes
from the bytes `junk` that were there before. -/
structure OnDisk (log junk file : Bytes) (e : ℕ) : Prop where
  le : e ≤ log.length
  split : ∃ rest, file = log.take e ++ rest ∧ ∀ b ∈ rest, b = 0 ∨ b ∈ junk

variable {log junk file : Bytes} {e : ℕ}

theorem OnDisk.take (h : OnDisk log junk file e) (n : ℕ) (hn : n ≤ e) :
    file.take n = log.take n := by
  obtain ⟨rest, hfile, -⟩ := h.split
  have hle := h.le
  rw [hfile, List.take_append_of_le_length, List.take_take, Nat.min_eq_left hn]
  rw [List.length_take]
  omega

theorem OnDisk.length_le (h : OnDisk log junk file e) : e ≤ file.length := by
  obtain ⟨rest, hfile, -⟩ := h.split
  have hle := h.le
  rw [hfile, List.length_append, List.length_take]
  omega

/-- The log may grow while the file stays. -/
theorem OnDisk.grow (h : OnDisk log junk file e) (more : Bytes) :
    OnDisk (log ++ more) junk file e := by
  obtain ⟨rest, hfile, hrest⟩ := h.split
  have hle := h.le
  refine ⟨?_, rest, ?_, hrest⟩
  · rw [List.length_append]
    omega
  · rw [List.take_append_of_le_length hle]
    exact hfile

/-- A write of log bytes, padded with zeros, that starts in what is on disk and ends
behind it. -/
theorem OnDisk.write (h : OnDisk log junk file e) (pos e' k : ℕ) (hpos : pos ≤ e)
    (he : e ≤ e') (he' : e' ≤ log.length) :
    OnDisk log junk (overlay file pos ((log.take e').drop pos ++ zeros k)) e' := by
  obtain ⟨rest, hfile, hrest⟩ := h.split
  have hlen := h.length_le
  have hdata : ((log.take e').drop pos ++ zeros k).length = e' - pos + k := by
    rw [List.length_append, List.length_drop, List.length_take, length_zeros]
    omega
  have h0 : pos - file.length = 0 := by omega
  have hfront : log.take pos ++ (log.take e').drop pos = log.take e' := by
    have h1 := List.take_append_drop pos (log.take e')
    rw [List.take_take, Nat.min_eq_left (by omega)] at h1
    exact h1
  have hback : file.drop (pos + (e' - pos + k)) = rest.drop (e' + k - e) := by
    rw [hfile, List.drop_append, List.length_take, List.drop_eq_nil_of_le, List.nil_append]
    · congr 1
      omega
    · rw [List.length_take]
      omega
  refine ⟨he', zeros k ++ rest.drop (e' + k - e), ?_, ?_⟩
  · rw [overlay, hdata, h.take pos hpos, h0, zeros_zero, List.append_nil, hback,
      ← List.append_assoc, ← List.append_assoc, hfront]
  · intro b hb
    rcases List.mem_append.mp hb with hz | hr
    · exact Or.inl (List.eq_of_mem_replicate hz)
    · exact hrest b (List.mem_of_mem_drop hr)

end Fsys.Base
