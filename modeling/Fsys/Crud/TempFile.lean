import Fsys.Platform

/-!
# What the writers leave in the temp file

Each way to write a buffer to a fresh file touches that file alone, never makes
it longer than the buffer, and holds the buffer when it reports success. So a
second writer may start over at offset 0 after a first one that gave up: the
ring and the `pwrite` path pad the payload to the same length.
-/

namespace Fsys.Crud
open Fsys.Base Fsys.Platform

/-- The first `k` bytes are those of `buf`, and there are no more bytes than `buf` has. -/
structure Filled (buf : Bytes) (k : ℕ) (file : Bytes) : Prop where
  take_eq : file.take k = buf.take k
  le : k ≤ file.length
  length_le : file.length ≤ buf.length

variable {buf file c : Bytes} {j k n : ℕ}

theorem filled_nil (buf : Bytes) : Filled buf 0 [] := ⟨rfl, Nat.le_refl 0, Nat.zero_le _⟩

theorem Filled.mono (h : Filled buf k file) (hj : j ≤ k) : Filled buf j file where
  take_eq := by
    have := congrArg (List.take j) h.take_eq
    rwa [List.take_take, List.take_take, Nat.min_eq_left hj] at this
  le := Nat.le_trans hj h.le
  length_le := h.length_le

/-- Writing what comes next. -/
theorem Filled.write (h : Filled buf k file) (hc : c <+: buf.drop k) :
    Filled buf (k + c.length) (overlay file k c) := by
  have hk : k ≤ buf.length := Nat.le_trans h.le h.length_le
  have hlen : c.length ≤ buf.length - k := by
    have := hc.length_le
    rwa [List.length_drop] at this
  refine ⟨?_, ?_, ?_⟩
  · rw [take_overlay_end file k c.length c h.le (Nat.le_refl _), h.take_eq, List.take_length,
      List.take_add, List.prefix_iff_eq_take.mp hc]
    rw [List.length_take, List.length_drop, Nat.min_eq_left hlen]
  · rw [length_overlay]
    exact Nat.le_max_right _ _
  · rw [length_overlay]
    have := h.length_le
    omega

theorem Filled.all (h : Filled buf k file) (hk : buf.length ≤ k) : file = buf := by
  have h1 := h.take_eq
  have h2 := h.length_le
  rwa [List.take_of_length_le (by omega), List.take_of_length_le hk] at h1

variable (env : Env)

/-! ### Single calls -/

theorem wp_sysPwrite (i len : ℕ) (w : World PathBuf) (h : Filled buf k (w.disk.data i)) :
    (Io.pwrite env.plan i k ((buf.drop k).take len)).Wp (fun r w' => w.Writes i w' ∧
      Filled buf k (w'.disk.data i) ∧
      ∀ n, r = .ok n → n ≤ len ∧ Filled buf (k + n) (w'.disk.data i)) w := by
  refine Prog.wp_mono (Io.wp_pwrite env.plan i k _ w) ?_
  rintro (e | n) w' ⟨hr, h'⟩
  · obtain ⟨m, hd⟩ := h'
    have hp := ((List.take_prefix m _).trans (List.take_prefix len (buf.drop k)))
    refine ⟨⟨hd ▸ Disk.touches_setData _ _ _, hr⟩, ?_, nofun⟩
    rw [hd, Disk.data_setData]
    exact (h.write hp).mono (Nat.le_add_right _ _)
  · obtain ⟨hn, hd⟩ := h'
    have hp := ((List.take_prefix n _).trans (List.take_prefix len (buf.drop k)))
    have hl : (((buf.drop k).take len).take n).length = n := by
      rw [List.length_take, Nat.min_eq_left hn]
    have hw := h.write hp
    rw [hl] at hw
    refine ⟨⟨hd ▸ Disk.touches_setData _ _ _, hr⟩, ?_, ?_⟩
    · rw [hd, Disk.data_setData]
      exact hw.mono (Nat.le_add_right _ _)
    · rintro _ ⟨⟩
      rw [List.length_take] at hn
      rw [hd, Disk.data_setData]
      exact ⟨by omega, hw⟩

/-- A fence changes no byte. -/
theorem wp_sysFence (i : ℕ) (w : World PathBuf) :
    (sysCall (Io.fence env.plan i)).Wp (fun r w' => w.Writes i w' ∧
      w'.disk.data i = w.disk.data i ∧ (r = .ok () → w'.disk.fenced i = true)) w := by
  refine (Io.wp_fence env.plan i w).mapError _ ?_ ?_
  · rintro ⟨⟩ w' ⟨hr, -, -, hd⟩
    rw [hd]
    exact ⟨⟨hd ▸ Disk.touches_fence _ _ _, hr⟩, rfl, fun _ => Function.update_self _ _ _⟩
  · rintro e w' ⟨hr, -, -, hd⟩
    rw [hd]
    exact ⟨⟨hd ▸ .refl _ _, hr⟩, rfl, nofun⟩

/-- Trimming a padded payload leaves the payload. -/
theorem wp_sysSetLen (i : ℕ) (data : Bytes) (pad : ℕ) (w : World PathBuf)
    (h : w.disk.data i = data ++ zeros pad) :
    (sysCall (Io.setLen env.plan i data.length)).Wp (fun r w' => w.Writes i w' ∧
      (r = .ok () → w'.disk.data i = data)) w := by
  refine (Io.wp_setLen env.plan i data.length w).mapError _ ?_ ?_
  · rintro ⟨⟩ w' ⟨hr, -, hd⟩
    refine ⟨⟨hd ▸ Disk.touches_setData _ _ _, hr⟩, fun _ => ?_⟩
    have hz : data.length - (data ++ zeros pad).length = 0 := by
      rw [List.length_append]
      omega
    rw [hd, Disk.data_setData, h, List.take_left, hz, zeros_zero, List.append_nil]
  · rintro e w' ⟨hr, -, hd⟩
    exact ⟨⟨hd ▸ .refl _ _, hr⟩, nofun⟩

/-! ### Buffers -/

/-- A buffer is only there for an alignment that is a power of two. -/
theorem wp_alignedCopy (i size align : ℕ) (data : Bytes) (w : World PathBuf) :
    (alignedCopy env size align data).Wp (fun r w' => w.Writes i w' ∧ w'.disk = w.disk ∧
      ∀ b, r = .ok b → (∃ m, align = 2 ^ m) ∧ data.length ≤ size ∧
        b = data ++ zeros (size - data.length)) w := by
  unfold alignedCopy
  refine Prog.wp_bind _ _ _ _ (fun r w' => w'.disk = w.disk ∧ w'.renames = w.renames ∧
    (r = .ok () → ∃ m, align = 2 ^ m)) ?_ ?_ ?_
  · unfold alignedBufNew
    split
    · exact ⟨rfl, rfl, nofun⟩
    · split
      · exact ⟨rfl, rfl, nofun⟩
      · rename_i hpow
        refine (Io.wp_look env.plan _ _ w).mapError _ ?_ ?_
        · rintro ⟨⟩ w' ⟨hd, hr, -⟩
          exact ⟨hd, hr, fun _ => not_not.mp fun h => hpow (Or.inl h)⟩
        · rintro e w' ⟨hd, hr, -⟩
          exact ⟨hd, hr, nofun⟩
  · rintro ⟨⟩ w' ⟨hd, hr, hpow⟩
    split
    · exact ⟨⟨hd ▸ .refl _ _, hr⟩, hd, nofun⟩
    · rename_i hle
      refine ⟨⟨hd ▸ .refl _ _, hr⟩, hd, ?_⟩
      rintro _ ⟨⟩
      exact ⟨hpow rfl, Nat.not_lt.mp hle, rfl⟩
  · rintro e w' ⟨hd, hr, -⟩
    exact ⟨⟨hd ▸ .refl _ _, hr⟩, hd, nofun⟩

/-! ### The loops of the system calls -/

/-- A call for all that is left. -/
theorem wp_pwriteRest (i : ℕ) (w : World PathBuf) (h : Filled buf k (w.disk.data i)) :
    (Io.pwrite env.plan i k (buf.drop k)).Wp (fun r w' => w.Writes i w' ∧
      Filled buf k (w'.disk.data i) ∧ ∀ n, r = .ok n → Filled buf (k + n) (w'.disk.data i)) w := by
  have hstep := wp_sysPwrite env i buf.length w h
  rw [List.take_of_length_le (by rw [List.length_drop]; omega)] at hstep
  refine Prog.wp_mono hstep ?_
  rintro r w' ⟨hw, hf, hok⟩
  exact ⟨hw, hf, fun n hn => (hok n hn).2⟩

/-- What was written before counts. -/
theorem wp_after_writes {m : Sys Error Unit} {i : ℕ} {w w' : World PathBuf}
    {Q : World PathBuf → Prop} (hw : w.Writes i w')
    (h : m.Wp (fun r u => w'.Writes i u ∧ (r = .ok () → Q u)) w') :
    m.Wp (fun r u => w.Writes i u ∧ (r = .ok () → Q u)) w' := by
  refine Prog.wp_mono h ?_
  rintro r u ⟨hw', hr⟩
  exact ⟨hw.trans hw', hr⟩

/-- The induction is on the rounds left: a round leaves the part that is written. -/
theorem wp_writeAll (fuel i : ℕ) (data : Bytes) (written : ℕ) (w : World PathBuf)
    (h : Filled data written (w.disk.data i)) :
    (writeAll env fuel i data written).Wp (fun r w' => w.Writes i w' ∧
      (r = .ok () → w'.disk.data i = data)) w := by
  induction fuel generalizing written w with
  | zero => exact ⟨.refl _ _, nofun⟩
  | succ fuel ih =>
    unfold writeAll
    split
    · rw [Prog.wp_attempt_bind]
      refine Prog.wp_mono (wp_pwriteRest env i w h) ?_
      rintro (e | n) w' ⟨hw, hf, hok⟩
      · dsimp only
        split
        · exact wp_after_writes hw (ih written w' hf)
        · exact ⟨hw, nofun⟩
      · exact wp_after_writes hw (ih (written + n) w' (hok n rfl))
    · rename_i hlt
      exact ⟨.refl _ _, fun _ => h.all (Nat.not_lt.mp hlt)⟩

theorem wp_pwriteAll (fuel i : ℕ) (buf : Bytes) (written : ℕ) (w : World PathBuf)
    (h : Filled buf written (w.disk.data i)) :
    (pwriteAll env fuel i buf written).Wp (fun r w' => w.Writes i w' ∧
      (r = .ok () → w'.disk.data i = buf)) w := by
  induction fuel generalizing written w with
  | zero => exact ⟨.refl _ _, nofun⟩
  | succ fuel ih =>
    unfold pwriteAll
    split
    · rw [Prog.wp_attempt_bind]
      refine Prog.wp_mono (wp_pwriteRest env i w h) ?_
      rintro (e | n) w' ⟨hw, hf, hok⟩
      · dsimp only
        split
        · exact wp_after_writes hw (ih written w' hf)
        · exact ⟨hw, nofun⟩
      · dsimp only
        split
        · exact ⟨hw, nofun⟩
        · exact wp_after_writes hw (ih (written + n) w' (hok n rfl))
    · rename_i hlt
      exact ⟨.refl _ _, fun _ => h.all (Nat.not_lt.mp hlt)⟩

/-- The payload with its padding to whole sectors. -/
def padded (data : Bytes) (sectorSize : ℕ) : Bytes :=
  data ++ zeros (alignUp data.length sectorSize - data.length)

theorem padded_nil (sectorSize : ℕ) : padded [] sectorSize = [] := by
  have h0 : alignUp 0 sectorSize = 0 := by
    rcases Nat.eq_zero_or_pos sectorSize with rfl | h
    · rfl
    · exact alignUp_of_dvd 0 _ h (Nat.dvd_zero _)
  rw [padded, List.length_nil, h0]
  rfl

/-- There is no padding to trim when the payload ends on a sector boundary. -/
theorem padded_of_dvd (data : Bytes) (sectorSize : ℕ) (hs : 0 < sectorSize)
    (h : sectorSize ∣ data.length) : padded data sectorSize = data := by
  rw [padded, alignUp_of_dvd _ _ hs h, Nat.sub_self, zeros_zero, List.append_nil]

/-- The `pwrite` path writes the padded payload, over whatever shorter file there is. -/
theorem wp_writeAllDirect (i : ℕ) (data : Bytes) (ss : ℕ) (w : World PathBuf)
    (h : Filled (padded data ss) 0 (w.disk.data i)) :
    (writeAllDirect env i data ss).Wp (fun r w' => w.Writes i w' ∧
      (r = .ok () → w'.disk.data i = padded data ss ∧ (data = [] ∨ 0 < ss))) w := by
  unfold writeAllDirect
  split
  · rename_i hnil
    subst hnil
    rw [padded_nil] at h ⊢
    exact ⟨.refl _ _, fun _ => ⟨List.eq_nil_of_length_eq_zero (Nat.le_zero.mp h.length_le),
      Or.inl rfl⟩⟩
  split
  · exact ⟨.refl _ _, nofun⟩
  · refine Prog.wp_bind _ _ _ _ _ (wp_alignedCopy env i _ ss data w) ?_ ?_
    · rintro b w' ⟨hw, hd, hb⟩
      obtain ⟨⟨m, rfl⟩, hle, rfl⟩ := hb b rfl
      have hr : roundUpLen data.length (2 ^ m) = alignUp data.length (2 ^ m) := by
        rw [roundUpLen, if_neg (Nat.two_pow_pos m).ne', roundUp_pow]
      rw [hr]
      refine Prog.wp_mono (wp_pwriteAll env _ i _ 0 w' (hd ▸ h)) ?_
      rintro r w'' ⟨hw', hok⟩
      exact ⟨hw.trans hw', fun h => ⟨hok h, Or.inr (Nat.two_pow_pos m)⟩⟩
    · rintro e w' ⟨hw, -, -⟩
      exact ⟨hw, nofun⟩

/-! ### The ring -/

/-- What a ring write of `all` from `offset` on leaves: it reports how far it came. -/
structure RingLeft (i : ℕ) (all : Bytes) (offset : ℕ) (w : World PathBuf)
    (r : Except (Exit Error) ℕ) (w' : World PathBuf) : Prop where
  writes : w.Writes i w'
  kept : Filled all offset (w'.disk.data i)
  ok : ∀ n, r = .ok n → Filled all (offset + n) (w'.disk.data i)

theorem wp_advance (offset done : ℕ) (w : World PathBuf) :
    (advance offset done).Wp (fun r w' => w' = w ∧ ∀ n, r = .ok n → n = offset + done) w := by
  unfold advance
  split
  · exact ⟨rfl, fun n hn => by cases hn; rfl⟩
  · exact ⟨rfl, nofun⟩

/-- One entry. -/
theorem wp_ringPwrite (i len : ℕ) (w : World PathBuf) (h : Filled buf k (w.disk.data i)) :
    (sysCall (Io.pwrite env.plan i k ((buf.drop k).take len))).Wp (fun r w' => w.Writes i w' ∧
      Filled buf k (w'.disk.data i) ∧
      ∀ n, r = .ok n → n ≤ len ∧ Filled buf (k + n) (w'.disk.data i)) w := by
  refine (wp_sysPwrite env i len w h).mapError _ ?_ ?_
  · rintro n w' ⟨hw, hf, hn⟩
    exact ⟨hw, hf, fun m hm => by cases hm; exact hn n rfl⟩
  · rintro e w' ⟨hw, hf, -⟩
    exact ⟨hw, hf, nofun⟩

/-- The induction is on the entries left; `done` bytes of the buffer are written. -/
theorem wp_transferLoop (entries i : ℕ) (all : Bytes) (offset done : ℕ) (w : World PathBuf)
    (h : Filled all (offset + done) (w.disk.data i)) :
    (transferLoop env entries i (all.drop offset) offset done).Wp (RingLeft i all offset w) w := by
  have hkept := h.mono (Nat.le_add_right offset done)
  induction entries generalizing done w with
  | zero => exact ⟨.refl _ _, hkept, fun n hn => by cases hn; exact h⟩
  | succ entries ih =>
    unfold transferLoop
    split
    · refine Prog.wp_bind _ _ _ _ _ (wp_advance offset done w) ?_ ?_
      · rintro pos w' ⟨rfl, hpos⟩
        rw [hpos pos rfl, List.drop_drop]
        refine Prog.wp_bind _ _ _ _ _ (wp_ringPwrite env i _ w' h) ?_ ?_
        · rintro n w'' ⟨hw, hf, hn⟩
          obtain ⟨hle, hfn⟩ := hn n rfl
          have hk := hf.mono (Nat.le_add_right offset done)
          split
          · exact ⟨hw, hk, fun m hm => by cases hm; exact hf⟩
          · rw [Nat.min_eq_left hle]
            refine Prog.wp_mono (ih (done + n) w'' (Nat.add_assoc .. ▸ hfn) hk) ?_
            rintro r u ⟨hw', hk', hr⟩
            exact ⟨hw.trans hw', hk', hr⟩
        · rintro e w'' ⟨hw, hf, -⟩
          exact ⟨hw, hf.mono (Nat.le_add_right offset done), nofun⟩
      · rintro e w' ⟨rfl, -⟩
        exact ⟨.refl _ _, hkept, nofun⟩
    · exact ⟨.refl _ _, hkept, fun n hn => by cases hn; exact h⟩

theorem wp_ringWriteAt (i : ℕ) (all : Bytes) (offset : ℕ) (w : World PathBuf)
    (h : Filled all offset (w.disk.data i)) :
    (ringWriteAt env i (all.drop offset) offset).Wp (RingLeft i all offset w) w :=
  wp_transferLoop env _ i all offset 0 w h

/-- A linked write and fsync. The fsync has run when the whole buffer was written. -/
theorem wp_writeLinkedFsync (i : ℕ) (all : Bytes) (w : World PathBuf)
    (h : Filled all 0 (w.disk.data i)) :
    (writeLinkedFsync env i all 0).Wp (fun r w' => w.Writes i w' ∧ Filled all 0 (w'.disk.data i) ∧
      ∀ n ran, r = .ok (n, ran) → Filled all n (w'.disk.data i) ∧
        (all.length ≤ n → ran = true ∧ w'.disk.fenced i = true)) w := by
  unfold writeLinkedFsync
  have hall : all = (all.drop 0).take all.length := (List.take_length).symm
  have hstep := wp_ringPwrite env i all.length w h
  rw [← hall] at hstep
  refine Prog.wp_bind _ _ _ _ _ hstep ?_ ?_
  · rintro n w' ⟨hw, hf, hn⟩
    have hfn := (hn n rfl).2
    rw [Nat.zero_add] at hfn
    split
    · rename_i hlt
      refine ⟨hw, hf, ?_⟩
      rintro _ _ ⟨⟩
      exact ⟨hfn, fun hle => absurd hlt (Nat.not_lt.mpr hle)⟩
    · refine Prog.wp_bind _ _ _ _ _ (wp_sysFence env i w') ?_ ?_
      · rintro ⟨⟩ w'' ⟨hw', hd, hfence⟩
        refine ⟨hw.trans hw', hd ▸ hf, ?_⟩
        rintro _ _ ⟨⟩
        exact ⟨hd ▸ hfn, fun _ => ⟨rfl, hfence rfl⟩⟩
      · rintro e w'' ⟨hw', hd, -⟩
        exact ⟨hw.trans hw', hd ▸ hf, nofun⟩
  · rintro e w' ⟨hw, hf, -⟩
    exact ⟨hw, hf, nofun⟩

/-- A fence that reports a byte count. -/
theorem wp_fdatasync_count (i n m : ℕ) (all : Bytes) (offset : ℕ) (w w' : World PathBuf)
    (hw : w.Writes i w') (hk : Filled all offset (w'.disk.data i))
    (hn : Filled all (offset + n) (w'.disk.data i)) (hm : m = offset + n) :
    (do ringFdatasync env i; pure m : Sys Error ℕ).Wp (fun r u => w.Writes i u ∧
      Filled all 0 (u.disk.data i) ∧
      ∀ n, r = .ok n → Filled all n (u.disk.data i) ∧ u.disk.fenced i = true) w' := by
  refine Prog.wp_bind _ _ _ _ _ (wp_sysFence env i w') ?_ ?_
  · rintro ⟨⟩ u ⟨hw', hd, hfence⟩
    refine ⟨hw.trans hw', hd ▸ hk.mono (Nat.zero_le _), ?_⟩
    rintro _ ⟨⟩
    exact ⟨hd ▸ hm ▸ hn, hfence rfl⟩
  · rintro e u ⟨hw', hd, -⟩
    exact ⟨hw.trans hw', hd ▸ hk.mono (Nat.zero_le _), nofun⟩

/-- However the linked write is cut up, success means a fence after the last write. -/
theorem wp_writeAtLinkedFsync (i : ℕ) (all : Bytes) (w : World PathBuf)
    (h : Filled all 0 (w.disk.data i)) :
    (writeAtLinkedFsync env i all 0).Wp (fun r w' => w.Writes i w' ∧
      Filled all 0 (w'.disk.data i) ∧
      ∀ n, r = .ok n → Filled all n (w'.disk.data i) ∧ w'.disk.fenced i = true) w := by
  unfold writeAtLinkedFsync
  split
  · refine Prog.wp_bind _ _ _ _ _ (wp_ringWriteAt env i all 0 w h) ?_ ?_
    · rintro n w' ⟨hw, hk, hn⟩
      exact wp_fdatasync_count env i n n all 0 w w' hw hk (hn n rfl) (Nat.zero_add n).symm
    · rintro e w' ⟨hw, hk, -⟩
      exact ⟨hw, hk, nofun⟩
  · refine Prog.wp_bind _ _ _ _ _ (wp_writeLinkedFsync env i all w h) ?_ ?_
    · rintro ⟨n, ran⟩ w' ⟨hw, hk, hn⟩
      obtain ⟨hfn, hran⟩ := hn n ran rfl
      dsimp only
      split
      · rename_i hge
        obtain ⟨rfl, hfence⟩ := hran hge
        rw [if_pos rfl]
        refine ⟨hw, hk, ?_⟩
        rintro _ ⟨⟩
        exact ⟨hfn, hfence⟩
      · refine Prog.wp_bind _ _ _ _ _ (wp_advance 0 n w') ?_ ?_
        · rintro pos u ⟨rfl, hpos⟩
          rw [hpos pos rfl, Nat.zero_add]
          refine Prog.wp_bind _ _ _ _ _ (wp_ringWriteAt env i all n u hfn) ?_ ?_
          · rintro m v ⟨hw', hk', hm⟩
            exact wp_fdatasync_count env i m (n + m) all n w v (hw.trans hw') hk' (hm m rfl) rfl
          · rintro e v ⟨hw', hk', -⟩
            exact ⟨hw.trans hw', hk'.mono (Nat.zero_le _), nofun⟩
        · rintro e u ⟨rfl, -⟩
          exact ⟨hw, hk, nofun⟩
    · rintro e w' ⟨hw, hk, -⟩
      exact ⟨hw, hk, nofun⟩

/-! ### The completion driver -/

/-- Whatever becomes of the wait, the operation runs for some number of entries; a result
comes from a whole run. -/
theorem wp_submit (op : ℕ → Sys Error ℕ) (entries i : ℕ) (w : World PathBuf)
    (P : Except (Exit Error) ℕ → World PathBuf → Prop) (hop : (op entries).Wp P w)
    (hw : ∀ k, (op k).Wp (fun _ w' => w.Writes i w') w) :
    (submit env op entries).Wp (fun r w' => w.Writes i w' ∧
      ∀ n, r = .ok n → P (.ok n) w') w := by
  have hawait : ∀ a, (submit.awaited op entries a).Wp (fun r w' => w.Writes i w' ∧
      ∀ n, r = .ok n → P (.ok n) w') w := by
    intro a
    cases a with
    | answered =>
      refine ⟨hw entries, fun n hn => ?_⟩
      have hn' : (op entries w).1 = .ok n := hn
      unfold Prog.Wp at hop
      rwa [hn'] at hop
    | ringPoisoned => exact ⟨.refl _ _, nofun⟩
    | driverDead => exact ⟨.refl _ _, nofun⟩
    | futureDropped k =>
      rw [submit.awaited, Prog.wp_ignore_bind]
      exact Prog.wp_mono (hw k) fun r w' h => ⟨h, nofun⟩
    | senderDropped k =>
      rw [submit.awaited, Prog.wp_ignore_bind]
      exact Prog.wp_mono (hw k) fun r w' h => ⟨h, nofun⟩
  exact hawait (env.awaits w.clock)

theorem wp_writeAtNative (i : ℕ) (all : Bytes) (w : World PathBuf)
    (h : Filled all 0 (w.disk.data i)) :
    (writeAtNative env i all 0).Wp (fun r w' => w.Writes i w' ∧
      ∀ n, r = .ok n → Filled all n (w'.disk.data i)) w := by
  refine Prog.wp_mono (wp_submit env _ _ i w _ (wp_transferLoop env all.length i all 0 0 w h)
    fun k => Prog.wp_mono (wp_transferLoop env k i all 0 0 w h) fun r w' hl => hl.writes) ?_
  rintro r w' ⟨hw, hok⟩
  refine ⟨hw, fun n hn => ?_⟩
  have := (hok n hn).ok n rfl
  rwa [Nat.zero_add] at this

theorem wp_fdatasyncNative (i : ℕ) (w : World PathBuf) :
    (fdatasyncNative env i).Wp (fun r w' => w.Writes i w' ∧
      (r = .ok () → w'.disk.data i = w.disk.data i ∧ w'.disk.fenced i = true)) w := by
  unfold fdatasyncNative
  have hfence : (do sysCall (Io.fence env.plan i); pure 0 : Sys Error ℕ).Wp (fun r w' =>
      w.Writes i w' ∧ (∀ n, r = .ok n → w'.disk.data i = w.disk.data i ∧
        w'.disk.fenced i = true)) w := by
    refine Prog.wp_bind _ _ _ _ _ (wp_sysFence env i w) ?_ ?_
    · rintro ⟨⟩ w' ⟨hw, hd, hf⟩
      exact ⟨hw, fun _ _ => ⟨hd, hf rfl⟩⟩
    · rintro e w' ⟨hw, -, -⟩
      exact ⟨hw, nofun⟩
  refine Prog.wp_bind _ _ _ _ _ (wp_submit env _ 1 i w _ hfence ?_) ?_ ?_
  · intro k
    split
    · exact .refl _ _
    · exact Prog.wp_mono hfence fun r w' hl => hl.1
  · rintro n w' ⟨hw, hok⟩
    exact ⟨hw, fun _ => (hok n rfl).2 n rfl⟩
  · rintro e w' ⟨hw, -⟩
    exact ⟨hw, nofun⟩

end Fsys.Crud
