import Fsys.Crud.AtomicReplace

/-!
# Atomic replace keeps its promise

However a whole-file writer ends, the target is what it was or it is the payload,
and it is the payload just when the rename took place. The rename is issued for a
temp file that holds the payload and was fenced after its last change, no other
file changes, and no temp file stays if its removal works.
-/

namespace Fsys.Crud
open Fsys.Base Fsys.Platform

/-! ### Temp names are never the target's -/

theorem utf8Size_digitChar : ∀ n < 16, (Nat.digitChar n).utf8Size = 1 := by decide

theorem utf8Size_hexDigits (k n : ℕ) : ∀ c ∈ hexDigits k n, c.utf8Size = 1 := by
  induction k generalizing n with
  | zero => nofun
  | succ k ih =>
    intro c hc
    rw [hexDigits, List.mem_append, List.mem_singleton] at hc
    rcases hc with hc | rfl
    · exact ih _ c hc
    · exact utf8Size_digitChar _ (Nat.mod_lt _ (by decide))

theorem length_hexDigits (k n : ℕ) : (hexDigits k n).length = k := by
  induction k generalizing n with
  | zero => rfl
  | succ k ih => rw [hexDigits, List.length_append, ih, List.length_singleton]

/-- Characters of one byte each. -/
theorem utf8ByteSize_ofList (cs : List Char) (h : ∀ c ∈ cs, c.utf8Size = 1) :
    (String.ofList cs).utf8ByteSize = cs.length := by
  induction cs with
  | nil => rfl
  | cons c cs ih =>
    have hc : String.ofList (c :: cs) = String.singleton c ++ String.ofList cs := by
      rw [String.singleton_eq_ofList, ← String.ofList_append, List.singleton_append]
    rw [hc, String.utf8ByteSize_append, String.utf8ByteSize_singleton, h c List.mem_cons_self,
      ih fun d hd => h d (List.mem_cons_of_mem _ hd), List.length_cons, Nat.add_comm]

theorem utf8ByteSize_hex16 (n : UInt64) : (hex16 n).utf8ByteSize = 16 := by
  rw [hex16, utf8ByteSize_ofList _ (utf8Size_hexDigits 16 _), length_hexDigits]

theorem utf8ByteSize_hex (n : UInt32) : (hex n).utf8ByteSize ≤ 8 := by
  unfold hex
  split
  · decide
  · have hsub := List.dropWhile_sublist (fun c => c = '0') (l := hexDigits 8 n.toNat)
    rw [utf8ByteSize_ofList _ fun c hc => utf8Size_hexDigits 8 _ c (hsub.subset hc)]
    exact Nat.le_trans hsub.length_le (Nat.le_of_eq (length_hexDigits 8 _))

theorem utf8ByteSize_tempHead (env : Env) (attempt : ℕ) :
    0 < (tempHead env attempt).utf8ByteSize ∧ (tempHead env attempt).utf8ByteSize ≤ 36 := by
  have h1 := utf8ByteSize_hex env.pid
  have h2 := utf8ByteSize_hex16 (env.nonces attempt)
  have h3 : tempPrefix.utf8ByteSize = 10 := by decide
  have h4 : "-".utf8ByteSize = 1 := by decide
  have h5 : ".".utf8ByteSize = 1 := by decide
  unfold tempHead
  simp only [String.utf8ByteSize_append, h2, h3, h4, h5]
  omega

/-- A temp name is longer than the target's, or is a short one for a long one. -/
theorem genTempPath_ne (env : Env) (target : PathBuf) (attempt : ℕ) :
    genTempPath env target attempt ≠ target := by
  have hhead := utf8ByteSize_tempHead env attempt
  intro heq
  have hname := congrArg PathBuf.fileName heq
  cases hf : target.fileName with
  | none =>
    rw [hf] at hname
    cases hname
  | some name =>
    simp only [genTempPath, hf, Option.some.injEq] at hname
    have hsize := congrArg String.utf8ByteSize hname
    unfold maxNameLen at hsize
    split at hsize
    · rw [String.utf8ByteSize_append] at hsize
      omega
    · rw [String.utf8ByteSize_append, utf8ByteSize_hex16] at hsize
      omega

/-! ### Exits -/

section

variable {ε ε' α : Type} {m : Sys ε α} {P : Except (Exit ε) α → World PathBuf → Prop}
  {w : World PathBuf}

/-- What holds however a program ends holds under another name of its errors. -/
theorem wp_mapErr {Q : Except (Exit ε') α → World PathBuf → Prop} (f : ε → ε') (h : m.Wp P w)
    (hok : ∀ a t, P (.ok a) t → Q (.ok a) t)
    (herr : ∀ x y t, P (.error x) t → Q (.error y) t) : (mapErr f m).Wp Q w :=
  h.mapError _ hok fun x t ht => herr x _ t ht

theorem wp_tryErr {Q : Except (Exit ε') (Except ε α) → World PathBuf → Prop} (h : m.Wp P w)
    (hok : ∀ a t, P (.ok a) t → Q (.ok (.ok a)) t)
    (hfail : ∀ e t, P (.error (.failed e)) t → Q (.ok (.error e)) t)
    (herr : ∀ x y t, P (.error x) t → Q (.error y) t) : (tryErr m).Wp Q w := by
  unfold Prog.Wp at h ⊢
  unfold tryErr
  split <;> rename_i hm <;> rw [hm] at h
  · exact hok _ _ h
  · exact hfail _ _ h
  · exact herr _ _ _ h
  · exact herr _ _ _ h
  · exact herr _ _ _ h

end

/-! ### The Direct writes leave the payload, fenced -/

variable (env : Env)

theorem padded_of_not_needsTrim (data : Bytes) (ss : ℕ) (hs : data = [] ∨ 0 < ss)
    (h : needsTrim data.length ss = false) : padded data ss = data := by
  rcases hs with rfl | hs
  · exact padded_nil ss
  · refine padded_of_dvd data ss hs (Nat.dvd_of_mod_eq_zero ?_)
    have hmax : max ss 1 = ss := Nat.max_eq_left hs
    rw [needsTrim, hmax] at h
    simpa using h

/-- The post state of a durable write. -/
def Durable (i : ℕ) (data : Bytes) {ε : Type} (w : World PathBuf) (r : Except (Exit ε) Unit)
    (w' : World PathBuf) : Prop :=
  w.Writes i w' ∧ (r = .ok () → w'.disk.data i = data ∧ w'.disk.fenced i = true)

/-- A fence of a file that holds the payload. -/
theorem wp_fence_durable (i : ℕ) (data : Bytes) (w w' : World PathBuf) (hw : w.Writes i w')
    (hd : w'.disk.data i = data) :
    (mapErr (atStep "flush") (sysCall (Io.fence env.plan i))).Wp (Durable i data w) w' := by
  refine wp_mapErr _ (wp_sysFence env i w') ?_ ?_
  · rintro ⟨⟩ u ⟨hw', hd', hf⟩
    exact ⟨hw.trans hw', fun _ => ⟨hd'.trans hd, hf rfl⟩⟩
  · rintro x y u ⟨hw', -, -⟩
    exact ⟨hw.trans hw', nofun⟩

theorem wp_writeDirectDurablePlatform (i : ℕ) (data : Bytes) (ss : ℕ) (w : World PathBuf)
    (h : Filled (padded data ss) 0 (w.disk.data i)) :
    (writeDirectDurablePlatform env i data ss).Wp (Durable i data w) w := by
  unfold writeDirectDurablePlatform
  refine Prog.wp_bind _ _ _ _ (fun r w' => w.Writes i w' ∧ (r = .ok () →
    w'.disk.data i = padded data ss ∧ (data = [] ∨ 0 < ss))) ?_ ?_ ?_
  · exact wp_mapErr _ (wp_writeAllDirect env i data ss w h) (fun _ _ h => ⟨h.1, fun _ => h.2 rfl⟩)
      (fun _ _ _ h => ⟨h.1, nofun⟩)
  · rintro ⟨⟩ w' ⟨hw, hok⟩
    obtain ⟨hd, hs⟩ := hok rfl
    split
    · refine Prog.wp_bind _ _ _ _ (fun r u => w.Writes i u ∧ (r = .ok () →
        u.disk.data i = data)) ?_ ?_ ?_
      · exact wp_mapErr _ (wp_sysSetLen env i data _ w' hd)
          (fun _ _ h => ⟨hw.trans h.1, fun _ => h.2 rfl⟩) (fun _ _ _ h => ⟨hw.trans h.1, nofun⟩)
      · rintro ⟨⟩ u ⟨hw', hok'⟩
        exact wp_fence_durable env i data w u hw' (hok' rfl)
      · rintro e u ⟨hw', -⟩
        exact ⟨hw', nofun⟩
    · rename_i hneeds
      refine wp_fence_durable env i data w w' hw ?_
      rw [hd, padded_of_not_needsTrim data ss hs (Bool.eq_false_of_not_eq_true hneeds)]
  · rintro e w' ⟨hw, -⟩
    exact ⟨hw, nofun⟩

/-- What a ring write of the padded payload leaves, whether it works or not. -/
structure RingWrote (i : ℕ) (data : Bytes) (ss : ℕ) (fuse : Bool) (w : World PathBuf)
    (r : Except (Exit Error) Bool) (w' : World PathBuf) : Prop where
  writes : w.Writes i w'
  kept : Filled (padded data ss) 0 (w'.disk.data i)
  ok : ∀ fenced, r = .ok fenced → fenced = fuse ∧ w'.disk.data i = padded data ss ∧
    (data = [] ∨ 0 < ss) ∧ (fuse = true → w'.disk.fenced i = true)

theorem wp_iouringFence (i : ℕ) (nvme : Bool) (w : World PathBuf) :
    (iouringFence env i nvme).Wp (fun r w' => w.Writes i w' ∧
      w'.disk.data i = w.disk.data i ∧ (r = .ok () → w'.disk.fenced i = true)) w := by
  unfold iouringFence
  split
  · exact wp_sysFence env i w
  · exact wp_sysFence env i w

/-- The fence that closes a ring write. -/
theorem wp_iouringFence_wrote (i : ℕ) (data : Bytes) (ss : ℕ) (nvme : Bool) (w w' : World PathBuf)
    (hw : w.Writes i w') (hd : w'.disk.data i = padded data ss) (hs : data = [] ∨ 0 < ss)
    (hk : Filled (padded data ss) 0 (w'.disk.data i)) :
    (do iouringFence env i nvme; pure true : Sys Error Bool).Wp
      (RingWrote i data ss true w) w' := by
  refine Prog.wp_bind _ _ _ _ _ (wp_iouringFence env i nvme w') ?_ ?_
  · rintro ⟨⟩ u ⟨hw', hd', hf⟩
    refine ⟨hw.trans hw', hd' ▸ hk, ?_⟩
    rintro _ ⟨⟩
    exact ⟨rfl, hd'.trans hd, hs, fun _ => hf rfl⟩
  · rintro e u ⟨hw', hd', -⟩
    exact ⟨hw.trans hw', hd' ▸ hk, nofun⟩

theorem wp_iouringWriteLinked (i : ℕ) (data : Bytes) (ss : ℕ) (w w' : World PathBuf)
    (hw : w.Writes i w') (hs : 0 < ss) (h : Filled (padded data ss) 0 (w'.disk.data i)) :
    (iouringWriteLinked env i (padded data ss)).Wp (RingWrote i data ss true w) w' := by
  refine Prog.wp_bind _ _ _ _ _ (wp_writeAtLinkedFsync env i (padded data ss) w' h) ?_ ?_
  · rintro n u ⟨hw', hk, hn⟩
    obtain ⟨hf, hfence⟩ := hn n rfl
    split
    · exact ⟨hw.trans hw', hk, nofun⟩
    · rename_i hlen
      refine ⟨hw.trans hw', hk, ?_⟩
      rintro _ ⟨⟩
      exact ⟨rfl, hf.all (Nat.le_of_eq (not_not.mp hlen).symm), Or.inr hs, fun _ => hfence⟩
  · rintro e u ⟨hw', hk, -⟩
    exact ⟨hw.trans hw', hk, nofun⟩

theorem wp_iouringWriteUnlinked (i : ℕ) (data : Bytes) (ss : ℕ) (nvme fuse : Bool)
    (w w' : World PathBuf) (hw : w.Writes i w') (hs : 0 < ss)
    (h : Filled (padded data ss) 0 (w'.disk.data i)) :
    (iouringWriteUnlinked env i (padded data ss) nvme fuse).Wp (RingWrote i data ss fuse w) w' := by
  refine Prog.wp_bind _ _ _ _ _ (wp_ringWriteAt env i (padded data ss) 0 w' h) ?_ ?_
  · rintro n u ⟨hw', hk, hn⟩
    have hf := hn n rfl
    split
    · exact ⟨hw.trans hw', hk, nofun⟩
    · rename_i hlen
      have hall := hf.all (by rw [not_not.mp hlen, Nat.zero_add])
      cases fuse with
      | true =>
        exact wp_iouringFence_wrote env i data ss nvme w u (hw.trans hw') hall (Or.inr hs) hk
      | false =>
        refine ⟨hw.trans hw', hk, ?_⟩
        rintro _ ⟨⟩
        exact ⟨rfl, hall, Or.inr hs, nofun⟩
  · rintro e u ⟨hw', hk, -⟩
    exact ⟨hw.trans hw', hk, nofun⟩

theorem wp_iouringWriteDirect (i : ℕ) (data : Bytes) (ss : ℕ) (nvme fuse : Bool)
    (w : World PathBuf) (h : Filled (padded data ss) 0 (w.disk.data i)) :
    (iouringWriteDirect env i data ss nvme fuse).Wp (RingWrote i data ss fuse w) w := by
  unfold iouringWriteDirect
  split
  · rename_i hnil
    subst hnil
    have hd : w.disk.data i = padded [] ss := by
      have hlen := h.length_le
      rw [padded_nil] at hlen ⊢
      exact List.eq_nil_of_length_eq_zero (Nat.le_zero.mp hlen)
    cases fuse with
    | true => exact wp_iouringFence_wrote env i [] ss nvme w w (.refl _ _) hd (Or.inl rfl) h
    | false =>
      refine ⟨.refl _ _, h, ?_⟩
      rintro _ ⟨⟩
      exact ⟨rfl, hd, Or.inl rfl, nofun⟩
  split
  · exact ⟨.refl _ _, h, nofun⟩
  · rename_i hs
    have hs' := Nat.pos_of_ne_zero hs
    refine Prog.wp_bind _ _ _ _ _ (wp_alignedCopy env i _ ss data w) ?_ ?_
    · rintro b w' ⟨hw, hdisk, hb⟩
      have hbuf : b = padded data ss := (hb b rfl).2.2
      subst hbuf
      cases hfuse : fuse && !nvme with
      | true =>
        obtain ⟨rfl, -⟩ := Bool.and_eq_true_iff.mp hfuse
        exact wp_iouringWriteLinked env i data ss w w' hw hs' (hdisk ▸ h)
      | false => exact wp_iouringWriteUnlinked env i data ss nvme fuse w w' hw hs' (hdisk ▸ h)
    · rintro e w' ⟨hw, hdisk, -⟩
      exact ⟨hw, hdisk ▸ h, nofun⟩

/-- Trim and fence after a ring write. A fence that was part of the write stands, as there is
nothing to trim then. -/
theorem wp_trimAndFence (i : ℕ) (data : Bytes) (ss : ℕ) (nvme fenced : Bool) (w w' : World PathBuf)
    (hw : w.Writes i w') (hd : w'.disk.data i = padded data ss) (hs : data = [] ∨ 0 < ss)
    (hf : fenced = !(needsTrim data.length ss)) (hfence : fenced = true → w'.disk.fenced i = true) :
    (trimAndFence env i data (needsTrim data.length ss) nvme fenced).Wp (Durable i data w) w' := by
  unfold trimAndFence
  cases hneeds : needsTrim data.length ss with
  | true =>
    rw [hneeds] at hf
    subst hf
    refine Prog.wp_bind _ _ _ _ (fun r u => w.Writes i u ∧ (r = .ok () →
      u.disk.data i = data)) ?_ ?_ ?_
    · exact wp_mapErr _ (wp_sysSetLen env i data _ w' hd)
        (fun _ _ h => ⟨hw.trans h.1, fun _ => h.2 rfl⟩) (fun _ _ _ h => ⟨hw.trans h.1, nofun⟩)
    · rintro ⟨⟩ u ⟨hw', hok⟩
      refine wp_mapErr _ (wp_iouringFence env i nvme u) ?_ ?_
      · rintro ⟨⟩ v ⟨hv, hdv, hfv⟩
        exact ⟨hw'.trans hv, fun _ => ⟨hdv.trans (hok rfl), hfv rfl⟩⟩
      · rintro x y v ⟨hv, -, -⟩
        exact ⟨hw'.trans hv, nofun⟩
    · rintro e u ⟨hw', -⟩
      exact ⟨hw', nofun⟩
  | false =>
    rw [hneeds] at hf
    subst hf
    rw [padded_of_not_needsTrim data ss hs hneeds] at hd
    exact ⟨hw, fun _ => ⟨hd, hfence rfl⟩⟩

/-- The ring, or `pwrite` over what the ring left. -/
theorem wp_directWriteDurable (h : Handle) (i : ℕ) (data : Bytes) (w : World PathBuf)
    (hnew : w.disk.data i = []) :
    (directWriteDurable env h i data).Wp (Durable i data w) w := by
  have hfill : Filled (padded data h.sectorSize) 0 (w.disk.data i) := hnew ▸ filled_nil _
  unfold directWriteDurable
  cases hring : h.ring with
  | true =>
    refine Prog.wp_bind _ _ _ _ (fun r w' => w.Writes i w' ∧
      (∀ fenced, r = .ok (.ok fenced) → RingWrote i data h.sectorSize
        (!(needsTrim data.length h.sectorSize)) w (.ok fenced) w') ∧
      ∀ e, r = .ok (.error e) → Filled (padded data h.sectorSize) 0 (w'.disk.data i)) ?_ ?_ ?_
    · refine wp_tryErr (wp_iouringWriteDirect env i data h.sectorSize h.nvme _ w hfill) ?_ ?_ ?_
      · intro fenced w' hr
        refine ⟨hr.writes, fun _ heq => ?_, by simp⟩
        cases heq
        exact hr
      · intro e w' hr
        exact ⟨hr.writes, by simp, fun _ _ => hr.kept⟩
      · intro x y w' hr
        exact ⟨hr.writes, by simp, by simp⟩
    · rintro (e | fenced) w' ⟨hw, hr, hf⟩
      · have hk := hf _ rfl
        refine Prog.wp_mono (wp_writeDirectDurablePlatform env i data h.sectorSize w' hk) ?_
        rintro r u ⟨hu, hok⟩
        exact ⟨hw.trans hu, hok⟩
      · have hwrote := hr _ rfl
        obtain ⟨hfuse, hd, hs, hfence⟩ := hwrote.ok fenced rfl
        exact wp_trimAndFence env i data h.sectorSize h.nvme fenced w w' hw hd hs hfuse
          fun hf => hfence (hfuse ▸ hf)
    · rintro x w' ⟨hw, -⟩
      exact ⟨hw, by simp⟩
  | false => exact wp_writeDirectDurablePlatform env i data h.sectorSize w hfill

/-! ### The hooks of the source -/

/-- Names, contents and renames are as they were. -/
def Quiet (w w' : World PathBuf) : Prop := w.disk.Same w'.disk ∧ w'.renames = w.renames

theorem Quiet.trans {w w' w'' : World PathBuf} (h : Quiet w w') (h' : Quiet w' w'') :
    Quiet w w'' := ⟨h.1.trans h'.1, h'.2.trans h.2⟩

theorem wp_setMeta_quiet (p : PathBuf) (w w' : World PathBuf) (h : Quiet w w') :
    (Io.setMeta env.plan p).Wp (fun _ u => Quiet w u) w' :=
  Prog.wp_mono (Io.wp_setMeta env.plan p w') fun _ _ hu => h.trans ⟨hu.2, hu.1⟩

theorem wp_applyPreservedMetadata (staging : PathBuf) (file : ℕ) (w : World PathBuf)
    (hname : w.disk.names staging = some file) :
    (applyPreservedMetadata env staging).Wp (fun r w' => w.disk.Same w'.disk ∧
      w'.renames = w.renames ∧ (r = .ok () → w'.disk.fenced file = true)) w := by
  unfold applyPreservedMetadata
  rw [Prog.wp_ignore_bind]
  refine Prog.wp_mono (wp_setMeta_quiet env staging w w ⟨.refl _, rfl⟩) fun _ w1 h1 => ?_
  rw [Prog.wp_ignore_bind]
  refine Prog.wp_mono (wp_setMeta_quiet env staging w w1 h1) fun _ w2 h2 => ?_
  rw [Prog.wp_ignore_bind]
  refine Prog.wp_mono (wp_setMeta_quiet env staging w w2 h2) fun _ w3 h3 => ?_
  refine Prog.wp_bind _ _ _ _ (fun r w4 => Quiet w w4 ∧ ∀ j, r = .ok j → j = file) ?_ ?_ ?_
  · have hopen : (sysCall (Io.openRead env.plan staging)).Wp (fun r w4 =>
        Quiet w w4 ∧ ∀ j, r = .ok j → j = file) w3 := by
      refine (Io.wp_look env.plan _ _ w3).mapError _ ?_ ?_
      · rintro j w4 ⟨hd, hr, -, ⟨e, n, -, ⟨⟩⟩ | ⟨n, -, ha⟩⟩
        refine ⟨h3.trans ⟨.of_eq hd, hr⟩, ?_⟩
        rintro _ ⟨⟩
        unfold Io.fileOf at ha
        rw [h3.1.names, hname] at ha
        cases ha
        rfl
      · rintro e w4 ⟨hd, hr, -⟩
        exact ⟨h3.trans ⟨.of_eq hd, hr⟩, nofun⟩
    exact wp_mapErr _ hopen (fun j _ h => ⟨h.1, by rintro _ ⟨⟩; exact h.2 j rfl⟩)
      (fun _ _ _ h => ⟨h.1, nofun⟩)
  · rintro j w4 ⟨h4, hj⟩
    rw [hj j rfl]
    have hfence : (sysCall (Io.fence env.plan file)).Wp (fun r w5 => Quiet w w5 ∧
        (r = .ok () → w5.disk.fenced file = true)) w4 := by
      refine (Io.wp_fence env.plan file w4).mapError _ ?_ ?_
      · rintro ⟨⟩ w5 ⟨hr, -, -, hd⟩
        refine ⟨h4.trans ⟨hd ▸ Disk.same_fence _ _, hr⟩, fun _ => ?_⟩
        rw [hd]
        exact Function.update_self _ _ _
      · rintro e w5 ⟨hr, -, -, hd⟩
        exact ⟨h4.trans ⟨.of_eq hd, hr⟩, nofun⟩
    exact wp_mapErr _ hfence (fun _ _ h => ⟨h.1.1, h.1.2, fun _ => h.2 rfl⟩)
      (fun _ _ _ h => ⟨h.1.1, h.1.2, nofun⟩)
  · rintro e w4 ⟨h4, -⟩
    exact ⟨h4.1, h4.2, nofun⟩

/-- `PlatformHooks` (`atomic.rs:101-111`), with the defaults of the trait. -/
def platformHooks (sectorSize : ℕ) : ReplaceHooks where
  directRefused := pure ()
  writeDirectDurable file data := writeDirectDurablePlatform env file data sectorSize
  beforeRename _ := pure ()
  refused_keeps _ := ⟨.refl _, rfl⟩
  write_durable file data w h :=
    wp_writeDirectDurablePlatform env file data sectorSize w (h ▸ filled_nil _)
  before_keeps _ _ _ _ hf := ⟨.refl _, rfl, fun _ => hf⟩

/-- `SoloHooks` (`file.rs:616-630`). -/
def soloHooks (h : Handle) : ReplaceHooks where
  directRefused := pure ()
  writeDirectDurable := directWriteDurable env h
  beforeRename _ := pure ()
  refused_keeps _ := ⟨.refl _, rfl⟩
  write_durable file data w hnew := wp_directWriteDurable env h file data w hnew
  before_keeps _ _ _ _ hf := ⟨.refl _, rfl, fun _ => hf⟩

/-- `WriteCopyHooks` (`file.rs:632-652`): metadata is copied if the target was there. -/
def writeCopyHooks (h : Handle) (existing : Bool) : ReplaceHooks where
  directRefused := (soloHooks env h).directRefused
  writeDirectDurable := (soloHooks env h).writeDirectDurable
  beforeRename temp := if existing then applyPreservedMetadata env temp else pure ()
  refused_keeps := (soloHooks env h).refused_keeps
  write_durable := (soloHooks env h).write_durable
  before_keeps temp file w hname hf := by
    cases existing with
    | true => exact wp_applyPreservedMetadata env temp file w hname
    | false => exact ⟨.refl _, rfl, fun _ => hf⟩

/-! ### A temp file and nothing else -/

/-- The renames between two states. -/
def renamesSince (w w' : World PathBuf) : List (Renamed PathBuf) :=
  w'.renames.drop w.renames.length

/-- A rename of a temp file that holds the payload and was fenced since. -/
def SoundRename (target : PathBuf) (data : Bytes) (x : Renamed PathBuf) : Prop :=
  x.target = target ∧ x.bytes = some data ∧ x.fenced = true

/-- Since `w` the file `i` came to be, under the name `temp`, and renames of it may have
failed. -/
structure Staged (target temp : PathBuf) (payload : Bytes) (w : World PathBuf) (i : ℕ)
    (w' : World PathBuf) : Prop where
  free : w.disk.names temp = none
  file : i = w.disk.next
  names : w'.disk.names = Function.update w.disk.names temp (some i)
  data : ∀ j, j ≠ i → w'.disk.data j = w.disk.data j
  next : w'.disk.next = w.disk.next + 1
  renames : ∃ issued, w'.renames = w.renames ++ issued ∧
    ∀ x ∈ issued, SoundRename target payload x ∧ x.worked = false

variable {target temp : PathBuf} {payload : Bytes} {w w' w'' : World PathBuf} {i : ℕ}

theorem Staged.writes (h : Staged target temp payload w i w') (h' : w'.Writes i w'') :
    Staged target temp payload w i w'' where
  free := h.free
  file := h.file
  names := h'.touches.names.trans h.names
  data j hj := (h'.touches.data j hj).trans (h.data j hj)
  next := h'.touches.next.trans h.next
  renames := by
    rw [h'.renames]
    exact h.renames

theorem Staged.quiet (h : Staged target temp payload w i w') (h' : Quiet w' w'') :
    Staged target temp payload w i w'' :=
  h.writes ⟨⟨h'.1.names, fun j _ => by rw [h'.1.data], h'.1.next⟩, h'.2⟩

theorem Staged.name (h : Staged target temp payload w i w') : w'.disk.names temp = some i := by
  rw [h.names, Function.update_self]

theorem Staged.keeps (h : Staged target temp payload w i w') :
    Disk.Keeps (fun p => p = target) w.disk w'.disk where
  names p _ hp := by
    have hne : p ≠ temp := by
      rintro rfl
      exact hp h.free
    rw [h.names, Function.update_of_ne hne]
  data j hj := h.data j (by rw [h.file]; omega)
  next := by rw [h.next]; omega

/-- The create of a temp file. -/
theorem staged_create (target : PathBuf) (payload : Bytes) (hfree : w.disk.names temp = none)
    (hd : w'.disk = w.disk.create temp) (hr : w'.renames = w.renames) :
    Staged target temp payload w w.disk.next w' ∧ w'.disk.data w.disk.next = [] := by
  refine ⟨⟨hfree, rfl, by rw [hd]; rfl, fun j hj => ?_, by rw [hd]; rfl,
    ⟨[], by rw [hr, List.append_nil], nofun⟩⟩, ?_⟩
  · rw [hd]
    exact Function.update_of_ne hj _ _
  · rw [hd]
    exact Function.update_self _ _ _

/-! ### The outcome of a writer -/

/-- What a whole-file writer promises of its result and the state it leaves. -/
structure Replaced (plan : Plan PathBuf) (target : PathBuf) (data : Bytes) (w : World PathBuf)
    (r : Except (Exit Error) Unit) (w' : World PathBuf) : Prop where
  /-- every rename it issued was of the payload, fenced -/
  issued : w'.renames = w.renames ++ renamesSince w w' ∧
    ∀ x ∈ renamesSince w w', SoundRename target data x
  /-- the target is the payload, in a file of its own, if a rename worked -/
  published : (∃ x ∈ renamesSince w w', x.worked = true) →
    ∃ i, w.disk.next ≤ i ∧ w'.disk.names target = some i ∧ w'.disk.data i = data
  /-- and what it was if none did -/
  unchanged : (¬ ∃ x ∈ renamesSince w w', x.worked = true) →
    w'.disk.names target = w.disk.names target ∧ w'.disk.content target = w.disk.content target
  /-- success is reported for a rename that worked -/
  returned : r = .ok () ↔ ∃ x ∈ renamesSince w w', x.worked = true
  /-- no other file changes -/
  keeps : Disk.Keeps (fun p => p = target) w.disk w'.disk
  /-- and none is left behind -/
  clean : r ≠ .error .stalled → (∀ p, Io.Works plan (.remove p)) →
    ∀ p, p ≠ target → w.disk.names p = none → w'.disk.names p = none

theorem renamesSince_append {issued : List (Renamed PathBuf)}
    (h : w'.renames = w.renames ++ issued) : renamesSince w w' = issued := by
  rw [renamesSince, h, List.drop_left]

/-- A failure with renames that did not work, or none. -/
theorem replaced_of_failure (plan : Plan PathBuf) (x : Exit Error)
    (issued : List (Renamed PathBuf)) (hr : w'.renames = w.renames ++ issued)
    (hi : ∀ y ∈ issued, SoundRename target payload y ∧ y.worked = false)
    (hkeeps : Disk.Keeps (fun p => p = target) w.disk w'.disk)
    (hname : w'.disk.names target = w.disk.names target)
    (hclean : Exit.stalled ≠ x → (∀ p, Io.Works plan (.remove p)) →
      ∀ p, p ≠ target → w.disk.names p = none → w'.disk.names p = none) :
    Replaced plan target payload w (.error x) w' := by
  have hsince := renamesSince_append hr
  have hnone : ¬ ∃ y ∈ renamesSince w w', y.worked = true := by
    rintro ⟨y, hy, hw⟩
    rw [hsince] at hy
    rw [(hi y hy).2] at hw
    cases hw
  refine ⟨⟨by rw [hsince, hr], fun y hy => (hi y (hsince ▸ hy)).1⟩, fun h => absurd h hnone,
    fun _ => ⟨hname, ?_⟩, ⟨nofun, fun h => absurd h hnone⟩, hkeeps, fun hx => hclean ?_⟩
  · -- the file behind the target is an old one
    unfold Disk.content
    rw [hname]
    cases hn : w.disk.names target with
    | none => rfl
    | some j => exact congrArg some (hkeeps.data j (w.disk.fresh target j hn))
  · rintro rfl
    exact hx rfl

/-- A call that ends before there is a temp file. -/
theorem replaced_of_quiet (plan : Plan PathBuf) (x : Exit Error) (hd : w'.disk = w.disk)
    (hr : w'.renames = w.renames) : Replaced plan target payload w (.error x) w' :=
  replaced_of_failure plan x [] (by rw [hr, List.append_nil]) nofun (hd ▸ .refl _ _)
    (by rw [hd]) fun _ _ p _ hp => by rw [hd, hp]

/-- A call that is still running has left the target alone. -/
theorem Staged.stalled (plan : Plan PathBuf) (h : Staged target temp payload w i w')
    (hne : temp ≠ target) : Replaced plan target payload w (.error .stalled) w' := by
  obtain ⟨issued, hr, hi⟩ := h.renames
  refine replaced_of_failure plan _ issued hr hi h.keeps ?_ (fun hx => absurd rfl hx)
  rw [h.names, Function.update_of_ne hne.symm]

/-- The removal of the temp file on the way out. -/
theorem Staged.removed (h : Staged target temp payload w i w') (hne : temp ≠ target)
    (x : Exit Error) :
    (Io.remove env.plan temp).Wp (fun _ u => Replaced env.plan target payload w (.error x) u)
      w' := by
  obtain ⟨issued, hr, hi⟩ := h.renames
  refine Prog.wp_mono (Io.wp_remove env.plan temp w') ?_
  rintro (e | ⟨⟩) u ⟨hru, -, hworks, hd⟩
  · refine replaced_of_failure _ x issued (hru.trans hr) hi (hd ▸ h.keeps) ?_ ?_
    · rw [hd, h.names, Function.update_of_ne hne.symm]
    · intro _ hall
      cases hworks (hall temp) (by rw [h.name]; nofun)
  · have hnames : u.disk.names = w.disk.names := by
      rw [hd]
      show Function.update w'.disk.names temp none = w.disk.names
      rw [h.names, Function.update_idem, ← h.free, Function.update_eq_self]
    refine replaced_of_failure _ x issued (hru.trans hr) hi ?_ (by rw [hnames]) ?_
    · rw [hd]
      exact h.keeps.unlink temp (Or.inr h.free)
    · intro _ _ p _ hp
      rw [hnames, hp]

/-- A rename that works publishes the payload. -/
theorem Staged.renamed (plan : Plan PathBuf) (h : Staged target temp payload w i w')
    (hne : temp ≠ target) (hdata : w'.disk.data i = payload) (hfence : w'.disk.fenced i = true)
    (hr : w''.renames = w'.renames ++
      [⟨temp, target, some (w'.disk.data i), w'.disk.fenced i, true⟩])
    (hd : w''.disk = w'.disk.rename temp target) :
    Replaced plan target payload w (.ok ()) w'' := by
  obtain ⟨issued, hri, hi⟩ := h.renames
  have hsince : renamesSince w w'' = issued ++
      [⟨temp, target, some (w'.disk.data i), w'.disk.fenced i, true⟩] := by
    refine renamesSince_append ?_
    rw [hr, hri, List.append_assoc]
  have hworked : ∃ x ∈ renamesSince w w'', x.worked = true := by
    refine ⟨⟨temp, target, some (w'.disk.data i), w'.disk.fenced i, true⟩, ?_, rfl⟩
    rw [hsince]
    exact List.mem_append_right _ List.mem_cons_self
  have hnames : ∀ p, w''.disk.names p =
      if p = temp then none else if p = target then some i else w.disk.names p := by
    intro p
    rw [hd]
    show Function.update (Function.update w'.disk.names target (w'.disk.names temp)) temp none p = _
    by_cases h1 : p = temp
    · rw [if_pos h1, h1, Function.update_self]
    · rw [if_neg h1, Function.update_of_ne h1]
      by_cases h2 : p = target
      · rw [if_pos h2, h2, Function.update_self, h.name]
      · rw [if_neg h2, Function.update_of_ne h2, h.names, Function.update_of_ne h1]
  refine ⟨⟨by rw [hsince, hr, hri, List.append_assoc], fun x hx => ?_⟩, fun _ => ⟨i, ?_, ?_, ?_⟩,
    fun hx => absurd hworked hx, ⟨fun _ => hworked, fun _ => rfl⟩, ?_, fun _ _ p hp hnone => ?_⟩
  · rw [hsince, List.mem_append, List.mem_singleton] at hx
    rcases hx with hx | rfl
    · exact (hi x hx).1
    · exact ⟨rfl, congrArg some hdata, hfence⟩
  · exact Nat.le_of_eq h.file.symm
  · rw [hnames, if_neg hne.symm, if_pos rfl]
  · rw [hd]
    exact hdata
  · rw [hd]
    exact h.keeps.rename temp target (Or.inr h.free) rfl
  · rw [hnames, if_neg hp, hnone]
    exact ite_self _

/-! ### The steps under the guard -/

/-- Published, or still only a temp file. -/
def Closed (plan : Plan PathBuf) (target temp : PathBuf) (payload : Bytes) (w : World PathBuf)
    (i : ℕ) {ε : Type} (r : Except ε Unit) (w' : World PathBuf) : Prop :=
  match r with
  | .ok _ => Replaced plan target payload w (.ok ()) w'
  | .error _ => Staged target temp payload w i w'

/-- The rename, of a temp file that holds the payload and is fenced. -/
theorem wp_rename_closed (h : Staged target temp payload w i w') (hne : temp ≠ target)
    (hdata : w'.disk.data i = payload) (hfence : w'.disk.fenced i = true) :
    (Io.rename env.plan temp target).Wp (Closed env.plan target temp payload w i) w' := by
  refine Prog.wp_mono (Io.wp_rename env.plan temp target i w' h.name) ?_
  rintro (e | ⟨⟩) u ⟨hr, hd⟩
  · obtain ⟨issued, hri, hi⟩ := h.renames
    refine ⟨h.free, h.file, by rw [hd, h.names], by rw [hd]; exact h.data, by rw [hd, h.next],
      issued ++ [⟨temp, target, some (w'.disk.data i), w'.disk.fenced i, false⟩], ?_, ?_⟩
    · rw [hr, hri, List.append_assoc]
    · intro x hx
      rw [List.mem_append, List.mem_singleton] at hx
      rcases hx with hx | rfl
      · exact hi x hx
      · exact ⟨⟨rfl, congrArg some hdata, hfence⟩, rfl⟩
  · exact h.renamed env.plan hne hdata hfence hr hd

theorem wp_guarded (body : Sys Error Unit) (hne : temp ≠ target)
    (hbody : body.Wp (Closed env.plan target temp payload w i) w') :
    (guarded env temp body).Wp (Replaced env.plan target payload w) w' := by
  refine Prog.wp_cleanup _ _ _ _ _ hbody (fun _ _ h => h) ?_
  rintro x u hstaged
  cases x with
  | stalled => exact Staged.stalled env.plan hstaged hne
  | failed e => exact Staged.removed env hstaged hne _
  | panicked => exact Staged.removed env hstaged hne _
  | dropped => exact Staged.removed env hstaged hne _

/-- The sync of the parent directory changes nothing, and its failure is not reported. -/
theorem wp_syncDir_replaced (p : PathBuf) (h : Replaced env.plan target payload w (.ok ()) w') :
    ((Io.syncDir env.plan p).ignore : Sys Error Unit).Wp
      (Replaced env.plan target payload w) w' := by
  rw [Prog.wp_ignore]
  refine Prog.wp_mono (Io.wp_look env.plan _ _ w') ?_
  rintro r u ⟨hd, hr, -⟩
  have hsince : renamesSince w u = renamesSince w w' := by rw [renamesSince, hr]; rfl
  exact ⟨by rw [hsince, hr]; exact h.issued, by rw [hsince, hd]; exact h.published,
    by rw [hsince, hd]; exact h.unchanged, by rw [hsince]; exact h.returned,
    by rw [hd]; exact h.keeps, by rw [hd]; exact h.clean⟩

/-! ### Unique temp files -/

/-- An exclusive create: the file is new, or nothing happened. -/
def Created (temp : PathBuf) (w : World PathBuf) (r : Except (Exit Error) ℕ) (w' : World PathBuf) :
    Prop :=
  w'.renames = w.renames ∧
  match r with
  | .ok file => w.disk.names temp = none ∧ file = w.disk.next ∧ w'.disk = w.disk.create temp
  | .error _ => w'.disk = w.disk

theorem wp_createNew_created (temp : PathBuf) (w : World PathBuf) :
    (sysCall (Io.createNew env.plan temp)).Wp (Created temp w) w := by
  refine (Io.wp_createNew env.plan temp w).mapError _ ?_ ?_
  · rintro file w' ⟨hr, -, -, hd⟩
    exact ⟨hr, hd⟩
  · rintro e w' ⟨hr, -, -, hd, -⟩
    exact ⟨hr, hd⟩

/-- The second open, without Direct IO, starts from the same files. -/
theorem wp_openWriteNew (temp : PathBuf) (useDirect : Bool) (w : World PathBuf) :
    (openWriteNew env temp useDirect).Wp (fun r w' => Created temp w (r.map Prod.fst) w') w := by
  unfold openWriteNew
  rw [Prog.wp_attempt_bind]
  refine Prog.wp_mono (Io.wp_createNew env.plan temp w) ?_
  rintro (e | file) w' ⟨hr, -, -, hd⟩
  · dsimp only
    split
    · refine Prog.wp_bind _ _ _ _ _ (wp_createNew_created env temp w') ?_ ?_
      · rintro file u ⟨hr', hd'⟩
        rw [hd.1] at hd'
        exact ⟨hr'.trans hr, hd'⟩
      · rintro x u ⟨hr', hd'⟩
        exact ⟨hr'.trans hr, Eq.trans hd' hd.1⟩
    · exact ⟨hr, hd.1⟩
  · exact ⟨hr, hd⟩

/-- A temp file of its own, empty, or nothing. -/
def Fresh {α : Type} (file : α → ℕ) (target : PathBuf) (payload : Bytes) (w : World PathBuf)
    (r : Except (Exit Error) (PathBuf × α)) (w' : World PathBuf) : Prop :=
  match r with
  | .ok (temp, v) => temp ≠ target ∧ Staged target temp payload w (file v) w' ∧
      w'.disk.data (file v) = []
  | .error _ => w'.disk = w.disk ∧ w'.renames = w.renames

theorem fresh_of_created {α : Type} (file : α → ℕ) (payload : Bytes) (v : α) (hne : temp ≠ target)
    (hd : w'.disk = w.disk) (hr : w'.renames = w.renames)
    (h : Created temp w' (.ok (file v)) w'') :
    Fresh file target payload w (.ok (temp, v)) w'' := by
  obtain ⟨hr', hfree, hfile, hd'⟩ := h
  rw [hd] at hfree hfile hd'
  obtain ⟨hstaged, hnew⟩ := staged_create target payload hfree hd' (hr'.trans hr)
  show temp ≠ target ∧ Staged target temp payload w (file v) w'' ∧ w''.disk.data (file v) = []
  rw [hfile]
  exact ⟨hne, hstaged, hnew⟩

/-- The induction is on the attempts left: an attempt that fails leaves the files alone. -/
theorem wp_uniqueTemp {α : Type} (file : α → ℕ) (target : PathBuf) (payload : Bytes)
    (opener : PathBuf → Sys Error α)
    (hopen : ∀ temp w, (opener temp).Wp (fun r w' => Created temp w (r.map file) w') w)
    (left attempt : ℕ) (w w' : World PathBuf) (hd : w'.disk = w.disk)
    (hr : w'.renames = w.renames) :
    (uniqueTemp env target opener left attempt).Wp (Fresh file target payload w) w' := by
  have hne := genTempPath_ne env target attempt
  induction left generalizing attempt w' with
  | zero =>
    refine Prog.wp_bind _ _ _ _ _ (hopen _ w') ?_ ?_
    · rintro v u hu
      exact fresh_of_created file payload v hne hd hr hu
    · rintro x u ⟨hru, hdu⟩
      exact ⟨Eq.trans hdu hd, hru.trans hr⟩
  | succ left ih =>
    refine Prog.wp_bind _ _ _ _ (fun r u => match r with
      | .ok (.ok v) => Created (genTempPath env target attempt) w' (.ok (file v)) u
      | _ => u.disk = w.disk ∧ u.renames = w.renames) ?_ ?_ ?_
    · refine wp_tryErr (hopen _ w') (fun v u hu => hu) ?_ ?_
      · rintro e u ⟨hru, hdu⟩
        exact ⟨Eq.trans hdu hd, hru.trans hr⟩
      · rintro x y u ⟨hru, hdu⟩
        exact ⟨Eq.trans hdu hd, hru.trans hr⟩
    · rintro (e | v) u hu
      · dsimp only
        split
        · exact ih (attempt + 1) u hu.1 hu.2 (genTempPath_ne env target (attempt + 1))
        · exact hu
      · exact fresh_of_created file payload v hne hd hr hu
    · rintro x u hu
      exact hu

/-! ### `atomic_replace` -/

theorem Quiet.writes (h : Quiet w w') (i : ℕ) : w.Writes i w' :=
  ⟨⟨h.1.names, fun _ _ => by rw [h.1.data], h.1.next⟩, h.2⟩

/-- The temp file is written and fenced on either path. -/
theorem wp_writeTemp (i : ℕ) (directOk : Bool) (payload : Bytes) (rp : ReplacePlan)
    (hooks : ReplaceHooks) (w : World PathBuf) (hnew : w.disk.data i = []) :
    (writeTemp env i directOk payload rp hooks).Wp (Durable i payload w) w := by
  unfold writeTemp
  refine Prog.wp_bind _ _ _ _ (fun _ w1 => Quiet w w1) ?_ ?_ ?_
  · unfold noticeRefused
    split
    · exact hooks.refused_keeps w
    · exact ⟨.refl _, rfl⟩
  · rintro ⟨⟩ w1 h1
    have hnew1 : w1.disk.data i = [] := by rw [h1.1.data, hnew]
    split
    · refine Prog.wp_mono (hooks.write_durable i payload w1 hnew1) ?_
      rintro r w2 ⟨hw, hok⟩
      exact ⟨(h1.writes i).trans hw, hok⟩
    · refine Prog.wp_bind _ _ _ _ (fun r w2 => w.Writes i w2 ∧ (r = .ok () →
        w2.disk.data i = payload)) ?_ ?_ ?_
      · exact wp_mapErr _ (wp_writeAll env env.fuel i payload 0 w1 (hnew1 ▸ filled_nil _))
          (fun _ _ h => ⟨(h1.writes i).trans h.1, fun _ => h.2 rfl⟩)
          (fun _ _ _ h => ⟨(h1.writes i).trans h.1, nofun⟩)
      · rintro ⟨⟩ w2 ⟨hw, hok⟩
        exact wp_fence_durable env i payload w w2 hw (hok rfl)
      · rintro e w2 ⟨hw, -⟩
        exact ⟨hw, nofun⟩
  · rintro e w1 h1
    exact ⟨h1.writes i, nofun⟩

/-- From the fresh temp file to the rename. -/
theorem wp_replace_body (i : ℕ) (directOk : Bool) (rp : ReplacePlan) (hooks : ReplaceHooks)
    (h : Staged target temp payload w i w') (hne : temp ≠ target) (hnew : w'.disk.data i = []) :
    (do
      mapErr stepErr' (writeTemp env i directOk payload rp hooks)
      mapErr stepErr' (hooks.beforeRename temp)
      mapErr (stepErr "rename") (sysCall (Io.rename env.plan temp target)) : Sys Error Unit).Wp
      (Closed env.plan target temp payload w i) w' := by
  refine Prog.wp_bind _ _ _ _ (fun r w1 => Staged target temp payload w i w1 ∧ (r = .ok () →
    w1.disk.data i = payload ∧ w1.disk.fenced i = true)) ?_ ?_ (fun _ _ h => h.1)
  · exact wp_mapErr _ (wp_writeTemp env i directOk payload rp hooks w' hnew)
      (fun _ _ hd => ⟨h.writes hd.1, fun _ => hd.2 rfl⟩) (fun _ _ _ hd => ⟨h.writes hd.1, nofun⟩)
  · rintro ⟨⟩ w1 ⟨h1, hok⟩
    obtain ⟨hdata, hfence⟩ := hok rfl
    refine Prog.wp_bind _ _ _ _ (fun r w2 => Staged target temp payload w i w2 ∧ (r = .ok () →
      w2.disk.data i = payload ∧ w2.disk.fenced i = true)) ?_ ?_ (fun _ _ h => h.1)
    · refine wp_mapErr _ (hooks.before_keeps temp i w1 h1.name hfence) ?_ ?_
      · rintro ⟨⟩ w2 ⟨hs, hr, hf⟩
        exact ⟨h1.quiet ⟨hs, hr⟩, fun _ => ⟨by rw [hs.data, hdata], hf rfl⟩⟩
      · rintro x y w2 ⟨hs, hr, -⟩
        exact ⟨h1.quiet ⟨hs, hr⟩, nofun⟩
    · rintro ⟨⟩ w2 ⟨h2, hok2⟩
      obtain ⟨hdata2, hfence2⟩ := hok2 rfl
      have hclosed := (wp_rename_closed env h2 hne hdata2 hfence2).mapError
        (fun e => Exit.failed (Error.io e)) (Q := Closed env.plan target temp payload w i)
        (fun _ _ hc => hc) (fun _ _ hc => hc)
      exact wp_mapErr _ hclosed (fun _ _ hc => hc) (fun _ _ _ hc => hc)

theorem wp_atomicReplace (target : PathBuf) (payload : Bytes) (rp : ReplacePlan)
    (hooks : ReplaceHooks) (w : World PathBuf) :
    (atomicReplace env target payload rp hooks).Wp (Replaced env.plan target payload w) w := by
  unfold atomicReplace
  refine Prog.wp_bind _ _ _ _ (Fresh Prod.fst target payload w) ?_ ?_ ?_
  · exact wp_mapErr _ (wp_uniqueTemp env Prod.fst target payload _
      (fun temp w => wp_openWriteNew env temp rp.useDirect w) _ _ w w rfl rfl)
      (fun _ _ h => h) (fun _ _ _ h => h)
  · rintro ⟨temp, i, directOk⟩ w1 ⟨hne, hstaged, hnew⟩
    refine Prog.wp_bind _ _ _ _ _ (wp_guarded env _ hne
      (wp_replace_body env i directOk rp hooks hstaged hne hnew)) ?_ (fun _ _ h => h)
    rintro ⟨⟩ w2 h2
    split
    · exact wp_syncDir_replaced env target h2
    · exact h2
  · rintro x w1 ⟨hd, hr⟩
    exact replaced_of_quiet env.plan x hd hr

/-! ### The native async writer -/

theorem wp_nativeBuf (h : Handle) (directOk : Bool) (i : ℕ) (payload : Bytes) (w : World PathBuf) :
    (nativeBuf env h directOk payload).Wp (fun r w' => w.Writes i w' ∧ w'.disk = w.disk ∧
      ∀ b, r = .ok b → ∃ pad, b = payload ++ zeros pad) w := by
  unfold nativeBuf
  split
  · split
    · exact ⟨.refl _ _, rfl, nofun⟩
    · refine wp_mapErr _ (wp_alignedCopy env i _ h.sectorSize payload w) ?_ ?_
      · rintro b w' ⟨hw, hd, hb⟩
        exact ⟨hw, hd, by rintro _ ⟨⟩; exact ⟨_, (hb b rfl).2.2⟩⟩
      · rintro x y w' ⟨hw, hd, -⟩
        exact ⟨hw, hd, nofun⟩
  · refine ⟨.refl _ _, rfl, ?_⟩
    rintro _ ⟨⟩
    exact ⟨0, (List.append_nil _).symm⟩

theorem wp_nativeWrite (h : Handle) (i : ℕ) (directOk : Bool) (payload : Bytes)
    (w : World PathBuf) (hnew : w.disk.data i = []) :
    (nativeWrite env h i directOk payload).Wp (fun r w' => w.Writes i w' ∧
      (r = .ok () → w'.disk.data i = payload)) w := by
  unfold nativeWrite
  split
  · rename_i hlen
    exact ⟨.refl _ _, fun _ => hnew.trans (List.eq_nil_of_length_eq_zero hlen).symm⟩
  refine Prog.wp_bind _ _ _ _ _ (wp_nativeBuf env h directOk i payload w) ?_
    (fun _ _ h => ⟨h.1, nofun⟩)
  rintro b w1 ⟨hw1, hd1, hb⟩
  obtain ⟨pad, rfl⟩ := hb b rfl
  have hfill : Filled (payload ++ zeros pad) 0 (w1.disk.data i) := by
    rw [hd1, hnew]
    exact filled_nil _
  refine Prog.wp_bind _ _ _ _ (fun r w2 => w.Writes i w2 ∧ ∀ n, r = .ok n →
    Filled (payload ++ zeros pad) n (w2.disk.data i)) ?_ ?_ (fun _ _ h => ⟨h.1, nofun⟩)
  · exact wp_mapErr _ (wp_writeAtNative env i _ w1 hfill)
      (fun n _ hn => ⟨hw1.trans hn.1, by rintro _ ⟨⟩; exact hn.2 n rfl⟩)
      (fun _ _ _ hn => ⟨hw1.trans hn.1, nofun⟩)
  · rintro n w2 ⟨hw2, hn⟩
    split
    · exact ⟨hw2, nofun⟩
    · rename_i hlen
      have hall := (hn n rfl).all (Nat.le_of_eq (not_not.mp hlen).symm)
      split
      · exact wp_mapErr _ (wp_sysSetLen env i payload pad w2 hall)
          (fun _ _ h => ⟨hw2.trans h.1, fun _ => h.2 rfl⟩)
          (fun _ _ _ h => ⟨hw2.trans h.1, nofun⟩)
      · rename_i heq
        have hpad : pad = 0 := by
          have := not_not.mp heq
          rw [List.length_append, length_zeros] at this
          omega
        subst hpad
        exact ⟨hw2, fun _ => hall.trans (List.append_nil _)⟩

theorem wp_writeAsyncNative (h : Handle) (target : PathBuf) (payload : Bytes)
    (w : World PathBuf) :
    (writeAsyncNative env h target payload).Wp (Replaced env.plan target payload w) w := by
  unfold writeAsyncNative
  refine Prog.wp_bind _ _ _ _ (fun r w1 => Created (genTempPath env target 0) w
    (r.map Prod.fst) w1) ?_ ?_ ?_
  · exact wp_mapErr _ (wp_openWriteNew env _ h.useDirect w) (fun _ _ h => h) (fun _ _ _ h => h)
  · rintro ⟨i, directOk⟩ w1 hcreated
    obtain ⟨hne, hstaged, hnew⟩ := fresh_of_created (α := ℕ) id payload i
      (genTempPath_ne env target 0) rfl rfl hcreated
    refine Prog.wp_bind _ _ _ _ _ (wp_guarded (i := i) env _ hne ?_) ?_ (fun _ _ h => h)
    · refine Prog.wp_bind _ _ _ _ (fun r w2 => w1.Writes i w2 ∧ (r = .ok () →
        w2.disk.data i = payload)) ?_ ?_ (fun _ _ h => hstaged.writes h.1)
      · exact wp_nativeWrite env h i directOk payload w1 hnew
      · rintro ⟨⟩ w2 ⟨hw2, hdata⟩
        refine Prog.wp_bind _ _ _ _ (fun r w3 => w1.Writes i w3 ∧ (r = .ok () →
          w3.disk.data i = payload ∧ w3.disk.fenced i = true)) ?_ ?_
          (fun _ _ h => hstaged.writes h.1)
        · exact wp_mapErr _ (wp_fdatasyncNative env i w2)
            (fun _ _ hf => ⟨hw2.trans hf.1, fun _ => ⟨(hf.2 rfl).1.trans (hdata rfl), (hf.2 rfl).2⟩⟩)
            (fun _ _ _ hf => ⟨hw2.trans hf.1, nofun⟩)
        · rintro ⟨⟩ w3 ⟨hw3, hok⟩
          obtain ⟨hd3, hf3⟩ := hok rfl
          have hclosed := (wp_rename_closed env (hstaged.writes hw3) hne hd3 hf3).mapError
            (fun e => Exit.failed (Error.io e))
            (Q := Closed env.plan target (genTempPath env target 0) payload w i)
            (fun _ _ hc => hc) (fun _ _ hc => hc)
          exact wp_mapErr _ hclosed (fun _ _ hc => hc) (fun _ _ _ hc => hc)
    · rintro ⟨⟩ w2 h2
      exact wp_syncDir_replaced env target h2
  · rintro x w1 ⟨hr, hd⟩
    exact replaced_of_quiet env.plan x hd hr

/-! ### The memory-mapped writer -/

/-- A step of `mmap::write` that works, or fails and takes the temp file with it. -/
theorem wp_orRemove {α : Type} (payload : Bytes) (w : World PathBuf) (i : ℕ)
    (report : IoError → Error) (m : Io PathBuf α)
    (P : α → World PathBuf → Prop) (hne : temp ≠ target)
    (hm : m.Wp (fun r u => match r with
      | .ok a => P a u
      | .error _ => Staged target temp payload w i u) w') :
    (orRemove env temp report m).Wp (fun r u => match r with
      | .ok a => P a u
      | .error x => Replaced env.plan target payload w (.error x) u) w' := by
  refine Prog.wp_cleanup _ _ _ _ (fun r u => match r with
    | .ok a => P a u
    | .error _ => Staged target temp payload w i u) (hm.mapError _ (fun _ _ h => h)
    (fun _ _ h => h)) (fun _ _ h => h) ?_
  rintro x u hstaged
  exact Staged.removed env hstaged hne x

theorem overlay_whole (f d : Bytes) (h : f.length = d.length) : overlay f 0 d = d := by
  rw [overlay, List.take_zero, Nat.zero_sub, zeros_zero, Nat.zero_add,
    List.drop_eq_nil_of_le (Nat.le_of_eq h), List.append_nil]
  rfl

/-- The mapping has the length the file was set to, so the copy does not panic. -/
theorem wp_mmapFill (h : Staged target temp payload w i w') (hne : temp ≠ target)
    (hnew : w'.disk.data i = []) :
    (mmapFill env temp target i payload).Wp (Replaced env.plan target payload w) w' := by
  unfold mmapFill
  -- set_len
  refine Prog.wp_bind _ _ _ _ _ (wp_orRemove env payload w i _ _ (fun _ u =>
    Staged target temp payload w i u ∧ (u.disk.data i).length = payload.length) hne ?_) ?_
    (fun _ _ h => h)
  · refine Prog.wp_mono (Io.wp_setLen env.plan i payload.length w') ?_
    rintro (e | ⟨⟩) u ⟨hr, -, hd⟩
    · exact h.writes ⟨hd ▸ .refl _ _, hr⟩
    · refine ⟨h.writes ⟨hd ▸ Disk.touches_setData _ _ _, hr⟩, ?_⟩
      rw [hd, Disk.data_setData, hnew, List.take_nil, List.nil_append, length_zeros,
        List.length_nil, Nat.sub_zero]
  rintro ⟨⟩ w1 ⟨h1, hlen⟩
  -- map_mut
  refine Prog.wp_bind _ _ _ _ _ (wp_orRemove env payload w i _ _ (fun n u =>
    Staged target temp payload w i u ∧ (u.disk.data i).length = payload.length ∧
      n = payload.length) hne ?_) ?_ (fun _ _ h => h)
  · refine Prog.wp_mono (Io.wp_look env.plan _ _ w1) ?_
    rintro (e | n) u ⟨hd, hr, -, ha⟩
    · exact h1.writes ⟨hd ▸ .refl _ _, hr⟩
    · refine ⟨h1.writes ⟨hd ▸ .refl _ _, hr⟩, by rw [hd, hlen], ?_⟩
      rcases ha with ⟨e, k, -, ⟨⟩⟩ | ⟨k, -, ha⟩
      cases ha
      exact hlen
  rintro n w2 ⟨h2, hlen2, hn⟩
  rw [if_neg (not_not.mpr hn)]
  -- the copy
  refine Prog.wp_bind _ _ _ _ (fun r u => r = .ok () ∧ Staged target temp payload w i u ∧
    u.disk.data i = payload) ?_ ?_ (fun _ _ h => nomatch h.1)
  · refine ⟨rfl, h2.writes ⟨Disk.touches_setData _ _ _, rfl⟩, ?_⟩
    exact (Disk.data_setData _ _ _).trans (overlay_whole _ _ hlen2)
  rintro ⟨⟩ w3 ⟨-, h3, hd3⟩
  -- msync
  refine Prog.wp_bind _ _ _ _ _ (wp_orRemove env payload w i _ _ (fun _ u =>
    Staged target temp payload w i u ∧ u.disk.data i = payload) hne ?_) ?_ (fun _ _ h => h)
  · refine Prog.wp_mono (Io.wp_look env.plan _ _ w3) ?_
    rintro (e | ⟨⟩) u ⟨hd, hr, -, -⟩
    · exact h3.writes ⟨hd ▸ .refl _ _, hr⟩
    · exact ⟨h3.writes ⟨hd ▸ .refl _ _, hr⟩, by rw [hd, hd3]⟩
  rintro ⟨⟩ w4 ⟨h4, hd4⟩
  -- fsync
  refine Prog.wp_bind _ _ _ _ _ (wp_orRemove env payload w i _ _ (fun _ u =>
    Staged target temp payload w i u ∧ u.disk.data i = payload ∧ u.disk.fenced i = true) hne ?_) ?_
    (fun _ _ h => h)
  · refine Prog.wp_mono (Io.wp_fence env.plan i w4) ?_
    rintro (e | ⟨⟩) u ⟨hr, -, -, hd⟩
    · exact h4.writes ⟨hd ▸ .refl _ _, hr⟩
    · refine ⟨h4.writes ⟨hd ▸ Disk.touches_fence _ _ _, hr⟩, by rw [hd]; exact hd4, ?_⟩
      rw [hd]
      exact Function.update_self _ _ _
  rintro ⟨⟩ w5 ⟨h5, hd5, hf5⟩
  -- rename
  refine Prog.wp_mono (wp_orRemove env payload w i _ _ (fun _ u =>
    Replaced env.plan target payload w (.ok ()) u) hne ?_) ?_
  · refine Prog.wp_mono (wp_rename_closed env h5 hne hd5 hf5) ?_
    rintro (e | ⟨⟩) u hc
    · exact hc
    · exact hc
  · rintro (e | ⟨⟩) u hc
    · exact hc
    · exact hc

theorem wp_mmapWrite (target : PathBuf) (payload : Bytes) (w : World PathBuf) :
    (mmapWrite env target payload).Wp (Replaced env.plan target payload w) w := by
  unfold mmapWrite
  split
  · refine Prog.wp_bind _ _ _ _ (Fresh id target payload w) ?_ ?_ ?_
    · have hopen : ∀ temp w, (sysCall (Io.createNew env.plan temp)).Wp
          (fun r w' => Created temp w (r.map id) w') w := by
        intro temp w
        refine Prog.wp_mono (wp_createNew_created env temp w) ?_
        rintro (x | file) w' h
        · exact h
        · exact h
      exact wp_mapErr _ (wp_uniqueTemp env id target payload _ hopen _ _ w w rfl rfl)
        (fun _ _ h => h) (fun _ _ _ h => h)
    · rintro ⟨temp, i⟩ w1 ⟨hne, hstaged, hnew⟩
      refine Prog.wp_bind _ _ _ _ _ (wp_mmapFill env hstaged hne hnew) ?_ (fun _ _ h => h)
      rintro ⟨⟩ w2 h2
      exact wp_syncDir_replaced env target h2
    · rintro x w1 ⟨hd, hr⟩
      exact replaced_of_quiet env.plan x hd hr
  · exact replaced_of_quiet env.plan _ rfl rfl

/-! ### The writers -/

/-- The whole-file writers of the crate. -/
inductive Writer where
  | replace (plan : ReplacePlan) (hooks : ReplaceHooks)
  | mmap
  | asyncNative (h : Handle)

def Writer.run (writer : Writer) (target : PathBuf) (data : Bytes) : Sys Error Unit :=
  match writer with
  | .replace plan hooks => atomicReplace env target data plan hooks
  | .mmap => mmapWrite env target data
  | .asyncNative h => writeAsyncNative env h target data

/-- Whatever fails, panics or is dropped, a writer leaves the target as it was or replaced
by the payload, through a rename of a fenced temp file, and nothing else changed. -/
theorem writer_replaces_atomically (writer : Writer) (target : PathBuf) (data : Bytes)
    (w : World PathBuf) :
    (writer.run env target data).Wp (Replaced env.plan target data w) w := by
  cases writer with
  | replace plan hooks => exact wp_atomicReplace env target data plan hooks w
  | mmap => exact wp_mmapWrite env target data w
  | asyncNative h => exact wp_writeAsyncNative env h target data w

/-! ### Their callers (crud/file.rs:66-221, 520-531; pipeline/group.rs:366-379) -/

/-- `Handle::replace_plan`. -/
def Handle.replacePlan (h : Handle) : ReplacePlan :=
  ⟨h.useDirect, .forMethod h.method, true⟩

/-- `Handle::write`, after the path is resolved. A payload that does not suit the mapping
goes the way of `Sync`. -/
def Handle.write (h : Handle) (path : PathBuf) (data : Bytes) : Sys Error Unit :=
  if h.method = .mmap then
    if isSuitableForWrite env data.length then Writer.run env .mmap path data
    else
      let sync := { h with method := .sync }
      Writer.run env (.replace sync.replacePlan (soloHooks env sync)) path data
  else Writer.run env (.replace h.replacePlan (soloHooks env h)) path data

/-- `Handle::write_copy`; `existing` says whether the target's metadata could be read. -/
def Handle.writeCopy (h : Handle) (existing : Bool) (path : PathBuf) (data : Bytes) :
    Sys Error Unit :=
  Writer.run env (.replace h.replacePlan (writeCopyHooks env h existing)) path data

/-- `execute_write` of the group lane (`pipeline/group.rs:365-379`). -/
def executeWrite (h : Handle) (grouped : Bool) (path : PathBuf) (data : Bytes) : Sys Error Unit :=
  Writer.run env (.replace ⟨h.useDirect, .forMethod h.method, !grouped⟩
    (platformHooks env h.sectorSize)) path data

/-- `Handle::write` replaces atomically with every method. -/
theorem handle_write_replaced (h : Handle) (path : PathBuf) (data : Bytes) (w : World PathBuf) :
    (h.write env path data).Wp (Replaced env.plan path data w) w := by
  unfold Handle.write
  split
  · split
    · exact wp_mmapWrite env path data w
    · exact wp_atomicReplace env path data _ _ w
  · exact wp_atomicReplace env path data _ _ w

theorem handle_writeCopy_replaced (h : Handle) (existing : Bool) (path : PathBuf) (data : Bytes)
    (w : World PathBuf) :
    (h.writeCopy env existing path data).Wp (Replaced env.plan path data w) w :=
  wp_atomicReplace env path data _ _ w

/-- A write of the group lane does, too, whether its directory is synced with it or later. -/
theorem executeWrite_replaced (h : Handle) (grouped : Bool) (path : PathBuf) (data : Bytes)
    (w : World PathBuf) :
    (executeWrite env h grouped path data).Wp (Replaced env.plan path data w) w :=
  wp_atomicReplace env path data _ _ w

end Fsys.Crud
