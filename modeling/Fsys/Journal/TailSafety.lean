import Fsys.Journal.Tail

/-!
# Corrupt tails are kept

What each step of `prepare_resume` does to the directory. Scans, the zero check
and the comparison change nothing; the copy changes only the file it created;
the candidate loop ends with a copy of exactly the tail, or with an error. The
results are put together in `prepare_resume_keeps_tail`.
-/

namespace Fsys.Journal
open Fsys.Base

variable (crc : Crc) (plan : Plan PathBuf)

/-! ### Reading a range -/

/-- The bytes left to read. -/
def Src.range (src : Src) (d : Disk PathBuf) : Bytes :=
  ((d.data src.ino).drop src.offset).take src.left

theorem chunk_pos : 0 < chunk := by decide

theorem Src.range_advance (src : Src) (d : Disk PathBuf) (n : ℕ)
    (hn : n ≤ (src.range d).length) :
    src.range d = (src.range d).take n ++
      Src.range ⟨src.ino, src.offset + n, src.left - n⟩ d := by
  have hleft : n ≤ src.left := by
    unfold Src.range at hn
    rw [List.length_take] at hn
    omega
  have hdrop : (src.range d).drop n = Src.range ⟨src.ino, src.offset + n, src.left - n⟩ d := by
    unfold Src.range
    rw [List.drop_take, List.drop_drop]
  rw [← hdrop, List.take_append_drop]

theorem openRange_spec (path : PathBuf) (offset len : ℕ) (w : World PathBuf) :
    (openRange plan path offset len).Wp (fun r w' => w'.disk = w.disk ∧
      (Io.Works plan (.openRead path) → ∀ i, w.disk.names path = some i →
        r = .ok ⟨i, offset, len⟩) ∧
      ∀ src, r = .ok src → ∃ i, w.disk.names path = some i ∧ src = ⟨i, offset, len⟩) w := by
  refine Prog.wp_bind _ _ _ w _ (Io.wp_openRead plan path w) ?_ ?_
  · rintro i t ⟨hd, -, hr⟩
    have hi := hr i rfl
    rw [Prog.wp_pure]
    refine ⟨hd, fun _ k hk => ?_, ?_⟩
    · rw [hi] at hk
      cases hk
      rfl
    · rintro _ ⟨⟩
      exact ⟨i, hi, rfl⟩
  · rintro e t ⟨hd, hw, -⟩
    refine ⟨hd, fun hwork i hi => ?_, nofun⟩
    cases hw hwork i hi

/-- `read_some` hands out a part of the range, and nothing only at its end. -/
theorem readSome_spec (src : Src) (w : World PathBuf) :
    (readSome plan src).Wp (fun r w' => w'.disk = w.disk ∧
      (Io.Works plan (.read src.ino) → ∃ x, r = .ok x) ∧
      ∀ bytes src', r = .ok (bytes, src') → src'.ino = src.ino ∧
        src'.left + bytes.length = src.left ∧
        src.range w.disk = bytes ++ src'.range w.disk ∧
        (bytes = [] → src.range w.disk = [])) w := by
  unfold readSome
  split
  · rename_i hzero
    rw [Prog.wp_pure]
    refine ⟨rfl, fun _ => ⟨_, rfl⟩, ?_⟩
    rintro _ _ ⟨⟩
    have hnil : src.range w.disk = [] := by
      unfold Src.range
      rw [hzero, List.take_zero]
    exact ⟨rfl, rfl, rfl, fun _ => hnil⟩
  · rename_i hleft
    refine Prog.wp_bind _ _ _ w _ (Io.wp_look_answer plan _ _ w) ?_ ?_
    · rintro bytes t ⟨hd, -, hr⟩
      obtain ⟨amount, hamount⟩ := hr bytes rfl
      cases hamount
      rw [Prog.wp_pure]
      refine ⟨hd, fun _ => ⟨_, rfl⟩, ?_⟩
      rintro _ _ ⟨⟩
      have hmin : min (min chunk src.left) (amount + 1) ≤ src.left := by omega
      have htake : ((w.disk.data src.ino).drop src.offset).take
          (min (min chunk src.left) (amount + 1)) =
          (src.range w.disk).take (min (min chunk src.left) (amount + 1)) := by
        unfold Src.range
        rw [List.take_take, Nat.min_eq_left hmin]
      have hpos : 0 < min (min chunk src.left) (amount + 1) := by
        have := chunk_pos
        omega
      generalize min (min chunk src.left) (amount + 1) = n at *
      rw [htake]
      have hlen : ((src.range w.disk).take n).length ≤ (src.range w.disk).length := by
        rw [List.length_take]
        omega
      have hle : (src.range w.disk).length ≤ src.left := by
        unfold Src.range
        rw [List.length_take]
        omega
      refine ⟨rfl, Nat.sub_add_cancel (Nat.le_trans hlen hle), ?_, fun hnil => ?_⟩
      · have hsame : (src.range w.disk).take ((src.range w.disk).take n).length =
            (src.range w.disk).take n := by
          rw [List.length_take]
          exact List.take_eq_take_min.symm
        have hadv := src.range_advance w.disk _ hlen
        rw [hsame] at hadv
        exact hadv
      · exact (List.take_eq_nil_iff.mp hnil).resolve_left (by omega)
    · rintro e t ⟨hd, hw, -⟩
      refine ⟨hd, fun hwork => ?_, nofun⟩
      obtain ⟨n, hn⟩ := hw hwork
      cases hn

/-! ### The zero check -/

theorem zeroCheck_spec (fuel : ℕ) (src : Src) (w : World PathBuf) (hfuel : src.left < fuel) :
    (zeroCheck plan fuel src).Wp (fun r w' => w'.disk = w.disk ∧
      (Io.Works plan (.read src.ino) → ∃ b, r = .ok b) ∧
      ∀ b, r = .ok b → (b = true ↔ ∀ x ∈ src.range w.disk, x = 0)) w := by
  induction fuel generalizing src w with
  | zero => omega
  | succ fuel ih =>
    unfold zeroCheck
    refine Prog.wp_bind _ _ _ w _ (readSome_spec plan src w) ?_ ?_
    · rintro ⟨bytes, src'⟩ t ⟨hd, -, hr⟩
      obtain ⟨hino, hleft, hrange, hnil⟩ := hr bytes src' rfl
      dsimp only
      split
      · rename_i hb
        rw [Prog.wp_pure]
        refine ⟨hd, fun _ => ⟨_, rfl⟩, ?_⟩
        rintro _ ⟨⟩
        rw [hnil hb]
        exact ⟨fun _ => nofun, fun _ => rfl⟩
      · rename_i hb
        have hpos : 0 < bytes.length := List.length_pos_iff.mpr hb
        split
        · rename_i hany
          obtain ⟨x, hx, hne⟩ := List.any_eq_true.mp hany
          rw [Prog.wp_pure]
          refine ⟨hd, fun _ => ⟨_, rfl⟩, ?_⟩
          rintro _ ⟨⟩
          refine ⟨nofun, fun hall => ?_⟩
          have hzero := hall x (hrange ▸ List.mem_append_left _ hx)
          simp [hzero] at hne
        · rename_i hany
          have hzero : ∀ x ∈ bytes, x = 0 := by
            intro x hx
            by_contra hne
            exact hany (List.any_eq_true.mpr ⟨x, hx, by simpa using hne⟩)
          refine Prog.wp_mono (ih src' t (by omega)) ?_
          rintro r u ⟨hu, hw, hiff⟩
          rw [hino] at hw
          refine ⟨hu.trans hd, hw, fun b hr' => ?_⟩
          rw [hiff b hr', hd, hrange]
          constructor
          · intro hall x hx
            exact (List.mem_append.mp hx).elim (hzero x) (hall x)
          · intro hall x hx
            exact hall x (List.mem_append_right _ hx)
    · rintro e t ⟨hd, hw, -⟩
      refine ⟨hd, fun hwork => ?_, nofun⟩
      obtain ⟨x, hx⟩ := hw hwork
      cases hx

/-- A journal that lies behind `path`, with `len` bytes from `cleanEnd` on. -/
structure TailAt (d : Disk PathBuf) (path : PathBuf) (cleanEnd len i : ℕ) : Prop where
  names : d.names path = some i
  length : cleanEnd + len = (d.data i).length

/-- The bytes after the clean end. -/
def tailOf (d : Disk PathBuf) (cleanEnd i : ℕ) : Bytes := (d.data i).drop cleanEnd

variable {d : Disk PathBuf} {path : PathBuf} {cleanEnd len i : ℕ}

theorem TailAt.length_tailOf (h : TailAt d path cleanEnd len i) :
    (tailOf d cleanEnd i).length = len := by
  unfold tailOf
  have := h.length
  rw [List.length_drop]
  omega

theorem TailAt.range (h : TailAt d path cleanEnd len i) :
    Src.range ⟨i, cleanEnd, len⟩ d = tailOf d cleanEnd i := by
  have hlen := h.length_tailOf
  unfold tailOf at hlen
  unfold Src.range tailOf
  exact List.take_of_length_le (Nat.le_of_eq hlen)

theorem tailIsZero_spec (w : World PathBuf) (h : TailAt w.disk path cleanEnd len i) :
    (tailIsZero plan path cleanEnd len).Wp (fun r w' => w'.disk = w.disk ∧
      (Io.Works plan (.openRead path) → Io.Works plan (.read i) → ∃ b, r = .ok b) ∧
      ∀ b, r = .ok b → (b = true ↔ ∀ x ∈ tailOf w.disk cleanEnd i, x = 0)) w := by
  refine Prog.wp_bind _ _ _ w _ (openRange_spec plan path cleanEnd len w) ?_ ?_
  · rintro src t ⟨hd, -, hr⟩
    obtain ⟨k, hk, rfl⟩ := hr src rfl
    rw [h.names] at hk
    cases hk
    refine Prog.wp_mono (zeroCheck_spec plan (len + 1) ⟨i, cleanEnd, len⟩ t (Nat.lt_succ_self _)) ?_
    rintro r u ⟨hu, hw, hiff⟩
    rw [hd, h.range] at hiff
    exact ⟨hu.trans hd, fun _ => hw, hiff⟩
  · rintro e t ⟨hd, hw, -⟩
    refine ⟨hd, fun hwork => ?_, nofun⟩
    cases hw hwork i h.names

/-! ### The copy -/

/-- The copy loop appends the range to the sidecar. -/
theorem copyTail_spec (sidecar fuel : ℕ) (src : Src) (copied : ℕ) (w : World PathBuf)
    (hfuel : src.left < fuel) (hne : src.ino ≠ sidecar)
    (hcopied : (w.disk.data sidecar).length = copied) :
    (copyTail plan sidecar fuel src copied).Wp (fun r w' =>
      Disk.Touches sidecar w.disk w'.disk ∧
      ((∀ call, Io.Works plan call) → ∃ n, r = .ok n) ∧
      ∀ n, r = .ok n → n = copied + (src.range w.disk).length ∧
        w'.disk.data sidecar = w.disk.data sidecar ++ src.range w.disk) w := by
  induction fuel generalizing src copied w with
  | zero => omega
  | succ fuel ih =>
    unfold copyTail
    refine Prog.wp_bind _ _ _ w _ (readSome_spec plan src w) ?_ ?_
    · rintro ⟨bytes, src'⟩ t ⟨hd, -, hr⟩
      obtain ⟨hino, hleft, hrange, hnil⟩ := hr bytes src' rfl
      dsimp only
      split
      · rename_i hb
        rw [Prog.wp_pure]
        refine ⟨hd ▸ Disk.Touches.refl _ _, fun _ => ⟨_, rfl⟩, ?_⟩
        rintro _ ⟨⟩
        rw [hd, hnil hb, List.append_nil]
        exact ⟨rfl, rfl⟩
      · rename_i hb
        have hpos : 0 < bytes.length := List.length_pos_iff.mpr hb
        refine Prog.wp_bind _ _ _ t _ (Io.wp_writeAt plan sidecar copied bytes t) ?_ ?_
        · rintro ⟨⟩ u ⟨-, -, -, hu⟩
          have hdata : u.disk.data sidecar = w.disk.data sidecar ++ bytes := by
            rw [hu, Disk.data_setData, hd, ← hcopied, overlay_length]
          have htouch : Disk.Touches sidecar w.disk u.disk := by
            rw [hu, hd]
            exact Disk.touches_setData _ _ _
          refine Prog.wp_mono (ih src' (copied + bytes.length) u (by omega) (hino ▸ hne) ?_) ?_
          · rw [hdata, List.length_append, hcopied]
          · rintro r v ⟨hv, hall, hok⟩
            refine ⟨htouch.trans hv, hall, fun n hn => ?_⟩
            have hsame : src'.range u.disk = src'.range w.disk := by
              unfold Src.range
              rw [htouch.data _ (hino ▸ hne)]
            obtain ⟨hcount, hbytes⟩ := hok n hn
            rw [hsame] at hcount hbytes
            rw [hrange, hbytes, hdata, hcount, List.length_append, List.append_assoc]
            exact ⟨by omega, rfl⟩
        · rintro e u ⟨-, -, hw, n, hu⟩
          rw [hu, hd]
          exact ⟨Disk.touches_setData _ _ _, fun hall => (nomatch hw (hall _)), nofun⟩
    · rintro e t ⟨hd, hw, -⟩
      exact ⟨hd ▸ Disk.Touches.refl _ _, fun hall => (nomatch (hw (hall _)).choose_spec), nofun⟩

/-- A new sidecar that was filled holds the tail. -/
theorem fillSidecar_spec (sidecar : ℕ) (w : World PathBuf)
    (h : TailAt w.disk path cleanEnd len i) (hne : i ≠ sidecar)
    (hempty : w.disk.data sidecar = []) :
    (fillSidecar plan sidecar path cleanEnd len).Wp (fun r w' =>
      Disk.Touches sidecar w.disk w'.disk ∧
      ((∀ call, Io.Works plan call) → r = .ok ()) ∧
      (r = .ok () → w'.disk.data sidecar = tailOf w.disk cleanEnd i ∧
        w'.disk.fenced sidecar = true)) w := by
  refine Prog.wp_bind _ _ _ w _ (openRange_spec plan path cleanEnd len w) ?_ ?_
  · rintro src t ⟨hd, -, hr⟩
    obtain ⟨k, hk, rfl⟩ := hr src rfl
    rw [h.names] at hk
    cases hk
    have hcopy := copyTail_spec plan sidecar (len + 1) ⟨i, cleanEnd, len⟩ 0 t (Nat.lt_succ_self _)
      hne (by rw [hd, hempty]; rfl)
    rw [hd, h.range, hempty, List.nil_append] at hcopy
    refine Prog.wp_bind _ _ _ t _ hcopy ?_ ?_
    · rintro copied u ⟨hu, -, hok⟩
      obtain ⟨hcount, hdata⟩ := hok copied rfl
      rw [h.length_tailOf, Nat.zero_add] at hcount
      rw [if_neg (not_not.mpr hcount)]
      refine Prog.wp_mono (Io.wp_fence plan sidecar u) ?_
      rintro r v ⟨-, -, hw, hv⟩
      cases r with
      | ok _ =>
        dsimp only at hv
        rw [hv]
        exact ⟨hu.trans (Disk.touches_fence _ _ _), fun _ => rfl, fun _ =>
          ⟨hdata, Function.update_self _ _ _⟩⟩
      | error e =>
        dsimp only at hv
        rw [hv]
        exact ⟨hu, fun hall => hw (hall _), nofun⟩
    · rintro e u ⟨hu, hw, -⟩
      exact ⟨hu, fun hall => (nomatch (hw hall).choose_spec), nofun⟩
  · rintro e t ⟨hd, hw, -⟩
    exact ⟨hd ▸ Disk.Touches.refl _ _, fun hall => (nomatch hw (hall _) i h.names), nofun⟩

/-! ### The comparison -/

theorem half_chunk_pos : 0 < chunk / 2 := by decide

theorem readExact_spec (k offset n : ℕ) (w : World PathBuf)
    (h : offset + n ≤ (w.disk.data k).length) :
    (Io.readExact plan k offset n).Wp (fun r w' => w'.disk = w.disk ∧
      (Io.Works plan (.readExact k) → ∃ x, r = .ok x) ∧
      ∀ bytes, r = .ok bytes → bytes = ((w.disk.data k).drop offset).take n) w := by
  refine Prog.wp_mono (Io.wp_look_answer plan _ _ w) ?_
  rintro r w' ⟨hd, hw, hr⟩
  rw [if_pos h] at hw hr
  refine ⟨hd, fun hwork => ⟨_, (hw hwork).choose_spec⟩, fun bytes hb => ?_⟩
  obtain ⟨-, hx⟩ := hr bytes hb
  cases hx
  rfl

theorem compareTail_spec (ours theirs fuel done left : ℕ) (w : World PathBuf)
    (hfuel : left < fuel) (hours : cleanEnd + done + left = (w.disk.data ours).length)
    (htheirs : done + left = (w.disk.data theirs).length) :
    (compareTail plan ours cleanEnd theirs fuel done left).Wp (fun r w' => w'.disk = w.disk ∧
      ((∀ call, Io.Works plan call) → ∃ b, r = .ok b) ∧
      ∀ b, r = .ok b → (b = true ↔
        (w.disk.data theirs).drop done = (w.disk.data ours).drop (cleanEnd + done))) w := by
  induction fuel generalizing done left w with
  | zero => omega
  | succ fuel ih =>
    unfold compareTail
    split
    · rename_i hzero
      rw [Prog.wp_pure]
      refine ⟨rfl, fun _ => ⟨_, rfl⟩, ?_⟩
      rintro _ ⟨⟩
      rw [List.drop_eq_nil_of_le (by omega), List.drop_eq_nil_of_le (by omega)]
      exact ⟨fun _ => rfl, fun _ => rfl⟩
    · rename_i hleft
      have hn : 0 < min left (chunk / 2) ∧ min left (chunk / 2) ≤ left := by
        have := half_chunk_pos
        omega
      dsimp only
      generalize min left (chunk / 2) = n at *
      refine Prog.wp_bind _ _ _ w _
        (readExact_spec plan ours (cleanEnd + done) n w (by omega)) ?_ ?_
      · rintro a t ⟨hd, -, ha⟩
        have ha := ha a rfl
        refine Prog.wp_bind _ _ _ t _
          (readExact_spec plan theirs done n t (by rw [hd]; omega)) ?_ ?_
        · rintro b u ⟨hu, -, hb⟩
          have hb := hb b rfl
          rw [hd] at hb
          have hsplit : ∀ (bs : Bytes) (m : ℕ),
              bs.drop m = (bs.drop m).take n ++ bs.drop (m + n) := by
            intro bs m
            rw [← List.drop_drop, List.take_append_drop]
          have hours' : (w.disk.data ours).drop (cleanEnd + done) =
              a ++ (w.disk.data ours).drop (cleanEnd + (done + n)) := by
            rw [ha, ← Nat.add_assoc]
            exact hsplit _ _
          have htheirs' : (w.disk.data theirs).drop done =
              b ++ (w.disk.data theirs).drop (done + n) := by
            rw [hb]
            exact hsplit _ _
          have hlen : b.length = a.length := by
            rw [ha, hb, List.length_take, List.length_take, List.length_drop, List.length_drop]
            omega
          split
          · rename_i hab
            rw [Prog.wp_pure]
            refine ⟨hu.trans hd, fun _ => ⟨_, rfl⟩, ?_⟩
            rintro _ ⟨⟩
            refine ⟨nofun, fun heq => ?_⟩
            rw [hours', htheirs'] at heq
            exact absurd (List.append_inj_left heq hlen).symm hab
          · rename_i hab
            have hab := not_not.mp hab
            refine Prog.wp_mono (ih (done + n) (left - n) u (by omega)
              (by rw [hu, hd]; omega) (by rw [hu, hd]; omega)) ?_
            rintro r v ⟨hv, hw, hiff⟩
            refine ⟨hv.trans (hu.trans hd), hw, fun c hc => ?_⟩
            rw [hiff c hc, hu, hd, hours', htheirs', hab]
            exact (List.append_right_inj b).symm
        · rintro e u ⟨hu, hw, -⟩
          refine ⟨hu.trans hd, fun hwork => ?_, nofun⟩
          obtain ⟨x, hx⟩ := hw (hwork _)
          cases hx
      · rintro e t ⟨hd, hw, -⟩
        refine ⟨hd, fun hwork => ?_, nofun⟩
        obtain ⟨x, hx⟩ := hw (hwork _)
        cases hx

/-- The candidate is taken over exactly when it holds the tail, unless a step fails. -/
theorem openMatching_spec (candidate : PathBuf) (w : World PathBuf)
    (h : TailAt w.disk path cleanEnd len i) :
    (openMatching plan candidate path cleanEnd len).Wp (fun r w' => w'.disk = w.disk ∧
      (∀ j, r = .ok (some j) → w.disk.names candidate = some j ∧
        w.disk.data j = tailOf w.disk cleanEnd i) ∧
      (r = .ok none → ∀ j, w.disk.names candidate = some j →
        w.disk.data j ≠ tailOf w.disk cleanEnd i) ∧
      ((∀ call, Io.Works plan call) → w.disk.names candidate ≠ none → ∃ x, r = .ok x)) w := by
  refine Prog.wp_bind _ _ _ w _ (Io.wp_openWrite plan candidate w) ?_ ?_
  · rintro j t ⟨hd, -, hj⟩
    have hj := hj j rfl
    refine Prog.wp_bind _ _ _ t _ (Io.wp_len plan j t) ?_ ?_
    · rintro size u ⟨hu, -, hsize⟩
      have hsize := hsize size rfl
      have hu := hu.trans hd
      rw [hd] at hsize
      split
      · rename_i hne
        rw [Prog.wp_pure]
        refine ⟨hu, nofun, fun _ k hk htail => ?_, fun _ _ => ⟨_, rfl⟩⟩
        rw [hj] at hk
        cases hk
        rw [htail, h.length_tailOf] at hsize
        exact absurd hsize hne
      · rename_i heq
        have heq := not_not.mp heq
        refine Prog.wp_bind _ _ _ u _ (openRange_spec plan path cleanEnd len u) ?_ ?_
        · rintro src v ⟨hv, -, hr⟩
          obtain ⟨k, hk, rfl⟩ := hr src rfl
          rw [hu, h.names] at hk
          cases hk
          have hv := hv.trans hu
          have hcompare := compareTail_spec plan i j (len + 1) 0 len v (Nat.lt_succ_self _)
            (by rw [hv]; exact h.length) (by rw [hv]; omega)
          rw [hv] at hcompare
          refine Prog.wp_bind _ _ _ v _ hcompare ?_ ?_
          · rintro same x ⟨hx, -, hiff⟩
            have hiff := hiff same rfl
            rw [List.drop_zero, Nat.add_zero] at hiff
            rw [Prog.wp_pure]
            cases same with
            | false =>
              refine ⟨hx, nofun, fun _ k hk htail => ?_, fun _ _ => ⟨_, rfl⟩⟩
              rw [hj] at hk
              cases hk
              cases hiff.mpr htail
            | true =>
              refine ⟨hx, fun k hk => ?_, nofun, fun _ _ => ⟨_, rfl⟩⟩
              cases hk
              exact ⟨hj, hiff.mp rfl⟩
          · rintro e x ⟨hx, hw, -⟩
            refine ⟨hx, nofun, nofun, fun hwork _ => ?_⟩
            obtain ⟨b, hb⟩ := hw hwork
            cases hb
        · rintro e v ⟨hv, hw, -⟩
          refine ⟨hv.trans hu, nofun, nofun, fun hwork _ => ?_⟩
          cases hw (hwork _) i (by rw [hu]; exact h.names)
    · rintro e u ⟨hu, hw, -⟩
      refine ⟨hu.trans hd, nofun, nofun, fun hwork _ => ?_⟩
      obtain ⟨n, hn⟩ := hw (hwork _)
      cases hn
  · rintro e t ⟨hd, hw, -⟩
    refine ⟨hd, nofun, nofun, fun hwork hne => ?_⟩
    obtain ⟨j, hj⟩ := Option.ne_none_iff_exists'.mp hne
    cases hw (hwork _) j hj

/-- A comparison that fails is a mismatch. -/
theorem matchingSidecar_spec (candidate : PathBuf) (w : World PathBuf)
    (h : TailAt w.disk path cleanEnd len i) :
    (matchingSidecar plan candidate path cleanEnd len).Wp (fun r w' => w'.disk = w.disk ∧
      ∃ found, r = .ok found ∧
        (∀ j, found = some j → w.disk.names candidate = some j ∧
          w.disk.data j = tailOf w.disk cleanEnd i) ∧
        (found = none →
          (∃ e, openMatching plan candidate path cleanEnd len w = (.error e, w')) ∨
          openMatching plan candidate path cleanEnd len w = (.ok none, w') ∧
            ∀ j, w.disk.names candidate = some j →
              w.disk.data j ≠ tailOf w.disk cleanEnd i)) w := by
  refine (Prog.wp_attempt_bind _ _ _ w).mpr
    (Prog.wp_mono (openMatching_spec plan candidate w h).with_run ?_)
  rintro found t ⟨hrun, hd, hsome, hnone, -⟩
  cases found with
  | ok existing =>
    refine ⟨hd, existing, rfl, fun j hj => hsome j (by rw [hj]), fun hmiss => ?_⟩
    rw [hmiss] at hrun hnone
    exact Or.inr ⟨hrun, hnone rfl⟩
  | error e => exact ⟨hd, none, rfl, nofun, fun _ => Or.inl ⟨e, hrun⟩⟩

/-! ### The candidate loop -/

/-- The file behind `q` is a fenced copy of `tail`. -/
def IsCopy (d : Disk PathBuf) (q : PathBuf) (tail : Bytes) : Prop :=
  ∃ m, d.names q = some m ∧ d.data m = tail ∧ d.fenced m = true

theorem syncDir_spec (candidate : PathBuf) (w : World PathBuf) :
    ((Io.syncDir plan candidate).mapError (tailError path cleanEnd len (some candidate))).Wp
      (fun r w' => w'.disk = w.disk ∧ (Io.Works plan (.syncDir candidate) → r = .ok ())) w := by
  rw [Prog.wp_mapError]
  refine Prog.wp_mono (Io.wp_syncDir plan candidate w) fun r u hu => ⟨hu.1, fun hwork => ?_⟩
  rw [hu.2 hwork]
  rfl

/-- Only the file that was just created changes, and a partial copy of it is removed. -/
theorem fillNew_spec (candidate : PathBuf) (w : World PathBuf) (d : Disk PathBuf)
    (hnone : d.names candidate = none) (hw : w.disk = d.create candidate)
    (h : TailAt d path cleanEnd len i) :
    (fillNew plan candidate path cleanEnd len d.next).Wp (fun r w' =>
      Disk.Keeps (fun _ => False) d w'.disk ∧
      (∀ p, p ≠ candidate → w'.disk.names p = d.names p) ∧
      ((∀ call, Io.Works plan call) → r = .ok candidate) ∧
      ∀ q, r = .ok q → q = candidate ∧ IsCopy w'.disk q (tailOf d cleanEnd i)) w := by
  have hi : i < d.next := d.fresh _ _ h.names
  have hne : path ≠ candidate := by
    rintro rfl
    rw [h.names] at hnone
    cases hnone
  have hdata : w.disk.data i = d.data i := by
    rw [hw]
    exact Function.update_of_ne (Nat.ne_of_lt hi) _ _
  have hnames : w.disk.names path = some i := by
    rw [hw, ← h.names]
    exact Function.update_of_ne hne _ _
  have hself : w.disk.names candidate = some d.next := by
    rw [hw]
    exact Function.update_self _ _ _
  have hother : ∀ p, p ≠ candidate → w.disk.names p = d.names p := by
    intro p hp
    rw [hw]
    exact Function.update_of_ne hp _ _
  have hkeeps : Disk.Keeps (fun _ => False) d w.disk := by
    rw [hw]
    exact Disk.keeps_create d candidate hnone
  have hempty : w.disk.data d.next = [] := by
    rw [hw]
    exact Function.update_self _ _ _
  have hfill := fillSidecar_spec plan d.next w ⟨hnames, by rw [hdata]; exact h.length⟩
    (Nat.ne_of_lt hi) hempty
  refine (Prog.wp_attempt_bind _ _ _ w).mpr (Prog.wp_mono hfill ?_)
  rintro filled t ⟨htouch, hworks, hok⟩
  have hkept := hkeeps.touches (Nat.le_refl _) htouch
  have hsame : ∀ p, p ≠ candidate → t.disk.names p = d.names p := by
    intro p hp
    rw [htouch.names, hother p hp]
  cases filled with
  | error e =>
    refine (Prog.wp_attempt_bind _ _ _ t).mpr (Prog.wp_mono (Io.wp_remove plan candidate t) ?_)
    rintro r u ⟨-, -, -, hu⟩
    rw [Prog.wp_throw]
    cases r with
    | ok _ =>
      dsimp only at hu
      rw [hu]
      refine ⟨hkept.unlink candidate (Or.inr hnone), fun p hp => ?_, fun hall => ?_, nofun⟩
      · exact (Function.update_of_ne hp _ _).trans (hsame p hp)
      · cases hworks hall
    | error e =>
      dsimp only at hu
      rw [hu]
      exact ⟨hkept, hsame, fun hall => (nomatch hworks hall), nofun⟩
  | ok _ =>
    obtain ⟨hbytes, hfenced⟩ := hok rfl
    have hcopy : IsCopy t.disk candidate (tailOf d cleanEnd i) := by
      refine ⟨d.next, by rw [htouch.names, hself], ?_, hfenced⟩
      rw [hbytes]
      unfold tailOf
      rw [hdata]
    refine Prog.wp_bind _ _ _ t _ (syncDir_spec plan candidate t) ?_ ?_
    · rintro ⟨⟩ u ⟨hu, -⟩
      rw [Prog.wp_pure, hu]
      refine ⟨hkept, hsame, fun _ => rfl, ?_⟩
      rintro _ ⟨⟩
      exact ⟨rfl, hcopy⟩
    · rintro e u ⟨hu, hw⟩
      rw [hu]
      exact ⟨hkept, hsame, fun hall => (nomatch hw (hall _)), nofun⟩

theorem reuse_spec (candidate : PathBuf) (j : ℕ) (w : World PathBuf)
    (hj : w.disk.names candidate = some j) :
    (reuse plan candidate path cleanEnd len j).Wp (fun r w' => Disk.Same w.disk w'.disk ∧
      (Io.Works plan (.fence j) → Io.Works plan (.syncDir candidate) → r = .ok candidate) ∧
      ∀ q, r = .ok q → q = candidate ∧ IsCopy w'.disk q (w.disk.data j)) w := by
  have hfence : ((Io.fence plan j).mapError (tailError path cleanEnd len (some candidate))).Wp
      (fun r t => (Io.Works plan (.fence j) → r = .ok ()) ∧ Disk.Same w.disk t.disk ∧
        (r = .ok () → t.disk.fenced j = true)) w := by
    rw [Prog.wp_mapError]
    refine Prog.wp_mono (Io.wp_fence plan j w) ?_
    rintro r t ⟨-, -, hworks, ht⟩
    cases r with
    | ok _ =>
      dsimp only at ht
      rw [ht]
      exact ⟨fun _ => rfl, Disk.same_fence _ _, fun _ => Function.update_self _ _ _⟩
    | error e =>
      refine ⟨fun hwork => ?_, Disk.Same.of_eq ht, nofun⟩
      cases hworks hwork
  refine Prog.wp_bind _ _ _ w _ hfence ?_ ?_
  · rintro ⟨⟩ t ⟨-, ht, hfenced⟩
    refine Prog.wp_bind _ _ _ t _ (syncDir_spec plan candidate t) ?_ ?_
    · rintro ⟨⟩ u ⟨hu, -⟩
      rw [Prog.wp_pure, hu]
      refine ⟨ht, fun _ _ => rfl, ?_⟩
      rintro _ ⟨⟩
      exact ⟨rfl, j, by rw [ht.names, hj], by rw [ht.data], hfenced rfl⟩
    · rintro e u ⟨hu, hw⟩
      rw [hu]
      refine ⟨ht, fun _ hwork => ?_, nofun⟩
      cases hw hwork
  · rintro e t ⟨hw, ht, -⟩
    refine ⟨ht, fun hwork => ?_, nofun⟩
    cases hw hwork

/-- Candidate `k` is there under the name `q`, and so are those before it. -/
structure TakenUpTo (path : PathBuf) (cleanEnd attempt k : ℕ) (d : Disk PathBuf) (q : PathBuf) :
    Prop where
  first : attempt ≤ k
  bound : k < 2 ^ 32
  name : sidecarPath path cleanEnd k = .ok q
  taken : ∀ j p, attempt ≤ j → j ≤ k → sidecarPath path cleanEnd j = .ok p → d.names p ≠ none

/-- The first candidate that holds the tail comes before any free one. -/
def HasCopy (path : PathBuf) (cleanEnd attempt : ℕ) (tail : Bytes) (d : Disk PathBuf) : Prop :=
  ∃ k q m, TakenUpTo path cleanEnd attempt k d q ∧ d.names q = some m ∧ d.data m = tail

/-- A candidate is free or holds the tail. -/
def HasRoom (path : PathBuf) (cleanEnd attempt : ℕ) (tail : Bytes) (d : Disk PathBuf) : Prop :=
  ∃ k q, attempt ≤ k ∧ k < 2 ^ 32 ∧ sidecarPath path cleanEnd k = .ok q ∧
    ∀ m, d.names q = some m → d.data m = tail

/-- A step of comparing a candidate with the tail fails, in the loop from `attempt` on. -/
inductive CompareFails (plan : Plan PathBuf) (path : PathBuf) (cleanEnd len : ℕ) :
    ℕ → World PathBuf → Prop where
  | here {attempt : ℕ} {w t u : World PathBuf} {q : PathBuf} {e e' : IoError}
      (name : sidecarPath path cleanEnd attempt = .ok q)
      (taken : Io.createNew plan q w = (.error e, t)) (kind : e.kind = .alreadyExists)
      (fails : openMatching plan q path cleanEnd len t = (.error e', u)) :
      CompareFails plan path cleanEnd len attempt w
  | later {attempt : ℕ} {w t u : World PathBuf} {q : PathBuf} {e : IoError}
      (name : sidecarPath path cleanEnd attempt = .ok q)
      (taken : Io.createNew plan q w = (.error e, t)) (kind : e.kind = .alreadyExists)
      (missed : openMatching plan q path cleanEnd len t = (.ok none, u))
      (rest : CompareFails plan path cleanEnd len (attempt + 1) u) :
      CompareFails plan path cleanEnd len attempt w

theorem not_compareFails {plan : Plan PathBuf} {attempt : ℕ} {w : World PathBuf}
    (hall : ∀ call, Io.Works plan call) (h : TailAt w.disk path cleanEnd len i) :
    ¬ CompareFails plan path cleanEnd len attempt w := by
  intro hfails
  induction hfails with
  | here name taken kind fails =>
    obtain ⟨-, -, -, ht, hexists⟩ := (Io.wp_createNew plan _ _).run taken
    rw [← ht] at h
    obtain ⟨-, -, -, hok⟩ := (openMatching_spec plan _ _ h).run fails
    obtain ⟨x, hx⟩ := hok hall (by rw [ht]; exact hexists kind)
    cases hx
  | later name taken kind missed rest ih =>
    obtain ⟨-, -, -, ht, -⟩ := (Io.wp_createNew plan _ _).run taken
    rw [← ht] at h
    obtain ⟨hu, -⟩ := (openMatching_spec plan _ _ h).run missed
    rw [← hu] at h
    exact ih h

/-- What the candidate loop does: it adds at most one file, under a candidate's name, and
returns a copy of the tail. It adds none when there is a copy and no comparison `fails`. -/
structure Saved (fails : Prop) (path : PathBuf) (cleanEnd attempt : ℕ) (tail : Bytes)
    (d d' : Disk PathBuf) (r : Except IoError PathBuf) : Prop where
  keeps : Disk.Keeps (fun _ => False) d d'
  added : d'.names = d.names ∨ ∃ k q, attempt ≤ k ∧ k < 2 ^ 32 ∧
    sidecarPath path cleanEnd k = .ok q ∧ ∀ p, p ≠ q → d'.names p = d.names p
  copied : ∀ q, r = .ok q → (∃ k, TakenUpTo path cleanEnd attempt k d' q) ∧ IsCopy d' q tail
  reused : ¬ fails → HasCopy path cleanEnd attempt tail d → Disk.Same d d'
  returns : (∀ call, Io.Works plan call) → HasRoom path cleanEnd attempt tail d → ∃ q, r = .ok q

theorem TakenUpTo.here {attempt : ℕ} {d : Disk PathBuf} {q : PathBuf} (hatt : attempt < 2 ^ 32)
    (hname : sidecarPath path cleanEnd attempt = .ok q) (hq : d.names q ≠ none) :
    TakenUpTo path cleanEnd attempt attempt d q := by
  refine ⟨Nat.le_refl _, hatt, hname, fun j p hj hk hp => ?_⟩
  have heq : j = attempt := by omega
  rw [heq, hname] at hp
  cases hp
  exact hq

/-- The loop stops with an error and changes nothing. -/
theorem Saved.unchanged {fails : Prop} {attempt : ℕ} {tail : Bytes} {d d' : Disk PathBuf}
    (h : d' = d) (e : IoError)
    (hroom : (∀ call, Io.Works plan call) → ¬ HasRoom path cleanEnd attempt tail d) :
    Saved plan fails path cleanEnd attempt tail d d' (.error e) := by
  subst h
  exact ⟨Disk.Keeps.refl _ _, Or.inl rfl, nofun, fun _ _ => Disk.Same.refl _,
    fun hall hr => absurd hr (hroom hall)⟩

section

variable {plan}
variable {attempt : ℕ} {tail : Bytes} {d d' : Disk PathBuf} {candidate : PathBuf}

/-- A free name or a copy past a candidate that is neither is behind it. -/
theorem HasRoom.skip (h : HasRoom path cleanEnd attempt tail d)
    (hname : sidecarPath path cleanEnd attempt = .ok candidate)
    (htaken : d.names candidate ≠ none)
    (hmiss : ∀ j, d.names candidate = some j → d.data j ≠ tail) :
    HasRoom path cleanEnd (attempt + 1) tail d := by
  obtain ⟨k, q, hk, hbound, hq, hroom⟩ := h
  by_cases heq : k = attempt
  · rw [heq, hname] at hq
    cases hq
    obtain ⟨j, hj⟩ := Option.ne_none_iff_exists'.mp htaken
    exact absurd (hroom j hj) (hmiss j hj)
  · exact ⟨k, q, by omega, hbound, hq, hroom⟩

theorem HasCopy.skip (h : HasCopy path cleanEnd attempt tail d)
    (hname : sidecarPath path cleanEnd attempt = .ok candidate)
    (hmiss : ∀ j, d.names candidate = some j → d.data j ≠ tail) :
    HasCopy path cleanEnd (attempt + 1) tail d := by
  obtain ⟨k, q, m, hk, hm, hbytes⟩ := h
  by_cases heq : k = attempt
  · have hq := hk.name
    rw [heq, hname] at hq
    cases hq
    exact absurd hbytes (hmiss m hm)
  · have hfirst := hk.first
    exact ⟨k, q, m, ⟨by omega, hk.bound, hk.name, fun j p hj => hk.taken j p (by omega)⟩,
      hm, hbytes⟩

/-- A candidate that is taken and does not match is passed over. -/
theorem Saved.step {fails fails' : Prop} {r : Except IoError PathBuf}
    (h : Saved plan fails' path cleanEnd (attempt + 1) tail d d' r)
    (hname : sidecarPath path cleanEnd attempt = .ok candidate)
    (htaken : d.names candidate ≠ none) (hrest : fails' → fails)
    (hmiss : fails ∧ ¬ (∀ call, Io.Works plan call) ∨
      ∀ j, d.names candidate = some j → d.data j ≠ tail) :
    Saved plan fails path cleanEnd attempt tail d d' r where
  keeps := h.keeps
  added := by
    rcases h.added with hsame | ⟨k, q, hk, hrest⟩
    · exact Or.inl hsame
    · exact Or.inr ⟨k, q, by omega, hrest⟩
  copied q hq := by
    obtain ⟨⟨k, hk⟩, hcopy⟩ := h.copied q hq
    have hfirst := hk.first
    refine ⟨⟨k, by omega, hk.bound, hk.name, fun j p hj hjk hp => ?_⟩, hcopy⟩
    by_cases heq : j = attempt
    · rw [heq, hname] at hp
      cases hp
      rw [h.keeps.names _ id htaken]
      exact htaken
    · exact hk.taken j p (by omega) hjk hp
  reused hno hcopy := by
    rcases hmiss with ⟨hfails, -⟩ | hmiss
    · exact absurd hfails hno
    · exact h.reused (fun hf => hno (hrest hf)) (hcopy.skip hname hmiss)
  returns hall hroom := by
    rcases hmiss with ⟨-, hnot⟩ | hmiss
    · exact absurd hall hnot
    · exact h.returns hall (hroom.skip hname htaken hmiss)

end

theorem sidecarPath_ok_of {attempt k : ℕ} {q : PathBuf} (h : sidecarPath path cleanEnd k = .ok q) :
    ∃ p, sidecarPath path cleanEnd attempt = .ok p := by
  unfold sidecarPath at h ⊢
  cases hf : path.fileName with
  | none =>
    rw [hf] at h
    cases h
  | some fileName => exact ⟨_, rfl⟩

/-- No candidate is the journal itself. -/
theorem sidecarPath_ne {k : ℕ} {q : PathBuf} (h : sidecarPath path cleanEnd k = .ok q) :
    q ≠ path := by
  unfold sidecarPath at h
  cases hf : path.fileName with
  | none =>
    rw [hf] at h
    cases h
  | some fileName =>
    rw [hf] at h
    have hq := Except.ok.inj h
    rintro rfl
    have hname : q.fileName = _ := (congrArg PathBuf.fileName hq).symm
    rw [hf] at hname
    have hlen := congrArg String.length (Option.some.inj hname)
    have hmark : (".corrupt-" : String).length = 9 := rfl
    split at hlen
    · simp only [String.length_append, hmark] at hlen
      omega
    · simp only [String.length_append, hmark] at hlen
      omega

theorem writeSidecar_spec (attempt : ℕ) (w : World PathBuf) (hatt : attempt < 2 ^ 32)
    (h : TailAt w.disk path cleanEnd len i) :
    (writeSidecar plan path cleanEnd len attempt).Wp (fun r w' =>
      Saved plan (CompareFails plan path cleanEnd len attempt w) path cleanEnd attempt
        (tailOf w.disk cleanEnd i) w.disk w'.disk r) w := by
  unfold writeSidecar
  refine Prog.wp_bind _ _ _ w (fun r t => t = w ∧
    (∀ q, r = .ok q → sidecarPath path cleanEnd attempt = .ok q) ∧
    ∀ e, r = .error e → ∀ q, sidecarPath path cleanEnd attempt ≠ .ok q) ?_ ?_ ?_
  · rw [Prog.wp_mapError, Prog.wp_lift]
    cases sidecarPath path cleanEnd attempt with
    | ok q => simp [Except.mapError]
    | error e => simp [Except.mapError]
  · rintro candidate t ⟨rfl, hname, -⟩
    have hname := hname candidate rfl
    refine (Prog.wp_attempt_bind _ _ _ t).mpr
      (Prog.wp_mono (Io.wp_createNew plan candidate t).with_run ?_)
    rintro created u ⟨hcreated, -, -, hworks, hu⟩
    cases created with
    | ok sidecar =>
      obtain ⟨hnone, rfl, hcreate⟩ := hu
      refine Prog.wp_mono (fillNew_spec plan candidate u t.disk hnone hcreate h) ?_
      rintro r v ⟨hkeeps, hothers, hall, hok⟩
      refine ⟨hkeeps, Or.inr ⟨attempt, candidate, Nat.le_refl _, hatt, hname, hothers⟩,
        fun q hq => ?_, ?_, fun hw _ => ⟨candidate, hall hw⟩⟩
      · obtain ⟨rfl, hcopy⟩ := hok q hq
        obtain ⟨m, hm, -⟩ := id hcopy
        exact ⟨⟨attempt, TakenUpTo.here hatt hname (by simp [hm])⟩, hcopy⟩
      · rintro - ⟨k, q, m, hk, -⟩
        exact absurd hnone (hk.taken attempt candidate (Nat.le_refl _) hk.first hname)
    | error e =>
      obtain ⟨hu, hexists⟩ := hu
      dsimp only
      split
      · rename_i hkind
        have htaken := hexists hkind
        have hat : TailAt u.disk path cleanEnd len i := by
          rw [hu]
          exact h
        refine Prog.wp_bind _ _ _ u _ (matchingSidecar_spec plan candidate u hat) ?_ ?_
        · rintro existing v ⟨hv, _, ⟨⟩, hsome, hmissed⟩
          have hv := hv.trans hu
          rw [hu] at hsome hmissed
          cases existing with
          | some j =>
            obtain ⟨hj, hbytes⟩ := hsome j rfl
            refine Prog.wp_mono (reuse_spec plan candidate j v (by rw [hv]; exact hj)) ?_
            rintro r x ⟨hx, hall, hok⟩
            rw [hv] at hx hok
            refine ⟨hx.keeps, Or.inl hx.names, fun q hq => ?_, fun _ _ => hx,
              fun hw _ => ⟨candidate, hall (hw _) (hw _)⟩⟩
            obtain ⟨rfl, hcopy⟩ := hok q hq
            rw [hbytes] at hcopy
            exact ⟨⟨attempt, TakenUpTo.here hatt hname (by rw [hx.names]; exact htaken)⟩, hcopy⟩
          | none =>
            have hmiss : CompareFails plan path cleanEnd len attempt t ∧
                ¬ (∀ call, Io.Works plan call) ∨
                ∀ j, t.disk.names candidate = some j →
                  t.disk.data j ≠ tailOf t.disk cleanEnd i := by
              rcases hmissed rfl with ⟨e', hfails⟩ | ⟨-, hno⟩
              · have hfail := CompareFails.here hname hcreated hkind hfails
                exact Or.inl ⟨hfail, fun hall => not_compareFails hall h hfail⟩
              · exact Or.inr hno
            dsimp only
            split
            · rename_i hnext
              have hrest := writeSidecar_spec (attempt + 1) v hnext (by rw [hv]; exact h)
              rw [hv] at hrest
              refine Prog.wp_mono hrest fun r x hx => hx.step hname htaken ?_ hmiss
              intro hlater
              rcases hmissed rfl with ⟨e', hfails⟩ | ⟨hmissed, -⟩
              · exact .here hname hcreated hkind hfails
              · exact .later hname hcreated hkind hmissed hlater
            · rename_i hlast
              refine Saved.unchanged plan hv _ fun hall hroom => ?_
              rcases hmiss with ⟨-, hnot⟩ | hmiss
              · exact hnot hall
              · obtain ⟨k, q, hk, hbound, -⟩ := hroom.skip hname htaken hmiss
                omega
        · rintro e' v ⟨hv, found, hfound, -⟩
          cases hfound
      · rename_i hkind
        refine Saved.unchanged plan hu _ fun hall _ => ?_
        cases hworks (hall _) e rfl
        exact absurd rfl hkind
  · rintro e t ⟨rfl, -, hno⟩
    refine Saved.unchanged plan rfl _ ?_
    rintro - ⟨k, q, -, -, hq, -⟩
    obtain ⟨p, hp⟩ := sidecarPath_ok_of hq
    exact hno e rfl p hp
termination_by 2 ^ 32 - attempt

/-! ### The whole of `prepare_resume` -/

/-- A non-zero byte. -/
def HasData (tail : Bytes) : Prop := ∃ b ∈ tail, b ≠ 0

theorem not_hasData_iff (tail : Bytes) : ¬ HasData tail ↔ ∀ b ∈ tail, b = 0 := by
  unfold HasData
  push Not
  exact Iff.rfl

/-- What the handling of a tail does: see `Saved`; without data it does nothing. -/
structure TailKept (fails : Prop) (path : PathBuf) (cleanEnd : ℕ) (tail : Bytes)
    (d d' : Disk PathBuf) (r : Except IoError Tail) : Prop where
  keeps : Disk.Keeps (fun _ => False) d d'
  added : d'.names = d.names ∨ ∃ k q, k < 2 ^ 32 ∧ sidecarPath path cleanEnd k = .ok q ∧
    ∀ p, p ≠ q → d'.names p = d.names p
  quiet : ¬ HasData tail → Disk.Same d d' ∧ ∀ q, r ≠ .ok (.preserved q)
  copied : ∀ t, r = .ok t → HasData tail → ∃ q k, t = .preserved q ∧
    TakenUpTo path cleanEnd 0 k d' q ∧ IsCopy d' q tail
  reused : ¬ fails → HasCopy path cleanEnd 0 tail d → Disk.Same d d'
  returns : (∀ call, Io.Works plan call) → (HasData tail → HasRoom path cleanEnd 0 tail d) →
    ∃ t, r = .ok t

theorem TailKept.of_same {fails : Prop} {tail : Bytes} {d d' : Disk PathBuf}
    {r : Except IoError Tail} (h : d' = d) (hcopied : ∀ t, r = .ok t → ¬ HasData tail)
    (hquiet : ∀ q, r ≠ .ok (.preserved q))
    (hreturns : (∀ call, Io.Works plan call) → ∃ t, r = .ok t) :
    TailKept plan fails path cleanEnd tail d d' r := by
  subst h
  exact ⟨Disk.Keeps.refl _ _, Or.inl rfl, fun _ => ⟨Disk.Same.refl _, hquiet⟩,
    fun t ht hd => absurd hd (hcopied t ht), fun _ _ => Disk.Same.refl _,
    fun hall _ => hreturns hall⟩

/-- A comparison fails in `preserve_tail`. -/
def PreserveFails (plan : Plan PathBuf) (path : PathBuf) (cleanEnd fileLen : ℕ)
    (w : World PathBuf) : Prop :=
  cleanEnd < fileLen ∧ ∃ t, tailIsZero plan path cleanEnd (fileLen - cleanEnd) w = (.ok false, t) ∧
    CompareFails plan path cleanEnd (fileLen - cleanEnd) 0 t

theorem TailKept.of_fails {fails fails' : Prop} {tail : Bytes} {d d' : Disk PathBuf}
    {r : Except IoError Tail} (h : TailKept plan fails path cleanEnd tail d d' r)
    (himp : fails → fails') : TailKept plan fails' path cleanEnd tail d d' r :=
  ⟨h.keeps, h.added, h.quiet, h.copied, fun hno => h.reused fun hf => hno (himp hf), h.returns⟩

theorem preserveTail_spec (w : World PathBuf) (cleanEnd : ℕ) (hi : w.disk.names path = some i) :
    (preserveTail plan path cleanEnd (w.disk.data i).length).Wp (fun r w' =>
      TailKept plan (PreserveFails plan path cleanEnd (w.disk.data i).length w) path cleanEnd
        (tailOf w.disk cleanEnd i) w.disk w'.disk r) w := by
  unfold preserveTail
  split
  · rename_i hle
    have hnil : tailOf w.disk cleanEnd i = [] := List.drop_eq_nil_of_le hle
    rw [Prog.wp_pure]
    refine TailKept.of_same plan rfl ?_ nofun fun _ => ⟨_, rfl⟩
    rintro t - ⟨b, hb, -⟩
    rw [hnil] at hb
    cases hb
  · rename_i hlt
    have hat : TailAt w.disk path cleanEnd ((w.disk.data i).length - cleanEnd) i :=
      ⟨hi, by omega⟩
    dsimp only
    refine Prog.wp_bind _ _ _ w (fun r t => t.disk = w.disk ∧
      ((∀ call, Io.Works plan call) → ∃ b, r = .ok b) ∧
      ∀ b, r = .ok b → (b = true ↔ ¬ HasData (tailOf w.disk cleanEnd i)) ∧
        tailIsZero plan path cleanEnd ((w.disk.data i).length - cleanEnd) w = (.ok b, t)) ?_ ?_ ?_
    · rw [Prog.wp_mapError]
      refine Prog.wp_mono (tailIsZero_spec plan w hat).with_run ?_
      rintro r t ⟨hrun, ht, hw, hiff⟩
      refine ⟨ht, fun hall => ?_, fun b hb => ?_⟩
      · obtain ⟨b, rfl⟩ := hw (hall _) (hall _)
        exact ⟨b, rfl⟩
      · cases r with
        | error e => cases hb
        | ok c =>
          cases hb
          rw [not_hasData_iff]
          exact ⟨hiff b rfl, hrun⟩
    · rintro zeros t ⟨ht, -, hiff⟩
      obtain ⟨hiff, hzeros⟩ := hiff zeros rfl
      cases zeros with
      | true =>
        exact TailKept.of_same plan ht (fun _ _ => hiff.mp rfl) nofun fun _ => ⟨_, rfl⟩
      | false =>
        have hdata : HasData (tailOf w.disk cleanEnd i) := by
          by_contra hno
          cases hiff.mpr hno
        have hwrite := writeSidecar_spec plan 0 t (by omega) (by rw [ht]; exact hat)
        rw [ht] at hwrite
        have hadded : ∀ {fails : Prop} {d' : Disk PathBuf} {r : Except IoError PathBuf},
            Saved plan fails path cleanEnd 0 (tailOf w.disk cleanEnd i) w.disk d' r →
            d'.names = w.disk.names ∨ ∃ k q, k < 2 ^ 32 ∧ sidecarPath path cleanEnd k = .ok q ∧
              ∀ p, p ≠ q → d'.names p = w.disk.names p := by
          intro fails d' r hs
          rcases hs.added with hsame | ⟨k, q, -, hrest⟩
          · exact Or.inl hsame
          · exact Or.inr ⟨k, q, hrest⟩
        refine Prog.wp_bind _ _ _ t _ hwrite ?_ ?_
        · intro sidecar u hs
          refine ⟨hs.keeps, hadded hs, fun hno => absurd hdata hno, ?_,
            fun hno => hs.reused fun hf => hno ⟨Nat.not_le.mp hlt, t, hzeros, hf⟩,
            fun _ _ => ⟨_, rfl⟩⟩
          rintro _ ⟨⟩ -
          obtain ⟨⟨k, hk⟩, hcopy⟩ := hs.copied sidecar rfl
          exact ⟨sidecar, k, rfl, hk, hcopy⟩
        · intro e u hs
          refine ⟨hs.keeps, hadded hs, fun hno => absurd hdata hno, nofun,
            fun hno => hs.reused fun hf => hno ⟨Nat.not_le.mp hlt, t, hzeros, hf⟩, ?_⟩
          intro hall hroom
          cases (hs.returns hall (hroom hdata)).choose_spec
    · rintro e t ⟨ht, hw, -⟩
      exact TailKept.of_same plan ht nofun nofun fun hall => (nomatch (hw hall).choose_spec)

/-- The clean end the scan of a file finds. -/
def cleanEndOf (file : Bytes) : ℕ := (plainScan crc file 0).position

/-- The scan ends, and what it returns is the one-shot scan of the file. -/
theorem scanFile_spec (k : ℕ) (w : World PathBuf) :
    (scanFile crc plan k).Wp (fun r w' => w'.disk = w.disk ∧
      (Io.Works plan (.read k) → ∃ x, r = .ok x) ∧
      ∀ c s, r = .ok (c, s) → c = cleanEndOf crc (w.disk.data k) ∧
        s = (plainScan crc (w.disk.data k) 0).state) w := by
  have hcases := replay_cases crc (readsFrom plan k w.clock) (w.disk.data k) 0
  rw [JournalReader.seekTo_zero] at hcases
  unfold Prog.Wp scanFile
  rcases hcases with ⟨reader, hr, hstate, hpos⟩ | ⟨e, reader, hr⟩
  · rw [hr]
    refine ⟨rfl, fun _ => ⟨_, rfl⟩, ?_⟩
    rintro _ _ ⟨⟩
    exact ⟨hpos, hstate⟩
  · rw [hr]
    refine ⟨rfl, fun hwork => ?_, nofun⟩
    -- reads that all work are short reads, and a replay over these returns
    have hshort : readsFrom plan k w.clock =
        shortReads fun j => (hwork (w.clock + j)).choose := by
      funext j
      unfold readsFrom shortReads
      rw [(hwork (w.clock + j)).choose_spec]
    have hreplay := replay_eq_plainScan crc (w.disk.data k) 0
      fun j => (hwork (w.clock + j)).choose
    rw [JournalReader.seekTo_zero, ← hshort, hr] at hreplay
    obtain ⟨_, hcontra, -⟩ := hreplay
    cases hcontra

theorem cleanEndOf_nil : cleanEndOf crc [] = 0 := by
  unfold cleanEndOf
  rw [plainScan_stop crc [] 0 .cleanEnd rfl]

theorem scanCleanEnd_spec (w : World PathBuf) :
    (scanCleanEnd crc plan path).Wp (fun r w' => w'.disk = w.disk ∧
      (Io.Works plan (.openRead path) → (∀ k, Io.Works plan (.len k)) →
        (∀ k, Io.Works plan (.read k)) → w.disk.names path ≠ none → ∃ x, r = .ok x) ∧
      ∀ c l s, r = .ok (c, l, s) → ∃ i, w.disk.names path = some i ∧
        c = cleanEndOf crc (w.disk.data i) ∧ l = (w.disk.data i).length) w := by
  refine Prog.wp_bind _ _ _ w _ (Io.wp_openRead plan path w) ?_ ?_
  · rintro i t ⟨ht, -, hi⟩
    have hi := hi i rfl
    refine Prog.wp_bind _ _ _ t _ (Io.wp_len plan i t) ?_ ?_
    · rintro fileLen u ⟨hu, -, hlen⟩
      have hlen := hlen fileLen rfl
      have hu := hu.trans ht
      rw [ht] at hlen
      split
      · rename_i hzero
        have hnil : w.disk.data i = [] := List.eq_nil_of_length_eq_zero (by omega)
        rw [Prog.wp_pure]
        refine ⟨hu, fun _ _ _ _ => ⟨_, rfl⟩, ?_⟩
        rintro _ _ _ ⟨⟩
        refine ⟨i, hi, ?_, ?_⟩
        · rw [hnil, cleanEndOf_nil]
        · rw [hnil]
          rfl
      · refine Prog.wp_bind _ _ _ u _ (scanFile_spec crc plan i u) ?_ ?_
        · rintro ⟨position, state⟩ v ⟨hv, -, hscan⟩
          obtain ⟨hpos, -⟩ := hscan position state rfl
          rw [hu] at hpos
          rw [Prog.wp_pure]
          refine ⟨hv.trans hu, fun _ _ _ _ => ⟨_, rfl⟩, ?_⟩
          rintro _ _ _ ⟨⟩
          exact ⟨i, hi, hpos, hlen⟩
        · rintro e v ⟨hv, hw, -⟩
          exact ⟨hv.trans hu, fun _ _ hread _ => (nomatch (hw (hread _)).choose_spec), nofun⟩
    · rintro e u ⟨hu, hw, -⟩
      exact ⟨hu.trans ht, fun _ hlen _ _ => (nomatch (hw (hlen _)).choose_spec), nofun⟩
  · rintro e t ⟨ht, hw, -⟩
    refine ⟨ht, fun hopen _ _ hne => ?_, nofun⟩
    obtain ⟨i, hi⟩ := Option.ne_none_iff_exists'.mp hne
    cases hw hopen i hi

/-- A step of comparing an existing candidate with the tail fails in `prepare_resume`. -/
def ComparisonFails (crc : Crc) (plan : Plan PathBuf) (path : PathBuf) (w : World PathBuf) :
    Prop :=
  ∃ cleanEnd fileLen state t, scanCleanEnd crc plan path w = (.ok (cleanEnd, fileLen, state), t) ∧
    PreserveFails plan path cleanEnd fileLen t

theorem not_comparisonFails {crc : Crc} {plan : Plan PathBuf} {w : World PathBuf}
    (hall : ∀ call, Io.Works plan call) (hi : w.disk.names path = some i) :
    ¬ ComparisonFails crc plan path w := by
  rintro ⟨cleanEnd, fileLen, state, t, hscan, hlt, u, hzeros, hfails⟩
  obtain ⟨ht, -, hres⟩ := (scanCleanEnd_spec crc plan w).run hscan
  obtain ⟨k, hk, rfl, rfl⟩ := hres cleanEnd fileLen state rfl
  rw [hi] at hk
  cases hk
  have hat : TailAt t.disk path (cleanEndOf crc (w.disk.data i))
      ((w.disk.data i).length - cleanEndOf crc (w.disk.data i)) i := by
    rw [ht]
    exact ⟨hi, by omega⟩
  obtain ⟨hu, -⟩ := (tailIsZero_spec plan t hat).run hzeros
  rw [← hu] at hat
  exact not_compareFails hall hat hfails

/-- What `prepare_resume` does: the tail is handled at the clean end of the scan. -/
structure ResumeKept (fails : Prop) (path : PathBuf) (cleanEnd : ℕ) (tail : Bytes)
    (d d' : Disk PathBuf) (r : Except IoError Resume) : Prop where
  resumes : ∀ res, r = .ok res → res.cleanEnd = cleanEnd
  kept : TailKept plan fails path cleanEnd tail d d' (r.map Resume.tail)

theorem prepareResume_spec (w : World PathBuf) (hi : w.disk.names path = some i) :
    (prepareResume crc plan path).Wp (fun r w' =>
      ResumeKept plan (ComparisonFails crc plan path w) path (cleanEndOf crc (w.disk.data i))
        (tailOf w.disk (cleanEndOf crc (w.disk.data i)) i) w.disk w'.disk r) w := by
  refine Prog.wp_bind _ _ _ w _ (scanCleanEnd_spec crc plan w).with_run ?_ ?_
  · rintro ⟨cleanEnd, fileLen, state⟩ t ⟨hrun, ht, -, hscan⟩
    obtain ⟨k, hk, rfl, rfl⟩ := hscan cleanEnd fileLen state rfl
    rw [hi] at hk
    cases hk
    have hkeep := preserveTail_spec plan t (cleanEndOf crc (w.disk.data i)) (by rw [ht]; exact hi)
    rw [ht] at hkeep
    refine Prog.wp_bind _ _ _ t _ hkeep ?_ ?_
    · intro tail u hu
      rw [Prog.wp_pure]
      refine ⟨?_, hu.of_fails plan fun hf => ⟨_, _, _, t, hrun, hf⟩⟩
      rintro _ ⟨⟩
      rfl
    · intro e u hu
      exact ⟨nofun, hu.of_fails plan fun hf => ⟨_, _, _, t, hrun, hf⟩⟩
  · rintro e t ⟨-, ht, hw, -⟩
    refine ⟨nofun, TailKept.of_same plan ht nofun nofun fun hall => ?_⟩
    cases (hw (hall _) (fun _ => hall _) (fun _ => hall _) (by rw [hi]; exact nofun)).choose_spec

/-- A copy that was returned is there for the next run to find. -/
theorem TakenUpTo.hasCopy {k : ℕ} {q : PathBuf} {tail : Bytes} {d d' : Disk PathBuf}
    (h : TakenUpTo path cleanEnd 0 k d q) (hcopy : IsCopy d q tail) (hs : Disk.Same d d') :
    HasCopy path cleanEnd 0 tail d' := by
  obtain ⟨m, hm, hbytes, -⟩ := hcopy
  refine ⟨k, q, m, ⟨h.first, h.bound, h.name, ?_⟩, ?_, ?_⟩
  · rw [hs.names]
    exact h.taken
  · rw [hs.names, hm]
  · rw [hs.data, hbytes]

theorem HasCopy.hasRoom {tail : Bytes} {d : Disk PathBuf}
    (h : HasCopy path cleanEnd 0 tail d) : HasRoom path cleanEnd 0 tail d := by
  obtain ⟨k, q, m, hk, hm, hbytes⟩ := h
  refine ⟨k, q, hk.first, hk.bound, hk.name, fun j hj => ?_⟩
  rw [hm] at hj
  cases hj
  exact hbytes

/-- No corrupt tail is lost. Whatever fails, files that existed are neither changed nor
removed and at most one sidecar is added, none for a tail without data. When the call
returns, a tail with data is in a sidecar byte for byte; the call does return when
nothing fails and a sidecar name is free. A second run on the same directory adds
nothing and finds the copy, if no step of a comparison fails: a failed comparison is a
mismatch. -/
theorem prepare_resume_keeps_tail (path : PathBuf) (i : ℕ) (w : World PathBuf)
    (hi : w.disk.names path = some i) :
    let cleanEnd := cleanEndOf crc (w.disk.data i)
    let tail := (w.disk.data i).drop cleanEnd
    let out := prepareResume crc plan path w
    (∀ p, w.disk.names p ≠ none → out.2.disk.names p = w.disk.names p ∧
      out.2.disk.content p = w.disk.content p) ∧
    (out.2.disk.names = w.disk.names ∨ ∃ k q, k < 2 ^ 32 ∧ sidecarPath path cleanEnd k = .ok q ∧
      ∀ p, p ≠ q → out.2.disk.names p = w.disk.names p) ∧
    ((∀ b ∈ tail, b = 0) → out.2.disk.names = w.disk.names) ∧
    (∀ res, out.1 = .ok res → res.cleanEnd = cleanEnd ∧ ((∃ b ∈ tail, b ≠ 0) →
      ∃ q k, res.tail = .preserved q ∧ k < 2 ^ 32 ∧ sidecarPath path cleanEnd k = .ok q ∧
        IsCopy out.2.disk q tail)) ∧
    ((∀ call, Io.Works plan call) → (HasData tail → HasRoom path cleanEnd 0 tail w.disk) →
      ∃ res, out.1 = .ok res) ∧
    ∀ res, out.1 = .ok res → (∃ b ∈ tail, b ≠ 0) →
      ∀ (plan' : Plan PathBuf) (w' : World PathBuf), Disk.Same out.2.disk w'.disk →
        ¬ ComparisonFails crc plan' path w' →
        let again := prepareResume crc plan' path w'
        Disk.Same w'.disk again.2.disk ∧
        (∀ res', again.1 = .ok res' → ∃ q, res'.tail = .preserved q ∧
          w'.disk.names q ≠ none ∧ IsCopy again.2.disk q tail) ∧
        ((∀ call, Io.Works plan' call) → ∃ res', again.1 = .ok res') := by
  intro cleanEnd tail out
  have hspec : ResumeKept plan (ComparisonFails crc plan path w) path cleanEnd tail w.disk
      out.2.disk out.1 :=
    prepareResume_spec crc plan w hi
  have htail : ∀ res, out.1 = .ok res → out.1.map Resume.tail = .ok res.tail := by
    intro res hres
    rw [hres]
    rfl
  refine ⟨fun p hp => ⟨hspec.kept.keeps.names p id hp, hspec.kept.keeps.content p id hp⟩,
    hspec.kept.added, fun hzero => (hspec.kept.quiet ((not_hasData_iff _).mpr hzero)).1.names,
    fun res hres => ⟨hspec.resumes res hres, fun hdata => ?_⟩, fun hall hroom => ?_, ?_⟩
  · obtain ⟨q, k, hq, hk, hcopy⟩ := hspec.kept.copied res.tail (htail res hres) hdata
    exact ⟨q, k, hq, hk.bound, hk.name, hcopy⟩
  · obtain ⟨t, ht⟩ := hspec.kept.returns hall hroom
    cases hr : out.1 with
    | ok res => exact ⟨res, rfl⟩
    | error e =>
      rw [hr] at ht
      cases ht
  · intro res hres hdata plan' w' hsame hwork again
    have hi' : w'.disk.names path = some i := by
      rw [hsame.names, hspec.kept.keeps.names path id (by rw [hi]; exact nofun), hi]
    have hbytes : w'.disk.data i = w.disk.data i := by
      rw [hsame.data, hspec.kept.keeps.data i (w.disk.fresh _ _ hi)]
    have hagain : ResumeKept plan' (ComparisonFails crc plan' path w') path cleanEnd tail w'.disk
        again.2.disk again.1 := by
      have h := prepareResume_spec crc plan' w' hi'
      unfold tailOf at h
      rw [hbytes] at h
      exact h
    obtain ⟨q, k, -, hk, hcopy⟩ := hspec.kept.copied res.tail (htail res hres) hdata
    have hthere := hk.hasCopy hcopy hsame
    have hkept := hagain.kept.reused hwork hthere
    refine ⟨hkept, fun res' hres' => ?_, fun hall => ?_⟩
    · have hmap : again.1.map Resume.tail = .ok res'.tail := by
        rw [hres']
        rfl
      obtain ⟨q', -, hq', -, hcopy'⟩ := hagain.kept.copied res'.tail hmap hdata
      refine ⟨q', hq', ?_, hcopy'⟩
      obtain ⟨m, hm, -⟩ := hcopy'
      rw [← hkept.names, hm]
      exact nofun
    · obtain ⟨t, ht⟩ := hagain.kept.returns hall fun _ => hthere.hasRoom
      cases hr : again.1 with
      | ok res' => exact ⟨res', rfl⟩
      | error e =>
        rw [hr] at ht
        cases ht

/-! ### A journal with one odd byte -/

def oddJournal : PathBuf := ⟨"d", some "j"⟩

def oddSidecar : PathBuf := ⟨"d", some "j.corrupt-0"⟩

/-- The journal holds a byte that is no frame; an earlier run may have left a copy. -/
def oddDisk (copied : Bool) : Disk PathBuf where
  names p := if p = oddJournal then some 0
    else if p = oddSidecar ∧ copied = true then some 1 else none
  data _ := [1]
  fenced _ := true
  next := 2
  fresh p i h := by
    split at h
    · cases h
      exact Nat.two_pos
    · split at h
      · cases h
        exact Nat.one_lt_two
      · cases h

theorem sidecarPath_odd : sidecarPath oddJournal 0 0 = .ok oddSidecar := by decide +kernel

theorem sidecarPath_odd_next :
    sidecarPath oddJournal 0 1 = .ok ⟨"d", some "j.corrupt-0.1"⟩ := by decide +kernel

/-- Every call works. -/
def calm : Plan PathBuf := fun _ _ => .ok 0

theorem works_calm (call : Call PathBuf) : Io.Works calm call := fun _ => ⟨0, rfl⟩

theorem cleanEndOf_odd : cleanEndOf castagnoli [1] = 0 := by
  unfold cleanEndOf
  rw [plainScan_stop castagnoli [1] 0 .truncatedHeader rfl]

/-- The odd byte is saved, and a second run leaves the directory as it is. -/
theorem prepare_resume_keeps_tail_odd_byte :
    (oddDisk false).names oddJournal = some 0 ∧
    ∃ res, (prepareResume castagnoli calm oddJournal ⟨oddDisk false, 0, []⟩).1 = .ok res ∧
      (∃ q, res.tail = .preserved q ∧
        IsCopy (prepareResume castagnoli calm oddJournal ⟨oddDisk false, 0, []⟩).2.disk q [1]) ∧
      Disk.Same (prepareResume castagnoli calm oddJournal ⟨oddDisk false, 0, []⟩).2.disk
        (prepareResume castagnoli calm oddJournal
          (prepareResume castagnoli calm oddJournal ⟨oddDisk false, 0, []⟩).2).2.disk := by
  have h := prepare_resume_keeps_tail castagnoli calm oddJournal 0 ⟨oddDisk false, 0, []⟩ rfl
  have hend : cleanEndOf castagnoli ((oddDisk false).data 0) = 0 := cleanEndOf_odd
  dsimp only at h
  rw [hend] at h
  obtain ⟨hkeeps, -, -, hok, hreturns, hagain⟩ := h
  have hdata : ∃ b ∈ ((oddDisk false).data 0).drop 0, b ≠ 0 := ⟨1, by decide, by decide⟩
  have hroom : HasRoom oddJournal 0 0 (((oddDisk false).data 0).drop 0) (oddDisk false) :=
    ⟨0, oddSidecar, Nat.le_refl _, by decide, sidecarPath_odd, nofun⟩
  obtain ⟨res, hres⟩ := hreturns works_calm fun _ => hroom
  obtain ⟨q, k, hq, -, -, hcopy⟩ := (hok res hres).2 hdata
  have hthere : (prepareResume castagnoli calm oddJournal ⟨oddDisk false, 0, []⟩).2.disk.names
      oddJournal = some 0 := (hkeeps oddJournal nofun).1
  have hsecond := hagain res hres hdata calm _ (Disk.Same.refl _)
    (not_comparisonFails works_calm hthere)
  exact ⟨rfl, res, hres, ⟨q, hq, hcopy⟩, hsecond.1⟩

/-- Opening an existing sidecar fails, nothing else does. -/
def blind : Plan PathBuf := fun call _ =>
  match call with
  | .openWrite _ => .fail ⟨.permissionDenied, "permission denied"⟩ 0
  | _ => .ok 0

theorem preserveTail_blind (clock : ℕ) (renames : List (Renamed PathBuf)) :
    (preserveTail blind oddJournal 0 1 ⟨oddDisk true, clock, renames⟩).2.disk.names
      ⟨"d", some "j.corrupt-0.1"⟩ = some 2 := by
  unfold preserveTail
  rw [if_neg (by decide)]
  unfold writeSidecar
  rw [sidecarPath_odd]
  unfold writeSidecar
  rw [sidecarPath_odd_next]
  rfl

theorem prepareResume_blind :
    (prepareResume castagnoli blind oddJournal).Wp
      (fun _ w' => w'.disk.names ⟨"d", some "j.corrupt-0.1"⟩ = some 2)
      ⟨oddDisk true, 0, []⟩ := by
  unfold prepareResume
  refine Prog.wp_bind _ _ _ _ _ (scanCleanEnd_spec castagnoli blind ⟨oddDisk true, 0, []⟩) ?_ ?_
  · rintro ⟨c, l, s⟩ ⟨disk, clock, renames⟩ ⟨ht, -, hscan⟩
    obtain ⟨k, hk, rfl, rfl⟩ := hscan c l s rfl
    cases hk
    cases ht
    rw [show cleanEndOf castagnoli ((oddDisk true).data 0) = 0 from cleanEndOf_odd]
    refine Prog.wp_bind _ _ _ _
      (fun _ w' => w'.disk.names ⟨"d", some "j.corrupt-0.1"⟩ = some 2)
      (preserveTail_blind clock renames) ?_ ?_
    · intro t w' hw'
      exact hw'
    · intro e w' hw'
      exact hw'
  · rintro e t ⟨-, hw, -⟩
    cases (hw (fun _ => ⟨0, rfl⟩) (fun _ _ => ⟨0, rfl⟩) (fun _ _ => ⟨0, rfl⟩)
      (by decide)).choose_spec

/-- A second run that cannot open the earlier copy makes another one. -/
theorem prepare_resume_again_adds_file :
    (∃ res, (prepareResume castagnoli calm oddJournal ⟨oddDisk true, 0, []⟩).1 = .ok res) ∧
    Disk.Same (prepareResume castagnoli calm oddJournal ⟨oddDisk true, 0, []⟩).2.disk
      (oddDisk true) ∧
    (oddDisk true).names ⟨"d", some "j.corrupt-0.1"⟩ = none ∧
    (prepareResume castagnoli blind oddJournal ⟨oddDisk true, 0, []⟩).2.disk.names
      ⟨"d", some "j.corrupt-0.1"⟩ = some 2 := by
  have hend : cleanEndOf castagnoli ((oddDisk true).data 0) = 0 := cleanEndOf_odd
  have hfirst : ResumeKept calm (ComparisonFails castagnoli calm oddJournal
      ⟨oddDisk true, 0, []⟩) oddJournal (cleanEndOf castagnoli ((oddDisk true).data 0))
      (tailOf (oddDisk true) (cleanEndOf castagnoli ((oddDisk true).data 0)) 0) (oddDisk true)
      (prepareResume castagnoli calm oddJournal ⟨oddDisk true, 0, []⟩).2.disk
      (prepareResume castagnoli calm oddJournal ⟨oddDisk true, 0, []⟩).1 :=
    prepareResume_spec castagnoli calm ⟨oddDisk true, 0, []⟩ rfl
  rw [hend] at hfirst
  have hcopy : HasCopy oddJournal 0 0 (tailOf (oddDisk true) 0 0) (oddDisk true) :=
    ⟨0, oddSidecar, 1, TakenUpTo.here (by decide) sidecarPath_odd (by decide), by decide, rfl⟩
  have hsame := hfirst.kept.reused
    (not_comparisonFails (i := 0) works_calm rfl) hcopy
  refine ⟨?_, ⟨hsame.names.symm, hsame.data.symm, hsame.next.symm⟩, by decide, ?_⟩
  · obtain ⟨t, ht⟩ := hfirst.kept.returns works_calm fun _ => hcopy.hasRoom
    cases hr : (prepareResume castagnoli calm oddJournal ⟨oddDisk true, 0, []⟩).1 with
    | ok res => exact ⟨res, rfl⟩
    | error e =>
      rw [hr] at ht
      cases ht
  · exact prepareResume_blind

end Fsys.Journal
