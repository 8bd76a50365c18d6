import Fsys.Crud.SharedSafety

/-!
# Reads see one file

A read takes place when it opens the file: nobody writes to a file that is open to be read,
so all its parts come from the contents of that moment, however they are read.
-/

namespace Fsys.Crud
open Fsys.Base Fsys.Platform

section

variable {ι : Type} [DecidableEq ι] {jobs : ι → Job} {start : Disk PathBuf}
  {plan : Plan PathBuf} {t : ι} {ε α : Type} {i : ℕ} {b buf : Bytes} {path : PathBuf}

/-! ### The open file -/

theorem safe_reading {c : Plan PathBuf → Io PathBuf α}
    (hc : ∀ w : World PathBuf, (c plan w).2.disk = w.disk) :
    Safe jobs start plan t (fun r v' => v' = .reading i b ∧
      ∃ w : World PathBuf, w.disk.data i = b ∧ (c plan w).1 = r) (Shared.io c)
      (.reading i b) := by
  apply safe_io
  intro w m vs hs hv
  exact ⟨m, _, Move.look (hc w), rfl, w, (hs.opened t i b hv).1, rfl⟩

theorem safe_openCall (hp : ¬ Hidden path)
    (hspec : ∀ m : Contents, (jobs t).spec m = (m path).map fun b => (.bytes b, m)) :
    Safe jobs start plan t (OkOr (fun i v' => ∃ b, v' = .reading i b) fun v' => v' = .idle)
      (Shared.io fun p => Io.openRead p path) .idle := by
  apply safe_io
  intro w m vs hs hv
  have hm := hspec m
  obtain ⟨hd, -, hname⟩ := Io.wp_openRead plan path w
  cases hr : (Io.openRead plan path w).1 with
  | ok i =>
    have hi := hname i hr
    rw [hs.at_some hp hi, Option.map_some] at hm
    exact ⟨m, _, Move.opened hd hp hi hm, _, rfl⟩
  | error e => exact ⟨m, _, Move.look hd, rfl⟩

theorem safe_openRead (hp : ¬ Hidden path) (useDirect : Bool)
    (hspec : ∀ m : Contents, (jobs t).spec m = (m path).map fun b => (.bytes b, m)) :
    Safe jobs start plan t (OkOr (fun x v' => ∃ b, v' = .reading x.1 b) fun v' => v' = .idle)
      (Shared.openRead path useDirect) .idle := by
  unfold Shared.openRead
  refine Protocol.safe_bind (fun r v' => ∃ r', r = .ok r' ∧
    OkOr (fun i v' => ∃ b, v' = .reading i b) (fun v' => v' = .idle) r' v') ?_ ?_ ?_
  · exact safe_attempt (safe_openCall hp hspec) fun r v' hr => ⟨r, rfl, hr⟩
  · intro opened v' h
    obtain ⟨r', hr', h⟩ := h
    cases hr'
    cases opened with
    | ok file => exact h
    | error e =>
      have hidle : v' = .idle := h
      rw [hidle]
      dsimp only
      split
      · refine Protocol.safe_bind _ (safe_mapError_okOr _ (safe_openCall hp hspec)) ?_
          fun _ _ h => h
        intro file v'' h'
        exact h'
      · exact rfl
  · intro x v' h
    obtain ⟨r', hr, -⟩ := h
    cases hr

/-- Some of the bytes that follow, and none only at the end. -/
theorem read_ok {off n : ℕ} {w : World PathBuf} {bytes : Bytes}
    (h : (Io.read plan i off n w).1 = .ok bytes) :
    ∃ k, bytes = ((w.disk.data i).drop off).take (min n (k + 1)) := by
  obtain ⟨-, -, -, hans⟩ := Io.wp_look plan (.read i)
    (fun d amount => .ok (((d.data i).drop off).take (min n (amount + 1)))) w
  have hr : (Io.look plan (.read i)
    (fun d amount => .ok (((d.data i).drop off).take (min n (amount + 1)))) w).1 = .ok bytes := h
  rw [hr] at hans
  rcases hans with ⟨e, k, -, he⟩ | ⟨k, -, hk⟩
  · cases he
  · cases hk
    exact ⟨k, rfl⟩

theorem append_take_isPrefix (h : buf <+: b) (k : ℕ) :
    buf ++ (b.drop buf.length).take k <+: b := by
  obtain ⟨rest, rfl⟩ := h
  rw [List.drop_left]
  exact (List.prefix_append_right_inj buf).mpr (List.take_prefix k rest)

/-- A read of nothing: all of the file is there. -/
theorem eq_of_take_drop_nil (h : buf <+: b) {k : ℕ} (hk : 0 < k)
    (hnil : (b.drop buf.length).take k = []) : buf = b := by
  obtain ⟨rest, rfl⟩ := h
  rw [List.drop_left] at hnil
  cases rest with
  | nil => rw [List.append_nil]
  | cons x rest =>
    obtain ⟨k, rfl⟩ := Nat.exists_eq_succ_of_ne_zero hk.ne'
    cases hnil

theorem isPrefix_eq (h : buf <+: b) (hlen : b.length ≤ buf.length) : buf = b :=
  h.eq_of_length (Nat.le_antisymm h.length_le hlen)

/-- One `pread` of up to `n` bytes behind `buf`. -/
theorem safe_pread (n : ℕ) (hn : 0 < n) (hbuf : buf <+: b) :
    Safe jobs start plan t (fun r v' => v' = .reading i b ∧ ∀ bytes, r = .ok bytes →
      buf ++ bytes <+: b ∧ (bytes = [] → buf = b))
      (Shared.io fun p => Io.read p i buf.length n) (.reading i b) := by
  apply Protocol.Safe.mono (safe_reading fun w => disk_look _ _ w)
  intro r v' hr
  obtain ⟨hv, w, hw, hres⟩ := hr
  refine ⟨hv, ?_⟩
  intro bytes hbytes
  rw [hbytes] at hres
  obtain ⟨k, rfl⟩ := read_ok hres
  rw [hw]
  exact ⟨append_take_isPrefix hbuf _, eq_of_take_drop_nil hbuf (by omega)⟩

/-! ### Loops -/

/-- The file is still open, and what was read is the file. -/
def Got (i : ℕ) (b : Bytes) (r : Except ε Bytes) (v : View) : Prop :=
  v = .reading i b ∧ ∀ x, r = .ok x → x = b

theorem got_error (i : ℕ) (b : Bytes) (e : ε) : Got i b (.error e) (.reading i b) :=
  ⟨rfl, by simp⟩

/-- The induction is on the rounds left; `buf` is the first part of the file. -/
theorem safe_readToEnd (room : ℕ → ℕ) (fuel : ℕ) (hbuf : buf <+: b) :
    Safe jobs start plan t (Got i b) (Shared.readToEnd room fuel i buf) (.reading i b) := by
  induction fuel generalizing buf with
  | zero => exact got_error i b _
  | succ fuel ih =>
    unfold Shared.readToEnd
    refine Protocol.safe_bind _ (safe_attempt (safe_pread (room buf.length + 1)
      (Nat.succ_pos _) hbuf) fun r v' hr => ⟨r, rfl, hr⟩ : Safe jobs start plan t
        (fun r v' => ∃ r', r = .ok r' ∧ v' = .reading i b ∧ ∀ bytes, r' = .ok bytes →
          buf ++ bytes <+: b ∧ (bytes = [] → buf = b)) _ _) ?_ ?_
    · intro got v' h
      obtain ⟨r', hr', rfl, h⟩ := h
      cases hr'
      cases got with
      | ok bytes =>
        obtain ⟨hnext, hend⟩ := h bytes rfl
        dsimp only
        split
        · rename_i hnil
          exact ⟨rfl, fun x hx => by cases hx; exact hend hnil⟩
        · exact ih hnext
      | error e =>
        dsimp only
        split
        · exact ih hbuf
        · exact got_error i b _
    · intro x v' h
      obtain ⟨r', hr', -⟩ := h
      cases hr'

theorem safe_preadLoop (fuel alignedLen : ℕ) (hbuf : buf <+: b) :
    Safe jobs start plan t (fun r v' => v' = .reading i b ∧ ∀ x, r = .ok x →
      x <+: b ∧ (alignedLen ≤ x.length ∨ x = b))
      (Shared.preadLoop fuel i alignedLen buf) (.reading i b) := by
  induction fuel generalizing buf with
  | zero => exact ⟨rfl, by simp⟩
  | succ fuel ih =>
    unfold Shared.preadLoop
    split
    · rename_i hlt
      refine Protocol.safe_bind _ (safe_attempt (safe_pread (alignedLen - buf.length)
        (by omega) hbuf) fun r v' hr => ⟨r, rfl, hr⟩ : Safe jobs start plan t
          (fun r v' => ∃ r', r = .ok r' ∧ v' = .reading i b ∧ ∀ bytes, r' = .ok bytes →
            buf ++ bytes <+: b ∧ (bytes = [] → buf = b)) _ _) ?_ ?_
      · intro got v' h
        obtain ⟨r', hr', rfl, h⟩ := h
        cases hr'
        cases got with
        | ok bytes =>
          obtain ⟨hnext, hend⟩ := h bytes rfl
          dsimp only
          split
          · rename_i hnil
            exact ⟨rfl, fun x hx => by cases hx; exact ⟨hbuf, Or.inr (hend hnil)⟩⟩
          · exact ih hnext
        | error e =>
          dsimp only
          split
          · exact ih hbuf
          · exact ⟨rfl, by simp⟩
      · intro x v' h
        obtain ⟨r', hr', -⟩ := h
        cases hr'
    · rename_i hge
      exact ⟨rfl, fun x hx => by cases hx; exact ⟨hbuf, Or.inl (Nat.not_lt.mp hge)⟩⟩

theorem safe_ringReadAt (entries total : ℕ) (hbuf : buf <+: b) :
    Safe jobs start plan t (fun r v' => v' = .reading i b ∧ ∀ x, r = .ok x → x <+: b)
      (Shared.ringReadAt entries i total buf) (.reading i b) := by
  induction entries generalizing buf with
  | zero => exact ⟨rfl, fun x hx => by cases hx; exact hbuf⟩
  | succ entries ih =>
    unfold Shared.ringReadAt
    split
    · rename_i hlt
      dsimp only
      split
      · have hlen : 0 < min (total - buf.length) maxSqeLen := by
          have : 0 < maxSqeLen := by decide
          omega
        refine Protocol.safe_bind _ (safe_mapError _ (safe_pread _ hlen hbuf)
          (Q := fun r v' => v' = .reading i b ∧ ∀ bytes, r = .ok bytes → buf ++ bytes <+: b)
          ?_ ?_) ?_ ?_
        · intro bytes v' h
          exact ⟨h.1, fun x hx => by cases hx; exact (h.2 bytes rfl).1⟩
        · intro e v' h
          exact ⟨h.1, by simp⟩
        · intro bytes v' h
          obtain ⟨rfl, h⟩ := h
          split
          · exact ⟨rfl, fun x hx => by cases hx; exact hbuf⟩
          · exact ih (h bytes rfl)
        · intro x v' h
          exact ⟨h.1, by simp⟩
      · exact ⟨rfl, by simp⟩
    · exact ⟨rfl, fun x hx => by cases hx; exact hbuf⟩

/-! ### Direct reads -/

/-- A buffer is there only for an alignment that is a power of two. -/
theorem safe_alignedBufNew (size align : ℕ) :
    Safe jobs start plan t (fun r v' => v' = .reading i b ∧ (r = .ok () → align.isPowerOfTwo))
      (Shared.alignedBufNew size align) (.reading i b) := by
  unfold Shared.alignedBufNew
  split
  · exact ⟨rfl, by simp⟩
  · split
    · exact ⟨rfl, by simp⟩
    · rename_i hpow
      apply safe_mapError _ (safe_reading fun w => disk_look _ _ w)
      · intro u v' h
        exact ⟨h.1, fun _ => not_not.mp fun hn => hpow (Or.inl hn)⟩
      · intro e v' h
        exact ⟨h.1, by simp⟩

theorem safe_readAllDirect (env : Env) (ss : ℕ) :
    Safe jobs start plan t (Got i b) (Shared.readAllDirect env i b.length ss)
      (.reading i b) := by
  unfold Shared.readAllDirect
  split
  · rename_i hzero
    exact ⟨rfl, fun x hx => by cases hx; exact (List.eq_nil_of_length_eq_zero hzero).symm⟩
  · split
    · exact got_error i b _
    · refine Protocol.safe_bind _ (safe_alignedBufNew _ ss) ?_ fun _ _ h => ⟨h.1, by simp⟩
      intro u v' h
      obtain ⟨rfl, hpow⟩ := h
      refine Protocol.safe_bind _ (safe_preadLoop _ _ (List.nil_prefix)) ?_
        fun _ _ h => ⟨h.1, by simp⟩
      intro buf v' h
      obtain ⟨rfl, h⟩ := h
      obtain ⟨hbuf, hlen⟩ := h buf rfl
      have heq : buf = b := by
        rcases hlen with hlen | heq
        · apply isPrefix_eq hbuf
          obtain ⟨k, hk⟩ := hpow rfl
          rw [hk, roundUpLen, if_neg (Nat.two_pow_pos k).ne', roundUp_pow] at hlen
          exact Nat.le_trans (le_alignUp _ _ (Nat.two_pow_pos k)) hlen
        · exact heq
      refine ⟨rfl, ?_⟩
      intro x hx
      cases hx
      rw [heq, Nat.min_self, List.take_length]

theorem safe_iouringReadDirect (ss : ℕ) :
    Safe jobs start plan t (Got i b) (Shared.iouringReadDirect i b.length ss)
      (.reading i b) := by
  unfold Shared.iouringReadDirect
  split
  · rename_i hzero
    exact ⟨rfl, fun x hx => by cases hx; exact (List.eq_nil_of_length_eq_zero hzero).symm⟩
  · split
    · exact got_error i b _
    · refine Protocol.safe_bind _ (safe_alignedBufNew _ ss) ?_ fun _ _ h => ⟨h.1, by simp⟩
      intro u v' h
      obtain ⟨rfl, -⟩ := h
      refine Protocol.safe_bind _ (safe_ringReadAt _ _ (List.nil_prefix)) ?_
        fun _ _ h => ⟨h.1, by simp⟩
      intro buf v' h
      obtain ⟨rfl, h⟩ := h
      split
      · exact got_error i b _
      · rename_i hge
        refine ⟨rfl, ?_⟩
        intro x hx
        cases hx
        rw [isPrefix_eq (h buf rfl) (Nat.not_lt.mp hge), List.take_length]

/-- The ring, or `pread` when it gave up. -/
theorem safe_directRead (env : Env) (h : Handle) :
    Safe jobs start plan t (Got i b) (Shared.directRead env h i b.length) (.reading i b) := by
  unfold Shared.directRead
  split
  · refine Protocol.safe_bind (fun r v' => v' = .reading i b ∧ ∀ x, r = .ok (.ok x) → x = b)
      ?_ ?_ ?_
    · apply safe_tryErr (safe_iouringReadDirect h.sectorSize)
      · intro a v' hg
        exact ⟨hg.1, fun x hx => by cases hx; exact hg.2 _ rfl⟩
      · intro e v' hg
        exact ⟨hg.1, by simp⟩
      · intro x y v' hg
        exact ⟨hg.1, by simp⟩
    · intro got v' hg
      obtain ⟨rfl, hg⟩ := hg
      cases got with
      | ok buf => exact ⟨rfl, fun x hx => by cases hx; exact hg _ rfl⟩
      | error e => exact safe_readAllDirect env h.sectorSize
    · intro x v' hg
      exact ⟨hg.1, by simp⟩
  · exact safe_readAllDirect env h.sectorSize

/-! ### Mapped reads -/

theorem isPrefix_snoc {x : UInt8} (h : buf <+: b) (hx : b[buf.length]? = some x) :
    buf ++ [x] <+: b := by
  obtain ⟨rest, rfl⟩ := h
  rw [List.getElem?_append_right (Nat.le_refl _), Nat.sub_self] at hx
  cases rest with
  | nil => cases hx
  | cons y rest =>
    cases hx
    exact ⟨rest, by simp⟩

/-- The file does not shrink meanwhile, so the copy comes to its end. -/
theorem safe_copyMapped (left : ℕ) (hbuf : buf <+: b) (hlen : left + buf.length = b.length) :
    Safe jobs start plan t (Got i b) (Shared.copyMapped i left buf) (.reading i b) := by
  induction left generalizing buf with
  | zero => exact ⟨rfl, fun x hx => by cases hx; exact isPrefix_eq hbuf (by omega)⟩
  | succ left ih =>
    unfold Shared.copyMapped
    have hload : Safe jobs start plan t (fun r v' => v' = .reading i b ∧
        ∀ x, r = .ok x → x = b[buf.length]?) (Shared.sysCall fun _ => loadByte i buf.length)
        (.reading i b) := by
      apply safe_mapError _ (safe_reading fun w => rfl)
      · intro x v' h
        obtain ⟨hv, w, hw, hres⟩ := h
        refine ⟨hv, ?_⟩
        intro y hy
        cases hy
        cases hres
        rw [hw]
      · intro e v' h
        exact ⟨h.1, by simp⟩
    refine Protocol.safe_bind _ hload ?_ fun _ _ h => ⟨h.1, by simp⟩
    intro byte v' h
    obtain ⟨rfl, h⟩ := h
    cases hbyte : byte with
    | none => exact got_error i b _
    | some x =>
      have hx := (h byte rfl).symm.trans hbyte
      apply ih (isPrefix_snoc hbuf hx)
      simp only [List.length_append, List.length_cons, List.length_nil]
      omega

/-- The length of the open file. -/
theorem safe_length (call : Call PathBuf) (f : IoError → Exit Error) :
    Safe jobs start plan t (fun r v' => v' = .reading i b ∧ ∀ n, r = .ok n → n = b.length)
      ((Shared.io fun p => Io.look p call fun d _ => .ok (d.data i).length).mapError f)
      (.reading i b) := by
  apply safe_mapError _ (safe_reading fun w => disk_look _ _ w)
  · intro n v' h
    obtain ⟨hv, w, hw, hres⟩ := h
    refine ⟨hv, ?_⟩
    intro k hk
    cases hk
    obtain ⟨-, -, -, hans⟩ := Io.wp_look plan call (fun d _ => .ok (d.data i).length) w
    rcases hans with ⟨e, k, -, he⟩ | ⟨k, -, hk⟩
    · rw [hres] at he
      cases he
    · rw [hres] at hk
      cases hk
      rw [hw]
  · intro e v' h
    exact ⟨h.1, by simp⟩

/-- How a read ends: it has the file that it opened. -/
abbrev HasRead (plan : Plan PathBuf) : Except (Exit Error) Bytes → View → Prop :=
  Looked plan Answer.bytes

theorem Got.hasRead {r : Except (Exit Error) Bytes} {v : View} (h : Got i b r v) :
    HasRead plan r v := by
  obtain ⟨rfl, h⟩ := h
  cases r with
  | ok x =>
    rw [h x rfl]
    exact rfl
  | error e => exact Or.inr ⟨i, b, rfl⟩

theorem safe_mmapRead (env : Env) (hp : ¬ Hidden path)
    (hspec : ∀ m : Contents, (jobs t).spec m = (m path).map fun b => (.bytes b, m)) :
    Safe jobs start plan t (HasRead plan) (Shared.mmapRead env path) .idle := by
  unfold Shared.mmapRead
  refine Protocol.safe_bind _ (safe_mapError_okOr _ (safe_openCall hp hspec)) ?_
    fun _ _ h => Or.inl (Or.inl h)
  intro file v' h
  obtain ⟨b, rfl⟩ := h
  refine Protocol.safe_bind _ (safe_length _ _) ?_ fun _ _ h => Or.inr ⟨_, _, h.1⟩
  intro len v' h
  obtain ⟨rfl, -⟩ := h
  split
  · refine Protocol.safe_bind _ (safe_length _ _) ?_ fun _ _ h => Or.inr ⟨_, _, h.1⟩
    intro mapLen v' h
    obtain ⟨rfl, hlen⟩ := h
    rw [hlen mapLen rfl]
    exact Protocol.Safe.mono (safe_copyMapped _ List.nil_prefix rfl) fun _ _ h => h.hasRead
  · exact Or.inr ⟨_, _, rfl⟩

/-! ### The read of a handle -/

theorem safe_readOpened (env : Env) (h : Handle) (room : ℕ → ℕ) (hp : ¬ Hidden path)
    (hspec : ∀ m : Contents, (jobs t).spec m = (m path).map fun b => (.bytes b, m)) :
    Safe jobs start plan t (HasRead plan) (Shared.readOpened env h room path) .idle := by
  unfold Shared.readOpened
  refine Protocol.safe_bind _ (safe_openRead hp h.useDirect hspec) ?_
    fun _ _ h => Or.inl (Or.inl h)
  intro x v' hv
  obtain ⟨file, directOk⟩ := x
  obtain ⟨b, rfl⟩ := hv
  dsimp only
  split
  · refine Protocol.safe_bind _ (safe_length _ _) ?_ fun _ _ h => Or.inr ⟨_, _, h.1⟩
    intro size v' hv
    obtain ⟨rfl, hlen⟩ := hv
    rw [hlen size rfl]
    exact Protocol.Safe.mono (safe_directRead env h) fun _ _ h => h.hasRead
  · exact Protocol.Safe.mono (safe_readToEnd room env.fuel List.nil_prefix)
      fun _ _ h => h.hasRead

theorem safe_read (env : Env) (h : Handle) (room : ℕ → ℕ) (hp : ¬ Hidden path)
    (hspec : ∀ m : Contents, (jobs t).spec m = (m path).map fun b => (.bytes b, m)) :
    Safe jobs start plan t (HasRead plan) (Shared.read env h room path) .idle := by
  unfold Shared.read
  split
  · refine Protocol.safe_bind (fun r v' => (∃ x, r = .ok x) ∧ v' = .idle) ?_ ?_ ?_
    · apply safe_attempt (safe_look (c := fun p => metadataLen p path) fun w => disk_look _ _ w)
      intro r v' hv
      exact ⟨⟨r, rfl⟩, hv⟩
    · intro found v' hv
      rw [hv.2]
      cases found with
      | ok len =>
        dsimp only
        split
        · exact safe_mmapRead env hp hspec
        · exact safe_readOpened env _ room hp hspec
      | error e => exact safe_readOpened env _ room hp hspec
    · intro x v' hv
      obtain ⟨⟨y, hy⟩, -⟩ := hv
      cases hy
  · exact safe_readOpened env h room hp hspec

end

end Fsys.Crud
