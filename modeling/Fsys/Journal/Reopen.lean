import Fsys.Journal.Handle
import Fsys.Journal.Resume

/-!
# Opening a journal (src/journal/mod.rs:375-590)

Whatever the mode, an open that returns leaves the journal up to its clean end,
in Direct mode followed by zeros, and a log buffer primed for that point. Closed
again at once the journal stays as it is, so that the next open resumes at the
end of the last frame.
-/

namespace Fsys.Journal
open Fsys.Base

variable {crc : Crc} {plan : Plan PathBuf} {path : PathBuf}

/-- The journal file is number `i` and holds `bytes`. -/
structure Stands (w : World PathBuf) (path : PathBuf) (i : ℕ) (bytes : Bytes) : Prop where
  names : w.disk.names path = some i
  data : w.disk.data i = bytes

theorem Stands.of_disk {w w' : World PathBuf} {i : ℕ} {bytes : Bytes} (h : Stands w path i bytes)
    (hd : w'.disk = w.disk) : Stands w' path i bytes :=
  ⟨by rw [hd, h.names], by rw [hd, h.data]⟩

theorem Stands.setLen {w w' : World PathBuf} {i n : ℕ} {bytes : Bytes}
    (h : Stands w path i bytes) (hs : Io.setLen plan i n w = (.ok (), w')) :
    Stands w' path i (bytes.take n ++ zeros (n - bytes.length)) := by
  have hd := Io.setLen_ok hs
  refine ⟨by rw [hd]; exact h.names, ?_⟩
  rw [hd, Disk.data_setData, h.data]

theorem Stands.fence {w w' : World PathBuf} {i : ℕ} {bytes : Bytes} (h : Stands w path i bytes)
    (hs : Io.fence plan i w = (.ok (), w')) : Stands w' path i bytes := by
  have hd := Io.fence_ok hs
  exact ⟨by rw [hd]; exact h.names, by rw [hd]; exact h.data⟩

/-! ### Cutting the tail -/

theorem prepareResume_ok {w w' : World PathBuf} {i : ℕ} {file : Bytes} {res : Resume}
    (h : Stands w path i file) (hr : prepareResume crc plan path w = (.ok res, w')) :
    Stands w' path i file ∧ res.cleanEnd = cleanEndOf crc file ∧
      (res.tailHasData = false → ∀ b ∈ file.drop (cleanEndOf crc file), b = 0) := by
  have hspec := (prepareResume_spec crc plan w h.names).run hr
  rw [h.data] at hspec
  have htail : tailOf w.disk (cleanEndOf crc file) i = file.drop (cleanEndOf crc file) := by
    unfold tailOf
    rw [h.data]
  rw [htail] at hspec
  have hkeeps := hspec.kept.keeps
  refine ⟨⟨?_, ?_⟩, hspec.resumes res rfl, fun hno => ?_⟩
  · rw [hkeeps.names path id (by rw [h.names]; exact nofun), h.names]
  · rw [hkeeps.data i (w.disk.fresh _ _ h.names), h.data]
  · refine (not_hasData_iff _).mp fun hdata => ?_
    obtain ⟨q, k, hq, -⟩ := hspec.kept.copied res.tail rfl hdata
    unfold Resume.tailHasData at hno
    rw [hq] at hno
    cases hno

/-- A tail without data is zeros. -/
theorem eq_take_append_zeros (file : Bytes) (c : ℕ) (hz : ∀ b ∈ file.drop c, b = 0) :
    file = file.take c ++ zeros (file.length - c) := by
  have h := eq_zeros_of_forall _ hz
  rw [List.length_drop] at h
  rw [← h, List.take_append_drop]

theorem take_of_zero_tail (file : Bytes) (c n : ℕ) (hc : c ≤ file.length) (hn : c ≤ n)
    (hz : ∀ b ∈ file.drop c, b = 0) :
    ∃ k, file.take n = file.take c ++ zeros k := by
  refine ⟨min (n - c) (file.length - c), ?_⟩
  conv_lhs => rw [eq_take_append_zeros file c hz]
  rw [List.take_append, List.take_take, Nat.min_eq_right hn, take_zeros,
    List.length_take_of_le hc]

theorem cutDirect_ok {w w' : World PathBuf} {i sectorSize : ℕ} {file : Bytes} {resume : Resume}
    (h : Stands w path i file) (hres : resume.cleanEnd = cleanEndOf crc file)
    (hz : resume.tailHasData = false → ∀ b ∈ file.drop (cleanEndOf crc file), b = 0)
    (hss : 0 < sectorSize)
    (hc : cutDirect plan i sectorSize file.length resume w = (.ok (), w')) :
    ∃ k, Stands w' path i (file.take (cleanEndOf crc file) ++ zeros k) := by
  have hle := cleanEndOf_le crc file
  have hlen := length_take_cleanEnd crc file
  unfold cutDirect at hc
  rw [hres] at hc
  have hmod := Nat.mod_lt (cleanEndOf crc file) hss
  have hkeep : cleanEndOf crc file ≤
      (if cleanEndOf crc file > cleanEndOf crc file - cleanEndOf crc file % sectorSize then
        cleanEndOf crc file - cleanEndOf crc file % sectorSize + sectorSize
      else cleanEndOf crc file - cleanEndOf crc file % sectorSize) := by
    split
    · omega
    · omega
  generalize (if cleanEndOf crc file > cleanEndOf crc file - cleanEndOf crc file % sectorSize then
      cleanEndOf crc file - cleanEndOf crc file % sectorSize + sectorSize
    else cleanEndOf crc file - cleanEndOf crc file % sectorSize) = keep at hc hkeep
  cases hdata : resume.tailHasData with
  | true =>
    rw [hdata, if_pos rfl] at hc
    obtain ⟨⟨⟩, w1, hset, hc⟩ := Prog.bind_ok hc
    have h1 := h.setLen hset
    rw [Nat.sub_eq_zero_of_le hle, zeros_zero, List.append_nil] at h1
    split at hc
    · obtain ⟨⟨⟩, w2, hset, hc⟩ := Prog.bind_ok hc
      have h2 := (h1.setLen hset).fence hc
      rw [List.take_of_length_le (by omega)] at h2
      exact ⟨_, h2⟩
    · refine ⟨0, ?_⟩
      rw [zeros_zero, List.append_nil]
      exact h1.fence hc
  | false =>
    rw [hdata, if_neg (by decide)] at hc
    split at hc
    · rename_i hlong
      obtain ⟨⟨⟩, w1, hset, hc⟩ := Prog.bind_ok hc
      have h1 := (h.setLen hset).fence hc
      rw [Nat.sub_eq_zero_of_le (by omega), zeros_zero, List.append_nil] at h1
      obtain ⟨k, hk⟩ := take_of_zero_tail file _ keep hle hkeep (hz hdata)
      rw [hk] at h1
      exact ⟨k, h1⟩
    · obtain ⟨-, rfl⟩ := Prog.pure_ok hc
      refine ⟨file.length - cleanEndOf crc file, ?_⟩
      rw [← eq_take_append_zeros file _ (hz hdata)]
      exact h

/-! ### Opening -/

/-- What an open of a journal with this content leaves. -/
structure Opened (crc : Crc) (file : Bytes) (path : PathBuf) (w : World PathBuf)
    (h : JournalHandle) : Prop where
  resumed : h = .resumed h.file (cleanEndOf crc file) h.logBuffer
  stands : ∃ k, Stands w path h.file (file.take (cleanEndOf crc file) ++ zeros k) ∧
    (h.logBuffer = none → k = 0)
  buffer : ∀ lb, h.logBuffer = some lb →
    resumeState lb.geo (file.take (cleanEndOf crc file)) = .ok lb.state

theorem resumeState_nil (geo : Geometry) : resumeState geo [] = .ok (LogState.new geo 0) := by
  have hcond : ¬ ((([] : Bytes).length - ([] : Bytes).length % geo.sectorSize) % geo.sectorSize ≠ 0 ∨
      (([] : Bytes).drop (([] : Bytes).length - ([] : Bytes).length % geo.sectorSize)).length ≥
        geo.sectorSize) := by
    have := geo.sector_pos
    simp
    omega
  unfold resumeState
  dsimp only
  unfold LogState.setFlushPosForResume
  rw [if_neg hcond]
  simp [LogState.setSlot, LogState.active, LogState.new, overlay_nil]

theorem Stands.take_all {w : World PathBuf} {i : ℕ} {file : Bytes} (h : Stands w path i file)
    (n : ℕ) (hn : file.length ≤ n) : Stands w path i (file.take n ++ zeros 0) := by
  rw [List.take_of_length_le hn, zeros_zero, List.append_nil]
  exact h

/-- The buffered cut: at the clean end, if there is anything behind it. -/
theorem cutBuffered_ok {w w' : World PathBuf} {i : ℕ} {file : Bytes} {h : JournalHandle}
    (hs : Stands w path i file)
    (hc : (if cleanEndOf crc file < file.length then do
        Io.setLen plan i (cleanEndOf crc file)
        Io.fence plan i
        pure (.resumed i (cleanEndOf crc file) none)
      else pure (.resumed i (cleanEndOf crc file) none) : JournalIo JournalHandle) w =
      (.ok h, w')) : Opened crc file path w' h := by
  have hle := cleanEndOf_le crc file
  have hopened : ∀ w', Stands w' path i (file.take (cleanEndOf crc file) ++ zeros 0) →
      Opened crc file path w' (.resumed i (cleanEndOf crc file) none) :=
    fun w' hs' => ⟨rfl, ⟨0, hs', fun _ => rfl⟩, nofun⟩
  split at hc
  · obtain ⟨⟨⟩, w1, hset, hc⟩ := Prog.bind_ok hc
    obtain ⟨⟨⟩, w2, hfence, hc⟩ := Prog.bind_ok hc
    obtain ⟨rfl, rfl⟩ := Prog.pure_ok hc
    have h2 := (hs.setLen hset).fence hfence
    rw [Nat.sub_eq_zero_of_le hle] at h2
    exact hopened _ h2
  · obtain ⟨rfl, rfl⟩ := Prog.pure_ok hc
    exact hopened _ (hs.take_all _ (by omega))

/-- The journal's content before an open, nothing if it is not there. -/
def contentOf (w : World PathBuf) (path : PathBuf) : Bytes := (w.disk.content path).getD []

theorem Stands.content {w : World PathBuf} {i : ℕ} {file : Bytes} (h : Stands w path i file) :
    contentOf w path = file := by
  unfold contentOf Disk.content
  rw [h.names, ← h.data]
  rfl

theorem openBuffered_ok {w w' : World PathBuf} {h : JournalHandle}
    (ho : openBuffered crc plan path w = (.ok h, w')) :
    Opened crc (contentOf w path) path w' h := by
  obtain ⟨i, w1, hopen, ho⟩ := Prog.bind_ok ho
  obtain ⟨hnames, hdata⟩ := Io.openCreate_ok hopen
  have h1 : Stands w1 path i (contentOf w path) := ⟨hnames, hdata⟩
  generalize contentOf w path = file at h1
  obtain ⟨fileLen, w2, hlen, ho⟩ := Prog.bind_ok ho
  obtain ⟨hd, rfl⟩ := Io.len_ok hlen
  have h2 := h1.of_disk hd
  rw [h1.data] at ho
  obtain ⟨resume, w3, hres, ho⟩ := Prog.bind_ok ho
  have h3 : Stands w3 path i file ∧ resume.cleanEnd = cleanEndOf crc file := by
    unfold resumePoint at hres
    split at hres
    · rename_i hempty
      obtain ⟨rfl, rfl⟩ := Prog.pure_ok hres
      have hnil : file = [] := List.eq_nil_of_length_eq_zero (of_decide_eq_true hempty)
      refine ⟨h2, ?_⟩
      rw [hnil, cleanEndOf_nil]
      rfl
    · obtain ⟨hs, hend, -⟩ := prepareResume_ok h2 hres
      exact ⟨hs, hend⟩
  rw [h3.2] at ho
  exact cutBuffered_ok h3.1 ho

theorem readResumePrefix_ok {w w' : World PathBuf} {i sector lsn : ℕ} {bytes pre : Bytes}
    (h : Stands w path i bytes) (hr : readResumePrefix plan path sector lsn w = (.ok pre, w')) :
    Stands w' path i bytes ∧ pre = (bytes.drop sector).take (lsn - sector) := by
  unfold readResumePrefix at hr
  split at hr
  · rename_i hzero
    obtain ⟨rfl, rfl⟩ := Prog.pure_ok hr
    rw [hzero, List.take_zero]
    exact ⟨h, rfl⟩
  · obtain ⟨j, w1, hopen, hr⟩ := Prog.bind_ok hr
    obtain ⟨hd, hj⟩ := Io.openRead_ok hopen
    rw [h.names] at hj
    cases hj
    have h1 := h.of_disk hd
    obtain ⟨hd', -, rfl⟩ := Io.readExact_ok hr
    rw [h1.data]
    exact ⟨h1.of_disk hd', rfl⟩

theorem resumeBuffer_ok {w w' : World PathBuf} {i : ℕ} {geo : Geometry} {file : Bytes}
    {resume : Resume} {lb : LogBuffer} (h : Stands w path i file)
    (hres : resume.cleanEnd = cleanEndOf crc file)
    (hz : resume.tailHasData = false → ∀ b ∈ file.drop (cleanEndOf crc file), b = 0)
    (hr : resumeBuffer plan geo path i file.length resume w = (.ok lb, w')) :
    (∃ k, Stands w' path i (file.take (cleanEndOf crc file) ++ zeros k)) ∧
      resumeState lb.geo (file.take (cleanEndOf crc file)) = .ok lb.state := by
  have hlen := length_take_cleanEnd crc file
  obtain ⟨⟨⟩, w1, halloc, hr⟩ := Prog.bind_ok hr
  have h1 := h.of_disk (Io.alloc_disk halloc)
  obtain ⟨⟨⟩, w2, hcut, hr⟩ := Prog.bind_ok hr
  obtain ⟨k, h2⟩ := cutDirect_ok h1 hres hz geo.sector_pos hcut
  rw [hres] at hr
  split at hr
  · obtain ⟨pre, w3, hpre, hr⟩ := Prog.bind_ok hr
    obtain ⟨h3, rfl⟩ := readResumePrefix_ok h2 hpre
    obtain ⟨state, hstate, hr⟩ := Prog.lift_bind_ok hr
    obtain ⟨rfl, rfl⟩ := Prog.pure_ok hr
    refine ⟨⟨k, h3⟩, ?_⟩
    -- the sector in front of the clean end, read back from the cut file
    have hsector : ((file.take (cleanEndOf crc file) ++ zeros k).drop
          (cleanEndOf crc file - cleanEndOf crc file % geo.sectorSize)).take
          (cleanEndOf crc file - (cleanEndOf crc file - cleanEndOf crc file % geo.sectorSize)) =
        (file.take (cleanEndOf crc file)).drop
          (cleanEndOf crc file - cleanEndOf crc file % geo.sectorSize) := by
      rw [List.drop_append_of_le_length (by omega)]
      exact List.take_left' (by rw [List.length_drop, hlen])
    rw [hsector] at hstate
    unfold resumeState
    rw [hlen]
    exact hstate
  · rename_i hzero
    obtain ⟨rfl, rfl⟩ := Prog.pure_ok hr
    refine ⟨⟨k, h2⟩, ?_⟩
    have hnil : file.take (cleanEndOf crc file) = [] :=
      List.eq_nil_of_length_eq_zero (by omega)
    rw [hnil]
    exact resumeState_nil geo

theorem pathExists_ok {w w' : World PathBuf} {there : Bool}
    (h : pathExists plan path w = (.ok there, w')) :
    w'.disk = w.disk ∧
      ((∃ n, plan (.stat path) w.clock = .ok n) → there = (w.disk.names path).isSome) ∧
      ((∃ e n, plan (.stat path) w.clock = .fail e n) → there = false) := by
  unfold pathExists at h
  rw [Prog.attempt_bind_run] at h
  unfold Io.look at h
  cases hp : plan (.stat path) w.clock with
  | fail e n =>
    rw [hp] at h
    cases h
    exact ⟨rfl, by simp, fun _ => rfl⟩
  | ok n =>
    rw [hp] at h
    cases h
    refine ⟨rfl, fun _ => ?_, by simp⟩
    cases hname : w.disk.names path with
    | none => simp [Io.fileOf, hname, Except.isOk, Except.toBool]
    | some i => simp [Io.fileOf, hname, Except.isOk, Except.toBool]

/-- What an open makes of a journal that it took to be new: an empty one. -/
theorem resumeBuffer_blind {w w' : World PathBuf} {i : ℕ} {geo : Geometry} {file : Bytes}
    {lb : LogBuffer} (h : Stands w path i file)
    (hr : resumeBuffer plan geo path i file.length Resume.empty w = (.ok lb, w')) :
    Stands w' path i [] ∧ resumeState lb.geo [] = .ok lb.state := by
  obtain ⟨⟨⟩, w1, halloc, hr⟩ := Prog.bind_ok hr
  have h1 := h.of_disk (Io.alloc_disk halloc)
  obtain ⟨⟨⟩, w2, hcut, hr⟩ := Prog.bind_ok hr
  have h2 : Stands w2 path i [] := by
    unfold cutDirect at hcut
    simp only [Resume.empty, Resume.tailHasData, Nat.zero_mod, Nat.sub_zero, gt_iff_lt,
      Nat.lt_irrefl, if_false, Bool.false_eq_true, reduceIte] at hcut
    split at hcut
    · obtain ⟨⟨⟩, w3, hset, hcut⟩ := Prog.bind_ok hcut
      have h3 := (h1.setLen hset).fence hcut
      rw [Nat.zero_sub, zeros_zero, List.append_nil, List.take_zero] at h3
      exact h3
    · rename_i hshort
      obtain ⟨-, rfl⟩ := Prog.pure_ok hcut
      rw [List.eq_nil_of_length_eq_zero (by omega : file.length = 0)] at h1
      exact h1
  rw [if_neg (by simp [Resume.empty])] at hr
  obtain ⟨rfl, rfl⟩ := Prog.pure_ok hr
  exact ⟨h2, resumeState_nil geo⟩

/-- The stat in front of a Direct open fails. -/
def Blind (options : JournalOptions) (stat : Reply) : Prop :=
  options.direct = true ∧ ∃ e n, stat = .fail e n

theorem opened_nil {w : World PathBuf} {i : ℕ} {buf : Option LogBuffer}
    (hs : Stands w path i [])
    (hbuf : ∀ lb, buf = some lb → resumeState lb.geo [] = .ok lb.state) :
    Opened crc [] path w (.resumed i 0 buf) := by
  refine ⟨?_, ⟨0, ?_, fun _ => rfl⟩, ?_⟩
  · rw [cleanEndOf_nil]
    rfl
  · exact hs
  · intro lb hlb
    rw [List.take_nil]
    exact hbuf lb hlb

/-- A journal that cannot be looked at is taken to be new, and cut to nothing. -/
theorem openDirect_blind {w w' : World PathBuf} {h : JournalHandle} {dev : Device}
    {options : JournalOptions} (hstat : ∃ e n, plan (.stat path) w.clock = .fail e n)
    (ho : openDirect crc plan dev options path w = (.ok h, w')) : Opened crc [] path w' h := by
  obtain ⟨there, w0, hthere, ho⟩ := Prog.bind_ok ho
  obtain ⟨-, -, hno⟩ := pathExists_ok hthere
  rw [hno hstat] at ho
  have hrest : (Io.openCreate plan path >>= fun file => do
      let fileLen ← Io.len plan file
      if dev.directActive then do
        let buf ← resumeBuffer plan (dev.geometry options.logBufferKib) path file fileLen
          Resume.empty
        pure (.resumed file 0 (some buf))
      else if fileLen > 0 then do
        Io.setLen plan file 0
        Io.fence plan file
        pure (.resumed file 0 none)
      else pure (.resumed file 0 none) : JournalIo JournalHandle) w0 = (.ok h, w') := ho
  clear ho
  obtain ⟨i, w2, hopen, ho⟩ := Prog.bind_ok hrest
  obtain ⟨hnames, -⟩ := Io.openCreate_ok hopen
  have h2 : Stands w2 path i (w2.disk.data i) := ⟨hnames, rfl⟩
  generalize w2.disk.data i = file at h2
  obtain ⟨fileLen, w3, hlen, ho⟩ := Prog.bind_ok ho
  obtain ⟨hd, rfl⟩ := Io.len_ok hlen
  have h3 := h2.of_disk hd
  rw [h2.data] at ho
  split at ho
  · obtain ⟨lb, w4, hbuf, ho⟩ := Prog.bind_ok ho
    obtain ⟨rfl, rfl⟩ := Prog.pure_ok ho
    obtain ⟨h4, hstate⟩ := resumeBuffer_blind h3 hbuf
    exact opened_nil h4 fun _ hlb => by cases hlb; exact hstate
  · split at ho
    · obtain ⟨⟨⟩, w4, hset, ho⟩ := Prog.bind_ok ho
      obtain ⟨⟨⟩, w5, hfence, ho⟩ := Prog.bind_ok ho
      obtain ⟨rfl, rfl⟩ := Prog.pure_ok ho
      have h5 := (h3.setLen hset).fence hfence
      rw [Nat.zero_sub, zeros_zero, List.append_nil, List.take_zero] at h5
      exact opened_nil h5 (by simp)
    · rename_i hshort
      obtain ⟨rfl, rfl⟩ := Prog.pure_ok ho
      have hzero : file.length = 0 := Nat.le_zero.mp (Nat.not_lt.mp hshort)
      rw [List.eq_nil_of_length_eq_zero hzero] at h3
      exact opened_nil h3 (by simp)

theorem contentOf_of_disk {w w' : World PathBuf} (hd : w'.disk = w.disk) :
    contentOf w' path = contentOf w path := by
  unfold contentOf
  rw [hd]

theorem openDirect_ok {w w' : World PathBuf} {h : JournalHandle} {dev : Device}
    {options : JournalOptions} (hstat : ∃ n, plan (.stat path) w.clock = .ok n)
    (ho : openDirect crc plan dev options path w = (.ok h, w')) :
    Opened crc (contentOf w path) path w' h := by
  obtain ⟨there, w0, hthere, ho⟩ := Prog.bind_ok ho
  obtain ⟨hd0, hyes, -⟩ := pathExists_ok hthere
  rw [hyes hstat, ← hd0] at ho
  rw [← contentOf_of_disk hd0]
  clear hthere hyes hd0
  obtain ⟨resume, w1, hres, ho⟩ := Prog.bind_ok ho
  obtain ⟨i, w2, hopen, ho⟩ := Prog.bind_ok ho
  obtain ⟨hnames, hdata⟩ := Io.openCreate_ok hopen
  -- the scan has seen what the open finds
  have hscan : contentOf w1 path = contentOf w0 path ∧
      resume.cleanEnd = cleanEndOf crc (contentOf w0 path) ∧
      (resume.tailHasData = false →
        ∀ b ∈ (contentOf w0 path).drop (cleanEndOf crc (contentOf w0 path)), b = 0) := by
    cases hp : w0.disk.names path with
    | some j =>
      unfold resumePoint at hres
      rw [hp] at hres
      have hw : Stands w0 path j (w0.disk.data j) := ⟨hp, rfl⟩
      obtain ⟨h1, hend, hz⟩ := prepareResume_ok hw hres
      rw [hw.content, h1.content]
      exact ⟨rfl, hend, hz⟩
    | none =>
      unfold resumePoint at hres
      rw [hp] at hres
      obtain ⟨rfl, rfl⟩ := Prog.pure_ok hres
      have hnil : contentOf w1 path = [] := by
        unfold contentOf Disk.content
        rw [hp]
        rfl
      rw [hnil, cleanEndOf_nil]
      exact ⟨rfl, rfl, nofun⟩
  obtain ⟨hsame, hend, hz⟩ := hscan
  have h2 : Stands w2 path i (contentOf w0 path) := ⟨hnames, hdata.trans hsame⟩
  generalize contentOf w0 path = file at h2 hend hz
  obtain ⟨fileLen, w3, hlen, ho⟩ := Prog.bind_ok ho
  obtain ⟨hd, rfl⟩ := Io.len_ok hlen
  have h3 := h2.of_disk hd
  rw [h2.data] at ho
  split at ho
  · obtain ⟨lb, w4, hbuf, ho⟩ := Prog.bind_ok ho
    obtain ⟨rfl, rfl⟩ := Prog.pure_ok ho
    obtain ⟨⟨k, h4⟩, hstate⟩ := resumeBuffer_ok h3 hend hz hbuf
    rw [hend]
    exact ⟨rfl, ⟨k, h4, nofun⟩, fun _ hlb => by cases hlb; exact hstate⟩
  · rw [hend] at ho
    exact cutBuffered_ok h3 ho

/-- An open that is not blind resumes the journal that is there. -/
theorem openWithOptions_ok {w w' : World PathBuf} {h : JournalHandle} {dev : Device}
    {options : JournalOptions} (hstat : ¬ Blind options (plan (.stat path) w.clock))
    (ho : openWithOptions crc plan dev options path w = (.ok h, w')) :
    Opened crc (contentOf w path) path w' h := by
  unfold openWithOptions at ho
  split at ho
  · rename_i hdirect
    refine openDirect_ok ?_ ho
    cases hp : plan (.stat path) w.clock with
    | ok n => exact ⟨n, rfl⟩
    | fail e n => exact absurd ⟨hdirect, e, n, hp⟩ hstat
  · exact openBuffered_ok ho

theorem openWithOptions_blind {w w' : World PathBuf} {h : JournalHandle} {dev : Device}
    {options : JournalOptions} (hstat : Blind options (plan (.stat path) w.clock))
    (ho : openWithOptions crc plan dev options path w = (.ok h, w')) :
    Opened crc [] path w' h := by
  obtain ⟨hdirect, hfail⟩ := hstat
  unfold openWithOptions at ho
  rw [if_pos hdirect] at ho
  exact openDirect_blind hfail ho

/-! ### Closing at once -/

/-- The log buffer stands where the handle does. -/
theorem Opened.nextLsn_buffer {file : Bytes} {w : World PathBuf} {h : JournalHandle}
    (ho : Opened crc file path w h) (lb : LogBuffer) (hlb : h.logBuffer = some lb) :
    lb.state.nextLsn = cleanEndOf crc file := by
  obtain ⟨b, hb, hok, -, -⟩ := resumeState_spec lb.geo (file.take (cleanEndOf crc file))
  rw [ho.buffer lb hlb] at hb
  cases hb
  rw [← hok.len_eq, length_take_cleanEnd]

/-- Below the synced frontier a sync makes no call. -/
theorem syncThrough_synced {lsn : ℕ} {w : World PathBuf} {h : JournalHandle}
    (hle : lsn ≤ h.syncedLsn) : syncThrough plan lsn (w, h) = (.ok (), (w, h)) := by
  show (if h.syncedLsn ≥ lsn then _ else _ : HandleIo Unit) (w, h) = _
  rw [if_pos hle]
  rfl

/-- Nothing was appended, so that `close` finds its frontier synced. -/
theorem Opened.close {file : Bytes} {w : World PathBuf} {h : JournalHandle}
    (ho : Opened crc file path w h) :
    close plan (w, h) = (.ok (), (w, { h with closed := true })) := by
  have hfrontier : h.frontier = h.syncedLsn := by
    unfold JournalHandle.frontier
    cases hlb : h.logBuffer with
    | none =>
      rw [ho.resumed]
      rfl
    | some lb =>
      dsimp only
      rw [ho.nextLsn_buffer lb hlb, ho.resumed]
      rfl
  have hsync : syncThrough plan h.syncedLsn (w, h) = (.ok (), (w, h)) :=
    syncThrough_synced (Nat.le_refl _)
  unfold Fsys.Journal.close
  have hhandle : handle (w, h) = (.ok h, (w, h)) := rfl
  rw [Prog.bind_run hhandle, Prog.attempt_bind_run, hfrontier, hsync]
  show (if h.poison.isSome ∨ true = true then _ else _ : HandleIo Unit)
    (w, { h with closed := true }) = _
  rw [if_pos (Or.inr rfl)]
  rfl

/-- Opened again, the journal resumes at the end of its last frame. -/
theorem Opened.reopened {file : Bytes} {w w' : World PathBuf} {h h' : JournalHandle}
    (ho : Opened crc file path w h) (ho' : Opened crc (contentOf w path) path w' h') :
    h'.nextLsn = endOf 0 (recordsOf crc file) := by
  obtain ⟨k, hs, -⟩ := ho.stands
  rw [ho'.resumed, hs.content]
  exact cleanEndOf_take crc file k

/-- What a reopen relies on, for a journal with this content: the clean end is the end of
the last record of a replay, a replay up to there yields the same and ends there, and an
open behind an open without appends resumes at the same LSN, if neither is blind. -/
def ResumesCleanly (crc : Crc) (file : Bytes) : Prop :=
  (∀ (plan : Plan PathBuf) (path : PathBuf) (w w' : World PathBuf) (i : ℕ) (res : Resume),
    Stands w path i file → prepareResume crc plan path w = (.ok res, w') →
    ∀ extra extra' : ℕ → ℕ, ∃ records reader reader',
      replay crc (shortReads extra) (JournalReader.open file) = some (.ok records, reader) ∧
      res.cleanEnd = endOf 0 records ∧
      replay crc (shortReads extra') (JournalReader.open (file.take res.cleanEnd)) =
        some (.ok records, reader') ∧
      reader'.position = res.cleanEnd) ∧
  ∀ (plan plan' : Plan PathBuf) (dev dev' : Device) (options options' : JournalOptions)
    (path : PathBuf) (w w1 w2 : World PathBuf) (h h' : JournalHandle)
    (closed : World PathBuf × JournalHandle),
    contentOf w path = file → ¬ Blind options (plan (.stat path) w.clock) →
    openWithOptions crc plan dev options path w = (.ok h, w1) →
    close plan (w1, h) = (.ok (), closed) →
    ¬ Blind options' (plan' (.stat path) closed.1.clock) →
    openWithOptions crc plan' dev' options' path closed.1 = (.ok h', w2) →
    h'.nextLsn = h.nextLsn

/-- A directory with one journal in it. -/
def soloDisk (file : Bytes) : Disk PathBuf where
  names p := if p = oddJournal then some 0 else none
  data _ := file
  fenced _ := true
  next := 1
  fresh p i h := by
    split at h
    · cases h
      exact Nat.one_pos
    · cases h

theorem stands_solo (file : Bytes) : Stands ⟨soloDisk file, 0, []⟩ oddJournal 0 file := by
  refine ⟨?_, rfl⟩
  show (if oddJournal = oddJournal then some 0 else none) = some 0
  rw [if_pos rfl]

/-- There a resume returns. -/
theorem prepareResume_solo (crc : Crc) (file : Bytes) :
    ∃ res w', prepareResume crc calm oddJournal ⟨soloDisk file, 0, []⟩ = (.ok res, w') := by
  have hspec := prepareResume_spec crc calm ⟨soloDisk file, 0, []⟩ (stands_solo file).names
  have hroom : ∀ c tail, HasRoom oddJournal c 0 tail (soloDisk file) := by
    intro c tail
    refine ⟨0, _, Nat.le_refl _, by decide, rfl, fun m hm => ?_⟩
    have hne := @sidecarPath_ne oddJournal c 0 _ rfl
    simp only [soloDisk, if_neg hne] at hm
    cases hm
  obtain ⟨t, ht⟩ := hspec.kept.returns works_calm fun _ => hroom _ _
  cases hr : prepareResume crc calm oddJournal ⟨soloDisk file, 0, []⟩ with
  | mk r w' =>
    cases r with
    | ok res => exact ⟨res, w', rfl⟩
    | error e =>
      rw [hr] at ht
      cases ht

/-- A replay of the whole file, or of the file up to its clean end. -/
theorem replay_open (crc : Crc) (file : Bytes) (extra : ℕ → ℕ) :
    ∃ reader, replay crc (shortReads extra) (JournalReader.open file) =
        some (.ok (recordsOf crc file), reader) ∧ reader.position = cleanEndOf crc file := by
  obtain ⟨reader, hr, -, hpos⟩ := replay_eq_plainScan crc file 0 extra
  rw [JournalReader.seekTo_zero] at hr
  exact ⟨reader, hr, hpos⟩

theorem not_gap_of_resumesCleanly (file : Bytes) (h : ResumesCleanly crc file) :
    ¬ GapBeforeJunk crc file := by
  obtain ⟨res, w', hres⟩ := prepareResume_solo crc file
  have hs := stands_solo file
  obtain ⟨records, reader, -, hr, hend, -, -⟩ :=
    h.1 calm oddJournal _ w' 0 res hs hres (fun _ => 0) (fun _ => 0)
  obtain ⟨reader', hr', -⟩ := replay_open crc file fun _ => 0
  rw [hr'] at hr
  cases hr
  rw [(prepareResume_ok hs hres).2.1] at hend
  exact (cleanEndOf_eq_iff crc file).mp hend

/-- A journal resumes cleanly exactly when no skipped gap is followed by something that is
no frame: there the scan reports the end of the gap instead of the end of the last frame. -/
theorem resumes_cleanly_iff (crc : Crc) (file : Bytes) :
    ResumesCleanly crc file ↔ ¬ GapBeforeJunk crc file := by
  refine ⟨not_gap_of_resumesCleanly file, fun hno => ?_⟩
  have hend := (cleanEndOf_eq_iff crc file).mpr hno
  have hcut := cleanEndOf_take crc file 0
  have hrecords := recordsOf_take crc file 0
  rw [zeros_zero, List.append_nil] at hcut hrecords
  constructor
  · intro plan path w w' i res hs hres extra extra'
    rw [(prepareResume_ok hs hres).2.1]
    obtain ⟨reader, hr, -⟩ := replay_open crc file extra
    obtain ⟨reader', hr', hpos⟩ :=
      replay_open crc (file.take (cleanEndOf crc file)) extra'
    refine ⟨recordsOf crc file, reader, reader', hr, hend, ?_, ?_⟩
    · rw [hr', hrecords]
    · rw [hpos, hcut, hend]
  · intro plan plan' dev dev' options options' path w w1 w2 h h' closed hfile hstat hopen hclose
      hstat' hagain
    subst hfile
    have ho := openWithOptions_ok hstat hopen
    rw [ho.close] at hclose
    cases hclose
    have ho' := openWithOptions_ok hstat' hagain
    rw [ho.reopened ho', ho.resumed]
    exact hend.symm

/-- A sector of zeros and one more byte: the scan reports 512, where no frame ends. -/
theorem gap_before_junk_not_clean : ¬ ResumesCleanly castagnoli (zeros 512 ++ [1]) := by
  intro h
  have hdrop : (zeros 512 ++ [1]).drop 512 = [1] := List.drop_left' (length_zeros 512)
  refine not_gap_of_resumesCleanly _ h ⟨[], 0, 512, ?_, ?_, ?_⟩
  · exact Scan.Path.refl _ _
  · rw [List.drop_zero, journalHead_run castagnoli 0 512 1 [] (by decide) (by decide),
      if_pos (by decide)]
  · intro r m
    rw [Nat.zero_add, hdrop]
    exact nofun

end Fsys.Journal
