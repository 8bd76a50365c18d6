import Fsys.Journal.DirectSync
import Fsys.Journal.GateRecords
import Fsys.Journal.ReopenAppend
import Fsys.Journal.TornTail

/-!
# A journal across sessions and power losses (docs/CRASH-SAFETY.md, src/journal/mod.rs:356-1320)

A journal is opened, in either mode; callers append and sync; the power fails. What the
next open finds is up to the medium but for what fsyncs have put there. Over any number
of sessions, none of which opens the journal blind, the records below the frontier of a
session with an fsync only become more, and a replay yields them first: the journal refines
a log with a stable part. A session without an fsync promises nothing, though its syncs
may return.
-/

namespace Fsys.Journal
open Fsys.Base Fsys.Base.Scan

variable {crc : Crc} {plan : Plan PathBuf} {path : PathBuf}

/-! ### An open leaves the front of the file alone -/

/-- The journal file is number `i` and starts with `pre`. -/
structure Begins (path : PathBuf) (i : ℕ) (pre : Bytes) (w : World PathBuf) : Prop where
  names : w.disk.names path = some i
  data : pre <+: w.disk.data i

variable {w w' : World PathBuf} {i n : ℕ} {pre : Bytes}

theorem Begins.content (h : Begins path i pre w) : pre <+: contentOf w path := by
  unfold contentOf Disk.content
  rw [h.names]
  exact h.data

theorem Begins.of_disk (h : Begins path i pre w) (hd : w'.disk = w.disk) : Begins path i pre w' :=
  ⟨by rw [hd, h.names], by rw [hd]; exact h.data⟩

theorem prefix_take_append {pre bytes : Bytes} (h : pre <+: bytes) (hn : pre.length ≤ n)
    (more : Bytes) : pre <+: bytes.take n ++ more := by
  have hcut : pre <+: bytes.take n := List.prefix_take_iff.mpr ⟨h, hn⟩
  exact hcut.trans (List.prefix_append _ _)

theorem Begins.setLen (h : Begins path i pre w) (hn : pre.length ≤ n) :
    (Io.setLen plan i n).Wp (fun _ w' => Begins path i pre w') w := by
  refine Prog.wp_mono (Io.wp_setLen plan i n w) ?_
  rintro r w' ⟨-, -, hd⟩
  cases r with
  | error e => exact h.of_disk hd
  | ok u =>
    refine ⟨?_, ?_⟩
    · rw [hd]
      exact h.names
    · rw [hd, Disk.data_setData]
      exact prefix_take_append h.data hn _

theorem Begins.fence (h : Begins path i pre w) (k : ℕ) :
    (Io.fence plan k).Wp (fun _ w' => Begins path i pre w') w := by
  refine Prog.wp_mono (Io.wp_fence plan k w) ?_
  rintro r w' ⟨-, -, -, hd⟩
  cases r with
  | error e => exact h.of_disk hd
  | ok u =>
    refine ⟨?_, ?_⟩
    · rw [hd]
      exact h.names
    · rw [hd]
      exact h.data

theorem Begins.look (h : Begins path i pre w) {α : Type} (call : Call PathBuf)
    (answer : Disk PathBuf → ℕ → Except IoError α) :
    (Io.look plan call answer).Wp (fun _ w' => Begins path i pre w') w := by
  refine Prog.wp_mono (Io.wp_look plan call answer w) ?_
  rintro r w' ⟨hd, -⟩
  exact h.of_disk hd

/-- The scan and the copy of the tail. -/
theorem Begins.prepareResume (h : Begins path i pre w) :
    (prepareResume crc plan path).Wp (fun r w' => Begins path i pre w' ∧
      ∀ res, r = .ok res → res.cleanEnd = cleanEndOf crc (w.disk.data i)) w := by
  refine Prog.wp_mono (prepareResume_spec crc plan w h.names) ?_
  intro r w' hspec
  have hkeeps := hspec.kept.keeps
  refine ⟨⟨?_, ?_⟩, hspec.resumes⟩
  · rw [hkeeps.names path id (by rw [h.names]; exact nofun), h.names]
  · rw [hkeeps.data i (w.disk.fresh _ _ h.names)]
    exact h.data

theorem Begins.cutDirect (h : Begins path i pre w) {sectorSize fileLen : ℕ} {res : Resume}
    (hss : 0 < sectorSize) (hres : pre.length ≤ res.cleanEnd) :
    (cutDirect plan i sectorSize fileLen res).Wp (fun _ w' => Begins path i pre w') w := by
  have hmod := Nat.mod_lt res.cleanEnd hss
  have hkeep : res.cleanEnd ≤ (if res.cleanEnd > res.cleanEnd - res.cleanEnd % sectorSize then
      res.cleanEnd - res.cleanEnd % sectorSize + sectorSize
      else res.cleanEnd - res.cleanEnd % sectorSize) := by
    split
    · omega
    · omega
  unfold Fsys.Journal.cutDirect
  dsimp only
  generalize (if res.cleanEnd > res.cleanEnd - res.cleanEnd % sectorSize then
      res.cleanEnd - res.cleanEnd % sectorSize + sectorSize
      else res.cleanEnd - res.cleanEnd % sectorSize) = keep at hkeep ⊢
  split
  · refine Prog.wp_bind _ _ _ w _ (h.setLen hres) ?_ fun _ _ ht => ht
    intro u t ht
    split
    · refine Prog.wp_bind _ _ _ t _ (ht.setLen ?_) (fun _ v hv => hv.fence i) fun _ _ hv => hv
      omega
    · exact ht.fence i
  · split
    · refine Prog.wp_bind _ _ _ w _ (h.setLen ?_) (fun _ t ht => ht.fence i) fun _ _ ht => ht
      omega
    · exact h

theorem Begins.readResumePrefix (h : Begins path i pre w) (sector lsn : ℕ) :
    (readResumePrefix plan path sector lsn).Wp (fun _ w' => Begins path i pre w') w := by
  unfold Fsys.Journal.readResumePrefix
  dsimp only
  split
  · exact h
  · exact Prog.wp_bind _ _ _ w _ (h.look _ _) (fun _ t ht => ht.look _ _) fun _ _ ht => ht

theorem Begins.resumeBuffer (h : Begins path i pre w) {geo : Geometry} {fileLen : ℕ} {res : Resume}
    (hres : pre.length ≤ res.cleanEnd) :
    (resumeBuffer plan geo path i fileLen res).Wp (fun _ w' => Begins path i pre w') w := by
  refine Prog.wp_bind _ _ _ w _ (h.look _ _) ?_ fun _ _ ht => ht
  intro u t ht
  refine Prog.wp_bind _ _ _ t _ (ht.cutDirect geo.sector_pos hres) ?_ fun _ _ hv => hv
  intro u v hv
  split
  · refine Prog.wp_bind _ _ _ v _ (hv.readResumePrefix _ _) ?_ fun _ _ hx => hx
    intro bytes x hx
    exact Prog.wp_bind _ _ _ x (fun _ y => Begins path i pre y) hx (fun _ y hy => hy)
      fun _ y hy => hy
  · exact hv

/-- A journal file between two sessions, and the records that are stable in it. -/
structure Stored where
  file : Bytes
  stable : List JournalRecord

/-- What an open found is published as synced: a sync of it makes no call. -/
theorem Opened.syncThrough {file : Bytes} {h : JournalHandle} (ho : Opened crc file path w h)
    (plan : Plan PathBuf) :
    Fsys.Journal.syncThrough plan h.nextLsn (w, h) = (.ok (), (w, h)) := by
  apply syncThrough_synced
  rw [ho.resumed]
  exact Nat.le_refl _

/-- The file starts with the stable records, whatever lies behind them. -/
def Sound (crc : Crc) (j : Stored) : Prop :=
  JournalPath crc 0 j.file j.stable (endOf 0 j.stable) (j.file.drop (endOf 0 j.stable))

theorem Sound.stable_le {j : Stored} (h : Sound crc j) : j.stable <+: recordsOf crc j.file := by
  have hscan : scan (journalHead crc) .cleanEnd 0 j.file = Outcome.prepend j.stable _ :=
    scan_append_path (journalHead_progress crc) h
  refine ⟨(scan (journalHead crc) .cleanEnd (endOf 0 j.stable)
    (j.file.drop (endOf 0 j.stable))).records, ?_⟩
  unfold recordsOf plainScan
  rw [List.drop_zero, hscan]
  rfl

theorem Sound.end_le {j : Stored} (h : Sound crc j) :
    endOf 0 j.stable ≤ cleanEndOf crc j.file := by
  have hscan : scan (journalHead crc) .cleanEnd 0 j.file = Outcome.prepend j.stable _ :=
    scan_append_path (journalHead_progress crc) h
  obtain ⟨rest, hpath, -⟩ := path_of_scan (journalHead_progress crc) .cleanEnd
    (endOf 0 j.stable) (j.file.drop (endOf 0 j.stable))
  have hle := hpath.rest_eq.1
  have hend : cleanEndOf crc j.file = (scan (journalHead crc) .cleanEnd (endOf 0 j.stable)
      (j.file.drop (endOf 0 j.stable))).position := by
    unfold cleanEndOf plainScan
    rw [List.drop_zero, hscan]
    rfl
  rw [hend]
  exact hle

/-- The stable front of the file in front of an open and behind it. -/
theorem Sound.front {j : Stored} (h : Sound crc j) :
    j.file.take (endOf 0 j.stable) <+: j.file ∧
      (j.file.take (endOf 0 j.stable)).length = endOf 0 j.stable := by
  have hle := h.end_le
  have hlen := cleanEndOf_le crc j.file
  exact ⟨List.take_prefix _ _, List.length_take_of_le (by omega)⟩

/-- A journal as a log with a stable part. -/
def Sound.log {j : Stored} (h : Sound crc j) : StableLog JournalRecord :=
  ⟨recordsOf crc j.file, j.stable, h.stable_le⟩

end Fsys.Journal
