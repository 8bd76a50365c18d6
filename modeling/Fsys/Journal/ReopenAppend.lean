import Fsys.Journal.Reopen
import Fsys.Journal.SoloBuffer

/-!
# Appending to a journal that was opened (src/journal/mod.rs:666-1006, 1073-1320)

Behind an open the file holds the journal up to its clean end. Every call that
returns adds its records there, in Direct mode in the log buffer; a sync or a
close that returns leaves them in the file, followed by zeros at most. A replay
then yields the old records and the new ones. A Direct open that cannot look at
the journal takes it for a new one and cuts it to nothing.
-/

namespace Fsys.Journal
open Fsys.Base

variable {crc : Crc} {plan : Plan PathBuf} {path : PathBuf}

/-- What holds of an open handle after appends of `ps`. -/
structure HandleAt (crc : Crc) (path : PathBuf) (resume : Bytes) (w : World PathBuf)
    (h : JournalHandle) (ps : List Bytes) : Prop where
  names : w.disk.names path = some h.file
  fits : ∀ p ∈ ps, Fits p
  next : h.nextLsn = resume.length + framesLen ps
  synced : h.syncedLsn = resume.length
  committed : h.committedLsn = resume.length
  healthy : h.poison = none
  buffered : h.logBuffer = none → w.disk.data h.file = resume ++ framesBytes crc ps
  direct : ∀ lb, h.logBuffer = some lb → HasLog crc resume w h ps

theorem HasLog.fits {resume : Bytes} {w : World PathBuf} {h : JournalHandle} {ps : List Bytes}
    (hb : HasLog crc resume w h ps) : ∀ p ∈ ps, Fits p := by
  obtain ⟨k, lb, s, hb⟩ := hb
  rw [← hb.payloads]
  exact hb.inv.fits

/-- A handle that was just opened. -/
theorem Opened.handleAt {file : Bytes} {w : World PathBuf} {h : JournalHandle}
    (ho : Opened crc file path w h) :
    HandleAt crc path (file.take (cleanEndOf crc file)) w h [] := by
  have hlen := length_take_cleanEnd crc file
  obtain ⟨k, hs, hk⟩ := ho.stands
  refine ⟨hs.names, nofun, ?_, ?_, ?_, by rw [ho.resumed]; rfl, fun hnone => ?_, fun lb hlb => ?_⟩
  · rw [hlen, ho.resumed]
    rfl
  · rw [hlen, ho.resumed]
    rfl
  · rw [hlen, ho.resumed]
    rfl
  · rw [hs.data, hk hnone]
    rfl
  · refine ⟨k, lb, _, hlb, ⟨rfl, hs.data.symm, rfl, rfl, fun _ _ => rfl⟩,
      logInv_resumed lb.geo crc _ (zeros k) lb.state (ho.buffer lb hlb)
        [.flushed 0 (file.take (cleanEndOf crc file)).length] rfl ?_, rfl, ?_⟩
    · intro x hx
      exact Nat.le_of_eq (List.mem_singleton.mp hx)
    · exact List.mem_singleton.mpr rfl

/-! ### Buffered appends -/

theorem encodeForAppend_ok {record encoded : Bytes} (h : encodeForAppend crc record = .ok encoded) :
    Fits record ∧ encoded = frameBytes crc record := by
  have hfit : Fits record := by
    by_contra hno
    unfold encodeForAppend at h
    rw [frameLen_error record hno] at h
    cases h
  refine ⟨hfit, ?_⟩
  unfold encodeForAppend at h
  rw [frameLen_ok record hfit] at h
  simp only [bind, Except.bind] at h
  split at h
  · rename_i hsmall
    rw [encodeFrameIntoUninit_ok crc record _ hfit
      (by rw [List.length_replicate]; exact hsmall)] at h
    cases h
    rfl
  · rw [encodeFrameOwned_ok crc record hfit] at h
    cases h
    rfl

theorem encodeBatch_ok {records : List Bytes} {out buf : Bytes}
    (h : encodeBatch crc records out = .ok buf) (hfits : ∀ p ∈ records, Fits p) :
    buf = out ++ framesBytes crc records := by
  induction records generalizing out with
  | nil =>
    cases h
    exact (List.append_nil _).symm
  | cons record records ih =>
    unfold encodeBatch at h
    rw [encodeFrameExtend_ok crc record out (hfits record List.mem_cons_self)] at h
    have hrest := ih h fun p hp => hfits p (List.mem_cons_of_mem record hp)
    rw [hrest, framesBytes_cons, List.append_assoc]

/-- A reserved write that returns appends its frames. -/
theorem HandleAt.writeReserved {resume : Bytes} {w : World PathBuf} {h : JournalHandle}
    {ps records : List Bytes} {stop : ℕ} {t : World PathBuf × JournalHandle}
    (ha : HandleAt crc path resume w h ps) (hnone : h.logBuffer = none)
    (hfits : ∀ p ∈ records, Fits p)
    (hr : writeReserved plan (framesBytes crc records) (w, h) = (.ok stop, t)) :
    HandleAt crc path resume t.1 t.2 (ps ++ records) ∧
      stop = resume.length + framesLen (ps ++ records) := by
  obtain ⟨h0, t0, hget, hr⟩ := Prog.bind_ok hr
  cases hget
  obtain ⟨⟨⟩, t1, hset, hr⟩ := Prog.bind_ok hr
  cases hset
  obtain ⟨⟨⟩, ⟨w2, h2⟩, hwrite, hr⟩ := Prog.bind_ok hr
  obtain ⟨hd, hh⟩ := poisoning_write_ok hwrite
  dsimp only at hd hh
  subst h2
  obtain ⟨rfl, rfl⟩ := Prog.pure_ok hr
  have hnext : h.nextLsn + (framesBytes crc records).length =
      resume.length + framesLen (ps ++ records) := by
    rw [ha.next, length_framesBytes, framesLen_append, Nat.add_assoc]
  refine ⟨⟨?_, ?_, hnext, ha.synced, ha.committed, ha.healthy, fun _ => ?_, fun lb hlb => ?_⟩,
    hnext⟩
  · rw [hd]
    exact ha.names
  · intro p hp
    exact (List.mem_append.mp hp).elim (ha.fits p) (hfits p)
  · have hpos : h.nextLsn = (w.disk.data h.file).length := by
      rw [ha.buffered hnone, List.length_append, length_framesBytes, ha.next]
    rw [hd, Disk.data_setData, hpos, overlay_length, ha.buffered hnone, framesBytes_append,
      List.append_assoc]
  · exact absurd hlb (by rw [show _ = _ from hnone]; exact nofun)

/-! ### Direct appends -/

/-- A call of the log buffer behind which the public frontier is moved up. -/
theorem HandleAt.directCall {resume : Bytes} {w w' : World PathBuf} {h : JournalHandle}
    {ps qs : List Bytes} {geo : Geometry} {b : LogState} {stop : ℕ}
    (ha : HandleAt crc path resume w h ps) (hnames : w'.disk.names = w.disk.names)
    (hb : HasLog crc resume w' (h.withBuffer geo b) (ps ++ qs))
    (hstop : stop = resume.length + framesLen (ps ++ qs)) :
    HandleAt crc path resume w'
      { h.withBuffer geo b with nextLsn := max h.nextLsn stop } (ps ++ qs) := by
  refine ⟨by rw [hnames]; exact ha.names, hb.fits, ?_, ha.synced, ha.committed, ha.healthy,
    nofun, fun _ _ => ?_⟩
  · show max h.nextLsn stop = _
    rw [ha.next, hstop, framesLen_append]
    omega
  · obtain ⟨k, lb, s, hb⟩ := hb
    exact ⟨k, lb, s, hb.buffer, hb.solo, hb.inv, hb.payloads, hb.flushed⟩

theorem append_ok {resume : Bytes} {w : World PathBuf} {h : JournalHandle} {ps : List Bytes}
    {record : Bytes} {lsn : ℕ} {t : World PathBuf × JournalHandle}
    (ha : HandleAt crc path resume w h ps)
    (hr : append crc plan record (w, h) = (.ok lsn, t)) :
    HandleAt crc path resume t.1 t.2 (ps ++ [record]) ∧
      lsn = resume.length + framesLen (ps ++ [record]) := by
  obtain ⟨h0, t0, hget, hr⟩ := Prog.bind_ok hr
  cases hget
  obtain ⟨⟨⟩, -, hr⟩ := Prog.lift_bind_ok hr
  dsimp only at hr
  cases hlb : h.logBuffer with
  | none =>
    rw [hlb] at hr
    obtain ⟨encoded, henc, hr⟩ := Prog.lift_bind_ok hr
    obtain ⟨hfit, rfl⟩ := encodeForAppend_ok henc
    have hone : frameBytes crc record = framesBytes crc [record] := by
      rw [framesBytes_cons]
      exact (List.append_nil _).symm
    rw [hone] at hr
    exact ha.writeReserved hlb (fun p hp => by rw [List.mem_singleton.mp hp]; exact hfit) hr
  | some lb =>
    rw [hlb] at hr
    obtain ⟨⟨start, stop⟩, ⟨w1, h1⟩, hframe, hr⟩ := Prog.bind_ok hr
    obtain ⟨b, hh, hnames, hb, hstop⟩ := appendFrame_ok (ha.direct lb hlb) hlb ha.healthy hframe
    dsimp only at hh hnames hb
    subst hh
    obtain ⟨⟨⟩, t2, hset, hr⟩ := Prog.bind_ok hr
    cases hset
    obtain ⟨rfl, rfl⟩ := Prog.pure_ok hr
    exact ⟨ha.directCall hnames hb hstop, hstop⟩

theorem appendEach_ok {resume : Bytes} (records : List Bytes) {w : World PathBuf}
    {h : JournalHandle} {ps : List Bytes} {last stop : ℕ} {geo : Geometry} {b : LogState}
    {t : World PathBuf × JournalHandle} (hb : HasLog crc resume w (h.withBuffer geo b) ps)
    (hpoison : h.poison = none) (hlast : last = resume.length + framesLen ps)
    (hr : appendEach crc plan records last (w, h.withBuffer geo b) = (.ok stop, t)) :
    ∃ b', t.2 = h.withBuffer geo b' ∧ t.1.disk.names = w.disk.names ∧
      HasLog crc resume t.1 t.2 (ps ++ records) ∧
      stop = resume.length + framesLen (ps ++ records) := by
  induction records generalizing w ps last b with
  | nil =>
    obtain ⟨rfl, rfl⟩ := Prog.pure_ok hr
    rw [List.append_nil]
    exact ⟨b, rfl, rfl, hb, hlast⟩
  | cons record records ih =>
    obtain ⟨h0, t0, hget, hr⟩ := Prog.bind_ok hr
    cases hget
    obtain ⟨⟨start, stop1⟩, ⟨w1, h1⟩, hframe, hr⟩ := Prog.bind_ok hr
    obtain ⟨b1, hh, hnames, hb1, hstop⟩ := appendFrame_ok hb rfl hpoison hframe
    dsimp only at hh hnames hb1
    subst hh
    obtain ⟨b', hh', hnames', hb', hstop'⟩ := ih hb1 hstop hr
    rw [List.append_assoc] at hb' hstop'
    exact ⟨b', hh', hnames'.trans hnames, hb', hstop'⟩

theorem appendBatchDirect_ok {resume : Bytes} {w : World PathBuf} {h : JournalHandle}
    {lb : LogBuffer} {ps records : List Bytes} {stop : ℕ} {t : World PathBuf × JournalHandle}
    (ha : HandleAt crc path resume w h ps) (hlb : h.logBuffer = some lb) (hne : records ≠ [])
    (hfits : ∀ p ∈ records, Fits p)
    (hr : appendBatchDirect crc plan lb records (framesLen records) h.nextLsn (w, h) =
      (.ok stop, t)) :
    ∃ b, t.2 = h.withBuffer lb.geo b ∧ t.1.disk.names = w.disk.names ∧
      HasLog crc resume t.1 t.2 (ps ++ records) ∧
      stop = resume.length + framesLen (ps ++ records) := by
  obtain ⟨k, lb', s, hb⟩ := ha.direct lb hlb
  have hlb' := hb.buffer
  rw [hlb] at hlb'
  cases hlb'
  have hcall : s.next lb.geo crc (.callBatch 0 records) =
      some (s.callBatch lb.geo crc 0 records) := by
    simp only [LogSys.next, hb.solo.here, if_pos (And.intro hne hfits)]
  have htrue : LogAction.Succeeds (.callBatch 0 records) := trivial
  unfold LogSys.callBatch at hcall
  rw [hb.solo.buf] at hcall
  unfold appendBatchDirect at hr
  generalize hres : lb.state.tryAppendFramesBatched lb.geo crc records (framesLen records) = res
    at hcall hr
  obtain ⟨result, b⟩ := res
  obtain ⟨⟨⟩, t1, hset, hr⟩ := Prog.bind_ok hr
  cases hset
  obtain ⟨batched, hresult, hr⟩ := Prog.lift_bind_ok hr
  subst hresult
  cases batched with
  | some range =>
    obtain ⟨start, stop'⟩ := range
    obtain ⟨rfl, rfl⟩ := Prog.pure_ok hr
    have hs : Solo { s.respond 0 (.appended 0 start stop records) with
        buf := b
        log := s.log ++ [⟨start, stop, records⟩] } b w h.file .idle :=
      hb.solo.step rfl rfl hb.solo.file rfl
    obtain ⟨hlog, hstop⟩ := hb.reach (Reach.step Reach.start htrue hcall) hs
      ⟨start, stop, records⟩ rfl
    exact ⟨b, rfl, rfl, hlog, hstop⟩
  | none =>
    -- the buffer is as it was; the records follow one by one
    have hsame : b = lb.state := by
      rcases tryAppendFramesBatched_spec crc (hb.solo.buf ▸ hb.inv.buf) records hfits with
        ⟨-, heq⟩ | heq
      · rw [hres] at heq
        cases heq
      · rw [hres] at heq
        cases heq
        rfl
    subst hsame
    have hhere : h.withBuffer lb.geo lb.state = h := by
      unfold JournalHandle.withBuffer
      rw [show (⟨lb.geo, lb.state⟩ : LogBuffer) = lb from rfl, ← hlb]
    have hlog : HasLog crc resume w (h.withBuffer lb.geo lb.state) ps := by
      rw [hhere]
      exact ⟨k, lb, s, hb⟩
    exact appendEach_ok records hlog ha.healthy ha.next hr

theorem appendBatch_ok {resume : Bytes} {w : World PathBuf} {h : JournalHandle} {ps : List Bytes}
    {records : List Bytes} {lsn : ℕ} {t : World PathBuf × JournalHandle}
    (ha : HandleAt crc path resume w h ps)
    (hr : appendBatch crc plan records (w, h) = (.ok lsn, t)) :
    HandleAt crc path resume t.1 t.2 (ps ++ records) ∧
      lsn = resume.length + framesLen (ps ++ records) := by
  obtain ⟨h0, t0, hget, hr⟩ := Prog.bind_ok hr
  cases hget
  obtain ⟨⟨⟩, -, hr⟩ := Prog.lift_bind_ok hr
  dsimp only at hr
  split at hr
  · rename_i hnil
    obtain ⟨rfl, rfl⟩ := Prog.pure_ok hr
    rw [hnil, List.append_nil]
    exact ⟨ha, ha.next⟩
  · rename_i hne
    obtain ⟨total, hsize, hr⟩ := Prog.lift_bind_ok hr
    obtain ⟨htotal, hfits⟩ := batchSize_ok hsize
    rw [Nat.zero_add] at htotal
    subst htotal
    cases hlb : h.logBuffer with
    | none =>
      rw [hlb] at hr
      obtain ⟨buf, henc, hr⟩ := Prog.lift_bind_ok hr
      rw [encodeBatch_ok henc hfits, List.nil_append] at hr
      exact ha.writeReserved hlb hfits hr
    | some lb =>
      rw [hlb] at hr
      obtain ⟨stop, ⟨w1, h1⟩, hbatch, hr⟩ := Prog.bind_ok hr
      obtain ⟨b, hh, hnames, hb, hstop⟩ := appendBatchDirect_ok ha hlb hne hfits hbatch
      dsimp only at hh hnames hb
      subst hh
      obtain ⟨⟨⟩, t2, hset, hr⟩ := Prog.bind_ok hr
      cases hset
      obtain ⟨rfl, rfl⟩ := Prog.pure_ok hr
      exact ⟨ha.directCall hnames hb hstop, hstop⟩

/-! ### Syncing and closing -/

/-- The journal file holds the resume contents, the frames, and zeros at most. -/
def Written (crc : Crc) (path : PathBuf) (resume : Bytes) (w : World PathBuf)
    (ps : List Bytes) : Prop :=
  ∃ i k, Stands w path i (resume ++ framesBytes crc ps ++ zeros k)

/-- With its end flushed the whole log is on disk. -/
theorem BufferAt.written {resume : Bytes} {k : ℕ} {w : World PathBuf} {h : JournalHandle}
    {lb : LogBuffer} {ps : List Bytes} {s : LogSys} (hb : BufferAt crc resume k w h lb ps s)
    (hnames : w.disk.names path = some h.file)
    (hend : resume.length + framesLen ps ∈ s.flushedEnds) : Written crc path resume w ps := by
  have hL : s.logical crc resume = resume ++ framesBytes crc ps := by
    unfold LogSys.logical
    rw [hb.payloads]
  cases hb.inv.writer with
  | busy t pc here others owner =>
    rw [hb.solo.idle t] at here
    subst here
    cases owner.writing
  | quiet idle pcs dormant disk returned =>
    obtain ⟨e, -, hle, hends, hdisk⟩ := disk
    have he : e = (s.logical crc resume).length := by
      have := hends _ hend
      rw [hL, List.length_append, length_framesBytes] at hle ⊢
      omega
    obtain ⟨rest, hfile, hrest⟩ := hdisk.split
    rw [he, List.take_length, hL, hb.solo.file] at hfile
    have hzero : rest = zeros rest.length := by
      refine eq_zeros_of_forall rest fun x hx => ?_
      rcases hrest x hx with h0 | hmem
      · exact h0
      · exact List.eq_of_mem_replicate hmem
    rw [hzero] at hfile
    exact ⟨h.file, rest.length, hnames, hfile⟩

/-- A frontier that covers everything from the open on: nothing was appended. -/
theorem HandleAt.written_of_synced {resume : Bytes} {w : World PathBuf} {h : JournalHandle}
    {ps : List Bytes} (ha : HandleAt crc path resume w h ps)
    (hle : h.nextLsn ≤ resume.length) : Written crc path resume w ps := by
  have hzero : framesLen ps = 0 := by
    have := ha.next
    omega
  cases hlb : h.logBuffer with
  | none =>
    refine ⟨h.file, 0, ha.names, ?_⟩
    rw [ha.buffered hlb, zeros_zero, List.append_nil]
  | some lb =>
    obtain ⟨k, lb', s, hb⟩ := ha.direct lb hlb
    refine hb.written ha.names ?_
    rw [hzero]
    exact hb.flushed

/-- `flush_partial` of a lone caller is a flush of thread 0. -/
theorem flushFrontier_ok {resume : Bytes} {w : World PathBuf} {h : JournalHandle}
    {ps : List Bytes} {frontier : ℕ} {t : World PathBuf × JournalHandle}
    (ha : HandleAt crc path resume w h ps)
    (hr : flushFrontier plan h (w, h) = (.ok frontier, t)) :
    Written crc path resume t.1 ps ∧ t.2 = h := by
  unfold flushFrontier at hr
  cases hlb : h.logBuffer with
  | none =>
    rw [hlb] at hr
    obtain ⟨-, rfl⟩ := Prog.pure_ok hr
    refine ⟨⟨h.file, 0, ha.names, ?_⟩, rfl⟩
    rw [ha.buffered hlb, zeros_zero, List.append_nil]
  | some lb =>
    rw [hlb] at hr
    obtain ⟨k, lb', s, hb⟩ := ha.direct lb hlb
    have hlb' := hb.buffer
    rw [hlb] at hlb'
    cases hlb'
    obtain ⟨h0, t0, hget, hr⟩ := Prog.bind_ok hr
    cases hget
    obtain ⟨⟨⟩, -, hr⟩ := Prog.lift_bind_ok hr
    have hidle : s.buf.flushing = none := by
      cases hb.inv.writer with
      | quiet idle => exact idle
      | busy u pc here others owner =>
        rw [hb.solo.idle u] at here
        subst here
        cases owner.writing
    have hcall : s.next lb.geo crc (.callFlush 0) = some (s.setPc 0 .flush) := by
      simp only [LogSys.next, hb.solo.here]
    have hs : Solo (s.setPc 0 .flush) lb.state w h.file .flush :=
      hb.solo.step rfl hb.solo.buf hb.solo.file rfl
    have hlock : (s.setPc 0 .flush).next lb.geo crc (.lockFlush 0 .done) =
        some ((s.setPc 0 .flush).lockFlush lb.geo 0 .done) := by
      have hnone : (s.setPc 0 .flush).buf.flushing.isSome = false := by
        show s.buf.flushing.isSome = false
        rw [hidle]
        rfl
      simp only [LogSys.next, hs.here, hnone, Bool.false_eq_true, if_false]
    rw [lockFlush_done hs.poison, hs.buf] at hlock
    have hreach := reach_two hcall hlock trivial trivial
    have hnext : lb.state.nextLsn = resume.length + framesLen ps := by
      rw [← hb.solo.buf, hb.inv.nextLsn_eq, hb.payloads]
    -- the flush answers with the end of the log
    have hdone : ∀ w' : World PathBuf, w'.disk.names = w.disk.names →
        w'.disk.data h.file = lb.state.flushedFile lb.geo s.file →
        Written crc path resume w' ps := by
      intro w' hnames hfile
      have hb' : BufferAt crc resume k w' h lb ps
          { (s.setPc 0 .flush).respond 0 (.flushed 0 lb.state.nextLsn) with
            file := lb.state.flushedFile lb.geo s.file } :=
        ⟨hlb, hs.step rfl hb.solo.buf hfile.symm rfl, hb.inv.reach hreach, hb.payloads,
          flushedEnds_reach hreach _ hb.flushed⟩
      refine hb'.written (by rw [hnames]; exact ha.names) ?_
      rw [← hnext]
      unfold LogSys.flushedEnds LogSys.respond
      rw [List.filterMap_append]
      exact List.mem_append_right _ (List.mem_singleton.mpr rfl)
    unfold LogState.flushedFile at hdone
    cases hp : lb.state.partialWrite lb.geo with
    | none =>
      rw [hp] at hr hdone
      obtain ⟨-, rfl⟩ := Prog.pure_ok hr
      exact ⟨hdone w rfl hb.solo.file.symm, rfl⟩
    | some d =>
      obtain ⟨pos, data⟩ := d
      rw [hp] at hr hdone
      obtain ⟨⟨⟩, ⟨w1, h1⟩, hwrite, hr⟩ := Prog.bind_ok hr
      obtain ⟨hd, hh⟩ := poisoning_write_ok hwrite
      dsimp only at hd hh
      subst h1
      obtain ⟨-, rfl⟩ := Prog.pure_ok hr
      refine ⟨hdone w1 (by rw [hd]; rfl) ?_, rfl⟩
      rw [hd, Disk.data_setData, ← hb.solo.file]

/-- A sync of everything that returns leaves everything in the file. -/
theorem syncThrough_ok {resume : Bytes} {w : World PathBuf} {h : JournalHandle}
    {ps : List Bytes} {t : World PathBuf × JournalHandle} (ha : HandleAt crc path resume w h ps)
    (hr : syncThrough plan h.nextLsn (w, h) = (.ok (), t)) : Written crc path resume t.1 ps := by
  obtain ⟨h0, t0, hget, hr⟩ := Prog.bind_ok hr
  cases hget
  dsimp only at hr
  split at hr
  · rename_i hsynced
    obtain ⟨-, rfl⟩ := Prog.pure_ok hr
    rw [ha.synced] at hsynced
    exact ha.written_of_synced hsynced
  · split at hr
    · rename_i hcommitted
      obtain ⟨-, rfl⟩ := Prog.pure_ok hr
      rw [ha.committed] at hcommitted
      exact ha.written_of_synced hcommitted
    · obtain ⟨⟨⟩, -, hr⟩ := Prog.lift_bind_ok hr
      obtain ⟨frontier, t2, hsync, hr⟩ := Prog.bind_ok hr
      cases hr
      obtain ⟨h1, t1, hget, hsync⟩ := Prog.bind_ok hsync
      cases hget
      obtain ⟨f, ⟨w3, h3⟩, hflush, hsync⟩ := Prog.bind_ok hsync
      obtain ⟨hwritten, hh⟩ := flushFrontier_ok ha hflush
      dsimp only at hwritten hh
      obtain ⟨h4, t4, hget, hsync⟩ := Prog.bind_ok hsync
      cases hget
      obtain ⟨⟨⟩, -, hsync⟩ := Prog.lift_bind_ok hsync
      obtain ⟨⟨⟩, t5, hfence, hsync⟩ := Prog.bind_ok hsync
      obtain ⟨hfence, -⟩ := poisoning_ok hfence
      obtain ⟨-, rfl⟩ := Prog.pure_ok hsync
      obtain ⟨i, k, hs⟩ := hwritten
      have hd := Io.fence_ok hfence
      refine ⟨i, k, ?_, ?_⟩
      · rw [show t2.1.disk = _ from hd]
        exact hs.names
      · rw [show t2.1.disk = _ from hd]
        exact hs.data

/-- A close that returns leaves everything in the file, too. -/
theorem close_ok {resume : Bytes} {w : World PathBuf} {h : JournalHandle} {ps : List Bytes}
    {t : World PathBuf × JournalHandle} (ha : HandleAt crc path resume w h ps)
    (hr : close plan (w, h) = (.ok (), t)) : Written crc path resume t.1 ps := by
  obtain ⟨h0, t0, hget, hr⟩ := Prog.bind_ok hr
  cases hget
  have hfrontier : h.frontier = h.nextLsn := by
    unfold JournalHandle.frontier
    cases hlb : h.logBuffer with
    | none => rfl
    | some lb =>
      obtain ⟨k, lb', s, hb⟩ := ha.direct lb hlb
      have hlb' := hb.buffer
      rw [hlb] at hlb'
      cases hlb'
      dsimp only
      rw [← hb.solo.buf, hb.inv.nextLsn_eq, hb.payloads, ha.next]
  dsimp only at hr
  rw [hfrontier] at hr
  obtain ⟨synced, t1, hsync, hr⟩ := Prog.bind_ok hr
  cases hsync
  cases hs : (syncThrough plan h.nextLsn (w, h)).1 with
  | error e =>
    rw [hs] at hr
    obtain ⟨⟨⟩, t2, -, hr⟩ := Prog.bind_ok hr
    cases hr
  | ok u =>
    rw [hs] at hr
    have hwritten := syncThrough_ok ha (Prog.run_of_fst hs)
    -- the handle is marked as closed, so that dropping it does nothing
    obtain ⟨⟨⟩, t2, hset, hr⟩ := Prog.bind_ok hr
    cases hset
    obtain ⟨h3, t3, hget, hr⟩ := Prog.bind_ok hr
    cases hget
    rw [if_pos (Or.inr rfl)] at hr
    obtain ⟨-, rfl⟩ := Prog.pure_ok hr
    exact hwritten

/-! ### Reopen, then append -/

/-- A call that appends. -/
inductive AppendCall where
  | append (record : Bytes)
  | appendBatch (records : List Bytes)

def AppendCall.payloads : AppendCall → List Bytes
  | .append record => [record]
  | .appendBatch records => records

def AppendCall.run (crc : Crc) (plan : Plan PathBuf) : AppendCall → HandleIo ℕ
  | .append record => Fsys.Journal.append crc plan record
  | .appendBatch records => Fsys.Journal.appendBatch crc plan records

/-- The calls in order, up to the first that fails, and the LSNs they returned. -/
def runCalls (crc : Crc) (plan : Plan PathBuf) : List AppendCall → HandleIo (List ℕ)
  | [] => pure []
  | c :: cs => do
    let lsn ← c.run crc plan
    let lsns ← runCalls crc plan cs
    pure (lsn :: lsns)

/-- The records of the calls, each in the range its call returned the end of. -/
def recordsOfCalls (calls : List AppendCall) (lsns : List ℕ) : List JournalRecord :=
  (calls.zip lsns).flatMap fun c => recordsAt (c.2 - framesLen c.1.payloads) c.1.payloads

theorem runCalls_ok {resume : Bytes} (calls : List AppendCall) {w : World PathBuf}
    {h : JournalHandle} {ps : List Bytes} {lsns : List ℕ} {t : World PathBuf × JournalHandle}
    (ha : HandleAt crc path resume w h ps)
    (hr : runCalls crc plan calls (w, h) = (.ok lsns, t)) :
    HandleAt crc path resume t.1 t.2 (ps ++ calls.flatMap AppendCall.payloads) ∧
      recordsOfCalls calls lsns =
        recordsAt (resume.length + framesLen ps) (calls.flatMap AppendCall.payloads) := by
  induction calls generalizing w h ps lsns with
  | nil =>
    obtain ⟨rfl, rfl⟩ := Prog.pure_ok hr
    rw [List.flatMap_nil, List.append_nil]
    exact ⟨ha, rfl⟩
  | cons c cs ih =>
    obtain ⟨lsn, ⟨w1, h1⟩, hc, hr⟩ := Prog.bind_ok hr
    obtain ⟨rest, t2, hcs, hr⟩ := Prog.bind_ok hr
    obtain ⟨rfl, rfl⟩ := Prog.pure_ok hr
    have hcall : HandleAt crc path resume w1 h1 (ps ++ c.payloads) ∧
        lsn = resume.length + framesLen (ps ++ c.payloads) := by
      cases c with
      | append record => exact append_ok ha hc
      | appendBatch records => exact appendBatch_ok ha hc
    obtain ⟨ha1, hlsn⟩ := hcall
    obtain ⟨hat, hrecords⟩ := ih ha1 hcs
    rw [List.flatMap_cons, ← List.append_assoc]
    refine ⟨hat, ?_⟩
    have hstart : lsn - framesLen c.payloads = resume.length + framesLen ps := by
      rw [hlsn, framesLen_append]
      omega
    have hcons : recordsOfCalls (c :: cs) (lsn :: rest) =
        recordsAt (lsn - framesLen c.payloads) c.payloads ++ recordsOfCalls cs rest := by
      unfold recordsOfCalls
      rw [List.zip_cons_cons, List.flatMap_cons]
    rw [hcons, hstart, hrecords, recordsAt_append, framesLen_append, Nat.add_assoc]

/-- What is promised of an open of `path` whose stat is answered by `stat`, whatever fails
later: it resumes at the clean end of the scan, and behind successful appends and a successful
sync or close a replay yields the records of before the open and the new ones, in the ranges
that were returned, and ends cleanly. -/
def ReopensThenAppends (crc : Crc) (dev : Device) (options : JournalOptions) (path : PathBuf)
    (w : World PathBuf) (stat : Reply) : Prop :=
  ∀ (plan : Plan PathBuf) (w1 : World PathBuf) (h : JournalHandle) (calls : List AppendCall)
    (lsns : List ℕ) (t u : World PathBuf × JournalHandle),
    plan (.stat path) w.clock = stat →
    openWithOptions crc plan dev options path w = (.ok h, w1) →
    runCalls crc plan calls (w1, h) = (.ok lsns, t) →
    syncThrough plan t.2.nextLsn t = (.ok (), u) ∨ close plan t = (.ok (), u) →
    ∀ extra extra' : ℕ → ℕ, ∃ records reader reader',
      replay crc (shortReads extra) (JournalReader.open (contentOf w path)) =
        some (.ok records, reader) ∧
      h.nextLsn = reader.position ∧
      replay crc (shortReads extra') (JournalReader.open (contentOf u.1 path)) =
        some (.ok (records ++ recordsOfCalls calls lsns), reader') ∧
      reader'.tailState = .cleanEnd

/-- Behind an open that took the journal for `file`. -/
theorem Opened.appended {file : Bytes} {w w1 : World PathBuf} {h : JournalHandle}
    {calls : List AppendCall} {lsns : List ℕ} {t u : World PathBuf × JournalHandle}
    (ho : Opened crc file path w1 h) (hcalls : runCalls crc plan calls (w1, h) = (.ok lsns, t))
    (hend : syncThrough plan t.2.nextLsn t = (.ok (), u) ∨ Fsys.Journal.close plan t = (.ok (), u))
    (hrecords : recordsOf crc (contentOf w path) = recordsOf crc file)
    (hclean : cleanEndOf crc (contentOf w path) = cleanEndOf crc file) (extra extra' : ℕ → ℕ) :
    ∃ records reader reader',
      replay crc (shortReads extra) (JournalReader.open (contentOf w path)) =
        some (.ok records, reader) ∧
      h.nextLsn = reader.position ∧
      replay crc (shortReads extra') (JournalReader.open (contentOf u.1 path)) =
        some (.ok (records ++ recordsOfCalls calls lsns), reader') ∧
      reader'.tailState = .cleanEnd := by
  obtain ⟨ha, hcalled⟩ := runCalls_ok calls ho.handleAt hcalls
  rw [List.nil_append] at ha
  have hwritten : Written crc path (file.take (cleanEndOf crc file)) u.1
      (calls.flatMap AppendCall.payloads) := by
    rcases hend with hsync | hclose
    · exact syncThrough_ok ha hsync
    · exact close_ok ha hclose
  obtain ⟨i, k, hs⟩ := hwritten
  obtain ⟨reader, hr, hpos⟩ := replay_open crc (contentOf w path) extra
  obtain ⟨reader', hr', hstate, -⟩ := replay_eq_plainScan crc (contentOf u.1 path) 0 extra'
  rw [JournalReader.seekTo_zero] at hr'
  have hscan := plainScan_reopened crc file (calls.flatMap AppendCall.payloads) k ha.fits
  rw [← hs.content] at hscan
  refine ⟨recordsOf crc (contentOf w path), reader, reader', hr, ?_, ?_, ?_⟩
  · rw [hpos, hclean, ho.resumed]
    rfl
  · rw [hr', hscan.1, hcalled, length_take_cleanEnd, hrecords]
    rfl
  · rw [hstate, hscan.2]

/-! ### When the journal cannot be looked at -/

/-- The scan of a file ends where it starts. -/
theorem cleanEndOf_eq_zero_iff (file : Bytes) :
    cleanEndOf crc file = 0 ↔ ∃ s, journalHead crc 0 file = .stop s := by
  constructor
  · intro hzero
    obtain ⟨-, hstop⟩ := path_scan crc file
    rw [hzero, List.drop_zero] at hstop
    exact ⟨_, hstop⟩
  · intro hstop
    obtain ⟨s, hs⟩ := hstop
    unfold cleanEndOf
    rw [plainScan_stop crc file 0 s (by rw [List.drop_zero]; exact hs)]

theorem recordsOf_of_stop {file : Bytes} {s : JournalTailState}
    (h : journalHead crc 0 file = .stop s) : recordsOf crc file = [] := by
  unfold recordsOf
  rw [plainScan_stop crc file 0 s (by rw [List.drop_zero]; exact h)]

/-- The stat is answered so, and every other call works. -/
def statPlan (stat : Reply) : Plan PathBuf
  | .stat _, _ => stat
  | _, _ => .ok 0

theorem openCreate_statPlan (path : PathBuf) (stat : Reply) (w : World PathBuf) :
    ∃ i w', Io.openCreate (statPlan stat) path w = (.ok i, w') := by
  unfold Io.openCreate
  cases hname : w.disk.names path with
  | some i => exact ⟨i, _, rfl⟩
  | none => exact ⟨w.disk.next, _, rfl⟩

theorem cut_statPlan (stat : Reply) (i n : ℕ) (w : World PathBuf) :
    ∃ w', (do
      Io.setLen (statPlan stat) i n
      Io.fence (statPlan stat) i : JournalIo Unit) w = (.ok (), w') := ⟨_, rfl⟩

theorem resumeBuffer_statPlan (stat : Reply) (geo : Geometry) (path : PathBuf) (i fileLen : ℕ)
    (w : World PathBuf) :
    ∃ lb w', resumeBuffer (statPlan stat) geo path i fileLen Resume.empty w = (.ok lb, w') := by
  have halloc : Io.alloc (statPlan stat) w = (.ok (), Io.World.tick w w.disk) := rfl
  have hcut : ∀ v, ∃ w', cutDirect (statPlan stat) i geo.sectorSize fileLen Resume.empty v =
      (.ok (), w') := by
    intro v
    unfold cutDirect
    simp only [Resume.empty, Resume.tailHasData, Nat.zero_mod, Nat.sub_zero, gt_iff_lt,
      Nat.lt_irrefl, if_false, Bool.false_eq_true, reduceIte]
    split
    · exact cut_statPlan stat i 0 v
    · exact ⟨v, rfl⟩
  obtain ⟨w1, hcut⟩ := hcut (Io.World.tick w w.disk)
  unfold resumeBuffer
  rw [Prog.bind_run halloc]
  dsimp only
  rw [Prog.bind_run hcut]
  exact ⟨_, w1, rfl⟩

/-- A blind open returns, for one. -/
theorem openWithOptions_statPlan (crc : Crc) (dev : Device) {options : JournalOptions}
    (path : PathBuf) (w : World PathBuf) {stat : Reply} (hblind : Blind options stat) :
    ∃ h w', openWithOptions crc (statPlan stat) dev options path w = (.ok h, w') := by
  obtain ⟨hdirect, e, n, rfl⟩ := hblind
  have hthere : pathExists (statPlan (.fail e n)) path w =
      (.ok false, Io.World.tick w w.disk) := rfl
  have hresume : resumePoint crc (statPlan (.fail e n)) (!false) path (Io.World.tick w w.disk) =
      (.ok Resume.empty, Io.World.tick w w.disk) := rfl
  obtain ⟨i, w1, hopen⟩ := openCreate_statPlan path (.fail e n)
    (Io.World.tick w w.disk)
  have hlen : Io.len (statPlan (.fail e n)) i w1 =
      (.ok (w1.disk.data i).length, Io.World.tick w1 w1.disk) := rfl
  unfold openWithOptions openDirect
  rw [if_pos hdirect, Prog.bind_run hthere, Prog.bind_run hresume, Prog.bind_run hopen,
    Prog.bind_run hlen]
  split
  · obtain ⟨lb, w2, hbuf⟩ := resumeBuffer_statPlan (.fail e n)
      (dev.geometry options.logBufferKib) path i (w1.disk.data i).length
      (Io.World.tick w1 w1.disk)
    rw [Prog.bind_run hbuf]
    exact ⟨_, w2, rfl⟩
  · split
    · exact ⟨_, _, rfl⟩
    · exact ⟨_, _, rfl⟩

/-- It forgets what the scan would have found. -/
theorem stop_of_reopensThenAppends {dev : Device} {options : JournalOptions}
    {w : World PathBuf} {stat : Reply} (h : ReopensThenAppends crc dev options path w stat)
    (hblind : Blind options stat) : ∃ s, journalHead crc 0 (contentOf w path) = .stop s := by
  obtain ⟨hd, w1, hopen⟩ := openWithOptions_statPlan crc dev path w hblind
  have ho : Opened crc [] path w1 hd := openWithOptions_blind hblind hopen
  obtain ⟨records, reader, -, hr, hnext, -⟩ := h (statPlan stat) w1 hd [] [] (w1, hd) _ rfl hopen
    rfl (Or.inr ho.close) (fun _ => 0) (fun _ => 0)
  obtain ⟨reader', hr', hpos⟩ := replay_open crc (contentOf w path) fun _ => 0
  rw [hr] at hr'
  cases hr'
  apply (cleanEndOf_eq_zero_iff (contentOf w path)).mp
  rw [← hpos, ← hnext, ho.resumed]
  exact cleanEndOf_nil crc

/-- Reopen, then append: it holds of every open but a blind one of a journal that has something
at its start. -/
theorem reopen_then_append_iff (crc : Crc) (dev : Device) (options : JournalOptions)
    (path : PathBuf) (w : World PathBuf) (stat : Reply) :
    ReopensThenAppends crc dev options path w stat ↔
      (Blind options stat → ∃ s, journalHead crc 0 (contentOf w path) = .stop s) := by
  constructor
  · exact stop_of_reopensThenAppends
  · intro hcond plan w1 h calls lsns t u hstat hopen hcalls hend extra extra'
    by_cases hblind : Blind options stat
    · obtain ⟨s, hs⟩ := hcond hblind
      rw [← hstat] at hblind
      have hnil : journalHead crc 0 [] = .stop .cleanEnd := rfl
      refine (openWithOptions_blind hblind hopen).appended hcalls hend ?_ ?_ extra extra'
      · rw [recordsOf_of_stop hs, recordsOf_of_stop hnil]
      · rw [(cleanEndOf_eq_zero_iff _).mpr ⟨s, hs⟩, cleanEndOf_nil]
    · rw [← hstat] at hblind
      exact (openWithOptions_ok hblind hopen).appended hcalls hend rfl rfl extra extra'

/-! ### A torn tail, and a stat that fails -/

/-- Sectors of 512 bytes, Direct IO accepted. -/
def sectorDevice : Device := ⟨true, 512, ⟨9, rfl⟩, by decide⟩

/-- A journal of one record with a torn one behind it. -/
def tornJournal : World PathBuf :=
  ⟨soloDisk (framesBytes castagnoli [[7]] ++ [70, 83, 89]), 0, []⟩

/-- Opened in Direct mode with slots of one sector. -/
def tornOpen : Except IoError JournalHandle × World PathBuf :=
  openWithOptions castagnoli calm sectorDevice ⟨true, 0⟩ oddJournal tornJournal

def twoCalls : List AppendCall := [.append [8], .appendBatch [[9]]]

/-- The LSNs of two calls behind the open, and what a sync of them answers. -/
def afterOpen (h : JournalHandle) : Except IoError (List ℕ) × ℕ × Except IoError Unit :=
  let run := runCalls castagnoli calm twoCalls (tornOpen.2, h)
  (run.1, run.2.2.nextLsn, (syncThrough calm 39 run.2).1)

theorem run_tornJournal :
    ∃ h, tornOpen.1 = .ok h ∧ afterOpen h = (.ok [26, 39], 39, .ok ()) := by
  have hrun : tornOpen.1.map afterOpen = .ok (.ok [26, 39], 39, .ok ()) := by decide +kernel
  cases hopen : tornOpen.1 with
  | error e =>
    rw [hopen] at hrun
    cases hrun
  | ok h =>
    rw [hopen] at hrun
    exact ⟨h, rfl, Except.ok.inj hrun⟩

theorem recordsOf_tornJournal :
    recordsOf castagnoli (framesBytes castagnoli [[7]] ++ [70, 83, 89]) = [⟨0, [7]⟩] := by
  decide +kernel

theorem reopen_then_append_iff_torn_tail :
    ∃ h w1 t u reader reader',
      openWithOptions castagnoli calm sectorDevice ⟨true, 0⟩ oddJournal tornJournal =
        (.ok h, w1) ∧
      runCalls castagnoli calm twoCalls (w1, h) = (.ok [26, 39], t) ∧
      syncThrough calm t.2.nextLsn t = (.ok (), u) ∧
      replay castagnoli (shortReads fun _ => 0)
        (JournalReader.open (contentOf tornJournal oddJournal)) = some (.ok [⟨0, [7]⟩], reader) ∧
      replay castagnoli (shortReads fun _ => 0) (JournalReader.open (contentOf u.1 oddJournal)) =
        some (.ok [⟨0, [7]⟩, ⟨13, [8]⟩, ⟨26, [9]⟩], reader') ∧
      reader'.tailState = .cleanEnd := by
  obtain ⟨h, hopened, hafter⟩ := run_tornJournal
  unfold afterOpen at hafter
  obtain ⟨hlsns, hrest⟩ := Prod.mk.inj hafter
  obtain ⟨hnext, hsynced⟩ := Prod.mk.inj hrest
  have hopen := Prog.run_of_fst hopened
  have hrun := Prog.run_of_fst hlsns
  have hsync := Prog.run_of_fst hsynced
  rw [← hnext] at hsync
  have hpromise := (reopen_then_append_iff castagnoli sectorDevice ⟨true, 0⟩ oddJournal
    tornJournal (.ok 0)).mpr fun hblind => by
      obtain ⟨-, e, n, hfail⟩ := hblind
      cases hfail
  obtain ⟨records, reader, reader', hold, -, hnew, hstate⟩ :=
    hpromise calm tornOpen.2 h twoCalls [26, 39] _ _ rfl hopen hrun (Or.inl hsync)
      (fun _ => 0) fun _ => 0
  have hcontent : contentOf tornJournal oddJournal = framesBytes castagnoli [[7]] ++ [70, 83, 89] :=
    (stands_solo _).content
  obtain ⟨reader0, hscan, -⟩ := replay_open castagnoli (contentOf tornJournal oddJournal)
    fun _ => 0
  rw [hold] at hscan
  obtain ⟨hrecords, -⟩ := Prod.mk.inj (Option.some.inj hscan)
  have hrecords := Except.ok.inj hrecords
  have hcalls : [⟨0, [7]⟩] ++ recordsOfCalls twoCalls [26, 39] =
      [⟨0, [7]⟩, ⟨13, [8]⟩, ⟨26, [9]⟩] := by decide
  rw [hcontent, recordsOf_tornJournal] at hrecords
  subst hrecords
  rw [hcalls] at hnew
  exact ⟨h, _, _, _, reader, reader', hopen, hrun, hsync, hold, hnew, hstate⟩

/-- A journal of two records. -/
def twoRecords : World PathBuf := ⟨soloDisk (framesBytes castagnoli [[7], [8]]), 0, []⟩

def statFailure : IoError := ⟨.other, "Input/output error (os error 5)"⟩

/-- They are gone when the stat of a Direct open fails. -/
theorem blind_open_forgets :
    ¬ ReopensThenAppends castagnoli sectorDevice ⟨true, 0⟩ oddJournal twoRecords
      (.fail statFailure 0) := by
  intro h
  obtain ⟨s, hs⟩ := stop_of_reopensThenAppends h ⟨rfl, statFailure, 0, rfl⟩
  have hcontent : contentOf twoRecords oddJournal = framesBytes castagnoli [[7], [8]] :=
    (stands_solo _).content
  rw [hcontent, framesBytes_cons, journalHead_frame castagnoli 0 [7] _ (by decide)] at hs
  cases hs

end Fsys.Journal
