import Fsys.Journal.Handle

/-!
# One caller of the log buffer

What a handle does with its log buffer, one call after the other, is a run of
the concurrent system in which thread 0 does everything. So the invariant of
that system holds behind every call that returns.
-/

namespace Fsys.Journal
open Fsys.Base

variable {crc : Crc} {plan : Plan PathBuf} {geo : Geometry}

/-- The system as one caller sees it: thread 0 stands at `pc`, the others are idle, and the
file is number `file` of the directory. -/
structure Solo (s : LogSys) (b : LogState) (w : World PathBuf) (file : ℕ) (pc : Pc) : Prop where
  buf : s.buf = b
  file : s.file = w.disk.data file
  poison : s.poison = none
  here : s.pc 0 = pc
  others : ∀ t, t ≠ 0 → s.pc t = .idle

theorem Solo.idle {s : LogSys} {b : LogState} {w : World PathBuf} {file : ℕ}
    (h : Solo s b w file .idle) (t : Tid) : s.pc t = .idle := by
  by_cases ht : t = 0
  · rw [ht, h.here]
  · exact h.others t ht

theorem Solo.of_disk {s : LogSys} {b : LogState} {w w' : World PathBuf} {file : ℕ} {pc : Pc}
    (h : Solo s b w file pc) (hd : w'.disk = w.disk) : Solo s b w' file pc :=
  ⟨h.buf, by rw [hd, h.file], h.poison, h.here, h.others⟩

/-- A step of thread 0. -/
theorem Solo.step {s s' : LogSys} {b b' : LogState} {w w' : World PathBuf} {file : ℕ} {pc pc' : Pc}
    (h : Solo s b w file pc) (hpc : s'.pc = Function.update s.pc 0 pc') (hbuf : s'.buf = b')
    (hfile : s'.file = w'.disk.data file) (hpoison : s'.poison = s.poison) :
    Solo s' b' w' file pc' where
  buf := hbuf
  file := hfile
  poison := hpoison.trans h.poison
  here := by rw [hpc, Function.update_self]
  others t ht := by rw [hpc, Function.update_of_ne ht, h.others t ht]

/-! ### Programs of the handle -/

/-- A call that poisons when it fails has the effect of the call. -/
theorem poisoning_ok {α : Type} {m : JournalIo α} {a : α} {w : World PathBuf}
    {h : JournalHandle} {s : World PathBuf × JournalHandle}
    (hr : poisoning m (w, h) = (.ok a, s)) : m w = (.ok a, s.1) ∧ s.2 = h := by
  obtain ⟨r, t, hm, hr⟩ := Prog.bind_ok hr
  cases hm
  cases hres : (m w).1 with
  | ok b =>
    have hr' : (pure b : HandleIo α) ((m w).2, h) = (.ok a, s) := by
      have hcall : (call m (w, h)).1 = .ok b := hres
      rw [hcall] at hr
      exact hr
    obtain ⟨rfl, rfl⟩ := Prog.pure_ok hr'
    exact ⟨Prod.ext hres rfl, rfl⟩
  | error e =>
    have hcall : (call m (w, h)).1 = .error e := hres
    rw [hcall] at hr
    cases hr

/-- The world of a write that returned. -/
theorem poisoning_write_ok {i pos : ℕ} {bytes : Bytes} {w : World PathBuf} {h : JournalHandle}
    {s : World PathBuf × JournalHandle}
    (hr : poisoning (Io.writeAt plan i pos bytes) (w, h) = (.ok (), s)) :
    s.1.disk = w.disk.setData i (overlay (w.disk.data i) pos bytes) ∧ s.2 = h := by
  obtain ⟨hm, hh⟩ := poisoning_ok hr
  exact ⟨Io.writeAt_ok hm, hh⟩

theorem allocError_disk {r : Option IoError} {w : World PathBuf} {h : JournalHandle}
    {s : World PathBuf × JournalHandle} (hr : allocError plan (w, h) = (.ok r, s)) :
    s.1.disk = w.disk ∧ s.2 = h := by
  obtain ⟨a, t, hm, hr⟩ := Prog.bind_ok hr
  cases hm
  have hd : (Io.alloc plan w).2.disk = w.disk := Io.alloc_disk rfl
  cases hres : (call (Io.alloc plan) (w, h)).1 with
  | ok u =>
    rw [hres] at hr
    obtain ⟨-, rfl⟩ := Prog.pure_ok hr
    exact ⟨hd, rfl⟩
  | error e =>
    rw [hres] at hr
    obtain ⟨-, rfl⟩ := Prog.pure_ok hr
    exact ⟨hd, rfl⟩

/-- The handle with this state of its log buffer. -/
def JournalHandle.withBuffer (h : JournalHandle) (geo : Geometry) (b : LogState) : JournalHandle :=
  { h with logBuffer := some ⟨geo, b⟩ }

/-! ### `append_frame` -/

theorem next_land_rotating {s : LogSys} {t : Tid} {payload : Bytes} {frame : Option Bytes}
    {frameSize : ℕ} {sw : SlotWrite} (h : s.pc t = .rotating payload frame frameSize sw) :
    s.next geo crc (.land t .done) =
      some { s.setPc t (.rotated payload frame frameSize sw (.ok ())) with
        file := overlay s.file sw.oldFlushPos ((s.buf.slots sw.oldIdx).take sw.writeLen) } := by
  simp only [LogSys.next, h, WriteOutcome.result, WriteOutcome.file]

theorem next_finish_rotated {s : LogSys} {t : Tid} {payload : Bytes} {frame : Option Bytes}
    {frameSize : ℕ} {sw : SlotWrite} (h : s.pc t = .rotated payload frame frameSize sw (.ok ())) :
    s.next geo crc (.finish t) =
      some { s.setPc t (.append payload frame frameSize) with buf := s.buf.rotateEnd sw } := by
  simp only [LogSys.next, h, LogSys.finishRotate]

theorem next_land_oversizing {s : LogSys} {t : Tid} {payload : Bytes} {sw : ScratchWrite}
    (h : s.pc t = .oversizing payload sw) :
    s.next geo crc (.land t .done) =
      some { s.setPc t (.oversized payload sw (.ok ())) with
        file := overlay s.file sw.startPos sw.scratch } := by
  simp only [LogSys.next, h, WriteOutcome.result, WriteOutcome.file]

theorem next_finish_oversized {s : LogSys} {t : Tid} {payload : Bytes} {sw : ScratchWrite}
    (h : s.pc t = .oversized payload sw (.ok ())) :
    s.next geo crc (.finish t) = some
      { s.respond t (.appended t sw.recordStart (sw.recordStart + sw.frameSize) [payload]) with
        buf := { s.buf with flushing := none } } := by
  simp only [LogSys.next, h, LogSys.finishOversize]

/-- The file behind a flush of the active slot. -/
def LogState.flushedFile (geo : Geometry) (b : LogState) (file : Bytes) : Bytes :=
  match b.partialWrite geo with
  | none => file
  | some (pos, data) => overlay file pos data

theorem lockFlush_done {s : LogSys} {t : Tid} (h : s.poison = none) :
    s.lockFlush geo t .done = { s.respond t (.flushed t s.buf.nextLsn) with
      file := s.buf.flushedFile geo s.file } := by
  unfold LogSys.lockFlush LogState.flushedFile
  rw [h]
  cases s.buf.partialWrite geo with
  | none => rfl
  | some d => rfl

/-- Two actions whose writes succeed. -/
theorem reach_two {s s1 s2 : LogSys} {a b : LogAction} (h1 : s.next geo crc a = some s1)
    (h2 : s1.next geo crc b = some s2) (ha : a.Succeeds) (hb : b.Succeeds) :
    LogReach geo crc s s2 :=
  Reach.step (Reach.step Reach.start ha h1) hb h2

/-- The write of a rotated slot lands and the thread is back in the loop. -/
theorem Solo.rotated {s : LogSys} {b : LogState} {w : World PathBuf} {file frameSize : ℕ}
    {payload : Bytes} {frame : Option Bytes} {sw : SlotWrite}
    (h : Solo s b w file (.rotating payload frame frameSize sw)) (geo : Geometry) (crc : Crc)
    (w' : World PathBuf) (hd : w'.disk.data file =
      overlay (w.disk.data file) sw.oldFlushPos ((b.slots sw.oldIdx).take sw.writeLen)) :
    ∃ s', LogReach geo crc s s' ∧
      Solo s' (b.rotateEnd sw) w' file (.append payload frame frameSize) ∧ s'.log = s.log := by
  rw [← h.file, ← h.buf] at hd
  have hs : Solo { s.setPc 0 (.rotated payload frame frameSize sw (.ok ())) with
      file := overlay s.file sw.oldFlushPos ((s.buf.slots sw.oldIdx).take sw.writeLen) }
      s.buf w' file (.rotated payload frame frameSize sw (.ok ())) :=
    h.step rfl rfl hd.symm rfl
  refine ⟨_, reach_two (next_land_rotating h.here) (next_finish_rotated hs.here) trivial trivial,
    ?_, rfl⟩
  rw [← h.buf]
  exact hs.step rfl rfl hd.symm rfl

/-- The write of an oversize record lands and the record is returned. -/
theorem Solo.oversized {s : LogSys} {b : LogState} {w : World PathBuf} {file : ℕ}
    {payload : Bytes} {sw : ScratchWrite} (h : Solo s b w file (.oversizing payload sw))
    (geo : Geometry) (crc : Crc) (w' : World PathBuf)
    (hd : w'.disk.data file = overlay (w.disk.data file) sw.startPos sw.scratch) :
    ∃ s', LogReach geo crc s s' ∧ Solo s' { b with flushing := none } w' file .idle ∧
      s'.log = s.log := by
  rw [← h.file] at hd
  have hs : Solo { s.setPc 0 (.oversized payload sw (.ok ())) with
      file := overlay s.file sw.startPos sw.scratch } s.buf w' file
      (.oversized payload sw (.ok ())) := h.step rfl rfl hd.symm rfl
  refine ⟨_, reach_two (next_land_oversizing h.here) (next_finish_oversized hs.here) trivial
    trivial, ?_, rfl⟩
  rw [← h.buf]
  exact hs.step rfl rfl hd.symm rfl

/-- The loop, once it returns, is a run of thread 0 that assigns the record its range. -/
theorem appendLoop_ok (payload : Bytes) (frame : Option Bytes) (frameSize start stop fuel : ℕ)
    (s : LogSys) (b : LogState) (w : World PathBuf) (h : JournalHandle)
    (t : World PathBuf × JournalHandle) (hpoison : h.poison = none)
    (hs : Solo s b w h.file (.append payload frame frameSize))
    (hr : appendLoop crc plan geo payload frame frameSize fuel b (w, h) =
      (.ok (start, stop), t)) :
    ∃ s', LogReach geo crc s s' ∧ Solo s' s'.buf t.1 h.file .idle ∧
      t.2 = h.withBuffer geo s'.buf ∧ t.1.disk.names = w.disk.names ∧
      s'.log = s.log ++ [⟨start, stop, [payload]⟩] := by
  induction fuel generalizing s b w h with
  | zero => cases hr
  | succ fuel ih =>
    obtain ⟨alloc, ⟨w1, h1⟩, halloc, hr⟩ := Prog.bind_ok hr
    obtain ⟨hd, hh⟩ := allocError_disk halloc
    dsimp only at hd hh
    subst h1
    have hs1 := hs.of_disk hd
    obtain ⟨h2, ⟨w2, h3⟩, hget, hr⟩ := Prog.bind_ok hr
    cases hget
    have hlock : s.next geo crc (.lockAppend 0 alloc) =
        some (s.lockAppend geo crc 0 payload frame frameSize alloc) := by
      simp only [LogSys.next, hs.here]
    have hpass : s.buf.appendPass geo crc s.poison payload frame frameSize alloc =
        b.appendPass geo crc h.poison payload frame frameSize alloc := by
      rw [hs.buf, hs.poison, hpoison]
    have htrue : LogAction.Succeeds (.lockAppend 0 alloc) := trivial
    unfold LogSys.lockAppend at hlock
    rw [hpass] at hlock
    cases hp : b.appendPass geo crc h.poison payload frame frameSize alloc with
    | fail e =>
      rw [hp] at hr
      cases hr
    | wait =>
      rw [hp] at hr
      cases hr
    | fits b' start' stop' =>
      rw [hp] at hr hlock
      cases hr
      refine ⟨_, Reach.step Reach.start htrue hlock, ?_, rfl, by rw [hd], rfl⟩
      exact hs1.step rfl rfl hs1.file rfl
    | rotate b' sw =>
      rw [hp] at hr hlock
      obtain ⟨⟨⟩, t2, hset, hr⟩ := Prog.bind_ok hr
      cases hset
      obtain ⟨⟨⟩, ⟨w3, h3⟩, hwrite, hr⟩ := Prog.bind_ok hr
      obtain ⟨hd3, hh3⟩ := poisoning_write_ok hwrite
      dsimp only at hd3 hh3
      subst h3
      have hs2 : Solo { s.setPc 0 (.rotating payload frame frameSize sw) with buf := b' } b' w1
          h.file (.rotating payload frame frameSize sw) := hs1.step rfl rfl hs1.file rfl
      obtain ⟨s3, hreach3, hs3, hlog3⟩ :=
        hs2.rotated geo crc w3 (by rw [hd3, Disk.data_setData])
      obtain ⟨s', hreach, hsolo, hhandle, hnames, hlog⟩ :=
        ih s3 (b'.rotateEnd sw) w3 (h.withBuffer geo (b'.rotateEnd sw)) hpoison hs3 hr
      refine ⟨s', ((Reach.step Reach.start htrue hlock).trans hreach3).trans hreach, hsolo,
        hhandle, ?_, ?_⟩
      · rw [hnames, hd3, ← hd]
        rfl
      · rw [hlog, hlog3]
        rfl
    | oversize b' sw =>
      rw [hp] at hr hlock
      obtain ⟨⟨⟩, t2, hset, hr⟩ := Prog.bind_ok hr
      cases hset
      obtain ⟨⟨⟩, ⟨w3, h3⟩, hwrite, hr⟩ := Prog.bind_ok hr
      obtain ⟨hd3, hh3⟩ := poisoning_write_ok hwrite
      dsimp only at hd3 hh3
      subst h3
      obtain ⟨hpair, rfl⟩ := Prog.pure_ok hr
      cases hpair
      have hs2 : Solo { s.setPc 0 (.oversizing payload sw) with
          buf := b'
          log := s.log ++ [⟨sw.recordStart, sw.recordStart + sw.frameSize, [payload]⟩] } b' w1
          h.file (.oversizing payload sw) := hs1.step rfl rfl hs1.file rfl
      obtain ⟨s3, hreach3, hs3, hlog3⟩ :=
        hs2.oversized geo crc w3 (by rw [hd3, Disk.data_setData])
      refine ⟨s3, (Reach.step Reach.start htrue hlock).trans hreach3, ?_, ?_, ?_, hlog3⟩
      · rw [hs3.buf]
        exact hs3
      · rw [hs3.buf]
        rfl
      · rw [hd3, ← hd]
        rfl

/-! ### The log behind a handle -/

/-- The log buffer of the handle and its file hold `resume` and the frames of `ps`, and
`resume` has been on disk since the open. -/
structure BufferAt (crc : Crc) (resume : Bytes) (k : ℕ) (w : World PathBuf) (h : JournalHandle)
    (lb : LogBuffer) (ps : List Bytes) (s : LogSys) : Prop where
  buffer : h.logBuffer = some lb
  solo : Solo s lb.state w h.file .idle
  inv : LogInv lb.geo crc resume (zeros k) s
  payloads : s.payloads = ps
  flushed : resume.length ∈ s.flushedEnds

def HasLog (crc : Crc) (resume : Bytes) (w : World PathBuf) (h : JournalHandle)
    (ps : List Bytes) : Prop := ∃ k lb s, BufferAt crc resume k w h lb ps s

theorem LogInv.nextLsn_eq {s : LogSys} {resume junk : Bytes} (h : LogInv geo crc resume junk s) :
    s.buf.nextLsn = resume.length + framesLen s.payloads := by
  rw [← h.buf.len_eq]
  unfold LogSys.logical
  rw [List.length_append, length_framesBytes]

theorem Tiles.last_stop {start stop : ℕ} {log : List Assigned} {a : Assigned}
    (h : Tiles start (log ++ [a]) stop) : a.stop = stop := by
  induction log generalizing start with
  | nil => exact h.2.2
  | cons c log ih => exact ih h.2.2

theorem flushedEnds_reach {s s' : LogSys} (hr : LogReach geo crc s s') (x : ℕ)
    (hx : x ∈ s.flushedEnds) : x ∈ s'.flushedEnds := by
  obtain ⟨-, rs, hresp⟩ := hr.extends
  unfold LogSys.flushedEnds
  rw [hresp, List.filterMap_append]
  exact List.mem_append_left _ hx

/-- A run that assigns one more range. -/
theorem BufferAt.reach {resume : Bytes} {k : ℕ} {w w' : World PathBuf} {h : JournalHandle}
    {lb : LogBuffer} {ps : List Bytes} {s s' : LogSys} (hb : BufferAt crc resume k w h lb ps s)
    (hr : LogReach lb.geo crc s s') (hs : Solo s' s'.buf w' h.file .idle) (a : Assigned)
    (hlog : s'.log = s.log ++ [a]) :
    HasLog crc resume w' (h.withBuffer lb.geo s'.buf) (ps ++ a.payloads) ∧
      a.stop = resume.length + framesLen (ps ++ a.payloads) := by
  have hinv := hb.inv.reach hr
  have hpay : s'.payloads = ps ++ a.payloads := by
    rw [← hb.payloads]
    unfold LogSys.payloads
    rw [hlog, List.flatMap_append, List.flatMap_singleton]
  refine ⟨⟨k, ⟨lb.geo, s'.buf⟩, s', rfl, hs, hinv, hpay, flushedEnds_reach hr _ hb.flushed⟩, ?_⟩
  have htiles := hinv.tiles
  rw [hlog] at htiles
  rw [htiles.last_stop, hinv.nextLsn_eq, hpay]

theorem appendFrame_ok {resume : Bytes} {w : World PathBuf} {h : JournalHandle}
    {lb : LogBuffer} {ps : List Bytes} {payload : Bytes} {start stop : ℕ}
    {t : World PathBuf × JournalHandle} (hb : HasLog crc resume w h ps)
    (hlb : h.logBuffer = some lb) (hpoison : h.poison = none)
    (hr : appendFrame crc plan lb payload (w, h) = (.ok (start, stop), t)) :
    ∃ b, t.2 = h.withBuffer lb.geo b ∧ t.1.disk.names = w.disk.names ∧
      HasLog crc resume t.1 t.2 (ps ++ [payload]) ∧
      stop = resume.length + framesLen (ps ++ [payload]) := by
  obtain ⟨k, lb', s, hb⟩ := hb
  rw [hb.buffer] at hlb
  cases hlb
  obtain ⟨frameSize, hlen, hr⟩ := Prog.lift_bind_ok hr
  -- the call is made, and the loop runs
  have hloop : ∀ frame, s.callAppend lb.geo crc 0 payload =
        s.setPc 0 (.append payload frame frameSize) →
      appendLoop crc plan lb.geo payload frame frameSize 2 lb.state (w, h) =
        (.ok (start, stop), t) →
      ∃ b, t.2 = h.withBuffer lb.geo b ∧ t.1.disk.names = w.disk.names ∧
        HasLog crc resume t.1 t.2 (ps ++ [payload]) ∧
        stop = resume.length + framesLen (ps ++ [payload]) := by
    intro frame hcall hrun
    have hstep : s.next lb.geo crc (.callAppend 0 payload) =
        some (s.setPc 0 (.append payload frame frameSize)) := by
      simp only [LogSys.next, hb.solo.here, hcall]
    have hs : Solo (s.setPc 0 (.append payload frame frameSize)) lb.state w h.file
        (.append payload frame frameSize) := hb.solo.step rfl hb.solo.buf hb.solo.file rfl
    obtain ⟨s', hreach, hsolo, hh, hnames, hlog⟩ :=
      appendLoop_ok payload frame frameSize start stop 2 _ lb.state w h t hpoison hs hrun
    have htrue : LogAction.Succeeds (.callAppend 0 payload) := trivial
    obtain ⟨hlog', hstop⟩ := hb.reach ((Reach.step Reach.start htrue hstep).trans hreach) hsolo
      ⟨start, stop, [payload]⟩ hlog
    refine ⟨s'.buf, hh, hnames, ?_, hstop⟩
    rw [hh]
    exact hlog'
  split at hr
  · rename_i hsmall
    obtain ⟨frame, henc, hr⟩ := Prog.lift_bind_ok hr
    refine hloop (some frame) ?_ hr
    unfold LogSys.callAppend
    rw [hlen]
    dsimp only
    rw [if_pos hsmall, henc]
  · rename_i hlarge
    refine hloop none ?_ hr
    unfold LogSys.callAppend
    rw [hlen]
    dsimp only
    rw [if_neg hlarge]

end Fsys.Journal
