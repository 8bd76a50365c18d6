import Fsys.Journal.DirectWrites

/-!
# Leaders over the log buffer (src/journal/mod.rs:1090-1320)

Direct mode. The leader of `sync_through` flushes the log buffer, checks the poison, syncs
the file and publishes the frontier its flush returned, while other threads append, rotate
slots and flush. Writes and fsyncs may fail. The writes that were issued are recorded in
their order, and of every fsync that succeeded what the file held when it started.
-/

namespace Fsys.Journal
open Fsys.Base

variable {geo : Geometry} {crc : Crc} {resume junk : Bytes} {s s' : LogSys}

/-! ### The leader -/

/-- An fsync: the frontier of its leader, what the file held when it started, how many
writes had been issued, and whether an fsync had failed before. -/
structure Fsync where
  frontier : ℕ
  content : Bytes
  issued : ℕ
  retry : Bool

/-- Where the leader stands in `flush_and_sync`, `idle` while `in_flight` is clear. -/
inductive LeadPc where
  | idle
  | flushing (t : Tid)
  | flushed (fr : ℕ)
  | checked (fr : ℕ)
  | syncing (f : Fsync)
  | syncFailed (e : IoError)
  | publishing (fr : ℕ)

/-- The log buffer and the leader of the group commit. `writes` are the writes that were
issued, `fsyncs` the fsyncs that succeeded. -/
structure SyncSys where
  sys : LogSys
  lead : LeadPc
  syncedLsn : ℕ
  writes : List (ℕ × Bytes)
  fsyncs : List Fsync
  fsyncFailed : Bool

inductive SyncAction where
  | log (a : LogAction)
  | lead (t : Tid)
  | checkPoison
  | startFsync
  | fsyncReturns (result : Except IoError Unit)
  | poisonSync
  | publish

namespace SyncSys

/-- The leader takes up what its flush returned. -/
def answer (s : SyncSys) : Response → SyncSys
  | .flushed u stop =>
    match s.lead with
    | .flushing t => if u = t then { s with lead := .flushed stop } else s
    | _ => s
  | .flushFailed u _ =>
    match s.lead with
    | .flushing t => if u = t then { s with lead := .idle } else s
    | _ => s
  | _ => s

/-- A step of the log buffer, with the write it issues and the answer it may bring. -/
def after (geo : Geometry) (s : SyncSys) (a : LogAction) (sys : LogSys) : SyncSys :=
  let s' := { s with sys := sys, writes := s.writes ++ (s.sys.issued geo a).toList }
  match sys.responses[s.sys.responses.length]? with
  | none => s'
  | some r => s'.answer r

/-- One step. A caller that finds `in_flight` set is no leader. -/
def next (geo : Geometry) (crc : Crc) (s : SyncSys) : SyncAction → Option SyncSys
  | .log a => (s.sys.next geo crc a).map (s.after geo a)
  | .lead t =>
    match s.lead with
    | .idle =>
      if s.sys.poison.isSome then none
      else (s.sys.next geo crc (.callFlush t)).map fun sys =>
        { s with sys := sys, lead := .flushing t }
    | _ => none
  | .checkPoison =>
    match s.lead with
    | .flushed fr => some { s with lead := if s.sys.poison.isSome then .idle else .checked fr }
    | _ => none
  | .startFsync =>
    match s.lead with
    | .checked fr =>
      some { s with lead := .syncing ⟨fr, s.sys.file, s.writes.length, s.fsyncFailed⟩ }
    | _ => none
  | .fsyncReturns result =>
    match s.lead with
    | .syncing f =>
      match result with
      | .ok () => some { s with lead := .publishing f.frontier, fsyncs := f :: s.fsyncs }
      | .error e => some { s with lead := .syncFailed e, fsyncFailed := true }
    | _ => none
  | .poisonSync =>
    match s.lead with
    | .syncFailed e =>
      some { s with sys := { s.sys with poison := s.sys.poison.set e }, lead := .idle }
    | _ => none
  | .publish =>
    match s.lead with
    | .publishing fr => some { s with syncedLsn := max s.syncedLsn fr, lead := .idle }
    | _ => none

/-- A handle that was opened at `pos` with `file` on the disk. -/
def start (b : LogState) (file : Bytes) (pos : ℕ) : SyncSys :=
  ⟨LogSys.start b file, .idle, pos, [], [], false⟩

end SyncSys

/-- What the fsync put on the medium is the log below the resume point and its frontier, and
no write since changes it. -/
structure Hardened (crc : Crc) (resume : Bytes) (sys : LogSys) (writes : List (ℕ × Bytes))
    (f : Fsync) : Prop where
  known : f.frontier ∈ sys.flushedEnds
  fresh : f.retry = false
  content : ∀ stop ∈ [resume.length, f.frontier],
    f.content.take stop = (sys.logical crc resume).take stop
  since : ∀ stop ∈ [resume.length, f.frontier], ∀ w ∈ writes.drop f.issued,
    AgreesBelow (sys.logical crc resume) stop w

def LeadPc.Ok (crc : Crc) (resume : Bytes) (s : SyncSys) : LeadPc → Prop
  | .flushed fr => fr ∈ s.sys.flushedEnds
  | .checked fr => fr ∈ s.sys.flushedEnds ∧ s.fsyncFailed = false
  | .syncing f => Hardened crc resume s.sys s.writes f
  | .publishing fr => ∃ f ∈ s.fsyncs, f.frontier = fr
  | _ => True

structure SyncInv (geo : Geometry) (crc : Crc) (resume junk : Bytes) (s : SyncSys) : Prop where
  file : FileInv geo crc resume junk s.sys
  lead : s.lead.Ok crc resume s
  fsyncs : ∀ f ∈ s.fsyncs, Hardened crc resume s.sys s.writes f
  synced : s.syncedLsn = resume.length ∨ ∃ f ∈ s.fsyncs, f.frontier = s.syncedLsn
  writes : ∀ w ∈ s.writes, AgreesBelow (s.sys.logical crc resume) resume.length w
  /-- a failed fsync is followed by nothing but the poison -/
  failed : s.fsyncFailed = true → s.sys.poison.isSome = true ∨ ∃ e, s.lead = .syncFailed e

theorem marks_sub {sys : LogSys} {writes : List (ℕ × Bytes)} {f : Fsync}
    (h : Hardened crc resume sys writes f) {stop : ℕ} (hs : stop ∈ [resume.length, f.frontier]) :
    stop ∈ resume.length :: sys.flushedEnds := by
  rcases List.mem_cons.mp hs with rfl | hs
  · exact List.mem_cons_self
  · rw [List.mem_singleton.mp hs]
    exact List.mem_cons_of_mem _ h.known

section

variable {sys : LogSys} {a : LogAction} {writes : List (ℕ × Bytes)}

/-- The log grew and a write that agrees with it was issued: writes still agree. -/
theorem FileInv.agrees (h : FileInv geo crc resume junk s) (hn : s.next geo crc a = some s')
    {stop : ℕ} (hs : stop ∈ resume.length :: s.flushedEnds) {ws : List (ℕ × Bytes)}
    (hws : ∀ w ∈ ws, AgreesBelow (s.logical crc resume) stop w) (w : ℕ × Bytes)
    (hw : w ∈ ws ++ (s.issued geo a).toList) : AgreesBelow (s'.logical crc resume) stop w := by
  obtain ⟨more, hmore⟩ : ∃ more, s'.logical crc resume = s.logical crc resume ++ more :=
    (next_extends a hn).logical
  obtain ⟨hle, -⟩ := h.ends stop hs
  have hold : AgreesBelow (s.logical crc resume) stop w := by
    rcases List.mem_append.mp hw with hw | hw
    · exact hws w hw
    · exact (h.next a hn).2 w (Option.mem_toList.mp hw) stop hs
  rw [hmore]
  exact hold.grow hle more

theorem Hardened.step {f : Fsync} (h : Hardened crc resume s writes f)
    (hfile : FileInv geo crc resume junk s) (hn : s.next geo crc a = some s') :
    Hardened crc resume s' (writes ++ (s.issued geo a).toList) f := by
  have hext := next_extends a hn
  obtain ⟨more, hmore⟩ : ∃ more, s'.logical crc resume = s.logical crc resume ++ more :=
    hext.logical
  refine ⟨hext.ends h.known, h.fresh, ?_, ?_⟩
  · intro stop hs
    obtain ⟨hle, -⟩ := hfile.ends stop (marks_sub h hs)
    rw [hmore, List.take_append_of_le_length hle]
    exact h.content stop hs
  · intro stop hs w hw
    rw [List.drop_append] at hw
    apply hfile.agrees hn (marks_sub h hs) (h.since stop hs) w
    rcases List.mem_append.mp hw with hw | hw
    · exact List.mem_append_left _ hw
    · exact List.mem_append_right _ (List.mem_of_mem_drop hw)

end

/-- A poisoned journal stays poisoned. -/
theorem next_stays_poisoned (a : LogAction) (hn : s.next geo crc a = some s')
    (hp : s.poison.isSome = true) : s'.poison.isSome = true := by
  cases a with
  | callAppend t payload =>
    simp only [LogSys.next] at hn
    split at hn
    · cases hn
      rcases callAppend_shape geo crc s t payload with ⟨frame, size, heq⟩ | ⟨-, e, heq⟩
      · rw [heq]
        exact hp
      · rw [heq]
        exact hp
    · cases hn
  | lockAppend t alloc =>
    simp only [LogSys.next] at hn
    split at hn
    · cases hn
      unfold LogSys.lockAppend
      split <;> exact hp
    · cases hn
  | land t outcome =>
    simp only [LogSys.next] at hn
    split at hn
    · cases hn
      exact hp
    · cases hn
      exact hp
    · cases hn
  | finish t =>
    simp only [LogSys.next] at hn
    split at hn
    · cases hn
      unfold LogSys.finishRotate
      split
      · exact hp
      · exact set_isSome s.poison _
    · cases hn
      unfold LogSys.finishOversize
      split
      · exact hp
      · exact set_isSome s.poison _
    · cases hn
  | callBatch t records =>
    simp only [LogSys.next] at hn
    split at hn
    · split at hn
      · cases hn
        unfold LogSys.callBatch
        split <;> exact hp
      · cases hn
    · cases hn
  | callFlush t =>
    simp only [LogSys.next] at hn
    split at hn
    · cases hn
      exact hp
    · cases hn
  | lockFlush t outcome =>
    simp only [LogSys.next] at hn
    split at hn
    · split at hn
      · cases hn
      · cases hn
        unfold LogSys.lockFlush
        obtain ⟨e, he⟩ := Option.isSome_iff_exists.mp hp
        rw [he]
        exact hp
    · cases hn

/-! ### Every step of the system -/

/-- The log buffer steps; the leader stands where it stood, or goes on with a flushed end. -/
theorem SyncInv.log {s s' : SyncSys} (h : SyncInv geo crc resume junk s) {a : LogAction}
    (hn : s.sys.next geo crc a = some s'.sys)
    (hwrites : s'.writes = s.writes ++ (s.sys.issued geo a).toList)
    (hfsyncs : s'.fsyncs = s.fsyncs) (hsynced : s'.syncedLsn = s.syncedLsn)
    (hfailed : s'.fsyncFailed = s.fsyncFailed)
    (hlead : s'.lead = s.lead ∨ (∀ e, s.lead ≠ .syncFailed e) ∧ s'.lead.Ok crc resume s') :
    SyncInv geo crc resume junk s' := by
  have hext := next_extends a hn
  have hhard : ∀ f, Hardened crc resume s.sys s.writes f →
      Hardened crc resume s'.sys s'.writes f := by
    intro f hf
    rw [hwrites]
    exact hf.step h.file hn
  refine ⟨(h.file.next a hn).1, ?_, ?_, ?_, ?_, ?_⟩
  · rcases hlead with hsame | ⟨-, hok⟩
    · have hold := h.lead
      rw [hsame]
      cases hpc : s.lead with
      | flushed fr =>
        rw [hpc] at hold
        exact hext.ends hold
      | checked fr =>
        rw [hpc] at hold
        exact ⟨hext.ends hold.1, hfailed.trans hold.2⟩
      | syncing f =>
        rw [hpc] at hold
        exact hhard f hold
      | publishing fr =>
        rw [hpc] at hold
        obtain ⟨f, hf, hfr⟩ := hold
        exact ⟨f, by rw [hfsyncs]; exact hf, hfr⟩
      | idle | flushing t | syncFailed e => trivial
    · exact hok
  · intro f hf
    rw [hfsyncs] at hf
    exact hhard f (h.fsyncs f hf)
  · rw [hsynced, hfsyncs]
    exact h.synced
  · intro w hw
    rw [hwrites] at hw
    exact h.file.agrees hn List.mem_cons_self h.writes w hw
  · intro hf
    rw [hfailed] at hf
    rcases h.failed hf with hp | ⟨e, he⟩
    · exact Or.inl (next_stays_poisoned a hn hp)
    · rcases hlead with hsame | ⟨hno, -⟩
      · exact Or.inr ⟨e, hsame.trans he⟩
      · exact absurd he (hno e)

/-- An answer is for the leader that waits for its flush, or for nobody. -/
theorem answer_cases (s : SyncSys) (r : Response) : s.answer r = s ∨
    ∃ t pc, s.lead = .flushing t ∧ s.answer r = { s with lead := pc } ∧
      (pc = .idle ∨ ∃ u stop, r = .flushed u stop ∧ pc = .flushed stop) := by
  cases r with
  | flushed u stop =>
    unfold SyncSys.answer
    dsimp only
    split
    · rename_i t hlead
      split
      · exact Or.inr ⟨t, _, hlead, rfl, Or.inr ⟨u, stop, rfl, rfl⟩⟩
      · exact Or.inl rfl
    · exact Or.inl rfl
  | flushFailed u e =>
    unfold SyncSys.answer
    dsimp only
    split
    · rename_i t hlead
      split
      · exact Or.inr ⟨t, _, hlead, rfl, Or.inl rfl⟩
      · exact Or.inl rfl
    · exact Or.inl rfl
  | appended | appendFailed | batchNotFitting => exact Or.inl rfl

theorem SyncInv.after {s : SyncSys} (h : SyncInv geo crc resume junk s) {a : LogAction}
    {sys : LogSys} (hn : s.sys.next geo crc a = some sys) :
    SyncInv geo crc resume junk (s.after geo a sys) := by
  have hsame : SyncInv geo crc resume junk
      { s with sys := sys, writes := s.writes ++ (s.sys.issued geo a).toList } :=
    h.log hn rfl rfl rfl rfl (Or.inl rfl)
  unfold SyncSys.after
  dsimp only
  cases hr : sys.responses[s.sys.responses.length]? with
  | none => exact hsame
  | some r =>
    dsimp only
    rcases answer_cases { s with sys := sys, writes := s.writes ++ (s.sys.issued geo a).toList } r
      with heq | ⟨t, pc, ht, heq, hpc⟩
    · rw [heq]
      exact hsame
    · rw [heq]
      have hno : ∀ e, s.lead ≠ .syncFailed e := by
        intro e he
        have hlead : s.lead = .flushing t := ht
        rw [hlead] at he
        cases he
      refine h.log hn rfl rfl rfl rfl (Or.inr ⟨hno, ?_⟩)
      rcases hpc with rfl | ⟨u, stop, rfl, rfl⟩
      · trivial
      · exact List.mem_filterMap.mpr ⟨_, List.mem_of_getElem? hr, rfl⟩

/-- The leader moves on, nothing else happens. -/
theorem SyncInv.goto {s : SyncSys} (h : SyncInv geo crc resume junk s) (pc : LeadPc)
    (hpc : pc.Ok crc resume s) (hno : ∀ e, s.lead ≠ .syncFailed e) :
    SyncInv geo crc resume junk { s with lead := pc } := by
  refine ⟨h.file, ?_, h.fsyncs, h.synced, h.writes, ?_⟩
  · cases pc with
    | idle | flushing t | flushed fr | checked fr | syncing f | syncFailed e | publishing fr =>
      exact hpc
  · intro hf
    rcases h.failed hf with hp | ⟨e, he⟩
    · exact Or.inl hp
    · exact absurd he (hno e)

/-- An fsync that starts takes up the file below every flushed end. -/
theorem FileInv.hardened (h : FileInv geo crc resume junk s) (writes : List (ℕ × Bytes)) {fr : ℕ}
    (hfr : fr ∈ s.flushedEnds) :
    Hardened crc resume s writes ⟨fr, s.file, writes.length, false⟩ := by
  refine ⟨hfr, rfl, ?_, ?_⟩
  · intro stop hs
    have hmem : stop ∈ resume.length :: s.flushedEnds := by
      rcases List.mem_cons.mp hs with rfl | hs
      · exact List.mem_cons_self
      · rw [List.mem_singleton.mp hs]
        exact List.mem_cons_of_mem _ hfr
    exact (h.ends stop hmem).2
  · intro stop hs w hw
    rw [List.drop_length] at hw
    cases hw

theorem FileInv.poison (h : FileInv geo crc resume junk s) (e : IoError) :
    FileInv geo crc resume junk { s with poison := s.poison.set e } := by
  refine ⟨h.ends, ?_, ⟨h.fits.log, h.fits.calls⟩⟩
  rcases h.phase with hinv | hstill
  · exact Or.inl hinv
  · exact Or.inr ⟨hstill.one, hstill.failed, Or.inl (set_isSome s.poison e)⟩

theorem SyncInv.next {s s' : SyncSys} (h : SyncInv geo crc resume junk s) (a : SyncAction)
    (hn : s.next geo crc a = some s') : SyncInv geo crc resume junk s' := by
  have hother : ∀ pc, s.lead = pc → (∀ e, pc ≠ .syncFailed e) → ∀ e, s.lead ≠ .syncFailed e := by
    intro pc hpc hne e
    rw [hpc]
    exact hne e
  cases a with
  | log a =>
    simp only [SyncSys.next] at hn
    obtain ⟨sys, hsys, rfl⟩ := Option.map_eq_some_iff.mp hn
    exact h.after hsys
  | lead t =>
    simp only [SyncSys.next] at hn
    split at hn
    · rename_i hlead
      split at hn
      · cases hn
      · obtain ⟨sys, hsys, rfl⟩ := Option.map_eq_some_iff.mp hn
        refine h.log hsys ?_ rfl rfl rfl (Or.inr ⟨hother _ hlead nofun, trivial⟩)
        exact (List.append_nil _).symm
    · cases hn
  | checkPoison =>
    simp only [SyncSys.next] at hn
    split at hn
    · rename_i fr hlead
      have hok := h.lead
      rw [hlead] at hok
      cases hn
      apply h.goto _ _ (hother _ hlead nofun)
      split
      · trivial
      · rename_i hp
        refine ⟨hok, ?_⟩
        cases hf : s.fsyncFailed with
        | false => rfl
        | true =>
          rcases h.failed hf with hpoison | ⟨e, he⟩
          · exact absurd hpoison hp
          · rw [hlead] at he
            cases he
    · cases hn
  | startFsync =>
    simp only [SyncSys.next] at hn
    split at hn
    · rename_i fr hlead
      have hok := h.lead
      rw [hlead] at hok
      cases hn
      apply h.goto _ _ (hother _ hlead nofun)
      rw [hok.2]
      exact h.file.hardened s.writes hok.1
    · cases hn
  | fsyncReturns result =>
    simp only [SyncSys.next] at hn
    split at hn
    · rename_i f hlead
      have hok := h.lead
      rw [hlead] at hok
      split at hn
      · cases hn
        refine ⟨h.file, ⟨f, List.mem_cons_self, rfl⟩, ?_, ?_, h.writes, ?_⟩
        · intro g hg
          rcases List.mem_cons.mp hg with rfl | hg
          · exact hok
          · exact h.fsyncs g hg
        · rcases h.synced with hs | ⟨g, hg, hs⟩
          · exact Or.inl hs
          · exact Or.inr ⟨g, List.mem_cons_of_mem f hg, hs⟩
        · intro hf
          rcases h.failed hf with hp | ⟨e, he⟩
          · exact Or.inl hp
          · exact absurd he (hother _ hlead nofun e)
      · cases hn
        exact ⟨h.file, trivial, h.fsyncs, h.synced, h.writes, fun _ => Or.inr ⟨_, rfl⟩⟩
    · cases hn
  | poisonSync =>
    simp only [SyncSys.next] at hn
    split at hn
    · rename_i e hlead
      cases hn
      refine ⟨h.file.poison e, trivial, ?_, h.synced, h.writes, fun _ => Or.inl (set_isSome _ e)⟩
      intro f hf
      have hold := h.fsyncs f hf
      exact ⟨hold.known, hold.fresh, hold.content, hold.since⟩
    · cases hn
  | publish =>
    simp only [SyncSys.next] at hn
    split at hn
    · rename_i fr hlead
      have hok := h.lead
      rw [hlead] at hok
      cases hn
      refine ⟨h.file, trivial, h.fsyncs, ?_, h.writes, ?_⟩
      · rcases Nat.le_total s.syncedLsn fr with hle | hle
        · obtain ⟨f, hf, hfr⟩ := hok
          exact Or.inr ⟨f, hf, by rw [hfr]; exact (Nat.max_eq_right hle).symm⟩
        · have hmax : max s.syncedLsn fr = s.syncedLsn := Nat.max_eq_left hle
          rw [hmax]
          exact h.synced
      · intro hf
        rcases h.failed hf with hp | ⟨e, he⟩
        · exact Or.inl hp
        · exact absurd he (hother _ hlead nofun e)
    · cases hn

theorem syncInv_start (geo : Geometry) (crc : Crc) (resume junk : Bytes) (b : LogState)
    (hb : resumeState geo resume = .ok b) :
    SyncInv geo crc resume junk (SyncSys.start b (resume ++ junk) resume.length) := by
  have hinv : LogInv geo crc resume junk
      ((LogSys.start b (resume ++ junk)).healed resume.length) := by
    apply logInv_resumed geo crc resume junk b hb [.flushed 0 resume.length] rfl
    intro x hx
    exact Nat.le_of_eq (List.mem_singleton.mp hx)
  have hfits : AllFit (LogSys.start b (resume ++ junk)) := by
    refine ⟨?_, ?_⟩
    · intro p hp
      cases hp
    · intro t p hp
      cases hp
  refine ⟨fileInv_of_healed hinv hfits, trivial, ?_, Or.inl rfl, ?_, ?_⟩
  · intro f hf
    cases hf
  · intro w hw
    cases hw
  · intro hf
    cases hf

abbrev SyncReach (geo : Geometry) (crc : Crc) := Reach (SyncSys.next geo crc) fun _ => True

theorem SyncInv.reach {s : SyncSys} {b : LogState} (hb : resumeState geo resume = .ok b)
    (hr : SyncReach geo crc (SyncSys.start b (resume ++ junk) resume.length) s) :
    SyncInv geo crc resume junk s :=
  hr.invariant (syncInv_start geo crc resume junk b hb) fun _ a _ hi _ hn => hi.next a hn

/-- The published frontier is a place below which the file is known. -/
theorem SyncInv.synced_mem {s : SyncSys} (h : SyncInv geo crc resume junk s) :
    s.syncedLsn ∈ resume.length :: s.sys.flushedEnds := by
  rcases h.synced with hs | ⟨f, hmem, hfr⟩
  · rw [hs]
    exact List.mem_cons_self
  · rw [← hfr]
    exact List.mem_cons_of_mem _ (h.fsyncs f hmem).known

/-- What a crash can leave of a file: an fsync that succeeded without an earlier one having
failed has put the file as it was on the medium, the writes issued since may be there in
parts, and `stable` was on the medium from the start. -/
structure SyncImage (stable : Bytes) (s : SyncSys) (image : Bytes) : Prop where
  kept : Survives stable s.writes image
  synced : ∀ f ∈ s.fsyncs, f.retry = false → Survives f.content (s.writes.drop f.issued) image

theorem SyncInv.image {s : SyncSys} (h : SyncInv geo crc resume junk s) {stable image : Bytes}
    (hi : SyncImage stable s image) {f : Fsync} (hf : f ∈ s.fsyncs) {stop : ℕ}
    (hs : stop ∈ [resume.length, f.frontier]) :
    image.take stop = (s.sys.logical crc resume).take stop := by
  have hhard := h.fsyncs f hf
  have hcontent := hhard.content stop hs
  obtain ⟨hle, -⟩ := h.file.ends stop (marks_sub hhard hs)
  have hlen : stop ≤ f.content.length := by
    have := congrArg List.length hcontent
    rw [List.length_take_of_le hle, List.length_take] at this
    omega
  exact (hi.synced f hf hhard.fresh).take_eq hlen hcontent (hhard.since stop hs)

/-- Once an fsync has succeeded the log is there behind a crash, up to the resume point and
up to the published frontier. -/
theorem SyncInv.synced_image {s : SyncSys} (h : SyncInv geo crc resume junk s)
    {stable image : Bytes} (hi : SyncImage stable s image) (hf : s.fsyncs ≠ []) :
    image.take resume.length = resume ∧
      image.take s.syncedLsn = (s.sys.logical crc resume).take s.syncedLsn := by
  obtain ⟨f, hmem⟩ := List.exists_mem_of_ne_nil _ hf
  have hbase : image.take resume.length = (s.sys.logical crc resume).take resume.length :=
    h.image hi hmem List.mem_cons_self
  have hlog : (s.sys.logical crc resume).take resume.length = resume := List.take_left
  refine ⟨hbase.trans hlog, ?_⟩
  rcases h.synced with hs | ⟨g, hg, hfr⟩
  · rw [hs]
    exact hbase
  · rw [← hfr]
    exact h.image hi hg (List.mem_cons_of_mem _ (List.mem_singleton.mpr rfl))

theorem SyncInv.stable_image {s : SyncSys} (h : SyncInv geo crc resume junk s) {stable image : Bytes}
    (hi : SyncImage stable s image) (hstable : stable <+: resume) :
    image.take stable.length = stable := by
  obtain ⟨rest, hrest⟩ := hstable
  have hlog : (s.sys.logical crc resume).take stable.length = stable := by
    unfold LogSys.logical
    rw [← hrest, List.append_assoc, List.take_left]
  have hle : stable.length ≤ resume.length := by
    rw [← hrest, List.length_append]
    omega
  have hkept := hi.kept.take_eq (Nat.le_refl _) (by rw [List.take_length, hlog])
    fun w hw => (h.writes w hw).mono hle
  rw [hkept, hlog]

/-- Direct mode with failing writes and fsyncs, any number of callers and one leader at a
time: the file holds the log below the published frontier; no fsync starts behind one that
failed; and behind a crash what was stable at the open is there and, once an fsync has
succeeded, the log below the published frontier. -/
theorem direct_sync_survives (geo : Geometry) (crc : Crc) (resume junk : Bytes) (b : LogState)
    (hb : resumeState geo resume = .ok b) (s : SyncSys)
    (hr : SyncReach geo crc (SyncSys.start b (resume ++ junk) resume.length) s) :
    s.syncedLsn ≤ (resume ++ framesBytes crc s.sys.payloads).length ∧
    s.sys.file.take s.syncedLsn = (resume ++ framesBytes crc s.sys.payloads).take s.syncedLsn ∧
    (∀ f ∈ s.fsyncs, f.retry = false) ∧
    ∀ stable image, stable <+: resume → SyncImage stable s image →
      image.take stable.length = stable ∧ (s.fsyncs ≠ [] → image.take s.syncedLsn =
        (resume ++ framesBytes crc s.sys.payloads).take s.syncedLsn) := by
  have h : SyncInv geo crc resume junk s := .reach hb hr
  obtain ⟨hle, hfile⟩ := h.file.ends _ h.synced_mem
  refine ⟨hle, hfile, fun f hf => (h.fsyncs f hf).fresh, ?_⟩
  intro stable image hstable hi
  exact ⟨h.stable_image hi hstable, fun hf => (h.synced_image hi hf).2⟩

/-- A record is appended and synced; the slot write of the next one fails. -/
def failedRotation : List SyncAction :=
  [.log (.callAppend 0 [7]), .log (.lockAppend 0 none), .lead 1, .log (.lockFlush 1 .done),
    .checkPoison, .startFsync, .fsyncReturns (.ok ()), .publish, .log (.callAppend 0 [9]),
    .log (.lockAppend 0 none), .log (.land 0 (.failed 3 diskError)), .log (.finish 0)]

theorem direct_sync_survives_rotation :
    ∃ b s, resumeState twoSectors [1, 2, 3] = .ok b ∧
      SyncReach twoSectors castagnoli (SyncSys.start b ([1, 2, 3] ++ []) 3) s ∧
      s.syncedLsn = 16 ∧ s.sys.poison = some diskError ∧
      s.sys.file.take 16 = ([1, 2, 3] ++ framesBytes castagnoli s.sys.payloads).take 16 := by
  obtain ⟨b, hb, -, -, -⟩ := resumeState_spec twoSectors [1, 2, 3]
  have hend : (match resumeState twoSectors [1, 2, 3] with
      | .ok b => (run (SyncSys.next twoSectors castagnoli) failedRotation
          (SyncSys.start b ([1, 2, 3] ++ []) 3)).map fun s => (s.syncedLsn, s.sys.poison)
      | .error _ => none) = some (16, some diskError) := by
    decide +kernel
  rw [hb] at hend
  obtain ⟨s, hrun, hs⟩ := Option.map_eq_some_iff.mp hend
  obtain ⟨hsynced, hpoison⟩ := Prod.mk.inj hs
  have hreach : SyncReach twoSectors castagnoli (SyncSys.start b ([1, 2, 3] ++ []) 3) s :=
    reach_of_run failedRotation hrun fun _ _ => trivial
  obtain ⟨-, hfile, -⟩ :=
    direct_sync_survives twoSectors castagnoli [1, 2, 3] [] b hb s hreach
  rw [hsynced] at hfile
  exact ⟨b, s, hb, hreach, hsynced, hpoison, hfile⟩

end Fsys.Journal
