import Fsys.Crud.SharedMoves

/-!
# The operations keep to the rules

Each client of `SharedCalls` keeps to `Move`, whatever its calls answer and whatever others do
between them, and what it returns is what its operation on the map returned.
-/

namespace Fsys.Crud
open Fsys.Base Fsys.Platform

section

variable {ι : Type} [DecidableEq ι] (jobs : ι → Job) (start : Disk PathBuf)
  (plan : Plan PathBuf) (t : ι)

/-- The client keeps to the rules of the store and ends as `Q` says. -/
abbrev Safe {ε α : Type} (Q : Except ε α → View → Prop) (c : Client (Syscall PathBuf) ε α)
    (v : View) : Prop :=
  (storeProtocol jobs start).Safe (Syscall.exec plan) t Q c v

variable {jobs start plan t} {ε ε' α β : Type} {v : View}

theorem safe_io {c : Plan PathBuf → Io PathBuf α} {Q : Except IoError α → View → Prop}
    (h : ∀ (w : World PathBuf) (m : Contents) (vs : ι → View), Sound start w m vs → vs t = v →
      ∃ m' v', Move jobs t (w, m, v) ((c plan w).2, m', v') ∧ Q (c plan w).1 v') :
    Safe jobs start plan t Q (Shared.io c) v := h

theorem safe_mapError {R : Except ε α → View → Prop} {Q : Except ε' α → View → Prop}
    {c : Client (Syscall PathBuf) ε α} (f : ε → ε') (hc : Safe jobs start plan t R c v)
    (hok : ∀ a v, R (.ok a) v → Q (.ok a) v)
    (herr : ∀ e v, R (.error e) v → Q (.error (f e)) v) :
    Safe jobs start plan t Q (c.mapError f) v := by
  apply Protocol.safe_andThen
  apply Protocol.Safe.mono hc
  intro r v' hr
  cases r with
  | ok a => exact hok a v' hr
  | error e => exact herr e v' hr

/-- One thing holds when it returns, another when it fails. -/
def OkOr (P : α → View → Prop) (N : View → Prop) (r : Except ε α) (v : View) : Prop :=
  match r with
  | .ok a => P a v
  | .error _ => N v

theorem safe_mapError_okOr {P : α → View → Prop} {N : View → Prop}
    {c : Client (Syscall PathBuf) ε α} (f : ε → ε') (hc : Safe jobs start plan t (OkOr P N) c v) :
    Safe jobs start plan t (OkOr P N) (c.mapError f) v :=
  safe_mapError f hc (fun _ _ h => h) fun _ _ h => h

theorem safe_attempt {R : Except ε α → View → Prop} {Q : Except ε' (Except ε α) → View → Prop}
    {c : Client (Syscall PathBuf) ε α} (hc : Safe jobs start plan t R c v)
    (himp : ∀ r v, R r v → Q (.ok r) v) : Safe jobs start plan t Q c.attempt v := by
  apply Protocol.safe_andThen
  exact Protocol.Safe.mono hc himp

theorem safe_ignore {R : Except ε α → View → Prop} {Q : Except ε' Unit → View → Prop}
    {c : Client (Syscall PathBuf) ε α} (hc : Safe jobs start plan t R c v)
    (himp : ∀ r v, R r v → Q (.ok ()) v) : Safe jobs start plan t Q c.ignore v := by
  apply Protocol.safe_andThen
  exact Protocol.Safe.mono hc himp

theorem safe_tryErr {R : Except (Exit ε) α → View → Prop}
    {Q : Except (Exit ε') (Except ε α) → View → Prop} {c : FileClient ε α}
    (hc : Safe jobs start plan t R c v) (hok : ∀ a v, R (.ok a) v → Q (.ok (.ok a)) v)
    (hfail : ∀ e v, R (.error (.failed e)) v → Q (.ok (.error e)) v)
    (herr : ∀ x y v, R (.error x) v → Q (.error y) v) :
    Safe jobs start plan t Q (Shared.tryErr c) v := by
  apply Protocol.safe_andThen
  apply Protocol.Safe.mono hc
  intro r v' hr
  cases r with
  | ok a => exact hok a v' hr
  | error x =>
    cases x with
    | failed e => exact hfail e v' hr
    | panicked => exact herr _ _ v' hr
    | dropped => exact herr _ _ v' hr
    | stalled => exact herr _ _ v' hr

/-! ### Calls that look -/

/-- A call that leaves the disk alone leaves the view alone. -/
theorem safe_look {c : Plan PathBuf → Io PathBuf α}
    (hc : ∀ w : World PathBuf, (c plan w).2.disk = w.disk) :
    Safe jobs start plan t (fun _ v' => v' = v) (Shared.io c) v := by
  apply safe_io
  intro w m vs _ _
  exact ⟨m, v, Move.look (hc w), rfl⟩

theorem disk_look (call : Call PathBuf) (answer : Disk PathBuf → ℕ → Except IoError α)
    (w : World PathBuf) : (Io.look plan call answer w).2.disk = w.disk :=
  (Io.wp_look plan call answer w).1

theorem safe_syncParent (path : PathBuf) :
    Safe jobs start plan t (fun r v' => r = .ok () ∧ v' = v) (Shared.syncParent path) v := by
  apply safe_ignore (safe_look (c := fun p => Io.syncDir p path) fun w => disk_look _ _ w)
  intro _ v' hv
  exact ⟨rfl, hv⟩

/-! ### The temp file -/

/-- A file was created under this name, or nothing happened. -/
def Made (temp : PathBuf) (file : α → ℕ) (r : Except ε α) (v : View) : Prop :=
  (∀ a, r = .ok a → v = .staged ⟨temp, file a, [], false⟩) ∧ ∀ e, r = .error e → v = .idle

theorem Made.ok {temp : PathBuf} {file : α → ℕ} {a : α}
    (h : Made temp file (.ok a : Except ε α) v) : v = .staged ⟨temp, file a, [], false⟩ :=
  h.1 a rfl

theorem Made.error {temp : PathBuf} {file : α → ℕ} {e : ε}
    (h : Made temp file (.error e : Except ε α) v) : v = .idle := h.2 e rfl

theorem made_ok (temp : PathBuf) (file : α → ℕ) (a : α) :
    Made temp file (.ok a : Except ε α) (.staged ⟨temp, file a, [], false⟩) := by
  refine ⟨?_, by simp⟩
  intro b hb
  cases hb
  rfl

theorem made_error (temp : PathBuf) (file : α → ℕ) (e : ε) :
    Made temp file (.error e : Except ε α) .idle := ⟨by simp, fun _ _ => rfl⟩

theorem safe_createNew {temp : PathBuf} (hp : Hidden temp) :
    Safe jobs start plan t (Made temp id) (Shared.io fun p => Io.createNew p temp) .idle := by
  apply safe_io
  intro w m vs _ _
  have h := Io.wp_createNew plan temp w
  unfold Prog.Wp at h
  cases hr : (Io.createNew plan temp w).1 with
  | ok i =>
    rw [hr] at h
    obtain ⟨-, -, -, hfree, rfl, hd⟩ := h
    exact ⟨m, _, Move.created hp hfree hd, made_ok temp id _⟩
  | error e =>
    rw [hr] at h
    exact ⟨m, _, Move.look h.2.2.2.1, made_error temp id e⟩

theorem safe_sysCreateNew {temp : PathBuf} (hp : Hidden temp) :
    Safe jobs start plan t (Made temp id) (Shared.sysCall fun p => Io.createNew p temp) .idle := by
  apply safe_mapError _ (safe_createNew hp)
  · intro i v' h
    rw [h.ok]
    exact made_ok temp id i
  · intro e v' h
    rw [h.error]
    exact made_error temp id _

theorem safe_openWriteNew {temp : PathBuf} (hp : Hidden temp) (useDirect : Bool) :
    Safe jobs start plan t (Made temp Prod.fst) (Shared.openWriteNew temp useDirect) .idle := by
  unfold Shared.openWriteNew
  refine Protocol.safe_bind (fun r v' => ∃ r', r = .ok r' ∧ Made temp id r' v') ?_ ?_ ?_
  · exact safe_attempt (safe_createNew hp) fun r v' hr => ⟨r, rfl, hr⟩
  · intro opened v' h
    obtain ⟨r', hr', h⟩ := h
    cases hr'
    cases opened with
    | ok file =>
      rw [h.ok]
      exact made_ok temp Prod.fst (file, useDirect)
    | error e =>
      rw [h.error]
      dsimp only
      split
      · refine Protocol.safe_bind _ (safe_sysCreateNew hp) ?_ ?_
        · intro file v'' h'
          rw [h'.ok]
          exact made_ok temp Prod.fst (file, false)
        · intro x v'' h'
          rw [h'.error]
          exact made_error temp Prod.fst x
      · exact made_error temp Prod.fst _
  · intro x v' h
    obtain ⟨r', hr, -⟩ := h
    cases hr

/-- The name that was found, and its file. -/
def Found (file : α → ℕ) (r : Except (Exit Error) (PathBuf × α)) (v : View) : Prop :=
  (∀ temp a, r = .ok (temp, a) → v = .staged ⟨temp, file a, [], false⟩) ∧
    ∀ x, r = .error x → v = .idle

/-- The induction is on the attempts left. -/
theorem safe_uniqueTemp (env : Env) (target : PathBuf) (file : α → ℕ)
    {opener : PathBuf → FileClient Error α}
    (ho : ∀ temp, Hidden temp → Safe jobs start plan t (Made temp file) (opener temp) .idle)
    (left attempt : ℕ) :
    Safe jobs start plan t (Found file) (Shared.uniqueTemp env target opener left attempt)
      .idle := by
  have hfound : ∀ attempt a v, Made (genTempPath env target attempt) file
      (.ok a : Except (Exit Error) α) v →
      Found file (.ok (genTempPath env target attempt, a)) v := by
    intro attempt a v h
    refine ⟨?_, by simp⟩
    intro temp b hb
    cases hb
    exact h.ok
  have hnone : ∀ (x : Exit Error), Found file (.error x) .idle := by
    intro x
    exact ⟨by simp, fun _ _ => rfl⟩
  induction left generalizing attempt with
  | zero =>
    refine Protocol.safe_bind _ (ho _ (hidden_genTempPath env target attempt)) ?_ ?_
    · intro a v' h
      exact hfound attempt a v' h
    · intro x v' h
      rw [h.error]
      exact hnone x
  | succ left ih =>
    refine Protocol.safe_bind (fun r v' => (∀ a, r = .ok (.ok a) →
      Made (genTempPath env target attempt) file (.ok a : Except (Exit Error) α) v') ∧
      ((∀ a, r ≠ .ok (.ok a)) → v' = .idle)) ?_ ?_ ?_
    · apply safe_tryErr (ho _ (hidden_genTempPath env target attempt))
      · intro a v' h
        refine ⟨?_, fun hne => absurd rfl (hne a)⟩
        intro b hb
        cases hb
        exact h
      · intro e v' h
        exact ⟨by simp, fun _ => h.error⟩
      · intro x y v' h
        exact ⟨by simp, fun _ => h.error⟩
    · intro opened v' h
      cases opened with
      | ok a => exact hfound attempt a v' (h.1 a rfl)
      | error e =>
        rw [h.2 (by simp)]
        dsimp only
        split
        · exact ih (attempt + 1)
        · exact hnone _
    · intro x v' h
      rw [h.2 (by simp)]
      exact hnone x

/-! ### Filling it -/

/-- A call on the file: it comes out as in some state with the file. -/
theorem safe_oneCall {c : Plan PathBuf → Io PathBuf α} {o : Own PathBuf}
    (hc : OneCall o.name o.file _ c) :
    Safe jobs start plan t (fun r v' => ∃ w : World PathBuf, o.In w ∧ (c plan w).1 = r ∧
      v' = .staged (o.now (c plan w).2)) (Shared.io c) (.staged o) := by
  apply safe_io
  intro w m vs hs hv
  have hin := (hs.own t o hv).2.1
  exact ⟨m, _, Move.filled (hc.private.touches plan w hin.name)
    (hc.private.fenced plan w hin.name), w, hin, rfl, rfl⟩

/-- Calls on the file: what holds of them alone holds among others. -/
theorem safe_private {c : Client (Syscall PathBuf) ε α} {o : Own PathBuf}
    {R : Except ε α → Prop} {Q : Except ε α → Own PathBuf → Prop}
    (hc : StaysOn o.name o.file R c) (hq : Settles o Q c) :
    Safe jobs start plan t (fun r v' => ∃ o' : Own PathBuf, v' = .staged o' ∧
      o'.name = o.name ∧ o'.file = o.file ∧ Q r o') c (.staged o) := by
  induction c generalizing o with
  | done r =>
    obtain ⟨w, hw⟩ := o.exists_in
    exact ⟨o, rfl, rfl, rfl, hq.done hw⟩
  | call op k ih =>
    intro w m vs hs hv
    obtain ⟨hop, hk⟩ := hc
    have hin := (hs.own t o hv).2.1
    have hrest := hk (op plan w).1 ⟨plan, w, hin.name, rfl⟩
    refine ⟨m, _, Move.filled (hop.private.touches plan w hin.name)
      (hop.private.fenced plan w hin.name), ?_⟩
    exact ih (op plan w).1 (o := o.now (op plan w).2) hrest (hq.call hop hrest hin)

/-! ### Leaving it -/

/-- No temp file is left, unless its removal failed. -/
def Rid (plan : Plan PathBuf) (v : View) : Prop :=
  v = .idle ∨ (∃ o, v = .stuck o) ∧ ¬ ∀ p, Io.Works plan (.remove p)

/-- How an operation ends that did not return. -/
def GaveUp (plan : Plan PathBuf) (x : Exit Error) (v : View) : Prop :=
  Rid plan v ∨ x = .stalled ∧ ∃ o, v = .staged o

/-- An operation returned, or gave up. -/
def Ended (plan : Plan PathBuf) (P : α → View → Prop) (r : Except (Exit Error) α) (v : View) :
    Prop :=
  match r with
  | .ok a => P a v
  | .error x => GaveUp plan x v

/-- The temp file is there. -/
def Kept (temp : PathBuf) (v : View) : Prop := ∃ o, v = .staged o ∧ o.name = temp

theorem safe_remove (o : Own PathBuf) :
    Safe jobs start plan t (fun r v' => r = .ok () ∧ Rid plan v')
      (Shared.remove o.name : FileClient ε Unit) (.staged o) := by
  refine safe_ignore (R := fun _ v' => Rid plan v') ?_ fun _ v' hv => ⟨rfl, hv⟩
  apply safe_io
  intro w m vs hs hv
  have hname := (hs.own t o hv).2.1.name
  have h := Io.wp_remove plan o.name w
  unfold Prog.Wp at h
  cases hr : (Io.remove plan o.name w).1 with
  | ok u =>
    rw [hr] at h
    exact ⟨m, _, Move.dropped h.2.2.2, Or.inl rfl⟩
  | error e =>
    rw [hr] at h
    obtain ⟨-, -, hworks, hd⟩ := h
    refine ⟨m, _, Move.stuck hd, Or.inr ⟨⟨o, rfl⟩, ?_⟩⟩
    intro hall
    have := hworks (hall o.name) (by simp [hname])
    cases this

theorem safe_guarded {temp : PathBuf} {body : FileClient Error α} {o : Own PathBuf}
    {Q : α → View → Prop}
    (hb : Safe jobs start plan t (OkOr Q (Kept temp)) body (.staged o)) :
    Safe jobs start plan t (Ended plan Q) (Shared.guarded temp body) (.staged o) := by
  apply Protocol.safe_andThen
  apply Protocol.Safe.mono hb
  intro r v' hr
  cases r with
  | ok a => exact hr
  | error x =>
    obtain ⟨o', rfl, hname⟩ := hr
    have hremove : Safe jobs start plan t (fun r v' => r = .ok () ∧ Rid plan v')
        (Shared.remove o'.name : FileClient Error Unit) (.staged o') := safe_remove o'
    rw [hname] at hremove
    apply Protocol.safe_andThen
    cases x with
    | stalled => exact Or.inr ⟨rfl, o', rfl⟩
    | failed e => exact Protocol.Safe.mono hremove fun _ _ h => Or.inl h.2
    | panicked => exact Protocol.Safe.mono hremove fun _ _ h => Or.inl h.2
    | dropped => exact Protocol.Safe.mono hremove fun _ _ h => Or.inl h.2

/-- The rename: the file takes the name of the target, or nothing happens. -/
theorem safe_publish {o : Own PathBuf} {target : PathBuf} (hp : ¬ Hidden target)
    (hf : o.fenced = true)
    (hspec : ∀ m, (jobs t).spec m = some (.unit, Function.update m target (some o.bytes))) :
    Safe jobs start plan t (OkOr (fun _ v' => v' = .finished .unit) (Kept o.name))
      (Shared.io fun p => Io.rename p o.name target) (.staged o) := by
  apply safe_io
  intro w m vs hs hv
  have hname := (hs.own t o hv).2.1.name
  have h := Io.wp_rename plan o.name target o.file w hname
  unfold Prog.Wp at h
  cases hr : (Io.rename plan o.name target w).1 with
  | ok u =>
    rw [hr] at h
    exact ⟨_, _, Move.published hp hf h.2 (hspec m), rfl⟩
  | error e =>
    rw [hr] at h
    exact ⟨m, _, Move.look h.2, o, rfl, rfl⟩

/-! ### The writers -/

/-- How an operation ends that changes the store. -/
abbrev Wrote (plan : Plan PathBuf) : Except (Exit Error) Unit → View → Prop :=
  Ended plan fun _ v => v = .finished .unit

theorem safe_syncParent_after (path : PathBuf) (hv : v = .finished .unit) :
    Safe jobs start plan t (Wrote plan) (Shared.syncParent path) v := by
  apply Protocol.Safe.mono (safe_syncParent path)
  intro r v' hr
  rw [hr.1, hr.2]
  exact hv

/-- A program that fills a temp file with these bytes and makes it durable. -/
def FillsWith (data : Bytes) (c : FileClient Error Unit) (temp : PathBuf) (file : ℕ) : Prop :=
  StaysOn temp file (fun _ => True) c ∧ ∀ fenced, Settles ⟨temp, file, [], fenced⟩
    (fun r o => r = .ok () → o.bytes = data ∧ o.fenced = true) c

theorem safe_atomicReplace (env : Env) {target : PathBuf} {data : Bytes} (rp : ReplacePlan)
    {fill : PathBuf → ℕ → Bool → FileClient Error Unit} (hp : ¬ Hidden target)
    (hfill : ∀ temp file directOk, FillsWith data (fill temp file directOk) temp file)
    (hspec : ∀ m, (jobs t).spec m = some (.unit, Function.update m target (some data))) :
    Safe jobs start plan t (Wrote plan) (Shared.atomicReplace env target rp fill) .idle := by
  unfold Shared.atomicReplace
  refine Protocol.safe_bind (Found Prod.fst) ?_ ?_ ?_
  · apply safe_mapError _ (safe_uniqueTemp env target Prod.fst
      (fun temp ht => safe_openWriteNew ht rp.useDirect) _ _)
    · intro x v' h
      exact h
    · intro x v' h
      exact ⟨by simp, fun _ _ => h.2 x rfl⟩
  · intro x v' h
    obtain ⟨temp, file, directOk⟩ := x
    rw [h.1 temp (file, directOk) rfl]
    obtain ⟨hstays, hsettles⟩ := hfill temp file directOk
    refine Protocol.safe_bind (Wrote plan) ?_ ?_ fun x v' h => h
    · -- the fill, and the rename
      apply safe_guarded
      refine Protocol.safe_bind _ (safe_private (o := ⟨temp, file, [], false⟩) hstays
        (hsettles false)) ?_ ?_
      · intro u v' hfilled
        obtain ⟨o, rfl, hname, -, hdone⟩ := hfilled
        obtain ⟨hbytes, hfenced⟩ := hdone rfl
        have hname' : o.name = temp := hname
        have hpublish : Safe jobs start plan t (OkOr (fun _ v' => v' = .finished .unit)
            (Kept o.name)) (Shared.io fun p => Io.rename p o.name target) (.staged o) :=
          safe_publish hp hfenced (hbytes ▸ hspec)
        rw [hname'] at hpublish
        exact safe_mapError_okOr _ (safe_mapError_okOr _ hpublish)
      · intro x v' hfilled
        obtain ⟨o, rfl, hname, -, -⟩ := hfilled
        exact ⟨o, rfl, hname⟩
    · intro u v' hv
      split
      · exact safe_syncParent_after target hv
      · exact hv
  · intro x v' h
    exact Or.inl (Or.inl (h.2 x rfl))

/-- A step of `mmap::write`, which takes the temp file away when it fails. -/
theorem safe_orRemove {temp : PathBuf} {c : Plan PathBuf → Io PathBuf α} {P : α → View → Prop}
    (report : IoError → Error)
    (hc : Safe jobs start plan t (OkOr P (Kept temp)) (Shared.io c) v) :
    Safe jobs start plan t (Ended plan P) (Shared.orRemove temp report c) v := by
  apply Protocol.safe_andThen
  apply Protocol.Safe.mono (safe_mapError_okOr (fun e => Exit.failed (report e)) hc)
  intro r v' hr
  cases r with
  | ok a => exact hr
  | error x =>
    obtain ⟨o, rfl, hname⟩ := hr
    rw [← hname]
    apply Protocol.safe_andThen
    exact Protocol.Safe.mono (safe_remove o) fun _ _ h => Or.inl h.2

/-- A call on the temp file that says of it what `P` says when it works. -/
theorem safe_step {c : Plan PathBuf → Io PathBuf α} {o : Own PathBuf}
    {P : α → Own PathBuf → Prop} (hc : OneCall o.name o.file _ c)
    (h : ∀ (w : World PathBuf) a, o.In w → (c plan w).1 = .ok a → P a (o.now (c plan w).2)) :
    Safe jobs start plan t (OkOr (fun a v' => ∃ o' : Own PathBuf, v' = .staged o' ∧
      o'.name = o.name ∧ o'.file = o.file ∧ P a o') (Kept o.name)) (Shared.io c)
      (.staged o) := by
  apply Protocol.Safe.mono (safe_oneCall hc)
  intro r v' hr
  obtain ⟨w, hin, hres, rfl⟩ := hr
  cases r with
  | ok a => exact ⟨_, rfl, rfl, rfl, h w a hin hres⟩
  | error e => exact ⟨_, rfl, rfl⟩

/-- The mapping is as long as the file was made, so the copy does not panic. -/
theorem safe_mmapFill {temp target : PathBuf} {file : ℕ} {data : Bytes} (hp : ¬ Hidden target)
    (hspec : ∀ m, (jobs t).spec m = some (.unit, Function.update m target (some data))) :
    Safe jobs start plan t (Wrote plan) (Shared.mmapFill temp target file data)
      (.staged ⟨temp, file, [], false⟩) := by
  unfold Shared.mmapFill
  -- set_len
  refine Protocol.safe_bind _ (safe_orRemove _ (safe_step (o := ⟨temp, file, [], false⟩)
    (P := fun _ o => o.bytes.length = data.length) (OneCall.setLen data.length) ?_)) ?_
    fun _ _ h => h
  · intro w a hin hres
    have hlen := Io.wp_setLen plan file data.length w
    unfold Prog.Wp at hlen
    rw [hres] at hlen
    simp only [Own.now, hlen.2.2, Disk.data_setData, hin.bytes, List.take_nil, List.nil_append,
      length_zeros, List.length_nil, Nat.sub_zero]
  intro _ v1 h1
  obtain ⟨o1, rfl, hn1, hf1, hlen⟩ := h1
  obtain rfl : o1.name = temp := hn1
  obtain rfl : o1.file = file := hf1
  -- map_mut
  refine Protocol.safe_bind _ (safe_orRemove _ (safe_step
    (P := fun n o => o.bytes.length = data.length ∧ n = data.length) OneCall.mapMut ?_)) ?_
    fun _ _ h => h
  · intro w n hin hres
    obtain ⟨hd, -, -, hans⟩ := Io.wp_look plan (.map o1.file)
      (fun d _ => .ok (d.data o1.file).length) w
    have hsame : (Io.mapMut plan o1.file w).2.disk = w.disk := hd
    constructor
    · simp only [Own.now, hsame, hin.bytes, hlen]
    · have hr : (Io.look plan (.map o1.file) (fun d _ => .ok (d.data o1.file).length) w).1 =
          .ok n := hres
      rcases hans with ⟨e, k, -, he⟩ | ⟨k, -, hk⟩
      · rw [hr] at he
        cases he
      · rw [hr] at hk
        cases hk
        rw [hin.bytes, hlen]
  intro n v2 h2
  obtain ⟨o2, rfl, hn2, hf2, hlen2, rfl⟩ := h2
  rw [if_neg (not_not.mpr rfl), ← hn2, ← hf2]
  -- the copy, which cannot fail
  refine Protocol.safe_bind (fun r v' => r = .ok () ∧ ∃ o' : Own PathBuf, v' = .staged o' ∧
    o'.name = o2.name ∧ o'.file = o2.file ∧ o'.bytes = data) ?_ ?_ ?_
  · apply safe_mapError _ (safe_oneCall (OneCall.store data))
    · intro _ v' hv
      obtain ⟨w, hin, -, rfl⟩ := hv
      have hd : (Io.store o2.file data w).2.disk.data o2.file =
          overlay (w.disk.data o2.file) 0 data := Disk.data_setData _ _ _
      refine ⟨rfl, _, rfl, rfl, rfl, ?_⟩
      simp only [Own.now, hd]
      exact overlay_whole _ _ (by rw [hin.bytes, hlen2])
    · intro e v' hv
      obtain ⟨w, -, hres, -⟩ := hv
      cases hres
  swap
  · intro x v3 h3
    cases h3.1
  intro _ v3 h3
  obtain ⟨-, o3, rfl, hn3, hf3, hb3⟩ := h3
  rw [← hn3, ← hf3]
  -- msync
  refine Protocol.safe_bind _ (safe_orRemove _ (safe_step (P := fun _ o => o.bytes = data)
    OneCall.msync ?_)) ?_ fun _ _ h => h
  · intro w a hin _
    have hsame : (Io.msync plan o3.file w).2.disk = w.disk := disk_look _ _ w
    simp only [Own.now, hsame, hin.bytes, hb3]
  intro _ v4 h4
  obtain ⟨o4, rfl, hn4, hf4, hb4⟩ := h4
  rw [← hn4, ← hf4]
  -- fsync
  refine Protocol.safe_bind _ (safe_orRemove _ (safe_step
    (P := fun _ o => o.bytes = data ∧ o.fenced = true) OneCall.fence ?_)) ?_ fun _ _ h => h
  · intro w a hin hres
    have hfence := Io.wp_fence plan o4.file w
    unfold Prog.Wp at hfence
    rw [hres] at hfence
    have hd : (Io.fence plan o4.file w).2.disk = w.disk.fence o4.file := hfence.2.2.2
    constructor
    · simp only [Own.now, hd]
      exact hin.bytes.trans hb4
    · simp only [Own.now, hd]
      exact Function.update_self _ _ _
  intro _ v5 h5
  obtain ⟨o5, rfl, hn5, -, hb5, hf5⟩ := h5
  rw [← hn5]
  -- rename
  exact safe_orRemove _ (safe_publish hp hf5 (hb5 ▸ hspec))

theorem safe_mmapWrite (env : Env) {target : PathBuf} {data : Bytes} (hp : ¬ Hidden target)
    (hspec : ∀ m, (jobs t).spec m = some (.unit, Function.update m target (some data))) :
    Safe jobs start plan t (Wrote plan) (Shared.mmapWrite env target data) .idle := by
  unfold Shared.mmapWrite
  split
  · refine Protocol.safe_bind (Found id) ?_ ?_ ?_
    · apply safe_mapError _ (safe_uniqueTemp env target id
        (fun temp ht => safe_sysCreateNew ht) _ _)
      · intro x v' h
        exact h
      · intro x v' h
        exact ⟨by simp, fun _ _ => h.2 x rfl⟩
    · intro x v' h
      obtain ⟨temp, file⟩ := x
      rw [h.1 temp file rfl]
      refine Protocol.safe_bind _ (safe_mmapFill hp hspec) ?_ fun _ _ h => h
      intro u v'' hv
      exact safe_syncParent_after target hv
    · intro x v' h
      exact Or.inl (Or.inl (h.2 x rfl))
  · exact Or.inl (Or.inl rfl)

theorem wp_fillTemp (env : Env) (temp : PathBuf) (i : ℕ) (directOk : Bool) (data : Bytes)
    (rp : ReplacePlan) (hooks : ReplaceHooks) (w : World PathBuf)
    (hname : w.disk.names temp = some i) (hnew : w.disk.data i = []) :
    (fillTemp env temp i directOk data rp hooks).Wp (fun r w' =>
      r = .ok () → w'.disk.data i = data ∧ w'.disk.fenced i = true) w := by
  unfold fillTemp
  refine Prog.wp_bind _ _ _ _ (Durable i data w) ?_ ?_ (by simp)
  · exact wp_mapErr _ (wp_writeTemp env i directOk data rp hooks w hnew)
      (fun _ _ h => ⟨h.1, fun _ => h.2 rfl⟩) fun _ _ _ h => ⟨h.1, by simp⟩
  · intro u w1 h1
    obtain ⟨hdata, hfence⟩ := h1.2 rfl
    have hname1 : w1.disk.names temp = some i := by
      rw [h1.1.touches.names, hname]
    refine wp_mapErr _ (hooks.before_keeps temp i w1 hname1 hfence) ?_ (by simp)
    intro u w2 h2 _
    obtain ⟨hsame, -, hf⟩ := h2
    exact ⟨by rw [hsame.data, hdata], hf rfl⟩

theorem Filler.fillsWith {env : Env} {rp : ReplacePlan} {k : HookKind} {data : Bytes}
    (f : Filler env rp k data) (temp : PathBuf) (file : ℕ) (directOk : Bool) :
    FillsWith data (f.client temp file directOk) temp file := by
  obtain ⟨hstays, hrun⟩ := f.cuts temp file directOk
  refine ⟨hstays, ?_⟩
  intro fenced plan w hw
  unfold Prog.Wp
  rw [hrun plan w hw.name]
  exact wp_fillTemp (answering env plan) temp file directOk data rp _ w hw.name hw.bytes

theorem safe_write {env : Env} {h : Handle} {path : PathBuf} {data : Bytes}
    (f : Filler env h.fallback.replacePlan (.solo h.fallback) data) (hp : ¬ Hidden path)
    (hspec : ∀ m, (jobs t).spec m = some (.unit, Function.update m path (some data))) :
    Safe jobs start plan t (Wrote plan) (Shared.write env h path data f.client) .idle := by
  unfold Shared.write
  split
  · split
    · exact safe_mmapWrite env hp hspec
    · exact safe_atomicReplace env _ hp f.fillsWith hspec
  · exact safe_atomicReplace env _ hp f.fillsWith hspec

theorem safe_writeCopy {env : Env} {h : Handle} {path : PathBuf} {data : Bytes}
    (f : ∀ existing, Filler env h.replacePlan (.writeCopy h existing) data) (hp : ¬ Hidden path)
    (hspec : ∀ m, (jobs t).spec m = some (.unit, Function.update m path (some data))) :
    Safe jobs start plan t (Wrote plan)
      (Shared.writeCopy env h path fun existing => (f existing).client) .idle := by
  unfold Shared.writeCopy
  refine Protocol.safe_bind (fun r v' => (∃ x, r = .ok x) ∧ v' = .idle) ?_ ?_ ?_
  · apply safe_attempt (safe_look (c := fun p => metadataLen p path) fun w => disk_look _ _ w)
    intro r v' hv
    exact ⟨⟨r, rfl⟩, hv⟩
  · intro existing v' hv
    rw [hv.2]
    exact safe_atomicReplace env _ hp (f _).fillsWith hspec
  · intro x v' hv
    obtain ⟨⟨y, hy⟩, -⟩ := hv
    cases hy

/-! ### Removing, renaming and looking -/

/-- The system says that a file is not there only when it is not. -/
def Honest (plan : Plan PathBuf) : Prop :=
  ∀ c t e n, plan c t = .fail e n → e.kind ≠ .notFound

variable {w : World PathBuf} {m : Contents} {vs : ι → View} {path : PathBuf}

omit [DecidableEq ι] in
/-- What the map says of a path that is not hidden. -/
theorem Sound.at_none (h : Sound start w m vs) (hp : ¬ Hidden path)
    (hn : w.disk.names path = none) : m path = none := by
  rw [← h.visible path hp, Disk.content, hn]
  rfl

omit [DecidableEq ι] in
theorem Sound.at_some (h : Sound start w m vs) (hp : ¬ Hidden path) {i : ℕ}
    (hn : w.disk.names path = some i) : m path = some (w.disk.data i) := by
  rw [← h.visible path hp, Disk.content, hn]
  rfl

theorem safe_delete (hplan : Honest plan) (hp : ¬ Hidden path)
    (hspec : ∀ m, (jobs t).spec m = some (.unit, Function.update m path none)) :
    Safe jobs start plan t (Wrote plan) (Shared.delete path) .idle := by
  unfold Shared.delete
  refine Protocol.safe_bind (fun r v' => ∃ x : Except IoError Unit, r = .ok x ∧
    (∀ u, x = .ok u → v' = .finished .unit) ∧
    ∀ e, x = .error e → v' = if e.kind = .notFound then .finished .unit else .idle) ?_ ?_ ?_
  · refine safe_attempt (R := fun x v' => (∀ u, x = .ok u → v' = .finished .unit) ∧
      ∀ e, x = .error e → v' = if e.kind = .notFound then .finished .unit else .idle) ?_
      fun x v' h => ⟨x, rfl, h⟩
    apply safe_io
    intro w m vs hs hv
    unfold Io.remove
    cases hr : plan (.remove path) w.clock with
    | fail e n =>
      refine ⟨m, _, Move.look rfl, by simp, ?_⟩
      intro e' he
      cases he
      rw [if_neg (hplan _ _ _ _ hr)]
    | ok n =>
      cases hn : w.disk.names path with
      | none =>
        have hsame : Function.update m path none = m := by
          rw [← hs.at_none hp hn, Function.update_eq_self]
        refine ⟨m, _, Move.saw rfl (hsame ▸ hspec m), by simp, ?_⟩
        intro e' he
        cases he
        rfl
      | some i =>
        refine ⟨_, _, Move.removed hp rfl (hspec m), fun _ _ => rfl, by simp⟩
  · intro removed v' h
    obtain ⟨x, hx, hok, herr⟩ := h
    cases hx
    cases removed with
    | ok u => exact safe_syncParent_after path (hok u rfl)
    | error e =>
      have hv := herr e rfl
      dsimp only
      split at hv
      · rename_i hkind
        rw [if_pos hkind]
        exact hv
      · rename_i hkind
        rw [if_neg hkind, hv]
        exact Or.inl (Or.inl rfl)
  · intro x v' h
    obtain ⟨y, hy, -⟩ := h
    cases hy

theorem renameFile_cases (plan : Plan PathBuf) (old new : PathBuf) (w : World PathBuf) :
    (∃ e, (renameFile plan old new w).1 = .error e ∧
      (renameFile plan old new w).2.disk = w.disk) ∨
    ((renameFile plan old new w).1 = .ok () ∧ ∃ i, w.disk.names old = some i ∧
      (old = new ∧ (renameFile plan old new w).2.disk = w.disk ∨
        old ≠ new ∧ (renameFile plan old new w).2.disk = w.disk.rename old new)) := by
  unfold renameFile
  by_cases heq : old = new
  · simp only [heq, if_true]
    obtain ⟨hd, -, -, hans⟩ := Io.wp_look plan (.rename new new)
      (fun d n => (Io.fileOf new d n).map fun _ => ()) w
    rcases hans with ⟨e, n, -, hr⟩ | ⟨n, -, hr⟩
    · exact Or.inl ⟨e, hr, hd⟩
    · unfold Io.fileOf at hr
      cases hname : w.disk.names new with
      | none =>
        rw [hname] at hr
        exact Or.inl ⟨_, hr, hd⟩
      | some i =>
        rw [hname] at hr
        exact Or.inr ⟨hr, i, rfl, Or.inl ⟨trivial, hd⟩⟩
  · simp only [heq, if_false]
    unfold Io.rename
    cases hname : w.disk.names old with
    | none =>
      left
      cases plan (.rename old new) w.clock with
      | fail e n => exact ⟨e, rfl, rfl⟩
      | ok n => exact ⟨_, rfl, rfl⟩
    | some i =>
      cases plan (.rename old new) w.clock with
      | fail e n => exact Or.inl ⟨e, rfl, rfl⟩
      | ok n => exact Or.inr ⟨rfl, i, rfl, Or.inr ⟨heq, rfl⟩⟩

theorem safe_rename {old new : PathBuf} (ho : ¬ Hidden old) (hn : ¬ Hidden new)
    (hspec : ∀ m : Contents, (jobs t).spec m = (m old).map fun b => (.unit,
      if old = new then m else Function.update (Function.update m new (some b)) old none)) :
    Safe jobs start plan t (Wrote plan) (Shared.rename old new) .idle := by
  apply safe_mapError _ (R := OkOr (fun _ v' => v' = .finished .unit) fun v' => v' = .idle)
  · apply safe_io
    intro w m vs hs hv
    have hm := hspec m
    rcases renameFile_cases plan old new w with ⟨e, he, hd⟩ | ⟨hr, i, hi, hcase⟩
    · exact ⟨m, _, Move.look hd, by rw [he]; exact rfl⟩
    · rw [hs.at_some ho hi, Option.map_some] at hm
      rcases hcase with ⟨heq, hd⟩ | ⟨hne, hd⟩
      · rw [if_pos heq] at hm
        exact ⟨m, _, Move.saw hd hm, by rw [hr]; exact rfl⟩
      · rw [if_neg hne] at hm
        exact ⟨_, _, Move.moved ho hn hne hi hd hm, by rw [hr]; exact rfl⟩
  · intro _ v' hv
    exact hv
  · intro e v' hv
    exact Or.inl (Or.inl hv)

theorem metadataLen_cases (plan : Plan PathBuf) (path : PathBuf) (w : World PathBuf) :
    (metadataLen plan path w).2.disk = w.disk ∧
    ((∃ e n, plan (.stat path) w.clock = .fail e n ∧ (metadataLen plan path w).1 = .error e) ∨
      (w.disk.names path = none ∧ (metadataLen plan path w).1 = .error Io.notFound) ∨
      ∃ i, w.disk.names path = some i ∧
        (metadataLen plan path w).1 = .ok (w.disk.data i).length) := by
  unfold metadataLen
  obtain ⟨hd, -, -, hans⟩ := Io.wp_look plan (.stat path)
    (fun d _ => (Io.fileOf path d 0).map fun i => (d.data i).length) w
  refine ⟨hd, ?_⟩
  rcases hans with ⟨e, n, hplan, hr⟩ | ⟨n, -, hr⟩
  · exact Or.inl ⟨e, n, hplan, hr⟩
  · unfold Io.fileOf at hr
    cases hname : w.disk.names path with
    | none =>
      rw [hname] at hr
      exact Or.inr (Or.inl ⟨rfl, hr⟩)
    | some i =>
      rw [hname] at hr
      exact Or.inr (Or.inr ⟨i, rfl, hr⟩)

/-- How a call ends that only looks at the store. -/
def Looked (plan : Plan PathBuf) (answer : α → Answer) (r : Except (Exit Error) α) (v : View) :
    Prop :=
  match r with
  | .ok a => v.took = some (answer a)
  | .error _ => Rid plan v ∨ ∃ i b, v = .reading i b

theorem safe_exists (hplan : Honest plan) (hp : ¬ Hidden path)
    (hspec : ∀ m : Contents, (jobs t).spec m = some (.yes (m path).isSome, m)) :
    Safe jobs start plan t (Looked plan Answer.yes) (Shared.exists_ path) .idle := by
  unfold Shared.exists_
  refine Protocol.safe_bind (fun r v' => ∃ x : Except IoError ℕ, r = .ok x ∧
    (∀ n, x = .ok n → v' = .finished (.yes true)) ∧
    ∀ e, x = .error e → v' = if e.kind = .notFound then .finished (.yes false) else .idle)
    ?_ ?_ ?_
  · refine safe_attempt (R := fun x v' => (∀ n, x = .ok n → v' = .finished (.yes true)) ∧
      ∀ e, x = .error e → v' = if e.kind = .notFound then .finished (.yes false) else .idle) ?_
      fun x v' h => ⟨x, rfl, h⟩
    apply safe_io
    intro w m vs hs hv
    have hm := hspec m
    obtain ⟨hd, ⟨e, n, hr, he⟩ | ⟨hn, he⟩ | ⟨i, hi, hok⟩⟩ := metadataLen_cases plan path w
    · refine ⟨m, _, Move.look hd, by simp [he], ?_⟩
      intro e' he'
      rw [he] at he'
      cases he'
      rw [if_neg (hplan _ _ _ _ hr)]
    · rw [hs.at_none hp hn] at hm
      refine ⟨m, _, Move.saw hd hm, by simp [he], ?_⟩
      intro e' he'
      rw [he] at he'
      cases he'
      rfl
    · rw [hs.at_some hp hi] at hm
      exact ⟨m, _, Move.saw hd hm, fun _ _ => rfl, by simp [hok]⟩
  · intro found v' h
    obtain ⟨x, hx, hok, herr⟩ := h
    cases hx
    cases found with
    | ok n =>
      rw [hok n rfl]
      exact rfl
    | error e =>
      have hv := herr e rfl
      dsimp only
      split at hv
      · rename_i hkind
        rw [if_pos hkind, hv]
        exact rfl
      · rename_i hkind
        rw [if_neg hkind, hv]
        exact Or.inl (Or.inl rfl)
  · intro x v' h
    obtain ⟨y, hy, -⟩ := h
    cases hy

theorem safe_size (hp : ¬ Hidden path)
    (hspec : ∀ m : Contents, (jobs t).spec m = (m path).map fun b => (.count b.length, m)) :
    Safe jobs start plan t (Looked plan Answer.count) (Shared.size path) .idle := by
  apply safe_mapError _ (R := fun (r : Except IoError ℕ) v' =>
    (∀ n, r = .ok n → v' = .finished (.count n)) ∧ ∀ e, r = .error e → v' = .idle)
  · apply safe_io
    intro w m vs hs hv
    have hm := hspec m
    obtain ⟨hd, ⟨e, n, -, he⟩ | ⟨-, he⟩ | ⟨i, hi, hok⟩⟩ := metadataLen_cases plan path w
    · exact ⟨m, _, Move.look hd, by simp [he], fun _ _ => rfl⟩
    · exact ⟨m, _, Move.look hd, by simp [he], fun _ _ => rfl⟩
    · rw [hs.at_some hp hi, Option.map_some] at hm
      refine ⟨m, _, Move.saw hd hm, ?_, by simp [hok]⟩
      intro n hn
      rw [hok] at hn
      cases hn
      rfl
  · intro n v' h
    rw [h.1 n rfl]
    exact rfl
  · intro e v' h
    rw [h.2 e rfl]
    exact Or.inl (Or.inl rfl)

end

end Fsys.Crud
