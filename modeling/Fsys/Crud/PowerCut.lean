import Fsys.Base.PowerCut
import Fsys.Crud.SharedHistory

/-!
# The store behind a power cut

The threads of `SharedStore` use the disk and the power is cut between any two of their
system calls. What is under a name was written and fenced before it came there, and nobody
writes to it any more, so the cut leaves a whole file of a moment that was; and the sync of
the directory that a write ends with leaves none from before it.
-/

namespace Fsys.Crud
open Fsys.Base Fsys.Platform

section

variable {ι : Type} [DecidableEq ι] {jobs : ι → Job} {start : Disk PathBuf}
  {plan : Plan PathBuf} {t : ι}

/-! ### What is under a name -/

/-- The entry leads to these bytes, durable, and nobody writes to them. -/
inductive Whole (w : World PathBuf) (vs : ι → View) : Option ℕ → Option Bytes → Prop where
  | none : Whole w vs none none
  | file {i : ℕ} {b : Bytes} (bytes : w.disk.data i = b) (fenced : w.disk.fenced i = true)
      (next : i < w.disk.next) (free : ∀ u o, vs u = .staged o → o.file ≠ i) :
      Whole w vs (some i) (some b)

variable {w w' : World PathBuf} {m m' : Contents} {vs : ι → View} {v' : View} {e : Option ℕ}
  {b x : Option Bytes}

omit [DecidableEq ι] in
theorem Whole.left (h : Whole w vs e b) (hx : w.disk.Left e x) : x = b := by
  cases h with
  | none =>
    cases hx with
    | none => rfl
  | file bytes fenced next free =>
    cases hx with
    | file i c hc => rw [hc fenced, bytes]

omit [DecidableEq ι] in
/-- The bytes are the same and nobody began to write to them. -/
theorem Whole.of_disk {vs' : ι → View} (h : Whole w vs e b)
    (hdata : ∀ i, e = some i → w'.disk.data i = w.disk.data i)
    (hfenced : ∀ i, e = some i → w'.disk.fenced i = w.disk.fenced i)
    (hnext : w.disk.next ≤ w'.disk.next)
    (hfree : ∀ i u o, e = some i → vs' u = .staged o → o.file ≠ i) : Whole w' vs' e b := by
  cases h with
  | none => exact Whole.none
  | file bytes fenced next free =>
    refine Whole.file ?_ ?_ (by omega) fun u o => hfree _ u o rfl
    · rw [hdata _ rfl, bytes]
    · rw [hfenced _ rfl, fenced]

omit [DecidableEq ι] in
theorem Whole.free (h : Whole w vs e b) {i : ℕ} (he : e = some i) {u : ι} {o : Own PathBuf}
    (hu : vs u = .staged o) : o.file ≠ i := by
  cases h with
  | none => cases he
  | file bytes fenced next free =>
    cases he
    exact free u o hu

omit [DecidableEq ι] in
theorem Whole.lt (h : Whole w vs e b) {i : ℕ} (he : e = some i) : i < w.disk.next := by
  cases h with
  | none => cases he
  | file bytes fenced next free =>
    cases he
    exact next

/-- A thread writes to its own temp file alone. -/
theorem Whole.move (hmove : Move jobs t (w, m, vs t) (w', m', v')) (h : Whole w vs e b) :
    Whole w' (Function.update vs t v') e b := by
  -- who has a temp file now had it before, or has a new one
  have hfree : (∀ o, v' = .staged o → ∀ i, e = some i → o.file ≠ i) →
      ∀ i u o, e = some i → Function.update vs t v' u = .staged o → o.file ≠ i := by
    intro hv i u o he hu
    by_cases hut : u = t
    · rw [hut, Function.update_self] at hu
      exact hv o hu i he
    · rw [Function.update_of_ne hut] at hu
      exact h.free he hu
  have hsame : w'.disk.data = w.disk.data → w'.disk.fenced = w.disk.fenced →
      w'.disk.next = w.disk.next → (∀ o, v' = .staged o → ∀ i, e = some i → o.file ≠ i) →
      Whole w' (Function.update vs t v') e b := by
    intro hdata hfenced hnext hv
    apply h.of_disk
    · intro i _
      rw [hdata]
    · intro i _
      rw [hfenced]
    · rw [hnext]
    · exact hfree hv
  generalize hview : vs t = v at hmove
  cases hmove with
  | look hd =>
    rw [hd] at hsame
    exact hsame rfl rfl rfl fun o ho i he => h.free he (hview.trans ho)
  | saw hd =>
    rw [hd] at hsame
    exact hsame rfl rfl rfl (by simp)
  | opened hd =>
    rw [hd] at hsame
    exact hsame rfl rfl rfl (by simp)
  | created hp hfreeName hd =>
    apply h.of_disk
    · intro i he
      rw [hd]
      exact Function.update_of_ne (h.lt he).ne _ _
    · intro i he
      rw [hd]
      exact Function.update_of_ne (h.lt he).ne _ _
    · rw [hd]
      exact Nat.le_succ _
    · apply hfree
      intro o ho i he
      cases ho
      exact (h.lt he).ne'
  | @filled _ _ _ o hd hf =>
    apply h.of_disk
    · intro i he
      exact hd.data i (h.free he hview).symm
    · intro i he
      exact hf i (h.free he hview).symm
    · rw [hd.next]
    · apply hfree
      intro o' ho' i he
      have hne := h.free he hview
      cases ho'
      exact hne
  | published hp hf hd =>
    rw [hd] at hsame
    exact hsame rfl rfl rfl (by simp)
  | dropped hd =>
    rw [hd] at hsame
    exact hsame rfl rfl rfl (by simp)
  | stuck hd =>
    rw [hd] at hsame
    exact hsame rfl rfl rfl (by simp)
  | removed hp hd =>
    rw [hd] at hsame
    exact hsame rfl rfl rfl (by simp)
  | moved hp hq hne hi hd =>
    rw [hd] at hsame
    exact hsame rfl rfl rfl (by simp)

/-- The entry that a name has. -/
theorem whole_move (hsound : Sound start w m vs) (hmove : Move jobs t (w, m, vs t) (w', m', v'))
    (h : ∀ p, ¬ Hidden p → Whole w vs (w.disk.names p) (m p)) (p : PathBuf) (hp : ¬ Hidden p) :
    Whole w' (Function.update vs t v') (w'.disk.names p) (m' p) := by
  have hold : ∀ q, ¬ Hidden q → Whole w' (Function.update vs t v') (w.disk.names q) (m q) :=
    fun q hq => (h q hq).move hmove
  have hstay : w'.disk.names p = w.disk.names p → m' p = m p →
      Whole w' (Function.update vs t v') (w'.disk.names p) (m' p) := by
    intro hnames hm
    rw [hnames, hm]
    exact hold p hp
  have hnone : w'.disk.names p = none → m' p = none →
      Whole w' (Function.update vs t v') (w'.disk.names p) (m' p) := by
    intro hnames hm
    rw [hnames, hm]
    exact Whole.none
  generalize hview : vs t = v at hmove
  cases hmove with
  | look hd => exact hstay (by rw [hd]) rfl
  | saw hd => exact hstay (by rw [hd]) rfl
  | opened hd => exact hstay (by rw [hd]) rfl
  | created hq hfree hd =>
    apply hstay _ rfl
    rw [hd]
    apply Function.update_of_ne
    intro hpq
    rw [hpq] at hp
    exact hp hq
  | filled hd => exact hstay (by rw [hd.names]) rfl
  | @published _ _ _ o q hq hf hd =>
    have hown := hsound.own t o hview
    have hpo : p ≠ o.name := by
      intro hpo
      rw [hpo] at hp
      exact hp hown.1
    have hnames : w'.disk.names p = Function.update w.disk.names q (w.disk.names o.name) p := by
      rw [hd]
      exact Function.update_of_ne hpo _ _
    by_cases hpq : p = q
    · -- the temp file, fenced as it was renamed
      have hdata : w'.disk.data = w.disk.data := by rw [hd]; rfl
      have hfenced : w'.disk.fenced = w.disk.fenced := by rw [hd]; rfl
      have hnext : w'.disk.next = w.disk.next := by rw [hd]; rfl
      rw [hnames, hpq, Function.update_self, Function.update_self, hown.2.1.name]
      apply Whole.file
      · rw [hdata]
        exact hown.2.1.bytes
      · rw [hfenced]
        exact hown.2.1.fenced.trans hf
      · rw [hnext]
        exact w.disk.fresh _ _ hown.2.1.name
      · intro u o' hu hsame
        by_cases hut : u = t
        · rw [hut, Function.update_self] at hu
          cases hu
        · rw [Function.update_of_ne hut] at hu
          exact hut (hsound.apart u t o' o hu hview hsame)
    · apply hstay
      · rw [hnames, Function.update_of_ne hpq]
      · exact Function.update_of_ne hpq _ _
  | @dropped _ _ _ o hd =>
    have hown := hsound.own t o hview
    have hpo : p ≠ o.name := by
      intro hpo
      rw [hpo] at hp
      exact hp hown.1
    apply hstay _ rfl
    rw [hd]
    exact Function.update_of_ne hpo _ _
  | stuck hd => exact hstay (by rw [hd]) rfl
  | @removed _ _ _ q hq hd =>
    have hnames : w'.disk.names p = Function.update w.disk.names q none p := by
      rw [hd]
      rfl
    by_cases hpq : p = q
    · rw [hpq] at hnames hnone ⊢
      rw [Function.update_self] at hnames
      exact hnone hnames (Function.update_self _ _ _)
    · apply hstay
      · rw [hnames, Function.update_of_ne hpq]
      · exact Function.update_of_ne hpq _ _
  | @moved _ _ _ q r i hq hr hne hi hd =>
    have hnames : w'.disk.names p =
        Function.update (Function.update w.disk.names r (w.disk.names q)) q none p := by
      rw [hd]
      rfl
    by_cases hpq : p = q
    · rw [hpq] at hnames hnone ⊢
      rw [Function.update_self] at hnames
      exact hnone hnames (Function.update_self _ _ _)
    · rw [Function.update_of_ne hpq] at hnames
      by_cases hpr : p = r
      · have hmq : m q = some (w.disk.data i) := by
          rw [← hsound.visible q hq, Disk.content, hi]
          rfl
        have hq' := hold q hq
        rw [hmq] at hq'
        rw [hnames, hpr, Function.update_self, Function.update_of_ne hne.symm,
          Function.update_self]
        exact hq'
      · apply hstay
        · rw [hnames, Function.update_of_ne hpr]
        · rw [Function.update_of_ne hpq, Function.update_of_ne hpr]

/-! ### The entries and the history -/

/-- The entries that each name had go with the moments of the map. -/
def Remembers (past : Pending PathBuf) (w : World PathBuf) (vs : ι → View)
    (ms : List (Moment Contents ι Answer)) : Prop :=
  ∀ p, ¬ Hidden p →
    Tracks (fun e mo => Whole w vs e (mo.1 p)) (w.disk.names p :: past p) ms

theorem Remembers.move {past : Pending PathBuf} {ms : List (Moment Contents ι Answer)}
    {now now' : ι → Option Answer} {β : Type} {c : Syscall PathBuf β}
    (hsound : Sound start w m vs) (hmove : Move jobs t (w, m, vs t) (w', m', v'))
    (h : Remembers past w vs ((m, now) :: ms)) :
    Remembers (Pending.note PathBuf.dir plan β c w past) w' (Function.update vs t v')
      ((m', now') :: (m, now) :: ms) := by
  have hnames : ∀ q, ¬ Hidden q → Whole w vs (w.disk.names q) (m q) := by
    intro q hq
    cases h q hq with
    | cons hw _ => exact hw
  intro p hp
  refine Tracks.cons (whole_move hsound hmove hnames p hp) ?_
  rcases Pending.note_cases PathBuf.dir plan c w past p with hnil | hcons
  · rw [hnil]
    exact Tracks.nil _
  · rw [hcons]
    exact (h p hp).mono fun e mo hw => hw.move hmove

/-! ### Acknowledged writes -/

/-- The file that the call writes. -/
def Job.writes : Job → Option PathBuf
  | .write _ _ path _ _ => some path
  | .writeCopy _ _ path _ _ => some path
  | .delete _ => none
  | .rename _ _ => none
  | .read .. => none
  | .exists_ _ => none
  | .size _ => none

theorem endsBehind_syncParent (path : PathBuf) :
    (Shared.syncParent path).EndsBehind (SyncOf path) := fun _ => Or.inl ⟨SyncOf.mk, (), rfl⟩

theorem endsBehind_atomicReplace (env : Env) (path : PathBuf) {rp : ReplacePlan}
    (hsync : rp.syncParent = true) (fill : PathBuf → ℕ → Bool → FileClient Error Unit) :
    (Shared.atomicReplace env path rp fill).EndsBehind (SyncOf path) := by
  apply Client.EndsBehind.bind
  intro x
  apply Client.EndsBehind.bind
  intro _
  rw [if_pos hsync]
  exact endsBehind_syncParent path

theorem endsBehind_mmapWrite (env : Env) (path : PathBuf) (data : Bytes) :
    (Shared.mmapWrite env path data).EndsBehind (SyncOf path) := by
  unfold Shared.mmapWrite
  split
  · apply Client.EndsBehind.bind
    intro x
    apply Client.EndsBehind.bind
    intro _
    exact endsBehind_syncParent path
  · trivial

/-- A write returns behind the sync of its directory. -/
theorem Job.endsBehind {j : Job} {path : PathBuf} (h : j.writes = some path) :
    j.client.EndsBehind (SyncOf path) := by
  cases j with
  | write env hd path' data fill =>
    cases h
    apply Client.EndsBehind.map
    unfold Shared.write
    split
    · split
      · exact endsBehind_mmapWrite env path data
      · exact endsBehind_atomicReplace env path rfl _
    · exact endsBehind_atomicReplace env path rfl _
  | writeCopy env hd path' data fill =>
    cases h
    apply Client.EndsBehind.map
    apply Client.EndsBehind.bind
    intro existing
    exact endsBehind_atomicReplace env path rfl _
  | delete path => cases h
  | rename old new => cases h
  | read env hd room path => cases h
  | exists_ path => cases h
  | size path => cases h

/-- A write of `path` has not returned yet, or it took place before all the moments that the
entries of `path` go with. -/
def Acked (past : Pending PathBuf) (c : FileClient Error Answer) (t : ι) (path : PathBuf)
    (ms : List (Moment Contents ι Answer)) : Prop :=
  c.EndsBehind (SyncOf path) ∨
    (∃ a, c = .done (.ok a)) ∧ ∀ mo ∈ ms.take ((past path).length + 1), mo.2 t ≠ none

variable {past : Pending PathBuf} {path : PathBuf} {ms : List (Moment Contents ι Answer)}
  {now now' : Moment Contents ι Answer} {β : Type} {c : Syscall PathBuf β}
  {k : β → FileClient Error Answer}

omit [DecidableEq ι] in
/-- Its last call. -/
theorem Acked.call (h : Acked past (.call c k) t path (now :: ms)) (a : β)
    (hworks : Io.Works plan (.syncDir path)) (htook : ∀ r, k a = .done (.ok r) → now'.2 t ≠ none) :
    Acked (Pending.note PathBuf.dir plan β c w past) (k a) t path (now' :: now :: ms) := by
  rcases h with h | ⟨⟨a, ha⟩, -⟩
  · rcases h a with ⟨hsync, r, hr⟩ | hk
    · refine Or.inr ⟨⟨r, hr⟩, ?_⟩
      rw [Pending.note_sync hsync hworks]
      intro mo hmo
      rw [List.mem_singleton.mp hmo]
      exact htook r hr
    · exact Or.inl hk
  · cases ha

omit [DecidableEq ι] in
/-- A call of another thread. -/
theorem Acked.other {r : FileClient Error Answer} (h : Acked past r t path (now :: ms))
    (hsame : now'.2 t = now.2 t) :
    Acked (Pending.note PathBuf.dir plan β c w past) r t path (now' :: now :: ms) := by
  rcases h with h | ⟨hr, h⟩
  · exact Or.inl h
  · refine Or.inr ⟨hr, ?_⟩
    have hnow : now'.2 t ≠ none := by
      rw [hsame]
      exact h now List.mem_cons_self
    rcases Pending.note_cases PathBuf.dir plan c w past path with hnil | hcons
    · rw [hnil]
      intro mo hmo
      rw [List.mem_singleton.mp hmo]
      exact hnow
    · rw [hcons]
      intro mo hmo
      rw [List.length_cons, List.take_succ_cons] at hmo
      rcases List.mem_cons.mp hmo with rfl | hmo
      · exact hnow
      · exact h mo hmo

/-! ### Runs -/

/-- What is kept beside a run. -/
structure CutInv (jobs : ι → Job) (plan : Plan PathBuf) (past : Pending PathBuf)
    (y : Threads (World PathBuf) ι (Syscall PathBuf) (Exit Error) Answer) (vs : ι → View)
    (ms : List (Moment Contents ι Answer)) : Prop where
  remembers : Remembers past y.state vs ms
  acked : (∀ p, Io.Works plan (.syncDir p)) → ∀ t path, (jobs t).writes = some path →
    Acked past (y.rest t) t path ms

/-- One call of a thread. -/
theorem CutInv.call {s : World PathBuf} {rest : ι → FileClient Error Answer}
    {took : ι → Option Answer} (h : CutInv jobs plan past ⟨s, rest⟩ vs ((m, took) :: ms))
    (hsound : Sound start s m vs) (hcall : rest t = .call c k)
    (hmove : Move jobs t (s, m, vs t) ((c plan s).2, m', v'))
    (htook : ∀ r, k (c plan s).1 = .done (.ok r) → v'.took ≠ none)
    {took' : ι → Option Answer} (htook' : took' = fun u => (Function.update vs t v' u).took)
    (hsame : took = fun u => (vs u).took) :
    CutInv jobs plan (Pending.note PathBuf.dir plan β c s past)
      ⟨(c plan s).2, Function.update rest t (k (c plan s).1)⟩ (Function.update vs t v')
      ((m', took') :: (m, took) :: ms) := by
  refine ⟨h.remembers.move hsound hmove, ?_⟩
  intro hworks u path hwrites
  have hacked := h.acked hworks u path hwrites
  show Acked _ (Function.update rest t (k (c plan s).1) u) u path _
  by_cases hu : u = t
  · rw [hu] at hacked ⊢
    rw [Function.update_self]
    rw [show (⟨s, rest⟩ : Threads _ ι _ _ _).rest t = .call c k from hcall] at hacked
    apply hacked.call _ (hworks path)
    intro r hr
    rw [htook']
    simp only [Function.update_self]
    exact htook r hr
  · rw [Function.update_of_ne hu]
    apply hacked.other
    rw [htook', hsame]
    simp only [Function.update_of_ne hu]

/-- However the system calls of the threads fall and wherever the power is cut: behind the cut
each name has a whole file that the map had there, or none where the map had none, of a moment
since the last sync of its directory; and a write that returned took place before all these
moments. -/
theorem power_cut_leaves_whole_files (jobs : ι → Job) (plan : Plan PathBuf)
    (hplan : Honest plan) (w : World PathBuf)
    (hlinked : ∀ p q i, w.disk.names p = some i → w.disk.names q = some i → p = q)
    (hfenced : ∀ p i, ¬ Hidden p → w.disk.names p = some i → w.disk.fenced i = true)
    (hjobs : ∀ t, (jobs t).Visible) {sched : List ι} {past : Pending PathBuf}
    {y : Threads (World PathBuf) ι (Syscall PathBuf) (Exit Error) Answer}
    (hrun : Threads.Recorded (Syscall.exec plan) (Pending.note PathBuf.dir plan)
      ⟨w, fun t => (jobs t).client⟩ (fun _ => []) sched y past) :
    ∃ ms now, Chronicle (fun t => (jobs t).spec) w.disk.content sched ms now ∧
      (∀ p, ¬ Hidden p → y.state.disk.content p = now.1 p) ∧
      (∀ img, y.state.disk.Image past img → ∀ p, ¬ Hidden p →
        ∃ mo ∈ (now :: ms).take ((past p).length + 1), img p = mo.1 p) ∧
      ((∀ p, Io.Works plan (.syncDir p)) → ∀ t path, (jobs t).writes = some path →
        (∃ a, y.rest t = .done (.ok a)) →
        ∀ mo ∈ (now :: ms).take ((past path).length + 1), mo.2 t ≠ none) := by
  have hstart : (storeProtocol jobs w.disk).Sound w w.disk.content fun _ => .idle :=
    sound_start w hlinked
  have hentries : Remembers (fun _ => []) w (fun _ : ι => .idle)
      [(w.disk.content, fun _ => none)] := by
    intro p hp
    refine Tracks.cons ?_ (Tracks.nil _)
    show Whole w _ (w.disk.names p) ((w.disk.names p).map w.disk.data)
    cases hi : w.disk.names p with
    | none => exact Whole.none
    | some i =>
      apply Whole.file rfl (hfenced p i hp hi) (w.disk.fresh p i hi)
      intro u o hu
      cases hu
  have hinv : CutInv jobs plan (fun _ => []) ⟨w, fun t => (jobs t).client⟩ (fun _ => .idle)
      [(w.disk.content, fun _ => none)] :=
    ⟨hentries, fun _ t path ht => Or.inl (Job.endsBehind ht)⟩
  obtain ⟨m, vs, ms, hchron, hsound, hsafe, hcut⟩ := Protocol.chronicles
    (Q := fun t => (jobs t).Ends plan)
    (I := fun past y m vs ms => CutInv jobs plan past y vs
      ((storeProtocol jobs w.disk).moment m vs :: ms))
    hstart (fun _ => rfl) (fun t => Job.safe hplan (hjobs t)) hinv
    (by
      intro past s rest m vs ms t β c k m' v' hsound hcall hmove hk h
      apply h.call hsound hcall hmove _ rfl rfl
      intro r hr
      have hends : Safe jobs w.disk plan t ((jobs t).Ends plan) (k (c plan s).1) v' := hk
      rw [hr] at hends
      have htook : v'.took = some r := hends
      rw [htook]
      simp)
    hrun
  refine ⟨ms, _, hchron, hsound.visible, ?_, ?_⟩
  · intro img himg p hp
    obtain ⟨e, he, hleft⟩ := himg p
    obtain ⟨mo, hmo, hwhole⟩ := (hcut.remembers p hp).exists_moment he
    exact ⟨mo, hmo, hwhole.left hleft⟩
  · intro hworks t path hwrites hdone
    rcases hcut.acked hworks t path hwrites with h | ⟨-, h⟩
    · obtain ⟨a, ha⟩ := hdone
      rw [ha] at h
      exact h.elim
    · exact h

end

/-- The run of `shared_store_linearizable_overtaken`: the write has returned. -/
theorem power_cut_leaves_whole_files_overtaken :
    ∃ (jobs : Bool → Job)
      (y : Threads (World PathBuf) Bool (Syscall PathBuf) (Exit Error) Answer)
      (past : Pending PathBuf) (ms : List (Moment Contents Bool Answer)) (now : _),
      Threads.Recorded (Syscall.exec collidingEnv.plan)
        (Pending.note PathBuf.dir collidingEnv.plan)
        ⟨sharedWorld, fun t => (jobs t).client⟩ (fun _ => [])
        [true, false, false, false, false, false, false, false, false, true, true] y past ∧
      y.state.disk.content collidingTarget = some [7] ∧
      ∀ img, y.state.disk.Image past img →
        ∃ mo ∈ (now :: ms).take ((past collidingTarget).length + 1),
          img collidingTarget = mo.1 collidingTarget ∧ mo.2 false ≠ none := by
  obtain ⟨fill⟩ := exists_filler mappedEnv mappedHandle.fallback.replacePlan
    (.solo mappedHandle.fallback) [7]
  have hplan : Honest collidingEnv.plan := by
    intro c t e n h
    cases h
  have hjobs : ∀ t, (readDuringWrite fill t).Visible := by
    intro t
    cases t with
    | true => exact collidingTarget_visible
    | false => exact collidingTarget_visible
  have hstart : Threads.Recorded (Syscall.exec collidingEnv.plan)
      (Pending.note PathBuf.dir collidingEnv.plan)
      ⟨sharedWorld, fun t => (readDuringWrite fill t).client⟩ (fun _ => []) [] _ (fun _ => []) :=
    Threads.Recorded.nil
  have hopen := hstart.snoc (t := true) rfl
  have hcreate := hopen.snoc (t := false) rfl
  have hlen := hcreate.snoc (t := false) rfl
  have hmap := hlen.snoc (t := false) rfl
  have hstore := hmap.snoc (t := false) rfl
  have hmsync := hstore.snoc (t := false) rfl
  have hfence := hmsync.snoc (t := false) rfl
  have hrename := hfence.snoc (t := false) rfl
  have hsync := hrename.snoc (t := false) rfl
  have hread := hsync.snoc (t := true) rfl
  have hend := hread.snoc (t := true) rfl
  obtain ⟨ms, now, -, -, hwhole, hacked⟩ := power_cut_leaves_whole_files
    (readDuringWrite fill) collidingEnv.plan hplan sharedWorld sharedWorld_linked
    (fun _ _ _ _ => rfl) hjobs hend
  have htook := hacked (fun _ _ => ⟨_, rfl⟩) false collidingTarget rfl ⟨_, rfl⟩
  refine ⟨readDuringWrite fill, _, _, ms, now, hend, rfl, fun img himg => ?_⟩
  obtain ⟨mo, hmo, hb⟩ := hwhole img himg collidingTarget collidingTarget_visible
  exact ⟨mo, hmo, hb, htook mo hmo⟩

end Fsys.Crud
