import Fsys.Crud.SharedStore

/-!
# Moves keep the store sound

Whatever one thread does within the rules, the others find their files as they left them, and
the disk shows what the map says.
-/

namespace Fsys.Crud
open Fsys.Base Fsys.Platform

variable {ι : Type} [DecidableEq ι] {start : Disk PathBuf} {w w' : World PathBuf}
  {m m' : Contents} {vs : ι → View} {t : ι}

theorem Hidden.ne {p q : PathBuf} (hq : Hidden q) (hp : ¬ Hidden p) : q ≠ p := by
  intro heq
  exact hp (heq ▸ hq)

/-! ### Threads that do not move -/

/-- What the thread `t` left alone. -/
structure Undisturbed (vs : ι → View) (t : ι) (w w' : World PathBuf) : Prop where
  staged : ∀ u o, u ≠ t → vs u = .staged o → o.In w'
  opened : ∀ u i b, u ≠ t → vs u = .reading i b → w'.disk.data i = b
  next : w.disk.next ≤ w'.disk.next

/-- The rest of soundness, for the new view of the thread that moved. -/
structure Settled (start : Disk PathBuf) (vs : ι → View) (t : ι) (w' : World PathBuf)
    (v' : View) : Prop where
  own : ∀ o, v' = .staged o → Hidden o.name ∧ o.In w' ∧ start.next ≤ o.file ∧
    (∀ u o', u ≠ t → vs u = .staged o' → o'.file ≠ o.file) ∧
    ∀ u i b, u ≠ t → vs u = .reading i b → i ≠ o.file
  opened : ∀ i b, v' = .reading i b → w'.disk.data i = b ∧ i < w'.disk.next ∧
    ∀ u o, u ≠ t → vs u = .staged o → o.file ≠ i

/-- The disk after the move. -/
structure Shown (start : Disk PathBuf) (w' : World PathBuf) (m' : Contents) (vs' : ι → View) :
    Prop where
  linked : ∀ p q i, w'.disk.names p = some i → w'.disk.names q = some i → p = q
  visible : ∀ p, ¬ Hidden p → w'.disk.content p = m' p
  fenced : ∀ p i, ¬ Hidden p → w'.disk.names p = some i → start.next ≤ i →
    w'.disk.fenced i = true
  hidden : ∀ p, Hidden p → w'.disk.names p ≠ none → start.names p ≠ none ∨
    ∃ t o, (vs' t).Holds o ∧ o.name = p

theorem Sound.step (h : Sound start w m vs) {v' : View} (hu : Undisturbed vs t w w')
    (hv : Settled start vs t w' v') (hs : Shown start w' m' (Function.update vs t v')) :
    Sound start w' m' (Function.update vs t v') := by
  have hself : Function.update vs t v' t = v' := Function.update_self _ _ _
  have hother : ∀ u, u ≠ t → Function.update vs t v' u = vs u :=
    fun u hne => Function.update_of_ne hne _ _
  refine ⟨hs.linked, hs.visible, Nat.le_trans h.next hu.next, ?_, ?_, ?_, hs.fenced, hs.hidden⟩
  · intro u o hview
    by_cases hut : u = t
    · rw [hut, hself] at hview
      obtain ⟨hname, hin, hfile, -, -⟩ := hv.own o hview
      exact ⟨hname, hin, hfile⟩
    · rw [hother u hut] at hview
      obtain ⟨hname, -, hfile⟩ := h.own u o hview
      exact ⟨hname, hu.staged u o hut hview, hfile⟩
  · intro u x o o' hview hview' hfile
    by_cases hut : u = t
    · by_cases hxt : x = t
      · rw [hut, hxt]
      · rw [hut, hself] at hview
        rw [hother x hxt] at hview'
        exact absurd hfile.symm ((hv.own o hview).2.2.2.1 x o' hxt hview')
    · rw [hother u hut] at hview
      by_cases hxt : x = t
      · rw [hxt, hself] at hview'
        exact absurd hfile ((hv.own o' hview').2.2.2.1 u o hut hview)
      · rw [hother x hxt] at hview'
        exact h.apart u x o o' hview hview' hfile
  · intro u i b hview
    by_cases hut : u = t
    · rw [hut, hself] at hview
      obtain ⟨hdata, hlt, hapart⟩ := hv.opened i b hview
      refine ⟨hdata, hlt, ?_⟩
      intro x o hstaged
      by_cases hxt : x = t
      · rw [hxt, hself, hview] at hstaged
        cases hstaged
      · rw [hother x hxt] at hstaged
        exact hapart x o hxt hstaged
    · rw [hother u hut] at hview
      obtain ⟨-, hlt, hapart⟩ := h.opened u i b hview
      refine ⟨hu.opened u i b hut hview, Nat.lt_of_lt_of_le hlt hu.next, ?_⟩
      intro x o hstaged
      by_cases hxt : x = t
      · rw [hxt, hself] at hstaged
        exact ((hv.own o hstaged).2.2.2.2 u i b hut hview).symm
      · rw [hother x hxt] at hstaged
        exact hapart x o hstaged

omit [DecidableEq ι] in
/-- A view that has no file. -/
theorem settled_bare {v' : View} (hown : ∀ o, v' ≠ .staged o)
    (hopen : ∀ i b, v' ≠ .reading i b) : Settled start vs t w' v' :=
  ⟨fun o ho => absurd ho (hown o), fun i b hb => absurd hb (hopen i b)⟩

omit [DecidableEq ι] in
/-- The view that the thread had. -/
theorem Sound.settled (h : Sound start w m vs) (hin : ∀ o, vs t = .staged o → o.In w')
    (hopen : ∀ i b, vs t = .reading i b → w'.disk.data i = b)
    (hnext : w.disk.next ≤ w'.disk.next) : Settled start vs t w' (vs t) := by
  constructor
  · intro o ho
    obtain ⟨hname, -, hfile⟩ := h.own t o ho
    refine ⟨hname, hin o ho, hfile, ?_, ?_⟩
    · intro u o' hut hu heq
      exact hut (h.apart u t o' o hu ho heq)
    · intro u i b hut hu heq
      exact (h.opened u i b hu).2.2 t o ho heq.symm
  · intro i b hb
    obtain ⟨-, hlt, hapart⟩ := h.opened t i b hb
    exact ⟨hopen i b hb, Nat.lt_of_lt_of_le hlt hnext, fun u o _ hu => hapart u o hu⟩

/-- Who answers for a temp file when the view of one thread changes. -/
theorem Sound.holder (h : Sound start w m vs) {v' : View} {p : PathBuf} (hp : Hidden p)
    (hname : w.disk.names p ≠ none)
    (hv : ∀ o, (vs t).Holds o → o.name = p → ∃ o', v'.Holds o' ∧ o'.name = p) :
    start.names p ≠ none ∨ ∃ u o, (Function.update vs t v' u).Holds o ∧ o.name = p := by
  rcases h.hidden p hp hname with hold | ⟨u, o, ho, hop⟩
  · exact Or.inl hold
  · right
    by_cases hut : u = t
    · rw [hut] at ho
      obtain ⟨o', ho', hop'⟩ := hv o ho hop
      exact ⟨t, o', by rwa [Function.update_self], hop'⟩
    · exact ⟨u, o, by rwa [Function.update_of_ne hut], hop⟩

/-! ### The disk stays -/

omit [DecidableEq ι] in
theorem Sound.undisturbed (h : Sound start w m vs) (hd : w'.disk = w.disk) :
    Undisturbed vs t w w' := by
  refine ⟨?_, ?_, ?_⟩
  · intro u o _ hu
    exact (h.own u o hu).2.1.of_disk hd
  · intro u i b _ hu
    rw [hd]
    exact (h.opened u i b hu).1
  · rw [hd]

/-- A move that leaves the disk alone. -/
theorem Sound.quiet (h : Sound start w m vs) {v' : View} (hd : w'.disk = w.disk)
    (hv : Settled start vs t w' v')
    (hold : ∀ o, (vs t).Holds o → v'.Holds o) : Sound start w' m (Function.update vs t v') := by
  refine h.step (h.undisturbed hd) hv ⟨?_, ?_, ?_, ?_⟩
  · rw [hd]
    exact h.linked
  · intro p hp
    rw [hd]
    exact h.visible p hp
  · rw [hd]
    exact h.fenced
  · intro p hp hname
    rw [hd] at hname
    exact h.holder hp hname fun o ho hop => ⟨o, hold o ho, hop⟩

/-! ### A file of one's own -/

theorem Sound.created (h : Sound start w m vs) {temp : PathBuf} (hidle : vs t = .idle)
    (hp : Hidden temp) (hfree : w.disk.names temp = none) (hd : w'.disk = w.disk.create temp) :
    Sound start w' m (Function.update vs t (.staged ⟨temp, w.disk.next, [], false⟩)) := by
  have hnames : ∀ q, q ≠ temp → w'.disk.names q = w.disk.names q := by
    intro q hq
    rw [hd]
    exact Function.update_of_ne hq _ _
  have htemp : w'.disk.names temp = some w.disk.next := by
    rw [hd]
    exact Function.update_self _ _ _
  have hdata : ∀ i, i < w.disk.next → w'.disk.data i = w.disk.data i := by
    intro i hi
    rw [hd]
    exact Function.update_of_ne (Nat.ne_of_lt hi) _ _
  have hfence : ∀ i, i < w.disk.next → w'.disk.fenced i = w.disk.fenced i := by
    intro i hi
    rw [hd]
    exact Function.update_of_ne (Nat.ne_of_lt hi) _ _
  have hlt : ∀ u o, vs u = .staged o → o.file < w.disk.next := by
    intro u o hu
    exact w.disk.fresh _ _ (h.own u o hu).2.1.name
  refine h.step ⟨?_, ?_, ?_⟩ ⟨?_, ?_⟩ ⟨?_, ?_, ?_, ?_⟩
  · intro u o _ hu
    have hin := (h.own u o hu).2.1
    refine ⟨?_, (hdata _ (hlt u o hu)).trans hin.bytes, (hfence _ (hlt u o hu)).trans hin.fenced⟩
    rw [hnames]
    · exact hin.name
    · intro heq
      have hname := hin.name
      rw [heq, hfree] at hname
      cases hname
  · intro u i b _ hu
    obtain ⟨hb, hi, -⟩ := h.opened u i b hu
    rw [hdata i hi, hb]
  · rw [hd]
    exact Nat.le_succ _
  · intro o ho
    cases ho
    refine ⟨hp, ⟨htemp, ?_, ?_⟩, h.next, ?_, ?_⟩
    · rw [hd]
      exact Function.update_self _ _ _
    · rw [hd]
      exact Function.update_self _ _ _
    · intro u o' _ hu
      exact Nat.ne_of_lt (hlt u o' hu)
    · intro u i b _ hu
      exact Nat.ne_of_lt (h.opened u i b hu).2.1
  · intro i b hb
    cases hb
  · intro p q i hpi hqi
    by_cases hpt : p = temp
    · by_cases hqt : q = temp
      · rw [hpt, hqt]
      · rw [hpt, htemp] at hpi
        rw [hnames q hqt] at hqi
        have := w.disk.fresh q i hqi
        cases hpi
        omega
    · rw [hnames p hpt] at hpi
      by_cases hqt : q = temp
      · rw [hqt, htemp] at hqi
        have := w.disk.fresh p i hpi
        cases hqi
        omega
      · rw [hnames q hqt] at hqi
        exact h.linked p q i hpi hqi
  · intro p hpv
    have hne : p ≠ temp := (hp.ne hpv).symm
    rw [← h.visible p hpv]
    unfold Disk.content
    rw [hnames p hne]
    cases hn : w.disk.names p with
    | none => rfl
    | some i => exact congrArg some (hdata i (w.disk.fresh p i hn))
  · intro p i hpv hpi hi
    have hne : p ≠ temp := (hp.ne hpv).symm
    rw [hnames p hne] at hpi
    rw [hfence i (w.disk.fresh p i hpi)]
    exact h.fenced p i hpv hpi hi
  · intro p hph hname
    by_cases hpt : p = temp
    · refine Or.inr ⟨t, ⟨temp, w.disk.next, [], false⟩, ?_, hpt.symm⟩
      rw [Function.update_self]
      exact Or.inl rfl
    · rw [hnames p hpt] at hname
      refine h.holder hph hname ?_
      intro o ho
      rw [hidle] at ho
      rcases ho with ho | ho
      · cases ho
      · cases ho

theorem Sound.filled (h : Sound start w m vs) {o : Own PathBuf} (hview : vs t = .staged o)
    (hd : w.disk.Touches o.file w'.disk)
    (hf : ∀ j, j ≠ o.file → w'.disk.fenced j = w.disk.fenced j) :
    Sound start w' m (Function.update vs t (.staged (o.now w'))) := by
  obtain ⟨hname, hin, hfile⟩ := h.own t o hview
  refine h.step ⟨?_, ?_, ?_⟩ ⟨?_, ?_⟩ ⟨?_, ?_, ?_, ?_⟩
  · intro u o' hut hu
    have hin' := (h.own u o' hu).2.1
    have hne : o'.file ≠ o.file := fun heq => hut (h.apart u t o' o hu hview heq)
    refine ⟨?_, (hd.data _ hne).trans hin'.bytes, (hf _ hne).trans hin'.fenced⟩
    rw [hd.names]
    exact hin'.name
  · intro u i b _ hu
    obtain ⟨hb, -, hapart⟩ := h.opened u i b hu
    rw [hd.data i (hapart t o hview).symm, hb]
  · rw [hd.next]
  · intro o' ho'
    cases ho'
    refine ⟨hname, ⟨?_, rfl, rfl⟩, hfile, ?_, ?_⟩
    · rw [hd.names]
      exact hin.name
    · intro u o' hut hu heq
      exact hut (h.apart u t o' o hu hview heq)
    · intro u i b _ hu heq
      exact (h.opened u i b hu).2.2 t o hview heq.symm
  · intro i b hb
    cases hb
  · rw [hd.names]
    exact h.linked
  · intro p hp
    rw [← h.visible p hp]
    unfold Disk.content
    rw [hd.names]
    cases hn : w.disk.names p with
    | none => rfl
    | some i =>
      have hne : i ≠ o.file := by
        intro heq
        rw [heq] at hn
        exact hp (h.linked p o.name _ hn hin.name ▸ hname)
      exact congrArg some (hd.data i hne)
  · intro p i hp hpi hi
    rw [hd.names] at hpi
    have hne : i ≠ o.file := by
      intro heq
      rw [heq] at hpi
      exact hp (h.linked p o.name _ hpi hin.name ▸ hname)
    rw [hf i hne]
    exact h.fenced p i hp hpi hi
  · intro p hp hpn
    rw [hd.names] at hpn
    refine h.holder hp hpn ?_
    intro o' ho' hop
    rw [hview] at ho'
    rcases ho' with ho' | ho'
    · cases ho'
      exact ⟨o.now w', Or.inl rfl, hop⟩
    · cases ho'

/-! ### Names -/

section

variable {d : Disk PathBuf} {p q r s : PathBuf} {i : ℕ}

theorem names_unlink_self : (d.unlink p).names p = none := Function.update_self _ _ _

theorem names_unlink (h : q ≠ p) : (d.unlink p).names q = d.names q := Function.update_of_ne h _ _

theorem linked_unlink (h : ∀ p q i, d.names p = some i → d.names q = some i → p = q)
    (hr : (d.unlink p).names r = some i) (hs : (d.unlink p).names s = some i) : r = s := by
  have hrp : r ≠ p := by
    intro heq
    rw [heq, names_unlink_self] at hr
    cases hr
  have hsp : s ≠ p := by
    intro heq
    rw [heq, names_unlink_self] at hs
    cases hs
  rw [names_unlink hrp] at hr
  rw [names_unlink hsp] at hs
  exact h r s i hr hs

theorem names_rename_source : (d.rename p q).names p = none := Function.update_self _ _ _

theorem names_rename_target (h : q ≠ p) : (d.rename p q).names q = d.names p :=
  (Function.update_of_ne h _ _).trans (Function.update_self _ _ _)

theorem names_rename (hp : r ≠ p) (hq : r ≠ q) : (d.rename p q).names r = d.names r :=
  (Function.update_of_ne hp _ _).trans (Function.update_of_ne hq _ _)

/-- A name after a rename: another one as it was, or the target. -/
theorem names_rename_some (hr : (d.rename p q).names r = some i) :
    r ≠ p ∧ (r = q ∧ d.names p = some i ∨ r ≠ q ∧ d.names r = some i) := by
  have hrp : r ≠ p := by
    intro heq
    rw [heq, names_rename_source] at hr
    cases hr
  refine ⟨hrp, ?_⟩
  by_cases hrq : r = q
  · rw [hrq, names_rename_target (hrq ▸ hrp)] at hr
    exact Or.inl ⟨hrq, hr⟩
  · rw [names_rename hrp hrq] at hr
    exact Or.inr ⟨hrq, hr⟩

theorem linked_rename (h : ∀ p q i, d.names p = some i → d.names q = some i → p = q)
    (hr : (d.rename p q).names r = some i) (hs : (d.rename p q).names s = some i) : r = s := by
  obtain ⟨hrp, ⟨hrq, hr⟩ | ⟨-, hr⟩⟩ := names_rename_some hr
  · obtain ⟨hsp, ⟨hsq, -⟩ | ⟨-, hs⟩⟩ := names_rename_some hs
    · rw [hrq, hsq]
    · exact absurd (h p s i hr hs).symm hsp
  · obtain ⟨hsp, ⟨-, hs⟩ | ⟨-, hs⟩⟩ := names_rename_some hs
    · exact absurd (h p r i hs hr).symm hrp
    · exact h r s i hr hs

end

/-- A move that changes names only, and of the hidden ones at most its own. -/
theorem Sound.named (h : Sound start w m vs) {v' : View}
    (hdata : w'.disk.data = w.disk.data) (hfence : w'.disk.fenced = w.disk.fenced)
    (hnext : w'.disk.next = w.disk.next) (hown : ∀ o, v' ≠ .staged o)
    (hopen : ∀ i b, v' ≠ .reading i b)
    (hkeep : ∀ p, Hidden p → (∀ o, vs t = .staged o → p ≠ o.name) →
      w'.disk.names p = w.disk.names p)
    (hgone : ∀ o, vs t = .staged o → w'.disk.names o.name = none)
    (hstuck : ∀ o, vs t ≠ .stuck o)
    (hlinked : ∀ p q i, w'.disk.names p = some i → w'.disk.names q = some i → p = q)
    (hvisible : ∀ p, ¬ Hidden p → w'.disk.content p = m' p)
    (hfenced : ∀ p i, ¬ Hidden p → w'.disk.names p = some i → start.next ≤ i →
      w.disk.fenced i = true) : Sound start w' m' (Function.update vs t v') := by
  refine h.step ⟨?_, ?_, ?_⟩ (settled_bare hown hopen) ⟨hlinked, hvisible, ?_, ?_⟩
  · intro u o hut hu
    obtain ⟨hname, hin, -⟩ := h.own u o hu
    refine ⟨?_, ?_, ?_⟩
    · rw [hkeep o.name hname]
      · exact hin.name
      · intro o' ho' heq
        have hfile := (h.own t o' ho').2.1.name
        rw [← heq, hin.name] at hfile
        exact hut (h.apart u t o o' hu ho' (Option.some.inj hfile))
    · rw [hdata]
      exact hin.bytes
    · rw [hfence]
      exact hin.fenced
  · intro u i b _ hu
    rw [hdata]
    exact (h.opened u i b hu).1
  · rw [hnext]
  · intro p i hp hpi hi
    rw [hfence]
    exact hfenced p i hp hpi hi
  · intro p hp hname
    have hother : ∀ o, vs t = .staged o → p ≠ o.name := by
      intro o ho heq
      rw [heq, hgone o ho] at hname
      exact hname rfl
    rw [hkeep p hp hother] at hname
    refine h.holder hp hname ?_
    intro o ho hop
    rcases ho with ho | ho
    · exact absurd hop.symm (hother o ho)
    · exact absurd ho (hstuck o)

theorem Sound.dropped (h : Sound start w m vs) {o : Own PathBuf} (hview : vs t = .staged o)
    (hd : w'.disk = w.disk.unlink o.name) : Sound start w' m (Function.update vs t .idle) := by
  have hname := (h.own t o hview).1
  have hvis : ∀ p, ¬ Hidden p → w'.disk.names p = w.disk.names p := by
    intro p hp
    rw [hd, names_unlink (hname.ne hp).symm]
  refine h.named (by rw [hd]; rfl) (by rw [hd]; rfl) (by rw [hd]; rfl) (by simp) (by simp)
    ?_ ?_ (by simp [hview]) ?_ ?_ ?_
  · intro p _ hne
    rw [hd, names_unlink (hne o hview)]
  · intro o' ho'
    rw [hview] at ho'
    cases ho'
    rw [hd, names_unlink_self]
  · intro p q i hp hq
    rw [hd] at hp hq
    exact linked_unlink h.linked hp hq
  · intro p hp
    rw [← h.visible p hp]
    unfold Disk.content
    rw [hvis p hp, hd]
    rfl
  · intro p i hp hpi hi
    rw [hvis p hp] at hpi
    exact h.fenced p i hp hpi hi

/-- The rename that publishes a temp file: the target has its bytes. -/
theorem Sound.published (h : Sound start w m vs) {o : Own PathBuf} {p : PathBuf} {v' : View}
    (hview : vs t = .staged o) (hown : ∀ o, v' ≠ .staged o) (hopen : ∀ i b, v' ≠ .reading i b)
    (hp : ¬ Hidden p) (hf : o.fenced = true) (hd : w'.disk = w.disk.rename o.name p) :
    Sound start w' (Function.update m p (some o.bytes)) (Function.update vs t v') := by
  obtain ⟨hname, hin, -⟩ := h.own t o hview
  have hvis : ∀ q, ¬ Hidden q → q ≠ o.name := fun q hq => (hname.ne hq).symm
  refine h.named (by rw [hd]; rfl) (by rw [hd]; rfl) (by rw [hd]; rfl) hown hopen
    ?_ ?_ (by simp [hview]) ?_ ?_ ?_
  · intro q hq hne
    rw [hd, names_rename (hne o hview) (hq.ne hp)]
  · intro o' ho'
    rw [hview] at ho'
    cases ho'
    rw [hd, names_rename_source]
  · intro q r i hq hr
    rw [hd] at hq hr
    exact linked_rename h.linked hq hr
  · intro q hq
    unfold Disk.content
    by_cases hqp : q = p
    · rw [hqp, Function.update_self, hd, names_rename_target (hvis p hp), hin.name]
      exact congrArg some hin.bytes
    · rw [Function.update_of_ne hqp, ← h.visible q hq, hd, names_rename (hvis q hq) hqp]
      rfl
  · intro q i hq hqi hi
    rw [hd] at hqi
    obtain ⟨-, ⟨-, hqi⟩ | ⟨-, hqi⟩⟩ := names_rename_some hqi
    · rw [hin.name] at hqi
      cases hqi
      rw [hin.fenced, hf]
    · exact h.fenced q i hq hqi hi

theorem Sound.removed (h : Sound start w m vs) {p : PathBuf} {v' : View}
    (hview : vs t = .idle) (hown : ∀ o, v' ≠ .staged o) (hopen : ∀ i b, v' ≠ .reading i b)
    (hp : ¬ Hidden p) (hd : w'.disk = w.disk.unlink p) :
    Sound start w' (Function.update m p none) (Function.update vs t v') := by
  refine h.named (by rw [hd]; rfl) (by rw [hd]; rfl) (by rw [hd]; rfl) hown hopen
    ?_ (by simp [hview]) (by simp [hview]) ?_ ?_ ?_
  · intro q hq _
    rw [hd, names_unlink (hq.ne hp)]
  · intro q r i hq hr
    rw [hd] at hq hr
    exact linked_unlink h.linked hq hr
  · intro q hq
    unfold Disk.content
    by_cases hqp : q = p
    · rw [hqp, Function.update_self, hd, names_unlink_self]
      rfl
    · rw [Function.update_of_ne hqp, ← h.visible q hq, hd, names_unlink hqp]
      rfl
  · intro q i hq hqi hi
    by_cases hqp : q = p
    · rw [hqp, hd, names_unlink_self] at hqi
      cases hqi
    · rw [hd, names_unlink hqp] at hqi
      exact h.fenced q i hq hqi hi

theorem Sound.moved (h : Sound start w m vs) {p q : PathBuf} {i : ℕ} {v' : View}
    (hview : vs t = .idle) (hown : ∀ o, v' ≠ .staged o) (hopen : ∀ i b, v' ≠ .reading i b)
    (hp : ¬ Hidden p) (hq : ¬ Hidden q) (hi : w.disk.names p = some i)
    (hd : w'.disk = w.disk.rename p q) :
    Sound start w' (Function.update (Function.update m q (some (w.disk.data i))) p none)
      (Function.update vs t v') := by
  refine h.named (by rw [hd]; rfl) (by rw [hd]; rfl) (by rw [hd]; rfl) hown hopen
    ?_ (by simp [hview]) (by simp [hview]) ?_ ?_ ?_
  · intro r hr _
    rw [hd, names_rename (hr.ne hp) (hr.ne hq)]
  · intro r s j hr hs
    rw [hd] at hr hs
    exact linked_rename h.linked hr hs
  · intro r hr
    unfold Disk.content
    by_cases hrp : r = p
    · rw [hrp, Function.update_self, hd, names_rename_source]
      rfl
    · rw [Function.update_of_ne hrp]
      by_cases hrq : r = q
      · rw [hrq, Function.update_self, hd, names_rename_target (hrq ▸ hrp), hi]
        rfl
      · rw [Function.update_of_ne hrq, ← h.visible r hr, hd, names_rename hrp hrq]
        rfl
  · intro r j hr hrj hj
    rw [hd] at hrj
    obtain ⟨-, ⟨-, hrj⟩ | ⟨-, hrj⟩⟩ := names_rename_some hrj
    · exact h.fenced p j hp hrj hj
    · exact h.fenced r j hr hrj hj

/-! ### The rules of the store -/

theorem Sound.move {jobs : ι → Job} (h : Sound start w m vs) {v' : View}
    (hm : Move jobs t (w, m, vs t) (w', m', v')) :
    Sound start w' m' (Function.update vs t v') := by
  generalize hv : vs t = v at hm
  cases hm with
  | look hd =>
    refine h.quiet hd ?_ fun o ho => hv ▸ ho
    rw [← hv]
    refine h.settled ?_ ?_ ?_
    · intro o ho
      exact (h.own t o ho).2.1.of_disk hd
    · intro i b hb
      rw [hd]
      exact (h.opened t i b hb).1
    · rw [hd]
  | saw hd hs =>
    refine h.quiet hd (settled_bare (by simp) (by simp)) ?_
    simp [hv, View.Holds]
  | opened hd hp hi hs =>
    refine h.quiet hd ⟨by simp, ?_⟩ (by simp [hv, View.Holds])
    intro i b hb
    cases hb
    rename_i p j
    refine ⟨by rw [hd], ?_, ?_⟩
    · rw [hd]
      exact w.disk.fresh p j hi
    · intro u o _ hu heq
      obtain ⟨hname, hin, -⟩ := h.own u o hu
      have hfile := hin.name
      rw [heq] at hfile
      exact hp (h.linked _ _ j hi hfile ▸ hname)
  | created hp hfree hd => exact h.created hv hp hfree hd
  | filled hd hf => exact h.filled hv hd hf
  | published hp hf hd hs => exact h.published hv (by simp) (by simp) hp hf hd
  | dropped hd => exact h.dropped hv hd
  | stuck hd =>
    refine h.quiet hd (settled_bare (by simp) (by simp)) ?_
    intro o ho
    rw [hv] at ho
    rcases ho with ho | ho
    · cases ho
      exact Or.inr rfl
    · cases ho
  | removed hp hd hs => exact h.removed hv (by simp) (by simp) hp hd
  | moved hp hq hne hi hd hs => exact h.moved hv (by simp) (by simp) hp hq hi hd

omit [DecidableEq ι] in
theorem Move.linear {jobs : ι → Job} {v v' : View} (h : Move jobs t (w, m, v) (w', m', v')) :
    (m' = m ∧ v'.took = v.took) ∨
      v.took = none ∧ ∃ a, (jobs t).spec m = some (a, m') ∧ v'.took = some a := by
  cases h with
  | look hd => exact Or.inl ⟨rfl, rfl⟩
  | saw hd hs => exact Or.inr ⟨rfl, _, hs, rfl⟩
  | opened hd hp hi hs => exact Or.inr ⟨rfl, _, hs, rfl⟩
  | created hp hfree hd => exact Or.inl ⟨rfl, rfl⟩
  | filled hd hf => exact Or.inl ⟨rfl, rfl⟩
  | published hp hf hd hs => exact Or.inr ⟨rfl, _, hs, rfl⟩
  | dropped hd => exact Or.inl ⟨rfl, rfl⟩
  | stuck hd => exact Or.inl ⟨rfl, rfl⟩
  | removed hp hd hs => exact Or.inr ⟨rfl, _, hs, rfl⟩
  | moved hp hq hne hi hd hs => exact Or.inr ⟨rfl, _, hs, rfl⟩

/-- The protocol of the store. -/
def storeProtocol (jobs : ι → Job) (start : Disk PathBuf) :
    Protocol (World PathBuf) Contents ι View Answer where
  spec t := (jobs t).spec
  took := View.took
  Sound := Sound start
  Move := Move jobs
  sound h hm := h.move hm
  linear hm := hm.linear

end Fsys.Crud
