import Fsys.Handle.MethodWord

/-!
# Fallbacks and `set_method` (src/handle.rs:628-654, 1043-1063, src/crud/file.rs:269-303)

Within one configuration the active method is the resolved one, or what a call of that
configuration fell back to. A call that a `set_method` overtook breaks this: its exchange
keeps the new configured byte and stores the fallback it had decided on before.
-/

namespace Fsys.MethodWord

open Fsys.Base Fsys.Crud

variable {T : Type} {host : Host} {s s' : Sys T} {r a a' : Method} {p p' : Pc}

/-! ### What holds of the word -/

/-- Direct refused, or a mapping that does not suit. -/
def Downgrade (r m : Method) : Prop := r = .direct ∧ m = .data ∨ r = .mmap ∧ m = .sync

/-- The active method is concrete; it is the resolved configured method, or the fallback of a
call that began under this configuration and was refused what it had asked for. -/
structure Honoured (host : Host) (s : Sys T) : Prop where
  concrete : s.activeMethod ≠ .auto
  active : s.activeMethod = resolve host s.method ∨
    ∃ f, s.last = some f ∧ s.activeMethod = f.method
  own : ∀ f, s.last = some f →
    f.began = s.epoch ∧ f.asked = true ∧ Downgrade (resolve host s.method) f.method

/-- What a call of the present configuration has seen, with the resolved and the active method. -/
def CallOk (r a : Method) : Pc → Prop
  | .unsuitable _ _ => r = .mmap
  | .refused asked _ => r = .direct ∧ asked = true
  | .replacing d => d = true → r = .direct
  | .opening d => d = false → a ≠ .direct
  | .opened d _ => d = false → a ≠ .direct
  | _ => True

structure Settled (host : Host) (s : Sys T) : Prop extends Honoured host s where
  packed : s.word = packMethods s.method s.activeMethod
  began : ∀ t, s.began t ≤ s.epoch
  calls : ∀ t, s.began t = s.epoch → CallOk (resolve host s.method) s.activeMethod (s.pc t)

/-- A method no fallback stores is active only when it is the resolved one. -/
theorem Honoured.resolved (h : Honoured host s) (hdata : s.activeMethod ≠ .data)
    (hsync : s.activeMethod ≠ .sync) : resolve host s.method = s.activeMethod := by
  cases h.active with
  | inl heq => exact heq.symm
  | inr hf =>
    obtain ⟨f, hlast, hact⟩ := hf
    obtain ⟨-, -, hdown⟩ := h.own f hlast
    unfold Downgrade at hdown
    rw [← hact] at hdown
    cases hdown with
    | inl hd => exact absurd hd.2 hdata
    | inr hd => exact absurd hd.2 hsync

/-! ### Calls of one configuration -/

theorem callOk_start (op : Op) : CallOk r a op.pc := by
  cases op <;> simp [CallOk, Op.pc]

theorem callOk_after (after : After) : CallOk r a after.pc := by
  cases after <;> simp [CallOk, After.pc]

theorem CallOk.active (h : CallOk r a p) (hne : a' ≠ .direct) : CallOk r a' p := by
  cases p <;> simp_all [CallOk]

theorem CallOk.look {w : Word} {answer : Bool} (h : CallOk r (activeMethodOf w) p)
    (hd : activeMethodOf w = .direct → r = .direct) (hm : activeMethodOf w = .mmap → r = .mmap)
    (hl : p.look w answer = some p') : CallOk r (activeMethodOf w) p' := by
  cases p with
  | native =>
    cases hl
    split <;> simp [CallOk]
  | mmap after =>
    cases hl
    split
    · split
      · simp [CallOk]
      · simp [CallOk, hm ‹_›]
    · exact callOk_after after
  | plan =>
    cases hl
    simpa [CallOk, useDirect] using hd
  | flag =>
    cases hl
    simp [CallOk, useDirect]
  | opened asked directOk =>
    cases hl
    split
    · rename_i hasks
      have hdirect : activeMethodOf w = .direct := by simpa [useDirect] using hasks.1
      cases asked with
      | true => exact ⟨hd hdirect, rfl⟩
      | false => exact absurd hdirect (h rfl)
    · simp [CallOk]
  | unsuitable after cur =>
    cases cur with
    | none =>
      cases hl
      exact h
    | some cur => cases hl
  | refused asked cur =>
    cases cur with
    | none =>
      cases hl
      exact h
    | some cur => cases hl
  | idle => cases hl
  | replacing d => cases hl
  | opening d => cases hl

theorem CallOk.opens {answer : Option Bool} (h : CallOk r a p)
    (ho : p.opens answer = some p') : CallOk r a p' := by
  cases p with
  | replacing d =>
    cases ho
    cases answer with
    | none => simp [CallOk]
    | some ok =>
      cases d with
      | false => simp [CallOk]
      | true =>
        cases ok
        · exact ⟨h rfl, rfl⟩
        · simp [CallOk]
  | opening d =>
    cases ho
    cases answer with
    | none => simp [CallOk]
    | some ok => exact h
  | idle => cases ho
  | native => cases ho
  | mmap after => cases ho
  | unsuitable after cur => cases ho
  | plan => cases ho
  | flag => cases ho
  | opened asked directOk => cases ho
  | refused asked cur => cases ho

theorem CallOk.expect {w : Word} (h : CallOk r a p) : CallOk r a (p.expect w) := by
  cases p <;> exact h

/-- What an exchange stores is a fallback from the resolved method. -/
theorem CallOk.exchange {cur : Word} {m : Method} {asked : Bool} (h : CallOk r a p)
    (he : p.exchange = some (cur, m, asked, p')) : asked = true ∧ Downgrade r m := by
  cases p with
  | unsuitable after cur' =>
    cases cur' with
    | none => cases he
    | some cur' =>
      cases he
      exact ⟨rfl, Or.inr ⟨h, rfl⟩⟩
  | refused asked' cur' =>
    cases cur' with
    | none => cases he
    | some cur' =>
      cases he
      exact ⟨h.2, Or.inl ⟨h.1, rfl⟩⟩
  | idle => cases he
  | native => cases he
  | mmap after => cases he
  | plan => cases he
  | flag => cases he
  | replacing d => cases he
  | opening d => cases he
  | opened asked' directOk => cases he

/-- It stores `Sync` or `Data`, whatever the call has seen. -/
theorem exchange_method {cur : Word} {m : Method} {asked : Bool}
    (he : p.exchange = some (cur, m, asked, p')) :
    (m = .sync ∨ m = .data) ∧ ∀ r a, CallOk r a p' := by
  unfold Pc.exchange at he
  split at he
  · cases he
    exact ⟨Or.inl rfl, fun _ _ => callOk_after _⟩
  · cases he
    exact ⟨Or.inr rfl, fun _ _ => trivial⟩
  · cases he

/-! ### The steps -/

/-- A word that was just installed. -/
theorem settled_installed {m : Method} (hw : s.word = packMethods m (resolve host m))
    (hl : s.last = none) (hb : ∀ t, s.began t ≤ s.epoch)
    (hc : ∀ t, s.began t = s.epoch → ∀ r a, CallOk r a (s.pc t)) : Settled host s := by
  have hmethod : s.method = m := by
    rw [Sys.method, hw, methodOf_packMethods]
  have hactive : s.activeMethod = resolve host m := by
    rw [Sys.activeMethod, hw, activeMethodOf_packMethods]
  refine ⟨⟨?_, ?_, by simp [hl]⟩, ?_, hb, fun t ht => hc t ht _ _⟩
  · rw [hactive]
    exact resolve_ne_auto host m
  · left
    rw [hactive, hmethod]
  · rw [hactive, hmethod, hw]

theorem settled_build {m : Method} (h : Sys.build host m = .ok s) : Settled host s := by
  unfold Sys.build at h
  cases hsel : checkMethodSelectable host m with
  | error e =>
    rw [hsel] at h
    cases h
  | ok u =>
    rw [hsel] at h
    cases h
    exact settled_installed rfl rfl (by simp) (by simp [CallOk])

theorem Settled.setMethod (h : Settled host s) (m : Method) : Settled host (s.setMethod host m) := by
  unfold Sys.setMethod
  split
  · exact h
  · refine settled_installed rfl rfl (fun t => Nat.le_succ_of_le (h.began t)) ?_
    -- every call under way began before
    intro t ht
    have hbefore := h.began t
    have hnow : s.began t = s.epoch + 1 := ht
    omega

variable [DecidableEq T]

theorem Settled.goto {t : T} (h : Settled host s)
    (hp : s.began t = s.epoch → CallOk (resolve host s.method) s.activeMethod p) :
    Settled host (s.goto t p) := by
  refine ⟨⟨h.concrete, h.active, h.own⟩, h.packed, h.began, ?_⟩
  intro u hu
  show CallOk _ _ (Function.update s.pc t p u)
  by_cases hut : u = t
  · subst hut
    rw [Function.update_self]
    exact hp hu
  · rw [Function.update_of_ne hut]
    exact h.calls u hu

theorem Settled.start {t : T} (h : Settled host s) (op : Op) :
    Settled host { s.goto t op.pc with began := Function.update s.began t s.epoch } := by
  refine ⟨⟨h.concrete, h.active, h.own⟩, h.packed, ?_, ?_⟩
  · intro u
    show Function.update s.began t s.epoch u ≤ s.epoch
    by_cases hut : u = t
    · rw [hut, Function.update_self]
    · rw [Function.update_of_ne hut]
      exact h.began u
  · intro u hu
    show CallOk _ _ (Function.update s.pc t op.pc u)
    by_cases hut : u = t
    · rw [hut, Function.update_self]
      exact callOk_start op
    · rw [Function.update_of_ne hut]
      apply h.calls u
      have hbegan : Function.update s.began t s.epoch u = s.epoch := hu
      rwa [Function.update_of_ne hut] at hbegan

/-- An exchange that changes the active byte for a call of the present configuration. -/
theorem Settled.store {t : T} {cur : Word} {m : Method} {asked : Bool} (h : Settled host s)
    (he : (s.pc t).exchange = some (cur, m, asked, p)) (hcur : cur = s.word)
    (hb : s.began t = s.epoch) :
    Settled host { s.goto t p with
      word := withActive cur m
      last := some ⟨m, s.began t, asked⟩ } := by
  obtain ⟨hasked, hdown⟩ := (h.calls t hb).exchange he
  obtain ⟨hm, hnext⟩ := exchange_method he
  have hword : withActive cur m = packMethods s.method m := by
    rw [hcur, h.packed, withActive_packMethods]
  have hmethod : methodOf (withActive cur m) = s.method := by
    rw [hword, methodOf_packMethods]
  have hactive : activeMethodOf (withActive cur m) = m := by
    rw [hword, activeMethodOf_packMethods]
  have hne : m ≠ .direct ∧ m ≠ .auto := by
    cases hm with
    | inl hm => simp [hm]
    | inr hm => simp [hm]
  refine ⟨⟨?_, ?_, ?_⟩, ?_, h.began, ?_⟩
  · show activeMethodOf _ ≠ _
    rw [hactive]
    exact hne.2
  · exact Or.inr ⟨_, rfl, hactive⟩
  · intro f hf
    cases hf
    show s.began t = s.epoch ∧ asked = true ∧ Downgrade (resolve host (methodOf _)) m
    rw [hmethod]
    exact ⟨hb, hasked, hdown⟩
  · show _ = packMethods (methodOf _) (activeMethodOf _)
    rw [hmethod, hactive, hword]
  · intro u hu
    show CallOk (resolve host (methodOf _)) (activeMethodOf _) (Function.update s.pc t p u)
    rw [hmethod, hactive]
    by_cases hut : u = t
    · rw [hut, Function.update_self]
      exact hnext _ _
    · rw [Function.update_of_ne hut]
      exact (h.calls u hu).active hne.1

theorem Settled.compareExchange {t : T} {spurious : Bool} (h : Settled host s)
    (hstale : ¬ s.Stale (.exchange t spurious)) (hn : s.compareExchange t spurious = some s') :
    Settled host s' := by
  unfold Sys.compareExchange at hn
  cases he : (s.pc t).exchange with
  | none =>
    rw [he] at hn
    cases hn
  | some x =>
    obtain ⟨cur, m, asked, after⟩ := x
    rw [he] at hn
    dsimp only at hn
    split at hn
    · cases hn
      exact h.goto fun hb => (h.calls t hb).expect
    · rename_i hswap
      rw [not_or, not_not] at hswap
      cases hn
      by_cases hm : m = s.activeMethod
      · -- the byte is what it was
        have hword : withActive cur m = s.word := by
          rw [hswap.2, hm, h.packed, withActive_packMethods]
        rw [if_pos hm, hword]
        exact h.goto fun _ => (exchange_method he).2 _ _
      · rw [if_neg hm]
        apply h.store he hswap.2
        by_contra hb
        exact hstale ⟨cur, m, asked, after, he, by simpa using hswap.1, hswap.2, hm, hb⟩

theorem Settled.next {act : Action T} (h : Settled host s) (hstale : ¬ s.Stale act)
    (hn : s.next host act = some s') : Settled host s' := by
  cases act with
  | start t op =>
    simp only [Sys.next] at hn
    split at hn
    · cases hn
      exact h.start op
    · cases hn
  | setMethod m =>
    cases hn
    exact h.setMethod m
  | look t answer =>
    obtain ⟨q, hq, rfl⟩ := Option.map_eq_some_iff.mp hn
    apply h.goto
    intro hb
    refine (h.calls t hb).look ?_ ?_ hq
    · intro hd
      have hd : s.activeMethod = .direct := hd
      rw [h.resolved (by simp [hd]) (by simp [hd]), hd]
    · intro hm
      have hm : s.activeMethod = .mmap := hm
      rw [h.resolved (by simp [hm]) (by simp [hm]), hm]
  | opens t answer =>
    obtain ⟨q, hq, rfl⟩ := Option.map_eq_some_iff.mp hn
    exact h.goto fun hb => (h.calls t hb).opens hq
  | exchange t spurious => exact h.compareExchange hstale hn

/-- A stale exchange is the one step that leaves a fallback of another configuration. -/
theorem Honoured.not_stale {act : Action T} (h' : Honoured host s')
    (hn : s.next host act = some s') : ¬ s.Stale act := by
  intro hstale
  cases act with
  | exchange t spurious =>
    obtain ⟨cur, m, asked, after, he, rfl, rfl, hm, hb⟩ := hstale
    simp only [Sys.next, Sys.compareExchange, he, Bool.false_eq_true, ne_eq, not_true_eq_false,
      or_self, if_false, if_neg hm] at hn
    cases hn
    exact hb (h'.own _ rfl).1
  | start t op => exact hstale
  | setMethod m => exact hstale
  | look t answer => exact hstale
  | opens t answer => exact hstale

/-! ### Auto, in every run -/

/-- The word packs two methods, the active one concrete. -/
def Concrete (s : Sys T) : Prop := ∃ c a, s.word = packMethods c a ∧ a ≠ .auto

theorem Concrete.next {act : Action T} (h : Concrete s) (hn : s.next host act = some s') :
    Concrete s' := by
  obtain ⟨c, a, hword, ha⟩ := h
  cases act with
  | start t op =>
    simp only [Sys.next] at hn
    split at hn
    · cases hn
      exact ⟨c, a, hword, ha⟩
    · cases hn
  | setMethod m =>
    cases hn
    unfold Sys.setMethod
    split
    · exact ⟨c, a, hword, ha⟩
    · exact ⟨m, _, rfl, resolve_ne_auto host m⟩
  | look t answer =>
    obtain ⟨q, -, rfl⟩ := Option.map_eq_some_iff.mp hn
    exact ⟨c, a, hword, ha⟩
  | opens t answer =>
    obtain ⟨q, -, rfl⟩ := Option.map_eq_some_iff.mp hn
    exact ⟨c, a, hword, ha⟩
  | exchange t spurious =>
    simp only [Sys.next, Sys.compareExchange] at hn
    cases he : (s.pc t).exchange with
    | none =>
      rw [he] at hn
      cases hn
    | some x =>
      obtain ⟨cur, m, asked, after⟩ := x
      rw [he] at hn
      dsimp only at hn
      split at hn
      · cases hn
        exact ⟨c, a, hword, ha⟩
      · rename_i hswap
        rw [not_or, not_not] at hswap
        cases hn
        refine ⟨c, m, ?_, ?_⟩
        · show withActive cur m = _
          rw [hswap.2, hword, withActive_packMethods]
        · cases (exchange_method he).1 with
          | inl hm => simp [hm]
          | inr hm => simp [hm]

theorem concrete_of_reach {s₀ : Sys T} (h₀ : Settled host s₀)
    (h : Reach (Sys.next host) (fun _ => True) s₀ s) : Concrete s :=
  h.invariant ⟨_, _, h₀.packed, h₀.concrete⟩ fun _ _ _ hc _ hn => hc.next hn

/-! ### Every run -/

/-- In every run of a handle the active method is concrete. While no exchange is stale, every
state is as its configuration and its own calls made it, and the next state is so exactly when
the next step is not stale either. -/
theorem fallback_stays_in_configuration (host : Host) (m : Method) (s₀ : Sys T)
    (h₀ : Sys.build host m = .ok s₀) :
    (∀ s, Reach (Sys.next host) (fun _ => True) s₀ s → s.activeMethod ≠ .auto) ∧
    ∀ s, ReachIf (Sys.next host) (fun s act => ¬ s.Stale act) s₀ s →
      Honoured host s ∧
      ∀ act s', s.next host act = some s' → (Honoured host s' ↔ ¬ s.Stale act) := by
  have hstart : Settled host s₀ := settled_build h₀
  refine ⟨?_, ?_⟩
  · intro s hs
    obtain ⟨c, a, hword, ha⟩ := concrete_of_reach hstart hs
    rw [Sys.activeMethod, hword, activeMethodOf_packMethods]
    exact ha
  · intro s hs
    have hsettled : Settled host s := hs.invariant hstart fun _ _ _ hi hok hn => hi.next hok hn
    refine ⟨hsettled.toHonoured, ?_⟩
    intro act s' hn
    constructor
    · intro h'
      exact h'.not_stale hn
    · intro hstale
      exact (hsettled.next hstale hn).toHonoured

/-- A Linux host with an NVMe drive and without the SPDK feature. -/
def nvmeHost : Host := ⟨.linux, .nvme, true, none⟩

def directHandle : Sys ℕ := ⟨packMethods .direct .direct, fun _ => .idle, 0, fun _ => 0, none⟩

/-- A write whose open is refused Direct falls back in the configuration it began in. -/
theorem fallback_stays_in_configuration_refused :
    Sys.build nvmeHost .direct = .ok directHandle ∧
    ∃ s, ReachIf (Sys.next nvmeHost) (fun s act => ¬ s.Stale act) directHandle s ∧
      s.method = .direct ∧ s.activeMethod = .data ∧ Honoured nvmeHost s := by
  have hbuild : Sys.build nvmeHost .direct = .ok directHandle := rfl
  have h1 : ReachIf (Sys.next nvmeHost) (fun s act => ¬ s.Stale act) directHandle _ :=
    .step (a := .start 0 .write) .start id rfl
  have h2 := ReachIf.step (a := .look 0 false) h1 id rfl
  have h3 := ReachIf.step (a := .look 0 false) h2 id rfl
  have h4 := ReachIf.step (a := .opens 0 (some false)) h3 id rfl
  have h5 := ReachIf.step (a := .look 0 false) h4 id rfl
  have h6 := ReachIf.step (a := .exchange 0 false) h5 (by
    intro hstale
    obtain ⟨_, _, _, _, _, _, _, _, hb⟩ := hstale
    exact hb rfl) rfl
  exact ⟨hbuild, _, h6, rfl, rfl,
    ((fallback_stays_in_configuration nvmeHost .direct directHandle hbuild).2 _ h6).1⟩

/-- The write of thread 0 finds Direct refused; `Sync` is configured before its exchange. -/
def overtakenWrite : List (Action ℕ) :=
  [.start 0 .write, .look 0 false, .look 0 false, .opens 0 (some false), .look 0 false,
    .setMethod .sync, .exchange 0 false, .exchange 0 false]

theorem overtakenWrite_ends :
    (run (Sys.next nvmeHost) overtakenWrite directHandle).map
      (fun s => (s.method, s.activeMethod, s.epoch, s.last)) =
      some (.sync, .data, 1, some ⟨.data, 0, true⟩) := by
  decide +kernel

/-- `Sync` is configured, and an older write left `Data` active. -/
theorem overtaken_write_overrides_set_method :
    Sys.build nvmeHost .direct = .ok directHandle ∧
    ∃ s, Reach (Sys.next nvmeHost) (fun _ => True) directHandle s ∧
      s.method = .sync ∧ s.activeMethod = .data ∧ s.activeMethod ≠ resolve nvmeHost s.method ∧
      ∃ f, s.last = some f ∧ f.began < s.epoch := by
  obtain ⟨s, hs, hends⟩ := Option.map_eq_some_iff.mp overtakenWrite_ends
  simp only [Prod.mk.injEq] at hends
  obtain ⟨hm, ha, he, hl⟩ := hends
  refine ⟨rfl, s, reach_of_run overtakenWrite hs fun _ _ => trivial, hm, ha, ?_, _, hl, ?_⟩
  · rw [hm, ha]
    decide
  · rw [he]
    decide

end Fsys.MethodWord
