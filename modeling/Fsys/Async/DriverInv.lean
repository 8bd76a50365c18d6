import Fsys.Async.OpLife
import Mathlib.Data.Multiset.MapFold
import Mathlib.Tactic.Abel
import Mathlib.Algebra.Order.Group.Multiset
import Mathlib.Data.List.Nodup

/-!
# The invariant of the driver (src/async_io/completion_driver.rs:339-591)

Every op is somewhere on its life, each pending op has exactly one entry on its way
through the ring, and the ids on the table are those of the entries. The owner takes
an op into its hand, ends it or puts it back on the table under the next entry.
-/

namespace Fsys.Async
open Fsys.Base

variable {id : ℕ} {op : InFlight} {io : List Event}

/-- Where an op stands, from its events and the tables of the owner. -/
inductive Fate (queue : List (ℕ × Op)) (pending : List (ℕ × InFlight)) (started : List ℕ)
    (events : List Event) (key : ℕ) (op : Op) : Prop where
  | queued (hs : key ∉ started) (hq : (key, op) ∈ queue) (hh : events = [])
  | dropped (hs : key ∉ started) (hh : events = op.drop)
  | pending {id n : ℕ} {io : List Event} {e : Sqe} (hs : key ∈ started)
      (hp : (id, (Driver.inFlight key op).upTo n) ∈ pending)
      (hr : Rounds id (Driver.inFlight key op) 0 io n)
      (hd : ∀ buf, (Driver.inFlight key op).buf = some buf → n < buf.length)
      (he : sqeFor id ((Driver.inFlight key op).upTo n) = some e)
      (hh : events = io ++ [.pushed e])
  | finished {id : ℕ} {io : List Event} {r : IoResult} (hs : key ∈ started)
      (hp : ∀ p ∈ pending, p.2.key ≠ key) (ho : Outcome id (Driver.inFlight key op) io r)
      (hh : events = io ++ (Driver.inFlight key op).finish r)
  | abandoned {id n : ℕ} {io : List Event} {e : Sqe} (hs : key ∈ started)
      (hp : ∀ p ∈ pending, p.2.key ≠ key)
      (hr : Rounds id (Driver.inFlight key op) 0 io n)
      (hd : ∀ buf, (Driver.inFlight key op).buf = some buf → n < buf.length)
      (he : sqeFor id ((Driver.inFlight key op).upTo n) = some e)
      (hh : events = io ++ .pushed e :: (Driver.inFlight key op).abandon)

theorem Fate.frame {queue queue' : List (ℕ × Op)} {pending pending' : List (ℕ × InFlight)}
    {started started' : List ℕ} {events : List Event} {key : ℕ} {op : Op}
    (h : Fate queue pending started events key op)
    (hs : key ∈ started' ↔ key ∈ started) (hq : (key, op) ∈ queue → (key, op) ∈ queue')
    (hp : ∀ p, p.2.key = key → (p ∈ pending' ↔ p ∈ pending)) :
    Fate queue' pending' started' events key op := by
  cases h with
  | queued hs' hq' hh => exact .queued (fun h => hs' (hs.mp h)) (hq hq') hh
  | dropped hs' hh => exact .dropped (fun h => hs' (hs.mp h)) hh
  | pending hs' hp' hr hd he hh =>
    have hkey : (Driver.inFlight key op).key = key := by cases op <;> rfl
    exact .pending (hs.mpr hs') ((hp _ hkey).mpr hp') hr hd he hh
  | finished hs' hp' ho hh =>
    exact .finished (hs.mpr hs') (fun p hmem hkey => hp' p ((hp p hkey).mp hmem) hkey) ho hh
  | abandoned hs' hp' hr hd he hh =>
    exact .abandoned (hs.mpr hs') (fun p hmem hkey => hp' p ((hp p hkey).mp hmem) hkey) hr hd he hh

/-! ### The invariant -/

/-- The entries on their way: queued, with the kernel, completed. -/
def Driver.outstanding (d : Driver) : Multiset Sqe :=
  (d.sq : Multiset Sqe) + (d.kernel : Multiset Sqe) + (d.cq.map Prod.fst : Multiset Sqe)

/-- The driver between two steps; with `hand`, while the owner holds one op in its hand. -/
structure Inv (cfg : Config) (hand : Option ℕ) (d : Driver) : Prop where
  fates : ∀ key op, hand ≠ some key → d.ops[key]? = some op →
    Fate d.queue d.pending d.started (d.history key) key op
  fresh : ∀ key, d.ops.length ≤ key → d.history key = [] ∧ key ∉ d.started
  queueOps : ∀ p ∈ d.queue, d.ops[p.1]? = some p.2 ∧ p.1 ∉ d.started ∧ d.history p.1 = []
  queueNodup : (d.queue.map Prod.fst).Nodup
  pendingKeys : ∀ p ∈ d.pending, p.2.key ∈ d.started ∧ p.2.key < d.ops.length ∧
    hand ≠ some p.2.key
  keysNodup : (d.pending.map fun p => p.2.key).Nodup
  idsNodup : (d.pending.map Prod.fst).Nodup
  ring : d.outstanding.map Sqe.userData = (d.pending.map Prod.fst : Multiset ℕ)
  entries : ∀ e ∈ d.outstanding, ∀ op, (e.userData, op) ∈ d.pending →
    sqeFor e.userData op = some e
  results : ∀ c ∈ d.cq, c.1.CanReturn c.2
  room : d.pending.length + hand.toList.length ≤ cfg.maxInFlight
  halted : d.stopped = true → d.queue = [] ∧ d.pending = [] ∧ hand = none

variable {cfg : Config} {s : Driver} {key : ℕ} {req : Op}

theorem inFlight_key (key : ℕ) (req : Op) : (Driver.inFlight key req).key = key := by
  cases req <;> rfl

@[simp] theorem log_history_self (s : Driver) (key : ℕ) (events : List Event) :
    (s.log key events).history key = s.history key ++ events := Function.update_self _ _ _

theorem log_history_ne (s : Driver) {key k : ℕ} (h : k ≠ key) (events : List Event) :
    (s.log key events).history k = s.history k := Function.update_of_ne h _ _

/-! ### The table -/

theorem mem_of_lookup {pending : List (ℕ × InFlight)} (h : pending.lookup id = some op) :
    (id, op) ∈ pending := by
  obtain ⟨l, r, rfl, -⟩ := List.lookup_eq_some_iff.mp h
  exact List.mem_append_right _ List.mem_cons_self

theorem not_mem_of_lookup {pending : List (ℕ × InFlight)} (h : pending.lookup id = none) :
    id ∉ pending.map Prod.fst := by
  intro hmem
  obtain ⟨p, hp, rfl⟩ := List.mem_map.mp hmem
  have := List.lookup_eq_none_iff.mp h p hp
  simp at this

theorem mem_without {pending : List (ℕ × InFlight)} {p : ℕ × InFlight} :
    p ∈ Driver.without pending id ↔ p ∈ pending ∧ p.1 ≠ id := by
  unfold Driver.without
  simp only [List.mem_filter, decide_eq_true_eq]

/-- A table is an entry and the table without it. -/
theorem perm_without {pending : List (ℕ × InFlight)} (hmem : (id, op) ∈ pending)
    (hn : (pending.map Prod.fst).Nodup) :
    pending.Perm ((id, op) :: Driver.without pending id) := by
  induction pending with
  | nil => cases hmem
  | cons p pending ih =>
    rw [List.map_cons, List.nodup_cons] at hn
    unfold Driver.without at ih ⊢
    rcases List.mem_cons.mp hmem with heq | hmem
    · cases heq
      have hall : pending.filter (fun p => p.1 ≠ id) = pending := by
        refine List.filter_eq_self.mpr ?_
        intro p hp
        have hne : p.1 ≠ id := fun heq => hn.1 (List.mem_map.mpr ⟨p, hp, heq⟩)
        simpa using hne
      rw [List.filter_cons_of_neg (by simp), hall]
    · have hne : p.1 ≠ id := by
        intro heq
        exact hn.1 (List.mem_map.mpr ⟨_, hmem, heq.symm⟩)
      rw [List.filter_cons_of_pos (by simpa using hne)]
      exact ((ih hmem hn.2).cons p).trans (.swap _ _ _)

/-! ### An op in the hand of the owner -/

/-- The owner finishes the op it holds. -/
theorem Inv.finish (h : Inv cfg (some key) s) (hop : s.ops[key]? = some req)
    (hs : key ∈ s.started) {r : IoResult} (hh : s.history key = io)
    (ho : Outcome id (Driver.inFlight key req) io r) :
    Inv cfg none (s.log key ((Driver.inFlight key req).finish r)) where
  fates k req' _ hk := by
    by_cases hkey : k = key
    · subst hkey
      cases hop.symm.trans hk
      refine .finished hs ?_ ho ((log_history_self s _ _).trans (by rw [hh]))
      intro p hp heq
      exact (h.pendingKeys p hp).2.2 (congrArg some heq).symm
    · rw [log_history_ne s hkey]
      exact h.fates k req' (fun heq => hkey (Option.some.inj heq).symm) hk
  fresh k hk := by
    have hne : k ≠ key := by
      intro heq
      rw [heq] at hk
      exact absurd ((List.getElem?_eq_some_iff.mp hop).1) (Nat.not_lt.mpr hk)
    rw [log_history_ne s hne]
    exact h.fresh k hk
  queueOps p hp := by
    have hne : p.1 ≠ key := fun heq => (h.queueOps p hp).2.1 (heq ▸ hs)
    rw [log_history_ne s hne]
    exact h.queueOps p hp
  queueNodup := h.queueNodup
  pendingKeys p hp := ⟨(h.pendingKeys p hp).1, (h.pendingKeys p hp).2.1, nofun⟩
  keysNodup := h.keysNodup
  idsNodup := h.idsNodup
  ring := h.ring
  entries := h.entries
  results := h.results
  room := Nat.le_of_succ_le h.room
  halted hstop := absurd (h.halted hstop).2.2 nofun

/-- The owner tracks the op it holds, its next entry being in the submission queue. -/
theorem Inv.track (h : Inv cfg (some key) s) (hop : s.ops[key]? = some req)
    (hs : key ∈ s.started) {n : ℕ} {e : Sqe}
    (hr : Rounds id (Driver.inFlight key req) 0 (s.history key) n)
    (hd : ∀ buf, (Driver.inFlight key req).buf = some buf → n < buf.length)
    (he : sqeFor id ((Driver.inFlight key req).upTo n) = some e)
    (hid : id ∉ s.pending.map Prod.fst) {sq kernel : List Sqe}
    (hring : { s with sq := sq, kernel := kernel }.outstanding = e ::ₘ s.outstanding) :
    Inv cfg none ({ s with
      sq := sq
      kernel := kernel
      pending := (id, (Driver.inFlight key req).upTo n) :: s.pending }.log key
        [.pushed e]) where
  fates k req' _ hk := by
    by_cases hkey : k = key
    · subst hkey
      cases hop.symm.trans hk
      exact .pending hs List.mem_cons_self hr hd he (log_history_self _ _ _)
    · rw [log_history_ne _ hkey]
      refine (h.fates k req' (fun heq => hkey (Option.some.inj heq).symm) hk).frame Iff.rfl
        (fun hq => hq) ?_
      intro p hp
      refine ⟨fun hmem => ?_, List.mem_cons_of_mem _⟩
      rcases List.mem_cons.mp hmem with rfl | hmem
      · exact absurd (hp.symm.trans (inFlight_key key req)) hkey
      · exact hmem
  fresh k hk := by
    have hne : k ≠ key := by
      intro heq
      rw [heq] at hk
      exact absurd ((List.getElem?_eq_some_iff.mp hop).1) (Nat.not_lt.mpr hk)
    rw [log_history_ne _ hne]
    exact h.fresh k hk
  queueOps p hp := by
    have hne : p.1 ≠ key := fun heq => (h.queueOps p hp).2.1 (heq ▸ hs)
    rw [log_history_ne _ hne]
    exact h.queueOps p hp
  queueNodup := h.queueNodup
  pendingKeys p hp := by
    rcases List.mem_cons.mp hp with rfl | hp
    · have hkey : (Driver.inFlight key req).key = key := inFlight_key key req
      refine ⟨?_, ?_, nofun⟩
      · show (Driver.inFlight key req).key ∈ s.started
        rw [hkey]
        exact hs
      · show (Driver.inFlight key req).key < s.ops.length
        rw [hkey]
        exact (List.getElem?_eq_some_iff.mp hop).1
    · exact ⟨(h.pendingKeys p hp).1, (h.pendingKeys p hp).2.1, nofun⟩
  keysNodup := by
    refine List.nodup_cons.mpr ⟨?_, h.keysNodup⟩
    intro hmem
    obtain ⟨p, hp, hkey⟩ := List.mem_map.mp hmem
    exact (h.pendingKeys p hp).2.2 (congrArg some (hkey.trans (inFlight_key key req))).symm
  idsNodup := List.nodup_cons.mpr ⟨hid, h.idsNodup⟩
  ring := by
    show ({ s with sq := sq, kernel := kernel }.outstanding).map Sqe.userData = _
    rw [hring, Multiset.map_cons, h.ring, sqeFor_userData he]
    rfl
  entries e' he' op hmem := by
    have he' : e' ∈ { s with sq := sq, kernel := kernel }.outstanding := he'
    rw [hring] at he'
    rcases List.mem_cons.mp hmem with heq | htail
    · rcases Multiset.mem_cons.mp he' with rfl | hold
      · cases heq
        exact he
      · -- no older entry carries a new id
        have huser : e'.userData ∈ s.pending.map Prod.fst := by
          rw [← Multiset.mem_coe, ← h.ring]
          exact Multiset.mem_map_of_mem _ hold
        cases heq
        exact absurd huser hid
    · rcases Multiset.mem_cons.mp he' with rfl | hold
      · rw [sqeFor_userData he] at htail
        exact absurd (List.mem_map.mpr ⟨_, htail, rfl⟩) hid
      · exact h.entries e' hold op htail
  results := h.results
  room := h.room
  halted hstop := absurd (h.halted hstop).2.2 nofun

/-- A push puts the entry on its way and changes nothing else. -/
theorem pushTwice_some {taken : ℕ} {e : Sqe} {s' : Driver}
    (h : s.pushTwice cfg taken e = some s') :
    ∃ sq kernel, s' = { s with sq := sq, kernel := kernel } ∧
      { s with sq := sq, kernel := kernel }.outstanding = e ::ₘ s.outstanding := by
  have hpush : ∀ t t' : Driver, t.push cfg e = some t' → t' = { t with sq := t.sq ++ [e] } := by
    intro t t' ht
    unfold Driver.push at ht
    split at ht
    · exact (Option.some.inj ht).symm
    · cases ht
  unfold Driver.pushTwice at h
  cases hfirst : s.push cfg e with
  | some t =>
    rw [hfirst] at h
    cases h
    refine ⟨s.sq ++ [e], s.kernel, hpush s _ hfirst, ?_⟩
    simp only [Driver.outstanding, ← Multiset.coe_add, Multiset.coe_singleton]
    rw [← Multiset.singleton_add]
    abel
  | none =>
    rw [hfirst] at h
    have hsecond := hpush _ _ h
    refine ⟨s.sq.drop taken ++ [e], s.kernel ++ s.sq.take taken, hsecond, ?_⟩
    have hsplit : (s.sq : Multiset Sqe) = (s.sq.take taken : Multiset Sqe) + s.sq.drop taken := by
      rw [Multiset.coe_add, List.take_append_drop]
    simp only [Driver.outstanding, ← Multiset.coe_add, Multiset.coe_singleton]
    rw [← Multiset.singleton_add, hsplit]
    abel

theorem enter_outstanding (s : Driver) (taken : ℕ) :
    (s.enter taken).outstanding = s.outstanding := by
  have hsplit : (s.sq : Multiset Sqe) = (s.sq.take taken : Multiset Sqe) + s.sq.drop taken := by
    rw [Multiset.coe_add, List.take_append_drop]
  simp only [Driver.outstanding, Driver.enter, ← Multiset.coe_add]
  rw [hsplit]
  abel

/-- Handing entries to the kernel moves them along. -/
theorem Inv.enter {hand : Option ℕ} (h : Inv cfg hand s) (taken : ℕ) :
    Inv cfg hand (s.enter taken) where
  fates := h.fates
  fresh := h.fresh
  queueOps := h.queueOps
  queueNodup := h.queueNodup
  pendingKeys := h.pendingKeys
  keysNodup := h.keysNodup
  idsNodup := h.idsNodup
  ring := by rw [enter_outstanding]; exact h.ring
  entries := by rw [enter_outstanding]; exact h.entries
  results := h.results
  room := h.room
  halted := h.halted

/-- Submit the op in hand, or finish it with an error; its id is that of no pending op. -/
theorem Inv.submitOrFail (h : Inv cfg (some key) s) (hop : s.ops[key]? = some req)
    (hs : key ∈ s.started) {n : ℕ} (taken : ℕ)
    (hr : Rounds id (Driver.inFlight key req) 0 (s.history key) n)
    (hd : ∀ buf, (Driver.inFlight key req).buf = some buf → n < buf.length)
    (hid : (s.submitOrFail cfg taken id ((Driver.inFlight key req).upTo n)).reissued =
      false) :
    Inv cfg none (s.submitOrFail cfg taken id ((Driver.inFlight key req).upTo n)) := by
  have hkey : ((Driver.inFlight key req).upTo n).key = key := inFlight_key key req
  unfold Driver.submitOrFail at hid ⊢
  rw [hkey] at hid ⊢
  cases he : sqeFor id ((Driver.inFlight key req).upTo n) with
  | none => exact h.finish hop hs rfl (.refused hr hd einval)
  | some e =>
    rw [he] at hid
    dsimp only at hid ⊢
    cases hpush : s.pushTwice cfg taken e with
    | none => exact (h.enter taken).finish hop hs rfl (.refused hr hd ebusy)
    | some s' =>
      obtain ⟨sq, kernel, rfl, hring⟩ := pushTwice_some hpush
      rw [hpush] at hid
      simp only [Driver.track] at hid ⊢
      cases hlook : s.pending.lookup id with
      | none => exact h.track hop hs hr hd he (not_mem_of_lookup hlook) hring
      | some previous =>
        rw [hlook] at hid
        cases hid

/-! ### Steps of the owner -/

theorem length_pos_of_buf {buf : IoBuf} (h : ¬ op.buf.any (fun buf => buf.length = 0) = true)
    (hbuf : op.buf = some buf) : 0 < buf.length := by
  rw [hbuf] at h
  simpa [Nat.pos_iff_ne_zero] using h

/-- The op at the head of the channel is started. -/
theorem Inv.startOp (h : Inv cfg none s) {queue : List (ℕ × Op)} (nextId : ℕ) (taken : ℕ)
    (hq : s.queue = (key, req) :: queue) (hroom : s.pending.length < cfg.maxInFlight)
    (hrun : s.stopped = false)
    (hid : ({ s with
      queue := queue
      nextId := nextId
      started := key :: s.started }.startOp cfg taken id key req).reissued = false) :
    Inv cfg none ({ s with
      queue := queue
      nextId := nextId
      started := key :: s.started }.startOp cfg taken id key req) := by
  obtain ⟨hop, hnew, hhist⟩ := h.queueOps (key, req) (hq ▸ List.mem_cons_self)
  have hnodup := h.queueNodup
  rw [hq, List.map_cons, List.nodup_cons] at hnodup
  have hheld : Inv cfg (some key) { s with
      queue := queue
      nextId := nextId
      started := key :: s.started } := by
    refine ⟨?_, ?_, ?_, hnodup.2, ?_, h.keysNodup, h.idsNodup, h.ring, h.entries, h.results, ?_, ?_⟩
    · intro k req' hne hk
      have hkey : k ≠ key := fun heq => hne (congrArg some heq.symm)
      refine (h.fates k req' nofun hk).frame ?_ ?_ fun _ _ => Iff.rfl
      · exact ⟨fun hmem => (List.mem_cons.mp hmem).resolve_left hkey, List.mem_cons_of_mem _⟩
      · intro hmem
        rw [hq] at hmem
        rcases List.mem_cons.mp hmem with heq | htail
        · cases heq
          exact absurd rfl hkey
        · exact htail
    · intro k hk
      refine ⟨(h.fresh k hk).1, ?_⟩
      intro hmem
      rcases List.mem_cons.mp hmem with rfl | hold
      · exact absurd (List.getElem?_eq_some_iff.mp hop).1 (Nat.not_lt.mpr hk)
      · exact (h.fresh k hk).2 hold
    · intro p hp
      obtain ⟨hop', hnew', hhist'⟩ := h.queueOps p (hq ▸ List.mem_cons_of_mem _ hp)
      refine ⟨hop', ?_, hhist'⟩
      intro hmem
      rcases List.mem_cons.mp hmem with heq | hold
      · exact hnodup.1 (List.mem_map.mpr ⟨p, hp, heq⟩)
      · exact hnew' hold
    · intro p hp
      obtain ⟨hs', hlt, -⟩ := h.pendingKeys p hp
      refine ⟨List.mem_cons_of_mem _ hs', hlt, ?_⟩
      intro heq
      exact hnew (Option.some.inj heq ▸ hs')
    · exact hroom
    · intro hstop
      exact absurd (hstop.symm.trans hrun) nofun
  have hdone : (Driver.inFlight key req).upTo 0 = Driver.inFlight key req := by cases req <;> rfl
  unfold Driver.startOp at hid ⊢
  dsimp only at hid ⊢
  split
  · rename_i hempty
    have hout : Outcome id (Driver.inFlight key req) (s.history key) (.ok 0) := by
      obtain ⟨buf, hbuf, hlen⟩ := (Option.any_eq_true _ _).mp hempty
      have hlen : buf.length = 0 := by simpa using hlen
      rw [hhist, ← hlen]
      exact .full hbuf (by rw [hlen]; exact .nil 0)
    exact hheld.finish hop List.mem_cons_self rfl hout
  · rename_i hne
    rw [if_neg hne, ← hdone] at hid
    rw [← hdone]
    refine hheld.submitOrFail hop List.mem_cons_self taken ?_ ?_ hid
    · show Rounds _ _ 0 (s.history key) 0
      rw [hhist]
      exact .nil 0
    · intro buf hbuf
      exact length_pos_of_buf hne hbuf

/-- What is known of a pending op. -/
theorem Inv.of_pending (h : Inv cfg none s) {f : InFlight} (hp : (id, f) ∈ s.pending) :
    ∃ req n io e, s.ops[f.key]? = some req ∧ f = (Driver.inFlight f.key req).upTo n ∧
      Rounds id (Driver.inFlight f.key req) 0 io n ∧
      (∀ buf, (Driver.inFlight f.key req).buf = some buf → n < buf.length) ∧
      sqeFor id f = some e ∧ s.history f.key = io ++ [.pushed e] := by
  obtain ⟨hs, hlt, -⟩ := h.pendingKeys _ hp
  obtain ⟨req, hop⟩ : ∃ req, s.ops[f.key]? = some req := ⟨_, List.getElem?_eq_getElem hlt⟩
  cases h.fates f.key req nofun hop with
  | queued hs' _ _ => exact absurd hs hs'
  | dropped hs' _ => exact absurd hs hs'
  | finished _ hnot _ _ => exact absurd rfl (hnot _ hp)
  | abandoned _ hnot _ _ _ _ => exact absurd rfl (hnot _ hp)
  | @pending id' n io e _ hp' hr hd he hh =>
    -- one entry has this key
    have heq := List.inj_on_of_nodup_map h.keysNodup hp' hp (inFlight_key f.key req)
    rw [Prod.mk.injEq] at heq
    obtain ⟨rfl, hf⟩ := heq
    exact ⟨req, n, io, e, hop, hf.symm, hr, hd, hf ▸ he, hh⟩

theorem outstanding_cons (s : Driver) (e : Sqe) (res : ℤ) (cq : List (Sqe × ℤ)) :
    { s with cq := (e, res) :: cq }.outstanding = e ::ₘ { s with cq := cq }.outstanding := by
  simp only [Driver.outstanding, List.map_cons, ← Multiset.cons_coe]
  rw [Multiset.add_cons]

/-- The op of a completion is taken off the table. -/
theorem Inv.take (h : Inv cfg none s) {e : Sqe} {res : ℤ} {cq : List (Sqe × ℤ)} {f : InFlight}
    (hcq : s.cq = (e, res) :: cq) (hp : (e.userData, f) ∈ s.pending) (hrun : s.stopped = false) :
    Inv cfg (some f.key) ({ s with
      cq := cq
      pending := Driver.without s.pending e.userData }.log f.key [.completed res]) := by
  have hperm := perm_without hp h.idsNodup
  have hout : s.outstanding = e ::ₘ { s with cq := cq }.outstanding := by
    rw [← outstanding_cons s e res cq, ← hcq]
  have hkeys : ∀ p ∈ Driver.without s.pending e.userData, p.2.key ≠ f.key := by
    intro p hmem heq
    have hsame := List.inj_on_of_nodup_map h.keysNodup (mem_without.mp hmem).1 hp heq
    exact (mem_without.mp hmem).2 (congrArg Prod.fst hsame)
  refine ⟨?_, ?_, ?_, h.queueNodup, ?_, ?_, ?_, ?_, ?_, ?_, ?_, ?_⟩
  · intro k req hne hk
    have hkey : k ≠ f.key := fun heq => hne (congrArg some heq.symm)
    rw [log_history_ne _ hkey]
    refine (h.fates k req nofun hk).frame Iff.rfl (fun hq => hq) ?_
    intro p hpk
    refine ⟨fun hmem => (mem_without.mp hmem).1, fun hmem => mem_without.mpr ⟨hmem, ?_⟩⟩
    intro hid
    have hsame := List.inj_on_of_nodup_map h.idsNodup hmem hp hid
    exact hkey (hpk.symm.trans (congrArg (fun p => p.2.key) hsame))
  · intro k hk
    have hkey : k ≠ f.key := by
      intro heq
      exact absurd (h.pendingKeys _ hp).2.1 (Nat.not_lt.mpr (heq ▸ hk))
    rw [log_history_ne _ hkey]
    exact h.fresh k hk
  · intro p hpq
    have hkey : p.1 ≠ f.key := fun heq => (h.queueOps p hpq).2.1 (heq ▸ (h.pendingKeys _ hp).1)
    rw [log_history_ne _ hkey]
    exact h.queueOps p hpq
  · intro p hmem
    obtain ⟨hs, hlt, -⟩ := h.pendingKeys p (mem_without.mp hmem).1
    exact ⟨hs, hlt, fun heq => hkeys p hmem (Option.some.inj heq).symm⟩
  · exact h.keysNodup.sublist (List.filter_sublist.map _)
  · exact h.idsNodup.sublist (List.filter_sublist.map _)
  · have hring := h.ring
    rw [hout, Multiset.map_cons, Multiset.coe_eq_coe.mpr (hperm.map Prod.fst), List.map_cons,
      ← Multiset.cons_coe] at hring
    exact Multiset.cons_inj_right _ |>.mp hring
  · intro e' he' op hmem
    refine h.entries e' ?_ op (mem_without.mp hmem).1
    rw [hout]
    exact Multiset.mem_cons_of_mem he'
  · intro c hc
    exact h.results c (hcq ▸ List.mem_cons_of_mem _ hc)
  · have hroom := h.room
    rw [hperm.length_eq] at hroom
    exact hroom
  · intro hstop
    exact absurd (hstop.symm.trans hrun) nofun

/-- The op in hand was completed: a short write goes on, everything else ends it. -/
theorem Inv.onCompletion (h : Inv cfg (some key) s) (hop : s.ops[key]? = some req)
    (hs : key ∈ s.started) {n : ℕ} {e : Sqe} {res : ℤ} (taken : ℕ)
    (hr : Rounds id (Driver.inFlight key req) 0 io n)
    (hd : ∀ buf, (Driver.inFlight key req).buf = some buf → n < buf.length)
    (he : sqeFor id ((Driver.inFlight key req).upTo n) = some e)
    (hh : s.history key = io ++ [.pushed e, .completed res]) (hret : e.CanReturn res)
    (hid : (s.onCompletion cfg taken id ((Driver.inFlight key req).upTo n) res).reissued = false) :
    Inv cfg none (s.onCompletion cfg taken id ((Driver.inFlight key req).upTo n) res) := by
  unfold Driver.onCompletion at hid ⊢
  simp only [upTo_key, inFlight_key, upTo_buf, finish_upTo, upTo_done, upTo_upTo] at hid ⊢
  split at hid
  · rename_i hneg
    rw [if_pos hneg]
    exact h.finish hop hs hh (.failed hr hd he hneg)
  · rename_i hpos
    rw [if_neg hpos]
    cases hbuf : (Driver.inFlight key req).buf with
    | none =>
      have hout : Outcome id (Driver.inFlight key req) (s.history key) (.ok 0) := by
        rw [hh]
        cases hr with
        | nil => exact .synced hbuf he (Int.not_lt.mp hpos)
        | cons hbuf' => exact absurd (hbuf.symm.trans hbuf') nofun
      exact h.finish hop hs rfl hout
    | some buf =>
      have hlt := hd buf hbuf
      have hasked := asked_write he hbuf
      obtain ⟨-, hopw, -⟩ := sqeFor_write he hbuf
      have hcount : res ≤ e.asked := hret.2.2 (by rw [hopw]; exact nofun)
      simp only [hbuf] at hid ⊢
      split at hid
      · rename_i hzero
        rw [if_pos hzero]
        have hres : res = 0 := by omega
        subst hres
        exact h.finish hop hs hh (.stuck hbuf hr hlt he)
      · rename_i hmore
        rw [if_neg hmore]
        obtain ⟨k, rfl⟩ := Int.eq_ofNat_of_zero_le (Int.not_lt.mp hpos)
        have hsmall : buf.length < 2 ^ 63 := buf.small
        have hdone : min (saturatingAdd n k) buf.length = n + k := by
          rw [upTo_done] at hasked
          unfold saturatingAdd
          omega
        have hrounds := hr.snoc hbuf hlt he (by simpa [Nat.pos_iff_ne_zero] using hmore)
          (Int.ofNat_le.mp hcount)
        rw [← hh] at hrounds
        simp only [Int.toNat_natCast, hdone] at hid ⊢
        split at hid
        · rename_i hshort
          rw [if_pos hshort]
          refine h.submitOrFail hop hs taken hrounds ?_ hid
          intro buf' hbuf'
          cases hbuf.symm.trans hbuf'
          exact hshort
        · rename_i hfull
          rw [if_neg hfull]
          rw [upTo_done] at hasked
          have hlen : n + k = buf.length := by omega
          rw [hlen] at hrounds
          exact h.finish hop hs rfl (.full hbuf hrounds)

/-- One completion is handled. -/
theorem Inv.reap (h : Inv cfg none s) {e : Sqe} {res : ℤ} {cq : List (Sqe × ℤ)} (taken : ℕ)
    (hcq : s.cq = (e, res) :: cq) (hrun : s.stopped = false)
    (hid : ({ s with cq := cq }.reap cfg taken e res).reissued = false) :
    Inv cfg none ({ s with cq := cq }.reap cfg taken e res) := by
  have hmem : e ∈ s.outstanding := by
    refine Multiset.mem_add.mpr (.inr ?_)
    rw [hcq]
    exact List.mem_cons_self
  have huser : e.userData ∈ s.pending.map Prod.fst := by
    rw [← Multiset.mem_coe, ← h.ring]
    exact Multiset.mem_map_of_mem _ hmem
  unfold Driver.reap at hid ⊢
  cases hlook : s.pending.lookup e.userData with
  | none => exact absurd huser (not_mem_of_lookup hlook)
  | some f =>
    have hp := mem_of_lookup hlook
    obtain ⟨req, n, io, e', hop, hf, hr, hd, he, hh⟩ := h.of_pending hp
    cases he.symm.trans (h.entries e hmem f hp)
    have hret := h.results (e, res) (hcq ▸ List.mem_cons_self)
    simp only [hlook] at hid ⊢
    rw [hf] at he
    have hhist : ({ s with
        cq := cq
        pending := Driver.without s.pending e.userData }.log f.key [.completed res]).history f.key =
        io ++ [.pushed e, .completed res] := by
      rw [log_history_self]
      show s.history f.key ++ _ = _
      rw [hh, List.append_assoc]
      rfl
    have hstep := (h.take hcq hp hrun).onCompletion hop (h.pendingKeys _ hp).1 taken hr hd he
      hhist hret
    rw [← hf] at hstep
    exact hstep hid

/-- Events of distinct ops reach each op once. -/
theorem filter_key_eq {α : Type} (l : List α) (f : α → ℕ) (g : α → List Event)
    (hn : (l.map f).Nodup) {a : α} (ha : a ∈ l) :
    ((l.map fun a => (f a, g a)).filter fun p => p.1 = f a).flatMap (fun p => p.2) = g a := by
  induction l with
  | nil => cases ha
  | cons b l ih =>
    rw [List.map_cons, List.nodup_cons] at hn
    rcases List.mem_cons.mp ha with rfl | hmem
    · have hrest : (l.map fun a => (f a, g a)).filter (fun p => p.1 = f a) = [] := by
        refine List.filter_eq_nil_iff.mpr ?_
        intro p hp
        obtain ⟨c, hc, rfl⟩ := List.mem_map.mp hp
        have hne : f c ≠ f a := fun heq => hn.1 (List.mem_map.mpr ⟨c, hc, heq⟩)
        simpa using hne
      rw [List.map_cons, List.filter_cons_of_pos (by simp), hrest]
      simp
    · have hne : f b ≠ f a := by
        intro heq
        exact hn.1 (List.mem_map.mpr ⟨a, hmem, heq.symm⟩)
      rw [List.map_cons, List.filter_cons_of_neg (by simpa using hne)]
      exact ih hn.2 hmem

theorem filter_key_ne {α : Type} (l : List α) (f : α → ℕ) (g : α → List Event) {k : ℕ}
    (hk : ∀ a ∈ l, f a ≠ k) :
    ((l.map fun a => (f a, g a)).filter fun p => p.1 = k).flatMap (fun p => p.2) = [] := by
  have hnil : (l.map fun a => (f a, g a)).filter (fun p => p.1 = k) = [] := by
    refine List.filter_eq_nil_iff.mpr ?_
    intro p hp
    obtain ⟨a, ha, rfl⟩ := List.mem_map.mp hp
    simpa using hk a ha
  rw [hnil]
  rfl

/-- What the end of the owner adds to an op. -/
theorem stop_history (s : Driver) (k : ℕ) :
    s.stop.history k = s.history k ++
      (((s.pending.map fun p => (p.2.key, p.2.abandon)).filter fun p => p.1 = k).flatMap
        fun p => p.2) ++
      (((s.queue.map fun p => (p.1, p.2.drop)).filter fun p => p.1 = k).flatMap fun p => p.2) :=
  rfl

/-- The owner ends: what is pending is abandoned, what is queued is dropped. -/
theorem Inv.stop (h : Inv cfg none s) : Inv cfg none s.stop := by
  have hnotq : ∀ k, k ∈ s.started → ∀ p ∈ s.queue, p.1 ≠ k :=
    fun k hk p hp heq => (h.queueOps p hp).2.1 (heq ▸ hk)
  refine ⟨?_, ?_, nofun, List.nodup_nil, nofun, List.nodup_nil, List.nodup_nil, rfl, nofun, nofun,
    Nat.zero_le _, fun _ => ⟨rfl, rfl, rfl⟩⟩
  · intro k req _ hk
    rw [stop_history]
    cases h.fates k req nofun hk with
    | queued hs hq hh =>
      have hnotp : ∀ p ∈ s.pending, p.2.key ≠ k := fun p hp heq => hs (heq ▸ (h.pendingKeys p hp).1)
      rw [filter_key_ne _ _ _ hnotp, filter_key_eq s.queue Prod.fst _ h.queueNodup hq, hh]
      exact .dropped hs rfl
    | dropped hs hh =>
      have hnotp : ∀ p ∈ s.pending, p.2.key ≠ k := fun p hp heq => hs (heq ▸ (h.pendingKeys p hp).1)
      have hnot : ∀ p ∈ s.queue, p.1 ≠ k := by
        intro p hp heq
        have hempty := (h.queueOps p hp).2.2
        rw [heq, hh] at hempty
        cases req <;> cases hempty
      rw [filter_key_ne _ _ _ hnotp, filter_key_ne _ _ _ hnot, hh]
      exact .dropped hs (by simp)
    | @pending id n io e hs hp hr hd he hh =>
      have hkey := filter_key_eq s.pending (fun p => p.2.key) (fun p => p.2.abandon) h.keysNodup hp
      simp only [upTo_key, inFlight_key, abandon_upTo] at hkey
      rw [hkey, filter_key_ne _ _ _ (hnotq k hs), hh]
      exact .abandoned hs nofun hr hd he (by simp)
    | finished hs hp ho hh =>
      rw [filter_key_ne _ _ _ hp, filter_key_ne _ _ _ (hnotq k hs), hh]
      exact .finished hs nofun ho (by simp)
    | abandoned hs hp hr hd he hh =>
      rw [filter_key_ne _ _ _ hp, filter_key_ne _ _ _ (hnotq k hs), hh]
      exact .abandoned hs nofun hr hd he (by simp)
  · intro k (hk : s.ops.length ≤ k)
    obtain ⟨hh, hs⟩ := h.fresh k hk
    have hnotp : ∀ p ∈ s.pending, p.2.key ≠ k := fun p hp heq => hs (heq ▸ (h.pendingKeys p hp).1)
    have hnot : ∀ p ∈ s.queue, p.1 ≠ k := by
      intro p hp heq
      have hlt := (List.getElem?_eq_some_iff.mp (h.queueOps p hp).1).1
      omega
    refine ⟨?_, hs⟩
    rw [stop_history, filter_key_ne _ _ _ hnotp, filter_key_ne _ _ _ hnot, hh]
    rfl

theorem getElem?_append_self {l : List Op} {k : ℕ} {req' : Op}
    (h : (l ++ [req])[k]? = some req') : l[k]? = some req' ∨ k = l.length ∧ req' = req := by
  rcases Nat.lt_or_ge k l.length with hlt | hge
  · rw [List.getElem?_append_left hlt] at h
    exact .inl h
  · rw [List.getElem?_append_right hge] at h
    have hzero : k - l.length = 0 := by
      have := (List.getElem?_eq_some_iff.mp h).1
      simp only [List.length_singleton] at this
      omega
    rw [hzero] at h
    exact .inr ⟨by omega, (Option.some.inj h).symm⟩

/-- A caller makes an op: it is queued, or dropped when the owner is gone. -/
theorem Inv.submit (h : Inv cfg none s) (req : Op) : Inv cfg none (s.submit req) := by
  obtain ⟨hnil, hnew⟩ := h.fresh s.ops.length (Nat.le_refl _)
  have hgrow : ∀ (k : ℕ) req', s.ops[k]? = some req' → (s.ops ++ [req])[k]? = some req' := by
    intro k req' hk
    rw [List.getElem?_append_left (List.getElem?_eq_some_iff.mp hk).1]
    exact hk
  have hpend : ∀ p ∈ s.pending, p.2.key ∈ s.started ∧ p.2.key < (s.ops ++ [req]).length ∧
      none ≠ some p.2.key := by
    intro p hp
    obtain ⟨hs, hlt, -⟩ := h.pendingKeys p hp
    refine ⟨hs, ?_, nofun⟩
    rw [List.length_append]
    omega
  unfold Driver.submit
  split
  · exact h
  · split
    · rename_i hstop
      obtain ⟨hq, hp, -⟩ := h.halted hstop
      refine ⟨?_, ?_, ?_, h.queueNodup, hpend, h.keysNodup, h.idsNodup, h.ring, h.entries, h.results,
        h.room, h.halted⟩
      · intro k req' _ hk
        rcases getElem?_append_self hk with hold | ⟨rfl, rfl⟩
        · have hne : k ≠ s.ops.length := Nat.ne_of_lt (List.getElem?_eq_some_iff.mp hold).1
          rw [log_history_ne _ hne]
          exact h.fates k req' nofun hold
        · rw [log_history_self]
          show Fate _ _ _ (s.history s.ops.length ++ _) _ _
          rw [hnil]
          exact .dropped hnew rfl
      · intro k (hk : (s.ops ++ [req]).length ≤ k)
        rw [List.length_append, List.length_singleton] at hk
        rw [log_history_ne _ (by omega)]
        exact h.fresh k (by omega)
      · intro p (hp : p ∈ s.queue)
        rw [hq] at hp
        cases hp
    · rename_i hrun
      refine ⟨?_, ?_, ?_, ?_, hpend, h.keysNodup, h.idsNodup, h.ring, h.entries, h.results, h.room,
        fun hstop => absurd hstop hrun⟩
      · intro k req' _ hk
        rcases getElem?_append_self hk with hold | ⟨rfl, rfl⟩
        · exact (h.fates k req' nofun hold).frame Iff.rfl (List.mem_append_left _)
            fun _ _ => Iff.rfl
        · exact .queued hnew (List.mem_append_right _ List.mem_cons_self) hnil
      · intro k (hk : (s.ops ++ [req]).length ≤ k)
        rw [List.length_append, List.length_singleton] at hk
        exact h.fresh k (by omega)
      · intro p hp
        rcases List.mem_append.mp hp with hold | hlast
        · obtain ⟨hop, hs, hh⟩ := h.queueOps p hold
          exact ⟨hgrow _ _ hop, hs, hh⟩
        · cases List.mem_singleton.mp hlast
          exact ⟨List.getElem?_concat_length, hnew, hnil⟩
      · show ((s.queue ++ [(s.ops.length, req)]).map Prod.fst).Nodup
        rw [List.map_append, List.nodup_append]
        refine ⟨h.queueNodup, List.nodup_singleton _, ?_⟩
        intro k hk k' hk' heq
        obtain ⟨p, hp, rfl⟩ := List.mem_map.mp hk
        have hlt := (List.getElem?_eq_some_iff.mp (h.queueOps p hp).1).1
        simp only [List.map_cons, List.map_nil, List.mem_singleton] at hk'
        omega

theorem eraseIdx_add {l : List Sqe} {i : ℕ} {e : Sqe} (h : l[i]? = some e) :
    (l : Multiset Sqe) = (l.eraseIdx i : Multiset Sqe) + {e} := by
  obtain ⟨hi, rfl⟩ := List.getElem?_eq_some_iff.mp h
  rw [← Multiset.coe_singleton, Multiset.coe_add, Multiset.coe_eq_coe]
  exact ((List.getElem_cons_eraseIdx_perm hi).symm).trans (List.perm_append_singleton _ _).symm

/-- The kernel completes an entry. -/
theorem Inv.complete (h : Inv cfg none s) {i : ℕ} {e : Sqe} {res : ℤ} (hk : s.kernel[i]? = some e)
    (hret : e.CanReturn res) :
    Inv cfg none { s with kernel := s.kernel.eraseIdx i, cq := s.cq ++ [(e, res)] } := by
  have hout : { s with kernel := s.kernel.eraseIdx i, cq := s.cq ++ [(e, res)] }.outstanding =
      s.outstanding := by
    simp only [Driver.outstanding, List.map_append, ← Multiset.coe_add, eraseIdx_add hk,
      List.map_cons, List.map_nil, Multiset.coe_singleton]
    abel
  refine ⟨h.fates, h.fresh, h.queueOps, h.queueNodup, h.pendingKeys, h.keysNodup, h.idsNodup, ?_, ?_,
    ?_, h.room, h.halted⟩
  · rw [hout]
    exact h.ring
  · rw [hout]
    exact h.entries
  · intro c hc
    rcases List.mem_append.mp hc with hold | hlast
    · exact h.results c hold
    · cases List.mem_singleton.mp hlast
      exact hret

/-! ### Ids -/

/-- Nothing was reissued, and `id` is the only one that came onto the table. -/
structure OnlyAdds (id : ℕ) (s s' : Driver) : Prop where
  reissued : s'.reissued = s.reissued
  nextId : s'.nextId = s.nextId
  started : s'.started = s.started
  pending : ∀ p ∈ s'.pending, p.1 = id ∨ p ∈ s.pending

theorem onlyAdds_log (id : ℕ) (s : Driver) (key : ℕ) (events : List Event) :
    OnlyAdds id s (s.log key events) := ⟨rfl, rfl, rfl, fun _ hp => .inr hp⟩

theorem submitOrFail_onlyAdds (s : Driver) (taken id : ℕ) (op : InFlight)
    (hid : id ∉ s.pending.map Prod.fst) : OnlyAdds id s (s.submitOrFail cfg taken id op) := by
  unfold Driver.submitOrFail
  cases sqeFor id op with
  | none => exact onlyAdds_log id s _ _
  | some e =>
    dsimp only
    cases hpush : s.pushTwice cfg taken e with
    | none => exact ⟨rfl, rfl, rfl, fun _ hp => .inr hp⟩
    | some s' =>
      obtain ⟨sq, kernel, rfl, -⟩ := pushTwice_some hpush
      have hlook : s.pending.lookup id = none := by
        rw [List.lookup_eq_none_iff]
        intro p hp
        have hne : id ≠ p.1 := fun heq => hid (List.mem_map.mpr ⟨p, hp, heq.symm⟩)
        simpa using hne
      simp only [Driver.track, hlook]
      refine ⟨rfl, rfl, rfl, ?_⟩
      intro p hp
      rcases List.mem_cons.mp hp with rfl | hold
      · exact .inl rfl
      · exact .inr hold

theorem submitOrFail_started (s : Driver) (taken id : ℕ) (op : InFlight) :
    (s.submitOrFail cfg taken id op).started = s.started := by
  unfold Driver.submitOrFail
  cases sqeFor id op with
  | none => rfl
  | some e =>
    dsimp only
    cases hpush : s.pushTwice cfg taken e with
    | none => rfl
    | some s' =>
      obtain ⟨sq, kernel, rfl, -⟩ := pushTwice_some hpush
      dsimp only [Driver.track]
      split
      · rfl
      · rfl

theorem submitOrFail_reissued (s : Driver) (taken id : ℕ) (op : InFlight)
    (h : (s.submitOrFail cfg taken id op).reissued = false) : s.reissued = false := by
  by_cases hid : id ∈ s.pending.map Prod.fst
  · unfold Driver.submitOrFail at h
    cases he : sqeFor id op with
    | none =>
      rw [he] at h
      exact h
    | some e =>
      rw [he] at h
      dsimp only at h
      cases hpush : s.pushTwice cfg taken e with
      | none =>
        rw [hpush] at h
        exact h
      | some s' =>
        obtain ⟨sq, kernel, rfl, -⟩ := pushTwice_some hpush
        rw [hpush] at h
        simp only [Driver.track] at h
        split at h
        · exact h
        · cases h
  · exact (submitOrFail_onlyAdds s taken id op hid).reissued ▸ h

theorem startOp_cases (s : Driver) (taken id key : ℕ) (req : Op) :
    (∃ r, s.startOp cfg taken id key req = s.log key r) ∨
      s.startOp cfg taken id key req =
        s.submitOrFail cfg taken id (Driver.inFlight key req) := by
  unfold Driver.startOp
  dsimp only
  split
  · exact .inl ⟨_, rfl⟩
  · exact .inr rfl

theorem onCompletion_cases (s : Driver) (taken id : ℕ) (op : InFlight) (res : ℤ) :
    (∃ r, s.onCompletion cfg taken id op res = s.log op.key r) ∨
      ∃ n, s.onCompletion cfg taken id op res = s.submitOrFail cfg taken id (op.upTo n) := by
  unfold Driver.onCompletion
  split
  · exact .inl ⟨_, rfl⟩
  · split
    · exact .inl ⟨_, rfl⟩
    · split
      · exact .inl ⟨_, rfl⟩
      · dsimp only
        split
        · exact .inr ⟨_, rfl⟩
        · exact .inl ⟨_, rfl⟩

/-! ### Runs -/

/-- The moves of the system. -/
inductive Moves (cfg : Config) (s : Driver) : Driver → Prop where
  | quiet (cancelled : ℕ → Bool) (poisoned attached closing : Bool) :
      Moves cfg s { s with
        cancelled := cancelled
        poisoned := poisoned
        attached := attached
        closing := closing }
  | submit (req : Op) : Moves cfg s (s.submit req)
  | enter (taken : ℕ) : Moves cfg s (s.enter taken)
  | complete {i : ℕ} {e : Sqe} {res : ℤ} (hk : s.kernel[i]? = some e) (hret : e.CanReturn res) :
      Moves cfg s { s with kernel := s.kernel.eraseIdx i, cq := s.cq ++ [(e, res)] }
  | start {key : ℕ} {req : Op} {queue : List (ℕ × Op)} (taken : ℕ)
      (hq : s.queue = (key, req) :: queue) (hroom : s.pending.length < cfg.maxInFlight)
      (hrun : s.stopped = false) :
      Moves cfg s ({ s with
        queue := queue
        nextId := (s.nextId + 1) % 2 ^ 64
        started := key :: s.started }.startOp cfg taken ((s.nextId + 1) % 2 ^ 64) key req)
  | reap {e : Sqe} {res : ℤ} {cq : List (Sqe × ℤ)} (taken : ℕ) (hcq : s.cq = (e, res) :: cq)
      (hrun : s.stopped = false) : Moves cfg s ({ s with cq := cq }.reap cfg taken e res)
  | stop : Moves cfg s s.stop

theorem next_moves {s' : Driver} {a : Action} (h : s.next cfg a = some s') : Moves cfg s s' := by
  cases a with
  | submit req =>
    simp only [Driver.next] at h
    split at h
    · cases h
      exact .submit req
    · cases h
  | cancel key =>
    cases h
    exact .quiet _ s.poisoned s.attached s.closing
  | resolve key =>
    simp only [Driver.next] at h
    split at h
    · cases h
    · cases h
      exact .quiet s.cancelled _ s.attached s.closing
  | close =>
    cases h
    exact .quiet s.cancelled s.poisoned _ s.closing
  | startNext taken =>
    simp only [Driver.next] at h
    split at h
    · cases h
    · rename_i hguard
      split at h
      · cases h
      · rename_i key req queue hq
        cases h
        simp only [not_or, Bool.not_eq_true, Nat.not_le] at hguard
        exact .start taken hq hguard.2.2 hguard.1
  | seeClosed =>
    simp only [Driver.next] at h
    split at h
    · cases h
    · cases h
      exact .quiet s.cancelled s.poisoned s.attached _
  | submitQueued taken =>
    simp only [Driver.next] at h
    split at h
    · cases h
    · cases h
      exact .enter taken
  | reap taken =>
    simp only [Driver.next] at h
    split at h
    · cases h
    · rename_i hrun
      split at h
      · cases h
      · rename_i e res cq hcq
        cases h
        exact .reap taken hcq (by simpa using hrun)
  | complete i res =>
    simp only [Driver.next] at h
    split at h
    · cases h
    · rename_i e hk
      split at h
      · rename_i hret
        cases h
        exact .complete hk hret
      · cases h
  | exit =>
    simp only [Driver.next] at h
    split at h
    · cases h
    · cases h
      exact .stop
  | teardown =>
    simp only [Driver.next] at h
    split at h
    · cases h
    · cases h
      exact .stop

/-- No step forgets that an id was reissued. -/
theorem Moves.reissued {s' : Driver} (h : Moves cfg s s') (hid : s'.reissued = false) :
    s.reissued = false := by
  cases h with
  | quiet => exact hid
  | submit req =>
    unfold Driver.submit at hid
    split at hid
    · exact hid
    · split at hid
      · exact hid
      · exact hid
  | enter => exact hid
  | complete => exact hid
  | stop => exact hid
  | start taken =>
    rcases startOp_cases _ taken _ _ _ with ⟨r, hr⟩ | hr
    · rw [hr] at hid
      exact hid
    · rw [hr] at hid
      have hold := submitOrFail_reissued _ _ _ _ hid
      exact hold
  | @reap e res cq taken =>
    unfold Driver.reap at hid
    split at hid
    · exact hid
    · rename_i op _
      rcases onCompletion_cases _ taken _ _ _ with ⟨r, hr⟩ | ⟨n, hr⟩
      · rw [hr] at hid
        exact hid
      · rw [hr] at hid
        have hold := submitOrFail_reissued _ _ _ _ hid
        exact hold

/-- One step keeps the invariant as long as no live id is reissued. -/
theorem Moves.inv {s' : Driver} (h : Moves cfg s s') (hinv : Inv cfg none s)
    (hid : s'.reissued = false) : Inv cfg none s' := by
  cases h with
  | quiet => exact ⟨hinv.fates, hinv.fresh, hinv.queueOps, hinv.queueNodup, hinv.pendingKeys,
      hinv.keysNodup, hinv.idsNodup, hinv.ring, hinv.entries, hinv.results, hinv.room, hinv.halted⟩
  | submit req => exact hinv.submit req
  | enter taken => exact hinv.enter taken
  | complete hk hret => exact hinv.complete hk hret
  | start taken hq hroom hrun => exact hinv.startOp _ taken hq hroom hrun hid
  | reap taken hcq hrun => exact hinv.reap taken hcq hrun hid
  | stop => exact hinv.stop

/-- Ids of the first `2 ^ 64` ops are the numbers of their starts. -/
def Counted (s : Driver) : Prop :=
  s.started.length < 2 ^ 64 →
    s.reissued = false ∧ s.nextId = s.started.length ∧
      ∀ p ∈ s.pending, p.1 ≤ s.started.length

/-- Under the next number, an op that is started finds its id free. -/
theorem Counted.start {t s' : Driver} (hc : Counted s) (hp : t.pending = s.pending)
    (hr : t.reissued = s.reissued) (hn : t.nextId = (s.nextId + 1) % 2 ^ 64)
    (hs : t.started = key :: s.started) (hs' : s'.started = t.started)
    (hadd : t.nextId ∉ t.pending.map Prod.fst → OnlyAdds t.nextId t s') : Counted s' := by
  intro hlt
  rw [hs', hs, List.length_cons] at hlt
  obtain ⟨hold, hnum, hids⟩ := hc (by omega)
  have hid : t.nextId = s.started.length + 1 := by rw [hn, hnum, Nat.mod_eq_of_lt hlt]
  have hfree : t.nextId ∉ t.pending.map Prod.fst := by
    intro hmem
    obtain ⟨p, hpm, hpid⟩ := List.mem_map.mp hmem
    have hle := hids p (hp ▸ hpm)
    omega
  have hkept := hadd hfree
  rw [hs', hs, List.length_cons]
  refine ⟨hkept.reissued.trans (hr.trans hold), hkept.nextId.trans hid, ?_⟩
  intro p hpm
  rcases hkept.pending p hpm with heq | hmem
  · omega
  · have hle := hids p (hp ▸ hmem)
    omega

theorem Moves.counted {s' : Driver} (h : Moves cfg s s') (hc : Counted s) : Counted s' := by
  cases h with
  | quiet => exact hc
  | enter => exact hc
  | complete => exact hc
  | stop =>
    intro hlt
    obtain ⟨hr, hn, -⟩ := hc hlt
    exact ⟨hr, hn, nofun⟩
  | submit req =>
    unfold Driver.submit
    split
    · exact hc
    · split
      · exact hc
      · exact hc
  | @start key req queue taken =>
    refine hc.start (t := { s with
      queue := queue
      nextId := (s.nextId + 1) % 2 ^ 64
      started := key :: s.started }) rfl rfl rfl rfl ?_ ?_
    · rcases startOp_cases _ taken _ _ _ with ⟨r, hr⟩ | hr
      · rw [hr]
        rfl
      · rw [hr, submitOrFail_started]
    · intro hfree
      rcases startOp_cases _ taken _ _ _ with ⟨r, hr⟩ | hr
      · rw [hr]
        exact onlyAdds_log _ _ _ _
      · rw [hr]
        exact submitOrFail_onlyAdds _ _ _ _ hfree
  | @reap e res cq taken =>
    unfold Driver.reap
    cases hlook : s.pending.lookup e.userData with
    | none => exact hc
    | some op =>
      dsimp only
      have hfree : e.userData ∉ (Driver.without s.pending e.userData).map Prod.fst := by
        intro hmem
        obtain ⟨p, hp, heq⟩ := List.mem_map.mp hmem
        exact (mem_without.mp hp).2 heq
      have hadd : OnlyAdds e.userData ({ s with
          cq := cq
          pending := Driver.without s.pending e.userData }.log op.key [.completed res])
          (({ s with
            cq := cq
            pending := Driver.without s.pending e.userData }.log op.key
              [.completed res]).onCompletion cfg taken e.userData op res) := by
        rcases onCompletion_cases _ taken e.userData op res with ⟨r, hr⟩ | ⟨n, hr⟩
        · rw [hr]
          exact onlyAdds_log _ _ _ _
        · rw [hr]
          exact submitOrFail_onlyAdds _ _ _ _ hfree
      intro hlt
      rw [hadd.started] at hlt
      obtain ⟨hold, hnum, hids⟩ := hc hlt
      rw [hadd.started]
      refine ⟨hadd.reissued.trans hold, hadd.nextId.trans hnum, ?_⟩
      intro p hp
      rcases hadd.pending p hp with heq | hmem
      · rw [heq]
        exact hids _ (mem_of_lookup hlook)
      · exact hids p (mem_without.mp hmem).1

theorem inv_start (cfg : Config) : Inv cfg none Driver.start := by
  refine ⟨nofun, fun _ _ => ⟨rfl, nofun⟩, nofun, List.nodup_nil, nofun, List.nodup_nil,
    List.nodup_nil, rfl, nofun, nofun, Nat.zero_le _, nofun⟩

/-- The invariant holds until a live id is reissued, which takes `2 ^ 64` ops. -/
def Sound (cfg : Config) (s : Driver) : Prop := (s.reissued = false → Inv cfg none s) ∧ Counted s

theorem reach_sound {s : Driver} (h : Reach (Driver.next cfg) (fun _ => True) Driver.start s) :
    Sound cfg s := by
  refine h.invariant ?_ ?_
  · exact ⟨fun _ => inv_start cfg, fun _ => ⟨rfl, rfl, nofun⟩⟩
  · intro t a t' ht _ hn
    have hmove := next_moves hn
    exact ⟨fun hid => hmove.inv (ht.1 (hmove.reissued hid)) hid, hmove.counted ht.2⟩

/-! ### The size of the table -/

theorem track_length (s : Driver) (id : ℕ) (op : InFlight) :
    (s.track id op).pending.length ≤ s.pending.length + 1 := by
  unfold Driver.track
  split
  · exact Nat.le_refl _
  · exact Nat.succ_le_succ (List.length_filter_le _ _)

theorem submitOrFail_length (s : Driver) (taken id : ℕ) (op : InFlight) :
    (s.submitOrFail cfg taken id op).pending.length ≤ s.pending.length + 1 := by
  unfold Driver.submitOrFail
  split
  · exact Nat.le_succ _
  · split
    · rename_i hpush
      obtain ⟨sq, kernel, rfl, -⟩ := pushTwice_some hpush
      exact track_length _ id op
    · exact Nat.le_succ _

theorem without_length {pending : List (ℕ × InFlight)} (h : (id, op) ∈ pending) :
    (Driver.without pending id).length < pending.length :=
  List.length_filter_lt_length_iff_exists.mpr ⟨_, h, by simp⟩

/-- The owner accepts no op while the completion queue could fill up. -/
theorem Moves.room {s' : Driver} (h : Moves cfg s s') (hroom : s.pending.length ≤ cfg.maxInFlight) :
    s'.pending.length ≤ cfg.maxInFlight := by
  cases h with
  | quiet => exact hroom
  | enter => exact hroom
  | complete => exact hroom
  | stop => exact Nat.zero_le _
  | submit req =>
    unfold Driver.submit
    split
    · exact hroom
    · split
      · exact hroom
      · exact hroom
  | start taken hq hlt hrun =>
    rcases startOp_cases _ taken _ _ _ with ⟨r, hr⟩ | hr
    · rw [hr]
      exact hroom
    · rw [hr]
      exact Nat.le_trans (submitOrFail_length _ _ _ _) hlt
  | @reap e res cq taken =>
    unfold Driver.reap
    cases hlook : s.pending.lookup e.userData with
    | none => exact hroom
    | some op =>
      have hlt := without_length (mem_of_lookup hlook)
      dsimp only
      rcases onCompletion_cases _ taken e.userData op res with ⟨r, hr⟩ | ⟨n, hr⟩
      · rw [hr]
        exact Nat.le_trans (Nat.le_of_lt hlt) hroom
      · rw [hr]
        exact Nat.le_trans (submitOrFail_length _ _ _ _) (Nat.le_trans hlt hroom)

end Fsys.Async
