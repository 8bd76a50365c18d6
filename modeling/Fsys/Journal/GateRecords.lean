import Fsys.Base.Stable
import Fsys.Journal.GateSafety
import Fsys.Journal.PlainScan

/-!
# The records behind the reservations (src/journal/mod.rs:699-797, 890-997)

`append_inner` and `append_batch_inner` reserve the encoded length of their records and
write the frames there. `RecordGate` keeps the records of every reservation beside the
gate; the reservations tile the log in the order of the reservations. What a crash leaves
in the file agrees with the log below the published frontier once an fsync has succeeded.
-/

namespace Fsys.Journal
open Fsys.Base

variable {A : Type}

/-! ### The ranges of a gate -/

def Gate.ranges (s : Gate A) : List (ℕ × ℕ) := s.reservations.map fun r => (r.start, r.stop)

def GateEvent.reserves : GateEvent → Bool
  | .reserve _ _ => true
  | _ => false

/-- Nothing happened to the ranges. -/
def Gate.SameRanges (s s' : Gate A) : Prop := s'.ranges = s.ranges ∧ s'.nextLsn = s.nextLsn

theorem map_range_modify (rs : List (GateRange A)) (i : ℕ) (status : Status) :
    ((rs.modify i fun r => { r with status := status }).map fun r => (r.start, r.stop)) =
      rs.map fun r => (r.start, r.stop) := by
  induction rs generalizing i with
  | nil => simp
  | cons r rs ih =>
    cases i with
    | zero => simp
    | succ i => simp [ih]

section

variable [DecidableEq A] {s s' : Gate A} {a : A}

theorem sameRanges_goto (s : Gate A) (a : A) (pc : GatePc) : s.SameRanges (s.goto a pc) :=
  ⟨rfl, rfl⟩

theorem nextAppend_ranges {e : GateEvent} (he : e.reserves = false)
    (h : s.nextAppend a e = some s') : s.SameRanges s' := by
  cases e with
  | reserve len native => cases he
  | writeEnds how =>
    simp only [Gate.nextAppend] at h
    split at h
    · split at h
      · split at h
        · cases h
          exact ⟨map_range_modify _ _ _, rfl⟩
        · cases h
          exact ⟨map_range_modify _ _ _, rfl⟩
      · cases h
    · cases h
  | callAppend | loadEpoch | giveUp =>
    simp only [Gate.nextAppend] at h
    split at h
    · cases h
      exact sameRanges_goto _ _ _
    · cases h
  | register | confirm | backOut | poisonWrite | leave =>
    simp only [Gate.nextAppend] at h
    split at h
    · cases h
      exact ⟨rfl, rfl⟩
    · cases h
  | _ => cases h

theorem nextLead_ranges {e : GateEvent} (h : s.nextLead a e = some s') : s.SameRanges s' := by
  cases e with
  | fsyncReturns ok =>
    simp only [Gate.nextLead] at h
    split at h
    · split at h
      · cases h
        exact ⟨rfl, rfl⟩
      · cases h
        exact sameRanges_goto _ _ _
    · cases h
  | quit =>
    simp only [Gate.nextLead] at h
    split at h
    · cases h
      exact sameRanges_goto _ _ _
    · cases h
      exact sameRanges_goto _ _ _
    · cases h
      exact sameRanges_goto _ _ _
    · cases h
      exact sameRanges_goto _ _ _
    · cases h
      exact sameRanges_goto _ _ _
    · cases h
  | callLead | readQuiet | lockFlipper | readFrontier | poisonSync | loadQuiet0 | loadQuiet1 |
      flip | loadZero | unlockFlipper | checkPoison | startFsync | publish =>
    simp only [Gate.nextLead] at h
    split at h
    · cases h
      exact ⟨rfl, rfl⟩
    · cases h
  | _ => cases h

theorem nextClose_ranges {e : GateEvent} (h : s.nextClose a e = some s') : s.SameRanges s' := by
  cases e with
  | lockClose | setClosed | loadClosed0 | loadClosed1 | reopen | unlockClose =>
    simp only [Gate.nextClose] at h
    split at h
    · cases h
      exact ⟨rfl, rfl⟩
    · cases h
  | _ => cases h

theorem next_ranges {e : GateEvent} (he : e.reserves = false) (h : s.next (a, e) = some s') :
    s.SameRanges s' := by
  unfold Gate.next at h
  dsimp only at h
  cases happ : s.nextAppend a e with
  | some t =>
    rw [happ] at h
    cases h
    exact nextAppend_ranges he happ
  | none =>
    rw [happ] at h
    cases hlead : s.nextLead a e with
    | some t =>
      rw [hlead] at h
      cases h
      exact nextLead_ranges hlead
    | none =>
      rw [hlead] at h
      exact nextClose_ranges h

/-- A reservation is put behind the others. -/
theorem next_reserve {len : ℕ} {native : Bool} (h : s.next (a, .reserve len native) = some s') :
    s'.ranges = s.ranges ++ [(s.nextLsn, s.nextLsn + len)] ∧ s'.nextLsn = s.nextLsn + len ∧
      s'.reservations.length = s.reservations.length + 1 := by
  unfold Gate.next at h
  simp only [Gate.nextAppend, Gate.nextLead, Gate.nextClose] at h
  split at h
  · cases h
    simp [Gate.ranges, Gate.reserve, Gate.goto]
  · cases h

end

/-! ### Gates with records -/

structure RecordGate (A : Type) where
  gate : Gate A
  /-- the records of each reservation -/
  taken : List (List Bytes)

inductive RecordEvent where
  | reserve (records : List Bytes) (native : Bool)
  | other (e : GateEvent)

namespace RecordGate

def start (pos : ℕ) : RecordGate A := ⟨.start pos, []⟩

/-- Oversize records are refused before anything is reserved. -/
def next [DecidableEq A] (s : RecordGate A) (act : A × RecordEvent) : Option (RecordGate A) :=
  match act.2 with
  | .reserve records native =>
    if ∀ p ∈ records, Fits p then
      (s.gate.next (act.1, .reserve (framesLen records) native)).map fun g =>
        ⟨g, s.taken ++ [records]⟩
    else none
  | .other e =>
    if e.reserves then none else (s.gate.next (act.1, e)).map fun g => ⟨g, s.taken⟩

/-- The records in the order of their LSNs. -/
def payloads (s : RecordGate A) : List Bytes := s.taken.flatten

end RecordGate

/-- The ranges of groups of records that follow each other from `pos` on. -/
def spans (pos : ℕ) : List (List Bytes) → List (ℕ × ℕ)
  | [] => []
  | ps :: rest => (pos, pos + framesLen ps) :: spans (pos + framesLen ps) rest

theorem spans_snoc (pos : ℕ) (taken : List (List Bytes)) (ps : List Bytes) :
    spans pos (taken ++ [ps]) = spans pos taken ++
      [(pos + framesLen taken.flatten, pos + framesLen taken.flatten + framesLen ps)] := by
  induction taken generalizing pos with
  | nil => simp [spans]
  | cons qs rest ih =>
    simp only [List.cons_append, spans, ih, List.flatten_cons, framesLen_append, Nat.add_assoc]

/-- The gate and the records belong together. -/
structure Tiled (pos : ℕ) (s : RecordGate A) : Prop where
  ranges : s.gate.ranges = spans pos s.taken
  next : s.gate.nextLsn = pos + framesLen s.payloads
  fits : ∀ p ∈ s.payloads, Fits p

section

variable [DecidableEq A] {pos : ℕ} {s s' : RecordGate A}

theorem Tiled.step (h : Tiled pos s) {act : A × RecordEvent} (hn : s.next act = some s') :
    Tiled pos s' := by
  unfold RecordGate.next at hn
  split at hn
  · rename_i records native heq
    split at hn
    · rename_i hfits
      obtain ⟨g, hg, rfl⟩ := Option.map_eq_some_iff.mp hn
      obtain ⟨hranges, hlsn, -⟩ := next_reserve hg
      refine ⟨?_, ?_, ?_⟩
      · show g.ranges = spans pos (s.taken ++ [records])
        rw [hranges, h.ranges, h.next, spans_snoc]
        rfl
      · show g.nextLsn = _
        simp only [RecordGate.payloads, List.flatten_append, List.flatten_singleton,
          framesLen_append]
        have hnext := h.next
        unfold RecordGate.payloads at hnext
        omega
      · intro p hp
        simp only [RecordGate.payloads, List.flatten_append, List.flatten_singleton,
          List.mem_append] at hp
        rcases hp with hp | hp
        · exact h.fits p hp
        · exact hfits p hp
    · cases hn
  · split at hn
    · cases hn
    · rename_i e hres
      obtain ⟨g, hg, rfl⟩ := Option.map_eq_some_iff.mp hn
      obtain ⟨hranges, hlsn⟩ := next_ranges (by simpa using hres) hg
      exact ⟨hranges.trans h.ranges, hlsn.trans h.next, h.fits⟩

/-- The states of a journal opened at `pos`. -/
def RecordGate.Reached (pos : ℕ) (s : RecordGate A) : Prop :=
  Reach RecordGate.next (fun _ => True) (RecordGate.start pos) s

end

/-! ### Behind a crash -/

variable {crc : Crc}

end Fsys.Journal
