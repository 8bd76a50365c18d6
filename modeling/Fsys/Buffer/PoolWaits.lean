import Fsys.Buffer.PoolSafety

/-!
# Wake-ups in the buffer pool (src/buffer/pool.rs:180-196, 213-234)

`return_allocation` pushes and notifies without the mutex. A caller that found the queue
empty under the mutex and is not parked yet hears nothing of a buffer that comes back then.
When no notification falls into that window, every buffer in the queue is announced or has
a caller on its way while somebody waits.
-/

namespace Fsys.Buffer
open Fsys.Base

variable {A B : Type}

/-- On its way to the queue, whatever the others do. -/
def Phase.coming : Phase B → Bool
  | .popping => true
  | .woken => true
  | .unlocking => true
  | _ => false

/-- Has found the queue empty and is not parked yet. -/
def Phase.deciding : Phase B → Bool
  | .comparing => true
  | .waiting => true
  | _ => false

def Phase.isParked : Phase B → Bool
  | .parked => true
  | _ => false

def Phase.waits (ph : Phase B) : Bool := ph.deciding || ph.isParked

/-- About to issue a notification. -/
def Phase.announces : Phase B → Bool
  | .notifying => true
  | _ => false

/-! ### One caller -/

section Local

variable {p : Pool} {sh sh' : Shared B} {c : Choice B} {ph ph' : Phase B}

/-- A step that leaves buffers in the queue makes no new caller wait, and each buffer it
adds is announced, each caller it turns away has taken one. -/
structure Fair (sh sh' : Shared B) (ph ph' : Phase B) : Prop where
  waits : ph'.waits.toNat ≤ ph.waits.toNat
  covers : sh'.free.length + (ph.announces.toNat + ph.coming.toNat) ≤
    sh.free.length + (ph'.announces.toNat + ph'.coming.toNat)

/-- The queue stays as it is. -/
theorem Fair.of_free (hfree : sh'.free = sh.free) (hwaits : ph'.waits.toNat ≤ ph.waits.toNat)
    (hcovers : ph.announces.toNat + ph.coming.toNat ≤ ph'.announces.toNat + ph'.coming.toNat) :
    Fair sh sh' ph ph' := by
  refine ⟨hwaits, ?_⟩
  rw [hfree]
  omega

variable [DecidableEq B]

theorem go_fair (hstep : go p sh ph = some (sh', ph')) :
    sh'.free = [] ∨ Fair sh sh' ph ph' := by
  cases ph with
  | popping =>
    simp only [go] at hstep
    split at hstep
    · rename_i raw rest hfree
      cases hstep
      refine .inr ⟨Nat.le_refl _, ?_⟩
      rw [hfree]
      exact Nat.le_refl _
    · rename_i hempty
      cases hstep
      exact .inl hempty
  | loading =>
    simp only [go] at hstep
    split at hstep <;>
    · cases hstep
      exact .inr (.of_free rfl (Nat.le_refl _) (Nat.le_refl _))
  | exchanging seen =>
    simp only [go] at hstep
    split at hstep <;>
    · cases hstep
      exact .inr (.of_free rfl (Nat.le_refl _) (Nat.zero_le _))
  | rollingBack =>
    simp only [go, Option.some.injEq, Prod.mk.injEq] at hstep
    obtain ⟨rfl, rfl⟩ := hstep
    exact .inr (.of_free rfl (Nat.le_refl _) (Nat.le_refl _))
  | handing raw =>
    cases hstep
    exact .inr (.of_free rfl (Nat.le_refl _) (Nat.le_refl _))
  | locking =>
    simp only [go] at hstep
    split at hstep
    · cases hstep
    · cases hstep
      exact .inr (.of_free rfl (Nat.le_refl _) (Nat.le_refl _))
  | checking =>
    simp only [go] at hstep
    split at hstep
    · rename_i hempty
      cases hstep
      exact .inl hempty
    · cases hstep
      exact .inr (.of_free rfl (Nat.le_refl _) (Nat.zero_le _))
  | comparing =>
    simp only [go] at hstep
    split at hstep
    · cases hstep
      exact .inr (.of_free rfl (Nat.zero_le _) (Nat.zero_le _))
    · cases hstep
      exact .inr (.of_free rfl (Nat.le_refl _) (Nat.le_refl _))
  | waiting =>
    cases hstep
    exact .inr (.of_free rfl (Nat.le_refl _) (Nat.le_refl _))
  | woken =>
    simp only [go] at hstep
    split at hstep
    · cases hstep
    · cases hstep
      exact .inr (.of_free rfl (Nat.le_refl _) (Nat.le_refl _))
  | unlocking =>
    cases hstep
    exact .inr (.of_free rfl (Nat.le_refl _) (Nat.le_refl _))
  | pushing raw =>
    simp only [go] at hstep
    split at hstep
    · cases hstep
      refine .inr ⟨Nat.le_refl _, ?_⟩
      rw [List.length_append]
      exact Nat.le_refl _
    · cases hstep
      exact .inr (.of_free rfl (Nat.le_refl _) (Nat.le_refl _))
  | freeing raw =>
    cases hstep
    exact .inr (.of_free rfl (Nat.le_refl _) (Nat.le_refl _))
  | releasing =>
    simp only [go, Option.some.injEq, Prod.mk.injEq] at hstep
    obtain ⟨rfl, rfl⟩ := hstep
    exact .inr (.of_free rfl (Nat.le_refl _) (Nat.zero_le _))
  | idle => cases hstep
  | allocating => cases hstep
  | notifying => cases hstep
  | parked => cases hstep

theorem advance_fair (hstep : advance p sh ph c = some (sh', ph')) :
    sh'.free = [] ∨ Fair sh sh' ph ph' := by
  rcases advance_cases hstep with hgo | ⟨rfl, rfl, rfl⟩ | ⟨raw, -, rfl, rfl, rfl⟩ |
    ⟨rfl, rfl, rfl⟩ | ⟨raw, -, rfl, rfl, rfl⟩ | ⟨rfl, rfl, rfl⟩
  · exact go_fair hgo
  · exact .inr (.of_free rfl (Nat.le_refl _) (Nat.zero_le _))
  · exact .inr (.of_free rfl (Nat.le_refl _) (Nat.le_refl _))
  · exact .inr (.of_free rfl (Nat.le_refl _) (Nat.le_refl _))
  · exact .inr (.of_free rfl (Nat.le_refl _) (Nat.le_refl _))
  · exact .inr (.of_free rfl (Nat.zero_le _) (Nat.zero_le _))

end Local

/-! ### All callers -/

section Run

variable [Fintype A] {p : Pool} {s s' : PoolState A B}

/-- While somebody waits or is about to, each buffer in the queue is announced or somebody
comes for it. -/
def Covered (s : PoolState A B) : Prop :=
  0 < tally Phase.waits s.pc →
    s.shared.free.length ≤ tally Phase.announces s.pc + tally Phase.coming s.pc

/-- No caller is parked while a buffer sits in the queue, no notification is to be issued and
nobody is on its way to the queue. -/
def NoLostWakeup (s : PoolState A B) : Prop :=
  ∀ a, s.pc a = .parked → s.shared.free ≠ [] →
    ∃ b, s.pc b = .notifying ∨ (s.pc b).coming = true

/-- A notification that finds nobody parked falls outside every window between the look at
the queue and the wait, unless its buffer has another notification or caller to spare. -/
def Heard (s : PoolState A B) : Action A B → Prop
  | .notify _ none => (∃ b, (s.pc b).deciding = true) →
    s.shared.free.length < tally Phase.announces s.pc + tally Phase.coming s.pc
  | _ => True

theorem covered_new : Covered (PoolState.new : PoolState A B) := by
  intro _
  exact Nat.zero_le _

theorem Covered.noLostWakeup (h : Covered s) : NoLostWakeup s := by
  intro a ha hfree
  have hwaits := le_tally Phase.waits s.pc a
  rw [ha] at hwaits
  have hcovered := h hwaits
  have hsome : 0 < s.shared.free.length := List.length_pos_of_ne_nil hfree
  by_cases hcoming : 0 < tally Phase.coming s.pc
  · obtain ⟨b, hb⟩ := exists_of_tally_pos hcoming
    exact ⟨b, .inr hb⟩
  · obtain ⟨b, hb⟩ := exists_of_tally_pos (p := Phase.announces) (f := s.pc) (by omega)
    refine ⟨b, .inl ?_⟩
    cases hpc : s.pc b with
    | notifying => rfl
    | _ =>
      rw [hpc] at hb
      cases hb

/-- Who waits while nobody is parked is in its window. -/
theorem exists_deciding {pc : A → Phase B} (hnobody : ∀ b, pc b ≠ .parked)
    (hwaits : 0 < tally Phase.waits pc) : ∃ b, (pc b).deciding = true := by
  obtain ⟨b, hb⟩ := exists_of_tally_pos hwaits
  refine ⟨b, ?_⟩
  cases hpc : pc b with
  | parked => exact absurd hpc (hnobody b)
  | _ =>
    rw [hpc] at hb
    exact hb

variable [DecidableEq A]

theorem Covered.move (h : Covered s) {a : A} {sh' : Shared B} {ph' : Phase B}
    (hf : sh'.free = [] ∨ Fair s.shared sh' (s.pc a) ph') :
    Covered ⟨sh', Function.update s.pc a ph'⟩ := by
  intro hwaits
  dsimp only at hwaits ⊢
  rcases hf with hempty | hfair
  · rw [hempty]
    exact Nat.zero_le _
  · have hw := tally_update Phase.waits s.pc a ph'
    have hn := tally_update Phase.announces s.pc a ph'
    have hc := tally_update Phase.coming s.pc a ph'
    have hfewer := hfair.waits
    have hcovers := hfair.covers
    have hcovered := h (by omega)
    omega

/-- A notification that is heard moves two callers. -/
theorem tally_wake (q : Phase B → Bool) {pc : A → Phase B} {a b : A} (ha : pc a = .notifying)
    (hb : pc b = .parked) (hne : a ≠ b) :
    tally q (Function.update (Function.update pc b .woken) a .idle) + (q .parked).toNat +
      (q .notifying).toNat = tally q pc + (q .woken).toNat + (q .idle).toNat := by
  have hfirst := tally_update q pc b .woken
  have hsecond := tally_update q (Function.update pc b .woken) a .idle
  rw [Function.update_of_ne hne, ha] at hsecond
  rw [hb] at hfirst
  omega

variable [DecidableEq B]

theorem Covered.next {act : Action A B} (h : Covered s) (hheard : Heard s act)
    (hn : next p s act = some s') : Covered s' := by
  rcases next_cases hn with ⟨a, choice, shared, phase, rfl, hstep, rfl⟩ |
    ⟨a, rfl, ha, hnobody, rfl⟩ | ⟨a, b, rfl, ha, hb, hne, rfl⟩
  · exact h.move (advance_fair hstep)
  · intro hwaits
    dsimp only at hwaits ⊢
    have hw := tally_update Phase.waits s.pc a .idle
    have hn := tally_update Phase.announces s.pc a .idle
    have hc := tally_update Phase.coming s.pc a .idle
    rw [ha] at hw hn hc
    simp only [Phase.waits, Phase.deciding, Phase.isParked, Phase.announces, Phase.coming,
      Bool.or_false, Bool.toNat_true, Bool.toNat_false] at hw hn hc
    have hlt := hheard (exists_deciding hnobody (by omega))
    omega
  · intro hwaits
    dsimp only at hwaits ⊢
    have hw := tally_wake Phase.waits ha hb hne
    have hn := tally_wake Phase.announces ha hb hne
    have hc := tally_wake Phase.coming ha hb hne
    simp only [Phase.waits, Phase.deciding, Phase.isParked, Phase.announces, Phase.coming,
      Bool.or_false, Bool.or_true, Bool.toNat_true, Bool.toNat_false] at hw hn hc
    have hcovered := h (by omega)
    omega

theorem no_lost_wakeup (p : Pool) (s : PoolState A B)
    (h : ReachIf (next p) Heard PoolState.new s) : NoLostWakeup s := by
  have hcovered : Covered s :=
    h.invariant covered_new fun _ _ _ ht hheard hn => ht.next hheard hn
  exact hcovered.noLostWakeup

end Run

/-! ### The smallest pool -/

/-- The only buffer is leased, and the other caller finds the queue empty. -/
def oneLeased : List (Action Bool ℕ) :=
  [.act true .lease, .act true .go, .act true .go, .act true .go, .act true (.alloc (some 7)),
    .act true .go, .act false .lease, .act false .go, .act false .go, .act false .go,
    .act false .go, .act false .go]

/-- It parks before the buffer comes back. -/
def parksInTime : List (Action Bool ℕ) :=
  oneLeased ++ [.act false .go, .act true (.drop 7), .act true .go]

/-- The buffer comes back before it parks. -/
def parksTooLate : List (Action Bool ℕ) :=
  oneLeased ++ [.act true (.drop 7), .act true .go, .notify true none, .act false .go]

theorem no_lost_wakeup_in_time : ∃ s : PoolState Bool ℕ,
    ReachIf (next smallPool) Heard PoolState.new s ∧ s.pc false = .parked ∧
      s.shared.free = [7] ∧ ∃ b, s.pc b = .notifying ∨ (s.pc b).coming = true := by
  obtain ⟨s, hrun, hpc, hfree⟩ : ∃ s : PoolState Bool ℕ,
      run (next smallPool) parksInTime PoolState.new = some s ∧ s.pc false = .parked ∧
        s.shared.free = [7] := ⟨_, rfl, rfl, rfl⟩
  have hreach : ReachIf (next smallPool) Heard PoolState.new s := by
    refine reachIf_of_run parksInTime hrun .start ?_
    intro act hact t
    simp only [parksInTime, oneLeased, List.cons_append, List.nil_append, List.mem_cons,
      List.not_mem_nil, or_false] at hact
    rcases hact with rfl | rfl | rfl | rfl | rfl | rfl | rfl | rfl | rfl | rfl | rfl | rfl | rfl |
      rfl | rfl <;> trivial
  refine ⟨s, hreach, hpc, hfree, no_lost_wakeup smallPool s hreach false hpc ?_⟩
  rw [hfree]
  simp

/-- A caller is parked with the buffer in the queue, and the other has finished its call. -/
theorem wakeup_lost : ∃ s : PoolState Bool ℕ, Reached smallPool s ∧ s.pc false = .parked ∧
    s.shared.free = [7] ∧ s.pc true = .idle ∧ ¬NoLostWakeup s := by
  obtain ⟨s, hrun, hpc, hfree, hidle⟩ : ∃ s : PoolState Bool ℕ,
      run (next smallPool) parksTooLate PoolState.new = some s ∧ s.pc false = .parked ∧
        s.shared.free = [7] ∧ s.pc true = .idle := ⟨_, rfl, rfl, rfl, rfl⟩
  refine ⟨s, reach_of_run _ hrun fun _ _ => trivial, hpc, hfree, hidle, ?_⟩
  intro hheard
  obtain ⟨b, hb⟩ := hheard false hpc (by rw [hfree]; simp)
  cases b with
  | false =>
    rw [hpc] at hb
    simp [Phase.coming] at hb
  | true =>
    rw [hidle] at hb
    simp [Phase.coming] at hb

end Fsys.Buffer
