import Fsys.Base.Client
import Fsys.Base.Disk

/-!
# Calls on a file that nobody else can reach

A thread that works on a file of its own, behind a name of its own, gets the same answers
whatever the others do meanwhile. So what holds of its program when it runs alone, for every
plan, holds of it among other threads.
-/

namespace Fsys.Base

variable {π ε ε' α β : Type}

/-- A system call, or a part of a program that is taken for one. -/
abbrev Syscall (π β : Type) := Plan π → World π → β × World π

def Syscall.exec (plan : Plan π) (β : Type) (c : Syscall π β) (w : World π) : β × World π :=
  c plan w

/-- A file and what is in it. -/
structure Own (π : Type) where
  name : π
  file : ℕ
  bytes : Bytes
  fenced : Bool

namespace Own

/-- The file is there. -/
structure In (o : Own π) (w : World π) : Prop where
  name : w.disk.names o.name = some o.file
  bytes : w.disk.data o.file = o.bytes
  fenced : w.disk.fenced o.file = o.fenced

/-- The file as the state has it. -/
def now (o : Own π) (w : World π) : Own π :=
  ⟨o.name, o.file, w.disk.data o.file, w.disk.fenced o.file⟩

variable {o : Own π} {w : World π}

theorem In.now_eq (h : o.In w) : o.now w = o := by
  unfold now
  rw [h.bytes, h.fenced]

theorem In.of_disk {w' : World π} (h : o.In w) (hd : w'.disk = w.disk) : o.In w' := by
  refine ⟨?_, ?_, ?_⟩
  · rw [hd]
    exact h.name
  · rw [hd]
    exact h.bytes
  · rw [hd]
    exact h.fenced

/-- There is a disk with just this file. -/
theorem exists_in (o : Own π) : ∃ w, o.In w := by
  classical
  let names : π → Option ℕ := fun p => if p = o.name then some o.file else none
  have hfresh : ∀ p i, names p = some i → i < o.file + 1 := by
    intro p i h
    simp only [names] at h
    split at h
    · cases h
      omega
    · cases h
  refine ⟨⟨⟨names, fun _ => o.bytes, fun _ => o.fenced, o.file + 1, hfresh⟩, 0, []⟩, ?_, rfl, rfl⟩
  simp [names]

@[simp] theorem now_now (w w' : World π) : (o.now w).now w' = o.now w' := rfl

end Own

/-- The two plans give the same answers at the two times. -/
def Agree (plan plan' : Plan π) (t t' : ℕ) : Prop := ∀ c, plan c t = plan' c t'

/-- A call that works on the file `i` behind `name` alone. -/
structure Private (name : π) (i : ℕ) (c : Syscall π β) : Prop where
  clock : ∀ plan (w : World π), (c plan w).2.clock = w.clock + 1
  renames : ∀ plan (w : World π), (c plan w).2.renames = w.renames
  touches : ∀ plan (w : World π), w.disk.names name = some i → w.disk.Touches i (c plan w).2.disk
  fenced : ∀ plan (w : World π), w.disk.names name = some i →
    ∀ j, j ≠ i → (c plan w).2.disk.fenced j = w.disk.fenced j
  answer : ∀ {plan plan' : Plan π} {w w' : World π} {bytes : Bytes} {fenced : Bool},
    Agree plan plan' w.clock w'.clock →
    Own.In ⟨name, i, bytes, fenced⟩ w → Own.In ⟨name, i, bytes, fenced⟩ w' →
    (c plan w).1 = (c plan' w').1 ∧
      (c plan w).2.disk.data i = (c plan' w').2.disk.data i ∧
      (c plan w).2.disk.fenced i = (c plan' w').2.disk.fenced i

variable {o : Own π} {plan plan' : Plan π} {w w' : World π} {name : π} {i : ℕ}

/-- The file after a call. -/
theorem Own.In.call {c : Syscall π β} (plan : Plan π) (h : o.In w)
    (hc : Private o.name o.file c) :
    (o.now (c plan w).2).In (c plan w).2 := by
  refine ⟨?_, rfl, rfl⟩
  have hnames := (hc.touches plan w h.name).names
  rw [hnames]
  exact h.name

theorem Private.same {c : Syscall π β} (hc : Private o.name o.file c)
    (hagree : Agree plan plan' w.clock w'.clock) (h : o.In w) (h' : o.In w') :
    (c plan w).1 = (c plan' w').1 ∧ o.now (c plan w).2 = o.now (c plan' w').2 := by
  obtain ⟨hr, hbytes, hfenced⟩ := hc.answer hagree h h'
  refine ⟨hr, ?_⟩
  unfold Own.now
  rw [hbytes, hfenced]

/-! ### The calls of the operating system -/

/-- One system call on the file `i`, or on its name. -/
inductive OneCall (name : π) (i : ℕ) : ∀ β, Syscall π β → Prop where
  | pwrite (pos : ℕ) (bytes : Bytes) : OneCall name i _ fun plan => Io.pwrite plan i pos bytes
  | setLen (n : ℕ) : OneCall name i _ fun plan => Io.setLen plan i n
  | fence : OneCall name i _ fun plan => Io.fence plan i
  | alloc : OneCall name i _ fun plan => Io.alloc plan
  | openRead : OneCall name i _ fun plan => Io.openRead plan name
  | setMeta : OneCall name i _ fun plan => Io.setMeta plan name
  | mapMut : OneCall name i _ fun plan => Io.mapMut plan i
  | store (bytes : Bytes) : OneCall name i _ fun _ => Io.store i bytes
  | msync : OneCall name i _ fun plan => Io.msync plan i

/-- What a call does on a reply of the operating system. -/
def Syscall.reply (c : Syscall π β) (r : Reply) (d : Disk π) : β × Disk π :=
  ((c (fun _ _ => r) ⟨d, 0, []⟩).1, (c (fun _ _ => r) ⟨d, 0, []⟩).2.disk)

/-- The call goes by one reply of the operating system and by the disk. -/
def Asks (c : Syscall π β) (call : Call π) : Prop := ∀ plan w, c plan w =
  ((Syscall.reply c (plan call w.clock) w.disk).1,
    Io.World.tick w (Syscall.reply c (plan call w.clock) w.disk).2)

theorem Asks.private {c : Syscall π β} (call : Call π) (h : Asks c call)
    (hkeep : ∀ r (d : Disk π), d.names name = some i →
      d.Touches i (Syscall.reply c r d).2 ∧
        ∀ j, j ≠ i → (Syscall.reply c r d).2.fenced j = d.fenced j)
    (hsame : ∀ r (d d' : Disk π), d.names name = some i → d'.names name = some i →
      d.data i = d'.data i → d.fenced i = d'.fenced i →
      (Syscall.reply c r d).1 = (Syscall.reply c r d').1 ∧
        (Syscall.reply c r d).2.data i = (Syscall.reply c r d').2.data i ∧
        (Syscall.reply c r d).2.fenced i = (Syscall.reply c r d').2.fenced i) :
    Private name i c := by
  constructor
  · intro plan w
    rw [h plan w]
    rfl
  · intro plan w
    rw [h plan w]
    rfl
  · intro plan w hn
    rw [h plan w]
    exact (hkeep _ _ hn).1
  · intro plan w hn j hj
    rw [h plan w]
    exact (hkeep _ _ hn).2 j hj
  · intro plan plan' w w' bytes fenced hagree hw hw'
    rw [h plan w, h plan' w', hagree call]
    exact hsame _ _ _ hw.name hw'.name (hw.bytes.trans hw'.bytes.symm)
      (hw.fenced.trans hw'.fenced.symm)

/-- A call that looks at the file, or at its name, and changes nothing. -/
theorem private_look (call : Call π) (answer : Disk π → ℕ → Except IoError α)
    (hsame : ∀ n (d d' : Disk π), d.names name = some i → d'.names name = some i →
      d.data i = d'.data i → answer d n = answer d' n) :
    Private name i fun plan => Io.look plan call answer := by
  apply Asks.private call
  · intro plan w
    simp only [Syscall.reply, Io.look]
    cases plan call w.clock with
    | ok n => rfl
    | fail e n => rfl
  · intro r d _
    simp only [Syscall.reply, Io.look]
    cases r with
    | ok n => exact ⟨Disk.Touches.refl i d, fun _ _ => rfl⟩
    | fail e n => exact ⟨Disk.Touches.refl i d, fun _ _ => rfl⟩
  · intro r d d' hn hn' hd hf
    simp only [Syscall.reply, Io.look]
    cases r with
    | ok n => exact ⟨hsame n d d' hn hn' hd, hd, hf⟩
    | fail e n => exact ⟨rfl, hd, hf⟩

/-- A call that gives the file other bytes, or none. -/
theorem private_setData {c : Syscall π β} (call : Call π) (h : Asks c call)
    (hc : ∀ r, ∃ (answer : β) (change : Bytes → Option Bytes), ∀ d : Disk π,
      Syscall.reply c r d = (answer, (change (d.data i)).elim d (d.setData i))) :
    Private name i c := by
  apply Asks.private call h
  · intro r d _
    obtain ⟨answer, change, hr⟩ := hc r
    rw [hr]
    cases change (d.data i) with
    | none => exact ⟨Disk.Touches.refl i d, fun _ _ => rfl⟩
    | some bytes =>
      exact ⟨Disk.touches_setData d i bytes, fun j hj => Function.update_of_ne hj _ _⟩
  · intro r d d' _ _ hd hf
    obtain ⟨answer, change, hr⟩ := hc r
    rw [hr, hr, hd]
    refine ⟨rfl, ?_⟩
    cases change (d'.data i) with
    | none => exact ⟨hd, hf⟩
    | some bytes => simp only [Option.elim_some, Disk.setData, Function.update_self, and_self]

theorem private_pwrite (pos : ℕ) (bytes : Bytes) :
    Private name i fun plan : Plan π => Io.pwrite plan i pos bytes := by
  apply private_setData (.write i)
  · intro plan w
    simp only [Syscall.reply, Io.pwrite]
    cases plan (.write i) w.clock with
    | ok n => rfl
    | fail e n => rfl
  · intro r
    cases r with
    | ok n => exact ⟨_, fun b => some (overlay b pos (bytes.take n)), fun d => rfl⟩
    | fail e n => exact ⟨_, fun b => some (overlay b pos (bytes.take n)), fun d => rfl⟩

theorem private_setLen (n : ℕ) : Private name i fun plan : Plan π => Io.setLen plan i n := by
  apply private_setData (.setLen i)
  · intro plan w
    simp only [Syscall.reply, Io.setLen]
    cases plan (.setLen i) w.clock with
    | ok n => rfl
    | fail e n => rfl
  · intro r
    cases r with
    | ok _ => exact ⟨_, fun b => some (b.take n ++ zeros (n - b.length)), fun d => rfl⟩
    | fail e _ => exact ⟨_, fun _ => none, fun d => rfl⟩

theorem private_store (bytes : Bytes) :
    Private name i fun _ : Plan π => Io.store i bytes := by
  apply private_setData (.write i)
  · intro plan w
    rfl
  · intro r
    exact ⟨_, fun b => some (overlay b 0 bytes), fun d => rfl⟩

theorem private_fence : Private name i fun plan : Plan π => Io.fence plan i := by
  apply Asks.private (.fence i)
  · intro plan w
    simp only [Syscall.reply, Io.fence]
    cases plan (.fence i) w.clock with
    | ok n => rfl
    | fail e n => rfl
  · intro r d _
    cases r with
    | ok n => exact ⟨Disk.touches_fence d i i, fun j hj => Function.update_of_ne hj _ _⟩
    | fail e n => exact ⟨Disk.Touches.refl i d, fun _ _ => rfl⟩
  · intro r d d' _ _ hd hf
    cases r with
    | ok n =>
      refine ⟨rfl, hd, ?_⟩
      simp only [Syscall.reply, Io.fence, Io.World.tick, Disk.fence, Function.update_self]
    | fail e n => exact ⟨rfl, hd, hf⟩

theorem private_setMeta : Private name i fun plan : Plan π => Io.setMeta plan name := by
  apply Asks.private (.setMeta name)
  · intro plan w
    simp only [Syscall.reply, Io.setMeta]
    cases plan (.setMeta name) w.clock with
    | ok n =>
      cases w.disk.names name with
      | none => rfl
      | some j => rfl
    | fail e n => rfl
  · intro r d hn
    cases r with
    | ok n =>
      simp only [Syscall.reply, Io.setMeta, hn]
      exact ⟨⟨rfl, fun _ _ => rfl, rfl⟩, fun j hj => Function.update_of_ne hj _ _⟩
    | fail e n => exact ⟨Disk.Touches.refl i d, fun _ _ => rfl⟩
  · intro r d d' hn hn' hd hf
    cases r with
    | ok n =>
      simp only [Syscall.reply, Io.setMeta, hn, hn']
      refine ⟨trivial, hd, ?_⟩
      simp only [Io.World.tick, Disk.unfence, Function.update_self]
    | fail e n => exact ⟨rfl, hd, hf⟩

theorem OneCall.private {c : Syscall π β} (h : OneCall name i β c) : Private name i c := by
  cases h with
  | pwrite pos bytes => exact private_pwrite pos bytes
  | setLen n => exact private_setLen n
  | fence => exact private_fence
  | alloc =>
    apply private_look
    intro n d d' _ _ _
    rfl
  | openRead =>
    apply private_look
    intro n d d' hn hn' _
    simp only [Io.fileOf, hn, hn']
  | setMeta => exact private_setMeta
  | mapMut =>
    apply private_look
    intro n d d' _ _ hd
    rw [hd]
  | store bytes => exact private_store bytes
  | msync =>
    apply private_look
    intro n d d' _ _ _
    rfl

/-! ### Clients on such a file -/

/-- What a call can answer as long as the name is there. -/
def Possible (name : π) (i : ℕ) (β : Type) (c : Syscall π β) (a : β) : Prop :=
  ∃ plan w, w.disk.names name = some i ∧ (c plan w).1 = a

/-- The client makes calls on the file `i` behind `name` only, and ends as `Q` says. -/
abbrev StaysOn (name : π) (i : ℕ) (Q : Except ε α → Prop) (c : Client (Syscall π) ε α) : Prop :=
  c.Fits (OneCall name i) (Possible name i) Q

theorem StaysOn.run {Q : Except ε α → Prop} {c : Client (Syscall π) ε α} (plan : Plan π)
    (hc : StaysOn name i Q c) (hw : w.disk.names name = some i) :
    (c.run (Syscall.exec plan)).Wp (fun r w' => Q r ∧ w'.disk.names name = some i) w := by
  induction c generalizing w with
  | done r => exact ⟨hc, hw⟩
  | call op k ih =>
    obtain ⟨hop, hk⟩ := hc
    have hnames := (hop.private.touches plan w hw).names
    exact ih _ (hk _ ⟨plan, w, hw, rfl⟩) ((congrFun hnames name).trans hw)

/-- Calls on a file of one's own come out the same in any surroundings. -/
theorem run_private {Q : Except ε α → Prop} {c : Client (Syscall π) ε α}
    (hc : StaysOn o.name o.file Q c)
    (hagree : ∀ n, Agree plan plan' (w.clock + n) (w'.clock + n)) (h : o.In w) (h' : o.In w') :
    (c.run (Syscall.exec plan) w).1 = (c.run (Syscall.exec plan') w').1 ∧
      o.now (c.run (Syscall.exec plan) w).2 = o.now (c.run (Syscall.exec plan') w').2 := by
  induction c generalizing o w w' with
  | done r => exact ⟨rfl, h.now_eq.trans h'.now_eq.symm⟩
  | call op k ih =>
    obtain ⟨hone, hk⟩ := hc
    have hop := hone.private
    obtain ⟨hr, hnow⟩ := hop.same (hagree 0) h h'
    have hin := h.call plan hop
    have hin' := h'.call plan' hop
    rw [← hnow] at hin'
    have hstep : ∀ n, Agree plan plan' ((op plan w).2.clock + n) ((op plan' w').2.clock + n) := by
      intro n
      rw [hop.clock, hop.clock, Nat.add_assoc, Nat.add_assoc]
      exact hagree (1 + n)
    have hrest := ih (op plan w).1 (o := o.now (op plan w).2) (hk _ ⟨plan, w, h.name, rfl⟩)
      hstep hin hin'
    rw [Own.now_now, Own.now_now] at hrest
    show ((k (op plan w).1).run _ (op plan w).2).1 = ((k (op plan' w').1).run _ (op plan' w').2).1 ∧
      o.now ((k (op plan w).1).run _ (op plan w).2).2 =
        o.now ((k (op plan' w').1).run _ (op plan' w').2).2
    rw [← hr]
    exact hrest

/-- Alone with the file, the client ends as `Q` says, for every plan. -/
def Settles (o : Own π) (Q : Except ε α → Own π → Prop) (c : Client (Syscall π) ε α) : Prop :=
  ∀ plan w, o.In w → (c.run (Syscall.exec plan)).Wp (fun r w' => Q r (o.now w')) w

variable {Q : Except ε α → Own π → Prop}

theorem Settles.done {r : Except ε α} (h : Settles o Q (.done r)) (hw : o.In w) : Q r o := by
  have hq : Q r (o.now w) := h (fun _ _ => .ok 0) w hw
  rwa [hw.now_eq] at hq

/-- The answers of `plan` up to the time `t`, then those of `plan'` from the time `t'` on. -/
def spliced (plan plan' : Plan π) (t t' : ℕ) : Plan π := fun c u =>
  if u ≤ t then plan c u else plan' c (u - (t + 1) + t')

/-- So it does among others: what it says of the rest holds whatever they do. -/
theorem Settles.call {op : Syscall π β} {k : β → Client (Syscall π) ε α}
    {R : Except ε α → Prop} (h : Settles o Q (.call op k)) (hop : OneCall o.name o.file β op)
    (hk : StaysOn o.name o.file R (k (op plan w).1)) (hw : o.In w) :
    Settles (o.now (op plan w).2) Q (k (op plan w).1) := by
  intro plan' w' hw'
  -- the run alone that answers the call as here and then as `plan'` does
  let both := spliced plan plan' w.clock w'.clock
  have hagree : Agree both plan w.clock w.clock := by
    intro c
    simp [both, spliced]
  obtain ⟨hr, hnow⟩ := hop.private.same hagree hw hw
  have hin := hw.call both hop.private
  rw [hnow] at hin
  have hlater : ∀ n, Agree both plan' ((op both w).2.clock + n) (w'.clock + n) := by
    intro n c
    have hn : ¬ w.clock + 1 + n ≤ w.clock := by omega
    have ht : w.clock + 1 + n - (w.clock + 1) + w'.clock = w'.clock + n := by omega
    rw [hop.private.clock]
    simp only [both, spliced, hn, if_false, ht]
  have hrun := run_private (o := o.now (op plan w).2) hk hlater hin hw'
  have hq : Q ((k (op both w).1).run (Syscall.exec both) (op both w).2).1
      (o.now ((k (op both w).1).run (Syscall.exec both) (op both w).2).2) := h both w hw
  rw [Own.now_now, Own.now_now] at hrun
  rw [hr, hrun.1, hrun.2] at hq
  exact hq

/-! ### Programs cut into calls on the file -/

/-- The client makes calls on the file only, and alone it is the program. -/
def Cuts (name : π) (i : ℕ) (Q : Except ε α → Prop) (c : Client (Syscall π) ε α)
    (m : Plan π → Prog (World π) ε α) : Prop :=
  StaysOn name i Q c ∧
    ∀ plan w, w.disk.names name = some i → c.run (Syscall.exec plan) w = m plan w

def Cuttable (name : π) (i : ℕ) (Q : Except ε α → Prop) (m : Plan π → Prog (World π) ε α) :
    Prop := ∃ c, Cuts name i Q c m

namespace Cuttable

variable {m : Plan π → Prog (World π) ε α} {Q : Except ε α → Prop}

theorem lift {r : Except ε α} (h : Q r) :
    Cuttable name i Q fun _ => (Prog.lift r : Prog (World π) ε α) :=
  ⟨.done r, h, fun _ _ _ => rfl⟩

theorem call {c : Plan π → Io π α} {Q : Except IoError α → Prop} (hc : OneCall name i _ c)
    (hq : ∀ r, Possible name i _ c r → Q r) : Cuttable name i Q c := by
  refine ⟨.call c Client.done, ⟨hc, hq⟩, ?_⟩
  intro plan w _
  rfl

theorem mono {R : Except ε α → Prop} (hm : Cuttable name i Q m) (himp : ∀ r, Q r → R r) :
    Cuttable name i R m := by
  obtain ⟨c, hc, hrun⟩ := hm
  refine ⟨c, ?_, hrun⟩
  clear hrun
  induction c with
  | done r => exact himp r hc
  | call op k ih => exact ⟨hc.1, fun a ha => ih a (hc.2 a ha)⟩

/-- A program goes on with the result of another, whatever it is. -/
theorem andThen {R : Except ε' β → Prop} (hm : Cuttable name i Q m)
    (f : Except ε α → Plan π → Prog (World π) ε' β) (hf : ∀ r, Q r → Cuttable name i R (f r)) :
    Cuttable name i R fun plan w => f (m plan w).1 plan (m plan w).2 := by
  obtain ⟨c, hc, hrun⟩ := hm
  have hf' : ∀ r, ∃ k, Q r → Cuts name i R k (f r) := by
    intro r
    by_cases hr : Q r
    · obtain ⟨k, hk⟩ := hf r hr
      exact ⟨k, fun _ => hk⟩
    · -- a result that does not come up
      let bare : World π :=
        ⟨⟨fun _ => none, fun _ => [], fun _ => false, 0, Disk.fresh_none⟩, 0, []⟩
      exact ⟨.done (f r (fun _ _ => .ok 0) bare).1, fun h => absurd h hr⟩
  choose k hk using hf'
  refine ⟨c.andThen k, hc.andThen fun r hr => (hk r hr).1, ?_⟩
  intro plan w hw
  have hend := hc.run plan hw
  unfold Prog.Wp at hend
  rw [hrun plan w hw] at hend
  rw [Client.run_andThen, hrun plan w hw]
  exact (hk _ hend.1).2 plan _ hend.2

theorem congr {m' : Plan π → Prog (World π) ε α} (hm : Cuttable name i Q m)
    (heq : ∀ plan w, m' plan w = m plan w) : Cuttable name i Q m' := by
  obtain ⟨c, hc, hrun⟩ := hm
  refine ⟨c, hc, ?_⟩
  intro plan w hw
  rw [heq]
  exact hrun plan w hw

/-- The rest of a sequence. -/
def rest (f : α → Plan π → Prog (World π) ε β) (plan : Plan π) :
    Except ε α → Prog (World π) ε β
  | .ok a => f a plan
  | .error e => Prog.throw e

theorem bind {R : Except ε β → Prop} {f : α → Plan π → Prog (World π) ε β}
    (hm : Cuttable name i Q m) (hf : ∀ a, Q (.ok a) → Cuttable name i R (f a))
    (herr : ∀ e, Q (.error e) → R (.error e)) :
    Cuttable name i R fun plan => m plan >>= fun a => f a plan := by
  refine (hm.andThen (R := R) (fun r plan => rest f plan r) ?_).congr ?_
  · intro r hr
    cases r with
    | ok a => exact hf a hr
    | error e => exact lift (herr e hr)
  · intro plan w
    show Prog.bind _ _ w = _
    unfold Prog.bind
    cases m plan w with
    | mk r t =>
      cases r with
      | ok a => rfl
      | error e => rfl

end Cuttable

end Fsys.Base
