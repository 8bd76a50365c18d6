import Fsys.Crud.TempFile
import Mathlib.Algebra.BigOperators.Intervals

/-!
# The write loops of Linux

`platform/linux.rs:113-249`. `write_all`, `write_all_direct` and `write_at` hand
the bytes that are left to the kernel until none is. They differ in where a byte
goes and in what they do about a call that wrote nothing.
-/

namespace Fsys.Platform
open Fsys.Base Fsys.Crud

variable (env : Env)

/-! ### One loop for the three -/

/-- The loop: byte `written` goes to `pos written`, and `stop` is the error for a call
that wrote nothing, when there is one. -/
def writeLoop (pos : ℕ → Except IoError ℕ) (stop : Option IoError) :
    ℕ → ℕ → Bytes → ℕ → Sys Error Unit
  | 0, _, _, _ => Prog.throw .stalled
  | fuel + 1, file, data, written =>
    if written < data.length then
      match pos written with
      | .error e => fail (.io e)
      | .ok off => do
        let n ← (Io.pwrite env.plan file off (data.drop written)).attempt
        match n with
        | .ok n =>
          match n, stop with
          | 0, some e => fail (.io e)
          | _, _ => writeLoop pos stop fuel file data (written + n)
        | .error e =>
          if e.kind = .interrupted then writeLoop pos stop fuel file data written
          else fail (.io e)
    else pure ()

/-- Of its surroundings the loop sees the answers alone. -/
theorem writeLoop_plan {env env' : Env} (h : env'.plan = env.plan) (pos : ℕ → Except IoError ℕ)
    (stop : Option IoError) (fuel file : ℕ) (data : Bytes) (written : ℕ) :
    writeLoop env' pos stop fuel file data written =
      writeLoop env pos stop fuel file data written := by
  induction fuel generalizing written with
  | zero => rfl
  | succ fuel ih => simp only [writeLoop, h, ih]

/-- `write_all` keeps going. -/
theorem writeAll_eq_writeLoop (fuel file : ℕ) (data : Bytes) (written : ℕ) :
    writeAll env fuel file data written = writeLoop env .ok none fuel file data written := by
  induction fuel generalizing written with
  | zero => rfl
  | succ fuel ih =>
    unfold writeAll writeLoop
    by_cases hlt : written < data.length
    · rw [if_pos hlt, if_pos hlt]
      apply congrArg (Bind.bind (Io.pwrite env.plan file written (data.drop written)).attempt)
      funext n
      cases n with
      | ok n =>
        cases n with
        | zero => exact ih written
        | succ n => exact ih (written + (n + 1))
      | error x =>
        dsimp only
        rw [ih written]
    · rw [if_neg hlt, if_neg hlt]

/-- The error of `write_all_direct` for a call that wrote nothing. -/
def directNoProgress : IoError := ⟨.other, "pwrite returned 0 in write_all_direct (no progress)"⟩

theorem pwriteAll_eq_writeLoop (fuel file : ℕ) (buf : Bytes) (written : ℕ) :
    pwriteAll env fuel file buf written =
      writeLoop env .ok (some directNoProgress) fuel file buf written := by
  induction fuel generalizing written with
  | zero => rfl
  | succ fuel ih =>
    simp only [pwriteAll, writeLoop, ih]
    split
    · congr 1
      funext n
      cases n with
      | error e => rfl
      | ok n => cases n <;> rfl
    · rfl

/-- `offset as i64` -/
def asI64 (offset : ℕ) : ℤ := if offset < 2 ^ 63 then offset else offset - 2 ^ 64

/-- The file position of `write_at` (`linux.rs:198-203`). The sum is checked; the kernel
refuses a position that is negative. -/
def writeAtPos (offset written : ℕ) : Except IoError ℕ :=
  let off := asI64 offset + written
  if 2 ^ 63 ≤ off then .error ⟨.invalidInput, "write_at: offset overflow"⟩
  else if off < 0 then .error ⟨.invalidInput, "Invalid argument (os error 22)"⟩
  else .ok off.toNat

/-- `write_at` (`linux.rs:194-234`), and `write_at_direct`. -/
def writeAt (fuel file offset : ℕ) (data : Bytes) : Sys Error Unit :=
  writeLoop env (writeAtPos offset)
    (some ⟨.writeZero, "pwrite returned 0 in write_at (no progress)"⟩) fuel file data 0

theorem writeAtPos_of_lt {offset : ℕ} (h : offset < 2 ^ 63) (written : ℕ) :
    writeAtPos offset written = if offset + written < 2 ^ 63 then .ok (offset + written)
      else .error ⟨.invalidInput, "write_at: offset overflow"⟩ := by
  simp only [writeAtPos, asI64, if_pos h]
  by_cases hs : offset + written < 2 ^ 63
  · have h1 : ¬ (2 ^ 63 : ℤ) ≤ offset + written := by omega
    have h2 : ¬ (offset + written : ℤ) < 0 := by omega
    rw [if_neg h1, if_neg h2, if_pos hs, ← Int.natCast_add, Int.toNat_natCast]
  · have h1 : (2 ^ 63 : ℤ) ≤ offset + written := by omega
    rw [if_pos h1, if_neg hs]

/-- An offset that does not fit an `i64` is refused at the first byte. -/
theorem writeAtPos_of_le {offset : ℕ} (h : 2 ^ 63 ≤ offset) (ho : offset < 2 ^ 64) :
    writeAtPos offset 0 = .error ⟨.invalidInput, "Invalid argument (os error 22)"⟩ := by
  have h1 : ¬ (2 ^ 63 : ℤ) ≤ offset - 2 ^ 64 + (0 : ℕ) := by omega
  have h2 : (offset - 2 ^ 64 + (0 : ℕ) : ℤ) < 0 := by omega
  simp only [writeAtPos, asI64, if_neg (Nat.not_lt.mpr h), if_neg h1, if_pos h2]

/-! ### One round -/

section

variable {env} {pos : ℕ → Except IoError ℕ} {stop : Option IoError} {fuel i written p : ℕ}
variable {data : Bytes} {w : World PathBuf}

/-- After a call that wrote `bytes` at `p`. -/
def wrote (w : World PathBuf) (i p : ℕ) (bytes : Bytes) : World PathBuf :=
  Io.World.tick w (w.disk.setData i (overlay (w.disk.data i) p bytes))

/-- A round after which the loop goes on. -/
inductive Round (env : Env) (pos : ℕ → Except IoError ℕ) (stop : Option IoError) (i : ℕ)
    (data : Bytes) (written : ℕ) (w : World PathBuf) : ℕ → World PathBuf → Prop where
  | count {p a : ℕ} (h : written < data.length) (hp : pos written = .ok p)
      (hr : env.plan (.write i) w.clock = .ok a) (h0 : stop = none ∨ 0 < a) :
      Round env pos stop i data written w (written + min a (data.length - written))
        (wrote w i p ((data.drop written).take a))
  | interrupted {p d : ℕ} {e : IoError} (h : written < data.length) (hp : pos written = .ok p)
      (hr : env.plan (.write i) w.clock = .fail e d) (he : e.kind = .interrupted) :
      Round env pos stop i data written w written (wrote w i p ((data.drop written).take d))

/-- A last round. -/
inductive Final (env : Env) (pos : ℕ → Except IoError ℕ) (stop : Option IoError) (i : ℕ)
    (data : Bytes) (written : ℕ) (w : World PathBuf) :
    Except (Exit Error) Unit → World PathBuf → Prop where
  | done (h : data.length ≤ written) : Final env pos stop i data written w (.ok ()) w
  | refused {e : IoError} (h : written < data.length) (hp : pos written = .error e) :
      Final env pos stop i data written w (.error (.failed (.io e))) w
  | zero {p : ℕ} {e : IoError} (h : written < data.length) (hp : pos written = .ok p)
      (hr : env.plan (.write i) w.clock = .ok 0) (hs : stop = some e) :
      Final env pos stop i data written w (.error (.failed (.io e))) (wrote w i p [])
  | failed {p d : ℕ} {e : IoError} (h : written < data.length) (hp : pos written = .ok p)
      (hr : env.plan (.write i) w.clock = .fail e d) (he : e.kind ≠ .interrupted) :
      Final env pos stop i data written w (.error (.failed (.io e)))
        (wrote w i p ((data.drop written).take d))

theorem writeLoop_call (h : written < data.length) (hp : pos written = .ok p) :
    writeLoop env pos stop (fuel + 1) i data written w =
      (match Io.pwrite env.plan i p (data.drop written) w with
      | (.ok 0, w') =>
        match stop with
        | some e => (.error (.failed (.io e)), w')
        | none => writeLoop env pos stop fuel i data written w'
      | (.ok (n + 1), w') => writeLoop env pos stop fuel i data (written + (n + 1)) w'
      | (.error e, w') =>
        if e.kind = .interrupted then writeLoop env pos stop fuel i data written w'
        else (.error (.failed (.io e)), w')) := by
  rw [writeLoop, if_pos h, hp]
  simp only [Prog.attempt_bind_run]
  obtain ⟨r, w'⟩ := Io.pwrite env.plan i p (data.drop written) w
  cases r with
  | error e =>
    dsimp only
    split <;> rfl
  | ok n =>
    cases n with
    | zero => cases stop <;> rfl
    | succ n => rfl

/-- Every round but those of a loop that is out of fuel. -/
theorem writeLoop_cases (env : Env) (pos : ℕ → Except IoError ℕ) (stop : Option IoError) (i : ℕ)
    (data : Bytes) (written : ℕ) (w : World PathBuf) :
    (∃ r w', Final env pos stop i data written w r w' ∧
      ∀ fuel, writeLoop env pos stop (fuel + 1) i data written w = (r, w')) ∨
    ∃ n w', Round env pos stop i data written w n w' ∧
      ∀ fuel, writeLoop env pos stop (fuel + 1) i data written w =
        writeLoop env pos stop fuel i data n w' := by
  by_cases h : written < data.length
  · cases hp : pos written with
    | error e =>
      refine Or.inl ⟨_, _, .refused h hp, fun fuel => ?_⟩
      rw [writeLoop, if_pos h, hp]
      rfl
    | ok p =>
      cases hr : env.plan (.write i) w.clock with
      | ok a =>
        have hio : Io.pwrite env.plan i p (data.drop written) w =
            (.ok (min a (data.length - written)), wrote w i p ((data.drop written).take a)) := by
          unfold Io.pwrite
          rw [hr, List.length_drop]
          rfl
        cases a with
        | zero =>
          rw [Nat.zero_min] at hio
          cases stop with
          | none =>
            refine Or.inr ⟨_, _, .count h hp hr (Or.inl rfl), fun fuel => ?_⟩
            rw [writeLoop_call h hp, hio, Nat.zero_min]
            rfl
          | some e =>
            refine Or.inl ⟨_, _, .zero h hp hr rfl, fun fuel => ?_⟩
            rw [writeLoop_call h hp, hio]
            rfl
        | succ a =>
          refine Or.inr ⟨_, _, .count h hp hr (Or.inr (Nat.succ_pos a)), fun fuel => ?_⟩
          obtain ⟨n, hn⟩ : ∃ n, min (a + 1) (data.length - written) = n + 1 :=
            ⟨min (a + 1) (data.length - written) - 1, by omega⟩
          rw [writeLoop_call h hp, hio, hn]
      | fail e d =>
        have hio : Io.pwrite env.plan i p (data.drop written) w =
            (.error e, wrote w i p ((data.drop written).take d)) := by
          unfold Io.pwrite
          rw [hr]
          rfl
        by_cases he : e.kind = .interrupted
        · refine Or.inr ⟨_, _, .interrupted h hp hr he, fun fuel => ?_⟩
          rw [writeLoop_call h hp, hio]
          exact if_pos he
        · refine Or.inl ⟨_, _, .failed h hp hr he, fun fuel => ?_⟩
          rw [writeLoop_call h hp, hio]
          exact if_neg he
  · refine Or.inl ⟨_, _, .done (Nat.not_lt.mp h), fun fuel => ?_⟩
    rw [writeLoop, if_neg h]
    rfl

/-! ### Where the bytes are -/

theorem setData_setData (d : Disk PathBuf) (i : ℕ) (x y : Bytes) :
    (d.setData i x).setData i y = d.setData i y := by
  simp only [Disk.setData, Function.update_idem]

/-- With `written` bytes placed, placing the rest gives what is wanted. -/
structure Placing (w0 : World PathBuf) (i base : ℕ) (data : Bytes) (written : ℕ)
    (w : World PathBuf) : Prop where
  disk : w.disk = w0.disk ∨ ∃ c, w.disk = w0.disk.setData i c
  renames : w.renames = w0.renames
  rest : overlay (w.disk.data i) (base + written) (data.drop written) =
    overlay (w0.disk.data i) base data
  reached : written = 0 ∨ base + written ≤ (w.disk.data i).length ∧ w.disk =
    w0.disk.setData i (w.disk.data i)

variable {w0 : World PathBuf} {base : ℕ}

theorem Placing.start (w : World PathBuf) (i base : ℕ) (data : Bytes) :
    Placing w i base data 0 w := ⟨Or.inl rfl, rfl, rfl, Or.inl rfl⟩

/-- A call leaves the bytes before it, and is undone by nothing. -/
theorem Placing.wrote_disk (h : Placing w0 i base data written w) (p : ℕ) (bytes : Bytes) :
    (wrote w i p bytes).disk = w0.disk.setData i (overlay (w.disk.data i) p bytes) := by
  show w.disk.setData i _ = _
  rcases h.disk with hd | ⟨c, hd⟩
  · rw [hd]
  · rw [hd, setData_setData]

theorem Placing.round (h : Placing w0 i base data written w)
    (hpos : ∀ k p, pos k = .ok p → p = base + k) {n : ℕ} {w' : World PathBuf}
    (hr : Round env pos stop i data written w n w') : Placing w0 i base data n w' := by
  cases hr with
  | @count p a hlt hp hr h0 =>
    have hd := h.wrote_disk p ((data.drop written).take a)
    have hdata : (wrote w i p ((data.drop written).take a)).disk.data i =
        overlay (w.disk.data i) p ((data.drop written).take a) := Disk.data_setData _ _ _
    have hlen : ((data.drop written).take a).length = min a (data.length - written) := by
      rw [List.length_take, List.length_drop]
    have hsplit : (data.drop written).take a ++
        data.drop (written + min a (data.length - written)) = data.drop written := by
      have htake : (data.drop written).take a =
          (data.drop written).take (min a (data.length - written)) := by
        rw [List.take_eq_take_iff, List.length_drop]
        omega
      rw [← List.drop_drop, htake, List.take_append_drop]
    have hp' := hpos written p hp
    refine ⟨Or.inr ⟨_, hd⟩, h.renames, ?_, Or.inr ⟨?_, ?_⟩⟩
    · rw [hdata, ← Nat.add_assoc, ← hp', ← hlen, overlay_overlay, hlen, hsplit, hp', h.rest]
    · rw [hdata, length_overlay, hlen, hp']
      omega
    · rw [hdata]
      exact hd
  | @interrupted p d e hlt hp hr he =>
    have hd := h.wrote_disk p ((data.drop written).take d)
    have hdata : (wrote w i p ((data.drop written).take d)).disk.data i =
        overlay (w.disk.data i) p ((data.drop written).take d) := Disk.data_setData _ _ _
    have hp' := hpos written p hp
    refine ⟨Or.inr ⟨_, hd⟩, h.renames, ?_, ?_⟩
    · rw [hdata, ← hp', overlay_of_prefix _ _ _ _ (List.take_prefix _ _), hp', h.rest]
    · rcases h.reached with hz | ⟨hle, -⟩
      · exact Or.inl hz
      · refine Or.inr ⟨?_, ?_⟩
        · rw [hdata, length_overlay]
          omega
        · rw [hdata]
          exact hd

/-- The file after a write of `bytes` at `offset`. -/
def put (i offset : ℕ) (bytes : Bytes) (d : Disk PathBuf) : Disk PathBuf :=
  if bytes = [] then d else d.setData i (overlay (d.data i) offset bytes)

/-- A loop that returns has placed its bytes and done nothing else. -/
theorem Placing.writeLoop (h : Placing w0 i base data written w) (hne : data ≠ [])
    (hpos : ∀ k p, pos k = .ok p → p = base + k) {w' : World PathBuf}
    (hrun : writeLoop env pos stop fuel i data written w = (.ok (), w')) :
    w'.disk = w0.disk.setData i (overlay (w0.disk.data i) base data) ∧
      w'.renames = w0.renames := by
  induction fuel generalizing written w with
  | zero => cases hrun
  | succ fuel ih =>
    obtain ⟨r, u, hf, hu⟩ | ⟨n, u, hr, hu⟩ := writeLoop_cases env pos stop i data written w
    · rw [hu] at hrun
      cases hrun
      cases hf with
      | done hle =>
        have hpos : written ≠ 0 := by
          have := List.length_pos_iff.mpr hne
          omega
        obtain ⟨hreach, hd⟩ := h.reached.resolve_left hpos
        have hrest := h.rest
        rw [List.drop_eq_nil_of_le hle, overlay_nil _ _ hreach] at hrest
        exact ⟨hrest ▸ hd, h.renames⟩
    · rw [hu] at hrun
      exact ih (h.round hpos hr) hrun

theorem writeLoop_put (hpos : ∀ k p, pos k = .ok p → p = base + k) {w' : World PathBuf}
    (hrun : Platform.writeLoop env pos stop fuel i data 0 w = (.ok (), w')) :
    w'.disk = put i base data w.disk ∧ w'.renames = w.renames := by
  by_cases hne : data = []
  · subst hne
    rw [put, if_pos rfl]
    cases fuel with
    | zero => cases hrun
    | succ fuel =>
      cases hrun
      exact ⟨rfl, rfl⟩
  · rw [put, if_neg hne]
    exact (Placing.start w i base data).writeLoop hne hpos hrun

/-! ### Schedules -/

end

/-- The loop goes on after this reply. -/
def GoesOn : Reply → Prop
  | .ok _ => True
  | .fail e _ => e.kind = .interrupted

/-- Bytes a reply reports. -/
def amount : Reply → ℕ
  | .ok n => n
  | .fail _ _ => 0

/-- From time `t` on, a write of `len` bytes is answered with 0 before all of them are
written and before an error. -/
def WritesNothing (plan : Plan PathBuf) (i t len : ℕ) : Prop :=
  ∃ k, t ≤ k ∧ plan (.write i) k = .ok 0 ∧
    (∀ j, t ≤ j → j < k → GoesOn (plan (.write i) j)) ∧
    ∑ j ∈ Finset.Ico t k, amount (plan (.write i) j) < len

/-- No infinite run of `EINTR`. -/
def Answered (plan : Plan PathBuf) (i : ℕ) : Prop :=
  ∀ t, ∃ k, t ≤ k ∧ ∀ e d, plan (.write i) k = .fail e d → e.kind ≠ .interrupted

section

variable {plan : Plan PathBuf} {i t len : ℕ}

theorem writesNothing_here (h : plan (.write i) t = .ok 0) (hl : 0 < len) :
    WritesNothing plan i t len := by
  refine ⟨t, Nat.le_refl t, h, fun j hj hjt => absurd hjt (Nat.not_lt.mpr hj), ?_⟩
  simpa using hl

theorem WritesNothing.earlier (h : WritesNothing plan i (t + 1) (len - amount (plan (.write i) t)))
    (hg : GoesOn (plan (.write i) t)) : WritesNothing plan i t len := by
  obtain ⟨k, hk, hz, hgo, hsum⟩ := h
  refine ⟨k, by omega, hz, fun j hj hjk => ?_, ?_⟩
  · rcases Nat.eq_or_lt_of_le hj with rfl | hlt
    · exact hg
    · exact hgo j hlt hjk
  · rw [Finset.sum_eq_sum_Ico_succ_bot (by omega)]
    omega

/-- The call at `t` is the one that writes nothing, or one that the loop goes on after. -/
theorem WritesNothing.later (h : WritesNothing plan i t len) :
    plan (.write i) t = .ok 0 ∨ GoesOn (plan (.write i) t) ∧
      WritesNothing plan i (t + 1) (len - amount (plan (.write i) t)) := by
  obtain ⟨k, hk, hz, hgo, hsum⟩ := h
  rcases Nat.eq_or_lt_of_le hk with rfl | hlt
  · exact Or.inl hz
  · refine Or.inr ⟨hgo t (Nat.le_refl t) hlt, k, hlt, hz, fun j hj => hgo j (by omega), ?_⟩
    rw [Finset.sum_eq_sum_Ico_succ_bot hlt] at hsum
    omega

end

/-! ### The end of a loop -/

section

variable {env : Env} {pos : ℕ → Except IoError ℕ} {stop : Option IoError} {fuel i written p : ℕ}
variable {data : Bytes} {w w' : World PathBuf} {r : Except (Exit Error) Unit}

/-- A loop without an error for it is never told that nothing was written. -/
def Guarded (env : Env) (stop : Option IoError) (i : ℕ) (data : Bytes) (written : ℕ)
    (w : World PathBuf) : Prop :=
  stop = none → ¬ WritesNothing env.plan i w.clock (data.length - written)

theorem Round.clock {n : ℕ} (hr : Round env pos stop i data written w n w') :
    w'.clock = w.clock + 1 := by
  cases hr <;> rfl

/-- A round leaves what the kernel did not take. -/
theorem Round.left {n : ℕ} (hr : Round env pos stop i data written w n w') :
    data.length - written - amount (env.plan (.write i) w.clock) = data.length - n := by
  cases hr with
  | @count p a hlt hp hr h0 =>
    simp only [hr, amount]
    omega
  | @interrupted p d e hlt hp hr he => simp only [hr, amount, Nat.sub_zero]

theorem Guarded.round (h : Guarded env stop i data written w) {n : ℕ}
    (hr : Round env pos stop i data written w n w') : Guarded env stop i data n w' := by
  intro hs hw
  refine h hs (WritesNothing.earlier (?_ : WritesNothing env.plan i (w.clock + 1) _) ?_)
  · rw [hr.left, ← hr.clock]
    exact hw
  · cases hr with
    | count _ _ hr _ => simp only [hr, GoesOn]
    | interrupted _ _ hr he => simpa only [hr, GoesOn] using he

/-- A guarded loop goes on only after a call that wrote something or was interrupted. -/
theorem Guarded.progress (h : Guarded env stop i data written w) {n : ℕ}
    (hr : Round env pos stop i data written w n w') :
    env.plan (.write i) w.clock ≠ .ok 0 ∧ (data.length - n < data.length - written ∨
      n = written ∧ ∃ e d, env.plan (.write i) w.clock = .fail e d ∧ e.kind = .interrupted) := by
  cases hr with
  | @count p a hlt hp hr h0 =>
    have ha : a ≠ 0 := by
      rintro rfl
      rcases h0 with h0 | h0
      · exact h h0 (writesNothing_here hr (by omega))
      · omega
    refine ⟨fun hz => ?_, Or.inl (by omega)⟩
    rw [hr] at hz
    cases hz
    exact ha rfl
  | @interrupted p d e hlt hp hr he =>
    refine ⟨fun hz => ?_, Or.inr ⟨rfl, e, d, hr, he⟩⟩
    rw [hr] at hz
    cases hz

/-- The loop ends, with enough fuel. -/
def Ends (env : Env) (pos : ℕ → Except IoError ℕ) (stop : Option IoError) (i : ℕ) (data : Bytes)
    (written : ℕ) (w : World PathBuf) : Prop :=
  ∃ k, ∀ fuel, k ≤ fuel → (writeLoop env pos stop fuel i data written w).1 ≠ .error .stalled

theorem Final.not_stalled (h : Final env pos stop i data written w r w') :
    r ≠ .error .stalled := by
  cases h <;> intro hr <;> cases hr

/-- A loop ends if it does after a first round. -/
theorem ends_of_round (h : ∀ n w', Round env pos stop i data written w n w' →
    Ends env pos stop i data n w') : Ends env pos stop i data written w := by
  obtain ⟨r, u, hf, hu⟩ | ⟨n, u, hr, hu⟩ := writeLoop_cases env pos stop i data written w
  · refine ⟨1, fun fuel hle => ?_⟩
    obtain ⟨fuel, rfl⟩ := Nat.exists_eq_add_of_le' hle
    rw [hu]
    exact hf.not_stalled
  · obtain ⟨k, hk⟩ := h n u hr
    refine ⟨k + 1, fun fuel hle => ?_⟩
    obtain ⟨fuel, rfl⟩ := Nat.exists_eq_add_of_le' hle
    rw [← Nat.add_assoc, hu]
    exact hk _ (Nat.le_add_left k fuel)

/-- The induction is on the bytes left, and among calls that write none on the time until a
call that is not interrupted. -/
theorem writeLoop_ends (hE : Answered env.plan i) (h : Guarded env stop i data written w) :
    Ends env pos stop i data written w := by
  induction hm : data.length - written using Nat.strong_induction_on generalizing written w with
  | _ m ih =>
    obtain ⟨k, hk, hans⟩ := hE w.clock
    induction hd : k - w.clock generalizing w with
    | zero =>
      apply ends_of_round
      intro n u hr
      obtain ⟨-, hlt | ⟨-, e, d, hp, he⟩⟩ := h.progress hr
      · exact ih _ (hm ▸ hlt) (h.round hr) rfl
      · have hkc : k = w.clock := by omega
        exact absurd he (hans e d (hkc ▸ hp))
    | succ d ihd =>
      apply ends_of_round
      intro n u hr
      have hc := hr.clock
      obtain ⟨-, hlt | ⟨rfl, -⟩⟩ := h.progress hr
      · exact ih _ (hm ▸ hlt) (h.round hr) rfl
      · exact ihd (h.round hr) (by omega) (by omega)

/-- A call that wrote nothing is the last of a guarded loop, which then fails. -/
theorem writeLoop_zero (h : Guarded env stop i data written w)
    (hrun : writeLoop env pos stop fuel i data written w = (r, w')) (hr : r ≠ .error .stalled)
    (t : ℕ) (ht : w.clock ≤ t) (htw : t < w'.clock) (hz : env.plan (.write i) t = .ok 0) :
    t + 1 = w'.clock ∧ ∃ e, r = .error (.failed e) := by
  induction fuel generalizing written w with
  | zero =>
    cases hrun
    exact absurd rfl hr
  | succ fuel ih =>
    obtain ⟨r, u, hf, hu⟩ | ⟨n, u, hround, hu⟩ := writeLoop_cases env pos stop i data written w
    · rw [hu] at hrun
      cases hrun
      cases hf with
      | done _ => omega
      | refused _ _ => omega
      | zero _ _ _ _ =>
        have hc : t < w.clock + 1 := htw
        have ht' : t = w.clock := by omega
        exact ⟨congrArg (· + 1) ht', _, rfl⟩
      | failed _ _ _ _ =>
        have hc : t < w.clock + 1 := htw
        have ht' : t = w.clock := by omega
        exact ⟨congrArg (· + 1) ht', _, rfl⟩
    · rw [hu] at hrun
      have hne : t ≠ w.clock := by
        rintro rfl
        exact (h.progress hround).1 hz
      have hc := hround.clock
      exact ih (h.round hround) hrun (by omega)

theorem writeLoop_clock_le (hrun : writeLoop env pos stop fuel i data written w = (r, w')) :
    w.clock ≤ w'.clock := by
  induction fuel generalizing written w with
  | zero =>
    cases hrun
    exact Nat.le_refl _
  | succ fuel ih =>
    obtain ⟨r, u, hf, hu⟩ | ⟨n, u, hround, hu⟩ := writeLoop_cases env pos stop i data written w
    · rw [hu] at hrun
      cases hrun
      cases hf with
      | done _ => exact Nat.le_refl _
      | refused _ _ => exact Nat.le_refl _
      | zero _ _ _ _ => exact Nat.le_succ _
      | failed _ _ _ _ => exact Nat.le_succ _
    · rw [hu] at hrun
      have := ih hrun
      have := hround.clock
      omega

/-- A loop with bytes left makes a call. -/
theorem writeLoop_calls (hp : ∀ k, ∃ p, pos k = .ok p) (hlt : written < data.length)
    (hrun : writeLoop env pos stop fuel i data written w = (r, w')) (hr : r ≠ .error .stalled) :
    w.clock < w'.clock := by
  cases fuel with
  | zero =>
    cases hrun
    exact absurd rfl hr
  | succ fuel =>
    obtain ⟨r, u, hf, hu⟩ | ⟨n, u, hround, hu⟩ := writeLoop_cases env pos stop i data written w
    · rw [hu] at hrun
      cases hrun
      cases hf with
      | done hle => omega
      | refused _ he =>
        obtain ⟨p, hp⟩ := hp written
        rw [hp] at he
        cases he
      | zero _ _ _ _ => exact Nat.lt_succ_self _
      | failed _ _ _ _ => exact Nat.lt_succ_self _
    · rw [hu] at hrun
      have := writeLoop_clock_le hrun
      have := hround.clock
      omega

/-- A loop that does not stop for it makes another call after one that wrote nothing. -/
theorem writeLoop_after_zero (hp : ∀ k, ∃ p, pos k = .ok p)
    (h : WritesNothing env.plan i w.clock (data.length - written))
    (hrun : writeLoop env pos none fuel i data written w = (r, w')) (hr : r ≠ .error .stalled) :
    ∃ t, w.clock ≤ t ∧ t + 1 < w'.clock ∧ env.plan (.write i) t = .ok 0 := by
  induction fuel generalizing written w with
  | zero =>
    cases hrun
    exact absurd rfl hr
  | succ fuel ih =>
    have hpos : 0 < data.length - written := by
      obtain ⟨k, -, -, -, hsum⟩ := h
      omega
    obtain ⟨r, u, hf, hu⟩ | ⟨n, u, hround, hu⟩ := writeLoop_cases env pos none i data written w
    · cases hf with
      | done hle => omega
      | refused _ he =>
        obtain ⟨p, hp⟩ := hp written
        rw [hp] at he
        cases he
      | zero _ _ _ hs => cases hs
      | failed _ _ hf he =>
        rcases h.later with hz | ⟨hg, -⟩
        · rw [hf] at hz
          cases hz
        · rw [hf] at hg
          exact absurd hg he
    · rw [hu] at hrun
      have hc := hround.clock
      rcases h.later with hz | ⟨-, hw⟩
      · -- the call wrote nothing, so there is another one
        refine ⟨w.clock, Nat.le_refl _, ?_, hz⟩
        have hlt : n < data.length := by
          cases hround with
          | @count p a hlt _ hr _ =>
            rw [hr] at hz
            cases hz
            omega
          | interrupted hlt _ _ _ => exact hlt
        have := writeLoop_calls hp hlt hrun hr
        omega
      · have hrest : WritesNothing env.plan i u.clock (data.length - n) := by
          rw [hc, ← hround.left]
          exact hw
        obtain ⟨t, ht, htw, hz⟩ := ih hrest hrun
        exact ⟨t, by omega, htw, hz⟩

end

/-! ### The three loops -/

/-- What is asked of a write of file `i` that makes its calls from time `first` on: it
ends; it returns only with `goal` on the disk and nothing else changed; and a call that
wrote nothing is its last and makes it fail. -/
structure Finishes (env : Env) (i first : ℕ) (run : ℕ → Sys Error Unit)
    (goal : Disk PathBuf → Disk PathBuf) (w : World PathBuf) : Prop where
  ends : ∃ k, ∀ fuel, k ≤ fuel → (run fuel w).1 ≠ .error .stalled
  exact : ∀ fuel w', run fuel w = (.ok (), w') →
    w'.disk = goal w.disk ∧ w'.renames = w.renames
  zero : ∀ fuel r w', run fuel w = (r, w') → r ≠ .error .stalled →
    ∀ t, first ≤ t → t < w'.clock → env.plan (.write i) t = .ok 0 →
      t + 1 = w'.clock ∧ ∃ e, r = .error (.failed e)

variable {env} {i : ℕ} {data : Bytes} {w : World PathBuf}

theorem writeLoop_finishes (hE : Answered env.plan i) {pos : ℕ → Except IoError ℕ}
    {stop : Option IoError} {base : ℕ} (hpos : ∀ k p, pos k = .ok p → p = base + k)
    (h : Guarded env stop i data 0 w) :
    Finishes env i w.clock (fun fuel => writeLoop env pos stop fuel i data 0)
      (put i base data) w where
  ends := writeLoop_ends hE h
  exact _ _ hrun := writeLoop_put hpos hrun
  zero _ _ _ hrun hr := writeLoop_zero h hrun hr

/-- `write_all` finishes unless it is told that nothing was written. -/
theorem writeAll_finishes_iff (hE : Answered env.plan i) :
    Finishes env i w.clock (fun fuel => writeAll env fuel i data 0) (put i 0 data) w ↔
      ¬ WritesNothing env.plan i w.clock data.length := by
  simp only [writeAll_eq_writeLoop]
  constructor
  · intro hf hw
    obtain ⟨k, hk⟩ := hf.ends
    have hr := hk k (Nat.le_refl k)
    have hw' : WritesNothing env.plan i w.clock (data.length - 0) := hw
    obtain ⟨t, ht, htw, hz⟩ := writeLoop_after_zero (fun k => ⟨k, rfl⟩) hw' (Prod.mk.eta).symm hr
    have := (hf.zero k _ _ (Prod.mk.eta).symm hr t ht (by omega) hz).1
    omega
  · intro hw
    exact writeLoop_finishes hE (fun k p hp => by cases hp; omega) fun _ => hw

/-- An offset that does not fit an `i64` is refused before anything is written. -/
theorem writeAt_finishes (hE : Answered env.plan i) (offset : UInt64) :
    Finishes env i w.clock (fun fuel => writeAt env fuel i offset.toNat data)
      (put i offset.toNat data) w := by
  have hstop : ∀ e, Guarded env (some e) i data 0 w := by
    intro e h
    cases h
  by_cases ho : offset.toNat < 2 ^ 63
  · apply writeLoop_finishes hE ?_ (hstop _)
    intro k p hp
    rw [writeAtPos_of_lt ho] at hp
    split at hp
    · cases hp
      rfl
    · cases hp
  · have hend : ∀ fuel r w', writeAt env fuel i offset.toNat data w = (r, w') →
        r = .ok () → w' = w ∧ data = [] := by
      intro fuel r w' hrun hok
      unfold writeAt at hrun
      cases fuel with
      | zero =>
        cases hrun
        cases hok
      | succ fuel =>
        obtain ⟨r, u, hf, hu⟩ | ⟨n, u, hr, hu⟩ := writeLoop_cases env (writeAtPos offset.toNat)
          (some ⟨.writeZero, "pwrite returned 0 in write_at (no progress)"⟩) i data 0 w
        · rw [hu] at hrun
          cases hrun
          cases hok
          cases hf with
          | done hle => exact ⟨rfl, List.eq_nil_of_length_eq_zero (Nat.le_zero.mp hle)⟩
        · have hp := writeAtPos_of_le (Nat.not_lt.mp ho) offset.toNat_lt
          cases hr with
          | count _ hp' _ _ =>
            rw [hp] at hp'
            cases hp'
          | interrupted _ hp' _ _ =>
            rw [hp] at hp'
            cases hp'
    refine ⟨writeLoop_ends hE (hstop _), fun fuel w' hrun => ?_,
      fun fuel r w' hrun hr => writeLoop_zero (hstop _) hrun hr⟩
    obtain ⟨rfl, hnil⟩ := hend fuel _ w' hrun rfl
    rw [put, if_pos hnil]
    exact ⟨rfl, rfl⟩

/-- A buffer, or an error before the first write. -/
theorem alignedCopy_cases (env : Env) (size align : ℕ) (data : Bytes) (w : World PathBuf) :
    (∃ e w', alignedCopy env size align data w = (.error e, w') ∧ e ≠ .stalled ∧
      w'.clock ≤ w.clock + 1) ∨
    ∃ w', alignedCopy env size align data w = (.ok (data ++ zeros (size - data.length)), w') ∧
      w'.disk = w.disk ∧ w'.renames = w.renames ∧ w'.clock = w.clock + 1 ∧
      ∃ m, align = 2 ^ m := by
  have hnew : (∃ e w', alignedBufNew env size align w = (.error e, w') ∧ e ≠ .stalled ∧
      w'.clock ≤ w.clock + 1) ∨
      alignedBufNew env size align w = (.ok (), Io.World.tick w w.disk) ∧ ∃ m, align = 2 ^ m := by
    unfold alignedBufNew
    split
    · exact Or.inl ⟨_, w, rfl, nofun, Nat.le_succ _⟩
    · split
      · exact Or.inl ⟨_, w, rfl, nofun, Nat.le_succ _⟩
      · rename_i hpow
        simp only [Prog.mapError, Io.alloc, Io.look]
        cases env.plan .alloc w.clock with
        | fail e d => exact Or.inl ⟨_, _, rfl, nofun, Nat.le_refl _⟩
        | ok n => exact Or.inr ⟨rfl, not_not.mp fun h => hpow (Or.inl h)⟩
  obtain ⟨e, w', hrun, he, hc⟩ | ⟨hrun, hm⟩ := hnew
  · refine Or.inl ⟨e, w', ?_, he, hc⟩
    show Prog.bind _ _ w = _
    rw [Prog.bind, hrun]
  · rw [alignedCopy, Prog.bind_run hrun]
    split
    · exact Or.inl ⟨_, _, rfl, nofun, Nat.le_refl _⟩
    · exact Or.inr ⟨_, rfl, rfl, rfl, rfl, hm⟩

/-- `write_all_direct` ends early or runs the loop on the padded payload. -/
theorem writeAllDirect_cases (env : Env) (i : ℕ) (data : Bytes) (ss : ℕ) (w : World PathBuf) :
    (∃ r w', (∀ fuel, writeAllDirect { env with fuel := fuel } i data ss w = (r, w')) ∧
      r ≠ .error .stalled ∧ (r = .ok () → data = [] ∧ w' = w) ∧ w'.clock ≤ w.clock + 1) ∨
    ∃ w', (∀ fuel, writeAllDirect { env with fuel := fuel } i data ss w =
        writeLoop env .ok (some directNoProgress) fuel i (padded data ss) 0 w') ∧
      w'.disk = w.disk ∧ w'.renames = w.renames ∧ w'.clock = w.clock + 1 := by
  by_cases hnil : data = []
  · exact Or.inl ⟨.ok (), w, fun fuel => by rw [writeAllDirect, if_pos hnil]; rfl, nofun,
      fun _ => ⟨hnil, rfl⟩, Nat.le_succ _⟩
  by_cases hdbg : env.debugAssertions ∧ ¬ ss.isPowerOfTwo
  · exact Or.inl ⟨.error .panicked, w,
      fun fuel => by rw [writeAllDirect, if_neg hnil, if_pos hdbg]; rfl, nofun, nofun,
      Nat.le_succ _⟩
  have hdirect : ∀ fuel, writeAllDirect { env with fuel := fuel } i data ss w =
      (alignedCopy env (roundUpLen data.length ss) ss data >>=
        fun buf => pwriteAll { env with fuel := fuel } fuel i buf 0) w := by
    intro fuel
    rw [writeAllDirect, if_neg hnil, if_neg hdbg]
    rfl
  obtain ⟨e, w', hrun, he, hc⟩ | ⟨w', hrun, hd, hren, hc, m, rfl⟩ :=
    alignedCopy_cases env (roundUpLen data.length ss) ss data w
  · refine Or.inl ⟨.error e, w', fun fuel => ?_, fun h => he (by cases h; rfl), nofun, hc⟩
    rw [hdirect]
    show Prog.bind _ _ w = _
    rw [Prog.bind, hrun]
  · refine Or.inr ⟨w', fun fuel => ?_, hd, hren, hc⟩
    have hr : roundUpLen data.length (2 ^ m) = alignUp data.length (2 ^ m) := by
      rw [roundUpLen, if_neg (Nat.two_pow_pos m).ne', roundUp_pow]
    rw [hdirect, Prog.bind_run hrun, pwriteAll_eq_writeLoop, hr]
    have hplan : ({ env with fuel := fuel } : Env).plan = env.plan := rfl
    rw [writeLoop_plan hplan]
    rfl

theorem writeAllDirect_finishes (hE : Answered env.plan i) (ss : ℕ) :
    Finishes env i (w.clock + 1)
      (fun fuel => writeAllDirect { env with fuel := fuel } i data ss)
      (put i 0 (padded data ss)) w := by
  obtain ⟨r, w', hrun, hr, hok, hc⟩ | ⟨w', hrun, hd, hren, hc⟩ :=
    writeAllDirect_cases env i data ss w
  · refine ⟨⟨0, fun fuel _ => hrun fuel ▸ hr⟩, fun fuel u hu => ?_, fun fuel r u hu _ t ht htu => ?_⟩
    · rw [hrun] at hu
      cases hu
      obtain ⟨rfl, rfl⟩ := hok rfl
      rw [padded_nil, put, if_pos rfl]
      exact ⟨rfl, rfl⟩
    · rw [hrun] at hu
      cases hu
      omega
  · have hf : Finishes env i w'.clock
        (fun fuel => writeLoop env .ok (some directNoProgress) fuel i (padded data ss) 0)
        (put i 0 (padded data ss)) w' :=
      writeLoop_finishes hE (fun k p hp => by cases hp; omega) nofun
    have hrun' : ∀ fuel, writeAllDirect { env with fuel := fuel } i data ss w =
        writeLoop env .ok (some directNoProgress) fuel i (padded data ss) 0 w' := hrun
    refine ⟨?_, fun fuel u hu => ?_, fun fuel r u hu => ?_⟩
    · obtain ⟨k, hk⟩ := hf.ends
      exact ⟨k, fun fuel hle => hrun' fuel ▸ hk fuel hle⟩
    · rw [hrun'] at hu
      rw [← hd, ← hren]
      exact hf.exact fuel u hu
    · rw [hrun'] at hu
      rw [← hc]
      exact hf.zero fuel r u hu

/-- `write_at` and `write_all_direct` always finish, `write_all` unless the kernel answers
0 while it has bytes left. -/
theorem write_loops_finish_iff (env : Env) (i : ℕ) (data : Bytes) (offset : UInt64) (ss : ℕ)
    (w : World PathBuf) (hE : Answered env.plan i) :
    Finishes env i w.clock (fun fuel => writeAll env fuel i data 0) (put i 0 data) w ∧
      Finishes env i w.clock (fun fuel => writeAt env fuel i offset.toNat data)
        (put i offset.toNat data) w ∧
      Finishes env i (w.clock + 1)
        (fun fuel => writeAllDirect { env with fuel := fuel } i data ss)
        (put i 0 (padded data ss)) w ↔
    ¬ WritesNothing env.plan i w.clock data.length := by
  constructor
  · intro h
    exact (writeAll_finishes_iff hE).mp h.1
  · intro h
    exact ⟨(writeAll_finishes_iff hE).mpr h, writeAt_finishes hE offset,
      writeAllDirect_finishes hE ss⟩

/-- Surroundings whose writes are answered by `reply`. -/
def replying (reply : ℕ → Reply) : Env where
  plan := fun _ t => reply t
  awaits := fun _ => .answered
  fuel := 0
  debugAssertions := true
  pid := 1
  nonces := fun _ => 0
  nameHash := fun _ => 0
  pageSize := 4096

/-- A world with nothing in it. -/
def blank : World PathBuf :=
  ⟨⟨fun _ => none, fun _ => [], fun _ => false, 0, Disk.fresh_none⟩, 0, []⟩

/-- Short counts and an interruption, then everything. -/
theorem write_loops_finish_short :
    Answered (replying fun t => if t = 1 then .fail ⟨.interrupted, ""⟩ 0 else .ok 2).plan 0 ∧
      Finishes (replying fun t => if t = 1 then .fail ⟨.interrupted, ""⟩ 0 else .ok 2) 0 0
        (fun fuel => writeAll (replying fun t =>
          if t = 1 then .fail ⟨.interrupted, ""⟩ 0 else .ok 2) fuel 0 [1, 2, 3] 0)
        (put 0 0 [1, 2, 3]) blank := by
  have hE : Answered (replying fun t =>
      if t = 1 then .fail ⟨.interrupted, ""⟩ 0 else .ok 2).plan 0 := by
    intro t
    refine ⟨t + 2, Nat.le_add_right t 2, fun e d h => ?_⟩
    have hne : t + 2 ≠ 1 := by omega
    simp only [replying, if_neg hne] at h
    cases h
  have hw : ¬ WritesNothing (replying fun t =>
      if t = 1 then .fail ⟨.interrupted, ""⟩ 0 else .ok 2).plan 0 blank.clock 3 := by
    rintro ⟨k, -, hz, -⟩
    simp only [replying] at hz
    split at hz <;> cases hz
  exact ⟨hE, ((write_loops_finish_iff _ 0 [1, 2, 3] 0 512 blank hE).mpr hw).1⟩

/-- A kernel that keeps answering 0 keeps `write_all` running. -/
theorem write_all_spins :
    Answered (replying fun _ => .ok 0).plan 0 ∧
      (∀ fuel, (writeAll (replying fun _ => .ok 0) fuel 0 [7] 0 blank).1 = .error .stalled) ∧
      ¬ Finishes (replying fun _ => .ok 0) 0 0
        (fun fuel => writeAll (replying fun _ => .ok 0) fuel 0 [7] 0) (put 0 0 [7]) blank := by
  have hspin : ∀ fuel w, (writeAll (replying fun _ => .ok 0) fuel 0 [7] 0 w).1 =
      .error .stalled := by
    intro fuel
    induction fuel with
    | zero => intro w; rfl
    | succ fuel ih =>
      intro w
      exact ih _
  refine ⟨fun t => ⟨t, Nat.le_refl t, nofun⟩, fun fuel => hspin fuel blank, fun h => ?_⟩
  obtain ⟨k, hk⟩ := h.ends
  exact hk k (Nat.le_refl k) (hspin k blank)

end Fsys.Platform
