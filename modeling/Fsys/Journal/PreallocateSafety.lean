import Fsys.Journal.FailStop
import Fsys.Journal.LogBufferSafety
import Fsys.Journal.Preallocate

/-!
# Preallocation leaves the journal alone (src/journal/mod.rs:1444-1494)

While appends are held off the file is what it was, with zeros behind it once the
platform has extended it. In buffered mode nobody has a ticket of a closed gate; in
Direct mode no write is in flight and none can start. Everything else the journal does,
it does as if nothing had been preallocated.
-/

namespace Fsys.Journal
open Fsys.Base

/-! ### The body -/

/-- The stat and the `set_len` calls succeed. -/
def PreallocCall.Measured (c : PreallocCall) : Prop :=
  c.firstStat = none ∧ c.secondStat = none ∧ c.setLen = none

/-- The platform's allocation fails when it has already extended the file. -/
def PreallocCall.Strands (c : PreallocCall) (held : Bytes) : Prop :=
  (∃ e, (platformPreallocate c.kernel c.offset c.len held).1 = .error e) ∧
    held.length < (platformPreallocate c.kernel c.offset c.len held).2.length

/-- The call left the file as it was, with zeros behind it at most, and none of these
unless the allocation stranded them. -/
def PreallocCall.Leaves (c : PreallocCall) (held left : Bytes) : Prop :=
  ∃ k, left = held ++ zeros k ∧ (c.Measured → (k = 0 ↔ ¬c.Strands held))

theorem platformPreallocate_file (k : Fallocate) (offset len : ℕ) (file : Bytes) :
    ∃ n, (platformPreallocate k offset len file).2 = file ++ zeros n := by
  have hposix : ∃ n, (posixFallocate k offset len file).2 = file ++ zeros n := by
    unfold posixFallocate
    split
    · exact ⟨_, rfl⟩
    · exact ⟨_, rfl⟩
  have hsame : ∃ n, file = file ++ zeros n := ⟨0, (List.append_nil file).symm⟩
  unfold platformPreallocate
  split
  · exact hsame
  · split
    · exact hposix
    · split
      · exact hsame
      · split
        · exact hsame
        · exact hposix

variable {c : PreallocCall} {held file : Bytes} {pos : KeepLen}

theorem padded_of_ok (h : platformPreallocate c.kernel c.offset c.len held = (.ok (), file)) :
    ∃ k, file = held ++ zeros k := by
  have hgrown := platformPreallocate_file c.kernel c.offset c.len held
  rw [h] at hgrown
  exact hgrown

/-- What holds while `preallocate_keep_len` stands here. -/
def KeepLen.Holds (c : PreallocCall) (held file : Bytes) : KeepLen → Prop
  | .begun => file = held
  | .sized before => file = held ∧ before = held.length
  | .reserved before =>
    before = held.length ∧ platformPreallocate c.kernel c.offset c.len held = (.ok (), file)
  | .grown before =>
    before = held.length ∧ platformPreallocate c.kernel c.offset c.len held = (.ok (), file)
  | .returned _ => c.Leaves held file

theorem KeepLen.Holds.padded (h : pos.Holds c held file) : ∃ k, file = held ++ zeros k := by
  have hsame : ∃ k, held = held ++ zeros k := ⟨0, (List.append_nil held).symm⟩
  cases pos with
  | begun =>
    obtain rfl := h
    exact hsame
  | sized before =>
    obtain ⟨rfl, -⟩ := h
    exact hsame
  | reserved before => exact padded_of_ok h.2
  | grown before => exact padded_of_ok h.2
  | returned r =>
    obtain ⟨k, hk, -⟩ := h
    exact ⟨k, hk⟩

theorem leaves_same (hs : c.Measured → ¬c.Strands held) : c.Leaves held held :=
  ⟨0, (List.append_nil held).symm, fun hm => iff_of_true rfl (hs hm)⟩

theorem leaves_unmeasured (hm : ¬c.Measured) {k : ℕ} (hf : file = held ++ zeros k) :
    c.Leaves held file :=
  ⟨k, hf, fun h => absurd h hm⟩

theorem not_strands_of_ok (h : platformPreallocate c.kernel c.offset c.len held = (.ok (), file)) :
    ¬c.Strands held := by
  rintro ⟨⟨e, he⟩, -⟩
  rw [h] at he
  cases he

theorem KeepLen.Holds.next (h : pos.Holds c held file) {r : KeepLen × Bytes}
    (hn : pos.next c file = some r) : r.1.Holds c held r.2 := by
  cases pos with
  | begun =>
    obtain rfl := h
    simp only [KeepLen.next] at hn
    split at hn
    · rename_i hstat
      cases hn
      refine leaves_unmeasured (k := 0) ?_ (List.append_nil file).symm
      rintro ⟨h1, -, -⟩
      rw [hstat] at h1
      cases h1
    · cases hn
      exact ⟨rfl, rfl⟩
  | sized before =>
    obtain ⟨rfl, rfl⟩ := h
    obtain ⟨k, hk⟩ := platformPreallocate_file c.kernel c.offset c.len file
    simp only [KeepLen.next] at hn
    split at hn
    · rename_i e file' hp
      cases hn
      rw [hp] at hk
      refine ⟨k, hk, fun _ => ?_⟩
      -- the call returns here, before the length is looked at again
      have hlen : (platformPreallocate c.kernel c.offset c.len file).2.length =
          file.length + k := by
        rw [hp, hk, List.length_append, length_zeros]
      unfold PreallocCall.Strands
      rw [hlen, hp]
      constructor
      · rintro rfl ⟨-, hlt⟩
        omega
      · intro hno
        by_contra hk0
        exact hno ⟨⟨e, rfl⟩, by omega⟩
    · rename_i file' hp
      cases hn
      exact ⟨rfl, hp⟩
  | reserved before =>
    obtain ⟨rfl, hp⟩ := h
    obtain ⟨k, hk⟩ := padded_of_ok hp
    simp only [KeepLen.next] at hn
    split at hn
    · rename_i hstat
      cases hn
      refine leaves_unmeasured ?_ hk
      rintro ⟨-, h2, -⟩
      rw [hstat] at h2
      cases h2
    · split at hn
      · cases hn
        exact ⟨rfl, hp⟩
      · rename_i hle
        cases hn
        have hk0 : k = 0 := by
          rw [hk, List.length_append, length_zeros] at hle
          omega
        exact ⟨k, hk, fun _ => iff_of_true hk0 (not_strands_of_ok hp)⟩
  | grown before =>
    obtain ⟨rfl, hp⟩ := h
    obtain ⟨k, hk⟩ := padded_of_ok hp
    simp only [KeepLen.next] at hn
    split at hn
    · rename_i hset
      cases hn
      refine leaves_unmeasured ?_ hk
      rintro ⟨-, -, h3⟩
      rw [hset] at h3
      cases h3
    · cases hn
      have hcut : extendTo (file.take held.length) held.length = held := by
        rw [hk, List.take_left, extendTo, Nat.sub_self, zeros_zero, List.append_nil]
      show c.Leaves held (extendTo (file.take held.length) held.length)
      rw [hcut]
      exact leaves_same fun _ => not_strands_of_ok hp
  | returned r => cases hn

/-- The file has `d` at `start`. -/
def HasBytes (f : Bytes) (start : ℕ) (d : Bytes) : Prop :=
  ∀ i, i < d.length → f[start + i]? = d[i]?

theorem HasBytes.lt_length {f d : Bytes} {start i : ℕ} (h : HasBytes f start d)
    (hi : i < d.length) : start + i < f.length := by
  have hb := h i hi
  rw [List.getElem?_eq_getElem hi] at hb
  exact (List.getElem?_eq_some_iff.mp hb).1

theorem HasBytes.append {f d : Bytes} {start : ℕ} (h : HasBytes f start d) (more : Bytes) :
    HasBytes (f ++ more) start d := by
  intro i hi
  rw [List.getElem?_append_left (h.lt_length hi)]
  exact h i hi

theorem HasBytes.drop_take {f d : Bytes} {start : ℕ} (h : HasBytes f start d) :
    (f.drop start).take d.length = d := by
  apply List.ext_getElem?
  intro i
  rw [List.getElem?_take]
  split
  · rename_i hi
    rw [List.getElem?_drop]
    exact h i hi
  · rename_i hi
    rw [List.getElem?_eq_none (by omega)]

theorem hasBytes_nil (f : Bytes) (start : ℕ) : HasBytes f start [] := by
  intro i hi
  cases hi

/-- The next piece of a write lands behind the pieces that are there. -/
theorem HasBytes.overlay {f d : Bytes} {start done : ℕ} (h : HasBytes f start (d.take done))
    (hd : done ≤ d.length) (n : ℕ) :
    HasBytes (overlay f (start + done) ((d.drop done).take n)) start
      (d.take (done + ((d.drop done).take n).length)) := by
  intro i hi
  have hpiece : ((d.drop done).take n).length = min n (d.length - done) := by
    rw [List.length_take, List.length_drop]
  rw [List.length_take, hpiece] at hi
  have hgoal : (d.take (done + ((d.drop done).take n).length))[i]? = d[i]? :=
    List.getElem?_take_of_lt (by omega)
  rw [getElem?_overlay, hgoal, hpiece]
  by_cases hid : i < done
  · have hin : i < (d.take done).length := by
      rw [List.length_take]
      omega
    have hlt := h.lt_length hin
    rw [if_pos (by omega), if_pos hlt, h i hin]
    exact List.getElem?_take_of_lt hid
  · rw [if_neg (by omega), if_pos (by omega), List.getElem?_take_of_lt (by omega),
      List.getElem?_drop]
    congr 1
    omega

/-! ### Buffered mode -/

/-- The range an append has reserved. -/
def BufferedJob.range? : BufferedJob → Option (ℕ × ℕ)
  | .writing start data _ => some (start, data.length)
  | .ended start data _ => some (start, data.length)
  | _ => none

/-- What an append has put into the file for certain. -/
def BufferedJob.landed? : BufferedJob → Option (ℕ × Bytes)
  | .writing start data done => some (start, data.take done)
  | .ended start data true => some (start, data)
  | _ => none

/-- Two ranges with no byte in common. -/
def Apart (r t : ℕ × ℕ) : Prop := r.1 + r.2 ≤ t.1 ∨ t.1 + t.2 ≤ r.1

/-- What holds of the journal in buffered mode. Appends with a range have a ticket, so none
is there while `preallocate_keep_len` runs behind the closed gate. -/
structure BufferedOk {A : Type} [Fintype A] (s : BufferedSys A) : Prop where
  gate : s.gate.Ok
  ticket : ∀ a r, (s.job a).range? = some r → ∃ p, s.gate.phase a = .ticket p
  keeping : ∀ a c held pos, s.job a = .keeping c held pos → s.gate.phase a = .closed ∧
    pos.Holds c held s.file ∧ ∀ x ∈ s.acked, HasBytes held x.1 x.2
  calls : ∀ r ∈ s.calls, r.call.Leaves r.held r.left
  below : ∀ a r, (s.job a).range? = some r → r.1 + r.2 ≤ s.nextLsn
  ackedBelow : ∀ x ∈ s.acked, x.1 + x.2.length ≤ s.nextLsn
  apart : ∀ a b r t, a ≠ b → (s.job a).range? = some r → (s.job b).range? = some t → Apart r t
  ackedApart : ∀ x ∈ s.acked, ∀ a r, (s.job a).range? = some r → Apart (x.1, x.2.length) r
  progress : ∀ a start data done, s.job a = .writing start data done → done ≤ data.length
  landed : ∀ a x, (s.job a).landed? = some x → HasBytes s.file x.1 x.2
  acked : ∀ x ∈ s.acked, HasBytes s.file x.1 x.2

variable {A : Type} [Fintype A] {s s' : BufferedSys A} {a : A}

theorem landed_range {j : BufferedJob} {x : ℕ × Bytes} (h : j.landed? = some x) :
    ∃ r, j.range? = some r ∧ r.1 = x.1 ∧ x.2.length ≤ r.2 := by
  cases j with
  | writing start data done =>
    cases h
    exact ⟨_, rfl, rfl, List.length_take_le' _ _⟩
  | ended start data ok =>
    cases ok with
    | true =>
      cases h
      exact ⟨_, rfl, rfl, Nat.le_refl _⟩
    | false => cases h
  | _ => cases h

theorem Apart.mono {r t : ℕ × ℕ} {n : ℕ} (h : Apart r t) (hn : n ≤ r.2) : Apart (r.1, n) t := by
  unfold Apart at h ⊢
  dsimp only
  omega

theorem HasBytes.outside {f f' : Bytes} {x : ℕ × Bytes} {o : Option (ℕ × ℕ)}
    (h : HasBytes f x.1 x.2)
    (hfile : ∀ i, i < f.length → (∀ r, o = some r → i < r.1 ∨ r.1 + r.2 ≤ i) → f'[i]? = f[i]?)
    (hapart : ∀ r, o = some r → Apart (x.1, x.2.length) r) : HasBytes f' x.1 x.2 := by
  intro i hi
  rw [hfile (x.1 + i) (h.lt_length hi), h i hi]
  intro r hr
  have ha := hapart r hr
  unfold Apart at ha
  dsimp only at ha
  omega

/-- Nobody has reserved a range while the gate is closed. -/
theorem BufferedOk.no_range (h : BufferedOk s) (ha : s.gate.phase a = .closed) (b : A) :
    (s.job b).range? = none := by
  cases hr : (s.job b).range? with
  | none => rfl
  | some r =>
    obtain ⟨p, hp⟩ := h.ticket b r hr
    exact absurd hp (h.gate.no_ticket ha b p)

variable [DecidableEq A]

/-- One agent goes on to the job `j`. It writes within its own range, if it has one; a new
range lies behind all others; an append that returns has landed. -/
theorem BufferedOk.move (h : BufferedOk s) {j : BufferedJob}
    (hjob : s'.job = Function.update s.job a j) (hgate : s'.gate.Ok)
    (hphase : ∀ b, b ≠ a → s'.gate.phase b = s.gate.phase b) (hlsn : s.nextLsn ≤ s'.nextLsn)
    (hfile : ∀ i, i < s.file.length →
      (∀ r, (s.job a).range? = some r → i < r.1 ∨ r.1 + r.2 ≤ i) → s'.file[i]? = s.file[i]?)
    (hquiet : s'.file = s.file ∨ ∃ r, (s.job a).range? = some r)
    (hacked : ∀ x ∈ s'.acked, x ∈ s.acked ∨ ((s.job a).range? = some (x.1, x.2.length) ∧
      HasBytes s'.file x.1 x.2 ∧ j.range? = none))
    (hcalls : ∀ r ∈ s'.calls, r ∈ s.calls ∨ r.call.Leaves r.held r.left)
    (hrange : ∀ r, j.range? = some r → (∃ p, s'.gate.phase a = .ticket p) ∧
      ((s.job a).range? = some r ∨ (s.nextLsn ≤ r.1 ∧ r.1 + r.2 ≤ s'.nextLsn)))
    (hprogress : ∀ start data done, j = .writing start data done → done ≤ data.length)
    (hlanded : ∀ x, j.landed? = some x → HasBytes s'.file x.1 x.2)
    (hkeeping : ∀ c held pos, j = .keeping c held pos → s'.gate.phase a = .closed ∧
      pos.Holds c held s'.file ∧ ∀ x ∈ s'.acked, HasBytes held x.1 x.2) : BufferedOk s' := by
  have hself : s'.job a = j := by rw [hjob, Function.update_self]
  have hother : ∀ b, b ≠ a → s'.job b = s.job b := by
    intro b hb
    rw [hjob, Function.update_of_ne hb]
  -- the range of another agent is apart from whatever range `a` now has
  have hapart : ∀ b r t, b ≠ a → (s.job b).range? = some r → j.range? = some t → Apart r t := by
    intro b r t hb hr ht
    rcases (hrange t ht).2 with hold | ⟨hnew, -⟩
    · exact h.apart b a r t hb hr hold
    · have hbelow := h.below b r hr
      exact Or.inl (by omega)
  have hackedApart : ∀ x ∈ s'.acked, ∀ b r, (s'.job b).range? = some r →
      Apart (x.1, x.2.length) r := by
    intro x hx b r hr
    by_cases hb : b = a
    · subst hb
      rw [hself] at hr
      rcases hacked x hx with hold | ⟨-, -, hnone⟩
      · rcases (hrange r hr).2 with hsame | ⟨hnew, -⟩
        · exact h.ackedApart x hold b r hsame
        · have hbelow := h.ackedBelow x hold
          exact Or.inl (Nat.le_trans hbelow hnew)
      · rw [hnone] at hr
        cases hr
    · rw [hother b hb] at hr
      rcases hacked x hx with hold | ⟨hown, -, -⟩
      · exact h.ackedApart x hold b r hr
      · exact h.apart a b _ r (Ne.symm hb) hown hr
  refine ⟨hgate, ?_, ?_, ?_, ?_, ?_, ?_, hackedApart, ?_, ?_, ?_⟩
  · intro b r hr
    by_cases hb : b = a
    · subst hb
      rw [hself] at hr
      exact (hrange r hr).1
    · rw [hother b hb] at hr
      rw [hphase b hb]
      exact h.ticket b r hr
  · intro b c held pos hb
    by_cases hba : b = a
    · subst hba
      rw [hself] at hb
      exact hkeeping c held pos hb
    · rw [hother b hba] at hb
      obtain ⟨hclosed, hholds, hheld⟩ := h.keeping b c held pos hb
      have hnone := h.no_range hclosed a
      have hsame : s'.file = s.file := by
        rcases hquiet with hsame | ⟨r, hr⟩
        · exact hsame
        · rw [hnone] at hr
          cases hr
      rw [hphase b hba, hsame]
      refine ⟨hclosed, hholds, ?_⟩
      intro x hx
      rcases hacked x hx with hold | ⟨hown, -, -⟩
      · exact hheld x hold
      · rw [hnone] at hown
        cases hown
  · intro r hr
    rcases hcalls r hr with hold | hnew
    · exact h.calls r hold
    · exact hnew
  · intro b r hr
    by_cases hb : b = a
    · subst hb
      rw [hself] at hr
      rcases (hrange r hr).2 with hold | ⟨-, hle⟩
      · exact Nat.le_trans (h.below b r hold) hlsn
      · exact hle
    · rw [hother b hb] at hr
      exact Nat.le_trans (h.below b r hr) hlsn
  · intro x hx
    rcases hacked x hx with hold | ⟨hown, -, -⟩
    · exact Nat.le_trans (h.ackedBelow x hold) hlsn
    · exact Nat.le_trans (h.below a _ hown) hlsn
  · intro b d r t hbd hr ht
    by_cases hb : b = a
    · subst hb
      rw [hself] at hr
      rw [hother d (Ne.symm hbd)] at ht
      exact (hapart d t r (Ne.symm hbd) ht hr).symm
    · rw [hother b hb] at hr
      by_cases hd : d = a
      · subst hd
        rw [hself] at ht
        exact hapart b r t hb hr ht
      · rw [hother d hd] at ht
        exact h.apart b d r t hbd hr ht
  · intro b start data done hb
    by_cases hba : b = a
    · subst hba
      rw [hself] at hb
      exact hprogress start data done hb
    · rw [hother b hba] at hb
      exact h.progress b start data done hb
  · intro b x hx
    by_cases hb : b = a
    · subst hb
      rw [hself] at hx
      exact hlanded x hx
    · rw [hother b hb] at hx
      obtain ⟨r, hr, hstart, hlen⟩ := landed_range hx
      refine (h.landed b x hx).outside hfile ?_
      intro t ht
      have hap := (h.apart b a r t hb hr ht).mono hlen
      rw [hstart] at hap
      exact hap
  · intro x hx
    rcases hacked x hx with hold | ⟨-, hbytes, -⟩
    · exact (h.acked x hold).outside hfile fun r hr => h.ackedApart x hold a r hr
    · exact hbytes

/-- The gate is closed and `preallocate_keep_len` starts. -/
theorem BufferedOk.closed (h : BufferedOk s)
    (hjob : s'.job = Function.update s.job a (.keeping c s.file .begun)) (hgate : s'.gate.Ok)
    (hphase : ∀ b, b ≠ a → s'.gate.phase b = s.gate.phase b) (hclosed : s'.gate.phase a = .closed)
    (hlsn : s'.nextLsn = s.nextLsn) (hfile : s'.file = s.file) (hacked : s'.acked = s.acked)
    (hcalls : s'.calls = s.calls) : BufferedOk s' := by
  refine h.move hjob hgate hphase (Nat.le_of_eq hlsn.symm) ?_ (Or.inl hfile) ?_ ?_ ?_ ?_ ?_ ?_
  · intro i _ _
    rw [hfile]
  · intro x hx
    rw [hacked] at hx
    exact Or.inl hx
  · intro r hr
    rw [hcalls] at hr
    exact Or.inl hr
  · intro r hr
    cases hr
  · intro start data done hj
    cases hj
  · intro x hx
    cases hx
  · intro c' held pos hj
    cases hj
    rw [hacked]
    exact ⟨hclosed, hfile, h.acked⟩

omit [Fintype A] [DecidableEq A] in
theorem landed_none {j : BufferedJob} (h : j.range? = none) : j.landed? = none := by
  cases hl : j.landed? with
  | none => rfl
  | some x =>
    obtain ⟨r, hr, -⟩ := landed_range hl
    rw [h] at hr
    cases hr

/-- The agent has no range and is not behind the closed gate. -/
def BufferedJob.plain : BufferedJob → Bool
  | .idle => true
  | .append _ => true
  | .closing _ => true
  | _ => false

theorem BufferedJob.range_of_plain {j : BufferedJob} (h : j.plain = true) : j.range? = none := by
  cases j <;> first | rfl | cases h

/-- One agent goes on to a plain job; what it returns from has landed. -/
theorem BufferedOk.settle (h : BufferedOk s) {j : BufferedJob} (hplain : j.plain = true)
    (hjob : s'.job = Function.update s.job a j) (hgate : s'.gate.Ok)
    (hphase : ∀ b, b ≠ a → s'.gate.phase b = s.gate.phase b) (hlsn : s'.nextLsn = s.nextLsn)
    (hfile : s'.file = s.file)
    (hacked : ∀ x ∈ s'.acked, x ∈ s.acked ∨ ((s.job a).range? = some (x.1, x.2.length) ∧
      (s.job a).landed? = some x))
    (hcalls : ∀ r ∈ s'.calls, r ∈ s.calls ∨ r.call.Leaves r.held r.left) : BufferedOk s' := by
  have hrange := BufferedJob.range_of_plain hplain
  refine h.move hjob hgate hphase (Nat.le_of_eq hlsn.symm) ?_ (Or.inl hfile) ?_ hcalls ?_ ?_ ?_ ?_
  · intro i _ _
    rw [hfile]
  · intro x hx
    rcases hacked x hx with hold | ⟨hown, hlanded⟩
    · exact Or.inl hold
    · rw [hfile]
      exact Or.inr ⟨hown, h.landed a x hlanded, hrange⟩
  · intro r hr
    rw [hrange] at hr
    cases hr
  · intro start data done hj
    rw [hj] at hplain
    cases hplain
  · intro x hx
    rw [landed_none hrange] at hx
    cases hx
  · intro c held pos hj
    rw [hj] at hplain
    cases hplain

/-- A system call of `preallocate_keep_len`: nobody else writes, and what appends have put
into the file was there when they were held off. -/
theorem BufferedOk.keepLen (h : BufferedOk s) {r : KeepLen × Bytes}
    (hj : s.job a = .keeping c held pos) (hn : pos.next c s.file = some r) :
    BufferedOk { s.setJob a (.keeping c held r.1) with file := r.2 } := by
  obtain ⟨hclosed, hholds, hheld⟩ := h.keeping a c held pos hj
  have hafter := hholds.next hn
  obtain ⟨k, hk⟩ := hafter.padded
  have hnone : ∀ b, (Function.update s.job a (.keeping c held r.1) b).range? = none := by
    intro b
    by_cases hb : b = a
    · subst hb
      rw [Function.update_self]
      rfl
    · rw [Function.update_of_ne hb]
      exact h.no_range hclosed b
  have hno : ∀ {P : Prop} b t,
      (Function.update s.job a (.keeping c held r.1) b).range? = some t → P := by
    intro P b t ht
    rw [hnone b] at ht
    cases ht
  refine ⟨h.gate, fun b t ht => hno b t ht, ?_, h.calls, fun b t ht => hno b t ht, h.ackedBelow,
    fun b _ t _ _ ht => hno b t ht, fun _ _ b t ht => hno b t ht, ?_, ?_, ?_⟩
  · intro b c' held' pos' hb
    by_cases hba : b = a
    · subst hba
      have heq : BufferedJob.keeping c held r.1 = .keeping c' held' pos' := by
        rw [← hb]
        exact (Function.update_self b _ s.job).symm
      cases heq
      exact ⟨hclosed, hafter, hheld⟩
    · have hb' : s.job b = .keeping c' held' pos' := by
        rw [← hb]
        exact (Function.update_of_ne hba _ s.job).symm
      obtain ⟨hclosed', -, -⟩ := h.keeping b c' held' pos' hb'
      have hlocks : ∀ d, s.gate.phase d = .closed → (s.gate.phase d).locks = true := by
        intro d hd
        rw [hd]
        rfl
      exact absurd (h.gate.owner.unique (hlocks b hclosed') (hlocks a hclosed)) hba
  · intro b start data done hb
    have hr : (Function.update s.job a (.keeping c held r.1) b).range? =
        some (start, data.length) := by
      have hb' : Function.update s.job a (.keeping c held r.1) b = .writing start data done := hb
      rw [hb']
      rfl
    exact hno b _ hr
  · intro b x hx
    exact absurd ((landed_none (hnone b)).symm.trans hx) (by intro hx'; cases hx')
  · intro x hx
    have hbytes := (hheld x hx).append (zeros k)
    rw [← hk] at hbytes
    exact hbytes

/-- A gate call is one of an agent with a plain job, the drop of a ticket or the drop of the
guard. -/
theorem gateCall_cases {j : BufferedJob} {ev : WriteGate.Event}
    (h : BufferedSys.gateCall j ev = true) :
    j.plain = true ∨ (ev = .leave ∧ ∃ start data ok, j = .ended start data ok) ∨
      (ev = .reopen ∧ ∃ c held r, j = .keeping c held (.returned r)) := by
  cases j with
  | idle => exact Or.inl rfl
  | append data => exact Or.inl rfl
  | writing start data done => cases ev <;> cases h
  | ended start data ok =>
    cases ev with
    | leave => exact Or.inr (Or.inl ⟨rfl, start, data, ok, rfl⟩)
    | _ => cases h
  | closing c => exact Or.inl rfl
  | keeping c held pos =>
    cases pos with
    | returned r =>
      cases ev with
      | reopen => exact Or.inr (Or.inr ⟨rfl, c, held, r, rfl⟩)
      | _ => cases h
    | _ => cases ev <;> cases h

theorem BufferedOk.afterGate (h : BufferedOk s) {ev : WriteGate.Event} {g : WriteGate A}
    (hcall : BufferedSys.gateCall (s.job a) ev = true) (hg : s.gate.next (a, ev) = some g) :
    BufferedOk (s.afterGate a ev g) := by
  have hok := h.gate.next (a, ev) hg
  have hphase := (WriteGate.next_moves (a, ev) hg).others
  rcases gateCall_cases hcall with hplain | ⟨rfl, start, data, ok, hj⟩ | ⟨rfl, c, held, r, hj⟩
  · have hgate : BufferedOk { s with gate := g } :=
      h.settle (a := a) hplain (Function.update_eq_self a s.job).symm hok hphase rfl rfl
        (fun _ hx => Or.inl hx) fun _ hr => Or.inl hr
    unfold BufferedSys.afterGate
    split
    · rename_i hj
      rw [hj] at hplain
      cases hplain
    · rename_i c hj
      split
      · rename_i hclosed
        exact h.closed rfl hok hphase hclosed rfl rfl rfl rfl
      · exact hgate
    · rename_i hj
      rw [hj] at hplain
      cases hplain
    · exact hgate
  · unfold BufferedSys.afterGate
    rw [hj]
    refine h.settle (j := .idle) rfl rfl hok hphase rfl rfl ?_ fun _ hr => Or.inl hr
    intro x hx
    cases ok with
    | false => exact Or.inl hx
    | true =>
      rcases List.mem_append.mp hx with hold | hnew
      · exact Or.inl hold
      · obtain rfl := List.mem_singleton.mp hnew
        rw [hj]
        exact Or.inr ⟨rfl, rfl⟩
  · unfold BufferedSys.afterGate
    rw [hj]
    refine h.settle (j := .idle) rfl rfl hok hphase rfl rfl (fun _ hx => Or.inl hx) ?_
    intro x hx
    rcases List.mem_append.mp hx with hold | hnew
    · exact Or.inl hold
    · obtain rfl := List.mem_singleton.mp hnew
      exact Or.inr (h.keeping a c held _ hj).2.1

theorem BufferedOk.reserve (h : BufferedOk s) (data : Bytes) {p : Bool}
    (hp : s.gate.phase a = .ticket p) :
    BufferedOk { s.setJob a (.writing s.nextLsn data 0) with
      nextLsn := s.nextLsn + data.length } := by
  refine h.move (j := .writing s.nextLsn data 0) rfl h.gate (fun _ _ => rfl) (Nat.le_add_right _ _)
    (fun _ _ _ => rfl) (Or.inl rfl) (fun _ hx => Or.inl hx) (fun _ hr => Or.inl hr) ?_ ?_ ?_ ?_
  · intro r hr
    cases hr
    exact ⟨⟨p, hp⟩, Or.inr ⟨Nat.le_refl _, Nat.le_refl _⟩⟩
  · intro start data' done heq
    cases heq
    exact Nat.zero_le _
  · intro x hx
    cases hx
    exact hasBytes_nil _ _
  · intro c held pos heq
    cases heq

theorem BufferedOk.write (h : BufferedOk s) {start done : ℕ} {data : Bytes}
    (hj : s.job a = .writing start data done) (n : ℕ) :
    BufferedOk { s.setJob a (.writing start data (done + ((data.drop done).take n).length)) with
      file := overlay s.file (start + done) ((data.drop done).take n) } := by
  have hdone := h.progress a start data done hj
  have hrange : (s.job a).range? = some (start, data.length) := by
    rw [hj]
    rfl
  have hpiece : ((data.drop done).take n).length ≤ data.length - done := by
    rw [List.length_take, List.length_drop]
    omega
  refine h.move (j := .writing start data (done + ((data.drop done).take n).length)) rfl h.gate
    (fun _ _ => rfl) (Nat.le_refl _) ?_ (Or.inr ⟨_, hrange⟩) (fun _ hx => Or.inl hx)
    (fun _ hr => Or.inl hr) ?_ ?_ ?_ ?_
  · intro i hi hout
    have hi' := hout _ hrange
    dsimp only at hi'
    show (overlay s.file (start + done) _)[i]? = _
    rw [getElem?_overlay, if_pos hi]
    by_cases hlt : i < start + done
    · rw [if_pos hlt]
    · rw [if_neg hlt, if_neg (by omega)]
  · intro r hr
    cases hr
    exact ⟨h.ticket a _ hrange, Or.inl hrange⟩
  · intro start' data' done' heq
    cases heq
    omega
  · intro x hx
    cases hx
    exact (h.landed a (start, data.take done) (by rw [hj]; rfl)).overlay hdone n
  · intro c held pos heq
    cases heq

theorem BufferedOk.writeEnds (h : BufferedOk s) {start done : ℕ} {data : Bytes} (ok : Bool)
    (hj : s.job a = .writing start data done) (hok : ok = true → done = data.length)
    (hjob : s'.job = Function.update s.job a (.ended start data ok)) (hgate : s'.gate = s.gate)
    (hlsn : s'.nextLsn = s.nextLsn) (hfile : s'.file = s.file) (hacked : s'.acked = s.acked)
    (hcalls : s'.calls = s.calls) : BufferedOk s' := by
  have hrange : (s.job a).range? = some (start, data.length) := by
    rw [hj]
    rfl
  refine h.move hjob (hgate ▸ h.gate) (fun b _ => by rw [hgate]) (Nat.le_of_eq hlsn.symm) ?_
    (Or.inl hfile) ?_ ?_ ?_ ?_ ?_ ?_
  · intro i _ _
    rw [hfile]
  · intro x hx
    rw [hacked] at hx
    exact Or.inl hx
  · intro r hr
    rw [hcalls] at hr
    exact Or.inl hr
  · intro r hr
    cases hr
    rw [hgate]
    exact ⟨h.ticket a _ hrange, Or.inl hrange⟩
  · intro start' data' done' heq
    cases heq
  · intro x hx
    cases ok with
    | false => cases hx
    | true =>
      cases hx
      have hlanded := h.landed a (start, data.take done) (by rw [hj]; rfl)
      rw [hok rfl, List.take_length] at hlanded
      rw [hfile]
      exact hlanded
  · intro c held pos heq
    cases heq

/-- An agent with nothing in the file and no call of the gate under way changes its job. -/
theorem BufferedOk.setJob (h : BufferedOk s) {j : BufferedJob} (hplain : j.plain = true) :
    BufferedOk (s.setJob a j) :=
  h.settle hplain rfl h.gate (fun _ _ => rfl) rfl rfl (fun _ hx => Or.inl hx) fun _ hr => Or.inl hr

theorem BufferedOk.next (h : BufferedOk s) (act : A × BufferedEvent)
    (hn : s.next act = some s') : BufferedOk s' := by
  obtain ⟨a, ev⟩ := act
  cases ev with
  | callAppend data =>
    simp only [BufferedSys.next] at hn
    split at hn
    · split at hn
      · cases hn
        split
        · exact h
        · exact h.setJob rfl
      · cases hn
    · cases hn
  | giveUp =>
    simp only [BufferedSys.next] at hn
    split at hn
    · split at hn
      · cases hn
        exact h.setJob rfl
      · cases hn
    · cases hn
  | reserve =>
    simp only [BufferedSys.next] at hn
    split at hn
    · rename_i hp
      cases hn
      exact h.reserve _ hp
    · cases hn
  | write n =>
    simp only [BufferedSys.next] at hn
    split at hn
    · rename_i hj
      cases hn
      exact h.write hj n
    · cases hn
  | writeEnds ok =>
    simp only [BufferedSys.next] at hn
    split at hn
    · rename_i hj
      split at hn
      · split at hn
        · rename_i hdone
          cases hn
          exact h.writeEnds true hj (fun _ => hdone) rfl rfl rfl rfl rfl rfl
        · cases hn
      · cases hn
        exact h.writeEnds false hj nofun rfl rfl rfl rfl rfl rfl
    · cases hn
  | callPreallocate c =>
    simp only [BufferedSys.next] at hn
    split at hn
    · obtain ⟨g, hg, rfl⟩ := Option.map_eq_some_iff.mp hn
      exact h.settle (j := .closing c) rfl rfl (h.gate.next _ hg)
        (WriteGate.next_moves _ hg).others rfl rfl (fun _ hx => Or.inl hx) fun _ hr => Or.inl hr
    · cases hn
  | keepLen =>
    simp only [BufferedSys.next] at hn
    split at hn
    · rename_i hj
      obtain ⟨r, hr, rfl⟩ := Option.map_eq_some_iff.mp hn
      exact h.keepLen hj hr
    · cases hn
  | gate ev =>
    simp only [BufferedSys.next] at hn
    split at hn
    · rename_i hcall
      obtain ⟨g, hg, rfl⟩ := Option.map_eq_some_iff.mp hn
      exact h.afterGate hcall hg
    · cases hn

/-- The file after a step that wrote this much. -/
def landWrite (w : Option (ℕ × Bytes)) (f : Bytes) : Bytes :=
  match w with
  | none => f
  | some (pos, data) => overlay f pos data

section

variable (geo : Geometry) (crc : Crc) (s : LogSys) (t : Tid) (f : Bytes)

theorem callAppend_file (payload : Bytes) :
    LogSys.callAppend geo crc { s with file := f } t payload =
      { s.callAppend geo crc t payload with file := f } := by
  unfold LogSys.callAppend
  split
  · rfl
  · split
    · split <;> rfl
    · rfl

theorem lockAppend_file (payload : Bytes) (frame : Option Bytes) (frameSize : ℕ)
    (alloc : Option IoError) :
    LogSys.lockAppend geo crc { s with file := f } t payload frame frameSize alloc =
      { s.lockAppend geo crc t payload frame frameSize alloc with file := f } := by
  unfold LogSys.lockAppend
  dsimp only
  split <;> rfl

theorem callBatch_file (records : List Bytes) :
    LogSys.callBatch geo crc { s with file := f } t records =
      { s.callBatch geo crc t records with file := f } := by
  unfold LogSys.callBatch
  dsimp only
  split <;> rfl

theorem finishRotate_file (payload : Bytes) (frame : Option Bytes) (frameSize : ℕ)
    (w : SlotWrite) (result : Except IoError Unit) :
    LogSys.finishRotate { s with file := f } t payload frame frameSize w result =
      { s.finishRotate t payload frame frameSize w result with file := f } := by
  unfold LogSys.finishRotate
  split <;> rfl

theorem finishOversize_file (payload : Bytes) (w : ScratchWrite) (result : Except IoError Unit) :
    LogSys.finishOversize { s with file := f } t payload w result =
      { s.finishOversize t payload w result with file := f } := by
  unfold LogSys.finishOversize
  split <;> rfl

end

/-- `flush_partial` writes once, or not at all. -/
theorem lockFlush_file (geo : Geometry) (s : LogSys) (t : Tid) (outcome : WriteOutcome) :
    ∃ w, ∀ f, LogSys.lockFlush geo { s with file := f } t outcome =
      { s.lockFlush geo t outcome with file := landWrite w f } := by
  unfold LogSys.lockFlush
  dsimp only
  split
  · exact ⟨none, fun _ => rfl⟩
  · split
    · exact ⟨none, fun _ => rfl⟩
    · rename_i pos data _
      cases outcome with
      | done => exact ⟨some (pos, data), fun _ => rfl⟩
      | failed landed e => exact ⟨some (pos, data.take landed), fun _ => rfl⟩

/-- A step of the log buffer never looks at the file: it writes to it at most once, and what
it writes and does otherwise is the same whatever the file holds. -/
theorem next_file {geo : Geometry} {crc : Crc} {s s' : LogSys} {a : LogAction}
    (hn : s.next geo crc a = some s') :
    ∃ w, ∀ f, LogSys.next geo crc { s with file := f } a =
      some { s' with file := landWrite w f } := by
  cases a with
  | callAppend t payload =>
    refine ⟨none, fun f => ?_⟩
    simp only [LogSys.next] at hn ⊢
    split at hn
    · cases hn
      rw [callAppend_file]
      rfl
    · cases hn
  | lockAppend t alloc =>
    refine ⟨none, fun f => ?_⟩
    simp only [LogSys.next] at hn ⊢
    split at hn
    · cases hn
      rw [lockAppend_file]
      rfl
    · cases hn
  | land t outcome =>
    simp only [LogSys.next] at hn ⊢
    split at hn
    · cases hn
      cases outcome with
      | done => exact ⟨some (_, _), fun _ => rfl⟩
      | failed landed e => exact ⟨some (_, _), fun _ => rfl⟩
    · cases hn
      cases outcome with
      | done => exact ⟨some (_, _), fun _ => rfl⟩
      | failed landed e => exact ⟨some (_, _), fun _ => rfl⟩
    · cases hn
  | finish t =>
    refine ⟨none, fun f => ?_⟩
    simp only [LogSys.next] at hn ⊢
    split at hn
    · cases hn
      rw [finishRotate_file]
      rfl
    · cases hn
      rw [finishOversize_file]
      rfl
    · cases hn
  | callBatch t records =>
    refine ⟨none, fun f => ?_⟩
    simp only [LogSys.next] at hn ⊢
    split at hn
    · split at hn
      · rename_i hrecords
        cases hn
        rw [if_pos hrecords, callBatch_file]
        rfl
      · cases hn
    · cases hn
  | callFlush t =>
    refine ⟨none, fun f => ?_⟩
    simp only [LogSys.next] at hn ⊢
    split at hn
    · cases hn
      rfl
    · cases hn
  | lockFlush t outcome =>
    simp only [LogSys.next] at hn ⊢
    split at hn
    · split at hn
      · cases hn
      · rename_i hidle
        cases hn
        obtain ⟨w, hw⟩ := lockFlush_file geo s t outcome
        refine ⟨w, fun f => ?_⟩
        rw [if_neg hidle, hw]
    · cases hn

/-- While no write is in flight, a step that does not take the lock leaves buffer and file
alone. -/
theorem next_unlocked {geo : Geometry} {crc : Crc} {s s' : LogSys} {a : LogAction}
    (hlocks : a.locks = false) (hidle : ∀ t, (s.pc t).writing = false)
    (hn : s.next geo crc a = some s') : s'.buf = s.buf ∧ s'.file = s.file := by
  cases a with
  | callAppend t payload =>
    simp only [LogSys.next] at hn
    split at hn
    · cases hn
      rcases callAppend_shape geo crc s t payload with ⟨frame, size, heq⟩ | ⟨-, e, heq⟩
      · rw [heq]
        exact ⟨rfl, rfl⟩
      · rw [heq]
        exact ⟨rfl, rfl⟩
    · cases hn
  | land t outcome =>
    have ht := hidle t
    simp only [LogSys.next] at hn
    split at hn
    · rename_i hpc
      rw [hpc] at ht
      cases ht
    · rename_i hpc
      rw [hpc] at ht
      cases ht
    · cases hn
  | callFlush t =>
    simp only [LogSys.next] at hn
    split at hn
    · cases hn
      exact ⟨rfl, rfl⟩
    · cases hn
  | _ => cases hlocks

/-- The journal in Direct mode and a log buffer that has taken the same steps without any
preallocation: they differ in zeros at the end of the file, and in nothing once all calls
have been measured and none has stranded zeros. -/
structure Shadows (plain : LogSys) (s : QuiescedSys) : Prop where
  same : plain = { s.sys with file := plain.file }
  padded : ∃ k, s.sys.file = plain.file ++ zeros k
  sole : Sole s.sys
  quiet : ∀ h, s.holder = some h → s.sys.buf.flushing.isSome = false
  holds : ∀ h, s.holder = some h → h.pos.Holds h.call h.held s.sys.file
  held : ∀ h, s.holder = some h → ∃ k, h.held = plain.file ++ zeros k
  calls : ∀ r ∈ s.calls, r.call.Leaves r.held r.left
  trim : (∀ r ∈ s.calls, r.call.Measured ∧ ¬r.call.Strands r.held) →
    (s.holder = none → s.sys.file = plain.file) ∧ ∀ h, s.holder = some h → h.held = plain.file

theorem padded_landWrite {f g : Bytes} (h : ∃ k, g = f ++ zeros k) (w : Option (ℕ × Bytes)) :
    ∃ k, landWrite w g = landWrite w f ++ zeros k := by
  cases w with
  | none => exact h
  | some w =>
    obtain ⟨k, rfl⟩ := h
    exact overlay_append_zeros f w.2 w.1 k

theorem no_holder {α : Type} {P : α → Prop} : ∀ x, (none : Option α) = some x → P x := by
  intro x hx
  cases hx

theorem padded_trans {f g h : Bytes} (h1 : ∃ k, g = f ++ zeros k) (h2 : ∃ k, h = g ++ zeros k) :
    ∃ k, h = f ++ zeros k := by
  obtain ⟨k, rfl⟩ := h1
  obtain ⟨m, rfl⟩ := h2
  exact ⟨k + m, by rw [List.append_assoc, zeros_append]⟩

variable {geo : Geometry} {crc : Crc} {plain : LogSys} {q q' : QuiescedSys}

/-- A step of the log buffer is one of its shadow. -/
theorem Shadows.log (h : Shadows plain q) {a : LogAction} {sys : LogSys}
    (hlock : ¬(a.locks = true ∧ q.holder.isSome = true)) (hn : q.sys.next geo crc a = some sys) :
    ∃ plain', plain.next geo crc a = some plain' ∧ Shadows plain' { q with sys := sys } := by
  obtain ⟨w, hw⟩ := next_file hn
  have hfile : sys.file = landWrite w q.sys.file := by
    have hself := hw q.sys.file
    rw [show ({ q.sys with file := q.sys.file } : LogSys) = q.sys from rfl, hn] at hself
    exact congrArg LogSys.file (Option.some.inj hself)
  have hplain := hw plain.file
  rw [← h.same] at hplain
  have hsole := h.sole.next geo crc a hn
  have hfree : ∀ x, q.holder = some x → a.locks = false := by
    intro x hx
    rw [hx] at hlock
    cases hl : a.locks with
    | false => rfl
    | true => exact absurd ⟨hl, rfl⟩ hlock
  have hidle : ∀ x, q.holder = some x → ∀ t, (q.sys.pc t).writing = false :=
    fun x hx => h.sole.none_of_idle (h.quiet x hx)
  have hheld : ∀ x, q.holder = some x → sys.buf = q.sys.buf ∧ sys.file = q.sys.file :=
    fun x hx => next_unlocked (hfree x hx) (hidle x hx) hn
  -- with the lock taken nothing was written, to the shadow's file neither
  have hstays : ∀ x, q.holder = some x → landWrite w plain.file = plain.file := by
    intro x hx
    have hpc : plain.pc = q.sys.pc := by rw [h.same]
    refine (next_unlocked (hfree x hx) ?_ hplain).2
    rw [hpc]
    exact hidle x hx
  refine ⟨_, hplain, rfl, ?_, hsole, ?_, ?_, ?_, h.calls, ?_⟩
  · rw [hfile]
    exact padded_landWrite h.padded w
  · intro x hx
    rw [(hheld x hx).1]
    exact h.quiet x hx
  · intro x hx
    rw [(hheld x hx).2]
    exact h.holds x hx
  · intro x hx
    show ∃ k, x.held = landWrite w plain.file ++ zeros k
    rw [hstays x hx]
    exact h.held x hx
  · intro hall
    refine ⟨?_, ?_⟩
    · intro hnone
      show sys.file = landWrite w plain.file
      rw [hfile, (h.trim hall).1 hnone]
    · intro x hx
      show x.held = landWrite w plain.file
      rw [hstays x hx]
      exact (h.trim hall).2 x hx

theorem Shadows.keepLen (h : Shadows plain q) {x : Quiesced} {r : KeepLen × Bytes}
    (hx : q.holder = some x) (hn : x.pos.next x.call q.sys.file = some r) :
    Shadows plain { q with
      holder := some { x with pos := r.1 }, sys := { q.sys with file := r.2 } } := by
  have hafter := (h.holds x hx).next hn
  have hidle := h.sole.none_of_idle (h.quiet x hx)
  refine ⟨h.same, padded_trans (h.held x hx) hafter.padded, sole_of_none hidle, ?_, ?_, ?_,
    h.calls, ?_⟩
  · intro y hy
    exact h.quiet x hx
  · intro y hy
    cases hy
    exact hafter
  · intro y hy
    cases hy
    exact h.held x hx
  · intro hall
    constructor
    · intro hnone
      cases hnone
    · intro y hy
      cases hy
      exact (h.trim hall).2 x hx

theorem Shadows.release (h : Shadows plain q) {call : PreallocCall} {held : Bytes}
    {r : Except IoError Unit} (hx : q.holder = some ⟨call, held, .returned r⟩) :
    Shadows plain { q with
      holder := none, calls := q.calls ++ [⟨call, held, q.sys.file, r⟩] } := by
  have hleaves : call.Leaves held q.sys.file := h.holds _ hx
  refine ⟨h.same, h.padded, h.sole, no_holder, no_holder, no_holder, ?_, ?_⟩
  · intro y hy
    rcases List.mem_append.mp hy with hold | hnew
    · exact h.calls y hold
    · obtain rfl := List.mem_singleton.mp hnew
      exact hleaves
  · intro hall
    refine ⟨fun _ => ?_, no_holder⟩
    obtain ⟨hmeasured, hstrands⟩ := hall _ (List.mem_append_right _ (List.mem_singleton.mpr rfl))
    obtain ⟨k, hk, hzero⟩ := hleaves
    have hheld : held = plain.file :=
      (h.trim fun y hy => hall y (List.mem_append_left _ hy)).2 _ hx
    rw [(hzero hmeasured).mpr hstrands, zeros_zero, List.append_nil, hheld] at hk
    exact hk

/-- A step of the log buffer that satisfies `ok`, or a step of a preallocation. -/
def QuiescedAction.lift (ok : LogAction → Prop) : QuiescedAction → Prop
  | .log a => ok a
  | _ => True

theorem Shadows.next {ok : LogAction → Prop} (h : Shadows plain q) (act : QuiescedAction)
    (hact : act.lift ok) (hn : q.next geo crc act = some q') :
    Shadows plain q' ∨
      ∃ a plain', ok a ∧ plain.next geo crc a = some plain' ∧ Shadows plain' q' := by
  cases act with
  | log a =>
    simp only [QuiescedSys.next] at hn
    split at hn
    · cases hn
    · rename_i hlock
      obtain ⟨sys, hsys, rfl⟩ := Option.map_eq_some_iff.mp hn
      obtain ⟨plain', hplain, hs⟩ := h.log hlock hsys
      exact Or.inr ⟨a, plain', hact, hplain, hs⟩
  | quiesce c =>
    simp only [QuiescedSys.next] at hn
    split at hn
    · cases hn
    · rename_i hfree
      rw [not_or] at hfree
      have hnone : q.holder = none := by simpa using hfree.1
      cases hn
      refine Or.inl ⟨h.same, h.padded, h.sole, ?_, ?_, ?_, h.calls, ?_⟩
      · intro y hy
        simpa using hfree.2
      · intro y hy
        cases hy
        rfl
      · intro y hy
        cases hy
        exact h.padded
      · intro hall
        constructor
        · intro hsome
          cases hsome
        · intro y hy
          cases hy
          exact (h.trim hall).1 hnone
  | keepLen =>
    simp only [QuiescedSys.next] at hn
    split at hn
    · rename_i x hx
      obtain ⟨r, hr, rfl⟩ := Option.map_eq_some_iff.mp hn
      exact Or.inl (h.keepLen hx hr)
    · cases hn
  | release =>
    simp only [QuiescedSys.next] at hn
    split at hn
    · rename_i hx
      cases hn
      exact Or.inl (h.release hx)
    · cases hn

/-- What `flush_partial` covered is in the file, whatever has been preallocated. -/
theorem Shadows.flushed {resume junk : Bytes} (h : Shadows plain q)
    (hinv : LogInv geo crc resume junk plain) (stop : ℕ) (hstop : stop ∈ q.sys.flushedEnds) :
    q.sys.file.take stop = (q.sys.logical crc resume).take stop := by
  have hends : q.sys.flushedEnds = plain.flushedEnds := by rw [h.same]; rfl
  have hlogical : q.sys.logical crc resume = plain.logical crc resume := by rw [h.same]; rfl
  rw [hends] at hstop
  obtain ⟨hle, htake, -⟩ := hinv.flushed_stays Reach.start stop hstop
  have hlen : stop ≤ plain.file.length := by
    have heq := congrArg List.length htake
    rw [List.length_take, List.length_take, hinv.buf.len_eq] at heq
    omega
  obtain ⟨k, hk⟩ := h.padded
  rw [hk, List.take_append_of_le_length hlen, hlogical, htake]

/-! ### Both modes -/

end Fsys.Journal
