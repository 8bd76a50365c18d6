import Fsys.Async.CompletionDriver
import Mathlib.Tactic.Tauto

/-!
# The life of an op (src/async_io/completion_driver.rs:447-591)

What happens to one op is a word over `Event`: rounds of a chunk and the count the
kernel reported for it, then one ending. `Rounds` and `Outcome` give the words the
driver can produce; this module says what such a word means for the caller: which
bytes were written, what is replied and when the hook is called.
-/

namespace Fsys.Async
open Fsys.Base

/-! ### Rounds of a write -/

/-- Chunks from byte `d` to byte `d'` of an op, each with the positive count reported. -/
inductive Rounds (id : ℕ) (op : InFlight) : ℕ → List Event → ℕ → Prop where
  | nil (d : ℕ) : Rounds id op d [] d
  | cons {d d' n : ℕ} {io : List Event} {buf : IoBuf} {e : Sqe} (hbuf : op.buf = some buf)
      (hd : d < buf.length) (he : sqeFor id (op.upTo d) = some e) (hn : 0 < n)
      (hle : n ≤ e.asked) (h : Rounds id op (d + n) io d') :
      Rounds id op d (.pushed e :: .completed n :: io) d'

/-- What the ring did for an op, and the result it is finished with. -/
inductive Outcome (id : ℕ) (op : InFlight) : List Event → IoResult → Prop where
  | full {io : List Event} {buf : IoBuf} (hbuf : op.buf = some buf)
      (h : Rounds id op 0 io buf.length) : Outcome id op io (.ok buf.length)
  | refused {io : List Event} {d : ℕ} (h : Rounds id op 0 io d)
      (hd : ∀ buf, op.buf = some buf → d < buf.length) (errno : ℤ) :
      Outcome id op io (.error errno)
  | failed {io : List Event} {d : ℕ} {e : Sqe} (h : Rounds id op 0 io d)
      (hd : ∀ buf, op.buf = some buf → d < buf.length)
      (he : sqeFor id (op.upTo d) = some e) {res : ℤ} (hres : res < 0) :
      Outcome id op (io ++ [.pushed e, .completed res]) (.error (saturatingNeg res))
  | stuck {io : List Event} {d : ℕ} {buf : IoBuf} {e : Sqe} (hbuf : op.buf = some buf)
      (h : Rounds id op 0 io d) (hd : d < buf.length)
      (he : sqeFor id (op.upTo d) = some e) :
      Outcome id op (io ++ [.pushed e, .completed 0]) (.ok d)
  | synced {e : Sqe} (hbuf : op.buf = none) (he : sqeFor id (op.upTo 0) = some e) {res : ℤ}
      (hres : 0 ≤ res) : Outcome id op [.pushed e, .completed res] (.ok 0)

variable {id : ℕ} {op : InFlight} {d d' : ℕ} {io : List Event}

@[simp] theorem upTo_done (op : InFlight) (n : ℕ) : (op.upTo n).done = n := rfl

@[simp] theorem upTo_offset (op : InFlight) (n : ℕ) : (op.upTo n).offset = op.offset := rfl

@[simp] theorem upTo_buf (op : InFlight) (n : ℕ) : (op.upTo n).buf = op.buf := rfl

@[simp] theorem upTo_key (op : InFlight) (n : ℕ) : (op.upTo n).key = op.key := rfl

@[simp] theorem upTo_upTo (op : InFlight) (n m : ℕ) : (op.upTo n).upTo m = op.upTo m := rfl

@[simp] theorem finish_upTo (op : InFlight) (n : ℕ) (r : IoResult) :
    (op.upTo n).finish r = op.finish r := rfl

@[simp] theorem abandon_upTo (op : InFlight) (n : ℕ) : (op.upTo n).abandon = op.abandon := rfl

theorem Rounds.snoc (h : Rounds id op d io d') {buf : IoBuf} {e : Sqe} {n : ℕ}
    (hbuf : op.buf = some buf) (hd : d' < buf.length)
    (he : sqeFor id (op.upTo d') = some e) (hn : 0 < n) (hle : n ≤ e.asked) :
    Rounds id op d (io ++ [.pushed e, .completed n]) (d' + n) := by
  induction h with
  | nil d => exact .cons hbuf hd he hn hle (.nil _)
  | cons hbuf' hd' he' hn' hle' _ ih => exact .cons hbuf' hd' he' hn' hle' (ih hd he)

/-- The entry of a write is the slice behind what is done, cut at the longest entry. -/
theorem sqeFor_write {buf : IoBuf} {e : Sqe} (h : sqeFor id op = some e)
    (hbuf : op.buf = some buf) :
    e.userData = id ∧ e.op = .write (op.offset + op.done) ((buf.bytes.drop op.done).take maxSqeLen) ∧
      op.done ≤ buf.length := by
  unfold sqeFor at h
  simp only [hbuf] at h
  split at h
  · cases h
  · split at h
    · cases h
      exact ⟨rfl, rfl, by omega⟩
    · cases h

theorem sqeFor_fsync {e : Sqe} (h : sqeFor id op = some e) (hbuf : op.buf = none) :
    e = ⟨id, op.file.fd, .fsync⟩ := by
  unfold sqeFor at h
  simp only [hbuf] at h
  exact (Option.some.inj h).symm

theorem sqeFor_userData {e : Sqe} (h : sqeFor id op = some e) : e.userData = id := by
  cases hbuf : op.buf with
  | none => rw [sqeFor_fsync h hbuf]
  | some buf => exact (sqeFor_write h hbuf).1

theorem asked_write {buf : IoBuf} {e : Sqe} (h : sqeFor id op = some e)
    (hbuf : op.buf = some buf) : e.asked = min maxSqeLen (buf.length - op.done) := by
  obtain ⟨-, hop, -⟩ := sqeFor_write h hbuf
  simp only [Sqe.asked, hop, List.length_take, List.length_drop, IoBuf.length]

/-- The count a completion at the head reports. -/
def firstCount : List Event → ℕ
  | .completed res :: _ => res.toNat
  | _ => 0

/-- The chunks of an op with the bytes the kernel reported for each. -/
def spans : List Event → List (ℕ × ℕ)
  | [] => []
  | event :: events =>
    match event with
    | .pushed ⟨_, _, .write offset _⟩ => (offset, firstCount events) :: spans events
    | _ => spans events

/-- Spans that follow each other from `pos` on. -/
def Tiles (pos : ℕ) : List (ℕ × ℕ) → Prop
  | [] => True
  | (start, n) :: rest => start = pos ∧ Tiles (pos + n) rest

/-- The bytes the kernel reported written. -/
def reported (events : List Event) : ℕ := ((spans events).map Prod.snd).sum

theorem spans_pushed_write {e : Sqe} {offset : ℕ} {data : Bytes} (h : e.op = .write offset data)
    (events : List Event) :
    spans (.pushed e :: events) = (offset, firstCount events) :: spans events := by
  obtain ⟨userData, fd, op⟩ := e
  cases h
  rfl

@[simp] theorem spans_completed (res : ℤ) (events : List Event) :
    spans (.completed res :: events) = spans events := rfl

/-- Rounds tile the file from where they start, and what they report is what got done. -/
theorem Rounds.spans (h : Rounds id op d io d') (tail : List Event) :
    (Tiles (op.offset + d') (spans tail) → Tiles (op.offset + d) (spans (io ++ tail))) ∧
      reported (io ++ tail) + d = reported tail + d' := by
  induction h with
  | nil d => exact ⟨fun h => h, rfl⟩
  | cons hbuf hd he hn hle _ ih =>
    obtain ⟨htiles, hsum⟩ := ih
    obtain ⟨-, hop, -⟩ := sqeFor_write he hbuf
    simp only [List.cons_append, reported, spans_pushed_write hop, spans_completed, firstCount,
      Int.toNat_natCast, Tiles, List.map_cons, List.sum_cons, upTo_offset, upTo_done,
      true_and] at hsum ⊢
    refine ⟨fun h => ?_, by omega⟩
    rw [Nat.add_assoc]
    exact htiles h

/-! ### What an op can have been through -/

/-- Ring events only: nothing was done to the parts of the op. -/
def RingOnly (io : List Event) : Prop :=
  ∀ ev ∈ io, (∃ e, ev = .pushed e) ∨ ∃ res, ev = .completed res

theorem Rounds.ringOnly (h : Rounds id op d io d') : RingOnly io := by
  induction h with
  | nil d => exact nofun
  | cons _ _ _ _ _ _ ih =>
    intro ev hev
    rcases List.mem_cons.mp hev with rfl | hev
    · exact .inl ⟨_, rfl⟩
    · rcases List.mem_cons.mp hev with rfl | hev
      · exact .inr ⟨_, rfl⟩
      · exact ih ev hev

/-- Every entry pushed is an entry of the op. -/
def PushedFor (id : ℕ) (op : InFlight) (events : List Event) : Prop :=
  ∀ e, .pushed e ∈ events → ∃ n, sqeFor id (op.upTo n) = some e

theorem Rounds.pushedFor (h : Rounds id op d io d') : PushedFor id op io := by
  intro e he
  induction h with
  | nil d => cases he
  | cons _ _ hsqe _ _ _ ih =>
    rcases List.mem_cons.mp he with heq | he
    · cases heq
      exact ⟨_, hsqe⟩
    · rcases List.mem_cons.mp he with heq | he
      · cases heq
      · exact ih he

theorem PushedFor.append {a b : List Event} (ha : PushedFor id op a) (hb : PushedFor id op b) :
    PushedFor id op (a ++ b) := by
  intro e he
  rcases List.mem_append.mp he with he | he
  · exact ha e he
  · exact hb e he

theorem PushedFor.cons {e : Sqe} {events : List Event} {n : ℕ}
    (he : sqeFor id (op.upTo n) = some e) (h : PushedFor id op events) :
    PushedFor id op (.pushed e :: events) := by
  intro e' he'
  rcases List.mem_cons.mp he' with heq | htail
  · cases heq
    exact ⟨n, he⟩
  · exact h e' htail

theorem asked_le {e : Sqe} (h : sqeFor id op = some e) : e.asked ≤ maxSqeLen := by
  cases hbuf : op.buf with
  | none =>
    rw [sqeFor_fsync h hbuf]
    exact Nat.zero_le _
  | some buf =>
    rw [asked_write h hbuf]
    exact Nat.min_le_left _ _

/-! ### What the caller is owed -/

/-- A call of the hook. -/
def Event.isHook : Event → Bool
  | .finished _ => true
  | .abandoned => true
  | _ => false

def hookCalls (events : List Event) : List Event := events.filter Event.isHook

/-- Neither the keep-alive nor the reply was touched. -/
def Untouched (events : List Event) : Prop :=
  .dropFile ∉ events ∧ .dropReply ∉ events ∧ ∀ r, .reply r ∉ events

/-- What the ring did for an op, and what the caller is told of it. -/
structure Transferred (req : Op) (events : List Event) : Prop where
  /-- Entries are no longer than the kernel takes. -/
  chunks : ∀ e, .pushed e ∈ events → e.asked ≤ maxSqeLen
  /-- The chunks of a write are slices of its buffer at their place in the file. -/
  slices : ∀ file buf offset e, req = .write file buf offset → .pushed e ∈ events →
    ∃ n, e.op = .write (offset + n) ((buf.bytes.drop n).take maxSqeLen) ∧ n ≤ buf.length
  /-- The chunks, as far as the kernel reported them, tile what the op was to write. -/
  tiles : ∀ file buf offset, req = .write file buf offset →
    Tiles offset (spans events) ∧ reported events ≤ buf.length
  /-- A write returns its length exactly when all of it was reported, and less only
  after a completion without progress. -/
  result : ∀ file buf offset r, req = .write file buf offset → .reply r ∈ events →
    (r = .ok buf.length ↔ reported events = buf.length) ∧
      ∀ n, r = .ok n → n ≠ buf.length →
        n < buf.length ∧ n = reported events ∧ .completed 0 ∈ events

variable {key : ℕ} {req : Op}

/-- Events of an ending: nothing of the ring. -/
def EndOnly (events : List Event) : Prop :=
  ∀ ev ∈ events, (∀ e, ev ≠ .pushed e) ∧ ∀ res, ev ≠ .completed res

theorem spans_endOnly {tail : List Event} (h : EndOnly tail) : spans tail = [] := by
  induction tail with
  | nil => rfl
  | cons ev tail ih =>
    have hrest := ih fun x hx => h x (List.mem_cons_of_mem _ hx)
    have hev := (h ev List.mem_cons_self).1
    cases ev with
    | pushed e => exact absurd rfl (hev e)
    | _ => exact hrest

theorem firstCount_endOnly {tail : List Event} (h : EndOnly tail) : firstCount tail = 0 := by
  cases tail with
  | nil => rfl
  | cons ev tail =>
    have hev := (h ev List.mem_cons_self).2
    cases ev with
    | completed res => exact absurd rfl (hev res)
    | _ => rfl

/-- Bytes of a write behind its rounds and an ending. -/
theorem Rounds.accounts (h : Rounds id op 0 io d) {tail : List Event} (htail : EndOnly tail) :
    Tiles op.offset (Async.spans (io ++ tail)) ∧ reported (io ++ tail) = d := by
  obtain ⟨htiles, hsum⟩ := h.spans tail
  have hnil := spans_endOnly htail
  rw [Nat.add_zero] at htiles hsum
  refine ⟨htiles ?_, ?_⟩
  · rw [hnil]
    trivial
  · rw [hsum, reported, hnil, List.map_nil, List.sum_nil, Nat.zero_add]

/-- Bytes of a write behind its rounds and one more chunk for which nothing was reported. -/
theorem Rounds.accounts_chunk (h : Rounds id op 0 io d) {buf : IoBuf} (hbuf : op.buf = some buf)
    {e : Sqe} (he : sqeFor id (op.upTo d) = some e) (tail : List Event) (hs : Async.spans tail = [])
    (hc : firstCount tail = 0) :
    Tiles op.offset (Async.spans (io ++ .pushed e :: tail)) ∧
      reported (io ++ .pushed e :: tail) = d := by
  obtain ⟨htiles, hsum⟩ := h.spans (.pushed e :: tail)
  obtain ⟨-, hop, -⟩ := sqeFor_write he hbuf
  have hspan := spans_pushed_write hop tail
  rw [hs, hc] at hspan
  rw [Nat.add_zero] at htiles hsum
  refine ⟨htiles ?_, ?_⟩
  · rw [hspan]
    exact ⟨rfl, trivial⟩
  · rw [hsum, reported, hspan]
    simp

theorem mem_finish {ev : Event} {r : IoResult} (h : ev ∈ op.finish r) :
    ev = .finished r ∨ ev = .dropBuf ∨ ev = .dropFile ∨ ev = .reply r := by
  obtain ⟨key, ⟨fd, owner⟩, buf, done, offset⟩ := op
  cases owner <;> cases buf <;> simp [InFlight.finish, FileRef.finished] at h <;> tauto

theorem mem_abandon {ev : Event} (h : ev ∈ op.abandon) :
    ev = .abandoned ∨ ev = .leakBuf ∨ ev = .leakFile ∨ ev = .dropReply := by
  obtain ⟨key, ⟨fd, owner⟩, buf, done, offset⟩ := op
  cases owner <;> cases buf <;> simp [InFlight.abandon, FileRef.abandoned] at h <;> tauto

theorem finish_endOnly (op : InFlight) (r : IoResult) : EndOnly (op.finish r) := by
  intro ev hev
  rcases mem_finish hev with rfl | rfl | rfl | rfl
  all_goals exact ⟨nofun, nofun⟩

theorem abandon_endOnly (op : InFlight) : EndOnly op.abandon := by
  intro ev hev
  rcases mem_abandon hev with rfl | rfl | rfl | rfl
  all_goals exact ⟨nofun, nofun⟩

theorem EndOnly.pushedFor {events : List Event} (h : EndOnly events) : PushedFor id op events :=
  fun e he => absurd rfl ((h _ he).1 e)

theorem reply_mem_finish {r r' : IoResult} (h : .reply r' ∈ op.finish r) : r' = r := by
  rcases mem_finish h with heq | heq | heq | heq
  · cases heq
  · cases heq
  · cases heq
  · exact Event.reply.inj heq

/-- A word of ring events for the op with an account of its bytes. -/
theorem transferred_of_accounts {events : List Event} (hpush : PushedFor id (Driver.inFlight key req) events)
    (hacc : ∀ buf, (Driver.inFlight key req).buf = some buf →
      Tiles (Driver.inFlight key req).offset (spans events) ∧ reported events ≤ buf.length ∧
      ∀ r, .reply r ∈ events → (r = .ok buf.length ↔ reported events = buf.length) ∧
        ∀ n, r = .ok n → n ≠ buf.length →
          n < buf.length ∧ n = reported events ∧ .completed 0 ∈ events) :
    Transferred req events := by
  refine ⟨?_, ?_, ?_, ?_⟩
  · intro e he
    obtain ⟨n, hn⟩ := hpush e he
    exact asked_le hn
  · rintro file buf offset e rfl he
    obtain ⟨n, hn⟩ := hpush e he
    obtain ⟨-, hop, hle⟩ := sqeFor_write hn rfl
    exact ⟨n, hop, hle⟩
  · rintro file buf offset rfl
    exact ⟨(hacc buf rfl).1, (hacc buf rfl).2.1⟩
  · rintro file buf offset r rfl hr
    exact (hacc buf rfl).2.2 r hr

theorem ringOnly_chunk {e : Sqe} (h : RingOnly io) : RingOnly (io ++ [.pushed e]) := by
  intro ev hev
  rcases List.mem_append.mp hev with hev | hev
  · exact h ev hev
  · exact .inl ⟨e, List.mem_singleton.mp hev⟩

theorem ringOnly_round {e : Sqe} {res : ℤ} (h : RingOnly io) :
    RingOnly (io ++ [.pushed e, .completed res]) := by
  intro ev hev
  rcases List.mem_append.mp hev with hev | hev
  · exact h ev hev
  · simp only [List.mem_cons, List.not_mem_nil, or_false] at hev
    rcases hev with rfl | rfl
    · exact .inl ⟨e, rfl⟩
    · exact .inr ⟨res, rfl⟩

theorem Outcome.ringOnly {r : IoResult} (h : Outcome id op io r) : RingOnly io := by
  cases h with
  | full _ h => exact h.ringOnly
  | refused h _ _ => exact h.ringOnly
  | failed h _ _ _ => exact ringOnly_round h.ringOnly
  | stuck _ h _ _ => exact ringOnly_round h.ringOnly
  | synced _ _ _ => exact ringOnly_round (nofun : RingOnly [])

theorem Outcome.pushedFor {r : IoResult} (h : Outcome id op io r) : PushedFor id op io := by
  have hcompleted : ∀ res, PushedFor id op [.completed res] := by
    intro res e he
    cases List.mem_singleton.mp he
  cases h with
  | full _ h => exact h.pushedFor
  | refused h _ _ => exact h.pushedFor
  | failed h _ he _ => exact h.pushedFor.append (.cons he (hcompleted _))
  | stuck _ h _ he => exact h.pushedFor.append (.cons he (hcompleted _))
  | synced _ he _ => exact .cons he (hcompleted _)

/-- The bytes a finished write accounts for. -/
theorem Outcome.accounts {r : IoResult} (h : Outcome id op io r) {buf : IoBuf}
    (hbuf : op.buf = some buf) {tail : List Event} (htail : EndOnly tail) :
    Tiles op.offset (spans (io ++ tail)) ∧ reported (io ++ tail) ≤ buf.length ∧
      (r = .ok buf.length ↔ reported (io ++ tail) = buf.length) ∧
      ∀ n, r = .ok n → n ≠ buf.length →
        n < buf.length ∧ n = reported (io ++ tail) ∧ .completed 0 ∈ io ++ tail := by
  have hspans := spans_endOnly htail
  cases h with
  | full hbuf' h =>
    cases hbuf.symm.trans hbuf'
    obtain ⟨htiles, hsum⟩ := h.accounts htail
    refine ⟨htiles, Nat.le_of_eq hsum, iff_of_true rfl hsum, ?_⟩
    rintro n hn hne
    cases hn
    exact absurd rfl hne
  | @refused io d h hd errno =>
    obtain ⟨htiles, hsum⟩ := h.accounts htail
    have hlt := hd buf hbuf
    refine ⟨htiles, by omega, iff_of_false nofun (by omega), nofun⟩
  | @failed io d e h hd he res hneg =>
    rw [List.append_assoc]
    obtain ⟨htiles, hsum⟩ := h.accounts_chunk hbuf he (.completed res :: tail)
      (by rw [spans_completed, hspans]) (Int.toNat_of_nonpos (Int.le_of_lt hneg))
    have hlt := hd buf hbuf
    refine ⟨htiles, ?_, iff_of_false nofun ?_, nofun⟩
    · exact Nat.le_of_lt (hsum ▸ hlt)
    · exact fun heq => absurd (hsum.symm.trans heq) (Nat.ne_of_lt hlt)
  | @stuck io d buf' e hbuf' h hd he =>
    cases hbuf.symm.trans hbuf'
    rw [List.append_assoc]
    obtain ⟨htiles, hsum⟩ := h.accounts_chunk hbuf he (.completed 0 :: tail)
      (by rw [spans_completed, hspans]) rfl
    refine ⟨htiles, ?_, ?_, ?_⟩
    · exact Nat.le_of_lt (hsum ▸ hd)
    · refine iff_of_false ?_ ?_
      · intro heq
        exact absurd (Except.ok.inj heq) (Nat.ne_of_lt hd)
      · exact fun heq => absurd (hsum.symm.trans heq) (Nat.ne_of_lt hd)
    · rintro n hn -
      cases hn
      refine ⟨hd, hsum.symm, List.mem_append_right _ ?_⟩
      exact List.mem_cons_of_mem _ List.mem_cons_self
  | synced hbuf' _ _ => exact absurd (hbuf.symm.trans hbuf') nofun

/-! ### Calls of the hook -/

theorem hookCalls_append (a b : List Event) : hookCalls (a ++ b) = hookCalls a ++ hookCalls b :=
  List.filter_append _ _

theorem RingOnly.hookCalls (h : RingOnly io) : Async.hookCalls io = [] := by
  refine List.filter_eq_nil_iff.mpr ?_
  intro ev hev
  rcases h ev hev with ⟨e, rfl⟩ | ⟨res, rfl⟩
  all_goals simp [Event.isHook]

theorem RingOnly.untouched (h : RingOnly io) : Untouched io := by
  have hno : ∀ ev ∈ io, (∀ e, ev ≠ .pushed e) → (∀ res, ev ≠ .completed res) → False := by
    intro ev hev hp hc
    rcases h ev hev with ⟨e, rfl⟩ | ⟨res, rfl⟩
    · exact hp e rfl
    · exact hc res rfl
  exact ⟨fun hev => hno _ hev nofun nofun, fun hev => hno _ hev nofun nofun,
    fun r hev => hno _ hev nofun nofun⟩

theorem RingOnly.no_hook (h : RingOnly io) {ev : Event} (hev : ev ∈ io) : ev.isHook = false := by
  rcases h ev hev with ⟨e, rfl⟩ | ⟨res, rfl⟩
  all_goals rfl

theorem inFlight_file (key : ℕ) (req : Op) : (Driver.inFlight key req).file = req.file := by
  cases req <;> rfl

theorem finish_hookCalls (r : IoResult) (h : op.file.owner = .hooked) :
    hookCalls (op.finish r) = [.finished r] := by
  unfold hookCalls InFlight.finish FileRef.finished
  rw [h]
  cases op.buf <;> rfl

theorem abandon_hookCalls (h : op.file.owner = .hooked) : hookCalls op.abandon = [.abandoned] := by
  unfold hookCalls InFlight.abandon FileRef.abandoned
  rw [h]
  cases op.buf <;> rfl

theorem drop_hookCalls (req : Op) : hookCalls req.drop = [] := by
  cases req <;> rfl

/-- A word with one call of the hook splits there in one way. -/
theorem hook_split {a b before after : List Event} {x y : Event}
    (ha : ∀ ev ∈ a, ev.isHook = false) (hb : ∀ ev ∈ b, ev.isHook = false) (hy : y.isHook = true)
    (h : a ++ x :: b = before ++ y :: after) : a = before ∧ x = y ∧ b = after := by
  induction a generalizing before with
  | nil =>
    cases before with
    | nil =>
      cases h
      exact ⟨rfl, rfl, rfl⟩
    | cons z before =>
      have hrest : b = before ++ y :: after := (List.cons.inj h).2
      have hin : y ∈ b := hrest ▸ List.mem_append_right _ List.mem_cons_self
      exact absurd ((hb y hin).symm.trans hy) nofun
  | cons z a ih =>
    cases before with
    | nil =>
      have hz : z = y := (List.cons.inj h).1
      exact absurd ((hz ▸ ha z List.mem_cons_self).symm.trans hy) nofun
    | cons z' before =>
      obtain ⟨rfl, hrest⟩ := List.cons.inj h
      obtain ⟨rfl, hx, hb'⟩ := ih (fun ev hev => ha ev (List.mem_cons_of_mem _ hev)) hrest
      exact ⟨rfl, hx, hb'⟩

/-- What follows the call of the hook in `finish`. -/
def InFlight.release (op : InFlight) (r : IoResult) : List Event :=
  (if op.buf.isSome then [.dropBuf] else []) ++ [.dropFile, .reply r]

theorem finish_eq (op : InFlight) (r : IoResult) :
    op.finish r = op.file.finished r ++ op.release r := List.append_assoc _ _ _

theorem release_no_hook (r : IoResult) : ∀ ev ∈ op.release r, ev.isHook = false := by
  intro ev hev
  have hcases : ev = .dropBuf ∨ ev = .dropFile ∨ ev = .reply r := by
    unfold InFlight.release at hev
    split at hev
    · simpa using hev
    · exact .inr (by simpa using hev)
  rcases hcases with rfl | rfl | rfl
  all_goals rfl

/-- Where the hook is called in a finished op. -/
theorem finish_order {r r' : IoResult} {before after : List Event} (hio : RingOnly io)
    (h : io ++ op.finish r = before ++ .finished r' :: after) :
    Untouched before ∧ .dropFile ∈ after ∧ .reply r' ∈ after := by
  have hnone : ∀ ev ∈ io, ev.isHook = false := fun ev hev => hio.no_hook hev
  rw [finish_eq] at h
  cases howner : op.file.owner with
  | plain =>
    simp only [FileRef.finished, howner, List.nil_append] at h
    have hin : .finished r' ∈ io ++ op.release r := by
      rw [h]
      exact List.mem_append_right _ List.mem_cons_self
    rcases List.mem_append.mp hin with hin | hin
    · exact absurd (hnone _ hin) nofun
    · exact absurd (release_no_hook r _ hin) nofun
  | hooked =>
    simp only [FileRef.finished, howner, List.singleton_append] at h
    obtain ⟨rfl, hr, rfl⟩ := hook_split hnone (release_no_hook r) rfl h
    cases hr
    refine ⟨hio.untouched, ?_, ?_⟩
    · exact List.mem_append_right _ List.mem_cons_self
    · exact List.mem_append_right _ (List.mem_cons_of_mem _ List.mem_cons_self)

theorem transferred_of_endOnly {events : List Event} (h : EndOnly events)
    (hr : ∀ r, .reply r ∉ events) : Transferred req events := by
  have hspans := spans_endOnly h
  refine ⟨fun e he => absurd rfl ((h _ he).1 e), fun _ _ _ e _ he => absurd rfl ((h _ he).1 e), ?_,
    fun _ _ _ r _ hmem => absurd hmem (hr r)⟩
  intro file buf offset _
  rw [hspans, reported, hspans]
  exact ⟨trivial, Nat.zero_le _⟩

theorem drop_endOnly (req : Op) : EndOnly req.drop := by
  intro ev hev
  cases req
  all_goals
    simp only [Op.drop, List.mem_cons, List.not_mem_nil, or_false] at hev
    rcases hev with rfl | rfl | rfl
  all_goals exact ⟨nofun, nofun⟩

theorem drop_no_hook (req : Op) : ∀ ev ∈ req.drop, ev.isHook = false := by
  intro ev hev
  have hnil := List.filter_eq_nil_iff.mp (drop_hookCalls req) ev hev
  simpa using hnil

theorem no_finished {events before after : List Event} {r : IoResult}
    (hno : ∀ ev ∈ events, ev.isHook = false) : events ≠ before ++ .finished r :: after := by
  intro heq
  have hin : .finished r ∈ events := heq ▸ List.mem_append_right _ List.mem_cons_self
  exact absurd (hno _ hin) nofun

/-- A write with a chunk on its way. -/
theorem Rounds.transferred {e : Sqe} {tail : List Event}
    (h : Rounds id (Driver.inFlight key req) 0 io d)
    (hd : ∀ buf, (Driver.inFlight key req).buf = some buf → d < buf.length)
    (he : sqeFor id ((Driver.inFlight key req).upTo d) = some e) (htail : EndOnly tail)
    (hr : ∀ r, .reply r ∉ tail) : Transferred req (io ++ .pushed e :: tail) := by
  refine transferred_of_accounts (h.pushedFor.append (.cons he htail.pushedFor)) ?_
  intro buf hbuf
  obtain ⟨htiles, hsum⟩ := h.accounts_chunk hbuf he tail (spans_endOnly htail)
    (firstCount_endOnly htail)
  have hlt := hd buf hbuf
  refine ⟨htiles, by omega, ?_⟩
  intro r hmem
  rcases List.mem_append.mp hmem with hmem | hmem
  · exact absurd hmem (h.ringOnly.untouched.2.2 r)
  · rcases List.mem_cons.mp hmem with heq | hmem
    · cases heq
    · exact absurd hmem (hr r)

theorem Outcome.transferred {r : IoResult} (h : Outcome id (Driver.inFlight key req) io r) :
    Transferred req (io ++ (Driver.inFlight key req).finish r) := by
  have hend := finish_endOnly (Driver.inFlight key req) r
  refine transferred_of_accounts (h.pushedFor.append hend.pushedFor) ?_
  intro buf hbuf
  obtain ⟨htiles, hle, hiff, hshort⟩ := h.accounts hbuf hend
  refine ⟨htiles, hle, ?_⟩
  intro r' hmem
  rcases List.mem_append.mp hmem with hmem | hmem
  · exact absurd hmem (h.ringOnly.untouched.2.2 r')
  · rw [reply_mem_finish hmem]
    exact ⟨hiff, hshort⟩

end Fsys.Async
