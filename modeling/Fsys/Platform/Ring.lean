import Fsys.Platform.WriteLoops

/-!
# The linked write and fsync of the ring

`platform/linux_iouring.rs:226-321, 395-530, 642-690`. An operation puts a chain of
entries into the submission queue and waits for the completion of each. The kernel
takes entries off the queue in batches. Within a batch it starts an entry that is
linked to the one before it when that one has completed; a link between two batches
is none. It completes a write with at most the bytes it was asked for and refuses
one whose range does not fit an `i64`; for the rest its answers are arbitrary.
`State.log` has the completions in the order the kernel made them.
-/

namespace Fsys.Ring
open Fsys.Base Fsys.Platform

/-! ### Entries and the kernel -/

/-- A submission queue entry. A write names its memory by address; `linked` is
`IOSQE_IO_LINK`. -/
inductive Sqe where
  | write (ptr len offset : ℕ) (linked : Bool)
  | fsync
  deriving DecidableEq

def Sqe.linked : Sqe → Bool
  | .write _ _ _ linked => linked
  | .fsync => false

/-- Where a write goes: offset `-1` is the position of the open file. -/
inductive Place where
  | fixed (pos : ℕ)
  | current
  | refused

def place (len offset : ℕ) : Place :=
  let pos := asI64 offset
  if pos = -1 then .current
  else if pos < 0 ∨ 2 ^ 63 ≤ pos + len then .refused
  else .fixed pos.toNat

def einval : ℤ := 22

/-- The result of an entry, a count or `-errno`. -/
def Sqe.result : Sqe → ℤ → ℤ
  | .write _ len offset _, res =>
    match place len offset with
    | .refused => -einval
    | _ => min res len
  | .fsync, res => res

/-- The file behind a completion, with the position it is open at. -/
def store (mem : ℕ → UInt8) : Sqe × ℤ → ℕ × (ℕ → UInt8) → ℕ × (ℕ → UInt8)
  | (.write ptr len offset _, res), (cur, file) =>
    let put (pos : ℕ) : ℕ → UInt8 :=
      fun p => if pos ≤ p ∧ p < pos + res.toNat then mem (ptr + (p - pos)) else file p
    match place len offset with
    | .fixed pos => (cur, put pos)
    | .current => (cur + res.toNat, put cur)
    | .refused => (cur, file)
  | (.fsync, _), t => t

def stores (mem : ℕ → UInt8) (evs : List (Sqe × ℤ)) (t : ℕ × (ℕ → UInt8)) :
    ℕ × (ℕ → UInt8) := evs.foldl (fun t x => store mem x t) t

/-- What the kernel does: it takes entries off the queue as one batch, or completes one. -/
inductive Move where
  | take (n : ℕ)
  | complete (idx : ℕ) (res : ℤ)

/-- What the kernel does during one `submit_and_wait`, and the error it returns. -/
structure Turn where
  err : Option ℕ
  moves : List Move

/-- The kernel, the parameters of the ring, and the other users of the ring, one of whom
may have lost it the owner thread. -/
structure Kernel where
  turn : ℕ → Turn
  sqpoll : Bool
  queueDepth : ℕ
  ownerGone : ℕ → Bool
  osError : ℤ → IoError

/-- The ring: what it completed, and whether it still serves. -/
structure State where
  clock : ℕ
  healthy : Bool
  log : List (Sqe × ℤ)

/-- How an operation ends that does not return. `waiting` is no end: the kernel owes
completions. -/
inductive Halt where
  | failed (e : Error)
  | waiting

abbrev RingIo := Prog State Halt

def ecanceled : ℤ := 125

/-- `EINTR`, `EAGAIN`, `EBUSY` -/
def transient (errno : ℕ) : Bool := errno = 4 || errno = 11 || errno = 16

def ownerDead : Error := .io ⟨.other, "io_uring owner thread terminated"⟩

/-! ### Submission and completion -/

/-- The entries of one `drive`: how many are off the queue, where the batches began, and
the results. -/
structure Queue where
  taken : ℕ
  starts : List ℕ
  results : List (Option ℤ)

/-- Entry `idx` can complete: it is off the queue, has not completed yet, and the one that it
is linked to in its batch has. -/
def Queue.ready (entries : List Sqe) (q : Queue) (idx : ℕ) : Bool :=
  idx < q.taken && q.results[idx]? = some none &&
    (idx = 0 || q.starts.contains idx || !(entries[idx - 1]?.any Sqe.linked) ||
      q.results[idx - 1]?.any Option.isSome)

/-- A move, and the completion it makes. -/
def Queue.move (entries : List Sqe) (q : Queue) : Move → Queue × List (Sqe × ℤ)
  | .take n => (⟨min entries.length (q.taken + n), q.taken :: q.starts, q.results⟩, [])
  | .complete idx res =>
    match entries[idx]? with
    | some entry =>
      if q.ready entries idx then
        ({ q with results := q.results.set idx (some (entry.result res)) },
          [(entry, entry.result res)])
      else (q, [])
    | none => (q, [])

def Queue.moves (entries : List Sqe) :
    List Move → Queue → List (Sqe × ℤ) → Queue × List (Sqe × ℤ)
  | [], q, log => (q, log)
  | m :: ms, q, log => Queue.moves entries ms (q.move entries m).1 (log ++ (q.move entries m).2)

def reaped (results : List (Option ℤ)) : ℕ := results.countP Option.isSome

inductive Drive where
  | done (results : List ℤ)
  | rejected (e : Error)
  | waiting

/-- The loop of `drive` (`linux_iouring.rs:496-529`), for that many turns of the kernel. It
gives up when nothing is off the queue. -/
def driveLoop (k : Kernel) (entries : List Sqe) : ℕ → Queue → State → Drive × State
  | 0, _, s => (.waiting, s)
  | turns + 1, q, s =>
    if reaped q.results < entries.length then
      let t := k.turn s.clock
      let (q', log) := q.moves entries t.moves s.log
      let s := { s with clock := s.clock + 1, log := log }
      let rejected := t.err.filter fun errno =>
        !transient errno && !k.sqpoll && reaped q.results = 0 && q'.taken = 0
      match rejected with
      | some errno => (.rejected (.io (k.osError errno)), s)
      | none => driveLoop k entries turns q' s
    else (.done (q.results.map fun r => r.getD 0), s)

/-- `drive` (`linux_iouring.rs:480-530`). All entries go to the queue or none. -/
def drive (k : Kernel) (turns : ℕ) (entries : List Sqe) (s : State) : Drive × State :=
  if k.queueDepth < entries.length then
    (.rejected (.io ⟨.other, "io_uring submission queue full"⟩), s)
  else driveLoop k entries turns ⟨0, [], entries.map fun _ => none⟩ s

/-- An operation of the owner thread with the send, the reply and `reply_with`
(`linux_iouring.rs:534-549`): a ring that was refused a submission stops serving. -/
def serve {α : Type} (k : Kernel) (turns : ℕ) (entries : List Sqe)
    (finish : List ℤ → Except Error α) : RingIo α := fun s =>
  if !s.healthy || k.ownerGone s.clock then (.error (.failed ownerDead), s)
  else
    match drive k turns entries s with
    | (.done results, s') => ((finish results).mapError .failed, s')
    | (.rejected e, s') => (.error (.failed e), { s' with healthy := false })
    | (.waiting, s') => (.error .waiting, s')

/-! ### The operations -/

section

variable (k : Kernel) (turns : ℕ)

def cqeError (res : ℤ) : Error := .io (k.osError (-res))

def cqeBytes (res : ℤ) : Except Error ℕ :=
  if 0 ≤ res then .ok res.toNat else .error (cqeError k res)

/-- `sqe_len` -/
def sqeLen (len : ℕ) : ℕ := min len maxSqeLen

/-- `Op::Write` -/
def opWrite (ptr len offset : ℕ) : RingIo ℕ :=
  serve k turns [.write ptr (sqeLen len) offset false] fun results =>
    cqeBytes k (results.headD 0)

/-- `Op::Fdatasync` -/
def fdatasync : RingIo Unit :=
  serve k turns [.fsync] fun results => (cqeBytes k (results.headD 0)).map fun _ => ()

/-- `Op::WriteLinkedFsync` (`linux_iouring.rs:642-690`) -/
def opWriteLinkedFsync (ptr len offset : ℕ) : RingIo (ℕ × Bool) :=
  serve k turns [.write ptr (sqeLen len) offset true, .fsync] fun results =>
    let w := results.headD 0
    let f := results.getD 1 0
    match cqeBytes k w with
    | .error e => .error e
    | .ok written =>
      if 0 ≤ f then .ok (written, true)
      else if f = -ecanceled ∧ written < len then .ok (written, false)
      else .error (cqeError k f)

/-- `advance` -/
def advance (offset done : ℕ) : Except Error ℕ :=
  if offset + done < 2 ^ 64 then .ok (offset + done)
  else .error (.io ⟨.invalidInput, "io_uring transfer offset overflows u64"⟩)

/-- The loop of `transfer` (`linux_iouring.rs:402-419`). A step that makes progress leaves
less to do. -/
def transfer (total offset : ℕ) (step : ℕ → ℕ → ℕ → RingIo ℕ) (done : ℕ) : RingIo ℕ :=
  if _h : done < total then do
    let len := min (total - done) maxSqeLen
    let pos ← Prog.lift ((advance offset done).mapError .failed)
    let n ← step done len pos
    if _hn : n = 0 then pure done
    else transfer total offset step (done + min n len)
  else pure done
termination_by total - done
decreasing_by
  have : 0 < maxSqeLen := by decide
  omega

/-- `IoUringRing::write_at` -/
def writeAt (base total offset : ℕ) : RingIo ℕ :=
  transfer total offset (fun start len off => opWrite k turns (base + start) len off) 0

/-- `IoUringRing::write_at_linked_fsync` (`linux_iouring.rs:289-321`) of the `len` bytes at
`base`. -/
def writeAtLinkedFsync (base len offset : ℕ) : RingIo ℕ :=
  if len > maxSqeLen then do
    let written ← writeAt k turns base len offset
    fdatasync k turns
    pure written
  else do
    let (written, fsyncRan) ← opWriteLinkedFsync k turns base len offset
    if written ≥ len then
      if !fsyncRan then fdatasync k turns
      pure written
    else do
      let pos ← Prog.lift ((advance offset written).mapError .failed)
      let rest ← writeAt k turns (base + written) (len - written) pos
      fdatasync k turns
      pure (written + rest)

end

/-! ### Chains -/

/-- Every entry but the last is linked to the next. -/
def Chain (entries : List Sqe) : Prop :=
  ∀ idx, idx + 1 < entries.length → entries[idx]?.any Sqe.linked = true

/-- A completion the kernel can make. -/
def Sound : Sqe × ℤ → Prop
  | (.write _ len offset _, res) => res ≤ len ∧ (0 ≤ res → place len offset ≠ .refused)
  | (.fsync, _) => True

theorem sound_result (entry : Sqe) (res : ℤ) : Sound (entry, entry.result res) := by
  cases entry with
  | write ptr len offset linked =>
    simp only [Sound, Sqe.result]
    cases place len offset with
    | refused =>
      have hno : ¬ 0 ≤ -einval := by decide
      have hle : -einval ≤ (len : ℤ) := by
        unfold einval
        omega
      exact ⟨hle, fun h => absurd h hno⟩
    | fixed pos => exact ⟨Int.min_le_right res len, fun _ => nofun⟩
    | current => exact ⟨Int.min_le_right res len, fun _ => nofun⟩
  | fsync => trivial

/-- The results of a chain of `n` entries whose first have completed with `vals`. -/
def partialResults (n : ℕ) (vals : List ℤ) : List (Option ℤ) :=
  vals.map some ++ List.replicate (n - vals.length) none

variable {entries : List Sqe} {vals : List ℤ} {n idx : ℕ}

theorem partialResults_lt (h : idx < vals.length) :
    (partialResults n vals)[idx]? = some (some (vals.get ⟨idx, h⟩)) := by
  rw [partialResults, List.getElem?_append_left (by simpa using h)]
  simp [h]

theorem partialResults_ge (h : vals.length ≤ idx) (hn : idx < n) :
    (partialResults n vals)[idx]? = some none := by
  rw [partialResults, List.getElem?_append_right (by simpa using h), List.length_map,
    List.getElem?_replicate, if_pos (by omega)]

theorem partialResults_set (h : vals.length < n) (v : ℤ) :
    (partialResults n vals).set vals.length (some v) = partialResults n (vals ++ [v]) := by
  have hn : n - vals.length = n - (vals ++ [v]).length + 1 := by
    rw [List.length_append, List.length_singleton]
    omega
  rw [partialResults, partialResults, hn, List.set_append_right _ _ (by simp), List.length_map,
    Nat.sub_self, List.replicate_succ, List.set_cons_zero, List.map_append, List.append_assoc]
  rfl

/-- The move does not split the entries. -/
def Move.Whole (entries : List Sqe) : Move → Prop
  | .take n => n = 0 ∨ entries.length ≤ n
  | .complete _ _ => True

/-- The entries of a chain that the kernel does not split complete in order, the first with
`vals`; `now` is the log, and `log` the log of before. -/
structure Chained (entries : List Sqe) (log : List (Sqe × ℤ)) (vals : List ℤ) (q : Queue)
    (now : List (Sqe × ℤ)) : Prop where
  results : q.results = partialResults entries.length vals
  le : vals.length ≤ entries.length
  taken : q.taken = 0 ∧ vals = [] ∨ q.taken = entries.length
  starts : ∀ i ∈ q.starts, i = 0 ∨ entries.length ≤ i
  log_eq : now = log ++ entries.zip vals
  sound : ∀ x ∈ entries.zip vals, Sound x

variable {log now : List (Sqe × ℤ)} {q : Queue}

/-- In a chain it is the turn of the first entry that has not completed. -/
theorem Chained.ready (h : Chained entries log vals q now) (hc : Chain entries)
    (hi : idx < entries.length) (hr : q.ready entries idx = true) : idx = vals.length := by
  unfold Queue.ready at hr
  rw [h.results] at hr
  rcases Nat.lt_trichotomy idx vals.length with hlt | heq | hgt
  · simp [partialResults_lt hlt] at hr
  · exact heq
  · have hprev : (partialResults entries.length vals)[idx - 1]? = some none :=
      partialResults_ge (by omega) (by omega)
    have hlink := hc (idx - 1) (by omega)
    have h0 : idx ≠ 0 := by omega
    have hstart : idx ∉ q.starts := by
      intro hmem
      have := h.starts idx hmem
      omega
    simp [hprev, hlink, h0, hstart] at hr

theorem zip_append_vals (more : List ℤ) (hv : vals.length ≤ entries.length) :
    entries.zip (vals ++ more) = entries.zip vals ++ (entries.drop vals.length).zip more := by
  induction vals generalizing entries with
  | nil => simp
  | cons v vals ih =>
    cases entries with
    | nil => simp at hv
    | cons e entries => simp [ih (by simpa using hv)]

theorem Chained.complete (h : Chained entries log vals q now) (hc : Chain entries)
    {entry : Sqe} (he : entries[idx]? = some entry) (hr : q.ready entries idx = true) (res : ℤ) :
    Chained entries log (vals ++ [entry.result res])
      { q with results := q.results.set idx (some (entry.result res)) }
      (now ++ [(entry, entry.result res)]) := by
  obtain ⟨hi, hget⟩ := List.getElem?_eq_some_iff.mp he
  obtain rfl := h.ready hc hi hr
  have hzip : entries.zip (vals ++ [entry.result res]) =
      entries.zip vals ++ [(entry, entry.result res)] := by
    rw [zip_append_vals _ h.le, List.drop_eq_getElem_cons hi, hget]
    simp
  constructor
  · show q.results.set _ _ = _
    rw [h.results, partialResults_set hi]
  · rw [List.length_append]
    exact hi
  · rcases h.taken with ⟨h0, -⟩ | hall
    · unfold Queue.ready at hr
      rw [h0] at hr
      simp at hr
    · exact Or.inr hall
  · exact h.starts
  · rw [h.log_eq, hzip, List.append_assoc]
  · rw [hzip]
    intro x hx
    rcases List.mem_append.mp hx with hx | hx
    · exact h.sound x hx
    · rw [List.mem_singleton.mp hx]
      exact sound_result _ _

/-- A step of the kernel. -/
theorem Chained.move (h : Chained entries log vals q now) (hc : Chain entries) {m : Move}
    (hm : m.Whole entries) :
    ∃ vals', Chained entries log vals' (q.move entries m).1 (now ++ (q.move entries m).2) := by
  cases m with
  | take n =>
    refine ⟨vals, ?_⟩
    show Chained entries log vals ⟨min entries.length (q.taken + n), q.taken :: q.starts, _⟩
      (now ++ [])
    rw [List.append_nil]
    refine ⟨h.results, h.le, ?_, ?_, h.log_eq, h.sound⟩
    · rcases h.taken with ⟨h0, hnil⟩ | hall
      · rcases hm with rfl | hm
        · exact Or.inl ⟨by rw [h0]; simp, hnil⟩
        · exact Or.inr (Nat.min_eq_left (by omega))
      · exact Or.inr (Nat.min_eq_left (by omega))
    · intro i hmem
      rcases List.mem_cons.mp hmem with rfl | hmem
      · rcases h.taken with ⟨h0, -⟩ | hall
        · exact Or.inl h0
        · exact Or.inr (by omega)
      · exact h.starts i hmem
  | complete idx res =>
    cases he : entries[idx]? with
    | none =>
      simp only [Queue.move, he, List.append_nil]
      exact ⟨vals, h⟩
    | some entry =>
      simp only [Queue.move, he]
      by_cases hr : q.ready entries idx = true
      · rw [if_pos hr]
        exact ⟨_, h.complete hc he hr res⟩
      · rw [if_neg hr, List.append_nil]
        exact ⟨vals, h⟩

/-- The induction is on the moves of a turn. -/
theorem Chained.moves (hc : Chain entries) (ms : List Move)
    (hms : ∀ m ∈ ms, m.Whole entries) (h : Chained entries log vals q now) :
    ∃ vals', Chained entries log vals' (q.moves entries ms now).1 (q.moves entries ms now).2 := by
  induction ms generalizing vals q now with
  | nil => exact ⟨vals, h⟩
  | cons m ms ih =>
    obtain ⟨vals', h'⟩ := h.move hc (hms m List.mem_cons_self)
    exact ih (fun m hm => hms m (List.mem_cons_of_mem _ hm)) h'

/-- The kernel takes all of the entries at once. -/
def Kernel.Unsplit (k : Kernel) (entries : List Sqe) : Prop :=
  ∀ t, ∀ m ∈ (k.turn t).moves, m.Whole entries

/-! ### What an operation does -/

/-- A chain was completed, in part while the kernel is waited for, or not at all when it
was refused. -/
inductive Driven (entries : List Sqe) (log : List (Sqe × ℤ)) : Drive → State → Prop where
  | done {vals : List ℤ} {s : State} (hl : vals.length = entries.length)
      (hlog : s.log = log ++ entries.zip vals) (hs : ∀ x ∈ entries.zip vals, Sound x) :
      Driven entries log (.done vals) s
  | rejected {e : Error} {s : State} (hlog : s.log = log) : Driven entries log (.rejected e) s
  | waiting {vals : List ℤ} {s : State} (hlog : s.log = log ++ entries.zip vals) :
      Driven entries log .waiting s

theorem reaped_partial (n : ℕ) (vals : List ℤ) :
    reaped (partialResults n vals) = vals.length := by
  simp [reaped, partialResults, List.countP_append, List.countP_map, List.countP_replicate]

theorem partialResults_full (hv : vals.length = n) :
    (partialResults n vals).map (fun r => r.getD 0) = vals := by
  simp [partialResults, hv]

/-- The induction is on the turns. A chain that is all on the queue has no completion. -/
theorem driveLoop_driven (k : Kernel) (hc : Chain entries) (hk : k.Unsplit entries) (turns : ℕ)
    (s : State) (h : Chained entries log vals q s.log) :
    Driven entries log (driveLoop k entries turns q s).1 (driveLoop k entries turns q s).2 := by
  induction turns generalizing q vals s with
  | zero => exact .waiting h.log_eq
  | succ turns ih =>
    obtain ⟨vals', h'⟩ := h.moves hc (k.turn s.clock).moves (hk s.clock)
    unfold driveLoop
    split
    · dsimp only
      split
      · rename_i errno he
        have hcond := (Option.filter_eq_some_iff.mp he).2
        simp only [Bool.and_eq_true, decide_eq_true_eq] at hcond
        have hnil : entries.zip vals' = [] := by
          rcases h'.taken with ⟨-, rfl⟩ | hall
          · simp
          · have hnone : entries = [] := List.eq_nil_of_length_eq_zero (by omega)
            simp [hnone]
        apply Driven.rejected
        have hlog := h'.log_eq
        rw [hnil, List.append_nil] at hlog
        exact hlog
      · exact ih _ h'
    · rename_i hall
      have hfull : vals.length = entries.length := by
        have := h.le
        rw [h.results, reaped_partial] at hall
        omega
      rw [h.results, partialResults_full hfull]
      exact .done hfull h.log_eq h.sound

/-- How an operation on a chain ends. -/
inductive Served {α : Type} (entries : List Sqe) (finish : List ℤ → Except Error α)
    (log : List (Sqe × ℤ)) : Except Halt α → State → Prop where
  | done {vals : List ℤ} {s : State} (hl : vals.length = entries.length)
      (hlog : s.log = log ++ entries.zip vals) (hs : ∀ x ∈ entries.zip vals, Sound x) :
      Served entries finish log ((finish vals).mapError .failed) s
  | refused {e : Error} {s : State} (hlog : s.log = log) :
      Served entries finish log (.error (.failed e)) s
  | waiting {vals : List ℤ} {s : State} (hlog : s.log = log ++ entries.zip vals) :
      Served entries finish log (.error .waiting) s

theorem serve_run {α : Type} {k : Kernel} {turns : ℕ} (hc : Chain entries)
    (hk : k.Unsplit entries) {finish : List ℤ → Except Error α} {s s' : State} {r : Except Halt α}
    (h : serve k turns entries finish s = (r, s')) : Served entries finish s.log r s' := by
  unfold serve at h
  split at h
  · cases h
    exact .refused rfl
  · have hd : Driven entries s.log (drive k turns entries s).1 (drive k turns entries s).2 := by
      unfold drive
      split
      · exact .rejected rfl
      · have hnone : entries.map (fun _ => (none : Option ℤ)) =
            partialResults entries.length [] := by
          simp [partialResults, List.map_const']
        rw [hnone]
        exact driveLoop_driven k hc hk turns s
          ⟨rfl, Nat.zero_le _, Or.inl ⟨rfl, rfl⟩, nofun, by simp, by simp⟩
    cases hr : drive k turns entries s with
    | mk d t =>
      rw [hr] at hd h
      cases hd with
      | done hl hlog hs =>
        cases h
        exact .done hl hlog hs
      | rejected hlog =>
        cases h
        exact .refused hlog
      | waiting hlog =>
        cases h
        exact .waiting hlog

section

variable {k : Kernel} {turns : ℕ} {s s' : State}

theorem chain_singleton (entry : Sqe) : Chain [entry] := by
  intro idx h
  simp at h

theorem cqeBytes_ok {res : ℤ} {m : ℕ} (h : cqeBytes k res = .ok m) : res = m := by
  unfold cqeBytes at h
  split at h
  · cases h
    omega
  · cases h

/-- A single entry is not split. -/
theorem unsplit_singleton (k : Kernel) (entry : Sqe) : k.Unsplit [entry] := by
  intro t m hm
  cases m with
  | take n => exact Nat.eq_zero_or_pos n
  | complete idx res => trivial

/-- A single entry has one completion or none, and one if the operation succeeds. -/
theorem serve_single {α : Type} (entry : Sqe) (finish : List ℤ → Except Error α)
    {r : Except Halt α} (h : serve k turns [entry] finish s = (r, s')) :
    (s'.log = s.log ∧ ∀ a, r ≠ .ok a) ∨ ∃ res, s'.log = s.log ++ [(entry, res)] ∧
      ∀ a, r = .ok a → finish [res] = .ok a ∧ Sound (entry, res) := by
  cases serve_run (chain_singleton entry) (unsplit_singleton k entry) h with
  | @done vals _ hl hlog hs =>
    obtain ⟨res, rfl⟩ := List.length_eq_one_iff.mp hl
    refine Or.inr ⟨res, hlog, fun a ha => ⟨?_, hs _ (by simp)⟩⟩
    cases hf : finish [res] with
    | error e =>
      rw [hf] at ha
      cases ha
    | ok b =>
      rw [hf] at ha
      cases ha
      rfl
  | refused hlog => exact Or.inl ⟨hlog, nofun⟩
  | @waiting vals _ hlog =>
    cases vals with
    | nil => exact Or.inl ⟨by simpa using hlog, nofun⟩
    | cons v vals => exact Or.inr ⟨v, by simpa using hlog, nofun⟩

theorem opWrite_log {ptr len offset : ℕ} {r : Except Halt ℕ}
    (h : opWrite k turns ptr len offset s = (r, s')) :
    (s'.log = s.log ∧ ∀ a, r ≠ .ok a) ∨
      ∃ res : ℤ, s'.log = s.log ++ [(Sqe.write ptr (sqeLen len) offset false, res)] ∧
        ∀ m : ℕ, r = .ok m → res = m ∧ m ≤ sqeLen len ∧ place (sqeLen len) offset ≠ .refused := by
  obtain hlog | ⟨res, hlog, hok⟩ := serve_single _ _ h
  · exact Or.inl hlog
  · refine Or.inr ⟨res, hlog, fun m hm => ?_⟩
    obtain ⟨hf, hle, hplace⟩ := hok m hm
    have hres : res = m := cqeBytes_ok hf
    exact ⟨hres, by omega, hplace (by omega)⟩

theorem fdatasync_log {r : Except Halt Unit} (h : fdatasync k turns s = (r, s')) :
    (s'.log = s.log ∧ ∀ a, r ≠ .ok a) ∨
      ∃ res, s'.log = s.log ++ [(.fsync, res)] ∧ (r = .ok () → 0 ≤ res) := by
  obtain hlog | ⟨res, hlog, hok⟩ := serve_single _ _ h
  · exact Or.inl hlog
  · refine Or.inr ⟨res, hlog, fun hr => ?_⟩
    have hf := (hok () hr).1
    by_contra hneg
    rw [List.headD_cons, cqeBytes, if_neg hneg] at hf
    cases hf

/-- No batch of the kernel ends behind the first entry of a linked pair. For a single entry
a batch of two is as good as one of one. -/
def Kernel.TakesPairs (k : Kernel) : Prop :=
  ∀ t, Move.take 1 ∉ (k.turn t).moves

theorem Kernel.TakesPairs.unsplit (h : k.TakesPairs) (a b : Sqe) : k.Unsplit [a, b] := by
  intro t m hm
  cases m with
  | take n =>
    have hne : n ≠ 1 := by
      rintro rfl
      exact h t hm
    show n = 0 ∨ 2 ≤ n
    omega
  | complete idx res => trivial

/-- The linked pair. On success the fsync completed behind the write, or it was cancelled
behind a short one. -/
theorem opWriteLinkedFsync_log (hk : k.TakesPairs) {ptr len offset : ℕ}
    {r : Except Halt (ℕ × Bool)} (h : opWriteLinkedFsync k turns ptr len offset s = (r, s')) :
    ∃ evs, s'.log = s.log ++ evs ∧ ∀ (m : ℕ) ran, r = .ok (m, ran) → m ≤ sqeLen len ∧
      place (sqeLen len) offset ≠ .refused ∧
      ∃ f : ℤ, evs = [(.write ptr (sqeLen len) offset true, (m : ℤ)), (.fsync, f)] ∧
        (ran = true ∧ 0 ≤ f ∨ ran = false ∧ f = -ecanceled ∧ m < len) := by
  have hc : Chain [.write ptr (sqeLen len) offset true, .fsync] := by
    intro idx hi
    have hi' : idx + 1 < 2 := hi
    obtain rfl : idx = 0 := by omega
    rfl
  cases serve_run hc (hk.unsplit _ _) h with
  | @done vals _ hl hlog hs =>
    obtain ⟨w, f, rfl⟩ := List.length_eq_two.mp hl
    refine ⟨_, hlog, fun m ran hr => ?_⟩
    obtain ⟨hw, hplace⟩ : Sound (.write ptr (sqeLen len) offset true, w) := hs _ (by simp)
    simp only [List.headD_cons, List.getD_cons_succ, List.getD_cons_zero] at hr
    cases hb : cqeBytes k w with
    | error e =>
      rw [hb] at hr
      cases hr
    | ok b =>
      have hwb := cqeBytes_ok hb
      rw [hb] at hr
      dsimp only at hr
      split at hr
      · rename_i hf
        cases hr
        exact ⟨by omega, hplace (by omega), f, by simp [hwb], Or.inl ⟨rfl, hf⟩⟩
      · split at hr
        · rename_i hcan
          cases hr
          exact ⟨by omega, hplace (by omega), f, by simp [hwb], Or.inr ⟨rfl, hcan⟩⟩
        · cases hr
  | refused hlog => exact ⟨[], by simpa using hlog, nofun⟩
  | waiting hlog => exact ⟨_, hlog, nofun⟩

end

/-! ### Tiling -/

theorem place_of_lt {len offset : ℕ} (h : offset + len < 2 ^ 63) :
    place len offset = .fixed offset := by
  have hpos : asI64 offset = offset := if_pos (by omega)
  have hno : ¬ ((offset : ℤ) < 0 ∨ (2 ^ 63 : ℤ) ≤ offset + len) := by omega
  have hcur : (offset : ℤ) ≠ -1 := by omega
  unfold place
  rw [hpos, if_neg hcur, if_neg hno, Int.toNat_natCast]

/-- What the kernel does not refuse ends below `2^63`, but for offset `-1`. -/
theorem lt_of_place {len offset : ℕ} (h : place len offset ≠ .refused)
    (ho : offset + 1 < 2 ^ 64) : offset + len < 2 ^ 63 := by
  have hpos : ¬ (asI64 offset < 0 ∨ 2 ^ 63 ≤ asI64 offset + len) := by
    intro hbad
    have hcur : asI64 offset ≠ -1 := by
      unfold asI64
      split
      · omega
      · omega
    apply h
    unfold place
    rw [if_neg hcur, if_pos hbad]
  unfold asI64 at hpos
  split at hpos
  · omega
  · omega

/-- The completions write the bytes from `base` on to the file from `offset` on, from byte
`done` up to byte `upto`, in order and without a gap, and no chunk ends past `2^63`. -/
inductive Tiles (base offset : ℕ) : ℕ → List (Sqe × ℤ) → ℕ → Prop where
  | nil (done : ℕ) : Tiles base offset done [] done
  | write {done upto len n : ℕ} {linked : Bool} {evs : List (Sqe × ℤ)} (hlen : len ≤ maxSqeLen)
      (hn : n ≤ len) (hpos : offset + done + len < 2 ^ 63)
      (h : Tiles base offset (done + n) evs upto) :
      Tiles base offset done
        ((.write (base + done) len (offset + done) linked, (n : ℤ)) :: evs) upto
  | fsync {done upto : ℕ} {evs : List (Sqe × ℤ)} (res : ℤ) (h : Tiles base offset done evs upto) :
      Tiles base offset done ((.fsync, res) :: evs) upto

section

variable {base offset a b c : ℕ} {evs evs' : List (Sqe × ℤ)}

theorem Tiles.append (h : Tiles base offset a evs b) (h' : Tiles base offset b evs' c) :
    Tiles base offset a (evs ++ evs') c := by
  induction h with
  | nil _ => exact h'
  | write hlen hn hpos _ ih => exact .write hlen hn hpos (ih h')
  | fsync res _ ih => exact .fsync res (ih h')

/-- How far a tiling comes is read off the completions. -/
theorem Tiles.unique (h : Tiles base offset a evs b) (h' : Tiles base offset a evs c) : b = c := by
  induction h with
  | nil _ =>
    cases h'
    rfl
  | @write done upto len n linked evs hlen hn hpos h ih =>
    cases h' with
    | write _ _ _ h' => exact ih h'
  | fsync res _ ih =>
    cases h' with
    | fsync _ h' => exact ih h'

theorem Tiles.le (h : Tiles base offset a evs b) : a ≤ b := by
  induction h with
  | nil _ => exact Nat.le_refl _
  | write hlen hn hpos _ ih => omega
  | fsync res _ ih => exact ih

/-- A tiling leaves the bytes of the buffer in the file, and nothing else. -/
theorem Tiles.stores (h : Tiles base offset a evs b) (mem : ℕ → UInt8) (cur : ℕ)
    (file : ℕ → UInt8) :
    stores mem evs (cur, file) = (cur, fun p =>
      if offset + a ≤ p ∧ p < offset + b then mem (base + (p - offset)) else file p) := by
  induction h generalizing file with
  | nil done =>
    have hnone : ∀ p, ¬ (offset + done ≤ p ∧ p < offset + done) := by omega
    show (cur, file) = _
    simp only [hnone, if_false]
  | @write done upto len n linked evs hlen hn hpos h ih =>
    have hle := h.le
    show Fsys.Ring.stores mem evs (store mem _ (cur, file)) = _
    simp only [store, place_of_lt hpos, ih, Int.toNat_natCast]
    congr 1
    funext p
    by_cases hnew : offset + (done + n) ≤ p ∧ p < offset + upto
    · rw [if_pos hnew, if_pos (by omega)]
    · rw [if_neg hnew]
      by_cases hold : offset + done ≤ p ∧ p < offset + done + n
      · have hsub : base + done + (p - (offset + done)) = base + (p - offset) := by omega
        rw [if_pos hold, if_pos (by omega), hsub]
      · rw [if_neg hold, if_neg (by omega)]
  | fsync res _ ih => exact ih file

/-- A tiling that starts later in the buffer. -/
theorem Tiles.shift (d : ℕ) (h : Tiles (base + d) (offset + d) a evs b) :
    Tiles base offset (d + a) evs (d + b) := by
  induction h with
  | nil done => exact .nil _
  | @write done upto len n linked evs hlen hn hpos h ih =>
    have ih' : Tiles base offset (d + done + n) evs (d + upto) := by
      rw [Nat.add_assoc]
      exact ih
    have hw : Tiles base offset (d + done) ((.write (base + (d + done)) len
        (offset + (d + done)) linked, (n : ℤ)) :: evs) (d + upto) :=
      .write hlen hn (by omega) ih'
    rwa [← Nat.add_assoc, ← Nat.add_assoc] at hw
  | fsync res _ ih => exact .fsync res ih

end

/-! ### Transfers -/

def IsWrite (x : Sqe × ℤ) : Prop := x.1 ≠ .fsync

section

variable {k : Kernel} {turns : ℕ} {s s' : State} {base total offset done : ℕ}

/-- What a transfer leaves in the log: writes, all but a last one with progress, that tile
what it reports. -/
structure Transferred (base offset done total : ℕ) (evs : List (Sqe × ℤ)) (r : Except Halt ℕ) :
    Prop where
  writes : ∀ x ∈ evs, IsWrite x
  progress : ∀ x ∈ evs.dropLast, 0 < x.2
  tiles : offset + done + 1 < 2 ^ 64 → ∀ n, r = .ok n → Tiles base offset done evs n
  le : done ≤ total → ∀ n, r = .ok n → n ≤ total

theorem transferred_stop (base offset done total : ℕ) (evs : List (Sqe × ℤ)) (h : Halt)
    (hw : ∀ x ∈ evs, IsWrite x) (hl : evs.length ≤ 1) :
    Transferred base offset done total evs (.error h) := by
  have hd : evs.dropLast = [] := List.eq_nil_of_length_eq_zero (by simp; omega)
  exact ⟨hw, by simp [hd], fun _ => nofun, nofun⟩

/-- The induction is on the bytes left. Behind a chunk that starts elsewhere than at offset `-1`
the next one does, too. -/
theorem transfer_log {r : Except Halt ℕ}
    (h : transfer total offset (fun start len off => opWrite k turns (base + start) len off)
      done s = (r, s')) :
    ∃ evs, s'.log = s.log ++ evs ∧ Transferred base offset done total evs r := by
  induction hm : total - done using Nat.strong_induction_on generalizing done s with
  | _ m ih =>
    rw [transfer] at h
    split at h
    · rename_i hlt
      by_cases hpos : offset + done < 2 ^ 64
      · rw [advance, if_pos hpos] at h
        have h' : (opWrite k turns (base + done) (min (total - done) maxSqeLen) (offset + done) >>=
          fun n => if _hn : n = 0 then pure done else transfer total offset
            (fun start len off => opWrite k turns (base + start) len off)
            (done + min n (min (total - done) maxSqeLen))) s = (r, s') := h
        obtain ⟨e, hw, rfl⟩ | ⟨n, t, hw, hrest⟩ := Prog.bind_cases h'
        · obtain ⟨hlog, -⟩ | ⟨res, hlog, -⟩ := opWrite_log hw
          · exact ⟨[], by simpa using hlog, transferred_stop _ _ _ _ _ _ (by simp) (by simp)⟩
          · exact ⟨_, hlog, transferred_stop _ _ _ _ _ _ (by simp [IsWrite]) (by simp)⟩
        · obtain ⟨-, hno⟩ | ⟨res, hlog, hres⟩ := opWrite_log hw
          · exact absurd rfl (hno n)
          · obtain ⟨rfl, hle, hplace⟩ := hres n rfl
            rw [sqeLen, Nat.min_assoc, Nat.min_self] at hle hlog hplace
            have hmax : 0 < maxSqeLen := by decide
            split at hrest
            · rename_i h0
              subst h0
              cases hrest
              refine ⟨_, hlog, by simp [IsWrite], by simp, fun ho n hn => ?_, fun hd n hn => ?_⟩
              · cases hn
                exact .write (Nat.min_le_right _ _) hle (lt_of_place hplace ho) (.nil _)
              · cases hn
                exact hd
            · rename_i h0
              rw [Nat.min_eq_left hle] at hrest
              obtain ⟨evs, hlog', htr⟩ := ih (total - (done + n)) (by omega) hrest rfl
              refine ⟨_ :: evs, by rw [hlog', hlog, List.append_assoc]; rfl, ?_, ?_, ?_, ?_⟩
              · intro x hx
                rcases List.mem_cons.mp hx with rfl | hx
                · simp [IsWrite]
                · exact htr.writes x hx
              · intro x hx
                rcases List.eq_nil_or_concat evs with rfl | ⟨evs', y, rfl⟩
                · simp at hx
                · rw [List.concat_eq_append, ← List.cons_append, List.dropLast_concat] at hx
                  rcases List.mem_cons.mp hx with rfl | hx
                  · simp only
                    omega
                  · exact htr.progress x (by simpa using hx)
              · intro ho m hm
                have hend := lt_of_place hplace ho
                exact .write (Nat.min_le_right _ _) hle hend (htr.tiles (by omega) m hm)
              · intro hd m hm
                exact htr.le (by omega) m hm
      · rw [advance, if_neg hpos] at h
        cases h
        exact ⟨[], by simp, transferred_stop _ _ _ _ _ _ (by simp) (by simp)⟩
    · cases h
      refine ⟨[], by simp, by simp, by simp, ?_, ?_⟩
      · intro _ n hn
        cases hn
        exact .nil _
      · intro hle n hn
        cases hn
        exact hle

/-- The only fsync behind a run of writes. -/
theorem fsync_last {evs : List (Sqe × ℤ)} {f res : ℤ} (hw : ∀ x ∈ evs, IsWrite x)
    (h : (Sqe.fsync, f) ∈ evs ++ [(.fsync, res)]) : f = res := by
  rcases List.mem_append.mp h with h | h
  · exact absurd rfl (hw _ h)
  · simpa using h

/-! ### The linked write -/

/-- What `write_at_linked_fsync` answers for: a full count means that the completions tile
the buffer and that the last of them is a successful fsync; a failed fsync, or one that was
cancelled with the whole buffer written, is no success. -/
structure DurableWrite (base len offset : ℕ) (evs : List (Sqe × ℤ)) (r : Except Halt ℕ) : Prop where
  tiles : r = .ok len → Tiles base offset 0 evs len
  synced : r = .ok len → ∃ pre f, evs = pre ++ [(.fsync, f)] ∧ 0 ≤ f
  fsyncFails : ∀ pre f post, evs = pre ++ (.fsync, f) :: post → f < 0 →
    f ≠ -ecanceled ∨ Tiles base offset 0 pre len → ∀ n, r ≠ .ok n

theorem durableWrite_error (base len offset : ℕ) (evs : List (Sqe × ℤ)) (h : Halt) :
    DurableWrite base len offset evs (.error h) := ⟨nofun, nofun, fun _ _ _ _ _ _ => nofun⟩

/-- The call leaves a log that answers for what it returns. -/
def Durable (k : Kernel) (turns base len offset : ℕ) (s : State) : Prop :=
  ∃ evs, (writeAtLinkedFsync k turns base len offset s).2.log = s.log ++ evs ∧
    DurableWrite base len offset evs (writeAtLinkedFsync k turns base len offset s).1

/-- With the whole buffer written it is in the file. -/
theorem DurableWrite.stored {len : ℕ} {evs : List (Sqe × ℤ)} {r : Except Halt ℕ}
    (h : DurableWrite base len offset evs r) (hr : r = .ok len) (mem : ℕ → UInt8) (cur : ℕ)
    (file : ℕ → UInt8) :
    stores mem evs (cur, file) = (cur, fun p =>
      if offset ≤ p ∧ p < offset + len then mem (base + (p - offset)) else file p) :=
  (h.tiles hr).stores mem cur file

/-- Writes and one fsync, with a count that is reported on top of `m` earlier bytes. -/
theorem writeAt_fdatasync {m : ℕ} {r : Except Halt ℕ} (ho : offset + 1 < 2 ^ 64)
    (h : (writeAt k turns base total offset >>= fun written =>
      fdatasync k turns >>= fun _ => pure (m + written)) s = (r, s')) :
    ∃ evs, s'.log = s.log ++ evs ∧ ∀ a, r = .ok a →
      ∃ n ws f, a = m + n ∧ evs = ws ++ [(.fsync, f)] ∧ 0 ≤ f ∧ (∀ x ∈ ws, IsWrite x) ∧
        Tiles base offset 0 ws n := by
  obtain ⟨e, hw, rfl⟩ | ⟨n, t, hw, hrest⟩ := Prog.bind_cases h
  · obtain ⟨evs, hlog, -⟩ := transfer_log hw
    exact ⟨evs, hlog, nofun⟩
  · obtain ⟨evs, hlog, htr⟩ := transfer_log hw
    obtain ⟨e, hf, rfl⟩ | ⟨⟨⟩, u, hf, hret⟩ := Prog.bind_cases hrest
    · obtain ⟨hlog', -⟩ | ⟨res, hlog', -⟩ := fdatasync_log hf
      · exact ⟨evs, hlog'.trans hlog, nofun⟩
      · exact ⟨evs ++ [(.fsync, res)], by rw [hlog', hlog, List.append_assoc], nofun⟩
    · cases hret
      obtain ⟨-, hno⟩ | ⟨res, hlog', hres⟩ := fdatasync_log hf
      · exact absurd rfl (hno ())
      · refine ⟨evs ++ [(.fsync, res)], by rw [hlog', hlog, List.append_assoc], fun m hm => ?_⟩
        cases hm
        exact ⟨n, evs, res, rfl, rfl, hres rfl, htr.writes, htr.tiles ho n rfl⟩

/-- Writes and then one fsync that succeeded. -/
theorem DurableWrite.of_writes {len n : ℕ} {ws : List (Sqe × ℤ)} {f : ℤ}
    (hw : ∀ x ∈ ws, IsWrite x) (ht : Tiles base offset 0 ws n) (hf : 0 ≤ f) :
    DurableWrite base len offset (ws ++ [(.fsync, f)]) (.ok n) where
  tiles hn := by
    cases hn
    exact ht.append (.fsync f (.nil _))
  synced _ := ⟨ws, f, rfl, hf⟩
  fsyncFails pre g post he hg _ := by
    have hmem : (Sqe.fsync, g) ∈ ws ++ [(.fsync, f)] := by
      rw [he]
      simp
    have := fsync_last hw hmem
    omega

/-- A short write with its fsync, which may have been cancelled, then the other writes and one
more fsync. -/
theorem DurableWrite.of_rest {len m n : ℕ} {x : Sqe × ℤ} {ws : List (Sqe × ℤ)} {f f' : ℤ}
    (hx : IsWrite x) (hfirst : Tiles base offset 0 [x] m) (hlt : m < len)
    (hran : 0 ≤ f ∨ f = -ecanceled) (hw : ∀ x ∈ ws, IsWrite x)
    (ht : Tiles base offset m ws (m + n)) (hf : 0 ≤ f') :
    DurableWrite base len offset ([x, (.fsync, f)] ++ (ws ++ [(.fsync, f')])) (.ok (m + n)) where
  tiles hn := by
    have hall := hfirst.append (.fsync f (ht.append (.fsync f' (.nil _))))
    rw [Except.ok.inj hn] at hall
    exact hall
  synced _ := ⟨x :: (.fsync, f) :: ws, f', rfl, hf⟩
  fsyncFails pre g post he hg hbad := by
    cases pre with
    | nil =>
      have hfsync : x = (.fsync, g) := (List.cons.inj he).1
      rw [hfsync] at hx
      exact absurd rfl hx
    | cons y pre =>
      obtain ⟨hxy, he⟩ := List.cons.inj he
      cases pre with
      | nil =>
        -- the first fsync fails only where it was cancelled, with the buffer not written yet
        obtain ⟨hfg, -⟩ := List.cons.inj he
        cases hfg
        rcases hran with hran | hran
        · omega
        · rcases hbad with hbad | hbad
          · exact absurd hran hbad
          · rw [← hxy] at hbad
            have := hbad.unique hfirst
            omega
      | cons z pre =>
        have hrest : ws ++ [(.fsync, f')] = pre ++ (.fsync, g) :: post := (List.cons.inj he).2
        have hmem : (Sqe.fsync, g) ∈ ws ++ [(.fsync, f')] := by
          rw [hrest]
          simp
        have := fsync_last hw hmem
        omega

theorem writeAtLinkedFsync_durable {len : ℕ} {r : Except Halt ℕ} (hk : k.TakesPairs)
    (ho : offset + 1 < 2 ^ 64) (h : writeAtLinkedFsync k turns base len offset s = (r, s')) :
    ∃ evs, s'.log = s.log ++ evs ∧ DurableWrite base len offset evs r := by
  unfold writeAtLinkedFsync at h
  split at h
  · have h0 : (writeAt k turns base len offset >>= fun written =>
        fdatasync k turns >>= fun _ => pure (0 + written)) s = (r, s') := by
      simpa only [Nat.zero_add] using h
    obtain ⟨evs, hlog, hok⟩ := writeAt_fdatasync ho h0
    refine ⟨evs, hlog, ?_⟩
    cases r with
    | error e => exact durableWrite_error _ _ _ _ _
    | ok a =>
      obtain ⟨n, ws, f, rfl, rfl, hf, hw, ht⟩ := hok a rfl
      rw [Nat.zero_add]
      exact .of_writes hw ht hf
  · rename_i hmax
    have hlen : sqeLen len = len := Nat.min_eq_left (Nat.not_lt.mp hmax)
    obtain ⟨e, hl, rfl⟩ | ⟨⟨m, ran⟩, t, hl, hrest⟩ := Prog.bind_cases h
    · obtain ⟨evs, hlog, -⟩ := opWriteLinkedFsync_log hk hl
      exact ⟨evs, hlog, durableWrite_error _ _ _ _ _⟩
    · obtain ⟨evs, hlog, hok⟩ := opWriteLinkedFsync_log hk hl
      obtain ⟨hm, hplace, f, rfl, hran⟩ := hok m ran rfl
      rw [hlen] at hm hlog hplace
      have hend := lt_of_place hplace ho
      have hwrite : IsWrite (.write base len offset true, (m : ℤ)) := nofun
      have hfirst : Tiles base offset 0 [(.write base len offset true, (m : ℤ))] m := by
        apply Tiles.write (hlen ▸ Nat.min_le_right _ _) hm hend
        rw [Nat.zero_add]
        exact .nil _
      dsimp only at hrest
      split at hrest
      · -- the whole buffer is written: the fsync was not cancelled
        rename_i hge
        obtain ⟨rfl, hf⟩ | ⟨-, -, hlt⟩ := hran
        · cases hrest
          have hw : ∀ x ∈ [(Sqe.write base len offset true, (m : ℤ))], IsWrite x := by
            intro x hx
            rw [List.mem_singleton.mp hx]
            exact hwrite
          exact ⟨_, hlog, DurableWrite.of_writes hw hfirst hf⟩
        · omega
      · rename_i hlt
        rw [Nat.not_le] at hlt
        by_cases hpos : offset + m < 2 ^ 64
        · rw [advance, if_pos hpos] at hrest
          obtain ⟨evs, hlog', hok⟩ := writeAt_fdatasync (by omega) hrest
          refine ⟨_, by rw [hlog', hlog, List.append_assoc], ?_⟩
          cases r with
          | error e => exact durableWrite_error _ _ _ _ _
          | ok a =>
            obtain ⟨n, ws, f', rfl, rfl, hf', hw, ht⟩ := hok a rfl
            have hfsync : 0 ≤ f ∨ f = -ecanceled := by
              rcases hran with ⟨-, hf⟩ | ⟨-, hf, -⟩
              · exact Or.inl hf
              · exact Or.inr hf
            exact .of_rest hwrite hfirst hlt hfsync hw (ht.shift m) hf'
        · rw [advance, if_neg hpos] at hrest
          cases hrest
          exact ⟨_, hlog, durableWrite_error _ _ _ _ _⟩

end

/-- `write_at_linked_fsync` for every buffer, offset but `u64::MAX`, ring, and kernel that does
not split a linked pair; and the transfer loop under it, of which for every kernel and offset
all writes but a last one make progress. -/
theorem write_at_linked_fsync_durable (k : Kernel) (turns base len : ℕ) (offset : UInt64)
    (s : State) :
    (k.TakesPairs → offset.toNat + 1 < 2 ^ 64 → Durable k turns base len offset.toNat s) ∧
    ∀ base total offset s, ∃ evs, (writeAt k turns base total offset s).2.log = s.log ++ evs ∧
      (∀ x ∈ evs, IsWrite x) ∧ ∀ x ∈ evs.dropLast, 0 < x.2 := by
  constructor
  · intro hk ho
    exact writeAtLinkedFsync_durable hk ho (Prod.mk.eta).symm
  · intro base total offset s
    obtain ⟨evs, hlog, htr⟩ := transfer_log (Prod.mk.eta).symm
    exact ⟨evs, hlog, htr.writes, htr.progress⟩

/-- A kernel that takes the queue at once and completes its entries with `results`. -/
def prompt (results : List ℤ) : Kernel where
  turn := fun _ => ⟨none, .take 2 :: ((List.range results.length).zip results).map fun c =>
    .complete c.1 c.2⟩
  sqpoll := false
  queueDepth := 8
  ownerGone := fun _ => false
  osError := fun _ => ⟨.other, ""⟩

theorem prompt_takesPairs (results : List ℤ) : (prompt results).TakesPairs := by
  intro t hmem
  simp [prompt] at hmem

def idle : State := ⟨0, true, []⟩

/-- The write is short and cancels the fsync; the third byte is written and synced by itself. -/
theorem write_at_linked_fsync_durable_short_write :
    (writeAtLinkedFsync (prompt [2, -125]) 2 100 3 4096 idle).1 = .ok 3 ∧
      ∃ evs, (writeAtLinkedFsync (prompt [2, -125]) 2 100 3 4096 idle).2.log = evs ∧
        (∃ pre f, evs = pre ++ [(.fsync, f)] ∧ 0 ≤ f) ∧
        ∀ (mem : ℕ → UInt8) cur file, stores mem evs (cur, file) = (cur, fun p =>
          if 4096 ≤ p ∧ p < 4096 + 3 then mem (100 + (p - 4096)) else file p) := by
  have hpair : opWriteLinkedFsync (prompt [2, -125]) 2 100 3 4096 idle =
      (.ok (2, false), ⟨1, true, [(.write 100 3 4096 true, 2), (.fsync, -125)]⟩) := rfl
  have hrest : writeAt (prompt [2, -125]) 2 102 1 4098
      ⟨1, true, [(.write 100 3 4096 true, 2), (.fsync, -125)]⟩ =
      (.ok 1, ⟨2, true, [(.write 100 3 4096 true, 2), (.fsync, -125),
        (.write 102 1 4098 false, 1)]⟩) := by
    unfold writeAt
    rw [transfer, dif_pos (by decide)]
    show transfer 1 4098 _ 1 _ = _
    rw [transfer, dif_neg (by decide)]
    rfl
  have hok : (writeAtLinkedFsync (prompt [2, -125]) 2 100 3 4096 idle).1 = .ok 3 := by
    unfold writeAtLinkedFsync
    rw [if_neg (by decide), Prog.bind_run hpair]
    show ((writeAt (prompt [2, -125]) 2 102 1 4098 >>= fun rest => do
      fdatasync (prompt [2, -125]) 2
      pure (2 + rest) : RingIo ℕ) _).1 = _
    rw [Prog.bind_run hrest]
    rfl
  obtain ⟨evs, hlog, hdurable⟩ := (write_at_linked_fsync_durable (prompt [2, -125]) 2 100 3 4096
    idle).1 (prompt_takesPairs _) (by decide)
  exact ⟨hok, evs, hlog, hdurable.synced hok, hdurable.stored hok⟩

/-- A kernel whose first batch ends behind the write, and for which the fsync completes first. -/
def splitting : Kernel where
  turn := fun t => ⟨none, if t = 0 then [.take 1] else [.take 1, .complete 1 0, .complete 0 3]⟩
  sqpoll := false
  queueDepth := 8
  ownerGone := fun _ => false
  osError := fun _ => ⟨.other, ""⟩

theorem Tiles.head_lt {base offset a b ptr len off : ℕ} {linked : Bool} {res : ℤ}
    {evs : List (Sqe × ℤ)}
    (h : Tiles base offset a ((.write ptr len off linked, res) :: evs) b) :
    off + len < 2 ^ 63 := by
  cases h with
  | write _ _ hpos _ => exact hpos

/-- Two bytes at offset `u64::MAX` are reported and lie at the position of the file; an fsync that
completed in front of the write it was linked to is reported as well. -/
theorem linked_write_not_durable :
    ¬ Durable (prompt [2, 0]) 2 100 2 (2 ^ 64 - 1) idle ∧ ¬ Durable splitting 3 100 3 0 idle := by
  constructor
  · rintro ⟨evs, hlog, hdurable⟩
    have hok : (writeAtLinkedFsync (prompt [2, 0]) 2 100 2 (2 ^ 64 - 1) idle).1 = .ok 2 := by rfl
    have hevs : [(.write 100 2 (2 ^ 64 - 1) true, 2), (.fsync, 0)] = evs := hlog
    have htiles := hdurable.tiles hok
    rw [← hevs] at htiles
    have := htiles.head_lt
    omega
  · rintro ⟨evs, hlog, hdurable⟩
    have hok : (writeAtLinkedFsync splitting 3 100 3 0 idle).1 = .ok 3 := by rfl
    have hevs : [(.fsync, 0), (.write 100 3 0 true, 3)] = evs := hlog
    obtain ⟨pre, f, hlast, -⟩ := hdurable.synced hok
    rw [← hevs] at hlast
    have := congrArg List.getLast? hlast
    simp at this

end Fsys.Ring
