import Fsys.Platform
import Mathlib.Order.Lattice.Nat

/-!
# Range reads

`platform/mod.rs:326-392`, `platform/linux.rs:322-340`, `crud/file.rs:321-333`. A
range read fills a buffer with positioned reads. The buffer for a regular file is
sized by what the file can supply; for a file of unknown size it grows as data
comes.
-/

namespace Fsys.Platform
open Fsys.Base

/-! ### Files to read -/

structure Metadata where
  isFile : Bool
  len : ℕ

/-- Answers to reads, by time: an interruption, or the bytes there are up to `n + 1` for
`some n`. Interruptions come to an end. -/
structure Reads where
  reply : ℕ → Option ℕ
  answered : ∀ t, ∃ k, t ≤ k ∧ reply k ≠ none

/-- An open file. -/
structure File where
  metadata : Except IoError Metadata
  content : Bytes
  reads : Reads

/-- The reads so far: their number, their positions, and the sizes of the buffers that
were allocated for them. -/
structure Reading where
  clock : ℕ
  requests : List ℕ
  allocated : List ℕ

abbrev ReadIo := Prog Reading (Exit Error)

/-- `pread(2)` into `n` bytes. -/
def pread (file : File) (n pos : ℕ) : Prog Reading IoError Bytes := fun st =>
  match file.reads.reply st.clock with
  | none => (.error ⟨.interrupted, "Interrupted system call (os error 4)"⟩,
      { st with clock := st.clock + 1 })
  | some amount => (.ok ((file.content.drop pos).take (min n (amount + 1))),
      { st with clock := st.clock + 1 })

/-- The positioned read of Linux (`linux.rs:324-339`). -/
def preadLinux (file : File) (n pos : ℕ) : Prog Reading IoError Bytes :=
  if pos < 2 ^ 63 then pread file n pos
  else Prog.throw ⟨.invalidInput, "read_range: offset exceeds off_t"⟩

/-! ### The shared body -/

/-- `RANGE_READ_GROW_STEP` -/
def growStep : ℕ := 64 * 1024

/-- `available` rounded up to whole steps, in a `u64`. -/
def roundedStep (available : ℕ) : ℕ :=
  if available + (growStep - 1) < 2 ^ 64 then (available + (growStep - 1)) / growStep * growStep
  else 2 ^ 64 - 1

/-- The size of the first buffer, and whether the buffer may grow. -/
def initialBuf (info : Metadata) (offset len : ℕ) : ℕ × Bool :=
  if info.isFile then (min len (roundedStep (info.len - offset)), false)
  else (min len growStep, true)

/-- Allocate, or extend with zeros, up to `n` bytes. -/
def resize (buf : Bytes) (n : ℕ) : ReadIo Bytes := fun st =>
  (.ok (buf ++ zeros (n - buf.length)), { st with allocated := st.allocated ++ [n] })

/-- A full buffer is grown (`mod.rs:374-375`). -/
def growBuf (len : ℕ) (buf : Bytes) (total : ℕ) : ReadIo Bytes :=
  if total = buf.length then resize buf (total + min (len - total) (max growStep buf.length))
  else pure buf

def request (pos : ℕ) : ReadIo Unit :=
  Prog.modify fun st => { st with requests := st.requests ++ [pos] }

/-- The loop (`mod.rs:369-389`) with `total` bytes read. -/
def readLoop (readAt : ℕ → ℕ → Prog Reading IoError Bytes) (offset len : ℕ) (canGrow : Bool) :
    ℕ → Bytes → ℕ → ReadIo Bytes
  | 0, _, _ => Prog.throw .stalled
  | fuel + 1, buf, total =>
    if total = buf.length ∧ (canGrow = false ∨ len ≤ total) then pure (buf.take total)
    else do
      let buf ← growBuf len buf total
      if offset + total < 2 ^ 64 then do
        request (offset + total)
        let read ← (readAt (buf.length - total) (offset + total)).attempt
        match read with
        | .ok data =>
          if data = [] then pure (buf.take total)
          else
            readLoop readAt offset len canGrow fuel (overlay buf total data) (total + data.length)
        | .error e =>
          if e.kind = .interrupted then readLoop readAt offset len canGrow fuel buf total
          else Prog.throw (.failed (.io e))
      else Prog.throw (.failed (.io ⟨.invalidInput, "read_range: offset overflow"⟩))

/-- `read_range_with` (`mod.rs:348-392`) -/
def readRangeWith (fuel : ℕ) (file : File) (offset len : ℕ)
    (readAt : ℕ → ℕ → Prog Reading IoError Bytes) : ReadIo Bytes := do
  let info ← Prog.lift (file.metadata.mapError fun e => .failed (.io e))
  let (initial, canGrow) := initialBuf info offset len
  let buf ← resize [] initial
  readLoop readAt offset len canGrow fuel buf 0

/-- `read_range` of Linux (`linux.rs:322-340`) -/
def readRange (fuel : ℕ) (file : File) (offset len : ℕ) : ReadIo Bytes :=
  readRangeWith fuel file offset len (preadLinux file)

/-- `Handle::read_at` (`crud/file.rs:321-333`) on the file it opened -/
def readAt (fuel : ℕ) (file : File) (offset len : ℕ) : ReadIo Bytes := do
  let info ← Prog.lift (file.metadata.mapError fun e => .failed (.io e))
  let len := min len (info.len - offset)
  if len = 0 then pure [] else readRange fuel file offset len

/-! ### One round -/

/-- What has been read so far is the start of what is wanted. A buffer that cannot grow
has room for all of it. -/
structure Filling (content : Bytes) (offset len : ℕ) (canGrow : Bool) (buf : Bytes) (total : ℕ) :
    Prop where
  read : buf.take total = (content.drop offset).take total
  le : total ≤ buf.length
  avail : total ≤ content.length - offset
  length_le : buf.length ≤ len
  room : canGrow = false → buf.length = len ∨ content.length - offset ≤ buf.length

/-- No position past `u64`, no buffer larger than `bound`. -/
structure Fine (bound : ℕ) (st : Reading) : Prop where
  requests : ∀ p ∈ st.requests, p < 2 ^ 64
  allocated : ∀ n ∈ st.allocated, n ≤ bound

section

variable {content buf data : Bytes} {offset len total bound n : ℕ} {canGrow : Bool} {st : Reading}

theorem Filling.exact (h : Filling content offset len canGrow buf total)
    (hend : total = len ∨ content.length - offset ≤ total) :
    buf.take total = (content.drop offset).take len := by
  rw [h.read, List.take_eq_take_iff, List.length_drop]
  have := h.le
  have := h.avail
  have := h.length_le
  omega

/-- A full buffer that does not grow has everything. -/
theorem Filling.full (h : Filling content offset len canGrow buf total) (hf : total = buf.length)
    (hg : canGrow = false ∨ len ≤ total) : buf.take total = (content.drop offset).take len := by
  apply h.exact
  have := h.length_le
  rcases hg with hg | hg
  · have := h.room hg
    omega
  · omega

theorem Filling.resize (h : Filling content offset len canGrow buf total)
    (hg : canGrow = true) (hn : n ≤ len) : Filling content offset len canGrow
      (buf ++ zeros (n - buf.length)) total where
  read := by
    rw [List.take_append_of_le_length h.le, h.read]
  le := by
    rw [List.length_append]
    exact Nat.le_add_right_of_le h.le
  avail := h.avail
  length_le := by
    rw [List.length_append, length_zeros]
    have := h.length_le
    omega
  room h0 := by rw [hg] at h0; cases h0

/-- The bytes at the position behind those that were read. -/
theorem Filling.read_more (h : Filling content offset len canGrow buf total)
    (hd : data = (content.drop (offset + total)).take n) (hn : n ≤ buf.length - total) :
    Filling content offset len canGrow (overlay buf total data) (total + data.length) := by
  have hlen : data.length = min n (content.length - (offset + total)) := by
    rw [hd, List.length_take, List.length_drop]
  have hle := h.le
  have hbuf : (overlay buf total data).length = buf.length := by
    rw [length_overlay]
    omega
  have havail := h.avail
  refine ⟨?_, by rw [hbuf]; omega, by omega, by rw [hbuf]; exact h.length_le,
    fun hg => by rw [hbuf]; exact h.room hg⟩
  rw [take_overlay_end _ _ _ _ hle (Nat.le_refl _), h.read, List.take_length, List.take_add,
    List.drop_drop, hlen, hd]
  congr 1
  rw [List.take_eq_take_iff, List.length_drop]
  omega

/-- The buffer of a round: the one there is, or a larger one. -/
theorem Filling.grow (h : Filling content offset len canGrow buf total) (hf : Fine bound st)
    (hb : canGrow = true → len ≤ bound)
    (hg : ¬ (total = buf.length ∧ (canGrow = false ∨ len ≤ total))) :
    ∃ buf' st', growBuf len buf total st = (.ok buf', st') ∧
      Filling content offset len canGrow buf' total ∧ total < buf'.length ∧
      Fine bound st' ∧ st'.clock = st.clock := by
  have hlt := h.length_le
  have hle := h.le
  unfold growBuf
  by_cases hfull : total = buf.length
  · have hcan : canGrow = true ∧ total < len := by
      rw [not_and_or, not_or] at hg
      simpa using hg.resolve_left (not_not.mpr hfull)
    have hstep : 0 < growStep := by decide
    have hn : total + min (len - total) (max growStep buf.length) ≤ len := by omega
    rw [if_pos hfull]
    refine ⟨_, _, rfl, h.resize hcan.1 hn, ?_, ⟨hf.requests, ?_⟩, rfl⟩
    · rw [List.length_append, length_zeros]
      omega
    · intro m hm
      rcases List.mem_append.mp hm with hm | hm
      · exact hf.allocated m hm
      · have := hb hcan.1
        rw [List.mem_singleton] at hm
        omega
  · rw [if_neg hfull]
    exact ⟨buf, st, rfl, h, by omega, hf, rfl⟩

variable {file : File} {readAt : ℕ → ℕ → Prog Reading IoError Bytes}

/-- A round returns what is wanted, or reads more, or is interrupted. -/
theorem readLoop_round (hread : ∀ n pos, pos ≤ max offset file.content.length →
      readAt n pos = pread file n pos)
    (hmax : max offset file.content.length < 2 ^ 64) (hb : canGrow = true → len ≤ bound)
    (h : Filling file.content offset len canGrow buf total) (hf : Fine bound st) :
    (∃ st', Fine bound st' ∧ ∀ fuel, readLoop readAt offset len canGrow (fuel + 1) buf total st =
      (.ok ((file.content.drop offset).take len), st')) ∨
    ∃ buf' total' st', Filling file.content offset len canGrow buf' total' ∧ Fine bound st' ∧
      st'.clock = st.clock + 1 ∧
      (total < total' ∨ total' = total ∧ file.reads.reply st.clock = none) ∧
      ∀ fuel, readLoop readAt offset len canGrow (fuel + 1) buf total st =
        readLoop readAt offset len canGrow fuel buf' total' st' := by
  by_cases hg : total = buf.length ∧ (canGrow = false ∨ len ≤ total)
  · refine Or.inl ⟨st, hf, fun fuel => ?_⟩
    rw [readLoop, if_pos hg, h.full hg.1 hg.2]
    rfl
  · obtain ⟨buf', st', hgrow, h', hlt, hf', hclock⟩ := h.grow hf hb hg
    have havail := h.avail
    have hpos : offset + total ≤ max offset file.content.length := by omega
    have hround : ∀ fuel, readLoop readAt offset len canGrow (fuel + 1) buf total st =
        ((pread file (buf'.length - total) (offset + total)).attempt >>= fun read =>
          match read with
          | .ok data =>
            if data = [] then pure (buf'.take total)
            else readLoop readAt offset len canGrow fuel (overlay buf' total data)
              (total + data.length)
          | .error e =>
            if e.kind = .interrupted then readLoop readAt offset len canGrow fuel buf' total
            else Prog.throw (.failed (.io e)))
          { st' with requests := st'.requests ++ [offset + total] } := by
      intro fuel
      rw [readLoop, if_neg hg, Prog.bind_run hgrow, if_pos (by omega), hread _ _ hpos]
      rfl
    have hreq : ∀ p ∈ st'.requests ++ [offset + total], p < 2 ^ 64 := by
      intro p hp
      rcases List.mem_append.mp hp with hp | hp
      · exact hf'.requests p hp
      · rw [List.mem_singleton] at hp
        omega
    simp only [Prog.attempt_bind_run, pread, hclock] at hround
    have hfine : Fine bound ⟨st.clock + 1, st'.requests ++ [offset + total], st'.allocated⟩ :=
      ⟨hreq, hf'.allocated⟩
    cases hr : file.reads.reply st.clock with
    | none =>
      simp only [hr, if_true] at hround
      exact Or.inr ⟨buf', total, _, h', hfine, rfl, Or.inr ⟨rfl, rfl⟩, hround⟩
    | some amount =>
      simp only [hr] at hround
      by_cases hd : (file.content.drop (offset + total)).take
          (min (buf'.length - total) (amount + 1)) = []
      · -- the file ends here
        have hend : file.content.length - offset ≤ total := by
          have hl := congrArg List.length hd
          rw [List.length_take, List.length_drop, List.length_nil] at hl
          omega
        refine Or.inl ⟨_, hfine, fun fuel => ?_⟩
        rw [hround, if_pos hd, h'.exact (Or.inr hend)]
        rfl
      · refine Or.inr ⟨_, _, _, h'.read_more rfl (Nat.min_le_left _ (amount + 1)), hfine,
          rfl, Or.inl ?_, fun fuel => ?_⟩
        · have := List.length_pos_iff.mpr hd
          omega
        · rw [hround, if_neg hd]

/-- The run returns `bytes` in good order. -/
def Returns (run : ℕ → ReadIo Bytes) (bytes : Bytes) (bound : ℕ) (st : Reading) : Prop :=
  ∃ k st', Fine bound st' ∧ ∀ fuel, k ≤ fuel → run fuel st = (.ok bytes, st')

theorem returns_of_round (hread : ∀ n pos, pos ≤ max offset file.content.length →
      readAt n pos = pread file n pos)
    (hmax : max offset file.content.length < 2 ^ 64) (hb : canGrow = true → len ≤ bound)
    (h : Filling file.content offset len canGrow buf total) (hf : Fine bound st)
    (hnext : ∀ buf' total' st', Filling file.content offset len canGrow buf' total' →
      Fine bound st' → st'.clock = st.clock + 1 →
      (total < total' ∨ total' = total ∧ file.reads.reply st.clock = none) →
      Returns (fun fuel => readLoop readAt offset len canGrow fuel buf' total')
        ((file.content.drop offset).take len) bound st') :
    Returns (fun fuel => readLoop readAt offset len canGrow fuel buf total)
      ((file.content.drop offset).take len) bound st := by
  obtain ⟨st', hf', hend⟩ | ⟨buf', total', st', h', hf', hc, hp, hgo⟩ :=
    readLoop_round hread hmax hb h hf
  · refine ⟨1, st', hf', fun fuel hle => ?_⟩
    obtain ⟨fuel, rfl⟩ := Nat.exists_eq_add_of_le' hle
    exact hend fuel
  · obtain ⟨k, u, hu, hrun⟩ := hnext buf' total' st' h' hf' hc hp
    refine ⟨k + 1, u, hu, fun fuel hle => ?_⟩
    obtain ⟨fuel, rfl⟩ := Nat.exists_eq_add_of_le' hle
    exact (hgo (fuel + k)).trans (hrun _ (Nat.le_add_left k fuel))

/-- The induction is on the bytes the file still has, and among interruptions on the time
until a read that is not interrupted. -/
theorem readLoop_returns (hread : ∀ n pos, pos ≤ max offset file.content.length →
      readAt n pos = pread file n pos)
    (hmax : max offset file.content.length < 2 ^ 64) (hb : canGrow = true → len ≤ bound)
    (h : Filling file.content offset len canGrow buf total) (hf : Fine bound st) :
    Returns (fun fuel => readLoop readAt offset len canGrow fuel buf total)
      ((file.content.drop offset).take len) bound st := by
  induction hm : file.content.length - offset - total using Nat.strong_induction_on
    generalizing buf total st with
  | _ m ih =>
    obtain ⟨k, hk, hans⟩ := file.reads.answered st.clock
    induction hd : k - st.clock generalizing buf st with
    | zero =>
      apply returns_of_round hread hmax hb h hf
      intro buf' total' st' h' hf' hc hp
      have havail := h'.avail
      rcases hp with hlt | ⟨-, hnone⟩
      · exact ih _ (by omega) h' hf' rfl
      · have hkc : k = st.clock := by omega
        exact absurd hnone (hkc ▸ hans)
    | succ d ihd =>
      apply returns_of_round hread hmax hb h hf
      intro buf' total' st' h' hf' hc hp
      have havail := h'.avail
      rcases hp with hlt | ⟨rfl, -⟩
      · exact ih _ (by omega) h' hf' rfl
      · exact ihd h' hf' (by omega) (by omega)

/-! ### Range reads -/

theorem roundedStep_eq {available : ℕ} (h : available + (growStep - 1) < 2 ^ 64) :
    roundedStep available = alignUp available growStep := by
  rw [roundedStep, if_pos h, alignUp, Nat.add_sub_assoc (by decide)]

/-- A buffer of whole steps has room for what there is. -/
theorem roundedStep_ge {available : ℕ} (h : available < 2 ^ 64) :
    available ≤ roundedStep available := by
  by_cases hs : available + (growStep - 1) < 2 ^ 64
  · rw [roundedStep_eq hs]
    exact le_alignUp _ _ (by decide)
  · rw [roundedStep, if_neg hs]
    omega

theorem roundedStep_le (available : ℕ) : roundedStep available ≤ alignUp available growStep := by
  by_cases hs : available + (growStep - 1) < 2 ^ 64
  · exact (roundedStep_eq hs).le
  · obtain ⟨j, hj⟩ := alignUp_dvd available growStep
    have hle := le_alignUp available growStep (by decide)
    have hg : growStep = 65536 := rfl
    rw [roundedStep, if_neg hs]
    rw [hg] at hs hj hle ⊢
    omega

/-- A regular file: what `fstat` says is so. -/
def regular (content : Bytes) (reads : Reads) : File :=
  ⟨.ok ⟨true, content.length⟩, content, reads⟩

/-- A file of another kind, whatever `fstat` says about its length. -/
def unsized (m : ℕ) (content : Bytes) (reads : Reads) : File := ⟨.ok ⟨false, m⟩, content, reads⟩

/-- A body whose first buffer has room for what is wanted. -/
theorem readRangeWith_returns {info : Metadata} {c : ℕ} (hm : file.metadata = .ok info)
    (hread : ∀ n pos, pos ≤ max offset file.content.length → readAt n pos = pread file n pos)
    (hmax : max offset file.content.length < 2 ^ 64)
    (hlen : (initialBuf info offset len).1 ≤ min len bound)
    (hgrow : (initialBuf info offset len).2 = true → len ≤ bound)
    (hroom : (initialBuf info offset len).2 = false → (initialBuf info offset len).1 = len ∨
      file.content.length - offset ≤ (initialBuf info offset len).1) :
    Returns (fun fuel => readRangeWith fuel file offset len readAt)
      ((file.content.drop offset).take len) bound ⟨c, [], []⟩ := by
  have hbuf : ([] ++ zeros ((initialBuf info offset len).1 - ([] : Bytes).length)).length =
      (initialBuf info offset len).1 := by
    rw [List.nil_append, length_zeros, List.length_nil, Nat.sub_zero]
  have hfill : Filling file.content offset len (initialBuf info offset len).2
      ([] ++ zeros ((initialBuf info offset len).1 - ([] : Bytes).length)) 0 := by
    refine ⟨rfl, Nat.zero_le _, Nat.zero_le _, ?_, ?_⟩
    · rw [hbuf]
      omega
    · rw [hbuf]
      exact hroom
  have hfine : Fine bound ⟨c, [], [(initialBuf info offset len).1]⟩ := by
    refine ⟨nofun, fun n hn => ?_⟩
    rw [List.mem_singleton] at hn
    omega
  obtain ⟨k, st', hf, hrun⟩ := readLoop_returns hread hmax hgrow hfill hfine
  refine ⟨k, st', hf, fun fuel hle => ?_⟩
  rw [← hrun fuel hle]
  show readRangeWith fuel file offset len readAt ⟨c, [], []⟩ = _
  rw [readRangeWith, hm]
  rfl

end

section

variable (content : Bytes) (reads : Reads) (offset len c : ℕ)

theorem readRangeWith_regular {readAt : ℕ → ℕ → Prog Reading IoError Bytes}
    (hread : ∀ n pos, pos ≤ max offset content.length →
      readAt n pos = pread (regular content reads) n pos)
    (ho : offset < 2 ^ 64) (hc : content.length < 2 ^ 64) :
    Returns (fun fuel => readRangeWith fuel (regular content reads) offset len readAt)
      ((content.drop offset).take len)
      (min len (alignUp (content.length - offset) growStep)) ⟨c, [], []⟩ := by
  have hle := roundedStep_le (content.length - offset)
  have hge : content.length - offset ≤ roundedStep (content.length - offset) :=
    roundedStep_ge (by omega)
  have hinit : initialBuf ⟨true, content.length⟩ offset len =
      (min len (roundedStep (content.length - offset)), false) := rfl
  have hm : (regular content reads).metadata = .ok ⟨true, content.length⟩ := rfl
  refine readRangeWith_returns hm hread (max_lt ho hc) ?_ ?_ ?_
  · rw [hinit]
    dsimp only
    omega
  · rw [hinit]
    nofun
  · rw [hinit]
    intro _
    show _ ∨ content.length - offset ≤ _
    dsimp only
    omega

/-- An offset past the range of `off_t` is past the end, so nothing is read. -/
theorem readRange_regular (ho : offset < 2 ^ 64) (hc : content.length < 2 ^ 63) :
    Returns (fun fuel => readRange fuel (regular content reads) offset len)
      ((content.drop offset).take len)
      (min len (alignUp (content.length - offset) growStep)) ⟨c, [], []⟩ := by
  by_cases hoff : offset < 2 ^ 63
  · apply readRangeWith_regular content reads offset len c ?_ ho (by omega)
    intro n pos hpos
    rw [preadLinux, if_pos (by omega)]
  · have h0 : content.length - offset = 0 := by omega
    have hinit : initialBuf ⟨true, content.length⟩ offset len = (0, false) := by
      simp only [initialBuf, h0, if_true]
      exact congrArg (·, false) (Nat.min_zero len)
    rw [List.drop_eq_nil_of_le (by omega), List.take_nil]
    refine ⟨1, ⟨c, [], [0]⟩, ⟨nofun, by simp⟩, fun fuel hle => ?_⟩
    obtain ⟨fuel, rfl⟩ := Nat.exists_eq_add_of_le' hle
    have hrun : readRange (fuel + 1) (regular content reads) offset len ⟨c, [], []⟩ =
        (resize [] (initialBuf ⟨true, content.length⟩ offset len).1 >>= fun buf =>
          readLoop (preadLinux (regular content reads)) offset len
            (initialBuf ⟨true, content.length⟩ offset len).2 (fuel + 1) buf 0) ⟨c, [], []⟩ := rfl
    dsimp only
    rw [hrun, hinit]
    rfl

theorem readAt_regular (ho : offset < 2 ^ 64) (hc : content.length < 2 ^ 63) :
    Returns (fun fuel => readAt fuel (regular content reads) offset len)
      ((content.drop offset).take len)
      (min len (alignUp (content.length - offset) growStep)) ⟨c, [], []⟩ := by
  have hrun : ∀ fuel, readAt fuel (regular content reads) offset len ⟨c, [], []⟩ =
      (if min len (content.length - offset) = 0 then pure []
        else readRange fuel (regular content reads) offset (min len (content.length - offset)))
        ⟨c, [], []⟩ := fun fuel => rfl
  have hcut : (content.drop offset).take len =
      (content.drop offset).take (min len (content.length - offset)) := by
    rw [List.take_eq_take_iff, List.length_drop]
    omega
  by_cases h0 : min len (content.length - offset) = 0
  · refine ⟨0, ⟨c, [], []⟩, ⟨nofun, nofun⟩, fun fuel _ => ?_⟩
    dsimp only
    rw [hrun, if_pos h0, hcut, h0]
    rfl
  · obtain ⟨k, st', hf, hret⟩ :=
      readRange_regular content reads offset (min len (content.length - offset)) c ho hc
    refine ⟨k, st', ⟨hf.requests, fun n hn => ?_⟩, fun fuel hle => ?_⟩
    · have := hf.allocated n hn
      omega
    · dsimp only
      rw [hrun, if_neg h0, hcut]
      exact hret fuel hle

/-- A buffer that grows as data comes. -/
theorem readRangeWith_unsized (m : ℕ) (ho : offset < 2 ^ 64) (hc : content.length < 2 ^ 64) :
    Returns (fun fuel => readRangeWith fuel (unsized m content reads) offset len
      (pread (unsized m content reads))) ((content.drop offset).take len) len ⟨c, [], []⟩ := by
  have hm : (unsized m content reads).metadata = .ok ⟨false, m⟩ := rfl
  have hinit : initialBuf ⟨false, m⟩ offset len = (min len growStep, true) := rfl
  refine readRangeWith_returns hm (fun _ _ _ => rfl) (max_lt ho hc) ?_ ?_ ?_
  · rw [hinit]
    dsimp only
    omega
  · intro _
    exact Nat.le_refl len
  · rw [hinit]
    nofun

end

/-- A range read returns the range, cut at the end of the file, on every schedule of short
reads and interruptions. -/
theorem range_read_exact (content : Bytes) (reads : Reads) (offset len : UInt64) (m c : ℕ)
    (hc : content.length < 2 ^ 64) :
    Returns (fun fuel => readRangeWith fuel (regular content reads) offset.toNat len.toNat
        (pread (regular content reads)))
      ((content.drop offset.toNat).take len.toNat)
      (min len.toNat (alignUp (content.length - offset.toNat) growStep)) ⟨c, [], []⟩ ∧
    (content.length < 2 ^ 63 →
      Returns (fun fuel => readRange fuel (regular content reads) offset.toNat len.toNat)
        ((content.drop offset.toNat).take len.toNat)
        (min len.toNat (alignUp (content.length - offset.toNat) growStep)) ⟨c, [], []⟩ ∧
      Returns (fun fuel => readAt fuel (regular content reads) offset.toNat len.toNat)
        ((content.drop offset.toNat).take len.toNat)
        (min len.toNat (alignUp (content.length - offset.toNat) growStep)) ⟨c, [], []⟩) ∧
    Returns (fun fuel => readRangeWith fuel (unsized m content reads) offset.toNat len.toNat
        (pread (unsized m content reads)))
      ((content.drop offset.toNat).take len.toNat) len.toNat ⟨c, [], []⟩ := by
  refine ⟨?_, fun hoff => ⟨?_, ?_⟩, ?_⟩
  · exact readRangeWith_regular content reads _ _ c (fun _ _ _ => rfl) offset.toNat_lt hc
  · exact readRange_regular content reads _ _ c offset.toNat_lt hoff
  · exact readAt_regular content reads _ _ c offset.toNat_lt hoff
  · exact readRangeWith_unsized content reads _ _ c m offset.toNat_lt hc

/-- Every other read is interrupted, the rest give a byte. -/
def bytewise : Reads where
  reply t := if t % 2 = 0 then none else some 0
  answered t := ⟨2 * t + 1, by omega, by simp⟩

theorem range_read_bytewise : ([1, 2, 3, 4] : Bytes).length < 2 ^ 64 ∧
    ∃ k st', ∀ fuel, k ≤ fuel →
      readAt fuel (regular [1, 2, 3, 4] bytewise) 1 (2 ^ 64 - 1) ⟨0, [], []⟩ =
        (.ok [2, 3, 4], st') := by
  refine ⟨by decide, ?_⟩
  obtain ⟨k, st', -, hrun⟩ :=
    ((range_read_exact [1, 2, 3, 4] bytewise 1 (-1) 0 0 (by decide)).2.1 (by decide)).2
  exact ⟨k, st', hrun⟩

end Fsys.Platform
