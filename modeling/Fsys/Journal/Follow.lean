import Mathlib.Data.List.Infix
import Fsys.Base.Transition
import Fsys.Journal.ReaderFaults

/-!
# Following a journal that grows (src/journal/reader.rs:203-279, 463-685)

One thread appends to a journal (`journal/mod.rs:699-780`, buffered), `pwrite` by `pwrite`,
and a reader of the same file takes its size anew, iterates, gives an iterator up and
iterates again. Between two passes of the loop in `next` the file may grow; the reads of one
pass stay below the size that the reader has, where the file does not change any more.
-/

namespace Fsys.Journal
open Fsys.Base

/-- Has the `JournalReader`: its owner, or the iterator that borrows it. -/
inductive Borrow where
  | reader (r : JournalReader)
  | iter (it : JournalIter)

def Borrow.get : Borrow → JournalReader
  | .reader r => r
  | .iter it => it.reader

/-- The iterator in front of a file that has these contents by now. -/
abbrev JournalIter.on (file : Bytes) (it : JournalIter) : JournalIter :=
  { it with reader := { it.reader with file := file } }

structure Following where
  file : Bytes
  /-- the records of the appends that have begun -/
  appended : List Bytes
  borrow : Borrow
  /-- what the iterators returned -/
  seen : List JournalRecord
  /-- how the iterator ended, when it ended by itself -/
  ended : Option JournalTailState

inductive FollowAction where
  /-- `append` or `append_batch` reserves -/
  | append (records : List Bytes)
  /-- one `pwrite` of it -/
  | pwrite (n : ℕ)
  /-- `refresh_size` -/
  | refresh
  /-- `iter` -/
  | iter
  /-- a pass of the loop in `next` -/
  | pass
  /-- the iterator is dropped -/
  | drop

namespace Following

variable (crc : Crc) (sched : ReadSchedule)

def position (s : Following) : ℕ := s.borrow.get.cursor

def fileSize (s : Following) : ℕ := s.borrow.get.fileSize

/-- `JournalReader::open` on a file that holds these records. -/
def start (records : List Bytes) : Following :=
  ⟨framesBytes crc records, records, .reader (JournalReader.open (framesBytes crc records)), [],
    none⟩

/-- What a pass returned. -/
def returned (s : Following) : JournalIter.Turn → Following
  | .again it => { s with borrow := .iter it }
  | .ret it none => { s with borrow := .iter it, ended := some it.reader.tailState }
  | .ret it (some (.error _)) => { s with borrow := .iter it }
  | .ret it (some (.ok r)) => { s with borrow := .iter it, seen := s.seen ++ [r] }

def next (s : Following) : FollowAction → Option Following
  | .append records =>
    if s.file = framesBytes crc s.appended ∧ ∀ p ∈ records, Fits p then
      some { s with appended := s.appended ++ records }
    else none
  | .pwrite n =>
    some { s with file := (framesBytes crc s.appended).take (s.file.length + n) }
  | .refresh =>
    match s.borrow with
    | .reader r =>
      some { s with borrow := .reader { r with fileSize := s.file.length }, ended := none }
    | .iter _ => none
  | .iter =>
    match s.borrow with
    | .reader r => some { s with borrow := .iter r.iter, ended := none }
    | .iter _ => none
  | .pass =>
    match s.borrow with
    | .reader _ => none
    | .iter it =>
      if it.finished then none else (JournalIter.turn crc sched (it.on s.file)).map s.returned
  | .drop =>
    match s.borrow with
    | .reader _ => none
    | .iter it => some { s with borrow := .reader it.reader }

end Following

/-! ### The reads of a pass -/

namespace JournalIter

variable {G H F : Bytes} {n : ℕ} {it : JournalIter} (sched : ReadSchedule)

/-- Two files that begin alike. -/
theorem take_drop_of_take (h : G.take n = H.take n) {offset len : ℕ} (hle : offset + len ≤ n) :
    (G.drop offset).take len = (H.drop offset).take len := by
  have hcut : ∀ X : Bytes, (X.drop offset).take len = ((X.take n).drop offset).take len := by
    intro X
    rw [List.drop_take, List.take_take, Nat.min_eq_left (by omega)]
  rw [hcut G, hcut H, h]

theorem osRead_congr (reply : ReadReply) (h : G.take n = H.take n) {offset len : ℕ}
    (hle : offset + len ≤ n) : osRead reply G offset len = osRead reply H offset len := by
  cases reply with
  | fail e => rfl
  | short extra =>
    have hmin := Nat.min_le_left len (extra + 1)
    simp only [osRead, take_drop_of_take h (show offset + min len (extra + 1) ≤ n by omega)]

/-- The induction is on the passes left; each reads behind what the last one got. -/
theorem readLoop_congr (h : G.take n = H.take n) {offset want : ℕ} (hle : offset + want ≤ n)
    (fuel k : ℕ) (got : Bytes) :
    readLoop sched G offset want fuel k got = readLoop sched H offset want fuel k got := by
  induction fuel generalizing k got with
  | zero => rfl
  | succ fuel ih =>
    unfold readLoop
    by_cases hlt : got.length < want
    · have hread := osRead_congr (sched k) h
        (show offset + got.length + (want - got.length) ≤ n by omega)
      simp only [if_pos hlt, hread, ih]
    · rw [if_neg hlt, if_neg hlt]

theorem fill_on (h : G.take it.reader.fileSize = H.take it.reader.fileSize) :
    fill sched (it.on G) = ((fill sched (it.on H)).1, (fill sched (it.on H)).2.on G) := by
  unfold fill
  dsimp only [on]
  by_cases hend : it.reader.cursor + it.validEnd ≥ it.reader.fileSize
  · simp only [if_pos hend]
  · by_cases hnone : min (it.reader.fileSize - (it.reader.cursor + it.validEnd))
        (it.buf.length - it.validEnd) = 0
    · simp only [if_neg hend, if_pos hnone]
    · simp only [if_neg hend, if_neg hnone]
      rw [readLoop_congr sched h (by omega)]
      generalize readLoop sched H _ _ _ _ _ = got
      obtain ⟨r, k⟩ := got
      cases r with
      | ok data => rfl
      | error e => rfl

theorem compact_on : (it.on G).compact = it.compact.on G := by
  unfold compact
  by_cases hv : it.validStart > 0
  · simp only [if_pos hv]
    rfl
  · simp only [if_neg hv]

theorem grow_on (len : ℕ) : (it.on G).grow len = (it.grow len).on G := by
  unfold grow
  by_cases hlt : it.buf.length < min (frameOverhead + len) (it.reader.fileSize - it.reader.cursor)
  · simp only [if_pos hlt]
  · simp only [if_neg hlt]

/-- A pass does not see what others append meanwhile. -/
theorem refill_on (h : G.take it.reader.fileSize = H.take it.reader.fileSize) :
    refill sched (it.on G) = ((refill sched (it.on H)).1, (refill sched (it.on H)).2.on G) := by
  have hfill : ∀ c : JournalIter, c.reader = it.reader →
      fill sched (c.on G) = ((fill sched (c.on H)).1, (fill sched (c.on H)).2.on G) := by
    intro c hc
    apply fill_on
    rw [hc]
    exact h
  have hc := compact_reader it
  unfold refill
  simp only [compact_on, grow_on]
  by_cases hfull : it.compact.buf.length = it.compact.validEnd
  · by_cases hshort : it.compact.validEnd < 8
    · simp only [if_pos hfull, if_pos hshort]
    · by_cases hmax : leAt it.compact.buf 4 > frameMaxPayload
      · simp only [if_pos hfull, if_neg hshort, if_pos hmax]
      · simp only [if_pos hfull, if_neg hshort, if_neg hmax]
        exact hfill _ ((grow_reader _ _).trans hc)
  · simp only [if_neg hfull]
    exact hfill _ hc

end JournalIter

end Fsys.Journal
