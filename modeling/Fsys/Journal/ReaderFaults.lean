import Fsys.Journal.ReaderScan

/-!
# Replay with failing reads

A `read` that fails ends the iteration with that error. Up to there the run is
the one over non-empty short reads: a replay ends for every schedule, and it is the
one-shot scan when none of the calls that the run over the short reads makes fails,
an error otherwise.
-/

namespace Fsys.Journal
open Fsys.Base

/-- The short reads of a schedule, failures replaced. -/
def shortsOf (sched : ReadSchedule) : ℕ → ℕ := fun k =>
  match sched k with
  | .short extra => extra
  | .fail _ => 0

def ReadReply.Fails (reply : ReadReply) : Prop := ∃ e, reply = .fail e

theorem reply_cases (sched : ReadSchedule) (k : ℕ) :
    (sched k).Fails ∨ (¬(sched k).Fails ∧ shortReads (shortsOf sched) k = sched k) := by
  cases hk : sched k with
  | fail e => exact .inl ⟨e, rfl⟩
  | short extra =>
    refine .inr ⟨?_, by simp only [shortReads, shortsOf, hk]⟩
    rintro ⟨e, he⟩
    cases he

/-- A run beside the run over the short reads, which makes the calls from `k` to `k'`: none of
these fails and the two are the same, or one of them fails and the run does. -/
structure Follows (sched : ReadSchedule) (k k' : ℕ) (same failed : Prop) : Prop where
  le : k ≤ k'
  cases : ((∀ j, k ≤ j → j < k' → ¬(sched j).Fails) ∧ same) ∨
    ((∃ j, k ≤ j ∧ j < k' ∧ (sched j).Fails) ∧ failed)

section Follows

variable {sched : ReadSchedule} {k k₁ k' : ℕ} {same same₁ same₂ failed failed₁ failed₂ : Prop}

theorem Follows.of_same (h : same) : Follows sched k k same failed :=
  ⟨Nat.le_refl k, .inl ⟨fun _ _ _ => by omega, h⟩⟩

theorem Follows.imp (h : Follows sched k k' same₁ failed₁) (hsame : same₁ → same)
    (hfailed : failed₁ → failed) : Follows sched k k' same failed := by
  refine ⟨h.le, ?_⟩
  cases h.cases with
  | inl hs => exact .inl ⟨hs.1, hsame hs.2⟩
  | inr hf => exact .inr ⟨hf.1, hfailed hf.2⟩

/-- One run after the other. -/
theorem Follows.trans (h : Follows sched k k₁ same₁ failed₁)
    (h' : Follows sched k₁ k' same₂ failed₂) (hsame : same₁ → same₂ → same)
    (hfirst : failed₁ → failed) (hsecond : same₁ → failed₂ → failed) :
    Follows sched k k' same failed := by
  refine ⟨h.le.trans h'.le, ?_⟩
  obtain ⟨hshort, hs⟩ | ⟨⟨j, hj, hj', hfails⟩, hf⟩ := h.cases
  · obtain ⟨hshort', hs'⟩ | ⟨⟨j, hj, hj', hfails⟩, hf'⟩ := h'.cases
    · refine .inl ⟨?_, hsame hs hs'⟩
      intro j hj hj'
      by_cases hlt : j < k₁
      · exact hshort j hj hlt
      · exact hshort' j (by omega) hj'
    · exact .inr ⟨⟨j, h.le.trans hj, hj', hfails⟩, hsecond hs hf'⟩
  · exact .inr ⟨⟨j, hj, hj'.trans_le h'.le, hfails⟩, hfirst hf⟩

/-- One call. -/
theorem follows_call (sched : ReadSchedule) (k : ℕ) :
    Follows sched k (k + 1) (shortReads (shortsOf sched) k = sched k) (sched k).Fails := by
  refine ⟨Nat.le_succ k, ?_⟩
  obtain hfails | ⟨hshort, hsame⟩ := reply_cases sched k
  · exact .inr ⟨⟨k, Nat.le_refl k, Nat.lt_succ_self k, hfails⟩, hfails⟩
  · refine .inl ⟨?_, hsame⟩
    intro j hj hj'
    rwa [show j = k by omega]

end Follows

/-! ### The read loops -/

/-- The error is an answer of the schedule. -/
def Answered (sched : ReadSchedule) (e : IoError) : Prop := ∃ j, sched j = .fail e

section Loop

variable (eof : Bytes → Except IoError Bytes) (sched : ReadSchedule)

/-- A turn of the loop that got some bytes. -/
theorem readUntil_step {file data got : Bytes} {offset want k : ℕ} (fuel : ℕ)
    (hw : got.length < want)
    (hread : osRead (sched k) file (offset + got.length) (want - got.length) = .ok data) :
    readUntil eof sched file offset want (fuel + 1) k got =
      if data.length = 0 then (eof got, k + 1)
      else readUntil eof sched file offset want fuel (k + 1) (got ++ data) := by
  rw [readUntil, if_pos hw, hread]

theorem readUntil_follows (file : Bytes) (offset want fuel k : ℕ) (got : Bytes) :
    Follows sched k (readUntil eof (shortReads (shortsOf sched)) file offset want fuel k got).2
      (readUntil eof sched file offset want fuel k got =
        readUntil eof (shortReads (shortsOf sched)) file offset want fuel k got)
      (∃ e k', Answered sched e ∧
        readUntil eof sched file offset want fuel k got = (.error e, k')) := by
  induction fuel generalizing k got with
  | zero => exact .of_same rfl
  | succ fuel ih =>
    by_cases hw : got.length < want
    · obtain ⟨data, hread⟩ : ∃ data, osRead (shortReads (shortsOf sched) k) file
          (offset + got.length) (want - got.length) = .ok data := ⟨_, rfl⟩
      have hfails : (sched k).Fails → ∃ e k', Answered sched e ∧
          readUntil eof sched file offset want (fuel + 1) k got = (.error e, k') := by
        rintro ⟨e, he⟩
        exact ⟨e, k + 1, ⟨k, he⟩, by rw [readUntil, if_pos hw, he]; rfl⟩
      rw [readUntil_step eof _ fuel hw hread]
      by_cases hdata : data.length = 0
      · rw [if_pos hdata]
        refine (follows_call sched k).imp ?_ hfails
        intro hsame
        rw [hsame] at hread
        rw [readUntil_step eof _ fuel hw hread, if_pos hdata]
      · rw [if_neg hdata]
        refine (follows_call sched k).trans (ih (k + 1) (got ++ data)) ?_ hfails ?_
        · intro hsame hrest
          rw [hsame] at hread
          rw [readUntil_step eof _ fuel hw hread, if_neg hdata, hrest]
        · intro hsame hrest
          rw [hsame] at hread
          rw [readUntil_step eof _ fuel hw hread, if_neg hdata]
          exact hrest
    · have hstop : ∀ sched,
          readUntil eof sched file offset want (fuel + 1) k got = (.ok got, k) := by
        intro sched
        rw [readUntil, if_neg hw]
      rw [hstop, hstop]
      exact .of_same rfl

end Loop

namespace JournalIter

variable (sched : ReadSchedule)

theorem readLoop_follows (file : Bytes) (offset want fuel k : ℕ) (got : Bytes) :
    Follows sched k (readLoop (shortReads (shortsOf sched)) file offset want fuel k got).2
      (readLoop sched file offset want fuel k got =
        readLoop (shortReads (shortsOf sched)) file offset want fuel k got)
      (∃ e k', readLoop sched file offset want fuel k got = (.error e, k')) := by
  rw [readLoop_eq, readLoop_eq]
  refine (readUntil_follows .ok sched file offset want fuel k got).imp (fun hsame => hsame) ?_
  rintro ⟨e, k', -, hfailed⟩
  exact ⟨e, k', hfailed⟩

theorem fill_follows (it : JournalIter) :
    Follows sched it.reader.reads (fill (shortReads (shortsOf sched)) it).2.reader.reads
      (fill sched it = fill (shortReads (shortsOf sched)) it)
      (∃ e it', fill sched it = (.error e, it')) := by
  unfold fill
  dsimp only
  split
  · exact .of_same rfl
  · split
    · exact .of_same rfl
    · have hloop := readLoop_follows sched it.reader.file (it.reader.cursor + it.validEnd)
        (min (it.reader.fileSize - (it.reader.cursor + it.validEnd))
          (it.buf.length - it.validEnd))
        (min (it.reader.fileSize - (it.reader.cursor + it.validEnd))
          (it.buf.length - it.validEnd)) it.reader.reads []
      generalize readLoop (shortReads (shortsOf sched)) it.reader.file
        (it.reader.cursor + it.validEnd) _ _ it.reader.reads [] = shorts at hloop ⊢
      generalize readLoop sched it.reader.file
        (it.reader.cursor + it.validEnd) _ _ it.reader.reads [] = run at hloop ⊢
      obtain ⟨result, k⟩ := shorts
      cases result <;>
        · refine hloop.imp (fun hsame => by rw [hsame]) ?_
          rintro ⟨e, k', hfailed⟩
          exact ⟨e, _, by rw [hfailed]⟩

theorem compact_reader (it : JournalIter) : it.compact.reader = it.reader := by
  unfold compact
  split <;> rfl

theorem grow_reader (it : JournalIter) (payloadLen : ℕ) :
    (it.grow payloadLen).reader = it.reader := by
  unfold grow
  dsimp only
  split <;> rfl

theorem refill_follows (it : JournalIter) :
    Follows sched it.reader.reads (refill (shortReads (shortsOf sched)) it).2.reader.reads
      (refill sched it = refill (shortReads (shortsOf sched)) it)
      (∃ e it', refill sched it = (.error e, it')) := by
  rw [← compact_reader it]
  unfold refill
  dsimp only
  split
  · split
    · exact .of_same rfl
    · split
      · exact .of_same rfl
      · rw [← grow_reader it.compact (leAt it.compact.buf 4)]
        exact fill_follows sched _
  · exact fill_follows sched _

/-! ### The zero run and the turns of `next` -/

/-- The run over the short reads returns with so many calls made, if it returns. -/
def ReturnsAt {α : Type} (reads : α → ℕ) (result : Option α) (k : ℕ) : Prop :=
  ∀ x, result = some x → reads x = k

theorem returnsAt_some {α : Type} (reads : α → ℕ) (x : α) : ReturnsAt reads (some x) (reads x) := by
  intro y hy
  cases hy
  rfl

theorem zeroLoop_follows (fuel : ℕ) (it : JournalIter) :
    ∃ k, ReturnsAt (·.2.reader.reads) (zeroLoop (shortReads (shortsOf sched)) fuel it) k ∧
      Follows sched it.reader.reads k
        (zeroLoop sched fuel it = zeroLoop (shortReads (shortsOf sched)) fuel it)
        (∃ e it', zeroLoop sched fuel it = some (.error e, it')) := by
  induction fuel generalizing it with
  | zero => exact ⟨it.reader.reads, by simp [ReturnsAt, zeroLoop], .of_same rfl⟩
  | succ fuel ih =>
    unfold zeroLoop
    dsimp only
    split
    · exact ⟨_, returnsAt_some _ _, .of_same rfl⟩
    · split
      · exact ⟨_, returnsAt_some _ _, .of_same rfl⟩
      · have hrefill := refill_follows sched it.drain
        generalize refill (shortReads (shortsOf sched)) it.drain = shorts at hrefill ⊢
        generalize refill sched it.drain = run at hrefill ⊢
        obtain ⟨result, it₁⟩ := shorts
        cases result with
        | error e =>
          refine ⟨_, returnsAt_some _ _, hrefill.imp (fun hsame => by rw [hsame]) ?_⟩
          rintro ⟨e, it', hfailed⟩
          exact ⟨e, it', by rw [hfailed]⟩
        | ok n =>
          cases n with
          | zero =>
            refine ⟨_, returnsAt_some _ _, hrefill.imp (fun hsame => by rw [hsame]) ?_⟩
            rintro ⟨e, it', hfailed⟩
            exact ⟨e, it', by rw [hfailed]⟩
          | succ n =>
            obtain ⟨k, hk, hrest⟩ := ih it₁
            refine ⟨k, hk, hrefill.trans hrest ?_ ?_ ?_⟩
            · intro hsame hloop
              rw [hsame]
              exact hloop
            · rintro ⟨e, it', hfailed⟩
              exact ⟨e, it', by rw [hfailed]⟩
            · intro hsame hloop
              rw [hsame]
              exact hloop

theorem skipZeroRun_follows (it : JournalIter) :
    ∃ k, ReturnsAt (·.2.reader.reads) (skipZeroRun (shortReads (shortsOf sched)) it) k ∧
      Follows sched it.reader.reads k
        (skipZeroRun sched it = skipZeroRun (shortReads (shortsOf sched)) it)
        (∃ e it', skipZeroRun sched it = some (.error e, it')) := by
  obtain ⟨k, hk, hloop⟩ := zeroLoop_follows sched it.zeroFuel it
  unfold skipZeroRun
  dsimp only
  refine ⟨k, ?_, hloop.imp (fun hsame => by rw [hsame]) ?_⟩
  · generalize zeroLoop (shortReads (shortsOf sched)) it.zeroFuel it = shorts at hk ⊢
    intro x hx
    split at hx
    · cases hx
    · rename_i it₁
      cases hx
      exact hk _ rfl
    · rename_i it₁
      cases hx
      exact hk _ rfl
    · rename_i it₁
      split at hx
      · cases hx
        exact hk _ rfl
      · cases hx
        exact hk _ rfl
  · rintro ⟨e, it', hfailed⟩
    exact ⟨e, it', by rw [hfailed]⟩

theorem decodeTurn_follows (crc : Crc) (it : JournalIter) :
    Follows sched it.reader.reads
      (decodeTurn crc (shortReads (shortsOf sched)) it).iter.reader.reads
      (decodeTurn crc sched it = decodeTurn crc (shortReads (shortsOf sched)) it)
      (∃ e it', decodeTurn crc sched it = .ret it' (some (.error e))) := by
  unfold decodeTurn
  split
  · exact .of_same rfl
  · dsimp only
    split
    · exact .of_same rfl
    · have hrefill := refill_follows sched it
      generalize refill (shortReads (shortsOf sched)) it = shorts at hrefill ⊢
      generalize refill sched it = run at hrefill ⊢
      obtain ⟨result, it₁⟩ := shorts
      cases result with
      | error e =>
        refine hrefill.imp (fun hsame => by rw [hsame]) ?_
        rintro ⟨e, it', hfailed⟩
        exact ⟨e, _, by rw [hfailed]; rfl⟩
      | ok n =>
        cases n <;>
          · refine hrefill.imp (fun hsame => by rw [hsame]) ?_
            rintro ⟨e, it', hfailed⟩
            exact ⟨e, _, by rw [hfailed]; rfl⟩
  · exact .of_same rfl
  · exact .of_same rfl
  · exact .of_same rfl

theorem bufferedTurn_follows (crc : Crc) (it : JournalIter) :
    ∃ k, ReturnsAt (·.iter.reader.reads) (bufferedTurn crc (shortReads (shortsOf sched)) it) k ∧
      Follows sched it.reader.reads k
        (bufferedTurn crc sched it = bufferedTurn crc (shortReads (shortsOf sched)) it)
        (∃ e it', bufferedTurn crc sched it = some (.ret it' (some (.error e)))) := by
  unfold bufferedTurn
  split
  · obtain ⟨k, hk, hskip⟩ := skipZeroRun_follows sched it
    refine ⟨k, ?_, hskip.imp (fun hsame => by rw [hsame]) ?_⟩
    · generalize skipZeroRun (shortReads (shortsOf sched)) it = shorts at hk ⊢
      intro x hx
      split at hx
      · cases hx
      · cases hx
        exact hk _ rfl
      · cases hx
        exact hk _ rfl
      · cases hx
        exact hk _ rfl
    · rintro ⟨e, it', hfailed⟩
      exact ⟨e, _, by rw [hfailed]; rfl⟩
  · refine ⟨_, returnsAt_some _ _, (decodeTurn_follows sched crc it).imp
      (fun hsame => by rw [hsame]) ?_⟩
    rintro ⟨e, it', hfailed⟩
    exact ⟨e, it', by rw [hfailed]⟩

theorem turn_follows (crc : Crc) (it : JournalIter) :
    ∃ k, ReturnsAt (·.iter.reader.reads) (turn crc (shortReads (shortsOf sched)) it) k ∧
      Follows sched it.reader.reads k
        (turn crc sched it = turn crc (shortReads (shortsOf sched)) it)
        (∃ e it', turn crc sched it = some (.ret it' (some (.error e)))) := by
  unfold turn
  split
  · split
    · exact ⟨_, returnsAt_some _ _, .of_same rfl⟩
    · have hrefill := refill_follows sched it
      generalize refill (shortReads (shortsOf sched)) it = shorts at hrefill ⊢
      generalize refill sched it = run at hrefill ⊢
      obtain ⟨result, it₁⟩ := shorts
      cases result with
      | error e =>
        refine ⟨_, returnsAt_some _ _, hrefill.imp (fun hsame => by rw [hsame]) ?_⟩
        rintro ⟨e, it', hfailed⟩
        exact ⟨e, _, by rw [hfailed]; rfl⟩
      | ok n =>
        cases n with
        | zero =>
          refine ⟨_, returnsAt_some _ _, hrefill.imp (fun hsame => by rw [hsame]) ?_⟩
          rintro ⟨e, it', hfailed⟩
          exact ⟨e, _, by rw [hfailed]; rfl⟩
        | succ n =>
          obtain ⟨k, hk, hrest⟩ := bufferedTurn_follows sched crc it₁
          refine ⟨k, hk, hrefill.trans hrest ?_ ?_ ?_⟩
          · intro hsame hturn
            rw [hsame]
            exact hturn
          · rintro ⟨e, it', hfailed⟩
            exact ⟨e, _, by rw [hfailed]; rfl⟩
          · intro hsame hturn
            rw [hsame]
            exact hturn
  · exact bufferedTurn_follows sched crc it

theorem next_follows (crc : Crc) (fuel : ℕ) (it : JournalIter) :
    ∃ k, ReturnsAt (·.1.reader.reads) (next crc (shortReads (shortsOf sched)) fuel it) k ∧
      Follows sched it.reader.reads k
        (next crc sched fuel it = next crc (shortReads (shortsOf sched)) fuel it)
        (∃ e it', next crc sched fuel it = some (it', some (.error e))) := by
  induction fuel generalizing it with
  | zero => exact ⟨it.reader.reads, by simp [ReturnsAt, next], .of_same rfl⟩
  | succ fuel ih =>
    unfold next
    split
    · exact ⟨_, returnsAt_some _ _, .of_same rfl⟩
    · obtain ⟨k, hk, hturn⟩ := turn_follows sched crc it
      generalize turn crc (shortReads (shortsOf sched)) it = shorts at hk hturn ⊢
      generalize turn crc sched it = run at hturn ⊢
      cases shorts with
      | none =>
        refine ⟨k, by simp [ReturnsAt], hturn.imp (fun hsame => by rw [hsame]) ?_⟩
        rintro ⟨e, it', hfailed⟩
        exact ⟨e, it', by rw [hfailed]⟩
      | some t =>
        have hreads := hk t rfl
        cases t with
        | ret it₁ item =>
          refine ⟨k, ?_, hturn.imp (fun hsame => by rw [hsame]) ?_⟩
          · rw [← hreads]
            exact returnsAt_some _ _
          · rintro ⟨e, it', hfailed⟩
            exact ⟨e, it', by rw [hfailed]⟩
        | again it₁ =>
          obtain ⟨k', hk', hrest⟩ := ih it₁
          rw [show it₁.reader.reads = k from hreads] at hrest
          refine ⟨k', hk', hturn.trans hrest ?_ ?_ ?_⟩
          · intro hsame hnext
            rw [hsame]
            exact hnext
          · rintro ⟨e, it', hfailed⟩
            exact ⟨e, it', by rw [hfailed]⟩
          · intro hsame hnext
            rw [hsame]
            exact hnext

theorem collect_follows (crc : Crc) (turns fuel : ℕ) (it : JournalIter) :
    ∃ k, ReturnsAt (·.2.reader.reads)
        (collect crc (shortReads (shortsOf sched)) turns fuel it) k ∧
      Follows sched it.reader.reads k
        (collect crc sched turns fuel it =
          collect crc (shortReads (shortsOf sched)) turns fuel it)
        (∃ e it', collect crc sched turns fuel it = some (.error e, it')) := by
  induction fuel generalizing it with
  | zero => exact ⟨it.reader.reads, by simp [ReturnsAt, collect], .of_same rfl⟩
  | succ fuel ih =>
    unfold collect
    obtain ⟨k, hk, hnext⟩ := next_follows sched crc turns it
    generalize next crc (shortReads (shortsOf sched)) turns it = shorts at hk hnext ⊢
    generalize next crc sched turns it = run at hnext ⊢
    cases shorts with
    | none =>
      refine ⟨k, by simp [ReturnsAt], hnext.imp (fun hsame => by rw [hsame]) ?_⟩
      rintro ⟨e, it', hfailed⟩
      exact ⟨e, it', by rw [hfailed]⟩
    | some step =>
      obtain ⟨it₁, item⟩ := step
      have hreads : it₁.reader.reads = k := hk _ rfl
      cases item with
      | none =>
        refine ⟨k, ?_, hnext.imp (fun hsame => by rw [hsame]) ?_⟩
        · rw [← hreads]
          exact returnsAt_some _ _
        · rintro ⟨e, it', hfailed⟩
          exact ⟨e, it', by rw [hfailed]⟩
      | some item =>
        cases item with
        | error e =>
          refine ⟨k, ?_, hnext.imp (fun hsame => by rw [hsame]) ?_⟩
          · rw [← hreads]
            exact returnsAt_some _ _
          · rintro ⟨e, it', hfailed⟩
            exact ⟨e, it', by rw [hfailed]⟩
        | ok record =>
          obtain ⟨k', hk', hrest⟩ := ih it₁
          rw [hreads] at hrest
          refine ⟨k', ?_, hnext.trans hrest ?_ ?_ ?_⟩
          · intro x hx
            dsimp only at hx
            generalize collect crc (shortReads (shortsOf sched)) turns fuel it₁ = rest at hk' hx
            split at hx
            · cases hx
            · rename_i e it₂
              cases hx
              exact hk' _ rfl
            · rename_i recs it₂
              cases hx
              exact hk' (.ok recs, it₂) rfl
          · intro hsame hcollect
            rw [hsame]
            dsimp only
            rw [hcollect]
          · rintro ⟨e, it', hfailed⟩
            exact ⟨e, it', by rw [hfailed]⟩
          · intro hsame hcollect
            obtain ⟨e, it', hfailed⟩ := hcollect
            rw [hsame]
            dsimp only
            rw [hfailed]
            exact ⟨e, it', rfl⟩

end JournalIter

/-- The calls that the run over the short reads of a schedule makes. -/
def readsOf (crc : Crc) (sched : ReadSchedule) (r : JournalReader) : ℕ :=
  match replay crc (shortReads (shortsOf sched)) r with
  | some (_, reader) => reader.reads
  | none => r.reads

/-- A replay is the one-shot scan when no call on its way fails, an error otherwise. -/
theorem replay_follows (crc : Crc) (sched : ReadSchedule) (file : Bytes) (cursor : ℕ) :
    Follows sched 0 (readsOf crc sched ((JournalReader.open file).seekTo cursor))
      (∃ reader, replay crc sched ((JournalReader.open file).seekTo cursor) =
          some (.ok (plainScan crc file cursor).records, reader) ∧
        reader.tailState = (plainScan crc file cursor).state ∧
        reader.position = (plainScan crc file cursor).position)
      (∃ e reader, replay crc sched ((JournalReader.open file).seekTo cursor) =
        some (.error e, reader)) := by
  obtain ⟨reader, hreplay, hstate, hpos⟩ := replay_eq_plainScan crc file cursor (shortsOf sched)
  obtain ⟨k, hk, hcollect⟩ := JournalIter.collect_follows sched crc
    (turnFuel ((JournalReader.open file).seekTo cursor).fileSize)
    (((JournalReader.open file).seekTo cursor).fileSize + 1)
    ((JournalReader.open file).seekTo cursor).iter
  have hreads : readsOf crc sched ((JournalReader.open file).seekTo cursor) = k := by
    unfold readsOf
    rw [hreplay]
    unfold replay at hreplay
    obtain ⟨res, hres, heq⟩ := Option.map_eq_some_iff.mp hreplay
    rw [← (Prod.mk.inj heq).2]
    exact hk res hres
  rw [hreads]
  refine hcollect.imp ?_ ?_
  · intro hsame
    refine ⟨reader, ?_, hstate, hpos⟩
    rw [← hreplay]
    unfold replay
    rw [hsame]
  · rintro ⟨e, it', hfailed⟩
    unfold replay
    exact ⟨e, it'.reader, by rw [hfailed]; rfl⟩

/-- Under any schedule a replay ends: with the one-shot scan, or with a read error. -/
theorem replay_cases (crc : Crc) (sched : ReadSchedule) (file : Bytes) (cursor : ℕ) :
    (∃ reader, replay crc sched ((JournalReader.open file).seekTo cursor) =
        some (.ok (plainScan crc file cursor).records, reader) ∧
      reader.tailState = (plainScan crc file cursor).state ∧
      reader.position = (plainScan crc file cursor).position) ∨
    ∃ e reader, replay crc sched ((JournalReader.open file).seekTo cursor) =
      some (.error e, reader) := by
  cases (replay_follows crc sched file cursor).cases with
  | inl hsame => exact .inl hsame.2
  | inr hfailed => exact .inr hfailed.2

end Fsys.Journal
