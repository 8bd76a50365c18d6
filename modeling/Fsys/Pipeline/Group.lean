import Mathlib.Order.Defs.LinearOrder
import Fsys.Platform

/-!
# A job of the group lane (src/pipeline/group.rs:52-145, 243-342)

`process_jobs_with` runs the ops of a job in order up to the first failure, then syncs
the directories of the completed ops if the job is grouped, and answers. The executor is
a parameter, as in the source, and may panic. `processJob` gives the calls that a job
makes, in their order. Paths are any ordered type with a `parent`.
-/

namespace Fsys.Lane
open Fsys.Base Fsys.Platform

variable {π : Type}

inductive BatchOp (π : Type) where
  | write (path : π) (data : Bytes)
  | delete (path : π)
  | copy (src dst : π)
  deriving DecidableEq

/-- The path whose directory the op changes (`group.rs:278-288`). -/
def BatchOp.dest : BatchOp π → π
  | .write path _ => path
  | .copy _ dst => dst
  | .delete path => path

/-- `BatchJob`, without its response channel and the snapshot that only the executor reads. -/
structure BatchJob (π : Type) where
  ops : List (BatchOp π)
  grouped : Bool

/-- `BatchError::source`: the error of an op, or `Error::ShutdownInProgress`. -/
inductive Source where
  | op (e : Error)
  | shutdownInProgress
  deriving DecidableEq

structure BatchError where
  failedAt : ℕ
  completed : ℕ
  source : Source
  deriving DecidableEq

/-- What a call of the executor comes to. -/
inductive Outcome where
  | ok
  | err (e : Error)
  | panicked
  deriving DecidableEq

def Outcome.failure : Outcome → Option Error
  | .ok => none
  | .err e => some e
  | .panicked => some (.io ⟨.other, "batch op panicked"⟩)

/-- A call that a job makes. -/
inductive JobCall (π : Type) where
  | ran (idx : ℕ) (op : BatchOp π) (outcome : Outcome)
  | syncedParent (file : π)
  | sent (result : Except BatchError Unit)

variable [LinearOrder π]

/-- `entry(key).or_insert(value)`; the entries of a `BTreeMap` in the order of its keys. -/
def orInsert (key value : π) : List (π × π) → List (π × π)
  | [] => [(key, value)]
  | (k, v) :: rest =>
    if key < k then (key, value) :: (k, v) :: rest
    else if key = k then (k, v) :: rest
    else (k, v) :: orInsert key value rest

/-- The locals of the loop over the ops. -/
structure Locals (π : Type) where
  completed : ℕ
  failure : Option (ℕ × Error)
  groupedParents : List (π × π)

/-- `parent_repr`. -/
def parentRepr (parent : π → Option π) (grouped : Bool) (op : BatchOp π) : Option (π × π) :=
  if grouped then (parent op.dest).map fun p => (p, op.dest) else none

def addParent (parents : List (π × π)) : Option (π × π) → List (π × π)
  | some (p, file) => orInsert p file parents
  | none => parents

/-- The loop over the ops (`group.rs:274-312`). -/
def runOps (parent : π → Option π) (grouped : Bool) (executor : ℕ → Outcome) :
    List (BatchOp π) → ℕ → Locals π → List (JobCall π) × Locals π
  | [], _, loc => ([], loc)
  | op :: rest, idx, loc =>
    let repr := parentRepr parent grouped op
    match (executor idx).failure with
    | none =>
      let next := runOps parent grouped executor rest (idx + 1)
        ⟨loc.completed + 1, loc.failure, addParent loc.groupedParents repr⟩
      (.ran idx op (executor idx) :: next.1, next.2)
    | some e => ([.ran idx op (executor idx)], { loc with failure := some (idx, e) })

def Locals.result (loc : Locals π) : Except BatchError Unit :=
  match loc.failure with
  | none => .ok ()
  | some (failedAt, e) => .error ⟨failedAt, loc.completed, .op e⟩

def runJob (parent : π → Option π) (executor : ℕ → Outcome) (job : BatchJob π) :
    List (JobCall π) × Locals π :=
  runOps parent job.grouped executor job.ops 0 ⟨0, none, []⟩

def jobResult (parent : π → Option π) (executor : ℕ → Outcome) (job : BatchJob π) :
    Except BatchError Unit := (runJob parent executor job).2.result

/-- One round of `process_jobs_with`: the ops, the directories, the answer. -/
def processJob (parent : π → Option π) (executor : ℕ → Outcome) (job : BatchJob π) :
    List (JobCall π) :=
  let (ran, loc) := runJob parent executor job
  let syncs := if job.grouped then loc.groupedParents.map fun e => .syncedParent e.2 else []
  ran ++ syncs ++ [.sent loc.result]

/-! ### The directories -/

theorem mem_orInsert (key value d : π) (m : List (π × π)) :
    d ∈ (orInsert key value m).map Prod.fst ↔ d = key ∨ d ∈ m.map Prod.fst := by
  induction m with
  | nil => simp [orInsert]
  | cons e rest ih =>
    obtain ⟨k, v⟩ := e
    simp only [orInsert]
    split
    · simp
    · split
      · rename_i heq
        subst heq
        simp
      · simp only [List.map_cons, List.mem_cons, ih]
        tauto

/-- The keys stay in order, so no key is there twice. -/
theorem sorted_orInsert (key value : π) (m : List (π × π))
    (h : (m.map Prod.fst).Pairwise (· < ·)) :
    ((orInsert key value m).map Prod.fst).Pairwise (· < ·) := by
  induction m with
  | nil => simp [orInsert]
  | cons e rest ih =>
    obtain ⟨k, v⟩ := e
    simp only [List.map_cons, List.pairwise_cons] at h
    obtain ⟨hk, hrest⟩ := h
    simp only [orInsert]
    split
    · rename_i hlt
      simp only [List.map_cons, List.pairwise_cons, List.mem_cons]
      refine ⟨?_, hk, hrest⟩
      intro d hd
      rcases hd with rfl | hd
      · exact hlt
      · exact hlt.trans (hk d hd)
    · rename_i hnlt
      split
      · simp only [List.map_cons, List.pairwise_cons]
        exact ⟨hk, hrest⟩
      · rename_i hne
        simp only [List.map_cons, List.pairwise_cons]
        refine ⟨?_, ih hrest⟩
        intro d hd
        rw [mem_orInsert] at hd
        rcases hd with rfl | hd
        · exact lt_of_le_of_ne (not_lt.mp hnlt) (Ne.symm hne)
        · exact hk d hd

theorem forall_orInsert {P : π × π → Prop} (key value : π) (m : List (π × π))
    (hm : ∀ e ∈ m, P e) (hnew : P (key, value)) : ∀ e ∈ orInsert key value m, P e := by
  induction m with
  | nil =>
    simp only [orInsert, List.mem_singleton, forall_eq]
    exact hnew
  | cons e rest ih =>
    obtain ⟨k, v⟩ := e
    simp only [List.mem_cons, forall_eq_or_imp] at hm
    simp only [orInsert]
    split
    · simp only [List.mem_cons, forall_eq_or_imp]
      exact ⟨hnew, hm⟩
    · split
      · simp only [List.mem_cons, forall_eq_or_imp]
        exact hm
      · simp only [List.mem_cons, forall_eq_or_imp]
        exact ⟨hm.1, ih hm.2⟩

/-- The map holds a file of each directory of the ops `done`. -/
structure Parents (parent : π → Option π) (grouped : Bool) (done : List (BatchOp π))
    (m : List (π × π)) : Prop where
  sorted : (m.map Prod.fst).Pairwise (· < ·)
  files : ∀ e ∈ m, parent e.2 = some e.1
  keys : ∀ d, d ∈ m.map Prod.fst ↔
    grouped = true ∧ ∃ op ∈ done, parent op.dest = some d

variable {parent : π → Option π} {grouped : Bool} {executor : ℕ → Outcome}

theorem parents_nil : Parents parent grouped [] [] := by
  constructor <;> simp

theorem Parents.add {done : List (BatchOp π)} {m : List (π × π)}
    (h : Parents parent grouped done m) (op : BatchOp π) :
    Parents parent grouped (done ++ [op]) (addParent m (parentRepr parent grouped op)) := by
  have hkeys : ∀ d, (∃ x ∈ done ++ [op], parent x.dest = some d) ↔
      (∃ x ∈ done, parent x.dest = some d) ∨ parent op.dest = some d := by
    intro d
    simp [or_and_right, exists_or]
  cases hg : grouped with
  | false =>
    subst hg
    simp only [parentRepr, Bool.false_eq_true, if_false, addParent]
    refine ⟨h.sorted, h.files, ?_⟩
    intro d
    rw [h.keys d]
    simp
  | true =>
    subst hg
    simp only [parentRepr, if_true]
    cases hp : parent op.dest with
    | none =>
      simp only [Option.map_none, addParent]
      refine ⟨h.sorted, h.files, ?_⟩
      intro d
      rw [h.keys d, hkeys, hp]
      simp
    | some p =>
      simp only [Option.map_some, addParent]
      refine ⟨sorted_orInsert p _ m h.sorted, forall_orInsert p _ m h.files hp, ?_⟩
      intro d
      rw [mem_orInsert, h.keys d, hkeys, hp]
      simp only [true_and, Option.some.injEq, eq_comm (a := p)]
      exact or_comm

/-! ### The ops -/

/-- How far the loop came from index `idx` with these locals: it completed `c` ops. -/
structure RanTo (parent : π → Option π) (grouped : Bool) (executor : ℕ → Outcome)
    (ops : List (BatchOp π)) (idx : ℕ) (loc : Locals π) (c : ℕ)
    (out : List (JobCall π) × Locals π) : Prop where
  le : c ≤ ops.length
  ok : ∀ i, i < c → executor (idx + i) = .ok
  calls : out.1 = (ops.take (c + 1)).mapIdx fun i op => .ran (idx + i) op (executor (idx + i))
  completed : out.2.completed = loc.completed + c
  failure : (c = ops.length ∧ out.2.failure = none) ∨
    (c < ops.length ∧ ∃ e, (executor (idx + c)).failure = some e ∧
      out.2.failure = some (idx + c, e))
  parents : ∀ done, Parents parent grouped done loc.groupedParents →
    Parents parent grouped (done ++ ops.take c) out.2.groupedParents

theorem ok_of_failure {o : Outcome} (h : o.failure = none) : o = .ok := by
  cases o with
  | ok => rfl
  | err e => cases h
  | panicked => cases h

theorem runOps_ranTo (ops : List (BatchOp π)) (idx : ℕ) (loc : Locals π)
    (hloc : loc.failure = none) :
    ∃ c, RanTo parent grouped executor ops idx loc c
      (runOps parent grouped executor ops idx loc) := by
  induction ops generalizing idx loc with
  | nil =>
    refine ⟨0, Nat.le_refl 0, ?_, rfl, rfl, Or.inl ⟨rfl, hloc⟩, ?_⟩
    · intro i hi
      omega
    · intro done hdone
      simpa [runOps] using hdone
  | cons op rest ih =>
    cases hfail : (executor idx).failure with
    | none =>
      have hok := ok_of_failure hfail
      obtain ⟨c, h⟩ := ih (idx + 1) ⟨loc.completed + 1, loc.failure,
        addParent loc.groupedParents (parentRepr parent grouped op)⟩ hloc
      have hshift : ∀ i, idx + 1 + i = idx + (i + 1) := by
        intro i
        omega
      refine ⟨c + 1, ?_, ?_, ?_, ?_, ?_, ?_⟩
      · simpa using h.le
      · intro i hi
        cases i with
        | zero => exact hok
        | succ i =>
          rw [← hshift]
          exact h.ok i (by omega)
      · simp only [runOps, hfail, h.calls, List.take_succ_cons, List.mapIdx_cons, hshift,
          Nat.add_zero]
      · simp only [runOps, hfail, h.completed]
        omega
      · simp only [runOps, hfail]
        rcases h.failure with ⟨hc, hnone⟩ | ⟨hc, e, he, hsome⟩
        · exact Or.inl ⟨by simpa using hc, hnone⟩
        · rw [hshift] at he hsome
          exact Or.inr ⟨by simpa using hc, e, he, hsome⟩
      · intro done hdone
        simp only [runOps, hfail, List.take_succ_cons]
        have hrest := h.parents (done ++ [op]) (hdone.add op)
        rwa [List.append_assoc, List.singleton_append] at hrest
    | some e =>
      -- the op failed: the rest of the job is not looked at
      refine ⟨0, Nat.zero_le _, ?_, ?_, ?_, ?_, ?_⟩
      · intro i hi
        omega
      · simp [runOps, hfail]
      · simp [runOps, hfail]
      · exact Or.inr ⟨by simp, e, hfail, by simp [runOps, hfail]⟩
      · intro done hdone
        simpa [runOps, hfail] using hdone

/-! ### The job -/

/-- What the calls of a job are when `c` of its ops completed: the ops up to the one that
failed, in order; one sync in each of the directories `dirs` of the completed ops if the job
is grouped; one answer. -/
structure Executed (parent : π → Option π) (executor : ℕ → Outcome) (job : BatchJob π) (c : ℕ)
    (dirs : List π) (result : Except BatchError Unit) (calls : List (JobCall π)) : Prop where
  le : c ≤ job.ops.length
  ok : ∀ i, i < c → executor i = .ok
  answer : (c = job.ops.length ∧ result = .ok ()) ∨
    (c < job.ops.length ∧ ∃ e, (executor c).failure = some e ∧ result = .error ⟨c, c, .op e⟩)
  calls_eq : ∃ files : List π, files.map parent = dirs.map some ∧
    calls = (job.ops.take (c + 1)).mapIdx (fun i op => .ran i op (executor i)) ++
      files.map .syncedParent ++ [.sent result]
  nodup : dirs.Nodup
  mem_dirs : ∀ d, d ∈ dirs ↔ job.grouped = true ∧ ∃ op ∈ job.ops.take c, parent op.dest = some d

theorem processJob_executed (parent : π → Option π) (executor : ℕ → Outcome) (job : BatchJob π) :
    ∃ c dirs, Executed parent executor job c dirs (jobResult parent executor job)
      (processJob parent executor job) := by
  obtain ⟨c, h⟩ : ∃ c, RanTo parent job.grouped executor job.ops 0 ⟨0, none, []⟩ c
      (runJob parent executor job) := runOps_ranTo job.ops 0 _ rfl
  have hparents := h.parents [] parents_nil
  rw [List.nil_append] at hparents
  have hcompleted := h.completed
  simp only [Nat.zero_add] at hcompleted
  refine ⟨c, (runJob parent executor job).2.groupedParents.map Prod.fst, h.le, ?_, ?_, ?_, ?_, ?_⟩
  · intro i hi
    have hok := h.ok i hi
    rwa [Nat.zero_add] at hok
  · rcases h.failure with ⟨hc, hnone⟩ | ⟨hc, e, he, hsome⟩
    · exact Or.inl ⟨hc, by simp only [jobResult, Locals.result, hnone]⟩
    · rw [Nat.zero_add] at he hsome
      exact Or.inr ⟨hc, e, he, by simp only [jobResult, Locals.result, hsome, hcompleted]⟩
  · refine ⟨(runJob parent executor job).2.groupedParents.map Prod.snd, ?_, ?_⟩
    · rw [List.map_map, List.map_map]
      apply List.map_congr_left
      intro e he
      exact hparents.files e he
    · have hcalls := h.calls
      simp only [Nat.zero_add] at hcalls
      simp only [processJob, hcalls, jobResult]
      cases hg : job.grouped with
      | true => simp [List.map_map, Function.comp_def]
      | false =>
        have hnil : (runJob parent executor job).2.groupedParents.map Prod.fst = [] := by
          apply List.eq_nil_iff_forall_not_mem.mpr
          intro d hd
          have hgrouped := ((hparents.keys d).mp hd).1
          rw [hg] at hgrouped
          cases hgrouped
        rw [List.map_eq_nil_iff] at hnil
        simp [hnil]
  · exact hparents.sorted.imp ne_of_lt
  · exact hparents.keys

theorem jobResult_ok_iff (parent : π → Option π) (executor : ℕ → Outcome) (job : BatchJob π) :
    jobResult parent executor job = .ok () ↔ ∀ i, i < job.ops.length → executor i = .ok := by
  obtain ⟨c, dirs, hex⟩ := processJob_executed parent executor job
  rcases hex.answer with ⟨hc, hok⟩ | ⟨hc, e, he, herr⟩
  · rw [hok, ← hc]
    exact ⟨fun _ => hex.ok, fun _ => rfl⟩
  · rw [herr]
    constructor
    · intro h
      cases h
    · intro h
      rw [h c hc] at he
      cases he

/-- The position in an error: the ops before it succeeded, the op there failed or panicked,
and none after it ran. -/
theorem jobResult_error (parent : π → Option π) (executor : ℕ → Outcome) (job : BatchJob π)
    (err : BatchError) (h : jobResult parent executor job = .error err) :
    err.completed = err.failedAt ∧ err.failedAt < job.ops.length ∧
      (∀ i, i < err.failedAt → executor i = .ok) ∧
      (∃ e, (executor err.failedAt).failure = some e ∧ err.source = .op e) ∧
      ∀ i op o, JobCall.ran i op o ∈ processJob parent executor job → i ≤ err.failedAt := by
  obtain ⟨c, dirs, hex⟩ := processJob_executed parent executor job
  rcases hex.answer with ⟨hc, hok⟩ | ⟨hc, e, he, herr⟩
  · rw [h] at hok
    cases hok
  · rw [h] at herr
    cases herr
    refine ⟨rfl, hc, hex.ok, ⟨e, he, rfl⟩, ?_⟩
    intro i op o hmem
    obtain ⟨files, -, hcalls⟩ := hex.calls_eq
    rw [hcalls] at hmem
    simp only [List.mem_append, List.mem_mapIdx, JobCall.ran.injEq, List.mem_map, reduceCtorEq,
      and_false, exists_false, or_false, List.mem_singleton] at hmem
    obtain ⟨j, hj, rfl, -⟩ := hmem
    rw [List.length_take] at hj
    show j ≤ c
    omega

/-- A job is answered with an error of its ops, never with `ShutdownInProgress`. -/
theorem jobResult_source (parent : π → Option π) (executor : ℕ → Outcome) (job : BatchJob π)
    (err : BatchError) (h : jobResult parent executor job = .error err) :
    err.source ≠ .shutdownInProgress := by
  obtain ⟨-, -, -, ⟨e, -, hsource⟩, -⟩ := jobResult_error parent executor job err h
  rw [hsource]
  intro heq
  cases heq

/-- The answer is the last call of a job and its only one. -/
theorem processJob_sent {parent : π → Option π} {executor : ℕ → Outcome} {job : BatchJob π}
    {made rest : List (JobCall π)} {r : Except BatchError Unit}
    (h : processJob parent executor job = made ++ .sent r :: rest) :
    rest = [] ∧ r = jobResult parent executor job := by
  obtain ⟨c, dirs, hex⟩ := processJob_executed parent executor job
  obtain ⟨files, -, hcalls⟩ := hex.calls_eq
  rw [hcalls] at h
  rcases List.eq_nil_or_concat rest with hnil | ⟨front, last, hrest⟩
  · subst hnil
    obtain ⟨-, hlast⟩ := List.append_inj' h rfl
    cases hlast
    exact ⟨rfl, rfl⟩
  · -- an answer before the last call would be an op or a sync
    rw [hrest, List.concat_eq_append, ← List.cons_append, ← List.append_assoc] at h
    obtain ⟨hbody, -⟩ := List.append_inj' h rfl
    have hmem : JobCall.sent r ∈ (job.ops.take (c + 1)).mapIdx
        (fun i op => JobCall.ran i op (executor i)) ++ files.map .syncedParent := by
      rw [hbody]
      simp
    simp [List.mem_mapIdx] at hmem

theorem processJob_ne_nil (parent : π → Option π) (executor : ℕ → Outcome) (job : BatchJob π) :
    processJob parent executor job ≠ [] := by
  simp [processJob]

end Fsys.Lane
