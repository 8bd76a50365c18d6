import Fsys.Base.Prog

/-!
# Directory listings (src/error.rs, src/meta.rs:93-129)

What `read_dir` and its iterator report of a directory and of everything below it, with
the reads that fail. Types are those of `DirEntry::file_type`: a symbolic link is a link,
also when it leads to a directory.
-/

namespace Fsys.Dir

open Fsys.Base

/-- The errors of the directory operations. -/
inductive DirError (P : Type) where
  | io (e : IoError)
  | invalidPath (path : P) (reason : String)
  | partialDirectoryOp (failedStep : String) (completedSteps : List String)
  | globPatternInvalid (reason : String)
  deriving DecidableEq, Repr

inductive LeafKind where
  | file
  | symlink
  | other
  deriving DecidableEq, Repr

/-- The entries of a directory in the order they are read: an entry that cannot be read, one
that is no directory (or whose type cannot be read), a directory that cannot be read, and a
directory with its own entries. -/
inductive Items (N : Type) where
  | nil
  | fails (e : IoError) (rest : Items N)
  | leaf (name : N) (kind : Except IoError LeafKind) (rest : Items N)
  | unreadable (name : N) (e : IoError) (rest : Items N)
  | dir (name : N) (sub rest : Items N)

/-- `DirEntry` (`meta.rs`). -/
structure DirEntry (N : Type) where
  path : List N
  name : N
  isDir : Bool
  isFile : Bool
  isSymlink : Bool
  deriving DecidableEq, Repr

variable {N : Type}

/-- `DirEntry::from_std` for an entry of the directory at `path`. -/
def DirEntry.ofLeaf (path : List N) (name : N) (kind : Except IoError LeafKind) : DirEntry N where
  path := path ++ [name]
  name := name
  isDir := false
  isFile := match kind with
    | .ok k => k = .file
    | .error _ => false
  isSymlink := match kind with
    | .ok k => k = .symlink
    | .error _ => false

def DirEntry.ofDir (path : List N) (name : N) : DirEntry N := ⟨path ++ [name], name, true, false, false⟩

/-! ### The paths below a directory -/

/-- Something is at this path below the directory. -/
inductive Below : Items N → List N → Prop where
  | leaf {name : N} {kind : Except IoError LeafKind} {rest : Items N} :
      Below (.leaf name kind rest) [name]
  | unreadable {name : N} {e : IoError} {rest : Items N} : Below (.unreadable name e rest) [name]
  | dir {name : N} {sub rest : Items N} : Below (.dir name sub rest) [name]
  | inside {name : N} {sub rest : Items N} {p : List N} (h : Below sub p) :
      Below (.dir name sub rest) (name :: p)
  | afterFails {e : IoError} {rest : Items N} {p : List N} (h : Below rest p) :
      Below (.fails e rest) p
  | afterLeaf {name : N} {kind : Except IoError LeafKind} {rest : Items N} {p : List N}
      (h : Below rest p) : Below (.leaf name kind rest) p
  | afterUnreadable {name : N} {e : IoError} {rest : Items N} {p : List N} (h : Below rest p) :
      Below (.unreadable name e rest) p
  | afterDir {name : N} {sub rest : Items N} {p : List N} (h : Below rest p) :
      Below (.dir name sub rest) p

theorem below_nil {p : List N} : ¬ Below (.nil : Items N) p := by
  intro h
  cases h

theorem below_fails {e : IoError} {rest : Items N} {p : List N} :
    Below (.fails e rest) p ↔ Below rest p := by
  constructor
  · intro h
    cases h with
    | afterFails h => exact h
  · exact .afterFails

theorem below_leaf {name : N} {kind : Except IoError LeafKind} {rest : Items N} {p : List N} :
    Below (.leaf name kind rest) p ↔ p = [name] ∨ Below rest p := by
  constructor
  · intro h
    cases h with
    | leaf => exact Or.inl rfl
    | afterLeaf h => exact Or.inr h
  · rintro (rfl | h)
    · exact .leaf
    · exact .afterLeaf h

theorem below_unreadable {name : N} {e : IoError} {rest : Items N} {p : List N} :
    Below (.unreadable name e rest) p ↔ p = [name] ∨ Below rest p := by
  constructor
  · intro h
    cases h with
    | unreadable => exact Or.inl rfl
    | afterUnreadable h => exact Or.inr h
  · rintro (rfl | h)
    · exact .unreadable
    · exact .afterUnreadable h

theorem below_dir {name : N} {sub rest : Items N} {p : List N} :
    Below (.dir name sub rest) p ↔
      p = [name] ∨ (∃ q, p = name :: q ∧ Below sub q) ∨ Below rest p := by
  constructor
  · intro h
    cases h with
    | dir => exact Or.inl rfl
    | inside h => exact Or.inr (Or.inl ⟨_, rfl, h⟩)
    | afterDir h => exact Or.inr (Or.inr h)
  · rintro (rfl | ⟨q, rfl, h⟩ | h)
    · exact .dir
    · exact .inside h
    · exact .afterDir h

/-- The names in the directory itself. -/
def Items.names : Items N → List N
  | .nil => []
  | .fails _ rest => rest.names
  | .leaf name _ rest => name :: rest.names
  | .unreadable name _ rest => name :: rest.names
  | .dir name _ rest => name :: rest.names

/-- No directory has two entries of one name. -/
def Items.Distinct : Items N → Prop
  | .nil => True
  | .fails _ rest => rest.Distinct
  | .leaf name _ rest => name ∉ rest.names ∧ rest.Distinct
  | .unreadable name _ rest => name ∉ rest.names ∧ rest.Distinct
  | .dir name sub rest => name ∉ rest.names ∧ sub.Distinct ∧ rest.Distinct

theorem Below.head {items : Items N} {p : List N} (h : Below items p) :
    ∃ name q, p = name :: q ∧ name ∈ items.names := by
  induction h with
  | leaf => exact ⟨_, [], rfl, List.mem_cons_self⟩
  | unreadable => exact ⟨_, [], rfl, List.mem_cons_self⟩
  | dir => exact ⟨_, [], rfl, List.mem_cons_self⟩
  | inside h ih => exact ⟨_, _, rfl, List.mem_cons_self⟩
  | afterFails h ih => exact ih
  | afterLeaf h ih | afterUnreadable h ih | afterDir h ih =>
    obtain ⟨name, q, hp, hname⟩ := ih
    exact ⟨name, q, hp, List.mem_cons_of_mem _ hname⟩

end Fsys.Dir
