import Mathlib.Data.List.DropRight
import Fsys.Base.TreeGrowth
import Fsys.Dir.Listing

/-!
# `mkdir_all` (src/crud/dir.rs:27-86)

On a handle without a root `resolve_path` returns the path as it is (`handle.rs:1103-1105`).
Paths are kept as they are spelled: `Path::parent` skips dots and empty parts that the system
calls see.
-/

namespace Fsys.Dir

open Fsys.Base

variable {N : Type}

/-! ### Paths -/

/-- A part of a path between slashes; `sep` is an empty one. -/
inductive PathPart (N : Type) where
  | sep
  | cur
  | up
  | name (n : N)
  deriving DecidableEq, Repr

/-- What stands before the body of a path: `/`, a first `.` or nothing. -/
inductive PathStart where
  | root
  | dot
  | here
  deriving DecidableEq, Repr

/-- A path as it is spelled. Where nothing stands before it the first part of the body is
neither empty nor a dot. -/
structure DirPath (N : Type) where
  start : PathStart
  body : List (PathPart N)
  deriving DecidableEq, Repr

def PathPart.seg : PathPart N → Seg N
  | .sep => .cur
  | .cur => .cur
  | .up => .up
  | .name n => .name n

/-- The parts of a body that are no components. -/
def PathPart.noise : PathPart N → Bool
  | .sep => true
  | .cur => true
  | .up => false
  | .name _ => false

def PathPart.isSep : PathPart N → Bool
  | .sep => true
  | _ => false

def PathPart.display (text : N → String) : PathPart N → String
  | .sep => ""
  | .cur => "."
  | .up => ".."
  | .name n => text n

def DirPath.display (text : N → String) (p : DirPath N) : String :=
  let parts := p.body.map (PathPart.display text)
  match p.start with
  | .root => "/" ++ "/".intercalate parts
  | .dot => "/".intercalate ("." :: parts)
  | .here => "/".intercalate parts

/-- The path without any character. -/
def DirPath.isEmpty (p : DirPath N) : Bool := p.start == .here && p.body.isEmpty

/-- `Components::trim_right`. -/
def trim (body : List (PathPart N)) : List (PathPart N) := body.rdropWhile PathPart.noise

/-- `Path::parent`. -/
def DirPath.parent (p : DirPath N) : Option (DirPath N) :=
  if (trim p.body).isEmpty then
    match p.start with
    | .root => none
    | .dot => some ⟨.here, []⟩
    | .here => none
  else some ⟨p.start, trim (trim p.body).dropLast⟩

def DirPath.size (p : DirPath N) : ℕ := p.body.length + if p.start = .dot then 1 else 0

theorem DirPath.size_parent {p q : DirPath N} (h : p.parent = some q) : q.size < p.size := by
  unfold DirPath.parent at h
  split at h
  · split at h
    · cases h
    · rename_i hstart
      cases h
      simp [DirPath.size, hstart]
    · cases h
  · rename_i hne
    cases h
    have hshort := (List.rdropWhile_prefix PathPart.noise (trim p.body).dropLast).length_le
    have htrim := (List.rdropWhile_prefix PathPart.noise p.body).length_le
    have hpos : 0 < (trim p.body).length := List.length_pos_iff.mpr (by simpa using hne)
    rw [List.length_dropLast] at hshort
    simp only [DirPath.size, trim] at hshort htrim hpos ⊢
    omega

/-- `Path::ancestors`: the path, its parent and so on. -/
def DirPath.ancestors (p : DirPath N) : List (DirPath N) :=
  match _h : p.parent with
  | none => [p]
  | some q => p :: q.ancestors
termination_by p.size
decreasing_by exact DirPath.size_parent _h

/-! ### The system calls -/

/-- The files, the working directory and the number of links a call follows. -/
structure Fs (N : Type) where
  tree : DirTree N
  links : ℕ
  cwd : List N
  cwd_dir : tree.node cwd = some .dir

def Fs.base (fs : Fs N) : PathStart → List N
  | .root => []
  | .dot => fs.cwd
  | .here => fs.cwd

def Fs.walkBody (fs : Fs N) (start : PathStart) (body : List (PathPart N)) :
    Except WalkError (List N) :=
  fs.tree.walk fs.links (fs.base start) (body.map PathPart.seg)

/-- Where the path leads. -/
def Fs.resolve (fs : Fs N) (p : DirPath N) : Except WalkError (List N) :=
  if p.isEmpty then .error .notFound else fs.walkBody p.start p.body

/-- `Path::metadata`, which follows links. -/
def Fs.metadata (fs : Fs N) (p : DirPath N) : Except WalkError (Base.Node N) :=
  match fs.resolve p with
  | .error e => .error e
  | .ok q =>
    match fs.tree.node q with
    | none => .error .notFound
    | some k => .ok k

def osError : WalkError → IoError
  | .notFound => ⟨.notFound, "No such file or directory (os error 2)"⟩
  | .notDir => ⟨.other, "Not a directory (os error 20)"⟩
  | .loop => ⟨.other, "Too many levels of symbolic links (os error 40)"⟩

def existsError : IoError := ⟨.alreadyExists, "File exists (os error 17)"⟩

/-- Why a directory cannot be made in an existing one under a free name. -/
structure Refusal where
  error : IoError
  kind_ne : error.kind ≠ .alreadyExists

variable [DecidableEq N]

def Fs.insertDir (fs : Fs N) (d : List N) (n : N) : Fs N where
  tree := fs.tree.insertDir d n
  links := fs.links
  cwd := fs.cwd
  cwd_dir := DirTree.le_insertDir fs.tree d n _ _ fs.cwd_dir

/-- A new directory in an existing one under a free name, unless it is refused. -/
def Fs.makeDir (fs : Fs N) (deny : List N → Option Refusal) (d : List N) (n : N) :
    Except IoError Unit × Fs N :=
  match deny (d ++ [n]) with
  | some refusal => (.error refusal.error, fs)
  | none => (.ok (), fs.insertDir d n)

/-- `std::fs::create_dir`: slashes at the end do not count, a dot there does. -/
def createDir (deny : List N → Option Refusal) (p : DirPath N) : Prog (Fs N) IoError Unit :=
  fun fs =>
    let body := p.body.rdropWhile PathPart.isSep
    match body.getLast? with
    | none => if p.start = .here then (.error (osError .notFound), fs) else (.error existsError, fs)
    | some last =>
      match fs.walkBody p.start body.dropLast with
      | .error e => (.error (osError e), fs)
      | .ok d =>
        if fs.tree.isDir d then
          match last with
          | .name n =>
            match fs.tree.node (d ++ [n]) with
            | some _ => (.error existsError, fs)
            | none => fs.makeDir deny d n
          | _ => (.error existsError, fs)
        else (.error (osError .notDir), fs)

/-! ### `mkdir_all` -/

/-- The walk up (`dir.rs:41-60`): the missing paths in the order they are pushed. -/
def toCreate (fs : Fs N) (current : DirPath N) :
    Except (DirError (DirPath N)) (List (DirPath N)) :=
  match fs.metadata current with
  | .ok .dir => .ok []
  | .ok _ => .error (.invalidPath current "a non-directory already exists at this path")
  | .error .notFound =>
    match _h : current.parent with
    | none => .ok [current]
    | some p => (toCreate fs p).map (current :: ·)
  | .error e => .error (.io (osError e))
termination_by current.size
decreasing_by exact DirPath.size_parent _h

variable (text : N → String)

/-- The loop over the missing paths (`dir.rs:63-83`). -/
def createAll (deny : List N → Option Refusal) :
    List (DirPath N) → List String → Prog (Fs N) (DirError (DirPath N)) Unit
  | [], _ => fun fs => (.ok (), fs)
  | dir :: rest, completed => fun fs =>
    match createDir deny dir fs with
    | (.ok (), fs') => createAll deny rest (completed ++ [dir.display text]) fs'
    | (.error e, fs') =>
      if e.kind = .alreadyExists then
        createAll deny rest (completed ++ [dir.display text]) fs'
      else
        (.error (.partialDirectoryOp
          ("create_dir(" ++ dir.display text ++ "): " ++ e.message) completed), fs')

def mkdirAll (deny : List N → Option Refusal) (path : DirPath N) :
    Prog (Fs N) (DirError (DirPath N)) Unit := fun fs =>
  match toCreate fs path with
  | .error e => (.error e, fs)
  | .ok dirs => createAll text deny dirs.reverse [] fs

end Fsys.Dir
