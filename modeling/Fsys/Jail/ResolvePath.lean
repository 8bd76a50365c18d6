import Fsys.Base.Tree

/-!
# Paths of a handle with a root (src/handle.rs:1102-1296, src/builder.rs:540-553)

`resolve_path` on a system with `/`-separated paths. The root is the result of
`canonicalize` when the handle was built. `canonicalize` and `symlink_metadata` are
`realpath` and `lstat` of the tree; each gives up after some number of links.
-/

namespace Fsys.Jail
open Fsys.Base

variable {N : Type}

/-- The tree and the limits of the two calls. -/
structure View (N : Type) where
  tree : DirTree N
  realpathLinks : ℕ
  lstatLinks : ℕ

/-- `Error::InvalidPath`. -/
structure InvalidPath (N : Type) where
  path : Path N
  reason : String

/-- Pass 1 (`handle.rs:1113-1143`), from the names of `resolved`; `pop` fails at `/`. -/
def normalise (resolved : List N) : List (Seg N) → Option (List N)
  | [] => some resolved
  | .cur :: rest => normalise resolved rest
  | .up :: rest => if resolved.isEmpty then none else normalise resolved.dropLast rest
  | .name n :: rest => normalise (resolved ++ [n]) rest

/-- `root.join(path)` unless the path is absolute. -/
def candidate (root : List N) (path : Path N) : List (Seg N) :=
  if path.absolute then path.segs else root.map .name ++ path.segs

def View.canonicalize (v : View N) (p : List N) : Except WalkError (List N) :=
  v.tree.walk v.realpathLinks [] (p.map .name)

def View.symlinkMetadata (v : View N) (p : List N) : Except WalkError (Node N) :=
  v.tree.lstat v.lstatLinks p

variable [DecidableEq N]

/-- The fast path (`handle.rs:1187-1207`). -/
def fastPath (v : View N) (root resolved : List N) (inside : Bool) : Option (List N) :=
  if inside && !resolved.isEmpty && resolved.dropLast == root then
    match v.symlinkMetadata resolved with
    | .error .notFound => some resolved
    | .ok k => if k.isLink then none else some resolved
    | .error _ => none
  else none

/-- Pass 3 (`handle.rs:1213-1295`). The existing prefix is kept with its last name first,
the tail in order. -/
def pass3 (v : View N) (root : List N) (path : Path N) (inside : Bool) :
    List N → List N → Except (InvalidPath N) (List N)
  | existing, tail =>
    match v.canonicalize existing.reverse with
    | .ok canon =>
      if root.isPrefixOf canon then .ok (canon ++ tail)
      else .error
        ⟨path, "path escapes the handle root via symlink (canonical-prefix check)"⟩
    | .error _ =>
      match v.symlinkMetadata existing.reverse with
      | .error .notFound =>
        match existing with
        | [] => .error ⟨path, "path has no canonical existing ancestor"⟩
        | n :: above =>
          if inside && !root.isPrefixOf above.reverse then
            .error ⟨path, "no canonical ancestor lies within the handle root"⟩
          else pass3 v root path inside above (n :: tail)
      | .ok (.link _) => .error ⟨path, "path contains a symlink that cannot be resolved inside " ++
          "the handle root (dangling or looping link)"⟩
      | _ => .error
        ⟨path, "path component exists but cannot be canonicalised for the root check"⟩

/-- `resolve_path` (`handle.rs:1102-1296`). -/
def resolvePath (v : View N) (root : Option (List N)) (path : Path N) :
    Except (InvalidPath N) (Path N) :=
  match root with
  | none => .ok path
  | some root =>
    match normalise [] (candidate root path) with
    | none => .error ⟨path, "path escapes the handle root"⟩
    | some resolved =>
      let inside := root.isPrefixOf resolved
      if !inside && !path.absolute then
        .error ⟨path, "path escapes the handle root (lexical)"⟩
      else
        match fastPath v root resolved inside with
        | some p => .ok (Path.ofNames p)
        | none => (pass3 v root path inside resolved.reverse []).map Path.ofNames

/-! ### What is accepted -/

/-- The names spell a node that is no link, at or below the root; or they go on from a
directory at or below the root with a name it lacks. -/
inductive Confined (t : DirTree N) (root : List N) : List N → Prop where
  | solid {p : List N} (h : t.Solid p) (hroot : root <+: p) : Confined t root p
  | lacking {d : List N} {n : N} (rest : List N) (h : t.Lacks d n) (hroot : root <+: d) :
      Confined t root (d ++ n :: rest)

variable {v : View N} {root resolved existing tail names : List N} {path : Path N} {inside : Bool}

theorem fastPath_eq_some {p : List N} (h : fastPath v root resolved inside = some p) :
    p = resolved ∧ ∃ n, resolved = root ++ [n] ∧
      (v.symlinkMetadata resolved = .error .notFound ∨
        ∃ k, v.symlinkMetadata resolved = .ok k ∧ k.isLink = false) := by
  unfold fastPath at h
  split at h
  · rename_i hcond
    simp only [Bool.and_eq_true, Bool.not_eq_true', List.isEmpty_eq_false_iff, beq_iff_eq] at hcond
    obtain ⟨⟨-, hne⟩, hparent⟩ := hcond
    have hsplit := List.dropLast_concat_getLast hne
    rw [hparent] at hsplit
    split at h
    · rename_i hmeta
      exact ⟨(Option.some.inj h).symm, _, hsplit.symm, Or.inl hmeta⟩
    · rename_i k hmeta
      split at h
      · cases h
      · rename_i hlink
        exact ⟨(Option.some.inj h).symm, _, hsplit.symm, Or.inr ⟨k, hmeta, by simpa using hlink⟩⟩
    · cases h
  · cases h

/-- The fast path accepts a name that the root lacks, or a node that is no link. -/
theorem fastPath_node {p : List N} (hroot : v.tree.node root = some .dir)
    (h : fastPath v root resolved inside = some p) :
    ∃ n, p = root ++ [n] ∧ (v.tree.Lacks root n ∨ v.tree.Solid (root ++ [n])) := by
  obtain ⟨rfl, n, rfl, hmeta⟩ := fastPath_eq_some h
  refine ⟨n, rfl, ?_⟩
  unfold View.symlinkMetadata at hmeta
  rw [DirTree.lstat_child hroot] at hmeta
  rcases hmeta with hmissing | ⟨k, hk, hlink⟩
  · split at hmissing
    · rename_i hnone
      exact Or.inl ⟨hroot, hnone⟩
    · cases hmissing
  · split at hk
    · cases hk
    · rename_i hnode
      cases hk
      exact Or.inr ⟨k, hnode, hlink⟩

/-- An accepted prefix is real, and the first name that was popped after it is missing. -/
theorem pass3_accepts {canon : List N} (hpop : ∀ n rest, tail = n :: rest →
      v.symlinkMetadata (existing.reverse ++ [n]) = .error .notFound)
    (hcanon : v.canonicalize existing.reverse = .ok canon) (hpre : root.isPrefixOf canon = true) :
    Confined v.tree root (canon ++ tail) := by
  have hroot : root <+: canon := List.isPrefixOf_iff_prefix.mp hpre
  cases tail with
  | nil =>
    rw [List.append_nil]
    exact .solid (DirTree.walk_solid _ DirTree.solid_root hcanon) hroot
  | cons n rest => exact .lacking rest (DirTree.lacks_of_lstat hcanon (hpop n rest rfl)) hroot

/-- Pass 3 accepts only if `lstat` found every popped name missing. -/
theorem pass3_confined (hpop : ∀ n rest, tail = n :: rest →
      v.symlinkMetadata (existing.reverse ++ [n]) = .error .notFound)
    (h : pass3 v root path inside existing tail = .ok names) : Confined v.tree root names := by
  induction existing generalizing tail with
  | nil =>
    unfold pass3 at h
    split at h
    · rename_i canon hcanon
      split at h
      · rename_i hpre
        cases h
        exact pass3_accepts hpop hcanon hpre
      · cases h
    · split at h <;> cases h
  | cons m above ih =>
    unfold pass3 at h
    split at h
    · rename_i canon hcanon
      split at h
      · rename_i hpre
        cases h
        exact pass3_accepts hpop hcanon hpre
      · cases h
    · split at h
      · rename_i hmeta
        simp only at h
        split at h
        · cases h
        · refine ih ?_ h
          intro n rest heq
          cases heq
          rw [List.reverse_cons] at hmeta
          exact hmeta
      · cases h
      · cases h

theorem resolvePath_confined {p : Path N} (hroot : v.tree.node root = some .dir)
    (h : resolvePath v (some root) path = .ok p) :
    ∃ names, p = Path.ofNames names ∧ Confined v.tree root names := by
  simp only [resolvePath] at h
  split at h
  · cases h
  · rename_i resolved hnorm
    split at h
    · cases h
    · split at h
      · rename_i names hfast
        cases h
        refine ⟨names, rfl, ?_⟩
        obtain ⟨n, rfl, hlacks | hsolid⟩ := fastPath_node hroot hfast
        · exact .lacking [] hlacks (List.prefix_refl root)
        · exact .solid hsolid (List.prefix_append root [n])
      · cases hpass : pass3 v root path (root.isPrefixOf resolved) resolved.reverse [] with
        | error e =>
          rw [hpass] at h
          cases h
        | ok names =>
          rw [hpass] at h
          cases h
          refine ⟨names, rfl, pass3_confined ?_ hpass⟩
          intro n rest heq
          cases heq

end Fsys.Jail
