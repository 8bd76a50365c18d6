import Fsys.Jail.ResolvePath

/-!
# Accepted paths stay in the root (src/handle.rs:1069-1101, tests/path_security.rs:154-187)

What `resolve_path` returns names a node at or below the root, with every link
followed, or goes on below the root from a directory that lacks the next name. The
fast path decides as the canonicalising pass does.
-/

namespace Fsys.Jail
open Fsys.Base

/-- Every accepted path, with all links followed, ends at or below the root. If it does not
exist, its longest existing part does, and nothing after that part is a link. -/
theorem resolve_path_confined (N : Type) [DecidableEq N] (v : View N) (root : List N)
    (hroot : v.tree.node root = some .dir) (path p : Path N)
    (h : resolvePath v (some root) path = .ok p) (cwd : List N) :
    (∀ l q, v.tree.realpath l cwd p = .ok q → root <+: q) ∧
    ((∀ l q, v.tree.realpath l cwd p ≠ .ok q) →
      ∃ names k q, p = Path.ofNames names ∧ k < names.length ∧
        (∀ l, v.tree.realpath l cwd (Path.ofNames (names.take k)) = .ok q) ∧ root <+: q ∧
        ∀ j, k < j → j ≤ names.length → ∀ l,
          (∀ q', v.tree.realpath l cwd (Path.ofNames (names.take j)) ≠ .ok q') ∧
          ∀ node, v.tree.lstat l (names.take j) = .ok node → node.isLink = false) := by
  obtain ⟨names, rfl, hconf⟩ := resolvePath_confined hroot h
  cases hconf with
  | solid hsolid hpre =>
    have hself : ∀ l, v.tree.realpath l cwd (Path.ofNames names) = .ok names :=
      fun l => DirTree.walk_self hsolid
    refine ⟨?_, fun hnone => absurd (hself 0) (hnone 0 names)⟩
    intro l q hq
    rw [hself l] at hq
    cases hq
    exact hpre
  | @lacking d n rest hlacks hpre =>
    have hmissing : ∀ l more, v.tree.realpath l cwd (Path.ofNames (d ++ n :: more)) =
        .error .notFound := fun l more => hlacks.walk more
    refine ⟨?_, fun _ => ⟨d ++ n :: rest, d.length, d, rfl, by simp, ?_, hpre, ?_⟩⟩
    · intro l q hq
      rw [hmissing l rest] at hq
      cases hq
    · intro l
      rw [List.take_left]
      exact DirTree.walk_self hlacks.solid
    · intro j hlt hle l
      obtain ⟨i, rfl⟩ : ∃ i, j = d.length + (i + 1) := ⟨j - d.length - 1, by omega⟩
      have htake : (d ++ n :: rest).take (d.length + (i + 1)) = d ++ n :: rest.take i := by
        rw [List.take_length_add_append, List.take_succ_cons]
      rw [htake]
      refine ⟨?_, ?_⟩
      · intro q' hq'
        rw [hmissing l] at hq'
        cases hq'
      · intro node hnode
        rw [hlacks.lstat] at hnode
        cases hnode

/-- A jail with a link that leads out of it and back in; the kernel follows 40 links. -/
def jailEntries : List (List String × Node String) :=
  [(["jail"], .dir), (["jail", "sub"], .dir), (["jail", "a"], .file), (["out"], .dir),
    (["jail", "out"], .link ⟨false, [.up, .name "out"]⟩),
    (["jail", "back"], .link ⟨true, [.name "out", .up, .name "jail", .cur, .name "sub"]⟩),
    (["jail", "loop"], .link ⟨false, [.name "loop"]⟩)]

def jailView : View String := ⟨DirTree.ofEntries jailEntries (by decide), 40, 40⟩

/-- `back/../out/../back/new/b`. -/
def throughBack : Path String :=
  ⟨false, [.name "back", .up, .name "out", .up, .name "back", .name "new", .name "b"]⟩

theorem resolvePath_throughBack : resolvePath jailView (some ["jail"]) throughBack =
    .ok (Path.ofNames ["jail", "sub", "new", "b"]) := by rfl

theorem realpath_new_b (l : ℕ) :
    jailView.tree.realpath l [] (Path.ofNames ["jail", "sub", "new", "b"]) = .error .notFound := by
  have hlacks : jailView.tree.Lacks ["jail", "sub"] "new" := ⟨rfl, rfl⟩
  exact hlacks.walk ["b"]

/-- The path is missing from `new` on; `back` alone is there. -/
theorem resolve_path_confined_through_back :
    resolvePath jailView (some ["jail"]) throughBack =
      .ok (Path.ofNames ["jail", "sub", "new", "b"]) ∧
    (∃ names k q, Path.ofNames ["jail", "sub", "new", "b"] = Path.ofNames names ∧
      k < names.length ∧ (∀ l, jailView.tree.realpath l [] (Path.ofNames (names.take k)) = .ok q) ∧
      ["jail"] <+: q ∧ ∀ j, k < j → j ≤ names.length → ∀ l,
        (∀ q', jailView.tree.realpath l [] (Path.ofNames (names.take j)) ≠ .ok q') ∧
        ∀ node, jailView.tree.lstat l (names.take j) = .ok node → node.isLink = false) ∧
    resolvePath jailView (some ["jail"]) ⟨false, [.name "back"]⟩ =
      .ok (Path.ofNames ["jail", "sub"]) ∧
    jailView.tree.realpath 40 [] (Path.ofNames ["jail", "sub"]) = .ok ["jail", "sub"] ∧
    ["jail"] <+: ["jail", "sub"] := by
  have hback : resolvePath jailView (some ["jail"]) ⟨false, [.name "back"]⟩ =
      .ok (Path.ofNames ["jail", "sub"]) := by rfl
  have hthere : jailView.tree.realpath 40 [] (Path.ofNames ["jail", "sub"]) =
      .ok ["jail", "sub"] := by rfl
  refine ⟨resolvePath_throughBack, ?_, hback, hthere, ?_⟩
  · apply (resolve_path_confined String jailView ["jail"] rfl throughBack _
      resolvePath_throughBack []).2
    intro l q hq
    rw [realpath_new_b] at hq
    cases hq
  · exact (resolve_path_confined String jailView ["jail"] rfl _ _ hback []).1 40 _ hthere

/-- Where the fast path accepts, pass 3 accepts the same path. -/
theorem fast_path_eq_pass3 (N : Type) [DecidableEq N] (v : View N) (root : List N)
    (hroot : v.tree.node root = some .dir) (path : Path N) (resolved p : List N)
    (hnorm : normalise [] (candidate root path) = some resolved)
    (hfast : fastPath v root resolved (root.isPrefixOf resolved) = some p) :
    resolvePath v (some root) path = .ok (Path.ofNames p) ∧
      pass3 v root path (root.isPrefixOf resolved) resolved.reverse [] = .ok p := by
  obtain ⟨heq, -⟩ := fastPath_eq_some hfast
  obtain ⟨n, hp, hnode⟩ := fastPath_node hroot hfast
  have hinside : root.isPrefixOf resolved = true := by
    rw [← heq, hp]
    exact List.isPrefixOf_iff_prefix.mpr (List.prefix_append root [n])
  refine ⟨?_, ?_⟩
  · rw [hinside] at hfast
    simp only [resolvePath, hnorm, hinside, hfast, Bool.not_true, Bool.false_and,
      Bool.false_eq_true, if_false]
  · rw [← heq, hp, List.reverse_append]
    simp only [List.reverse_cons, List.reverse_nil, List.nil_append, List.singleton_append]
    have hself : root.isPrefixOf root = true :=
      List.isPrefixOf_iff_prefix.mpr (List.prefix_refl root)
    have hcanon : v.canonicalize root = .ok root := DirTree.walk_self (DirTree.Solid.of_dir hroot)
    rcases hnode with hlacks | hsolid
    · -- both calls find the leaf missing; the root then stands for itself
      have hleaf : v.canonicalize (root ++ [n]) = .error .notFound := hlacks.walk []
      have hstat : v.symlinkMetadata (root ++ [n]) = .error .notFound := hlacks.lstat []
      unfold pass3
      simp only [List.reverse_cons, List.reverse_reverse, hleaf, hstat, hself, Bool.not_true,
        Bool.and_false, Bool.false_eq_true, if_false]
      unfold pass3
      simp only [List.reverse_reverse, hcanon, hself, if_true]
    · have hleaf : v.canonicalize (root ++ [n]) = .ok (root ++ [n]) := DirTree.walk_self hsolid
      have hpre : root.isPrefixOf (root ++ [n]) = true :=
        List.isPrefixOf_iff_prefix.mpr (List.prefix_append root [n])
      unfold pass3
      simp only [List.reverse_cons, List.reverse_reverse, hleaf, hpre, if_true, List.append_nil]

theorem fast_path_eq_pass3_file :
    resolvePath jailView (some ["jail"]) ⟨false, [.name "sub", .up, .name "a"]⟩ =
        .ok (Path.ofNames ["jail", "a"]) ∧
      pass3 jailView ["jail"] ⟨false, [.name "sub", .up, .name "a"]⟩ true ["a", "jail"] [] =
        .ok ["jail", "a"] :=
  fast_path_eq_pass3 String jailView ["jail"] rfl _ ["jail", "a"] ["jail", "a"] rfl rfl

end Fsys.Jail
