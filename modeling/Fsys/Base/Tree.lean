import Mathlib.Data.List.Induction
import Mathlib.Data.Nat.Notation

/-!
# Directory trees with symbolic links

A tree gives the node at every list of names; a node has a directory above it. `walk`
resolves the segments of a path one by one, following links, and gives up after a
number of links as a kernel does. Two walks that follow different numbers of links
agree unless one of them gives up.
-/

namespace Fsys.Base

/-- A segment of a path: `.`, `..` or a name. -/
inductive Seg (N : Type) where
  | cur
  | up
  | name (n : N)

/-- A path as it is spelled, also the target of a link. -/
structure Path (N : Type) where
  absolute : Bool
  segs : List (Seg N)

inductive Node (N : Type) where
  | dir
  | file
  | link (target : Path N)

structure DirTree (N : Type) where
  node : List N → Option (Node N)
  root : node [] = some .dir
  parent : ∀ p n, node (p ++ [n]) ≠ none → node p = some .dir

inductive WalkError where
  | notFound
  | notDir
  | loop
  deriving DecidableEq

variable {N : Type}

/-- The path that spells out the names from the root. -/
def Path.ofNames (p : List N) : Path N := ⟨true, p.map .name⟩

def Node.isLink : Node N → Bool
  | .link _ => true
  | _ => false

namespace DirTree

def isDir (t : DirTree N) (p : List N) : Bool :=
  match t.node p with
  | some .dir => true
  | _ => false

/-- The walk from the directory `at_`; `follow` goes on where a link leads. -/
def walkSegs (t : DirTree N) (follow : List N → List (Seg N) → Except WalkError (List N)) :
    List N → List (Seg N) → Except WalkError (List N)
  | at_, [] => .ok at_
  | at_, s :: rest =>
    if t.isDir at_ then
      match s with
      | .cur => walkSegs t follow at_ rest
      | .up => walkSegs t follow at_.dropLast rest
      | .name n =>
        match t.node (at_ ++ [n]) with
        | none => .error .notFound
        | some (.link target) => follow (if target.absolute then [] else at_) (target.segs ++ rest)
        | some _ => walkSegs t follow (at_ ++ [n]) rest
    else .error .notDir

/-- The walk that follows at most so many links. -/
def walk (t : DirTree N) : ℕ → List N → List (Seg N) → Except WalkError (List N)
  | 0 => walkSegs t fun _ _ => .error .loop
  | links + 1 => walkSegs t (walk t links)

/-- `realpath`, from a working directory. -/
def realpath (t : DirTree N) (links : ℕ) (cwd : List N) (p : Path N) : Except WalkError (List N) :=
  t.walk links (if p.absolute then [] else cwd) p.segs

/-- `lstat` of a path that is spelled out: links are followed up to the last name. -/
def lstat (t : DirTree N) (links : ℕ) (p : List N) : Except WalkError (Node N) :=
  match p.getLast? with
  | none => .ok .dir
  | some n =>
    match t.walk links [] (p.dropLast.map .name) with
    | .error e => .error e
    | .ok d =>
      if t.isDir d then
        match t.node (d ++ [n]) with
        | none => .error .notFound
        | some k => .ok k
      else .error .notDir

variable {t : DirTree N} {links : ℕ} {p q d : List N} {n : N}

/-! ### Nodes -/

theorem isDir_iff : t.isDir p = true ↔ t.node p = some .dir := by
  unfold isDir
  split <;> simp_all

/-- There is a node and it is no link. -/
def Solid (t : DirTree N) (p : List N) : Prop :=
  ∃ k, t.node p = some k ∧ k.isLink = false

theorem Solid.of_dir (h : t.node p = some .dir) : t.Solid p := ⟨.dir, h, rfl⟩

theorem solid_root : t.Solid [] := Solid.of_dir t.root

/-- Below a node everything on the way is a directory. -/
theorem dir_of_append (rest : List N) (hrest : rest ≠ []) (h : t.node (p ++ rest) ≠ none) :
    t.node p = some .dir := by
  induction rest using List.reverseRecOn with
  | nil => exact absurd rfl hrest
  | append_singleton rest n ih =>
    rw [← List.append_assoc] at h
    have hdir := t.parent (p ++ rest) n h
    cases rest with
    | nil => simpa using hdir
    | cons m rest =>
      refine ih (by simp) ?_
      rw [hdir]
      simp

theorem Solid.dropLast (h : t.Solid p) : t.Solid p.dropLast := by
  obtain ⟨k, hk, hlink⟩ := h
  induction p using List.reverseRecOn with
  | nil => exact ⟨k, hk, hlink⟩
  | append_singleton p n _ =>
    rw [List.dropLast_concat]
    refine Solid.of_dir (t.parent p n ?_)
    rw [hk]
    simp

/-! ### Trees from a list of entries -/

section Entries

variable [DecidableEq N]

def nodeIn (entries : List (List N × Node N)) (p : List N) : Option (Node N) :=
  if p = [] then some .dir else entries.lookup p

/-- Every entry has its directory among the entries. -/
def Rooted (entries : List (List N × Node N)) : Bool :=
  entries.all fun e => match nodeIn entries e.1.dropLast with
    | some .dir => true
    | _ => false

theorem mem_of_lookup {entries : List (List N × Node N)} {k : Node N}
    (h : entries.lookup p = some k) : (p, k) ∈ entries := by
  induction entries with
  | nil => cases h
  | cons e es ih =>
    rw [List.lookup_cons] at h
    split at h
    · rename_i heq
      cases h
      rw [eq_of_beq heq]
      exact List.mem_cons_self
    · exact List.mem_cons_of_mem _ (ih h)

def ofEntries (entries : List (List N × Node N)) (h : Rooted entries = true) : DirTree N where
  node := nodeIn entries
  root := rfl
  parent := by
    intro p n hne
    obtain ⟨k, hk⟩ := Option.ne_none_iff_exists'.mp hne
    simp only [nodeIn, List.append_eq_nil_iff, List.cons_ne_nil, and_false, if_false] at hk
    have hall := List.all_eq_true.mp h _ (mem_of_lookup hk)
    simp only [List.dropLast_concat] at hall
    split at hall
    · rename_i hdir
      exact hdir
    · cases hall

end Entries

/-! ### Walks -/

variable {follow g : List N → List (Seg N) → Except WalkError (List N)}

/-- Names that lead to a node that is no link are walked as they are spelled. -/
theorem walkSegs_names (h : t.Solid (d ++ q)) (rest : List (Seg N)) :
    t.walkSegs follow d (q.map .name ++ rest) = t.walkSegs follow (d ++ q) rest := by
  induction q generalizing d with
  | nil => simp
  | cons n q ih =>
    obtain ⟨k, hk, hlink⟩ := h
    have hdir : t.isDir d = true :=
      isDir_iff.mpr (dir_of_append (n :: q) (by simp) (by rw [hk]; simp))
    have happ : d ++ n :: q = d ++ [n] ++ q := by simp
    have hnode : ∃ k', t.node (d ++ [n]) = some k' ∧ k'.isLink = false := by
      cases q with
      | nil => exact ⟨k, hk, hlink⟩
      | cons m q =>
        refine ⟨.dir, dir_of_append (m :: q) (by simp) ?_, rfl⟩
        rw [← happ, hk]
        simp
    obtain ⟨k', hk', hlink'⟩ := hnode
    have hstep := ih (d := d ++ [n]) ⟨k, by rw [← happ, hk], hlink⟩
    rw [happ, ← hstep]
    cases k' with
    | link target => cases hlink'
    | dir => simp [walkSegs, hdir, hk']
    | file => simp [walkSegs, hdir, hk']

theorem walk_names (h : t.Solid q) (rest : List (Seg N)) :
    t.walk links [] (q.map .name ++ rest) = t.walk links q rest := by
  cases links with
  | zero => exact walkSegs_names (d := []) h rest
  | succ links => exact walkSegs_names (d := []) h rest

theorem walk_self (h : t.Solid q) : t.walk links [] (q.map .name) = .ok q := by
  have hwalk : t.walk links [] (q.map .name ++ []) = t.walk links q [] := walk_names h []
  rw [List.append_nil] at hwalk
  rw [hwalk]
  cases links <;> rfl

/-- A walk that succeeds ends at a node that is no link. -/
theorem walkSegs_solid (hf : ∀ d s q, t.Solid d → follow d s = .ok q → t.Solid q)
    (segs : List (Seg N)) (hd : t.Solid d) (h : t.walkSegs follow d segs = .ok q) : t.Solid q := by
  induction segs generalizing d with
  | nil =>
    cases h
    exact hd
  | cons s rest ih =>
    simp only [walkSegs] at h
    split at h
    · split at h
      · exact ih hd h
      · exact ih hd.dropLast h
      · split at h
        · cases h
        · refine hf _ _ _ ?_ h
          split
          · exact solid_root
          · exact hd
        · rename_i k hk hnode
          refine ih ⟨k, hnode, ?_⟩ h
          cases k with
          | link target => exact absurd rfl (hk target)
          | dir => rfl
          | file => rfl
    · cases h

theorem walk_solid (segs : List (Seg N)) (hd : t.Solid d) (h : t.walk links d segs = .ok q) :
    t.Solid q := by
  induction links generalizing d segs q with
  | zero =>
    refine walkSegs_solid ?_ segs hd h
    intro _ _ _ _ hloop
    cases hloop
  | succ links ih => exact walkSegs_solid (fun _ s _ hd' h' => ih s hd' h') segs hd h

/-- The same result, unless one side gave up. -/
def Agree (a b : Except WalkError (List N)) : Prop :=
  a = .error .loop ∨ b = .error .loop ∨ a = b

theorem walkSegs_agree (hfg : ∀ d s, Agree (follow d s) (g d s)) (d : List N)
    (segs : List (Seg N)) : Agree (t.walkSegs follow d segs) (t.walkSegs g d segs) := by
  induction segs generalizing d with
  | nil => exact Or.inr (Or.inr rfl)
  | cons s rest ih =>
    simp only [walkSegs]
    split
    · split
      · exact ih d
      · exact ih d.dropLast
      · split
        · exact Or.inr (Or.inr rfl)
        · exact hfg _ _
        · exact ih _
    · exact Or.inr (Or.inr rfl)

theorem walk_agree (l l' : ℕ) (d : List N) (segs : List (Seg N)) :
    Agree (t.walk l d segs) (t.walk l' d segs) := by
  induction l generalizing l' d segs with
  | zero =>
    cases l' with
    | zero => exact Or.inr (Or.inr rfl)
    | succ l' => exact walkSegs_agree (fun _ _ => Or.inl rfl) d segs
  | succ l ih =>
    cases l' with
    | zero => exact walkSegs_agree (fun _ _ => Or.inr (Or.inl rfl)) d segs
    | succ l' => exact walkSegs_agree (fun d' s => ih l' d' s) d segs

/-! ### Missing names -/

/-- A directory without the name. -/
def Lacks (t : DirTree N) (d : List N) (n : N) : Prop :=
  t.node d = some .dir ∧ t.node (d ++ [n]) = none

theorem Lacks.solid (h : t.Lacks d n) : t.Solid d := Solid.of_dir h.1

/-- No walk gets past a missing name. -/
theorem Lacks.walk (h : t.Lacks d n) (rest : List N) :
    t.walk links [] ((d ++ n :: rest).map .name) = .error .notFound := by
  have hdir := isDir_iff.mpr h.1
  rw [List.map_append, walk_names h.solid]
  cases links <;> simp [DirTree.walk, walkSegs, hdir, h.2]

theorem Lacks.lstat (h : t.Lacks d n) (rest : List N) :
    t.lstat links (d ++ n :: rest) = .error .notFound := by
  induction rest using List.reverseRecOn with
  | nil =>
    have hlast : (d ++ [n]).getLast? = some n := by simp
    simp only [DirTree.lstat, hlast, List.dropLast_concat, walk_self h.solid,
      isDir_iff.mpr h.1, h.2, if_true]
  | append_singleton rest m _ =>
    have happ : d ++ n :: (rest ++ [m]) = d ++ n :: rest ++ [m] := by simp
    have hlast : (d ++ n :: rest ++ [m]).getLast? = some m := List.getLast?_concat
    rw [happ]
    simp only [DirTree.lstat, hlast, List.dropLast_concat, h.walk rest]

/-- What a successful walk of the directory and a missing last name say together. -/
theorem lacks_of_lstat {l l' : ℕ} (hwalk : t.walk l [] (p.map .name) = .ok d)
    (h : t.lstat l' (p ++ [n]) = .error .notFound) : t.Lacks d n := by
  have hlast : (p ++ [n]).getLast? = some n := by simp
  simp only [DirTree.lstat, hlast, List.dropLast_concat] at h
  rcases t.walk_agree l l' [] (p.map .name) with ha | ha | ha
  · rw [hwalk] at ha
    cases ha
  · rw [ha] at h
    cases h
  · rw [← ha, hwalk] at h
    simp only at h
    split at h
    · rename_i hdir
      split at h
      · rename_i hnone
        exact ⟨isDir_iff.mp hdir, hnone⟩
      · cases h
    · cases h

/-- A name in a directory that is spelled out. -/
theorem lstat_child (h : t.node d = some .dir) :
    t.lstat links (d ++ [n]) = match t.node (d ++ [n]) with
      | none => .error .notFound
      | some k => .ok k := by
  have hlast : (d ++ [n]).getLast? = some n := by simp
  simp only [DirTree.lstat, hlast, List.dropLast_concat, walk_self (Solid.of_dir h),
    isDir_iff.mpr h, if_true]

end DirTree

end Fsys.Base
