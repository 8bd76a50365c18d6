import Fsys.Base.Tree

/-!
# Trees that grow

A tree is at most another when every node of the first is in the second. A walk that succeeds
goes the same way in the larger tree and can be continued there. `insertDir` adds a directory
in one that lacks its name.
-/

namespace Fsys.Base

namespace DirTree

variable {N : Type} {t t' : DirTree N} {links : ℕ} {p q d s : List N} {n : N}
  {segs rest : List (Seg N)}

/-- Every node of the first tree is in the second. -/
def Le (t t' : DirTree N) : Prop := ∀ p k, t.node p = some k → t'.node p = some k

theorem Le.refl (t : DirTree N) : t.Le t := fun _ _ h => h

theorem Le.trans {t'' : DirTree N} (h : t.Le t') (h' : t'.Le t'') : t.Le t'' :=
  fun p k hk => h' p k (h p k hk)

theorem Le.isDir (h : t.Le t') (hp : t.isDir p = true) : t'.isDir p = true :=
  isDir_iff.mpr (h p .dir (isDir_iff.mp hp))

theorem isDir_root : t.isDir [] = true := isDir_iff.mpr t.root

theorem isDir_dropLast (h : t.isDir p = true) : t.isDir p.dropLast = true := by
  rw [isDir_iff] at h ⊢
  induction p using List.reverseRecOn with
  | nil => exact h
  | append_singleton p n _ =>
    rw [List.dropLast_concat]
    apply t.parent p n
    simp [h]

/-! ### Continued walks -/

/-- With the links that are left at `d`, every continuation of the walk is a walk from there,
also in a larger tree. -/
def Continues (t : DirTree N)
    (walkIn : DirTree N → List N → List (Seg N) → Except WalkError (List N)) (s : List N)
    (segs : List (Seg N)) (d : List N) : Prop :=
  ∃ l, ∀ t', t.Le t' → ∀ rest, walkIn t' s (segs ++ rest) = t'.walk l d rest

theorem Continues.of_step
    {walkIn walkIn' : DirTree N → List N → List (Seg N) → Except WalkError (List N)}
    {s' : List N} {segs' : List (Seg N)} (h : t.Continues walkIn s' segs' d)
    (hstep : ∀ t', t.Le t' → ∀ rest, walkIn' t' s (segs ++ rest) = walkIn t' s' (segs' ++ rest)) :
    t.Continues walkIn' s segs d := by
  obtain ⟨l, hl⟩ := h
  exact ⟨l, fun t' hle rest => (hstep t' hle rest).trans (hl t' hle rest)⟩

theorem continues_walkSegs (l : ℕ)
    (followIn : DirTree N → List N → List (Seg N) → Except WalkError (List N))
    (hl : ∀ t' : DirTree N, t'.walk l = t'.walkSegs (followIn t'))
    (hfollow : ∀ s segs d, followIn t s segs = .ok d → t.Continues followIn s segs d)
    (h : t.walkSegs (followIn t) s segs = .ok d) :
    t.Continues (fun t' => t'.walkSegs (followIn t')) s segs d := by
  induction segs generalizing s with
  | nil =>
    cases h
    exact ⟨l, fun t' _ rest => by rw [hl]; rfl⟩
  | cons x segs ih =>
    simp only [walkSegs] at h
    split at h
    · rename_i hdir
      cases x with
      | cur => exact (ih h).of_step fun t' hle rest => by simp [walkSegs, hle.isDir hdir]
      | up => exact (ih h).of_step fun t' hle rest => by simp [walkSegs, hle.isDir hdir]
      | name n =>
        cases hnode : t.node (s ++ [n]) with
        | none => simp [hnode] at h
        | some k =>
          simp only [hnode] at h
          cases k with
          | link target =>
            apply (hfollow _ _ _ h).of_step
            intro t' hle rest
            simp [walkSegs, hle.isDir hdir, hle _ _ hnode]
          | dir =>
            apply (ih h).of_step
            intro t' hle rest
            simp [walkSegs, hle.isDir hdir, hle _ _ hnode]
          | file =>
            apply (ih h).of_step
            intro t' hle rest
            simp [walkSegs, hle.isDir hdir, hle _ _ hnode]
    · cases h

theorem continues_walk (h : t.walk links s segs = .ok d) :
    ∃ l, ∀ t', t.Le t' → ∀ rest, t'.walk links s (segs ++ rest) = t'.walk l d rest := by
  induction links generalizing s segs d with
  | zero =>
    apply continues_walkSegs 0 (fun _ _ _ => .error .loop) (fun _ => rfl) _ h
    intro _ _ _ hloop
    cases hloop
  | succ links ih =>
    exact continues_walkSegs (links + 1) (fun t' => t'.walk links) (fun _ => rfl)
      (fun _ _ _ => ih) h

theorem walk_mono (hle : t.Le t') (h : t.walk links s segs = .ok d) :
    t'.walk links s segs = .ok d := by
  obtain ⟨l, hl⟩ := continues_walk h
  have hnil := hl t' hle []
  rw [List.append_nil] at hnil
  rw [hnil]
  cases l <;> rfl

theorem walkSegs_prefix {follow : List N → List (Seg N) → Except WalkError (List N)}
    (hfollow : ∀ s segs rest, follow s (segs ++ rest) = .ok q →
      ∃ m, follow s segs = .ok m ∧ t.isDir m = true)
    (h : t.walkSegs follow s (segs ++ rest) = .ok q) (hq : t.isDir q = true) :
    ∃ m, t.walkSegs follow s segs = .ok m ∧ t.isDir m = true := by
  induction segs generalizing s with
  | nil =>
    refine ⟨s, rfl, ?_⟩
    cases rest with
    | nil =>
      cases h
      exact hq
    | cons x rest =>
      simp only [List.nil_append, walkSegs] at h
      split at h
      · assumption
      · cases h
  | cons x segs ih =>
    simp only [List.cons_append, walkSegs] at h ⊢
    split at h
    · rename_i hdir
      rw [if_pos hdir]
      cases x with
      | cur => exact ih h
      | up => exact ih h
      | name n =>
        simp only at h ⊢
        split at h
        · cases h
        · rw [← List.append_assoc] at h
          exact hfollow _ _ _ h
        · exact ih h
    · cases h

/-- On the way to a directory there are directories only. -/
theorem walk_prefix (h : t.walk links s (segs ++ rest) = .ok q) (hq : t.isDir q = true) :
    ∃ m, t.walk links s segs = .ok m ∧ t.isDir m = true := by
  induction links generalizing s segs rest with
  | zero =>
    apply walkSegs_prefix _ h hq
    intro _ _ _ hloop
    cases hloop
  | succ links ih => exact walkSegs_prefix (fun _ _ _ hf => ih hf) h hq

/-! ### One more step -/

theorem walk_cur (h : t.walk links s segs = .ok d) (hd : t.isDir d = true) :
    t.walk links s (segs ++ [.cur]) = .ok d := by
  obtain ⟨l, hl⟩ := continues_walk h
  rw [hl t (.refl t)]
  cases l <;> simp [walk, walkSegs, hd]

theorem walk_up (h : t.walk links s segs = .ok d) (hd : t.isDir d = true) :
    t.walk links s (segs ++ [.up]) = .ok d.dropLast := by
  obtain ⟨l, hl⟩ := continues_walk h
  rw [hl t (.refl t)]
  cases l <;> simp [walk, walkSegs, hd]

theorem walk_dir (h : t.walk links s segs = .ok d) (hn : t.node (d ++ [n]) = some .dir) :
    t.walk links s (segs ++ [.name n]) = .ok (d ++ [n]) := by
  have hd : t.isDir d = true := isDir_iff.mpr (t.parent d n (by simp [hn]))
  obtain ⟨l, hl⟩ := continues_walk h
  rw [hl t (.refl t)]
  cases l <;> simp [walk, walkSegs, hd, hn]

/-- No walk gets past a name that the directory lacks. -/
theorem walk_lacks (h : t.walk links s segs = .ok d) (hn : t.Lacks d n) (rest : List (Seg N)) :
    t.walk links s (segs ++ .name n :: rest) = .error .notFound := by
  obtain ⟨l, hl⟩ := continues_walk h
  rw [hl t (.refl t)]
  cases l <;> simp [walk, walkSegs, isDir_iff.mpr hn.1, hn.2]

theorem node_of_walk_name (h : t.walk links s segs = .ok d) (hd : t.isDir d = true)
    (hn : t.walk links s (segs ++ [.name n]) = .ok q) : t.node (d ++ [n]) ≠ none := by
  intro hnone
  have herror := walk_lacks h ⟨isDir_iff.mp hd, hnone⟩ []
  rw [hn] at herror
  cases herror

/-! ### Adding directories -/

section Insert

variable [DecidableEq N]

/-- The tree with a new directory in `d`, if `d` is a directory that lacks the name. -/
def insertDir (t : DirTree N) (d : List N) (n : N) : DirTree N where
  node q := if q = d ++ [n] ∧ t.isDir d = true ∧ (t.node q).isNone = true then some .dir
    else t.node q
  root := by
    rw [if_neg (by simp)]
    exact t.root
  parent := by
    intro p m hne
    have hp : t.node p = some .dir := by
      split at hne
      · rename_i h
        have hpd : p = d := (List.append_inj' h.1 rfl).1
        rw [hpd]
        exact isDir_iff.mp h.2.1
      · exact t.parent p m hne
    rw [if_neg (by simp [hp])]
    exact hp

/-- The nodes on the way down from `d`. -/
def chain (d : List N) : List N → List (List N)
  | [] => []
  | n :: ns => (d ++ [n]) :: chain (d ++ [n]) ns

theorem le_insertDir (t : DirTree N) (d : List N) (n : N) : t.Le (t.insertDir d n) := by
  intro p k hk
  simp [insertDir, hk]

theorem Lacks.node_insertDir (h : t.Lacks d n) (q : List N) :
    (t.insertDir d n).node q = if q = d ++ [n] then some .dir else t.node q := by
  by_cases hq : q = d ++ [n]
  · simp [insertDir, hq, isDir_iff.mpr h.1, h.2]
  · simp [insertDir, hq]

/-- The new directory is empty. -/
theorem Lacks.insertDir (h : t.Lacks d n) (m : N) : (t.insertDir d n).Lacks (d ++ [n]) m := by
  constructor
  · simp [h.node_insertDir]
  · rw [h.node_insertDir, if_neg (by simp)]
    by_contra hne
    have hdir := t.parent (d ++ [n]) m hne
    rw [h.2] at hdir
    cases hdir

end Insert

end DirTree

end Fsys.Base
