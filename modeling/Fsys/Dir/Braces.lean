import Mathlib.Algebra.BigOperators.Group.List.Basic
import Fsys.Base.Text

/-!
# Brace expansion (src/crud/dir.rs:407-465)

`expand_braces` replaces the first closed group by each of its alternatives and starts over,
with one vector and one bound for all branches. Its doc promises the pattern itself beyond
the bound; the code keeps the expansions it has made so far.
-/

namespace Fsys.Dir

open Fsys.Base

def maxBraceExpansions : ℕ := 1024

/-- The first `{` and the first `}` behind it: the text before, between and behind them. -/
def findGroup (pattern : Str) : Option (Str × Str × Str) := do
  let (before, rest) ← splitOnce '{' pattern
  let (group, suffix) ← splitOnce '}' rest
  pure (before, group, suffix)

theorem findGroup_some {pattern before group suffix : Str}
    (h : findGroup pattern = some (before, group, suffix)) :
    pattern = before ++ '{' :: (group ++ '}' :: suffix) ∧ '{' ∉ before ∧ '}' ∉ group := by
  obtain ⟨p, hp, h⟩ := Option.bind_eq_some_iff.mp h
  obtain ⟨q, hq, h⟩ := Option.bind_eq_some_iff.mp h
  cases h
  obtain ⟨hpattern, hbefore⟩ := splitOnce_some hp
  obtain ⟨hrest, hgroup⟩ := splitOnce_some hq
  exact ⟨by rw [hpattern, hrest], hbefore, hgroup⟩

theorem findGroup_append {before group : Str} (hb : '{' ∉ before) (hg : '}' ∉ group)
    (suffix : Str) :
    findGroup (before ++ '{' :: (group ++ '}' :: suffix)) = some (before, group, suffix) := by
  simp [findGroup, splitOnce_append hb, splitOnce_append hg]

/-- With an alternative in its place the group's braces are gone. -/
theorem length_of_alternative {pattern before group suffix alt : Str}
    (h : findGroup pattern = some (before, group, suffix)) (ha : alt ∈ group.splitOn ',') :
    (before ++ alt ++ suffix).length < pattern.length := by
  obtain ⟨rfl, -, -⟩ := findGroup_some h
  have hle := (sublist_of_mem_splitOn ha).length_le
  simp only [List.length_append, List.length_cons]
  omega

/-- `expand_braces_into`: the expansions of `pattern` behind those in `out`. -/
def expandBracesInto (pattern : Str) (out : List Str) : List Str :=
  if maxBraceExpansions ≤ out.length then out
  else
    match _h : findGroup pattern with
    | none => out ++ [pattern]
    | some (before, group, suffix) =>
      (group.splitOn ',').attach.foldl (fun out alt =>
        if maxBraceExpansions ≤ out.length then out
        else expandBracesInto (before ++ alt.1 ++ suffix) out) out
termination_by pattern.length
decreasing_by exact length_of_alternative _h alt.2

def expandBraces (pattern : Str) : List Str := expandBracesInto pattern []

/-! ### Without the bound -/

/-- All expansions, the ones of the first group's first alternative first. -/
def expandAll (pattern : Str) : List Str :=
  match _h : findGroup pattern with
  | none => [pattern]
  | some (before, group, suffix) =>
    (group.splitOn ',').attach.flatMap fun alt => expandAll (before ++ alt.1 ++ suffix)
termination_by pattern.length
decreasing_by exact length_of_alternative _h alt.2

theorem expandAll_of_none {pattern : Str} (h : findGroup pattern = none) :
    expandAll pattern = [pattern] := by
  rw [expandAll]
  split
  · rfl
  · rename_i heq
    rw [h] at heq
    cases heq

theorem expandAll_of_some {pattern before group suffix : Str}
    (h : findGroup pattern = some (before, group, suffix)) :
    expandAll pattern =
      (group.splitOn ',').flatMap fun alt => expandAll (before ++ alt ++ suffix) := by
  rw [expandAll]
  split
  · rename_i heq
    rw [h] at heq
    cases heq
  · rename_i heq
    rw [h] at heq
    cases heq
    simp

theorem expandAll_ne_nil (pattern : Str) : expandAll pattern ≠ [] := by
  induction hn : pattern.length using Nat.strongRecOn generalizing pattern with
  | ind n ih =>
    cases hg : findGroup pattern with
    | none => simp [expandAll_of_none hg]
    | some g =>
      obtain ⟨before, group, suffix⟩ := g
      rw [expandAll_of_some hg]
      intro hnil
      obtain ⟨alt, rest, hsplit⟩ := List.exists_cons_of_ne_nil (List.splitOn_ne_nil ',' group)
      have hmem : alt ∈ group.splitOn ',' := by simp [hsplit]
      have hshort := length_of_alternative hg hmem
      exact ih _ (hn ▸ hshort) _ rfl (List.flatMap_eq_nil_iff.mp hnil alt hmem)

/-! ### With the bound -/

/-- One turn of the loop over the alternatives. -/
def expandAlternative (before suffix : Str) (out : List Str) (alt : Str) : List Str :=
  if maxBraceExpansions ≤ out.length then out
  else expandBracesInto (before ++ alt ++ suffix) out

theorem expandBracesInto_full {out : List Str} (h : maxBraceExpansions ≤ out.length)
    (pattern : Str) : expandBracesInto pattern out = out := by
  rw [expandBracesInto, if_pos h]

theorem expandBracesInto_of_none {pattern : Str} {out : List Str}
    (h : ¬ maxBraceExpansions ≤ out.length) (hg : findGroup pattern = none) :
    expandBracesInto pattern out = out ++ [pattern] := by
  rw [expandBracesInto, if_neg h]
  split
  · rfl
  · rename_i heq
    rw [hg] at heq
    cases heq

theorem expandBracesInto_of_some {pattern before group suffix : Str} {out : List Str}
    (h : ¬ maxBraceExpansions ≤ out.length)
    (hg : findGroup pattern = some (before, group, suffix)) :
    expandBracesInto pattern out =
      (group.splitOn ',').foldl (expandAlternative before suffix) out := by
  rw [expandBracesInto, if_neg h]
  split
  · rename_i heq
    rw [hg] at heq
    cases heq
  · rename_i heq
    rw [hg] at heq
    cases heq
    exact List.foldl_attach (f := expandAlternative before suffix)

theorem take_take_append {α : Type} (n : ℕ) (l m : List α) :
    (l.take n ++ m).take n = (l ++ m).take n := by
  by_cases h : l.length ≤ n
  · rw [List.take_of_length_le h]
  · have hl : n ≤ l.length := by omega
    rw [List.take_append_of_le_length hl, List.take_append_of_le_length (by simp [hl]),
      List.take_take, Nat.min_self]

/-- The loop keeps the first expansions of its alternatives, up to the bound. -/
theorem foldl_expandAlternative (before suffix : Str) (alts : List Str)
    (h : ∀ alt ∈ alts, ∀ out : List Str, out.length ≤ maxBraceExpansions →
      expandBracesInto (before ++ alt ++ suffix) out =
        (out ++ expandAll (before ++ alt ++ suffix)).take maxBraceExpansions)
    (out : List Str) (hout : out.length ≤ maxBraceExpansions) :
    alts.foldl (expandAlternative before suffix) out =
      (out ++ alts.flatMap fun alt => expandAll (before ++ alt ++ suffix)).take
        maxBraceExpansions := by
  induction alts generalizing out with
  | nil => simp [List.take_of_length_le hout]
  | cons alt alts ih =>
    have hstep : expandAlternative before suffix out alt =
        (out ++ expandAll (before ++ alt ++ suffix)).take maxBraceExpansions := by
      rw [← h alt List.mem_cons_self out hout]
      unfold expandAlternative
      split
      · rename_i hfull
        rw [expandBracesInto_full hfull]
      · rfl
    rw [List.foldl_cons, hstep, ih fun a ha => h a (List.mem_cons_of_mem alt ha)]
    · rw [take_take_append, List.flatMap_cons, List.append_assoc]
    · exact List.length_take_le _ _

/-- The code's vector is the first part of all expansions. -/
theorem expandBracesInto_eq (pattern : Str) (out : List Str)
    (hout : out.length ≤ maxBraceExpansions) :
    expandBracesInto pattern out = (out ++ expandAll pattern).take maxBraceExpansions := by
  induction hn : pattern.length using Nat.strongRecOn generalizing pattern out with
  | ind n ih =>
    by_cases hfull : maxBraceExpansions ≤ out.length
    · have hlen : out.length = maxBraceExpansions := by omega
      rw [expandBracesInto_full hfull, List.take_append_of_le_length (by omega), ← hlen,
        List.take_length]
    · cases hg : findGroup pattern with
      | none =>
        rw [expandBracesInto_of_none hfull hg, expandAll_of_none hg, List.take_of_length_le]
        rw [List.length_append, List.length_singleton]
        omega
      | some g =>
        obtain ⟨before, group, suffix⟩ := g
        rw [expandBracesInto_of_some hfull hg, expandAll_of_some hg]
        apply foldl_expandAlternative before suffix _ _ out hout
        intro alt ha out' hout'
        exact ih _ (hn ▸ length_of_alternative hg ha) _ _ hout' rfl

theorem expandBraces_eq (pattern : Str) :
    expandBraces pattern = (expandAll pattern).take maxBraceExpansions := by
  have h := expandBracesInto_eq pattern [] (by simp)
  rwa [List.nil_append] at h

theorem length_expandBraces_pos (pattern : Str) : 0 < (expandBraces pattern).length := by
  have hpos := List.length_pos_iff.mpr (expandAll_ne_nil pattern)
  rw [expandBraces_eq, List.length_take]
  unfold maxBraceExpansions
  omega

/-! ### Patterns with groups side by side -/

/-- The closed groups of a pattern from left to right, each with the text before it, and the
text behind the last one. -/
def groupsOf (pattern : Str) : List (Str × Str) × Str :=
  match _h : findGroup pattern with
  | none => ([], pattern)
  | some (before, group, suffix) =>
    let (groups, tail) := groupsOf suffix
    ((before, group) :: groups, tail)
termination_by pattern.length
decreasing_by
  obtain ⟨hp, -, -⟩ := findGroup_some _h
  simp only [hp, List.length_append, List.length_cons]
  omega

/-- No group opens inside another one. -/
def NotNested (pattern : Str) : Prop := ∀ g ∈ (groupsOf pattern).1, '{' ∉ g.2

/-- One text of each list, the first list's choice first. -/
def product : List (List Str) → List Str
  | [] => [[]]
  | alts :: rest => alts.flatMap fun alt => (product rest).map (alt ++ ·)

/-- The texts a pattern chooses from, in order. -/
def choices : List (Str × Str) → Str → List (List Str)
  | [], tail => [[tail]]
  | (before, group) :: groups, tail => [before] :: group.splitOn ',' :: choices groups tail

/-- How many texts there are to choose: the product of the group sizes. -/
def choiceCount (pattern : Str) : ℕ :=
  ((groupsOf pattern).1.map fun g => (g.2.splitOn ',').length).prod

def productOf (pattern : Str) : List Str :=
  product (choices (groupsOf pattern).1 (groupsOf pattern).2)

theorem groupsOf_of_none {pattern : Str} (h : findGroup pattern = none) :
    groupsOf pattern = ([], pattern) := by
  rw [groupsOf]
  split
  · rfl
  · rename_i heq
    rw [h] at heq
    cases heq

theorem groupsOf_of_some {pattern before group suffix : Str}
    (h : findGroup pattern = some (before, group, suffix)) :
    groupsOf pattern = ((before, group) :: (groupsOf suffix).1, (groupsOf suffix).2) := by
  rw [groupsOf]
  split
  · rename_i heq
    rw [h] at heq
    cases heq
  · rename_i heq
    rw [h] at heq
    cases heq
    rfl

theorem findGroup_of_not_mem {text : Str} (h : '{' ∉ text) (pattern : Str) :
    findGroup (text ++ pattern) =
      (findGroup pattern).map fun g => (text ++ g.1, g.2.1, g.2.2) := by
  unfold findGroup
  rw [splitOnce_of_not_mem h]
  cases splitOnce '{' pattern with
  | none => rfl
  | some p =>
    dsimp only [Option.map_some, Option.bind_eq_bind, Option.bind_some]
    cases splitOnce '}' p.2 with
    | none => rfl
    | some q => rfl

/-- Text without an opening brace stays in front of every expansion. -/
theorem expandAll_append {text : Str} (h : '{' ∉ text) (pattern : Str) :
    expandAll (text ++ pattern) = (expandAll pattern).map (text ++ ·) := by
  induction hn : pattern.length using Nat.strongRecOn generalizing pattern with
  | ind n ih =>
    have hfind := findGroup_of_not_mem h pattern
    cases hg : findGroup pattern with
    | none =>
      rw [hg] at hfind
      simp [expandAll_of_none hg, expandAll_of_none hfind]
    | some g =>
      obtain ⟨before, group, suffix⟩ := g
      rw [hg] at hfind
      rw [expandAll_of_some hg, expandAll_of_some hfind, List.map_flatMap]
      apply List.flatMap_congr
      intro alt ha
      rw [← ih _ (hn ▸ length_of_alternative hg ha) _ rfl]
      simp only [List.append_assoc]

theorem expandAll_eq_product {pattern : Str} (h : NotNested pattern) :
    expandAll pattern = productOf pattern := by
  induction hn : pattern.length using Nat.strongRecOn generalizing pattern with
  | ind n ih =>
    cases hg : findGroup pattern with
    | none => simp [expandAll_of_none hg, productOf, groupsOf_of_none hg, choices, product]
    | some g =>
      obtain ⟨before, group, suffix⟩ := g
      obtain ⟨hpattern, hbefore, -⟩ := findGroup_some hg
      have hgroups := groupsOf_of_some hg
      unfold NotNested at h
      rw [hgroups] at h
      have hgroup : '{' ∉ group := h (before, group) List.mem_cons_self
      have hshort : suffix.length < n := by
        rw [← hn, hpattern, List.length_append, List.length_cons, List.length_append,
          List.length_cons]
        omega
      have hrest : expandAll suffix = productOf suffix :=
        ih _ hshort (fun g' hg' => h g' (List.mem_cons_of_mem _ hg')) rfl
      have halt : ∀ alt ∈ group.splitOn ',', expandAll (before ++ alt ++ suffix) =
          (productOf suffix).map (before ++ alt ++ ·) := by
        intro alt ha
        have hfree : '{' ∉ before ++ alt := by
          rw [List.mem_append, not_or]
          exact ⟨hbefore, fun hmem => hgroup ((sublist_of_mem_splitOn ha).subset hmem)⟩
        rw [expandAll_append hfree, hrest]
      rw [expandAll_of_some hg, List.flatMap_congr halt]
      simp only [productOf, hgroups, choices, product, List.flatMap_cons, List.flatMap_nil,
        List.append_nil, List.map_flatMap, List.map_map, Function.comp_def, List.append_assoc]

theorem length_product_cons (alts : List Str) (rest : List (List Str)) :
    (product (alts :: rest)).length = alts.length * (product rest).length := by
  simp [product, List.length_flatMap]

theorem length_productOf (pattern : Str) : (productOf pattern).length = choiceCount pattern := by
  unfold productOf choiceCount
  induction (groupsOf pattern).1 with
  | nil => simp [choices, product]
  | cons g groups ih =>
    rw [choices, length_product_cons, length_product_cons, ih, List.map_cons, List.prod_cons]
    simp

/-! ### The promise -/

/-- What `expand_braces` promises for a pattern. -/
structure Expands (pattern : Str) : Prop where
  full : NotNested pattern → choiceCount pattern ≤ maxBraceExpansions →
    expandBraces pattern = productOf pattern
  beyond : NotNested pattern → maxBraceExpansions < choiceCount pattern →
    expandBraces pattern = [pattern]
  nonempty : 0 < (expandBraces pattern).length
  bounded : (expandBraces pattern).length ≤ maxBraceExpansions
  plain : findGroup pattern = none → expandBraces pattern = [pattern]

/-- The promise is kept exactly for the patterns that nest groups or have no more choices than
the bound allows. -/
theorem expand_braces_promise_iff (pattern : Str) :
    Expands pattern ↔ (NotNested pattern → choiceCount pattern ≤ maxBraceExpansions) := by
  have htake := expandBraces_eq pattern
  constructor
  · intro h hflat
    by_contra hmany
    have hone := h.beyond hflat (by omega)
    have hlen : (expandBraces pattern).length = maxBraceExpansions := by
      rw [htake, expandAll_eq_product hflat, List.length_take, length_productOf]
      omega
    rw [hone, List.length_singleton] at hlen
    exact absurd hlen (by decide)
  · intro hfew
    refine ⟨?_, ?_, length_expandBraces_pos pattern, ?_, ?_⟩
    · intro hflat hle
      rw [htake, expandAll_eq_product hflat, List.take_of_length_le]
      rw [length_productOf]
      exact hle
    · intro hflat hlt
      have hle := hfew hflat
      omega
    · rw [htake]
      exact List.length_take_le _ _
    · intro hnone
      rw [htake, expandAll_of_none hnone]
      rfl

/-- `{a,b}`, so many times. -/
def pairs : ℕ → Str
  | 0 => []
  | n + 1 => '{' :: ("a,b".toList ++ '}' :: pairs n)

theorem groupsOf_pairs (n : ℕ) :
    groupsOf (pairs n) = (List.replicate n ([], "a,b".toList), []) := by
  induction n with
  | zero => exact groupsOf_of_none rfl
  | succ n ih =>
    have hbefore : '{' ∉ ([] : Str) := by simp
    have hfind : findGroup (pairs (n + 1)) = some ([], "a,b".toList, pairs n) :=
      findGroup_append hbefore (by simp) (pairs n)
    rw [groupsOf_of_some hfind, ih]
    rfl

/-- Eleven pairs have 2048 expansions; the first 1024 of them are returned, not the pattern. -/
theorem eleven_pairs_are_truncated :
    NotNested (pairs 11) ∧ choiceCount (pairs 11) = 2048 ∧
      (expandBraces (pairs 11)).length = 1024 ∧ expandBraces (pairs 11) ≠ [pairs 11] := by
  have hflat : NotNested (pairs 11) := by
    unfold NotNested
    rw [groupsOf_pairs]
    decide
  have hcount : choiceCount (pairs 11) = 2048 := by
    unfold choiceCount
    rw [groupsOf_pairs]
    decide
  have hlen : (expandBraces (pairs 11)).length = 1024 := by
    rw [expandBraces_eq, expandAll_eq_product hflat, List.length_take, length_productOf, hcount]
    rfl
  refine ⟨hflat, hcount, hlen, ?_⟩
  intro hone
  rw [hone, List.length_singleton] at hlen
  omega

end Fsys.Dir
