import Mathlib.Order.Lattice
import Mathlib.Data.List.Basic

/-!
# Ordered maps

A map as the list of its pairs in the order of their keys, so that two maps with the same
pairs are equal.
-/

namespace Fsys.Base

variable {K V : Type*} [LinearOrder K]

def insertPair (k : K) (v : V) : List (K × V) → List (K × V)
  | [] => [(k, v)]
  | e :: es =>
    if k < e.1 then (k, v) :: e :: es
    else if k = e.1 then (k, v) :: es
    else e :: insertPair k v es

def Ascending (es : List (K × V)) : Prop := es.Pairwise fun a b => a.1 < b.1

theorem mem_insertPair {k : K} {v : V} {e : K × V} {es : List (K × V)}
    (h : e ∈ insertPair k v es) : e = (k, v) ∨ e ∈ es := by
  induction es with
  | nil => simpa [insertPair] using h
  | cons a es ih =>
    unfold insertPair at h
    split at h
    · simpa using h
    · split at h
      · cases List.mem_cons.mp h with
        | inl heq => exact .inl heq
        | inr hmem => exact .inr (List.mem_cons_of_mem a hmem)
      · cases List.mem_cons.mp h with
        | inl heq => simp [heq]
        | inr hmem => exact (ih hmem).imp_right (List.mem_cons_of_mem a)

theorem ascending_nil : Ascending ([] : List (K × V)) := List.Pairwise.nil

theorem ascending_insertPair (k : K) (v : V) {es : List (K × V)} (h : Ascending es) :
    Ascending (insertPair k v es) := by
  induction es with
  | nil => simp [insertPair, Ascending]
  | cons a es ih =>
    obtain ⟨ha, hes⟩ := List.pairwise_cons.mp h
    unfold insertPair
    split
    · rename_i hlt
      apply List.pairwise_cons.mpr
      refine ⟨?_, h⟩
      intro e he
      cases List.mem_cons.mp he with
      | inl heq => exact heq ▸ hlt
      | inr hmem => exact lt_trans hlt (ha e hmem)
    · rename_i hnlt
      split
      · rename_i heq
        exact List.pairwise_cons.mpr ⟨fun e he => heq ▸ ha e he, hes⟩
      · rename_i hne
        apply List.pairwise_cons.mpr
        refine ⟨?_, ih hes⟩
        intro e he
        cases mem_insertPair he with
        | inl heq =>
          rw [heq]
          exact lt_of_le_of_ne (not_lt.mp hnlt) (Ne.symm hne)
        | inr hmem => exact ha e hmem

/-- A pair behind all others is added at the end. -/
theorem insertPair_of_lt {k : K} {es : List (K × V)} (h : ∀ e ∈ es, e.1 < k) (v : V) :
    insertPair k v es = es ++ [(k, v)] := by
  induction es with
  | nil => rfl
  | cons a es ih =>
    have ha : a.1 < k := h a (by simp)
    have hes := ih fun e he => h e (List.mem_cons_of_mem a he)
    simp [insertPair, not_lt_of_gt ha, ne_of_gt ha, hes]

theorem insertPair_insertPair (k : K) (v v' : V) (es : List (K × V)) :
    insertPair k v' (insertPair k v es) = insertPair k v' es := by
  induction es with
  | nil => simp [insertPair]
  | cons a es ih =>
    by_cases hlt : k < a.1
    · simp [insertPair, hlt]
    · by_cases heq : k = a.1
      · simp [insertPair, heq]
      · simp [insertPair, hlt, heq, ih]

theorem find?_insertPair (k k' : K) (v : V) (es : List (K × V)) :
    (insertPair k v es).find? (·.1 = k') =
      if k = k' then some (k, v) else es.find? (·.1 = k') := by
  induction es with
  | nil =>
    simp only [insertPair, List.find?_cons]
    by_cases hk : k = k' <;> simp [hk]
  | cons a es ih =>
    unfold insertPair
    split
    · simp only [List.find?_cons]
      by_cases hk : k = k' <;> simp [hk]
    · split
      · rename_i heq
        simp only [List.find?_cons]
        by_cases hk : k = k' <;> simp [hk, ← heq]
      · rename_i hne
        rw [List.find?_cons, ih, List.find?_cons]
        by_cases hk : k = k'
        · have ha : ¬a.1 = k' := fun h => hne (hk.trans h.symm)
          simp [hk, ha]
        · simp [hk]

/-- A `BTreeMap`. -/
structure OrdMap (K V : Type*) [LinearOrder K] where
  pairs : List (K × V)
  ascending : Ascending pairs
  deriving DecidableEq

namespace OrdMap

@[ext] theorem ext {m m' : OrdMap K V} (h : m.pairs = m'.pairs) : m = m' := by
  cases m
  cases m'
  cases h
  rfl

def empty : OrdMap K V := ⟨[], ascending_nil⟩

def insert (m : OrdMap K V) (k : K) (v : V) : OrdMap K V :=
  ⟨insertPair k v m.pairs, ascending_insertPair k v m.ascending⟩

def get (m : OrdMap K V) (k : K) : Option V := (m.pairs.find? (·.1 = k)).map (·.2)

@[simp] theorem get_empty (k : K) : (empty : OrdMap K V).get k = none := rfl

theorem get_insert (m : OrdMap K V) (k k' : K) (v : V) :
    (m.insert k v).get k' = if k = k' then some v else m.get k' := by
  unfold get insert
  rw [find?_insertPair]
  split <;> rfl

@[simp] theorem get_insert_self (m : OrdMap K V) (k : K) (v : V) :
    (m.insert k v).get k = some v := by
  simp [get_insert]

theorem insert_insert (m : OrdMap K V) (k : K) (v v' : V) :
    (m.insert k v).insert k v' = m.insert k v' :=
  ext (insertPair_insertPair k v v' m.pairs)

theorem mem_of_get {m : OrdMap K V} {k : K} {v : V} (h : m.get k = some v) :
    (k, v) ∈ m.pairs := by
  obtain ⟨e, he, hv⟩ := Option.map_eq_some_iff.mp h
  have hk := List.find?_some he
  have hmem := List.mem_of_find?_eq_some he
  simp only [decide_eq_true_eq] at hk
  rwa [← hk, ← hv]

theorem get_eq_none {m : OrdMap K V} {k : K} (h : ∀ e ∈ m.pairs, e.1 ≠ k) : m.get k = none := by
  have hfind : m.pairs.find? (·.1 = k) = none := by simpa using h
  simp [get, hfind]

def erase (m : OrdMap K V) (k : K) : OrdMap K V :=
  ⟨m.pairs.filter (·.1 ≠ k), m.ascending.filter _⟩

theorem get_erase (m : OrdMap K V) (k k' : K) :
    (m.erase k).get k' = if k = k' then none else m.get k' := by
  unfold get erase
  rw [List.find?_filter]
  by_cases hk : k = k'
  · simp [hk]
  · have hsame : (fun e : K × V => decide (decide (e.1 ≠ k) = true ∧ decide (e.1 = k') = true)) =
        fun e => decide (e.1 = k') := by
      funext e
      by_cases he : e.1 = k'
      · simp [he, Ne.symm hk]
      · simp [he]
    simp only [hsame, hk, if_false]

/-- All pairs of a list set one after another. -/
def insertAll (m : OrdMap K V) (es : List (K × V)) : OrdMap K V :=
  es.foldl (fun m e => m.insert e.1 e.2) m

theorem pairs_insertAll {m : OrdMap K V} {es : List (K × V)} (h : Ascending (m.pairs ++ es)) :
    (m.insertAll es).pairs = m.pairs ++ es := by
  induction es generalizing m with
  | nil => simp [insertAll]
  | cons e es ih =>
    have hlt : ∀ a ∈ m.pairs, a.1 < e.1 := by
      intro a ha
      exact (List.pairwise_append.mp h).2.2 a ha e (by simp)
    have hstep : (m.insert e.1 e.2).pairs = m.pairs ++ [e] := insertPair_of_lt hlt e.2
    have hnext : Ascending ((m.insert e.1 e.2).pairs ++ es) := by
      simpa [hstep] using h
    have hall := ih hnext
    rw [hstep] at hall
    simpa [insertAll] using hall

/-- Setting the pairs of a map one after another builds the map. -/
theorem insertAll_pairs (m : OrdMap K V) : empty.insertAll m.pairs = m := by
  have h : Ascending ((empty : OrdMap K V).pairs ++ m.pairs) := m.ascending
  exact ext (pairs_insertAll h)

end OrdMap

end Fsys.Base
