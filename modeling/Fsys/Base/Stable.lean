import Mathlib.Data.List.Infix
import Mathlib.Logic.Relation
import Fsys.Base.Bytes

/-!
# What survives a crash

A log of which the first entries are stable: entries are appended, become stable, and a
crash leaves any log that starts with the stable ones. A file of which one state is
stable: behind a crash each of its bytes is the stable one or comes from a write that was
issued since.
-/

namespace Fsys.Base

/-! ### Logs -/

/-- A log and its stable entries. -/
structure StableLog (ρ : Type) where
  log : List ρ
  stable : List ρ
  stable_le : stable <+: log

namespace StableLog

variable {ρ : Type} {s t : StableLog ρ}

inductive Step (s : StableLog ρ) : StableLog ρ → Prop where
  | append (rs : List ρ) : Step s ⟨s.log ++ rs, s.stable, s.stable_le.trans (List.prefix_append _ _)⟩
  | harden (rs : List ρ) (grows : s.stable <+: rs) (le : rs <+: s.log) : Step s ⟨s.log, rs, le⟩
  | crash (rs : List ρ) (kept : s.stable <+: rs) : Step s ⟨rs, s.stable, kept⟩

def Evolves : StableLog ρ → StableLog ρ → Prop := Relation.ReflTransGen Step

theorem Step.stable (h : Step s t) : s.stable <+: t.stable := by
  cases h with
  | append rs => exact List.prefix_rfl
  | harden rs grows le => exact grows
  | crash rs kept => exact List.prefix_rfl

/-- What was stable stays stable, over any number of crashes. -/
theorem Evolves.stable (h : Evolves s t) : s.stable <+: t.stable := by
  induction h with
  | refl => exact List.prefix_rfl
  | tail _ hstep ih => exact ih.trans hstep.stable

theorem Evolves.kept (h : Evolves s t) : s.stable <+: t.log := h.stable.trans t.stable_le

theorem Evolves.trans {u : StableLog ρ} (h : Evolves s t) (h' : Evolves t u) : Evolves s u :=
  Relation.ReflTransGen.trans h h'

end StableLog

/-! ### Files -/

theorem take_ext {α : Type} {xs ys : List α} {n : ℕ} (h : ∀ i, i < n → xs[i]? = ys[i]?) :
    xs.take n = ys.take n := by
  apply List.ext_getElem?
  intro i
  by_cases hi : i < n
  · rw [List.getElem?_take_of_lt hi, List.getElem?_take_of_lt hi, h i hi]
  · simp [hi]

theorem getElem?_of_take_eq {α : Type} {xs ys : List α} {n i : ℕ} (h : xs.take n = ys.take n)
    (hi : i < n) : xs[i]? = ys[i]? := by
  rw [← List.getElem?_take_of_lt hi, h, List.getElem?_take_of_lt hi]

/-- The content of a file behind a crash, when `stable` was on the medium and the writes
`since` were issued afterwards. -/
def Survives (stable : Bytes) (since : List (ℕ × Bytes)) (image : Bytes) : Prop :=
  ∀ p b, stable[p]? = some b → image[p]? = some b ∨
    ∃ w ∈ since, w.1 ≤ p ∧ p < w.1 + w.2.length ∧ image[p]? = w.2[p - w.1]?

/-- Below `n` the write has the bytes of `L`. -/
def AgreesBelow (L : Bytes) (n : ℕ) (w : ℕ × Bytes) : Prop :=
  ∀ p, w.1 ≤ p → p < w.1 + w.2.length → p < n → w.2[p - w.1]? = L[p]?

variable {L : Bytes} {n : ℕ} {w : ℕ × Bytes}

theorem AgreesBelow.mono {m : ℕ} (h : AgreesBelow L n w) (hm : m ≤ n) : AgreesBelow L m w := by
  intro p h1 h2 h3
  exact h p h1 h2 (by omega)

theorem AgreesBelow.grow (h : AgreesBelow L n w) (hn : n ≤ L.length) (more : Bytes) :
    AgreesBelow (L ++ more) n w := by
  intro p h1 h2 h3
  rw [h p h1 h2 h3, List.getElem?_append_left (by omega)]

/-- The bytes of `L` are not changed by a write that agrees with them, however far it got. -/
theorem AgreesBelow.take_overlay (h : AgreesBelow L n w) {file : Bytes}
    (hfile : file.take n = L.take n) (hn : n ≤ L.length) (done : ℕ) :
    (overlay file w.1 (w.2.take done)).take n = L.take n := by
  have hlen : n ≤ file.length := by
    have := congrArg List.length hfile
    rw [List.length_take_of_le hn, List.length_take] at this
    omega
  apply take_ext
  intro i hi
  have hbase : file[i]? = L[i]? := getElem?_of_take_eq hfile hi
  rw [getElem?_overlay, List.length_take]
  split
  · rw [if_pos (by omega), hbase]
  · split
    · rw [List.getElem?_take_of_lt (by omega), h i (by omega) (by omega) hi]
    · exact hbase

/-- What was stable below `n` is there behind the crash when every write since agrees. -/
theorem Survives.take_eq {stable image : Bytes} {since : List (ℕ × Bytes)}
    (h : Survives stable since image) (hn : n ≤ stable.length)
    (hstable : stable.take n = L.take n) (hsince : ∀ w ∈ since, AgreesBelow L n w) :
    image.take n = L.take n := by
  apply take_ext
  intro i hi
  have hbase : stable[i]? = L[i]? := getElem?_of_take_eq hstable hi
  have hb : stable[i]? = some (stable.get ⟨i, by omega⟩) := List.getElem?_eq_getElem _
  rcases h i _ hb with hsame | ⟨w, hw, h1, h2, hbyte⟩
  · rw [hsame, ← hb, hbase]
  · rw [hbyte]
    exact hsince w hw i h1 h2 hi

end Fsys.Base
