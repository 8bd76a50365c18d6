import Mathlib.Data.List.TakeDrop
import Mathlib.Tactic.Ring

/-!
# Positional scanners

A scanner looks at the suffix of a sequence that starts at a position and says
what is there (`Head`): the end of the scan, a stretch to skip, or an item
occupying a number of elements. `scan` follows these answers from left to
right. `Path` is the relational form of the same walk; the results below move
between the two and cut or extend the scanned sequence.
-/

namespace Fsys.Base.Scan

variable {α ρ σ : Type}

/-- What a scanner finds at one position. -/
inductive Head (ρ σ : Type) where
  | stop (state : σ)
  | skip (len : ℕ)
  | item (record : ρ) (len : ℕ)

/-- Result of a whole scan: the items in order, why it stopped and where. -/
structure Outcome (ρ σ : Type) where
  records : List ρ
  state : σ
  position : ℕ
  deriving DecidableEq, Repr

def Outcome.prepend (rs : List ρ) (o : Outcome ρ σ) : Outcome ρ σ :=
  ⟨rs ++ o.records, o.state, o.position⟩

@[simp] theorem Outcome.prepend_nil (o : Outcome ρ σ) : o.prepend [] = o := rfl

/-- Every answer other than `stop` consumes elements the suffix has. -/
def Progress (head : ℕ → List α → Head ρ σ) : Prop :=
  ∀ pos rest, match head pos rest with
    | .stop _ => True
    | .skip n => 0 < n ∧ n ≤ rest.length
    | .item _ n => 0 < n ∧ n ≤ rest.length

variable {head : ℕ → List α → Head ρ σ}

theorem Progress.skip (hp : Progress head) {pos : ℕ} {rest : List α} {n : ℕ}
    (h : head pos rest = .skip n) : 0 < n ∧ n ≤ rest.length := by
  have hh := hp pos rest
  rw [h] at hh
  exact hh

theorem Progress.item (hp : Progress head) {pos : ℕ} {rest : List α} {r : ρ} {n : ℕ}
    (h : head pos rest = .item r n) : 0 < n ∧ n ≤ rest.length := by
  have hh := hp pos rest
  rw [h] at hh
  exact hh

/-- Follow a scanner for at most `fuel` answers. -/
def walk (head : ℕ → List α → Head ρ σ) : ℕ → ℕ → List α → Option (Outcome ρ σ)
  | 0, _, _ => none
  | fuel + 1, pos, rest =>
    match head pos rest with
    | .stop s => some ⟨[], s, pos⟩
    | .skip n => walk head fuel (pos + n) (rest.drop n)
    | .item r n => (walk head fuel (pos + n) (rest.drop n)).map (·.prepend [r])

/-- The walk from `(pos, rest)` to `(pos', rest')` that yields `rs`. -/
inductive Path (head : ℕ → List α → Head ρ σ) :
    ℕ → List α → List ρ → ℕ → List α → Prop where
  | refl (pos : ℕ) (rest : List α) : Path head pos rest [] pos rest
  | skip {pos : ℕ} {rest : List α} {n : ℕ} {rs : List ρ} {pos' : ℕ} {rest' : List α}
      (h : head pos rest = .skip n) (tail : Path head (pos + n) (rest.drop n) rs pos' rest') :
      Path head pos rest rs pos' rest'
  | item {pos : ℕ} {rest : List α} {r : ρ} {n : ℕ} {rs : List ρ} {pos' : ℕ} {rest' : List α}
      (h : head pos rest = .item r n) (tail : Path head (pos + n) (rest.drop n) rs pos' rest') :
      Path head pos rest (r :: rs) pos' rest'

theorem Path.trans {pos pos' pos'' : ℕ} {rest rest' rest'' : List α} {rs ts : List ρ}
    (h1 : Path head pos rest rs pos' rest') (h2 : Path head pos' rest' ts pos'' rest'') :
    Path head pos rest (rs ++ ts) pos'' rest'' := by
  induction h1 with
  | refl => exact h2
  | skip h _ ih => exact Path.skip h (ih h2)
  | item h _ ih => exact Path.item h (ih h2)

/-- A path only drops elements from the front, as many as the position moved. -/
theorem Path.rest_eq {pos pos' : ℕ} {rest rest' : List α} {rs : List ρ}
    (h : Path head pos rest rs pos' rest') : pos ≤ pos' ∧ rest' = rest.drop (pos' - pos) := by
  induction h with
  | refl => simp
  | @skip pos rest n rs pos' rest' h tail ih =>
    obtain ⟨hle, heq⟩ := ih
    refine ⟨by omega, ?_⟩
    rw [heq, List.drop_drop]
    congr 1
    omega
  | @item pos rest r n rs pos' rest' h tail ih =>
    obtain ⟨hle, heq⟩ := ih
    refine ⟨by omega, ?_⟩
    rw [heq, List.drop_drop]
    congr 1
    omega

/-- With progress, a path stays inside the sequence. -/
theorem Path.le_length (hp : Progress head) {pos pos' : ℕ} {rest rest' : List α} {rs : List ρ}
    (h : Path head pos rest rs pos' rest') : pos' ≤ pos + rest.length := by
  induction h with
  | refl => omega
  | @skip pos rest n rs pos' rest' h tail ih =>
    have hn := hp.skip h
    rw [List.length_drop] at ih
    omega
  | @item pos rest r n rs pos' rest' h tail ih =>
    have hn := hp.item h
    rw [List.length_drop] at ih
    omega

/-- With progress, enough fuel reaches a stop along a path. -/
theorem walk_total (hp : Progress head) (fuel pos : ℕ) (rest : List α)
    (hf : rest.length < fuel) :
    ∃ o, walk head fuel pos rest = some o ∧
      ∃ rest', Path head pos rest o.records o.position rest' ∧
        head o.position rest' = .stop o.state := by
  induction fuel generalizing pos rest with
  | zero => omega
  | succ fuel ih =>
    cases hh : head pos rest with
    | stop s =>
      refine ⟨⟨[], s, pos⟩, ?_, rest, Path.refl pos rest, hh⟩
      simp only [walk, hh]
    | skip n =>
      have hn := hp.skip hh
      obtain ⟨o, ho, rest', hpath, hstop⟩ := ih (pos + n) (rest.drop n) (by
        rw [List.length_drop]
        omega)
      refine ⟨o, ?_, rest', Path.skip hh hpath, hstop⟩
      simp only [walk, hh, ho]
    | item r n =>
      have hn := hp.item hh
      obtain ⟨o, ho, rest', hpath, hstop⟩ := ih (pos + n) (rest.drop n) (by
        rw [List.length_drop]
        omega)
      refine ⟨o.prepend [r], ?_, rest', Path.item hh hpath, hstop⟩
      simp only [walk, hh, ho, Option.map_some]

/-- A path to a stop determines the outcome of every walk with enough fuel. -/
theorem walk_of_path (hp : Progress head) {pos pos' : ℕ} {rest rest' : List α} {rs : List ρ}
    {s : σ} (h : Path head pos rest rs pos' rest') (hs : head pos' rest' = .stop s)
    (fuel : ℕ) (hf : rest.length < fuel) :
    walk head fuel pos rest = some ⟨rs, s, pos'⟩ := by
  induction h generalizing fuel with
  | refl pos rest =>
    cases fuel with
    | zero => omega
    | succ fuel => simp only [walk, hs]
  | @skip pos rest n rs pos' rest' h tail ih =>
    cases fuel with
    | zero => omega
    | succ fuel =>
      have hn := hp.skip h
      have hl : (rest.drop n).length < fuel := by
        rw [List.length_drop]
        omega
      simp only [walk, h, ih hs fuel hl]
  | @item pos rest r n rs pos' rest' h tail ih =>
    cases fuel with
    | zero => omega
    | succ fuel =>
      have hn := hp.item h
      have hl : (rest.drop n).length < fuel := by
        rw [List.length_drop]
        omega
      simp only [walk, h, ih hs fuel hl, Option.map_some, Outcome.prepend, List.cons_append,
        List.nil_append]

/-- The whole scan of the suffix `rest` that starts at `pos`; `dflt` is the state
reported if the scanner did not make progress. -/
def scan (head : ℕ → List α → Head ρ σ) (dflt : σ) (pos : ℕ) (rest : List α) : Outcome ρ σ :=
  (walk head (rest.length + 1) pos rest).getD ⟨[], dflt, pos⟩

variable {dflt : σ}

theorem scan_of_path (hp : Progress head) {pos pos' : ℕ} {rest rest' : List α} {rs : List ρ}
    {s : σ} (h : Path head pos rest rs pos' rest') (hs : head pos' rest' = .stop s) :
    scan head dflt pos rest = ⟨rs, s, pos'⟩ := by
  unfold scan
  rw [walk_of_path hp h hs (rest.length + 1) (by omega), Option.getD_some]

theorem path_of_scan (hp : Progress head) (dflt : σ) (pos : ℕ) (rest : List α) :
    ∃ rest', Path head pos rest (scan head dflt pos rest).records
        (scan head dflt pos rest).position rest' ∧
      head (scan head dflt pos rest).position rest' = .stop (scan head dflt pos rest).state := by
  obtain ⟨o, ho, h⟩ := walk_total hp (rest.length + 1) pos rest (by omega)
  unfold scan
  rw [ho, Option.getD_some]
  exact h

/-- A scan continues behind any path that starts where it starts. -/
theorem scan_append_path (hp : Progress head) {pos pos' : ℕ} {rest rest' : List α} {rs : List ρ}
    (h : Path head pos rest rs pos' rest') :
    scan head dflt pos rest = (scan head dflt pos' rest').prepend rs := by
  obtain ⟨rest'', hpath, hstop⟩ := path_of_scan hp dflt pos' rest'
  rw [scan_of_path hp (h.trans hpath) hstop]
  rfl

theorem scan_stop (hp : Progress head) {pos : ℕ} {rest : List α} {s : σ}
    (h : head pos rest = .stop s) : scan head dflt pos rest = ⟨[], s, pos⟩ :=
  scan_of_path hp (Path.refl pos rest) h

theorem scan_skip (hp : Progress head) {pos : ℕ} {rest : List α} {n : ℕ}
    (h : head pos rest = .skip n) :
    scan head dflt pos rest = scan head dflt (pos + n) (rest.drop n) := by
  rw [scan_append_path hp (Path.skip h (Path.refl _ _)), Outcome.prepend_nil]

theorem scan_item (hp : Progress head) {pos : ℕ} {rest : List α} {r : ρ} {n : ℕ}
    (h : head pos rest = .item r n) :
    scan head dflt pos rest = (scan head dflt (pos + n) (rest.drop n)).prepend [r] :=
  scan_append_path hp (Path.item h (Path.refl _ _))

end Fsys.Base.Scan
