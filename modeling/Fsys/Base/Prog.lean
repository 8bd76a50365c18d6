import Mathlib.Logic.Function.Basic

/-!
# Programs that keep their effects when they fail

`Prog` is a state monad with failure in which a failing step leaves the state as
it is at that moment, as system calls do. `Prog.Wp` says what holds of the
result and the final state; the rules below follow the program text.
-/

namespace Fsys.Base

/-- `std::io::ErrorKind`, the kinds that are told apart. -/
inductive ErrorKind where
  | notFound
  | permissionDenied
  | alreadyExists
  | invalidInput
  | invalidData
  | unexpectedEof
  | writeZero
  | interrupted
  | outOfMemory
  | other
  deriving DecidableEq, Repr

/-- `std::io::Error`: its kind and message. -/
structure IoError where
  kind : ErrorKind
  message : String
  deriving DecidableEq, Repr

/-- A program on states `σ` that returns or fails. -/
def Prog (σ ε α : Type) : Type := σ → Except ε α × σ

namespace Prog

variable {σ ε ε' α β : Type}

protected def pure (a : α) : Prog σ ε α := fun s => (.ok a, s)

protected def bind (m : Prog σ ε α) (f : α → Prog σ ε β) : Prog σ ε β := fun s =>
  match m s with
  | (.ok a, s') => f a s'
  | (.error e, s') => (.error e, s')

instance : Monad (Prog σ ε) where
  pure := Prog.pure
  bind := Prog.bind

def throw (e : ε) : Prog σ ε α := fun s => (.error e, s)

/-- A computed result. -/
def lift (r : Except ε α) : Prog σ ε α := fun s => (r, s)

/-- Run a program and hand its failure over as a value. -/
def attempt (m : Prog σ ε α) : Prog σ ε' (Except ε α) := fun s => (.ok (m s).1, (m s).2)

/-- Run a program for its effects. -/
def ignore (m : Prog σ ε α) : Prog σ ε' Unit := fun s => (.ok (), (m s).2)

/-- The state. -/
def get : Prog σ ε σ := fun s => (.ok s, s)

def modify (f : σ → σ) : Prog σ ε Unit := fun s => (.ok (), f s)

/-- A program on the first component of the state. -/
def onFst {τ : Type} (m : Prog σ ε α) : Prog (σ × τ) ε α := fun s =>
  ((m s.1).1, ((m s.1).2, s.2))

def mapError (f : ε → ε') (m : Prog σ ε α) : Prog σ ε' α := fun s => ((m s).1.mapError f, (m s).2)

/-- When `m` fails run `clean` for its effects; the failure stays. -/
def cleanup (m : Prog σ ε α) (clean : ε → Prog σ ε' Unit) : Prog σ ε α := fun s =>
  match m s with
  | (.ok a, t) => (.ok a, t)
  | (.error e, t) => (.error e, (clean e t).2)

/-- `Q` holds of the result and the final state. -/
def Wp (m : Prog σ ε α) (Q : Except ε α → σ → Prop) (s : σ) : Prop := Q (m s).1 (m s).2

theorem wp_mono {m : Prog σ ε α} {P Q : Except ε α → σ → Prop} {s : σ} (h : m.Wp P s)
    (himp : ∀ r t, P r t → Q r t) : m.Wp Q s := himp _ _ h

/-- A postcondition may speak of the run. -/
theorem Wp.with_run {m : Prog σ ε α} {Q : Except ε α → σ → Prop} {s : σ} (h : m.Wp Q s) :
    m.Wp (fun r t => m s = (r, t) ∧ Q r t) s := ⟨rfl, h⟩

theorem Wp.run {m : Prog σ ε α} {Q : Except ε α → σ → Prop} {s t : σ} {r : Except ε α}
    (h : m.Wp Q s) (e : m s = (r, t)) : Q r t := by
  unfold Wp at h
  rw [e] at h
  exact h

@[simp] theorem wp_pure (a : α) (Q : Except ε α → σ → Prop) (s : σ) :
    Wp (pure a : Prog σ ε α) Q s ↔ Q (.ok a) s := Iff.rfl

@[simp] theorem wp_throw (e : ε) (Q : Except ε α → σ → Prop) (s : σ) :
    Wp (throw e : Prog σ ε α) Q s ↔ Q (.error e) s := Iff.rfl

@[simp] theorem wp_lift (r : Except ε α) (Q : Except ε α → σ → Prop) (s : σ) :
    Wp (lift r : Prog σ ε α) Q s ↔ Q r s := Iff.rfl

@[simp] theorem wp_attempt (m : Prog σ ε α) (Q : Except ε' (Except ε α) → σ → Prop) (s : σ) :
    Wp (attempt m) Q s ↔ m.Wp (fun r t => Q (.ok r) t) s := Iff.rfl

@[simp] theorem wp_mapError (f : ε → ε') (m : Prog σ ε α) (Q : Except ε' α → σ → Prop) (s : σ) :
    Wp (mapError f m) Q s ↔ m.Wp (fun r t => Q (r.mapError f) t) s := Iff.rfl

/-- A program with its failures renamed. -/
theorem Wp.mapError {m : Prog σ ε α} {P : Except ε α → σ → Prop} {Q : Except ε' α → σ → Prop}
    {s : σ} (h : m.Wp P s) (f : ε → ε') (hok : ∀ a t, P (.ok a) t → Q (.ok a) t)
    (herr : ∀ e t, P (.error e) t → Q (.error (f e)) t) : (Prog.mapError f m).Wp Q s := by
  refine wp_mono (Q := fun r t => Q (r.mapError f) t) h ?_
  rintro (e | a) t ht
  · exact herr e t ht
  · exact hok a t ht

/-- A sequence: the first program returns and the rest runs on, or its failure is final. -/
theorem wp_bind (m : Prog σ ε α) (f : α → Prog σ ε β) (Q : Except ε β → σ → Prop) (s : σ)
    (P : Except ε α → σ → Prop) (hm : m.Wp P s)
    (hok : ∀ a t, P (.ok a) t → (f a).Wp Q t)
    (herr : ∀ e t, P (.error e) t → Q (.error e) t) : Wp (m >>= f) Q s := by
  show Q (Prog.bind m f s).1 (Prog.bind m f s).2
  unfold Wp at hm
  unfold Prog.bind
  split
  · rename_i a t h
    rw [h] at hm
    exact hok a t hm
  · rename_i e t h
    rw [h] at hm
    exact herr e t hm

/-- An attempt never fails: the rest sees its outcome. -/
theorem wp_attempt_bind (m : Prog σ ε α) (f : Except ε α → Prog σ ε' β)
    (Q : Except ε' β → σ → Prop) (s : σ) :
    Wp (attempt m >>= f) Q s ↔ m.Wp (fun r t => (f r).Wp Q t) s := Iff.rfl

/-- The run of an attempt goes on whatever its outcome. -/
theorem attempt_bind_run (m : Prog σ ε α) (f : Except ε α → Prog σ ε' β) (s : σ) :
    (attempt m >>= f) s = f (m s).1 (m s).2 := rfl

@[simp] theorem wp_ignore (m : Prog σ ε α) (Q : Except ε' Unit → σ → Prop) (s : σ) :
    Wp (ignore m) Q s ↔ m.Wp (fun _ t => Q (.ok ()) t) s := Iff.rfl

theorem wp_ignore_bind (m : Prog σ ε α) (f : Unit → Prog σ ε' β)
    (Q : Except ε' β → σ → Prop) (s : σ) :
    Wp (ignore m >>= f) Q s ↔ m.Wp (fun _ t => (f ()).Wp Q t) s := Iff.rfl

theorem wp_cleanup (m : Prog σ ε α) (clean : ε → Prog σ ε' Unit)
    (Q : Except ε α → σ → Prop) (s : σ) (P : Except ε α → σ → Prop) (hm : m.Wp P s)
    (hok : ∀ a t, P (.ok a) t → Q (.ok a) t)
    (herr : ∀ e t, P (.error e) t → (clean e).Wp (fun _ u => Q (.error e) u) t) :
    Wp (cleanup m clean) Q s := by
  unfold Wp at hm ⊢
  unfold cleanup
  split
  · rename_i a t h
    rw [h] at hm
    exact hok a t hm
  · rename_i e t h
    rw [h] at hm
    exact herr e t hm

/-- Two sequences run alike if their first programs do and the rests do from there. -/
theorem bind_congr_wp {m m' : Prog σ ε α} {f f' : α → Prog σ ε β} {s : σ}
    {P : Except ε α → σ → Prop} (hm : m' s = m s) (hP : m.Wp P s)
    (hf : ∀ a t, P (.ok a) t → f' a t = f a t) : (m' >>= f') s = (m >>= f) s := by
  show Prog.bind m' f' s = Prog.bind m f s
  unfold Wp at hP
  unfold Prog.bind
  rw [hm]
  split
  · rename_i a t h
    rw [h] at hP
    exact hf a t hP
  · rfl

/-- The run of a sequence that returns splits at the first program. -/
theorem bind_ok {m : Prog σ ε α} {f : α → Prog σ ε β} {s u : σ} {b : β}
    (h : (m >>= f) s = (.ok b, u)) : ∃ a t, m s = (.ok a, t) ∧ f a t = (.ok b, u) := by
  have h' : Prog.bind m f s = (.ok b, u) := h
  unfold Prog.bind at h'
  split at h'
  · rename_i a t hm
    exact ⟨a, t, hm, h'⟩
  · cases h'

/-- A run of a sequence ends in the first program or goes on in the second. -/
theorem bind_cases {m : Prog σ ε α} {f : α → Prog σ ε β} {s u : σ} {r : Except ε β}
    (h : (m >>= f) s = (r, u)) :
    (∃ e, m s = (.error e, u) ∧ r = .error e) ∨ ∃ a t, m s = (.ok a, t) ∧ f a t = (r, u) := by
  have h' : Prog.bind m f s = (r, u) := h
  unfold Prog.bind at h'
  split at h'
  · rename_i a t hm
    exact Or.inr ⟨a, t, hm, h'⟩
  · rename_i e t hm
    cases h'
    exact Or.inl ⟨e, hm, rfl⟩

/-- A sequence goes on behind a program that returned. -/
theorem bind_run {m : Prog σ ε α} {f : α → Prog σ ε β} {s t : σ} {a : α}
    (h : m s = (.ok a, t)) : (m >>= f) s = f a t := by
  show Prog.bind m f s = f a t
  unfold Prog.bind
  rw [h]

theorem bind_fail {m : Prog σ ε α} {f : α → Prog σ ε β} {s t : σ} {e : ε}
    (h : m s = (.error e, t)) : (m >>= f) s = (.error e, t) := by
  show Prog.bind m f s = _
  unfold Prog.bind
  rw [h]

/-! Runs of sequences that start with a simple program -/

theorem get_bind_run (f : σ → Prog σ ε β) (s : σ) : (get >>= f) s = f s s := rfl

theorem modify_bind_run (g : σ → σ) (f : Unit → Prog σ ε β) (s : σ) :
    (modify g >>= f) s = f () (g s) := rfl

theorem lift_ok_bind_run (a : α) (f : α → Prog σ ε β) (s : σ) :
    (lift (.ok a) >>= f) s = f a s := rfl

theorem run_of_fst {m : Prog σ ε α} {s : σ} {r : Except ε α} (h : (m s).1 = r) :
    m s = (r, (m s).2) := Prod.ext h rfl

theorem pure_ok {a b : α} {s u : σ} (h : (pure a : Prog σ ε α) s = (.ok b, u)) :
    b = a ∧ u = s := by
  cases h
  exact ⟨rfl, rfl⟩

theorem lift_bind_ok {r : Except ε α} {f : α → Prog σ ε β} {s u : σ} {b : β}
    (h : (lift r >>= f) s = (.ok b, u)) : ∃ a, r = .ok a ∧ f a s = (.ok b, u) := by
  obtain ⟨a, t, hr, hf⟩ := bind_ok h
  obtain ⟨h1, h2⟩ := Prod.mk.inj hr
  subst h2
  exact ⟨a, h1, hf⟩

end Prog

end Fsys.Base
