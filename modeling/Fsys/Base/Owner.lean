import Mathlib.Logic.Function.Basic
import Mathlib.Data.Option.Basic

/-!
# Who has a role

A lock or a leader's role among agents: `Owner has o` says that the agents with the
role are exactly the one that `o` names, if it names one. One agent changes its state
at a time.
-/

namespace Fsys.Base

variable {A : Type} {P : Type}

def Owner (has : A → Bool) (o : Option A) : Prop :=
  ∀ a, has a = true ↔ o = some a

variable {has : P → Bool} {pc pc' : A → P} {o : Option A} {a b : A} {p : P}

theorem Owner.unique (h : Owner (has ∘ pc) o) (ha : has (pc a) = true)
    (hb : has (pc b) = true) : a = b := by
  have h1 := (h a).mp ha
  have h2 := (h b).mp hb
  exact Option.some.inj (h1.symm.trans h2)

theorem Owner.isSome_iff (h : Owner (has ∘ pc) o) :
    o.isSome = true ↔ ∃ a, has (pc a) = true := by
  rw [Option.isSome_iff_exists]
  exact exists_congr fun a => (h a).symm

theorem Owner.congr (h : Owner (has ∘ pc) o) (heq : ∀ b, has (pc' b) = has (pc b)) :
    Owner (has ∘ pc') o := by
  intro b
  simp only [Function.comp, heq b]
  exact h b

variable [DecidableEq A]

/-- The agent moves and its role stays. -/
theorem Owner.keep (h : Owner (has ∘ pc) o) (heq : has p = has (pc a)) :
    Owner (has ∘ Function.update pc a p) o := by
  apply h.congr
  intro b
  by_cases hb : b = a
  · subst hb
    simp only [Function.update_self, heq]
  · simp only [Function.update_of_ne hb]

/-- The agent takes a role nobody has. -/
theorem Owner.take (h : Owner (has ∘ pc) none) (hp : has p = true) :
    Owner (has ∘ Function.update pc a p) (some a) := by
  intro b
  by_cases hb : b = a
  · subst hb
    simp only [Function.comp, Function.update_self, hp]
  · have hnot := h b
    simp only [Function.comp, Function.update_of_ne hb, reduceCtorEq, iff_false,
      Option.some.injEq, Ne.symm hb] at hnot ⊢
    exact hnot

/-- The agent gives up the role it has. -/
theorem Owner.release (h : Owner (has ∘ pc) o) (ha : has (pc a) = true) (hp : has p = false) :
    Owner (has ∘ Function.update pc a p) none := by
  have hnone : ∀ b, b ≠ a → has (pc b) = false := by
    intro b hb
    by_contra hhas
    exact hb (h.unique (by simpa using hhas) ha)
  intro b
  by_cases hb : b = a
  · subst hb
    simp only [Function.comp, Function.update_self, hp, Bool.false_eq_true, reduceCtorEq]
  · simp only [Function.comp, Function.update_of_ne hb, hnone b hb, Bool.false_eq_true,
      reduceCtorEq]

end Fsys.Base
