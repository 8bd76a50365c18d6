import Mathlib.Algebra.BigOperators.Group.Finset.Basic
import Mathlib.Data.Fintype.BigOperators
import Mathlib.Algebra.Order.BigOperators.Group.Finset

/-!
# Counting the agents in a state

A counter that agents raise and lower is the number of agents in certain local
states; `tally` is that number.
-/

namespace Fsys.Base

variable {A σ : Type} [Fintype A]

/-- The number of agents whose local state satisfies `p`. -/
def tally (p : σ → Bool) (state : A → σ) : ℕ := ∑ a, (p (state a)).toNat

theorem le_tally (p : σ → Bool) (f : A → σ) (a : A) : (p (f a)).toNat ≤ tally p f :=
  Finset.single_le_sum (f := fun b => (p (f b)).toNat) (fun _ _ => Nat.zero_le _)
    (Finset.mem_univ a)

theorem of_tally_eq_zero {p : σ → Bool} {f : A → σ} (h : tally p f = 0) (a : A) :
    p (f a) = false := by
  have hle := le_tally p f a
  rw [h] at hle
  cases hp : p (f a) with
  | false => rfl
  | true =>
    rw [hp] at hle
    exact absurd hle (by decide)

theorem exists_of_tally_pos {p : σ → Bool} {f : A → σ} (h : 0 < tally p f) :
    ∃ a, p (f a) = true := by
  by_contra hnone
  have hzero : tally p f = 0 := by
    refine Finset.sum_eq_zero ?_
    intro a _
    have ha : p (f a) = false := by
      by_contra hp
      exact hnone ⟨a, by simpa using hp⟩
    rw [ha]
    rfl
  omega

variable [DecidableEq A]

/-- What the agents contribute to a sum, when one of them moves. -/
theorem sum_update {M : Type} [AddCommMonoid M] (w : σ → M) (f : A → σ) (a : A) (x : σ) :
    ∑ b, w (Function.update f a x b) + w (f a) = ∑ b, w (f b) + w x := by
  have hsplit : ∀ g : A → σ, ∑ b, w (g b) = w (g a) + ∑ b ∈ Finset.univ.erase a, w (g b) :=
    fun g => (Finset.add_sum_erase Finset.univ _ (Finset.mem_univ a)).symm
  have hrest : ∑ b ∈ Finset.univ.erase a, w (Function.update f a x b) =
      ∑ b ∈ Finset.univ.erase a, w (f b) := by
    refine Finset.sum_congr rfl ?_
    intro b hb
    rw [Function.update_of_ne (Finset.ne_of_mem_erase hb)]
  rw [hsplit (Function.update f a x), hsplit f, hrest, Function.update_self]
  rw [add_comm (w x), add_comm (w (f a)), add_right_comm]

theorem tally_update (p : σ → Bool) (f : A → σ) (a : A) (x : σ) :
    tally p (Function.update f a x) + (p (f a)).toNat = tally p f + (p x).toNat :=
  sum_update (fun y => (p y).toNat) f a x

theorem tally_update_same (p : σ → Bool) (f : A → σ) (a : A) (x : σ) (h : p x = p (f a)) :
    tally p (Function.update f a x) = tally p f := by
  have hstep := tally_update p f a x
  rw [h] at hstep
  omega

end Fsys.Base
