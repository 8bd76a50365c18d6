import Mathlib.Logic.Function.Basic

/-!
# Transition systems given by a step function

A system takes an action in a state or refuses it. `Reach` are the states that
admissible actions lead to, in any order; `run` executes a list of actions.
-/

namespace Fsys.Base

variable {σ α : Type}

/-- States reached from `s` by actions that satisfy `ok`. -/
inductive Reach (next : σ → α → Option σ) (ok : α → Prop) (s : σ) : σ → Prop where
  | start : Reach next ok s s
  | step {t t' : σ} {a : α} (h : Reach next ok s t) (ha : ok a) (hn : next t a = some t') :
      Reach next ok s t'

variable {next : σ → α → Option σ} {ok : α → Prop} {s t u : σ}

/-- An invariant of every step is an invariant of every run. -/
theorem Reach.invariant {inv : σ → Prop} (h : Reach next ok s t) (h0 : inv s)
    (hstep : ∀ t a t', inv t → ok a → next t a = some t' → inv t') : inv t := by
  induction h with
  | start => exact h0
  | step _ ha hn ih => exact hstep _ _ _ ih ha hn

theorem Reach.trans (h1 : Reach next ok s t) (h2 : Reach next ok t u) : Reach next ok s u := by
  induction h2 with
  | start => exact h1
  | step _ ha hn ih => exact Reach.step ih ha hn

/-- A run of admissible actions is one of actions that are admissible for a weaker reason. -/
theorem Reach.mono {ok' : α → Prop} (h : Reach next ok s t) (hok : ∀ a, ok a → ok' a) :
    Reach next ok' s t := by
  induction h with
  | start => exact Reach.start
  | step _ ha hn ih => exact Reach.step ih (hok _ ha) hn

/-- States reached from `s` by steps that satisfy `ok` in the state they start from. -/
inductive ReachIf (next : σ → α → Option σ) (ok : σ → α → Prop) (s : σ) : σ → Prop where
  | start : ReachIf next ok s s
  | step {t t' : σ} {a : α} (h : ReachIf next ok s t) (ha : ok t a) (hn : next t a = some t') :
      ReachIf next ok s t'

theorem ReachIf.invariant {ok : σ → α → Prop} {inv : σ → Prop} (h : ReachIf next ok s t)
    (h0 : inv s) (hstep : ∀ t a t', inv t → ok t a → next t a = some t' → inv t') : inv t := by
  induction h with
  | start => exact h0
  | step _ ha hn ih => exact hstep _ _ _ ih ha hn

/-- Execute a list of actions. -/
def run (next : σ → α → Option σ) : List α → σ → Option σ
  | [], s => some s
  | a :: as, s => (next s a).bind (run next as)

theorem reach_of_run (as : List α) (h : run next as s = some t) (hok : ∀ a ∈ as, ok a) :
    Reach next ok s t := by
  induction as generalizing s with
  | nil =>
    cases h
    exact Reach.start
  | cons a as ih =>
    obtain ⟨s', hs, hrun⟩ := Option.bind_eq_some_iff.mp h
    have htail := ih hrun fun b hb => hok b (List.mem_cons_of_mem a hb)
    exact (Reach.step Reach.start (hok a List.mem_cons_self) hs).trans htail

theorem reachIf_of_run {ok : σ → α → Prop} (as : List α) (h : run next as t = some u)
    (hstart : ReachIf next ok s t) (hok : ∀ a ∈ as, ∀ t, ok t a) : ReachIf next ok s u := by
  induction as generalizing t with
  | nil =>
    cases h
    exact hstart
  | cons a as ih =>
    obtain ⟨t', ht, hrun⟩ := Option.bind_eq_some_iff.mp h
    refine ih hrun (ReachIf.step hstart (hok a List.mem_cons_self t) ht) ?_
    intro b hb
    exact hok b (List.mem_cons_of_mem a hb)

end Fsys.Base
