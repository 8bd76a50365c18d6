import Fsys.Base.Prog

/-!
# Programs that are cut at their calls

A client waits at its next call or has ended. Alone it is a program on the state; several
clients of one state take their calls in any order. `Protocol` says what a client may do to
the state by what it holds of it, and when its operation on an abstract object takes place.
Clients that keep to the protocol are linearizable.
-/

namespace Fsys.Base

/-- A program in calls `κ β` that answer with a `β`. -/
inductive Client (κ : Type → Type) (ε α : Type) : Type 1 where
  | done (r : Except ε α)
  | call {β : Type} (c : κ β) (k : β → Client κ ε α)

namespace Client

variable {κ : Type → Type} {ε ε' α β σ : Type}

/-- Go on with the result, whatever it is. -/
def andThen (c : Client κ ε α) (f : Except ε α → Client κ ε' β) : Client κ ε' β :=
  match c with
  | .done r => f r
  | .call op k => .call op fun a => (k a).andThen f

def onOk (f : α → Client κ ε β) : Except ε α → Client κ ε β
  | .ok a => f a
  | .error e => .done (.error e)

instance : Monad (Client κ ε) where
  pure a := .done (.ok a)
  bind c f := c.andThen (onOk f)

def throw (e : ε) : Client κ ε α := .done (.error e)

/-- One call. -/
def sys (c : κ β) : Client κ ε β := .call c fun a => .done (.ok a)

def attempt (c : Client κ ε α) : Client κ ε' (Except ε α) := c.andThen fun r => .done (.ok r)

def ignore (c : Client κ ε α) : Client κ ε' Unit := c.andThen fun _ => .done (.ok ())

def mapError (f : ε → ε') (c : Client κ ε α) : Client κ ε' α :=
  c.andThen fun r => .done (r.mapError f)

def afterwards (clean : ε → Client κ ε' Unit) : Except ε α → Client κ ε α
  | .ok a => .done (.ok a)
  | .error e => (clean e).andThen fun _ => .done (.error e)

def cleanup (c : Client κ ε α) (clean : ε → Client κ ε' Unit) : Client κ ε α :=
  c.andThen (afterwards clean)

/-! ### A client alone -/

/-- The program of a client that has the state for itself. -/
def run (exec : ∀ β, κ β → σ → β × σ) : Client κ ε α → Prog σ ε α
  | .done r => fun s => (r, s)
  | .call c k => fun s => (k (exec _ c s).1).run exec (exec _ c s).2

variable (exec : ∀ β, κ β → σ → β × σ)

theorem run_andThen (c : Client κ ε α) (f : Except ε α → Client κ ε' β) (s : σ) :
    (c.andThen f).run exec s = (f (c.run exec s).1).run exec (c.run exec s).2 := by
  induction c generalizing s with
  | done r => rfl
  | call op k ih => exact ih _ _

theorem run_bind (c : Client κ ε α) (f : α → Client κ ε β) :
    (c >>= f).run exec = c.run exec >>= fun a => (f a).run exec := by
  funext s
  show (c.andThen (onOk f)).run exec s = Prog.bind _ _ s
  rw [run_andThen, Prog.bind]
  cases h : c.run exec s with
  | mk r t =>
    cases r with
    | ok a => rfl
    | error e => rfl

theorem run_attempt (c : Client κ ε α) :
    (c.attempt : Client κ ε' _).run exec = (c.run exec).attempt := by
  funext s
  exact run_andThen exec c _ s

theorem run_ignore (c : Client κ ε α) :
    (c.ignore : Client κ ε' _).run exec = (c.run exec).ignore := by
  funext s
  exact run_andThen exec c _ s

theorem run_mapError (f : ε → ε') (c : Client κ ε α) :
    (c.mapError f).run exec = (c.run exec).mapError f := by
  funext s
  exact run_andThen exec c _ s

theorem run_cleanup (c : Client κ ε α) (clean : ε → Client κ ε' Unit) :
    (c.cleanup clean).run exec = (c.run exec).cleanup fun e => (clean e).run exec := by
  funext s
  show (c.andThen (afterwards clean)).run exec s = _
  rw [run_andThen, Prog.cleanup]
  cases h : c.run exec s with
  | mk r t =>
    cases r with
    | ok a => rfl
    | error e => exact run_andThen exec (clean e) _ t

/-! ### The calls of a client -/

/-- As long as its calls answer as `R` says, they satisfy `P`, and the end satisfies `Q`. -/
def Fits (P : ∀ β, κ β → Prop) (R : ∀ β, κ β → β → Prop) (Q : Except ε α → Prop) :
    Client κ ε α → Prop
  | .done r => Q r
  | .call c k => P _ c ∧ ∀ a, R _ c a → (k a).Fits P R Q

variable {P : ∀ β, κ β → Prop} {R : ∀ β, κ β → β → Prop}

theorem Fits.andThen {Q : Except ε α → Prop} {Q' : Except ε' β → Prop} {c : Client κ ε α}
    {f : Except ε α → Client κ ε' β} (hc : c.Fits P R Q) (hf : ∀ r, Q r → (f r).Fits P R Q') :
    (c.andThen f).Fits P R Q' := by
  induction c with
  | done r => exact hf r hc
  | call op k ih => exact ⟨hc.1, fun a ha => ih a (hc.2 a ha)⟩

/-- It returns a value only behind a call that satisfies `P`. -/
def EndsBehind (P : ∀ β, κ β → Prop) : Client κ ε α → Prop
  | .done (.ok _) => False
  | .done (.error _) => True
  | .call c k => ∀ a, (P _ c ∧ ∃ v, k a = .done (.ok v)) ∨ (k a).EndsBehind P

theorem EndsBehind.bind {c : Client κ ε α} {f : α → Client κ ε β}
    (hf : ∀ a, (f a).EndsBehind P) : (c >>= f).EndsBehind P := by
  show (c.andThen (onOk f)).EndsBehind P
  induction c with
  | done r =>
    cases r with
    | ok a => exact hf a
    | error e => trivial
  | call op k ih => exact fun a => Or.inr (ih a)

theorem EndsBehind.map {c : Client κ ε α} (b : β) (h : c.EndsBehind P) :
    (c >>= fun _ => pure b).EndsBehind P := by
  show (c.andThen (onOk fun _ => .done (.ok b))).EndsBehind P
  induction c with
  | done r =>
    cases r with
    | ok a => exact h
    | error e => trivial
  | call op k ih =>
    intro a
    rcases h a with ⟨hp, v, hv⟩ | hk
    · refine Or.inl ⟨hp, b, ?_⟩
      show (k a).andThen _ = _
      rw [hv]
      rfl
    · exact Or.inr (ih a hk)

end Client

/-! ### Clients of one state -/

/-- Clients, one for each thread, and the state that they share. -/
structure Threads (σ ι : Type) (κ : Type → Type) (ε α : Type) where
  state : σ
  rest : ι → Client κ ε α

section

variable {σ ι ε α ρ A ν γ : Type} {κ : Type → Type} [DecidableEq ι]

/-- Thread `t` takes its next call. -/
inductive Threads.Step (exec : ∀ β, κ β → σ → β × σ) (t : ι) :
    Threads σ ι κ ε α → Threads σ ι κ ε α → Prop where
  | call {s : σ} {rest : ι → Client κ ε α} {β : Type} {c : κ β} {k : β → Client κ ε α}
      (h : rest t = .call c k) :
      Step exec t ⟨s, rest⟩ ⟨(exec β c s).2, Function.update rest t (k (exec β c s).1)⟩

/-- A run and its schedule: the threads in the order of their calls. -/
inductive Threads.Runs (exec : ∀ β, κ β → σ → β × σ) (x : Threads σ ι κ ε α) :
    List ι → Threads σ ι κ ε α → Prop where
  | nil : Runs exec x [] x
  | snoc {sched : List ι} {t : ι} {y z : Threads σ ι κ ε α} (h : Runs exec x sched y)
      (hs : Step exec t y z) : Runs exec x (sched ++ [t]) z

theorem Threads.Runs.cons {exec : ∀ β, κ β → σ → β × σ} {x y z : Threads σ ι κ ε α} {t : ι}
    {sched : List ι} (hs : Threads.Step exec t x y) (h : Threads.Runs exec y sched z) :
    Threads.Runs exec x (t :: sched) z := by
  induction h with
  | nil => exact Threads.Runs.snoc Threads.Runs.nil hs
  | snoc _ hs' ih => exact ih.snoc hs'

/-- Where no calls of others fall between its own, a thread runs its client. -/
theorem Threads.runs_alone (exec : ∀ β, κ β → σ → β × σ) (t : ι) {c : Client κ ε α} (s : σ)
    {rest : ι → Client κ ε α} (hc : rest t = c) : ∃ n, Threads.Runs exec ⟨s, rest⟩
      (List.replicate n t) ⟨(c.run exec s).2, Function.update rest t (.done (c.run exec s).1)⟩ := by
  induction c generalizing s rest with
  | done r =>
    have hsame : Function.update rest t (.done r) = rest := by
      rw [← hc, Function.update_eq_self]
    refine ⟨0, ?_⟩
    show Threads.Runs exec ⟨s, rest⟩ [] ⟨s, Function.update rest t (.done r)⟩
    rw [hsame]
    exact Threads.Runs.nil
  | @call β op k ih =>
    obtain ⟨n, hn⟩ := ih (exec β op s).1 (exec β op s).2
      (Function.update_self t (k (exec β op s).1) rest)
    rw [Function.update_idem] at hn
    exact ⟨n + 1, Threads.Runs.cons (Threads.Step.call hc) hn⟩

/-- A sequential history in step with a schedule. At each call either nothing happens to the
object or the operation of the calling thread takes place, once, in that moment. -/
inductive Linear (spec : ι → A → Option (ρ × A)) (a : A) :
    List ι → A → (ι → Option ρ) → Prop where
  | nil : Linear spec a [] a fun _ => none
  | skip {sched : List ι} {b : A} {took : ι → Option ρ} (t : ι)
      (h : Linear spec a sched b took) : Linear spec a (sched ++ [t]) b took
  | take {sched : List ι} {b b' : A} {took : ι → Option ρ} {t : ι} {r : ρ}
      (h : Linear spec a sched b took) (hn : took t = none) (hr : spec t b = some (r, b')) :
      Linear spec a (sched ++ [t]) b' (Function.update took t (some r))

/-- A run beside which a record is kept of the calls. -/
inductive Threads.Recorded (exec : ∀ β, κ β → σ → β × σ) (note : ∀ β, κ β → σ → γ → γ)
    (x : Threads σ ι κ ε α) (g : γ) : List ι → Threads σ ι κ ε α → γ → Prop where
  | nil : Recorded exec note x g [] x g
  | snoc {sched : List ι} {t : ι} {s : σ} {rest : ι → Client κ ε α} {g' : γ} {β : Type} {c : κ β}
      {k : β → Client κ ε α} (h : Recorded exec note x g sched ⟨s, rest⟩ g')
      (hc : rest t = .call c k) :
      Recorded exec note x g (sched ++ [t])
        ⟨(exec β c s).2, Function.update rest t (k (exec β c s).1)⟩ (note β c s g')

theorem Threads.Runs.recorded {exec : ∀ β, κ β → σ → β × σ} {x y : Threads σ ι κ ε α}
    {sched : List ι} (h : Threads.Runs exec x sched y) :
    Threads.Recorded exec (fun _ _ _ g => g) x () sched y () := by
  induction h with
  | nil => exact Threads.Recorded.nil
  | snoc _ hs ih =>
    cases hs with
    | call hc => exact ih.snoc hc

/-- A moment of a history: the object and the answers up to then. -/
abbrev Moment (A ι ρ : Type) := A × (ι → Option ρ)

/-- `Linear`, with the moments before the calls, the latest first. -/
inductive Chronicle (spec : ι → A → Option (ρ × A)) (a : A) :
    List ι → List (Moment A ι ρ) → Moment A ι ρ → Prop where
  | nil : Chronicle spec a [] [] (a, fun _ => none)
  | skip {sched : List ι} {ms : List (Moment A ι ρ)} {now : Moment A ι ρ} (t : ι)
      (h : Chronicle spec a sched ms now) : Chronicle spec a (sched ++ [t]) (now :: ms) now
  | take {sched : List ι} {ms : List (Moment A ι ρ)} {b b' : A} {took : ι → Option ρ} {t : ι}
      {r : ρ} (h : Chronicle spec a sched ms (b, took)) (hn : took t = none)
      (hr : spec t b = some (r, b')) :
      Chronicle spec a (sched ++ [t]) ((b, took) :: ms) (b', Function.update took t (some r))

theorem Chronicle.linear {spec : ι → A → Option (ρ × A)} {a : A} {sched : List ι}
    {ms : List (Moment A ι ρ)} {now : Moment A ι ρ} (h : Chronicle spec a sched ms now) :
    Linear spec a sched now.1 now.2 := by
  induction h with
  | nil => exact Linear.nil
  | skip t _ ih => exact Linear.skip t ih
  | take _ hn hr ih => exact Linear.take ih hn hr

/-- What the threads may do to the state `σ`, by what each has of it, its view, and to the
object `A` that the state stands for. -/
structure Protocol (σ A ι ν ρ : Type) [DecidableEq ι] where
  spec : ι → A → Option (ρ × A)
  /-- the answer of a thread whose operation took place -/
  took : ν → Option ρ
  Sound : σ → A → (ι → ν) → Prop
  Move : ι → σ × A × ν → σ × A × ν → Prop
  sound : ∀ {t s a vs s' a' v'}, Sound s a vs → Move t (s, a, vs t) (s', a', v') →
    Sound s' a' (Function.update vs t v')
  linear : ∀ {t s a v s' a' v'}, Move t (s, a, v) (s', a', v') →
    (a' = a ∧ took v' = took v) ∨
      took v = none ∧ ∃ r, spec t a = some (r, a') ∧ took v' = some r

namespace Protocol

variable (P : Protocol σ A ι ν ρ) (exec : ∀ β, κ β → σ → β × σ)

/-- The client keeps to the protocol from a state of which thread `t` has the view `v`, and
ends as `Q` says. -/
def Safe (t : ι) (Q : Except ε α → ν → Prop) : Client κ ε α → ν → Prop
  | .done r, v => Q r v
  | .call c k, v => ∀ s a vs, P.Sound s a vs → vs t = v →
      ∃ a' v', P.Move t (s, a, v) ((exec _ c s).2, a', v') ∧ Safe t Q (k (exec _ c s).1) v'

variable {P exec} {t : ι}

theorem Safe.mono {Q Q' : Except ε α → ν → Prop} {c : Client κ ε α} {v : ν}
    (h : P.Safe exec t Q c v) (himp : ∀ r v, Q r v → Q' r v) : P.Safe exec t Q' c v := by
  induction c generalizing v with
  | done r => exact himp r v h
  | call op k ih =>
    intro s a vs hs hv
    obtain ⟨a', v', hmove, hrest⟩ := h s a vs hs hv
    exact ⟨a', v', hmove, ih _ hrest⟩

theorem safe_andThen {ε' β : Type} {Q : Except ε' β → ν → Prop} {c : Client κ ε α}
    {f : Except ε α → Client κ ε' β} {v : ν}
    (h : P.Safe exec t (fun r v => P.Safe exec t Q (f r) v) c v) :
    P.Safe exec t Q (c.andThen f) v := by
  induction c generalizing v with
  | done r => exact h
  | call op k ih =>
    intro s a vs hs hv
    obtain ⟨a', v', hmove, hrest⟩ := h s a vs hs hv
    exact ⟨a', v', hmove, ih _ hrest⟩

theorem safe_bind {β : Type} {Q : Except ε β → ν → Prop} {c : Client κ ε α}
    {f : α → Client κ ε β} {v : ν} (R : Except ε α → ν → Prop) (h : P.Safe exec t R c v)
    (hok : ∀ a v, R (.ok a) v → P.Safe exec t Q (f a) v)
    (herr : ∀ e v, R (.error e) v → Q (.error e) v) : P.Safe exec t Q (c >>= f) v := by
  apply safe_andThen
  apply h.mono
  intro r v' hr
  cases r with
  | ok a => exact hok a v' hr
  | error e => exact herr e v' hr

/-- The moment at which the threads have these views. -/
def moment (P : Protocol σ A ι ν ρ) (a : A) (vs : ι → ν) : Moment A ι ρ :=
  (a, fun t => P.took (vs t))

/-- A move is a call of the history. -/
theorem chronicle_move {a a' b : A} {s s' : σ} {vs : ι → ν} {v' : ν} {sched : List ι}
    {ms : List (Moment A ι ρ)} (h : Chronicle P.spec a sched ms (P.moment b vs))
    (hmove : P.Move t (s, b, vs t) (s', a', v')) :
    Chronicle P.spec a (sched ++ [t]) (P.moment b vs :: ms)
      (P.moment a' (Function.update vs t v')) := by
  rcases P.linear hmove with ⟨rfl, htook⟩ | ⟨htook, r, hspec, hr⟩
  · have hsame : P.moment a' (Function.update vs t v') = P.moment a' vs := by
      refine Prod.ext rfl (funext fun u => ?_)
      by_cases hu : u = t
      · simp only [moment, hu, Function.update_self, htook]
      · simp only [moment, Function.update_of_ne hu]
    rw [hsame]
    exact Chronicle.skip t h
  · have hnew : P.moment a' (Function.update vs t v') =
        (a', Function.update (fun u => P.took (vs u)) t (some r)) := by
      refine Prod.ext rfl (funext fun u => ?_)
      by_cases hu : u = t
      · simp only [moment, hu, Function.update_self, hr]
      · simp only [moment, Function.update_of_ne hu]
    rw [hnew]
    exact Chronicle.take h htook hspec

/-- However the calls of the threads fall, some sequential history explains them; and what the
moves keep, of the state and of the record beside it, holds in step with the history. -/
theorem chronicles {note : ∀ β, κ β → σ → γ → γ} {x y : Threads σ ι κ ε α} {a : A} {vs : ι → ν}
    {sched : List ι} {g g' : γ} {Q : ι → Except ε α → ν → Prop}
    {I : γ → Threads σ ι κ ε α → A → (ι → ν) → List (Moment A ι ρ) → Prop}
    (hs : P.Sound x.state a vs) (hnone : ∀ t, P.took (vs t) = none)
    (hsafe : ∀ t, P.Safe exec t (Q t) (x.rest t) (vs t)) (hinv : I g x a vs [])
    (hstep : ∀ {g s rest b vs ms t β} {c : κ β} {k : β → Client κ ε α} {b' v'},
      P.Sound s b vs → rest t = .call c k → P.Move t (s, b, vs t) ((exec β c s).2, b', v') →
      P.Safe exec t (Q t) (k (exec β c s).1) v' → I g ⟨s, rest⟩ b vs ms →
      I (note β c s g) ⟨(exec β c s).2, Function.update rest t (k (exec β c s).1)⟩ b'
        (Function.update vs t v') (P.moment b vs :: ms))
    (hrun : Threads.Recorded exec note x g sched y g') :
    ∃ b vs' ms, Chronicle P.spec a sched ms (P.moment b vs') ∧ P.Sound y.state b vs' ∧
      (∀ t, P.Safe exec t (Q t) (y.rest t) (vs' t)) ∧ I g' y b vs' ms := by
  induction hrun with
  | nil =>
    have hstart : P.moment a vs = (a, fun _ => none) := Prod.ext rfl (funext hnone)
    refine ⟨a, vs, [], ?_, hs, hsafe, hinv⟩
    rw [hstart]
    exact Chronicle.nil
  | @snoc sched t s rest g' β c k _ hcall ih =>
    obtain ⟨b, vs', ms, hchron, hsound, hrest, hkeep⟩ := ih
    have ht : P.Safe exec t (Q t) (rest t) (vs' t) := hrest t
    rw [hcall] at ht
    obtain ⟨b', v', hmove, hk⟩ := ht s b vs' hsound rfl
    refine ⟨b', Function.update vs' t v', P.moment b vs' :: ms, chronicle_move hchron hmove,
      P.sound hsound hmove, ?_, hstep hsound hcall hmove hk hkeep⟩
    intro u
    by_cases hu : u = t
    · rw [hu]
      simp only [Function.update_self]
      exact hk
    · simp only [Function.update_of_ne hu]
      exact hrest u

theorem linearizes {x y : Threads σ ι κ ε α} {a : A} {vs : ι → ν} {sched : List ι}
    {Q : ι → Except ε α → ν → Prop} (hs : P.Sound x.state a vs)
    (hnone : ∀ t, P.took (vs t) = none)
    (hsafe : ∀ t, P.Safe exec t (Q t) (x.rest t) (vs t))
    (hrun : Threads.Runs exec x sched y) :
    ∃ b vs', Linear P.spec a sched b (fun t => P.took (vs' t)) ∧ P.Sound y.state b vs' ∧
      ∀ t, P.Safe exec t (Q t) (y.rest t) (vs' t) := by
  obtain ⟨b, vs', ms, hchron, hsound, hrest, -⟩ := chronicles
    (I := fun _ _ _ _ _ => True) hs hnone hsafe trivial (fun _ _ _ _ _ => trivial) hrun.recorded
  exact ⟨b, vs', hchron.linear, hsound, hrest⟩

end Protocol

end

end Fsys.Base
