import Fsys.Base.PrivateFile

/-!
# What a power cut leaves of a directory

The sync of a directory settles the names in it. Of a name that changed since then the disk
has the entry of any moment since then, and of a file that is not fenced any bytes.
-/

namespace Fsys.Base

variable {π μ : Type}

/-- The entries that a name had before the present one, the latest first, back to the last
sync of its directory. -/
abbrev Pending (π : Type) := π → List (Option ℕ)

/-- What an entry leads to behind a power cut. -/
inductive Disk.Left (d : Disk π) : Option ℕ → Option Bytes → Prop where
  | none : Left d none none
  | file (i : ℕ) (b : Bytes) (h : d.fenced i = true → b = d.data i) : Left d (some i) (some b)

/-- What the disk may hold behind a power cut. -/
def Disk.Image (d : Disk π) (past : Pending π) (img : π → Option Bytes) : Prop :=
  ∀ p, ∃ e ∈ d.names p :: past p, d.Left e (img p)

/-- The call is a sync of the directory that `path` is in. -/
inductive SyncOf (path : π) : ∀ β, Syscall π β → Prop where
  | mk : SyncOf path _ fun plan => Io.syncDir plan path

section

variable (dir : π → String) (plan : Plan π)

/-- The call syncs the directory of `p`, and works. -/
def SettlesDir (p : π) (β : Type) (c : Syscall π β) (w : World π) : Prop :=
  ∃ path n, SyncOf path β c ∧ plan (.syncDir path) w.clock = .ok n ∧ dir path = dir p

open Classical in
/-- The entries behind a call. -/
noncomputable def Pending.note (β : Type) (c : Syscall π β) (w : World π) (past : Pending π) :
    Pending π := fun p => if SettlesDir dir plan p β c w then [] else w.disk.names p :: past p

variable {β : Type} (c : Syscall π β) (w : World π) (past : Pending π)

theorem Pending.note_cases (p : π) : Pending.note dir plan β c w past p = [] ∨
    Pending.note dir plan β c w past p = w.disk.names p :: past p := by
  unfold Pending.note
  split
  · exact Or.inl rfl
  · exact Or.inr rfl

variable {dir plan c w past}

theorem Pending.note_sync {p : π} (h : SyncOf p β c) (hworks : Io.Works plan (.syncDir p)) :
    Pending.note dir plan β c w past p = [] := by
  obtain ⟨n, hn⟩ := hworks w.clock
  exact if_pos ⟨p, n, h, hn, rfl⟩

end

/-! ### Entries in step with moments -/

/-- The entries go with the first of the moments. -/
inductive Tracks (R : Option ℕ → μ → Prop) : List (Option ℕ) → List μ → Prop where
  | nil (ms : List μ) : Tracks R [] ms
  | cons {e : Option ℕ} {m : μ} {es : List (Option ℕ)} {ms : List μ} (h : R e m)
      (hs : Tracks R es ms) : Tracks R (e :: es) (m :: ms)

namespace Tracks

variable {R R' : Option ℕ → μ → Prop} {es : List (Option ℕ)} {ms : List μ}

theorem mono (h : Tracks R es ms) (himp : ∀ e m, R e m → R' e m) : Tracks R' es ms := by
  induction h with
  | nil ms => exact Tracks.nil ms
  | cons h _ ih => exact Tracks.cons (himp _ _ h) ih

theorem exists_moment (h : Tracks R es ms) {e : Option ℕ} (he : e ∈ es) :
    ∃ m ∈ ms.take es.length, R e m := by
  induction h with
  | nil ms => cases he
  | @cons e' m es ms hR _ ih =>
    rw [List.length_cons, List.take_succ_cons]
    rcases List.mem_cons.mp he with rfl | he
    · exact ⟨m, List.mem_cons_self, hR⟩
    · obtain ⟨m', hm', hR'⟩ := ih he
      exact ⟨m', List.mem_cons_of_mem m hm', hR'⟩

end Tracks

end Fsys.Base
