import Fsys.Base.Bytes
import Fsys.Base.Prog

/-!
# A directory behind a fallible operating system

Names lead to files, files hold bytes and remember whether everything written
to them has been fenced. Each system call asks a plan what happens to it: it
works (with that many bytes, where that matters) or it fails, possibly after a
part of its effect. `Disk.Keeps` says that nothing that existed was touched.
-/

namespace Fsys.Base

/-- Names, the contents of the files behind them, and whether a file's last change has
been fenced. File numbers from `next` on are unused. -/
structure Disk (π : Type) where
  names : π → Option ℕ
  data : ℕ → Bytes
  fenced : ℕ → Bool
  next : ℕ
  fresh : ∀ p i, names p = some i → i < next

namespace Disk

variable {π : Type}

theorem fresh_none (_ : π) (i : ℕ) (h : (none : Option ℕ) = some i) : i < 0 := by
  cases h

/-- Contents of the file with this name. -/
def content (d : Disk π) (p : π) : Option Bytes := (d.names p).map d.data

/-- A new empty file under the name `p`. -/
def create [DecidableEq π] (d : Disk π) (p : π) : Disk π where
  names := Function.update d.names p (some d.next)
  data := Function.update d.data d.next []
  fenced := Function.update d.fenced d.next false
  next := d.next + 1
  fresh q i h := by
    by_cases hq : q = p
    · subst hq
      rw [Function.update_self] at h
      cases h
      omega
    · rw [Function.update_of_ne hq] at h
      have := d.fresh q i h
      omega

def setData (d : Disk π) (i : ℕ) (bytes : Bytes) : Disk π :=
  { d with data := Function.update d.data i bytes, fenced := Function.update d.fenced i false }

def fence (d : Disk π) (i : ℕ) : Disk π := { d with fenced := Function.update d.fenced i true }

def unfence (d : Disk π) (i : ℕ) : Disk π := { d with fenced := Function.update d.fenced i false }

def unlink [DecidableEq π] (d : Disk π) (p : π) : Disk π where
  names := Function.update d.names p none
  data := d.data
  fenced := d.fenced
  next := d.next
  fresh q i h := by
    by_cases hq : q = p
    · subst hq
      rw [Function.update_self] at h
      cases h
    · rw [Function.update_of_ne hq] at h
      exact d.fresh q i h

/-- `p` takes the place of `q`. -/
def rename [DecidableEq π] (d : Disk π) (p q : π) : Disk π where
  names := Function.update (Function.update d.names q (d.names p)) p none
  data := d.data
  fenced := d.fenced
  next := d.next
  fresh r i h := by
    by_cases hp : r = p
    · subst hp
      rw [Function.update_self] at h
      cases h
    · rw [Function.update_of_ne hp] at h
      by_cases hq : r = q
      · subst hq
        rw [Function.update_self] at h
        exact d.fresh p i h
      · rw [Function.update_of_ne hq] at h
        exact d.fresh r i h

/-- Nothing that `d` has was changed, names in `S` apart. -/
structure Keeps (S : π → Prop) (d d' : Disk π) : Prop where
  names : ∀ p, ¬ S p → d.names p ≠ none → d'.names p = d.names p
  data : ∀ i, i < d.next → d'.data i = d.data i
  next : d.next ≤ d'.next

variable {S : π → Prop} {d d' d'' : Disk π}

theorem Keeps.refl (S : π → Prop) (d : Disk π) : Keeps S d d :=
  ⟨fun _ _ _ => rfl, fun _ _ => rfl, Nat.le_refl _⟩

/-- The contents of a file that existed are the same. -/
theorem Keeps.content (h : Keeps S d d') (p : π) (hS : ¬ S p) (hp : d.names p ≠ none) :
    d'.content p = d.content p := by
  unfold Disk.content
  rw [h.names p hS hp]
  cases hi : d.names p with
  | none => rfl
  | some i => exact congrArg some (h.data i (d.fresh p i hi))

theorem keeps_create [DecidableEq π] (d : Disk π) (p : π) (h : d.names p = none) :
    Keeps S d (d.create p) where
  names q _ hq := by
    have hne : q ≠ p := by
      rintro rfl
      exact hq h
    exact Function.update_of_ne hne _ _
  data i hi := Function.update_of_ne (Nat.ne_of_lt hi) _ _
  next := Nat.le_succ _

theorem Keeps.unlink [DecidableEq π] (h : Keeps S d d') (p : π) (hp : S p ∨ d.names p = none) :
    Keeps S d (d'.unlink p) where
  names q hS hq := by
    have hne : q ≠ p := by
      rintro rfl
      exact hp.elim hS hq
    exact (Function.update_of_ne hne _ _).trans (h.names q hS hq)
  data := h.data
  next := h.next

theorem Keeps.rename [DecidableEq π] (h : Keeps S d d') (p q : π) (hp : S p ∨ d.names p = none)
    (hq : S q) : Keeps S d (d'.rename p q) where
  names r hS hr := by
    have hrp : r ≠ p := by
      rintro rfl
      exact hp.elim hS hr
    have hrq : r ≠ q := by
      rintro rfl
      exact hS hq
    refine (Function.update_of_ne hrp _ _).trans ?_
    exact (Function.update_of_ne hrq _ _).trans (h.names r hS hr)
  data := h.data
  next := h.next

/-- At most the contents of file `j` differ. -/
structure Touches (j : ℕ) (d d' : Disk π) : Prop where
  names : d'.names = d.names
  data : ∀ i, i ≠ j → d'.data i = d.data i
  next : d'.next = d.next

theorem Touches.refl (j : ℕ) (d : Disk π) : Touches j d d := ⟨rfl, fun _ _ => rfl, rfl⟩

theorem Touches.trans {j : ℕ} (h : Touches j d d') (h' : Touches j d' d'') : Touches j d d'' where
  names := h'.names.trans h.names
  data i hi := (h'.data i hi).trans (h.data i hi)
  next := h'.next.trans h.next

theorem touches_setData (d : Disk π) (j : ℕ) (bytes : Bytes) : Touches j d (d.setData j bytes) :=
  ⟨rfl, fun _ hi => Function.update_of_ne hi _ _, rfl⟩

theorem touches_fence (d : Disk π) (j i : ℕ) : Touches j d (d.fence i) :=
  ⟨rfl, fun _ _ => rfl, rfl⟩

@[simp] theorem data_setData (d : Disk π) (j : ℕ) (bytes : Bytes) :
    (d.setData j bytes).data j = bytes := Function.update_self _ _ _

/-- A new file may be filled at will. -/
theorem Keeps.touches {j : ℕ} (h : Keeps S d d') (hj : d.next ≤ j) (h' : Touches j d' d'') :
    Keeps S d d'' where
  names p hS hp := by rw [h'.names, h.names p hS hp]
  data i hi := by rw [h'.data i (by omega), h.data i hi]
  next := h'.next ▸ h.next

/-- Names and contents are the same. -/
structure Same (d d' : Disk π) : Prop where
  names : d'.names = d.names
  data : d'.data = d.data
  next : d'.next = d.next

theorem Same.refl (d : Disk π) : Same d d := ⟨rfl, rfl, rfl⟩

theorem Same.of_eq (h : d' = d) : Same d d' := h ▸ Same.refl d

theorem Same.trans (h : Same d d') (h' : Same d' d'') : Same d d'' :=
  ⟨h'.names.trans h.names, h'.data.trans h.data, h'.next.trans h.next⟩

theorem Same.keeps (h : Same d d') : Keeps S d d' :=
  ⟨fun _ _ _ => by rw [h.names], fun _ _ => by rw [h.data], Nat.le_of_eq h.next.symm⟩

theorem same_fence (d : Disk π) (i : ℕ) : Same d (d.fence i) := ⟨rfl, rfl, rfl⟩

end Disk

/-! ### System calls -/

/-- A system call on names `π` or file numbers. -/
inductive Call (π : Type) where
  | stat (p : π)
  | openRead (p : π)
  | openWrite (p : π)
  | openCreate (p : π)
  | create (p : π)
  | read (i : ℕ)
  | readExact (i : ℕ)
  | len (i : ℕ)
  | write (i : ℕ)
  | setLen (i : ℕ)
  | fence (i : ℕ)
  | remove (p : π)
  | rename (p q : π)
  | syncDir (p : π)
  /-- owner, mode or times of a file -/
  | setMeta (p : π)
  /-- a shared mapping of a file, and its flush -/
  | map (i : ℕ)
  | msync (i : ℕ)
  /-- memory for a buffer -/
  | alloc

/-- What happens to a call: it works, on up to `amount` further bytes, or it fails after
`done` bytes of its effect. -/
inductive Reply where
  | ok (amount : ℕ)
  | fail (e : IoError) (done : ℕ)

/-- The answers of the operating system, by call and time. -/
abbrev Plan (π : Type) := Call π → ℕ → Reply

/-- A rename that was issued: what its source held, whether that was fenced, and whether
the rename took place. -/
structure Renamed (π : Type) where
  source : π
  target : π
  bytes : Option Bytes
  fenced : Bool
  worked : Bool

structure World (π : Type) where
  disk : Disk π
  clock : ℕ
  renames : List (Renamed π)

/-- At most file `i` was written to, and no rename was issued. -/
structure World.Writes {π : Type} (i : ℕ) (w w' : World π) : Prop where
  touches : w.disk.Touches i w'.disk
  renames : w'.renames = w.renames

theorem World.Writes.refl {π : Type} (i : ℕ) (w : World π) : w.Writes i w := ⟨.refl _ _, rfl⟩

theorem World.Writes.trans {π : Type} {i : ℕ} {w w' w'' : World π} (h : w.Writes i w')
    (h' : w'.Writes i w'') : w.Writes i w'' :=
  ⟨h.touches.trans h'.touches, h'.renames.trans h.renames⟩

abbrev Io (π : Type) := Prog (World π) IoError

namespace Io

variable {π : Type} (plan : Plan π)

def World.tick (w : World π) (d : Disk π) : World π := { w with disk := d, clock := w.clock + 1 }

def notFound : IoError := ⟨.notFound, "entity not found"⟩

/-- A call that only looks. -/
def look {α : Type} (call : Call π) (answer : Disk π → ℕ → Except IoError α) : Io π α := fun w =>
  match plan call w.clock with
  | .fail e _ => (.error e, World.tick w w.disk)
  | .ok amount => (answer w.disk amount, World.tick w w.disk)

/-- The file behind a name. -/
def fileOf (p : π) (d : Disk π) (_ : ℕ) : Except IoError ℕ :=
  match d.names p with
  | none => .error notFound
  | some i => .ok i

def openRead (p : π) : Io π ℕ := look plan (.openRead p) (fileOf p)

def openWrite (p : π) : Io π ℕ := look plan (.openWrite p) (fileOf p)

/-- One `read`: at least a byte, unless the file ends or none was asked for. -/
def read (i offset n : ℕ) : Io π Bytes :=
  look plan (.read i) fun d amount => .ok (((d.data i).drop offset).take (min n (amount + 1)))

def readExact (i offset n : ℕ) : Io π Bytes :=
  look plan (.readExact i) fun d _ =>
    if offset + n ≤ (d.data i).length then .ok (((d.data i).drop offset).take n)
    else .error ⟨.unexpectedEof, "failed to fill whole buffer"⟩

def len (i : ℕ) : Io π ℕ := look plan (.len i) fun d _ => .ok (d.data i).length

def syncDir (p : π) : Io π Unit := look plan (.syncDir p) fun _ _ => .ok ()

def alloc : Io π Unit := look plan .alloc fun _ _ => .ok ()

/-- Open for writing; a file that is not there is created. -/
def openCreate [DecidableEq π] (p : π) : Io π ℕ := fun w =>
  match plan (.openCreate p) w.clock, w.disk.names p with
  | .fail e _, _ => (.error e, World.tick w w.disk)
  | .ok _, some i => (.ok i, World.tick w w.disk)
  | .ok _, none => (.ok w.disk.next, World.tick w (w.disk.create p))

/-- Exclusive create. `AlreadyExists` is the answer for a name that is taken and for no
other: a plan that says so of a free name is read as no failure. A create that fails leaves
no file. -/
def createNew [DecidableEq π] (p : π) : Io π ℕ := fun w =>
  match w.disk.names p, plan (.create p) w.clock with
  | some _, .fail e _ => (.error e, World.tick w w.disk)
  | some _, .ok _ => (.error ⟨.alreadyExists, "file exists"⟩, World.tick w w.disk)
  | none, .ok _ => (.ok w.disk.next, World.tick w (w.disk.create p))
  | none, .fail e _ =>
    if e.kind = .alreadyExists then (.ok w.disk.next, World.tick w (w.disk.create p))
    else (.error e, World.tick w w.disk)

/-- One `pwrite`: it may stop early, at nothing even, and says where. -/
def pwrite (i pos : ℕ) (bytes : Bytes) : Io π ℕ := fun w =>
  match plan (.write i) w.clock with
  | .ok amount => (.ok (min amount bytes.length),
      World.tick w (w.disk.setData i (overlay (w.disk.data i) pos (bytes.take amount))))
  | .fail e done =>
    (.error e, World.tick w (w.disk.setData i (overlay (w.disk.data i) pos (bytes.take done))))

/-- Write all of `bytes` at `pos`; a failure leaves a part of them. -/
def writeAt (i pos : ℕ) (bytes : Bytes) : Io π Unit := fun w =>
  match plan (.write i) w.clock with
  | .ok _ => (.ok (), World.tick w (w.disk.setData i (overlay (w.disk.data i) pos bytes)))
  | .fail e done =>
    (.error e, World.tick w (w.disk.setData i (overlay (w.disk.data i) pos (bytes.take done))))

def setLen (i n : ℕ) : Io π Unit := fun w =>
  match plan (.setLen i) w.clock with
  | .ok _ => (.ok (), World.tick w
      (w.disk.setData i ((w.disk.data i).take n ++ zeros (n - (w.disk.data i).length))))
  | .fail e _ => (.error e, World.tick w w.disk)

def fence (i : ℕ) : Io π Unit := fun w =>
  match plan (.fence i) w.clock with
  | .ok _ => (.ok (), World.tick w (w.disk.fence i))
  | .fail e _ => (.error e, World.tick w w.disk)

/-- A change of a file's metadata: no byte of it, but it wants a fence again. -/
def setMeta (p : π) : Io π Unit := fun w =>
  match plan (.setMeta p) w.clock, w.disk.names p with
  | .fail e _, _ => (.error e, World.tick w w.disk)
  | .ok _, none => (.error notFound, World.tick w w.disk)
  | .ok _, some i => (.ok (), World.tick w (w.disk.unfence i))

/-- Map a whole file: the mapping is as long as the file is. -/
def mapMut (i : ℕ) : Io π ℕ := look plan (.map i) fun d _ => .ok (d.data i).length

def msync (i : ℕ) : Io π Unit := look plan (.msync i) fun _ _ => .ok ()

/-- Stores through a mapping reach the file and cannot fail. -/
def store (i : ℕ) (bytes : Bytes) : Io π Unit := fun w =>
  (.ok (), World.tick w (w.disk.setData i (overlay (w.disk.data i) 0 bytes)))

def remove [DecidableEq π] (p : π) : Io π Unit := fun w =>
  match plan (.remove p) w.clock, w.disk.names p with
  | .fail e _, _ => (.error e, World.tick w w.disk)
  | .ok _, none => (.error notFound, World.tick w w.disk)
  | .ok _, some _ => (.ok (), World.tick w (w.disk.unlink p))

/-- Atomic rename; it is recorded when it is issued. -/
def rename [DecidableEq π] (p q : π) : Io π Unit := fun w =>
  let issued (worked : Bool) := { w with renames := w.renames ++ [⟨p, q, w.disk.content p,
    (w.disk.names p).elim false w.disk.fenced, worked⟩] }
  match plan (.rename p q) w.clock, w.disk.names p with
  | .fail e _, _ => (.error e, World.tick (issued false) w.disk)
  | .ok _, none => (.error notFound, World.tick (issued false) w.disk)
  | .ok _, some _ => (.ok (), World.tick (issued true) (w.disk.rename p q))

/-! ### What the calls do -/

/-- Calls that only look leave the disk and the renames alone. -/
theorem wp_look {α : Type} (call : Call π) (answer : Disk π → ℕ → Except IoError α)
    (w : World π) :
    (look plan call answer).Wp (fun r w' => w'.disk = w.disk ∧ w'.renames = w.renames ∧
      w'.clock = w.clock + 1 ∧
      ((∃ e n, plan call w.clock = .fail e n ∧ r = .error e) ∨
        ∃ n, plan call w.clock = .ok n ∧ r = answer w.disk n)) w := by
  unfold Prog.Wp look
  cases h : plan call w.clock with
  | fail e n => exact ⟨rfl, rfl, rfl, Or.inl ⟨e, n, rfl, rfl⟩⟩
  | ok n => exact ⟨rfl, rfl, rfl, Or.inr ⟨n, rfl, rfl⟩⟩

/-- The plan lets every such call through. -/
def Works (call : Call π) : Prop := ∀ t, ∃ n, plan call t = .ok n

theorem Works.not_fail {plan : Plan π} {call : Call π} {t n : ℕ} {e : IoError}
    (h : Works plan call) (hf : plan call t = .fail e n) : False := by
  obtain ⟨m, hm⟩ := h t
  rw [hm] at hf
  cases hf

/-- What a call that looks returns is its answer, and one that works returns it. -/
theorem wp_look_answer {α : Type} (call : Call π) (answer : Disk π → ℕ → Except IoError α)
    (w : World π) :
    (look plan call answer).Wp (fun r w' => w'.disk = w.disk ∧
      (Works plan call → ∃ n, r = answer w.disk n) ∧
      ∀ a, r = .ok a → ∃ n, answer w.disk n = .ok a) w := by
  refine Prog.wp_mono (wp_look plan call answer w) ?_
  rintro r w' ⟨hd, -, -, ⟨e, n, hp, rfl⟩ | ⟨n, -, rfl⟩⟩
  · exact ⟨hd, fun hw => (hw.not_fail hp).elim, nofun⟩
  · exact ⟨hd, fun _ => ⟨n, rfl⟩, fun a ha => ⟨n, ha⟩⟩

theorem wp_fileOf (call : Call π) (p : π) (w : World π) :
    (look plan call (fileOf p)).Wp (fun r w' => w'.disk = w.disk ∧
      (Works plan call → ∀ i, w.disk.names p = some i → r = .ok i) ∧
      ∀ i, r = .ok i → w.disk.names p = some i) w := by
  refine Prog.wp_mono (wp_look_answer plan _ _ w) ?_
  rintro r w' ⟨hd, hw, hr⟩
  refine ⟨hd, fun hwork i hi => ?_, fun i hi => ?_⟩
  · obtain ⟨n, rfl⟩ := hw hwork
    simp only [fileOf, hi]
  · obtain ⟨n, hn⟩ := hr i hi
    unfold fileOf at hn
    split at hn
    · cases hn
    · rename_i k hk
      cases hn
      exact hk

theorem wp_openRead (p : π) (w : World π) :
    (openRead plan p).Wp (fun r w' => w'.disk = w.disk ∧
      (Works plan (.openRead p) → ∀ i, w.disk.names p = some i → r = .ok i) ∧
      ∀ i, r = .ok i → w.disk.names p = some i) w := wp_fileOf plan _ p w

theorem wp_openWrite (p : π) (w : World π) :
    (openWrite plan p).Wp (fun r w' => w'.disk = w.disk ∧
      (Works plan (.openWrite p) → ∀ i, w.disk.names p = some i → r = .ok i) ∧
      ∀ i, r = .ok i → w.disk.names p = some i) w := wp_fileOf plan _ p w

theorem wp_len (i : ℕ) (w : World π) :
    (len plan i).Wp (fun r w' => w'.disk = w.disk ∧
      (Works plan (.len i) → ∃ n, r = .ok n) ∧
      ∀ n, r = .ok n → n = (w.disk.data i).length) w := by
  refine Prog.wp_mono (wp_look_answer plan _ _ w) ?_
  rintro r w' ⟨hd, hw, hr⟩
  refine ⟨hd, fun hwork => ⟨_, (hw hwork).choose_spec⟩, fun n hn => ?_⟩
  obtain ⟨_, hm⟩ := hr n hn
  cases hm
  rfl

/-! ### Calls that return -/

section

variable {plan} {w w' : World π} {p : π} {i : ℕ}

theorem openRead_ok (h : openRead plan p w = (.ok i, w')) :
    w'.disk = w.disk ∧ w.disk.names p = some i := by
  obtain ⟨hd, -, hi⟩ := (wp_openRead plan p w).run h
  exact ⟨hd, hi i rfl⟩

theorem len_ok {n : ℕ} (h : len plan i w = (.ok n, w')) :
    w'.disk = w.disk ∧ n = (w.disk.data i).length := by
  obtain ⟨hd, -, hn⟩ := (wp_len plan i w).run h
  exact ⟨hd, hn n rfl⟩

theorem readExact_ok {offset n : ℕ} {bytes : Bytes}
    (h : readExact plan i offset n w = (.ok bytes, w')) :
    w'.disk = w.disk ∧ offset + n ≤ (w.disk.data i).length ∧
      bytes = ((w.disk.data i).drop offset).take n := by
  obtain ⟨hd, -, ha⟩ := (wp_look_answer plan _ _ w).run h
  obtain ⟨-, hb⟩ := ha bytes rfl
  split at hb
  · rename_i hle
    cases hb
    exact ⟨hd, hle, rfl⟩
  · cases hb

theorem alloc_disk {r : Except IoError Unit} (h : alloc plan w = (r, w')) : w'.disk = w.disk :=
  ((wp_look_answer plan _ _ w).run h).1

/-- The file that is opened holds what the name led to, or nothing. -/
theorem openCreate_ok [DecidableEq π] (h : openCreate plan p w = (.ok i, w')) :
    w'.disk.names p = some i ∧ w'.disk.data i = (w.disk.content p).getD [] := by
  unfold openCreate at h
  cases hplan : plan (.openCreate p) w.clock with
  | fail e n =>
    rw [hplan] at h
    cases h
  | ok n =>
    rw [hplan] at h
    cases hp : w.disk.names p with
    | some j =>
      rw [hp] at h
      cases h
      refine ⟨hp, ?_⟩
      unfold Disk.content
      rw [hp]
      rfl
    | none =>
      rw [hp] at h
      cases h
      refine ⟨Function.update_self _ _ _, ?_⟩
      unfold Disk.content
      rw [hp]
      exact Function.update_self _ _ _

end

theorem wp_createNew [DecidableEq π] (p : π) (w : World π) :
    (createNew plan p).Wp (fun r w' => w'.renames = w.renames ∧ w'.clock = w.clock + 1 ∧
      (Works plan (.create p) → ∀ e, r = .error e → e = ⟨.alreadyExists, "file exists"⟩) ∧
      match r with
      | .ok i => w.disk.names p = none ∧ i = w.disk.next ∧ w'.disk = w.disk.create p
      | .error e => w'.disk = w.disk ∧ (e.kind = .alreadyExists → w.disk.names p ≠ none)) w := by
  unfold Prog.Wp createNew
  cases hp : w.disk.names p with
  | some i =>
    cases h : plan (.create p) w.clock with
    | ok n => exact ⟨rfl, rfl, fun _ _ he => (Except.error.inj he).symm, rfl, fun _ => nofun⟩
    | fail e n => exact ⟨rfl, rfl, fun hw => (hw.not_fail h).elim, rfl, fun _ => nofun⟩
  | none =>
    cases h : plan (.create p) w.clock with
    | ok n => exact ⟨rfl, rfl, fun _ => nofun, rfl, rfl, rfl⟩
    | fail e n =>
      by_cases he : e.kind = .alreadyExists
      · dsimp only
        rw [if_pos he]
        exact ⟨rfl, rfl, fun _ => nofun, rfl, rfl, rfl⟩
      · dsimp only
        rw [if_neg he]
        exact ⟨rfl, rfl, fun hw => (hw.not_fail h).elim, rfl, fun h => absurd h he⟩

theorem wp_writeAt (i pos : ℕ) (bytes : Bytes) (w : World π) :
    (writeAt plan i pos bytes).Wp (fun r w' => w'.renames = w.renames ∧
      w'.clock = w.clock + 1 ∧ (Works plan (.write i) → r = .ok ()) ∧
      match r with
      | .ok () => w'.disk = w.disk.setData i (overlay (w.disk.data i) pos bytes)
      | .error _ => ∃ n, w'.disk =
          w.disk.setData i (overlay (w.disk.data i) pos (bytes.take n))) w := by
  unfold Prog.Wp writeAt
  cases h : plan (.write i) w.clock with
  | ok n => exact ⟨rfl, rfl, fun _ => rfl, rfl⟩
  | fail e n => exact ⟨rfl, rfl, fun hw => (hw.not_fail h).elim, n, rfl⟩

theorem wp_setLen (i n : ℕ) (w : World π) :
    (setLen plan i n).Wp (fun r w' => w'.renames = w.renames ∧ w'.clock = w.clock + 1 ∧
      match r with
      | .ok () => w'.disk = w.disk.setData i
          ((w.disk.data i).take n ++ zeros (n - (w.disk.data i).length))
      | .error _ => w'.disk = w.disk) w := by
  unfold Prog.Wp setLen
  cases plan (.setLen i) w.clock with
  | ok m => exact ⟨rfl, rfl, rfl⟩
  | fail e m => exact ⟨rfl, rfl, rfl⟩

theorem wp_fence (i : ℕ) (w : World π) :
    (fence plan i).Wp (fun r w' => w'.renames = w.renames ∧ w'.clock = w.clock + 1 ∧
      (Works plan (.fence i) → r = .ok ()) ∧
      match r with
      | .ok () => w'.disk = w.disk.fence i
      | .error _ => w'.disk = w.disk) w := by
  unfold Prog.Wp fence
  cases h : plan (.fence i) w.clock with
  | ok m => exact ⟨rfl, rfl, fun _ => rfl, rfl⟩
  | fail e m => exact ⟨rfl, rfl, fun hw => (hw.not_fail h).elim, rfl⟩

theorem wp_pwrite (i pos : ℕ) (bytes : Bytes) (w : World π) :
    (pwrite plan i pos bytes).Wp (fun r w' => w'.renames = w.renames ∧
      match r with
      | .ok n => n ≤ bytes.length ∧
          w'.disk = w.disk.setData i (overlay (w.disk.data i) pos (bytes.take n))
      | .error _ => ∃ n, w'.disk =
          w.disk.setData i (overlay (w.disk.data i) pos (bytes.take n))) w := by
  unfold Prog.Wp pwrite
  cases plan (.write i) w.clock with
  | ok n =>
    refine ⟨rfl, Nat.min_le_right _ _, ?_⟩
    rw [← List.take_take, List.take_length]
    rfl
  | fail e n => exact ⟨rfl, n, rfl⟩

/-- Metadata is no content. -/
theorem wp_setMeta (p : π) (w : World π) :
    (setMeta plan p).Wp (fun _ w' => w'.renames = w.renames ∧ w.disk.Same w'.disk) w := by
  unfold Prog.Wp setMeta
  cases plan (.setMeta p) w.clock with
  | fail e m => exact ⟨rfl, .refl _⟩
  | ok m =>
    cases w.disk.names p with
    | none => exact ⟨rfl, .refl _⟩
    | some i => exact ⟨rfl, rfl, rfl, rfl⟩

/-- A rename is recorded with what its source held. -/
theorem wp_rename [DecidableEq π] (p q : π) (i : ℕ) (w : World π) (hp : w.disk.names p = some i) :
    (rename plan p q).Wp (fun r w' =>
      w'.renames = w.renames ++
        [⟨p, q, some (w.disk.data i), w.disk.fenced i,
          match r with | .ok _ => true | .error _ => false⟩] ∧
      match r with
      | .ok () => w'.disk = w.disk.rename p q
      | .error _ => w'.disk = w.disk) w := by
  have hc : w.disk.content p = some (w.disk.data i) := by rw [Disk.content, hp]; rfl
  unfold Prog.Wp rename
  rw [hp, hc]
  cases plan (.rename p q) w.clock with
  | fail e m => exact ⟨rfl, rfl⟩
  | ok m => exact ⟨rfl, rfl⟩

/-- Syncing a directory changes no file. -/
theorem wp_syncDir (p : π) (w : World π) :
    (syncDir plan p).Wp (fun r w' => w'.disk = w.disk ∧
      (Works plan (.syncDir p) → r = .ok ())) w := by
  refine Prog.wp_mono (wp_look_answer plan _ _ w) ?_
  rintro r w' ⟨hd, hw, -⟩
  exact ⟨hd, fun hwork => (hw hwork).choose_spec⟩

theorem wp_remove [DecidableEq π] (p : π) (w : World π) :
    (remove plan p).Wp (fun r w' => w'.renames = w.renames ∧ w'.clock = w.clock + 1 ∧
      (Works plan (.remove p) → w.disk.names p ≠ none → r = .ok ()) ∧
      match r with
      | .ok () => w'.disk = w.disk.unlink p
      | .error _ => w'.disk = w.disk) w := by
  unfold Prog.Wp remove
  cases h : plan (.remove p) w.clock with
  | fail e m => exact ⟨rfl, rfl, fun hw => (hw.not_fail h).elim, rfl⟩
  | ok m =>
    cases w.disk.names p with
    | none => exact ⟨rfl, rfl, fun _ hp => absurd rfl hp, rfl⟩
    | some i => exact ⟨rfl, rfl, fun _ _ => rfl, rfl⟩

section

variable {plan} {w w' : World π} {i n : ℕ}

theorem setLen_ok (h : setLen plan i n w = (.ok (), w')) :
    w'.disk = w.disk.setData i ((w.disk.data i).take n ++ zeros (n - (w.disk.data i).length)) :=
  ((wp_setLen plan i n w).run h).2.2

theorem fence_ok (h : fence plan i w = (.ok (), w')) : w'.disk = w.disk.fence i :=
  ((wp_fence plan i w).run h).2.2.2

theorem writeAt_ok {bytes : Bytes} (h : writeAt plan i n bytes w = (.ok (), w')) :
    w'.disk = w.disk.setData i (overlay (w.disk.data i) n bytes) :=
  ((wp_writeAt plan i n bytes w).run h).2.2.2

end

end Io

end Fsys.Base
