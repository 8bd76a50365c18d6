import Fsys.Base.Text

/-!
# The NVMe controller behind a file (src/platform/linux_iouring.rs:1011-1049)

`nvme_char_device_for` takes the device of a file to the name of its block device in sysfs
and cuts the namespace off that name. It cuts at the first `n`, which is the first letter
of `nvme`, so that nothing is left of the name and the function gives up on every device.
-/

namespace Fsys.Platform

open Fsys.Base

/-- What the function asks the system: the device numbers of `fstat`, split by `major` and
`minor`, and the components of a canonical path. -/
structure BlockSys where
  fstat : ℕ → Option (ℕ × ℕ)
  canonicalize : Str → Option (List OsString)

def blockLink (major minor : ℕ) : Str :=
  "/sys/dev/block/".toList ++ decimal major ++ ':' :: decimal minor

/-- `resolved.file_name()?.to_str()?` for the block link of a file. -/
def blockName (sys : BlockSys) (fd : ℕ) : Option Str := do
  let (major, minor) ← sys.fstat fd
  let resolved ← sys.canonicalize (blockLink major minor)
  let name ← resolved.getLast?
  toStr name

/-- What is left of a name: `nvme0n1` should give `/dev/nvme0`. -/
def controllerOf (name : Str) : Option Str :=
  if "nvme".toList.isPrefixOf name = false then none
  else
    match (name.splitOn 'n').head? with
    | none => none
    | some controller =>
      if controller.isEmpty || !"nvme".toList.isPrefixOf controller then none
      else some ("/dev/".toList ++ controller)

def nvmeCharDeviceFor (sys : BlockSys) (fd : ℕ) : Option Str := do
  let name ← blockName sys fd
  controllerOf name

/-! ### Names of NVMe block devices -/

/-- `nvme<c>n<n>` -/
def namespaceName (c n : ℕ) : Str := "nvme".toList ++ decimal c ++ 'n' :: decimal n

/-- `nvme<c>n<n>p<p>` -/
def partitionName (c n p : ℕ) : Str := namespaceName c n ++ 'p' :: decimal p

/-- A namespace of the controller `c`, or a partition of one. -/
def OnController (c : ℕ) (name : Str) : Prop :=
  (∃ n, name = namespaceName c n) ∨ ∃ n p, name = partitionName c n p

def controllerPath (c : ℕ) : Str := "/dev/nvme".toList ++ decimal c

/-! ### What the lookup answers -/

/-- The piece before the first `n` of a name that starts with `nvme` is empty. -/
theorem controllerOf_eq_none (name : Str) : controllerOf name = none := by
  unfold controllerOf
  split
  · rfl
  · rename_i hnvme
    rw [Bool.not_eq_false, List.isPrefixOf_iff_prefix] at hnvme
    obtain ⟨rest, rfl⟩ := hnvme
    have hnil : 'n' ∉ ([] : Str) := by simp
    have hsplit : ("nvme".toList ++ rest).splitOn 'n' = [] :: ("vme".toList ++ rest).splitOn 'n' :=
      List.splitOn_append_cons_self_of_not_mem hnil _
    rw [hsplit]
    simp

theorem nvmeCharDeviceFor_eq_none (sys : BlockSys) (fd : ℕ) : nvmeCharDeviceFor sys fd = none := by
  unfold nvmeCharDeviceFor
  cases blockName sys fd with
  | none => rfl
  | some name => exact controllerOf_eq_none name

/-- What the lookup should answer for a file: the controller of its namespace or partition, and
nothing for a device that is no NVMe device. -/
def AnswersController (sys : BlockSys) (fd : ℕ) : Prop :=
  ∀ name, blockName sys fd = some name →
    (∀ c, OnController c name → nvmeCharDeviceFor sys fd = some (controllerPath c)) ∧
    ("nvme".toList.isPrefixOf name = false → nvmeCharDeviceFor sys fd = none)

/-- Both files have a controller, and it is the same one. -/
def SameController (sys : BlockSys) (fd fd' : ℕ) : Prop :=
  ∃ d, nvmeCharDeviceFor sys fd = some d ∧ nvmeCharDeviceFor sys fd' = some d

/-- The lookup answers as it should exactly for the files that are on no NVMe namespace or
partition; for two files on such devices it tells their controllers apart, and never
recognises one controller as the same. -/
theorem nvme_lookup_answers_iff (sys : BlockSys) (fd fd' : ℕ) :
    (AnswersController sys fd ↔ ∀ name c, blockName sys fd = some name → ¬ OnController c name) ∧
    ∀ name name' c c', blockName sys fd = some name → blockName sys fd' = some name' →
      OnController c name → OnController c' name' →
      ((SameController sys fd fd' ↔ c = c') ↔ c ≠ c') := by
  refine ⟨⟨?_, ?_⟩, ?_⟩
  · intro h name c hname hon
    have hanswer := (h name hname).1 c hon
    rw [nvmeCharDeviceFor_eq_none] at hanswer
    cases hanswer
  · intro h name hname
    exact ⟨fun c hon => absurd hon (h name c hname), fun _ => nvmeCharDeviceFor_eq_none sys fd⟩
  · intro name name' c c' _ _ _ _
    have hnot : ¬ SameController sys fd fd' := by
      intro hsame
      obtain ⟨d, hd, -⟩ := hsame
      rw [nvmeCharDeviceFor_eq_none] at hd
      cases hd
    simp [hnot]

/-- A file on the first namespace of the first controller. -/
def nvmeRoot : BlockSys where
  fstat := fun _ => some (259, 0)
  canonicalize := fun _ => some [osString "block".toList, osString "nvme0n1".toList]

/-- No controller is found for `nvme0n1`. -/
theorem namespace_without_controller :
    blockName nvmeRoot 3 = some "nvme0n1".toList ∧ OnController 0 "nvme0n1".toList ∧
      nvmeCharDeviceFor nvmeRoot 3 = none ∧ ¬ AnswersController nvmeRoot 3 := by
  have hname : blockName nvmeRoot 3 = some "nvme0n1".toList :=
    toStr_osString "nvme0n1".toList
  have hon : OnController 0 "nvme0n1".toList := Or.inl ⟨1, rfl⟩
  refine ⟨hname, hon, nvmeCharDeviceFor_eq_none _ _, ?_⟩
  intro h
  have hanswer := (h _ hname).1 0 hon
  rw [nvmeCharDeviceFor_eq_none] at hanswer
  cases hanswer

end Fsys.Platform
