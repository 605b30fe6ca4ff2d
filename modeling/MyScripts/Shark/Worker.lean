import Mathlib.Data.Int.Notation
import Mathlib.Order.Basic
import Mathlib.Data.Prod.Lex

/-!
# Pools and the coordinates of an op list

The disk pool replays the journal under the validation mount, the cluster
pool (`digi` in the source) under the test mount. A `worker_list` entry is
found by the group it comes from and its position in that group.
-/
namespace MyScripts.Shark

/-- `worker_type`: the two pools of the thread manager. -/
inductive Pool
  | disk
  | digi
  deriving DecidableEq, Repr

namespace Pool

def other : Pool → Pool
  | disk => digi
  | digi => disk

theorem other_ne (p : Pool) : p.other ≠ p := by
  cases p <;> decide

theorem eq_or_eq_other (p q : Pool) : q = p ∨ q = p.other := by
  cases p <;> cases q <;> decide

end Pool

/-- A mount path; `GET_CONFIG_STRING` appends the '/'. -/
abbrev Mount := {s : List Char // ∃ dir, s = dir ++ ['/']}

inductive FileType
  | dir
  | symlink
  | file
  deriving DecidableEq, Repr

def FileType.code : FileType → ℕ
  | dir => 1
  | symlink => 2
  | file => 3

def FileType.ofCode : ℤ → Option FileType
  | 1 => some dir
  | 2 => some symlink
  | 3 => some file
  | _ => none

theorem FileType.ofCode_code (t : FileType) : ofCode t.code = some t := by
  cases t <;> rfl

inductive OpType
  | openedDir
  | noOpenDir
  | openedFile
  | noOpenFile
  | symlink
  deriving DecidableEq, Repr

def OpType.code : OpType → ℕ
  | openedDir => 0
  | noOpenDir => 1
  | openedFile => 2
  | noOpenFile => 3
  | symlink => 4

def OpType.ofCode : ℤ → Option OpType
  | 0 => some openedDir
  | 1 => some noOpenDir
  | 2 => some openedFile
  | 3 => some noOpenFile
  | 4 => some symlink
  | _ => none

theorem OpType.ofCode_code (t : OpType) : ofCode t.code = some t := by
  cases t <;> rfl

theorem OpType.eq_code_of_ofCode {z : ℤ} {t : OpType} (h : ofCode z = some t) : z = t.code := by
  unfold ofCode at h
  split at h <;> cases h <;> rfl

@[ext]
structure ListIndex where
  group : ℕ
  opList : ℕ
  deriving DecidableEq, Repr

namespace ListIndex

def key (i : ListIndex) : ℕ ×ₗ ℕ := toLex (i.group, i.opList)

theorem key_injective : Function.Injective key := by
  intro i j h
  have hp : (i.group, i.opList) = (j.group, j.opList) := toLex_inj.1 h
  exact ListIndex.ext (congrArg Prod.fst hp) (congrArg Prod.snd hp)

instance : LinearOrder ListIndex := LinearOrder.lift' key key_injective

theorem lt_iff {i j : ListIndex} :
    i < j ↔ i.group < j.group ∨ i.group = j.group ∧ i.opList < j.opList := by
  change i.key < j.key ↔ _
  simp only [key, Prod.Lex.toLex_lt_toLex]

end ListIndex
end MyScripts.Shark
