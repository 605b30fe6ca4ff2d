import MyScripts.Library.Decimal
import MyScripts.Library.Tokens
import MyScripts.Shark.Worker
import Mathlib.Logic.Function.Basic
import Mathlib.Tactic.SplitIfs

/-!
# File nodes and their table

A node has a name `index-XXXXXX-type` and a parent directory. The table has an
idle and a busy tree of each type, ordered by the index in the names, and the
number of indices given out. An index is found again in a path by reading the
number after the last '/'.
-/
namespace MyScripts.Shark.FileTable
open Library.Decimal

abbrev Suffix := {s : List Char // s.length = 6 ∧ ∀ c ∈ s, c.isAlphanum = true}

structure FileName where
  index : ℕ
  suffix : Suffix
  kind : FileType

def ending : FileType → List Char
  | .dir => "-dir".toList
  | .file => "-file".toList
  | .symlink => "-symlink".toList

def FileName.print (n : FileName) : List Char :=
  printNat n.index ++ '-' :: (n.suffix ++ ending n.kind)

def constructionFileName (index : ℕ) (type : FileType) (suffix : Suffix) : FileName :=
  ⟨index, suffix, type⟩

/-- `sscanf (s, "%"PRId64"-%s", &index, buf)` into an unsigned index that was 0. -/
def scanIndex (s : List Char) : ℕ :=
  match scanInt s with
  | none => 0
  | some z => if 0 ≤ z then z.toNat else (2 ^ 64 + z).toNat

def lastSlash (path : List Char) : ℕ → ℕ
  | 0 => 0
  | i + 1 => if path[i + 1]? = some '/' then i + 1 else lastSlash path i

/-- The copy starts one character after the place where the loop stopped. -/
def cutStrToInt (path : List Char) : ℕ :=
  scanIndex (path.drop (lastSlash path (path.length - 1) + 1))

theorem scanIndex_print (n : FileName) : scanIndex n.print = n.index := by
  have hends : Ends ('-' :: (n.suffix ++ ending n.kind)) := ends_cons (by decide)
  rw [scanIndex, FileName.print, scanInt_printNat n.index hends]
  exact if_pos (Int.natCast_nonneg _)

theorem not_mem_print {c : Char} (hd : c.isDigit = false) (ha : c.isAlphanum = false)
    (he : c ∉ "-dir".toList ∧ c ∉ "-file".toList ∧ c ∉ "-symlink".toList) (n : FileName) :
    c ∉ n.print := by
  have hdash : c ≠ '-' := fun h => he.1 (h ▸ by decide)
  have hsuffix : c ∉ n.suffix.1 := fun h => by simp [n.suffix.2.2 c h] at ha
  have hending : c ∉ ending n.kind := by
    cases n.kind
    · exact he.1
    · exact he.2.2
    · exact he.2.1
  simp only [FileName.print, List.mem_append, List.mem_cons, not_or]
  exact ⟨not_mem_printNat hd n.index, hdash, hsuffix, hending⟩

theorem slash_not_mem_print (n : FileName) : '/' ∉ n.print :=
  not_mem_print (by decide) (by decide) (by decide) n

theorem lastSlash_append {w : List Char} (pre : List Char) (hw : '/' ∉ w) (n : ℕ)
    (hn : n ≤ w.length) : lastSlash (pre ++ '/' :: w) (pre.length + n) = pre.length := by
  induction n with
  | zero =>
    cases pre with
    | nil => rfl
    | cons c pre => simp [lastSlash]
  | succ n ih =>
    have hne : (pre ++ '/' :: w)[pre.length + n + 1]? ≠ some '/' := by
      rw [Nat.add_assoc, List.getElem?_append_right (Nat.le_add_right _ _), Nat.add_sub_cancel_left,
        List.getElem?_cons_succ]
      exact fun h => hw (List.mem_of_getElem? h)
    rw [← Nat.add_assoc, lastSlash, if_neg hne, ih (by omega)]

theorem cutStrToInt_append (pre : List Char) (n : FileName) :
    cutStrToInt (pre ++ '/' :: n.print) = n.index := by
  have hlen : (pre ++ '/' :: n.print).length - 1 = pre.length + n.print.length := by
    simp only [List.length_append, List.length_cons]
    omega
  have hdrop : (pre ++ '/' :: n.print).drop (pre.length + 1) = n.print := by
    rw [List.drop_append]
    simp
  rw [cutStrToInt, hlen, lastSlash_append pre (slash_not_mem_print n) _ (Nat.le_refl _), hdrop,
    scanIndex_print]

abbrev NodeRef := ℕ

structure FileNode where
  parent : Option NodeRef
  fileName : FileName
  fileType : FileType
  usecnt : ℤ
  freed : Bool

/-- `file_node_table_t` and the nodes allocated so far. A tree maps an index to
the node with that index; `rbt true` are the idle trees, `rbt false` the busy ones. -/
structure Table where
  node : NodeRef → Option FileNode
  fresh : NodeRef
  rbt : Bool → FileType → ℕ → Option NodeRef
  cnt : FileType → ℕ

def Table.init : Table where
  node := fun _ => none
  fresh := 0
  rbt := fun _ _ _ => none
  cnt := fun _ => 0

namespace Table

def setRbt (t : Table) (idle : Bool) (type : FileType) (index : ℕ) (n : Option NodeRef) : Table :=
  { t with
    rbt := fun b ty i => if b = idle ∧ ty = type ∧ i = index then n else t.rbt b ty i }

def key (t : Table) (n : NodeRef) : ℕ := ((t.node n).map (·.fileName.index)).getD 0

def fileDeleteFormRbt (t : Table) (type : FileType) (index : ℕ) (fromIdle : Bool) :
    Option NodeRef × Table :=
  (t.rbt fromIdle type index, t.setRbt fromIdle type index none)

/-- `rb_insert` leaves a tree that has the index already as it is; the callers
only log it. -/
def fileInsertToRbt (t : Table) (type : FileType) (n : NodeRef) (toIdle : Bool) : Table :=
  match t.rbt toIdle type (t.key n) with
  | some _ => t
  | none => t.setRbt toIdle type (t.key n) (some n)

def getIdleIndex (t : Table) (type : FileType) : ℕ × Table :=
  (t.cnt type, { t with cnt := Function.update t.cnt type (t.cnt type + 1) })

def parent (t : Table) (n : NodeRef) : Option NodeRef := (t.node n).bind (·.parent)

def ancestors (t : Table) : ℕ → NodeRef → List NodeRef
  | 0, _ => []
  | fuel + 1, n =>
    match t.parent n with
    | none => []
    | some p => p :: t.ancestors fuel p

def checkPathDepth (t : Table) (n : NodeRef) : Bool := (t.ancestors t.fresh n).length < 10

def setNode (t : Table) (n : NodeRef) (x : FileNode) : Table :=
  { t with node := Function.update t.node n (some x) }

def alloc (t : Table) (x : FileNode) : NodeRef × Table :=
  (t.fresh, { t with node := Function.update t.node t.fresh (some x), fresh := t.fresh + 1 })

def addUsecnt (t : Table) (d : ℤ) (n : NodeRef) : Table :=
  match t.node n with
  | none => t
  | some x => t.setNode n { x with usecnt := x.usecnt + d }

def free (t : Table) (n : NodeRef) : Table :=
  match t.node n with
  | none => t
  | some x => t.setNode n { x with freed := true }

def usecntPath (t : Table) (initialDirCnts : ℕ) (n : NodeRef) : List NodeRef :=
  (t.ancestors t.fresh n).takeWhile fun p => initialDirCnts ≤ t.key p

def fileNodeUsecntUpdate (t : Table) (initialDirCnts : ℕ) (n : NodeRef) (isAdd : Bool) : Table :=
  (t.usecntPath initialDirCnts n).foldl (fun t p => t.addUsecnt (if isAdd then 1 else -1) p) t

/-- Directories are never freed, and a node in use is not. -/
def fileNodeDestory (t : Table) (n : NodeRef) : Table :=
  match t.node n with
  | none => t
  | some x =>
    match x.fileType with
    | .dir => t
    | .symlink | .file => if x.usecnt ≠ 0 then t else t.free n

end Table
end MyScripts.Shark.FileTable
