import MyScripts.Library.Slots
import MyScripts.Shark.Ops
import Mathlib.Algebra.BigOperators.Group.Finset.Basic
import Mathlib.Data.Rat.Floor
import Mathlib.Algebra.Order.Round
import Mathlib.Tactic.FieldSimp
import Mathlib.Tactic.Linarith

/-!
# The distribution tables

`config_globle_var_init` reads the ratios and exits when those of a section do
not sum to 1; `create_layout_table` gives every operation of a class an
interval of the hash range, as long as its ratio of `accuracy`;
`random_handler` draws a hash and looks for the interval. The ratios are
exact rationals here.
-/
namespace MyScripts.Shark
open Library.Slots

structure Ratio (accuracy : ℕ) where
  val : ℚ
  unit : ∃ n : ℕ, n ≤ accuracy ∧ val = n / accuracy

structure Ratios (accuracy : ℕ) where
  dirOpRatio : Ratio accuracy
  symbolLinkOpRatio : Ratio accuracy
  fileOpRatio : Ratio accuracy
  newDirRatio : Ratio accuracy
  openDirRatio : Ratio accuracy
  newFileRatio : Ratio accuracy
  openFileRatio : Ratio accuracy
  fsyncOpenDir : Ratio accuracy
  fsetxattrOpenDir : Ratio accuracy
  fgetxattrOpenDir : Ratio accuracy
  fremovexattrOpenDir : Ratio accuracy
  readdirOpenDir : Ratio accuracy
  lkOpenDir : Ratio accuracy
  fchmodOpenDir : Ratio accuracy
  fchownOpenDir : Ratio accuracy
  futimesOpenDir : Ratio accuracy
  fstatOpenDir : Ratio accuracy
  accessUnopenDir : Ratio accuracy
  renameUnopenDir : Ratio accuracy
  symlinkUnopenDir : Ratio accuracy
  setxattrUnopenDir : Ratio accuracy
  getxattrUnopenDir : Ratio accuracy
  removexattrUnopenDir : Ratio accuracy
  chownUnopenDir : Ratio accuracy
  chmodUnopenDir : Ratio accuracy
  utimesUnopenDir : Ratio accuracy
  rmdirUnopenDir : Ratio accuracy
  statUnopenDir : Ratio accuracy
  statfsUnopenDir : Ratio accuracy
  writevOpenFile : Ratio accuracy
  readvOpenFile : Ratio accuracy
  fallocateOpenFile : Ratio accuracy
  ftruncateOpenFile : Ratio accuracy
  fsyncOpenFile : Ratio accuracy
  fsetxattrOpenFile : Ratio accuracy
  fgetxattrOpenFile : Ratio accuracy
  fremovexattrOpenFile : Ratio accuracy
  lkOpenFile : Ratio accuracy
  fchownOpenFile : Ratio accuracy
  fchmodOpenFile : Ratio accuracy
  futimesOpenFile : Ratio accuracy
  fstatOpenFile : Ratio accuracy
  renameUnopenFile : Ratio accuracy
  symlinkUnopenFile : Ratio accuracy
  linkUnopenFile : Ratio accuracy
  truncateUnopenFile : Ratio accuracy
  setxattrUnopenFile : Ratio accuracy
  getxattrUnopenFile : Ratio accuracy
  removexattrUnopenFile : Ratio accuracy
  accessUnopenFile : Ratio accuracy
  chownUnopenFile : Ratio accuracy
  chmodUnopenFile : Ratio accuracy
  utimesUnopenFile : Ratio accuracy
  statUnopenFile : Ratio accuracy
  unlinkUnopenFile : Ratio accuracy
  statfsUnopenFile : Ratio accuracy
  readlinkSymbolLink : Ratio accuracy
  unlinkSymbolLink : Ratio accuracy

namespace Ratios

variable {accuracy : ℕ} (cgv : Ratios accuracy)

def global : ℚ := cgv.fileOpRatio.val + cgv.symbolLinkOpRatio.val + cgv.dirOpRatio.val

def openedDir : ℚ :=
  cgv.fsyncOpenDir.val + cgv.fsetxattrOpenDir.val + cgv.fgetxattrOpenDir.val +
    cgv.fremovexattrOpenDir.val + cgv.readdirOpenDir.val + cgv.lkOpenDir.val +
    cgv.fchmodOpenDir.val + cgv.fchownOpenDir.val + cgv.futimesOpenDir.val + cgv.fstatOpenDir.val

def unopenedDir : ℚ :=
  cgv.accessUnopenDir.val + cgv.renameUnopenDir.val + cgv.symlinkUnopenDir.val +
    cgv.setxattrUnopenDir.val + cgv.getxattrUnopenDir.val + cgv.removexattrUnopenDir.val +
    cgv.chmodUnopenDir.val + cgv.rmdirUnopenDir.val + cgv.statfsUnopenDir.val +
    cgv.chownUnopenDir.val + cgv.utimesUnopenDir.val + cgv.statUnopenDir.val

def openedFile : ℚ :=
  cgv.writevOpenFile.val + cgv.readvOpenFile.val + cgv.fallocateOpenFile.val +
    cgv.ftruncateOpenFile.val + cgv.fsyncOpenFile.val + cgv.fsetxattrOpenFile.val +
    cgv.fgetxattrOpenFile.val + cgv.fremovexattrOpenFile.val + cgv.lkOpenFile.val +
    cgv.fchmodOpenFile.val + cgv.fchownOpenFile.val + cgv.futimesOpenFile.val +
    cgv.fstatOpenFile.val

def unopenedFile : ℚ :=
  cgv.linkUnopenFile.val + cgv.renameUnopenFile.val + cgv.symlinkUnopenFile.val +
    cgv.setxattrUnopenFile.val + cgv.getxattrUnopenFile.val + cgv.removexattrUnopenFile.val +
    cgv.accessUnopenFile.val + cgv.truncateUnopenFile.val + cgv.chmodUnopenFile.val +
    cgv.unlinkUnopenFile.val + cgv.statfsUnopenFile.val + cgv.chownUnopenFile.val +
    cgv.utimesUnopenFile.val + cgv.statUnopenFile.val

def symbolLink : ℚ := cgv.readlinkSymbolLink.val + cgv.unlinkSymbolLink.val

end Ratios

def SumIsOne (sum : ℚ) : Prop := |sum - 1| < 1 / 10 ^ 6

structure SumChecks {accuracy : ℕ} (cgv : Ratios accuracy) : Prop where
  global : SumIsOne cgv.global
  openedDir : SumIsOne cgv.openedDir
  unopenedDir : SumIsOne cgv.unopenedDir
  openedFile : SumIsOne cgv.openedFile
  unopenedFile : SumIsOne cgv.unopenedFile
  symbolLink : SumIsOne cgv.symbolLink

inductive LayoutType
  | opsFileType
  | newDir
  | openDir
  | openDirOps
  | noOpenDirOps
  | newFile
  | openFile
  | openFileOps
  | noOpenFileOps
  | symlinkOps
  deriving DecidableEq, Repr

abbrev Layout := Slot ℤ

namespace LayoutType

def layoutCnt : LayoutType → ℕ
  | opsFileType => 3
  | newDir | openDir | newFile | openFile | symlinkOps => 2
  | openDirOps => OpenedDirOp.max.code - 1
  | noOpenDirOps => NoOpenDirOp.max.code - 1
  | openFileOps => OpenedFileOp.max.code - 1
  | noOpenFileOps => NoOpenFileOp.max.code - 1

def key : LayoutType → ℕ → ℤ
  | newDir, i | newFile, i => if i = 1 then 1 else 0
  | openDir, i => if i = 1 then OpType.openedDir.code else OpType.noOpenDir.code
  | openFile, i => if i = 1 then OpType.openedFile.code else OpType.noOpenFile.code
  | opsFileType, i | openDirOps, i | noOpenDirOps, i | openFileOps, i | noOpenFileOps, i
  | symlinkOps, i => i

end LayoutType

namespace Ratios

variable {accuracy : ℕ} (cgv : Ratios accuracy)

/-- There is no case for `LK_DIR_OP`, whose code is commented out as well. -/
def openDirShare (i : ℕ) : ℚ :=
  match OpenedDirOp.ofCode i with
  | some .fsync => cgv.fsyncOpenDir.val
  | some .fsetxattr => cgv.fsetxattrOpenDir.val
  | some .fgetxattr => cgv.fgetxattrOpenDir.val
  | some .fremovexattr => cgv.fremovexattrOpenDir.val
  | some .readdir => cgv.readdirOpenDir.val
  | some .fchown => cgv.fchownOpenDir.val
  | some .fchmod => cgv.fchmodOpenDir.val
  | some .futimes => cgv.futimesOpenDir.val
  | some .fstat => cgv.fstatOpenDir.val
  | _ => 0

def noOpenDirShare (i : ℕ) : ℚ :=
  match NoOpenDirOp.ofCode i with
  | some .symlink => cgv.symlinkUnopenDir.val
  | some .setxattr => cgv.setxattrUnopenDir.val
  | some .rename => cgv.renameUnopenDir.val
  | some .access => cgv.accessUnopenDir.val
  | some .getxattr => cgv.getxattrUnopenDir.val
  | some .removexattr => cgv.removexattrUnopenDir.val
  | some .chown => cgv.chownUnopenDir.val
  | some .chmod => cgv.chmodUnopenDir.val
  | some .utimes => cgv.utimesUnopenDir.val
  | some .rmdir => cgv.rmdirUnopenDir.val
  | some .stat => cgv.statUnopenDir.val
  | some .statfs => cgv.statfsUnopenDir.val
  | _ => 0

def openFileShare (i : ℕ) : ℚ :=
  match OpenedFileOp.ofCode i with
  | some .writev => cgv.writevOpenFile.val
  | some .readv => cgv.readvOpenFile.val
  | some .fallocate => cgv.fallocateOpenFile.val
  | some .ftruncate => cgv.ftruncateOpenFile.val
  | some .lk => cgv.lkOpenFile.val
  | some .fsync => cgv.fsyncOpenFile.val
  | some .fsetxattr => cgv.fsetxattrOpenFile.val
  | some .fgetxattr => cgv.fgetxattrOpenFile.val
  | some .fremovexattr => cgv.fremovexattrOpenFile.val
  | some .fchown => cgv.fchownOpenFile.val
  | some .fchmod => cgv.fchmodOpenFile.val
  | some .futimes => cgv.futimesOpenFile.val
  | some .fstat => cgv.fstatOpenFile.val
  | _ => 0

def noOpenFileShare (i : ℕ) : ℚ :=
  match NoOpenFileOp.ofCode i with
  | some .rename => cgv.renameUnopenFile.val
  | some .symlink => cgv.symlinkUnopenFile.val
  | some .link => cgv.linkUnopenFile.val
  | some .truncate => cgv.truncateUnopenFile.val
  | some .setxattr => cgv.setxattrUnopenFile.val
  | some .getxattr => cgv.getxattrUnopenFile.val
  | some .removexattr => cgv.removexattrUnopenFile.val
  | some .access => cgv.accessUnopenFile.val
  | some .chown => cgv.chownUnopenFile.val
  | some .chmod => cgv.chmodUnopenFile.val
  | some .utimes => cgv.utimesUnopenFile.val
  | some .stat => cgv.statUnopenFile.val
  | some .unlink => cgv.unlinkUnopenFile.val
  | some .statfs => cgv.statfsUnopenFile.val
  | _ => 0

def share : LayoutType → ℕ → ℚ
  | .opsFileType, i =>
    if i = 1 then cgv.dirOpRatio.val
    else if i = 2 then cgv.symbolLinkOpRatio.val
    else cgv.fileOpRatio.val
  | .newDir, i => if i = 1 then cgv.newDirRatio.val else 1 - cgv.newDirRatio.val
  | .openDir, i => if i = 1 then cgv.openDirRatio.val else 1 - cgv.openDirRatio.val
  | .openDirOps, i => cgv.openDirShare i
  | .noOpenDirOps, i => cgv.noOpenDirShare i
  | .newFile, i => if i = 1 then cgv.newFileRatio.val else 1 - cgv.newFileRatio.val
  | .openFile, i => if i = 1 then cgv.openFileRatio.val else 1 - cgv.openFileRatio.val
  | .openFileOps, i => cgv.openFileShare i
  | .noOpenFileOps, i => cgv.noOpenFileShare i
  | .symlinkOps, i => if i = 1 then cgv.readlinkSymbolLink.val else cgv.unlinkSymbolLink.val

/-- `last_end` and the table after `i` rounds of the loop; `list_add` puts in front. -/
def layoutLoop (type : LayoutType) : ℕ → ℕ × List Layout
  | 0 => (0, [])
  | i + 1 =>
    let (lastEnd, layouts) := layoutLoop type i
    let stop := ⌊(lastEnd : ℚ) + accuracy * cgv.share type (i + 1)⌋₊
    (stop, ⟨lastEnd, stop, type.key (i + 1)⟩ :: layouts)

def createLayoutTable (type : LayoutType) : List Layout := (cgv.layoutLoop type type.layoutCnt).2

def randomHandler (type : LayoutType) (random : ℕ) : ℤ :=
  if accuracy = 0 then -1
  else (lookup (cgv.createLayoutTable type) (random % accuracy)).getD (-1)

end Ratios

variable {accuracy : ℕ} {cgv : Ratios accuracy}

theorem Ratio.units (hA : 0 < accuracy) (r : Ratio accuracy) :
    ∃ n : ℕ, n ≤ accuracy ∧ (accuracy : ℚ) * r.val = n := by
  obtain ⟨n, hn, hval⟩ := r.unit
  have hne : (accuracy : ℚ) ≠ 0 := Nat.cast_ne_zero.2 (Nat.pos_iff_ne_zero.1 hA)
  exact ⟨n, hn, by rw [hval, mul_div_cancel₀ _ hne]⟩

def Whole (accuracy : ℕ) (share : ℚ) : Prop := ∃ n : ℕ, (accuracy : ℚ) * share = n

theorem Ratio.whole (hA : 0 < accuracy) (r : Ratio accuracy) : Whole accuracy r.val :=
  (r.units hA).imp fun _ h => h.2

theorem Ratio.whole_rest (hA : 0 < accuracy) (r : Ratio accuracy) : Whole accuracy (1 - r.val) := by
  obtain ⟨n, hn, hval⟩ := r.units hA
  exact ⟨accuracy - n, by rw [mul_sub, mul_one, hval, Nat.cast_sub hn]⟩

theorem whole_zero : Whole accuracy 0 := ⟨0, by rw [mul_zero, Nat.cast_zero]⟩

theorem Ratios.whole_share (hA : 0 < accuracy) (cgv : Ratios accuracy) (type : LayoutType) (i : ℕ) :
    Whole accuracy (cgv.share type i) := by
  cases type with
  | opsFileType =>
    simp only [share]
    split_ifs <;> exact Ratio.whole hA _
  | newDir | openDir | newFile | openFile =>
    simp only [share]
    split_ifs
    · exact Ratio.whole hA _
    · exact Ratio.whole_rest hA _
  | symlinkOps =>
    simp only [share]
    split_ifs <;> exact Ratio.whole hA _
  | openDirOps =>
    simp only [share, openDirShare]
    split <;> first | exact Ratio.whole hA _ | exact whole_zero
  | noOpenDirOps =>
    simp only [share, noOpenDirShare]
    split <;> first | exact Ratio.whole hA _ | exact whole_zero
  | openFileOps =>
    simp only [share, openFileShare]
    split <;> first | exact Ratio.whole hA _ | exact whole_zero
  | noOpenFileOps =>
    simp only [share, noOpenFileShare]
    split <;> first | exact Ratio.whole hA _ | exact whole_zero

theorem layoutLoop_succ {type : LayoutType} {i w : ℕ}
    (h : (accuracy : ℚ) * cgv.share type (i + 1) = w) :
    cgv.layoutLoop type (i + 1) =
      ((cgv.layoutLoop type i).1 + w,
        ⟨(cgv.layoutLoop type i).1, (cgv.layoutLoop type i).1 + w, type.key (i + 1)⟩ ::
          (cgv.layoutLoop type i).2) := by
  have hstop : ⌊((cgv.layoutLoop type i).1 : ℚ) + accuracy * cgv.share type (i + 1)⌋₊ =
      (cgv.layoutLoop type i).1 + w := by
    rw [h, ← Nat.cast_add, Nat.floor_natCast]
  simp only [Ratios.layoutLoop, hstop]

theorem layoutLoop_tiles (hA : 0 < accuracy) (cgv : Ratios accuracy) (type : LayoutType) (n : ℕ) :
    Tiles (cgv.layoutLoop type n).2 (cgv.layoutLoop type n).1 ∧
      ((cgv.layoutLoop type n).1 : ℚ) = accuracy * ∑ i ∈ Finset.range n, cgv.share type (i + 1) := by
  induction n with
  | zero => exact ⟨tiles_nil, by rw [Finset.sum_range_zero, mul_zero]; exact Nat.cast_zero⟩
  | succ n ih =>
    obtain ⟨htiles, hsum⟩ := ih
    obtain ⟨w, hw⟩ := cgv.whole_share hA type (n + 1)
    rw [layoutLoop_succ hw]
    refine ⟨htiles.cons w _, ?_⟩
    rw [Nat.cast_add, Finset.sum_range_succ, mul_add, hsum, hw]

def Ratios.tableSum (cgv : Ratios accuracy) (type : LayoutType) : ℚ :=
  ∑ i ∈ Finset.range type.layoutCnt, cgv.share type (i + 1)

theorem createLayoutTable_tiles (hA : 0 < accuracy) (cgv : Ratios accuracy) (type : LayoutType) :
    ∃ n : ℕ, Tiles (cgv.createLayoutTable type) n ∧ (n : ℚ) = accuracy * cgv.tableSum type :=
  ⟨_, layoutLoop_tiles hA cgv type type.layoutCnt⟩

theorem covers_iff (hA : 0 < accuracy) (type : LayoutType) :
    (∀ h < accuracy, holders (cgv.createLayoutTable type) h = 1) ↔ 1 ≤ cgv.tableSum type := by
  obtain ⟨n, htiles, hsum⟩ := createLayoutTable_tiles hA cgv type
  have hpos : (0 : ℚ) < accuracy := Nat.cast_pos.2 hA
  have hcast : accuracy ≤ n ↔ (accuracy : ℚ) ≤ n := Nat.cast_le.symm
  rw [htiles.covers_iff, hcast, hsum, le_mul_iff_one_le_right hpos]

theorem LayoutType.key_nonneg (type : LayoutType) (i : ℕ) : 0 ≤ type.key i := by
  cases type with
  | newDir | newFile | openDir | openFile =>
    simp only [key]
    split_ifs <;> decide
  | _ => exact Int.natCast_nonneg i

theorem key_of_mem_layoutLoop {type : LayoutType} {n : ℕ} {l : Layout}
    (h : l ∈ (cgv.layoutLoop type n).2) : ∃ i, l.key = type.key i := by
  induction n with
  | zero => cases h
  | succ n ih =>
    rcases List.mem_cons.1 h with rfl | h
    · exact ⟨n + 1, rfl⟩
    · exact ih h

theorem randomHandler_eq_neg_one (hA : 0 < accuracy) (type : LayoutType) (random : ℕ) :
    cgv.randomHandler type random = -1 ↔
      (accuracy : ℚ) * cgv.tableSum type ≤ (random % accuracy : ℕ) := by
  obtain ⟨n, htiles, hsum⟩ := createLayoutTable_tiles hA cgv type
  rw [← hsum, Nat.cast_le, ← htiles.lookup_eq_none, Ratios.randomHandler,
    if_neg (Nat.pos_iff_ne_zero.1 hA)]
  cases hl : lookup (cgv.createLayoutTable type) (random % accuracy) with
  | none => simp only [Option.getD_none]
  | some k =>
    obtain ⟨l, hmem, rfl⟩ := key_mem_of_lookup hl
    obtain ⟨i, hi⟩ := key_of_mem_layoutLoop hmem
    have hnonneg := type.key_nonneg i
    simp only [Option.getD_some, hi, reduceCtorEq, iff_false]
    omega

theorem randomHandler_ne_neg_one (hA : 0 < accuracy) {type : LayoutType}
    (h : 1 ≤ cgv.tableSum type) (random : ℕ) : cgv.randomHandler type random ≠ -1 := by
  rw [ne_eq, randomHandler_eq_neg_one hA, not_le]
  have hlt : ((random % accuracy : ℕ) : ℚ) < accuracy := Nat.cast_lt.2 (Nat.mod_lt _ hA)
  have hpos : (0 : ℚ) ≤ accuracy := Nat.cast_nonneg accuracy
  exact hlt.trans_le (le_mul_of_one_le_right hpos h)

theorem tableSum_opsFileType : cgv.tableSum .opsFileType = cgv.global := by
  simp only [Ratios.tableSum, LayoutType.layoutCnt, Finset.sum_range_succ, Finset.sum_range_zero,
    Ratios.share, Ratios.global]
  norm_num
  ring

theorem tableSum_rest {type : LayoutType} (r : Ratio accuracy) (hcnt : type.layoutCnt = 2)
    (hshare : ∀ i, cgv.share type i = if i = 1 then r.val else 1 - r.val) :
    cgv.tableSum type = 1 := by
  simp only [Ratios.tableSum, hcnt, Finset.sum_range_succ, Finset.sum_range_zero, hshare]
  norm_num

theorem tableSum_openDirOps :
    cgv.tableSum .openDirOps = cgv.openedDir - cgv.lkOpenDir.val := by
  simp only [Ratios.tableSum, LayoutType.layoutCnt, OpenedDirOp.code, Finset.sum_range_succ,
    Finset.sum_range_zero, Ratios.share, Ratios.openDirShare, OpenedDirOp.ofCode, Ratios.openedDir]
  ring

theorem tableSum_noOpenDirOps : cgv.tableSum .noOpenDirOps = cgv.unopenedDir := by
  simp only [Ratios.tableSum, LayoutType.layoutCnt, NoOpenDirOp.code, Finset.sum_range_succ,
    Finset.sum_range_zero, Ratios.share, Ratios.noOpenDirShare, NoOpenDirOp.ofCode,
    Ratios.unopenedDir]
  ring

theorem tableSum_openFileOps : cgv.tableSum .openFileOps = cgv.openedFile := by
  simp only [Ratios.tableSum, LayoutType.layoutCnt, OpenedFileOp.code, Finset.sum_range_succ,
    Finset.sum_range_zero, Ratios.share, Ratios.openFileShare, OpenedFileOp.ofCode,
    Ratios.openedFile]
  ring

theorem tableSum_noOpenFileOps : cgv.tableSum .noOpenFileOps = cgv.unopenedFile := by
  simp only [Ratios.tableSum, LayoutType.layoutCnt, NoOpenFileOp.code, Finset.sum_range_succ,
    Finset.sum_range_zero, Ratios.share, Ratios.noOpenFileShare, NoOpenFileOp.ofCode,
    Ratios.unopenedFile]
  ring

theorem tableSum_symlinkOps : cgv.tableSum .symlinkOps = cgv.symbolLink := by
  simp only [Ratios.tableSum, LayoutType.layoutCnt, Finset.sum_range_succ, Finset.sum_range_zero,
    Ratios.share, Ratios.symbolLink]
  norm_num

/-- Every hash value is in one layout of each table, so that every draw gives a key. -/
structure TablesCover (cgv : Ratios accuracy) : Prop where
  layouts : ∀ type, ∀ h < accuracy, holders (cgv.createLayoutTable type) h = 1
  handler : ∀ type random, cgv.randomHandler type random ≠ -1

/-- The ratios of a section that have an entry in its table are enough. -/
structure EntriesSum (cgv : Ratios accuracy) : Prop where
  global : 1 ≤ cgv.global
  openedDir : 1 ≤ cgv.openedDir - cgv.lkOpenDir.val
  unopenedDir : 1 ≤ cgv.unopenedDir
  openedFile : 1 ≤ cgv.openedFile
  unopenedFile : 1 ≤ cgv.unopenedFile
  symbolLink : 1 ≤ cgv.symbolLink

theorem entriesSum_iff : EntriesSum cgv ↔ ∀ type, 1 ≤ cgv.tableSum type := by
  constructor
  · rintro h type
    cases type with
    | opsFileType => exact tableSum_opsFileType.symm ▸ h.global
    | newDir => exact (tableSum_rest cgv.newDirRatio rfl fun _ => rfl).ge
    | openDir => exact (tableSum_rest cgv.openDirRatio rfl fun _ => rfl).ge
    | openDirOps => exact tableSum_openDirOps.symm ▸ h.openedDir
    | noOpenDirOps => exact tableSum_noOpenDirOps.symm ▸ h.unopenedDir
    | newFile => exact (tableSum_rest cgv.newFileRatio rfl fun _ => rfl).ge
    | openFile => exact (tableSum_rest cgv.openFileRatio rfl fun _ => rfl).ge
    | openFileOps => exact tableSum_openFileOps.symm ▸ h.openedFile
    | noOpenFileOps => exact tableSum_noOpenFileOps.symm ▸ h.unopenedFile
    | symlinkOps => exact tableSum_symlinkOps.symm ▸ h.symbolLink
  · intro h
    exact ⟨tableSum_opsFileType ▸ h .opsFileType, tableSum_openDirOps ▸ h .openDirOps,
      tableSum_noOpenDirOps ▸ h .noOpenDirOps, tableSum_openFileOps ▸ h .openFileOps,
      tableSum_noOpenFileOps ▸ h .noOpenFileOps, tableSum_symlinkOps ▸ h .symlinkOps⟩

theorem cover_iff (hA : 0 < accuracy) : TablesCover cgv ↔ EntriesSum cgv := by
  rw [entriesSum_iff]
  constructor
  · exact fun h type => (covers_iff hA type).1 (h.layouts type)
  · exact fun h => ⟨fun type => (covers_iff hA type).2 (h type),
      fun type => randomHandler_ne_neg_one hA (h type)⟩

theorem Whole.add {a b : ℚ} (ha : Whole accuracy a) (hb : Whole accuracy b) :
    Whole accuracy (a + b) := by
  obtain ⟨m, hm⟩ := ha
  obtain ⟨n, hn⟩ := hb
  exact ⟨m + n, by rw [mul_add, hm, hn, Nat.cast_add]⟩

theorem whole_tableSum (hA : 0 < accuracy) (cgv : Ratios accuracy) (type : LayoutType) :
    Whole accuracy (cgv.tableSum type) := by
  obtain ⟨n, _, hn⟩ := createLayoutTable_tiles hA cgv type
  exact ⟨n, hn.symm⟩

/-- Up to this accuracy the tolerance of the check is less than one hash value. -/
theorem sum_eq_one {sum : ℚ} (hA : 0 < accuracy) (hle : accuracy ≤ 10 ^ 6)
    (hw : Whole accuracy sum) (h : SumIsOne sum) : sum = 1 := by
  obtain ⟨n, hn⟩ := hw
  have hpos : (0 : ℚ) < accuracy := Nat.cast_pos.2 hA
  have hle' : (accuracy : ℚ) ≤ 10 ^ 6 := by exact_mod_cast hle
  obtain ⟨hlow, hhigh⟩ := abs_lt.1 h
  have hlow' : (accuracy : ℚ) < n + 1 := by
    rw [← hn]
    nlinarith
  have hhigh' : (n : ℚ) < accuracy + 1 := by
    rw [← hn]
    nlinarith
  have heq : n = accuracy := by
    have h₁ : accuracy < n + 1 := by exact_mod_cast hlow'
    have h₂ : n < accuracy + 1 := by exact_mod_cast hhigh'
    omega
  rw [heq] at hn
  exact mul_left_cancel₀ hpos.ne' (hn.trans (mul_one _).symm)

theorem Ratio.val_nonneg (r : Ratio accuracy) : 0 ≤ r.val := by
  obtain ⟨n, _, hn⟩ := r.unit
  rw [hn]
  positivity

theorem entriesSum_iff_lk (hA : 0 < accuracy) (hle : accuracy ≤ 10 ^ 6) (h : SumChecks cgv) :
    EntriesSum cgv ↔ cgv.lkOpenDir.val = 0 := by
  have hdir : Whole accuracy cgv.openedDir := by
    have hsum := (whole_tableSum hA cgv .openDirOps).add (cgv.lkOpenDir.whole hA)
    rwa [tableSum_openDirOps, sub_add_cancel] at hsum
  have hglobal := sum_eq_one hA hle (tableSum_opsFileType ▸ whole_tableSum hA cgv _) h.global
  have hopenedDir := sum_eq_one hA hle hdir h.openedDir
  have hunopenedDir := sum_eq_one hA hle (tableSum_noOpenDirOps ▸ whole_tableSum hA cgv _) h.unopenedDir
  have hopenedFile := sum_eq_one hA hle (tableSum_openFileOps ▸ whole_tableSum hA cgv _) h.openedFile
  have hunopenedFile :=
    sum_eq_one hA hle (tableSum_noOpenFileOps ▸ whole_tableSum hA cgv _) h.unopenedFile
  have hsymbolLink := sum_eq_one hA hle (tableSum_symlinkOps ▸ whole_tableSum hA cgv _) h.symbolLink
  have hnonneg := cgv.lkOpenDir.val_nonneg
  constructor
  · intro hsum
    have hlk := hsum.openedDir
    linarith
  · intro hlk
    exact ⟨hglobal.ge, by rw [hlk, sub_zero, hopenedDir], hunopenedDir.ge, hopenedFile.ge,
      hunopenedFile.ge, hsymbolLink.ge⟩

/-- `lk_open_dir` is in the sum that is checked and in no table, and from an
accuracy of `10 ^ 7` on the check lets sums below 1 pass. -/
theorem tablesCover_iff (d : ℕ) (cgv : Ratios (10 ^ (2 + d))) (h : SumChecks cgv) :
    (TablesCover cgv ↔ EntriesSum cgv) ∧
      (d ≤ 4 → (TablesCover cgv ↔ cgv.lkOpenDir.val = 0)) := by
  have hA : 0 < 10 ^ (2 + d) := by positivity
  refine ⟨cover_iff hA, fun hd => ?_⟩
  have hle : 10 ^ (2 + d) ≤ 10 ^ 6 := Nat.pow_le_pow_right (by decide) (by omega)
  exact (cover_iff hA).trans (entriesSum_iff_lk hA hle h)

def percent (n : ℕ) (h : n ≤ 10000) : Ratio (10 ^ (2 + 2)) := ⟨n / 10000, n, h, by norm_num⟩

def shippedConf : Ratios (10 ^ (2 + 2)) where
  dirOpRatio := percent 1700 (by decide)
  symbolLinkOpRatio := percent 300 (by decide)
  fileOpRatio := percent 8000 (by decide)
  newDirRatio := percent 800 (by decide)
  openDirRatio := percent 8922 (by decide)
  newFileRatio := percent 5000 (by decide)
  openFileRatio := percent 9000 (by decide)
  fsyncOpenDir := percent 1000 (by decide)
  fsetxattrOpenDir := percent 1500 (by decide)
  fgetxattrOpenDir := percent 1500 (by decide)
  fremovexattrOpenDir := percent 1000 (by decide)
  readdirOpenDir := percent 1000 (by decide)
  lkOpenDir := percent 0 (by decide)
  fchmodOpenDir := percent 1000 (by decide)
  fchownOpenDir := percent 1000 (by decide)
  futimesOpenDir := percent 1000 (by decide)
  fstatOpenDir := percent 1000 (by decide)
  accessUnopenDir := percent 1000 (by decide)
  renameUnopenDir := percent 0 (by decide)
  symlinkUnopenDir := percent 1000 (by decide)
  setxattrUnopenDir := percent 1000 (by decide)
  getxattrUnopenDir := percent 1000 (by decide)
  removexattrUnopenDir := percent 1000 (by decide)
  chownUnopenDir := percent 1000 (by decide)
  chmodUnopenDir := percent 1000 (by decide)
  utimesUnopenDir := percent 1000 (by decide)
  rmdirUnopenDir := percent 0 (by decide)
  statUnopenDir := percent 1000 (by decide)
  statfsUnopenDir := percent 1000 (by decide)
  writevOpenFile := percent 1000 (by decide)
  readvOpenFile := percent 1000 (by decide)
  fallocateOpenFile := percent 1000 (by decide)
  ftruncateOpenFile := percent 1000 (by decide)
  fsyncOpenFile := percent 1000 (by decide)
  fsetxattrOpenFile := percent 1000 (by decide)
  fgetxattrOpenFile := percent 1000 (by decide)
  fremovexattrOpenFile := percent 500 (by decide)
  lkOpenFile := percent 500 (by decide)
  fchownOpenFile := percent 500 (by decide)
  fchmodOpenFile := percent 500 (by decide)
  futimesOpenFile := percent 500 (by decide)
  fstatOpenFile := percent 500 (by decide)
  renameUnopenFile := percent 0 (by decide)
  symlinkUnopenFile := percent 2000 (by decide)
  linkUnopenFile := percent 1000 (by decide)
  truncateUnopenFile := percent 1000 (by decide)
  setxattrUnopenFile := percent 1000 (by decide)
  getxattrUnopenFile := percent 1000 (by decide)
  removexattrUnopenFile := percent 500 (by decide)
  accessUnopenFile := percent 500 (by decide)
  chownUnopenFile := percent 500 (by decide)
  chmodUnopenFile := percent 500 (by decide)
  utimesUnopenFile := percent 500 (by decide)
  statUnopenFile := percent 500 (by decide)
  unlinkUnopenFile := percent 500 (by decide)
  statfsUnopenFile := percent 500 (by decide)
  readlinkSymbolLink := percent 5000 (by decide)
  unlinkSymbolLink := percent 5000 (by decide)

theorem shippedConf_sumChecks : SumChecks shippedConf where
  global := by norm_num [SumIsOne, Ratios.global, shippedConf, percent]
  openedDir := by norm_num [SumIsOne, Ratios.openedDir, shippedConf, percent]
  unopenedDir := by norm_num [SumIsOne, Ratios.unopenedDir, shippedConf, percent]
  openedFile := by norm_num [SumIsOne, Ratios.openedFile, shippedConf, percent]
  unopenedFile := by norm_num [SumIsOne, Ratios.unopenedFile, shippedConf, percent]
  symbolLink := by norm_num [SumIsOne, Ratios.symbolLink, shippedConf, percent]

theorem tablesCover_iff_shippedConf : SumChecks shippedConf ∧ TablesCover shippedConf :=
  ⟨shippedConf_sumChecks, ((tablesCover_iff 2 shippedConf shippedConf_sumChecks).2 (by decide)).2
    (by norm_num [shippedConf, percent])⟩

def lkConf : Ratios (10 ^ (2 + 2)) :=
  { shippedConf with
    fsyncOpenDir := percent 0 (by decide)
    lkOpenDir := percent 1000 (by decide) }

theorem tablesCover_false_lkOpenDir :
    SumChecks lkConf ∧ ¬TablesCover lkConf ∧ lkConf.randomHandler .openDirOps 9999 = -1 := by
  have hsum : lkConf.tableSum .openDirOps = 9 / 10 := by
    rw [tableSum_openDirOps]
    norm_num [Ratios.openedDir, lkConf, shippedConf, percent]
  have hnull : lkConf.randomHandler .openDirOps 9999 = -1 := by
    rw [randomHandler_eq_neg_one (by decide), hsum]
    norm_num
  have hopened : SumIsOne lkConf.openedDir := by
    norm_num [SumIsOne, Ratios.openedDir, lkConf, shippedConf, percent]
  exact ⟨{ shippedConf_sumChecks with openedDir := hopened }, fun h => h.handler _ _ hnull, hnull⟩

end MyScripts.Shark
