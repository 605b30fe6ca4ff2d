import MyScripts.Shark.LayoutTable
import Mathlib.Tactic.IntervalCases

/-!
# How often each key is drawn

A round of `create_layout_table` makes the interval of its key as long as
`accuracy` times the ratio of the key, also where the switch has no case and
the interval is empty. The intervals do not meet, so `random_handler` finds the
same one in whatever order they are listed.
-/
namespace MyScripts.Shark
open Library.Slots

variable {accuracy : ℕ} {cgv : Ratios accuracy} {type : LayoutType} {i j n : ℕ}

def randomHandlerIn (accuracy : ℕ) (layouts : List Layout) (random : ℕ) : ℤ :=
  if accuracy = 0 then -1 else (lookup layouts (random % accuracy)).getD (-1)

theorem randomHandlerIn_createLayoutTable (cgv : Ratios accuracy) (type : LayoutType)
    (random : ℕ) :
    randomHandlerIn accuracy (cgv.createLayoutTable type) random = cgv.randomHandler type random :=
  rfl

namespace Ratios

/-- The section has a ratio for `LK` too, but there is no such operation. -/
def openDirRatios (cgv : Ratios accuracy) : List (OpenedDirOp × Ratio accuracy) :=
  [(.fsync, cgv.fsyncOpenDir), (.fsetxattr, cgv.fsetxattrOpenDir),
    (.fgetxattr, cgv.fgetxattrOpenDir), (.fremovexattr, cgv.fremovexattrOpenDir),
    (.readdir, cgv.readdirOpenDir), (.fchmod, cgv.fchmodOpenDir), (.fchown, cgv.fchownOpenDir),
    (.futimes, cgv.futimesOpenDir), (.fstat, cgv.fstatOpenDir)]

def noOpenDirRatios (cgv : Ratios accuracy) : List (NoOpenDirOp × Ratio accuracy) :=
  [(.access, cgv.accessUnopenDir), (.rename, cgv.renameUnopenDir),
    (.symlink, cgv.symlinkUnopenDir), (.setxattr, cgv.setxattrUnopenDir),
    (.getxattr, cgv.getxattrUnopenDir), (.removexattr, cgv.removexattrUnopenDir),
    (.chmod, cgv.chmodUnopenDir), (.rmdir, cgv.rmdirUnopenDir), (.statfs, cgv.statfsUnopenDir),
    (.chown, cgv.chownUnopenDir), (.utimes, cgv.utimesUnopenDir), (.stat, cgv.statUnopenDir)]

def openFileRatios (cgv : Ratios accuracy) : List (OpenedFileOp × Ratio accuracy) :=
  [(.writev, cgv.writevOpenFile), (.readv, cgv.readvOpenFile),
    (.fallocate, cgv.fallocateOpenFile), (.ftruncate, cgv.ftruncateOpenFile),
    (.fsync, cgv.fsyncOpenFile), (.fsetxattr, cgv.fsetxattrOpenFile),
    (.fgetxattr, cgv.fgetxattrOpenFile), (.fremovexattr, cgv.fremovexattrOpenFile),
    (.lk, cgv.lkOpenFile), (.fchmod, cgv.fchmodOpenFile), (.fchown, cgv.fchownOpenFile),
    (.futimes, cgv.futimesOpenFile), (.fstat, cgv.fstatOpenFile)]

def noOpenFileRatios (cgv : Ratios accuracy) : List (NoOpenFileOp × Ratio accuracy) :=
  [(.link, cgv.linkUnopenFile), (.rename, cgv.renameUnopenFile),
    (.symlink, cgv.symlinkUnopenFile), (.setxattr, cgv.setxattrUnopenFile),
    (.getxattr, cgv.getxattrUnopenFile), (.removexattr, cgv.removexattrUnopenFile),
    (.access, cgv.accessUnopenFile), (.truncate, cgv.truncateUnopenFile),
    (.chmod, cgv.chmodUnopenFile), (.unlink, cgv.unlinkUnopenFile),
    (.statfs, cgv.statfsUnopenFile), (.chown, cgv.chownUnopenFile),
    (.utimes, cgv.utimesUnopenFile), (.stat, cgv.statUnopenFile)]

def ofCode {α : Type} (code : α → ℕ) (ratios : List (α × Ratio accuracy)) (key : ℤ) : ℚ :=
  ((ratios.filter fun r => (code r.1 : ℤ) = key).map fun r => r.2.val).sum

end Ratios

/-- The ratio that the configuration has for what a key stands for. -/
def Ratios.configured (cgv : Ratios accuracy) (type : LayoutType) (key : ℤ) : ℚ :=
  match type with
  | .opsFileType =>
    if key = FileType.dir.code then cgv.dirOpRatio.val
    else if key = FileType.symlink.code then cgv.symbolLinkOpRatio.val
    else if key = FileType.file.code then cgv.fileOpRatio.val else 0
  | .newDir => if key = 1 then cgv.newDirRatio.val else 1 - cgv.newDirRatio.val
  | .openDir =>
    if key = OpType.openedDir.code then cgv.openDirRatio.val else 1 - cgv.openDirRatio.val
  | .openDirOps => ofCode OpenedDirOp.code cgv.openDirRatios key
  | .noOpenDirOps => ofCode NoOpenDirOp.code cgv.noOpenDirRatios key
  | .newFile => if key = 1 then cgv.newFileRatio.val else 1 - cgv.newFileRatio.val
  | .openFile =>
    if key = OpType.openedFile.code then cgv.openFileRatio.val else 1 - cgv.openFileRatio.val
  | .openFileOps => ofCode OpenedFileOp.code cgv.openFileRatios key
  | .noOpenFileOps => ofCode NoOpenFileOp.code cgv.noOpenFileRatios key
  | .symlinkOps =>
    if key = SymlinkOp.readlink.code then cgv.readlinkSymbolLink.val
    else if key = SymlinkOp.unlink.code then cgv.unlinkSymbolLink.val else 0

theorem LayoutType.key_two_cases {k₁ k₂ : ℤ} (hne : k₁ ≠ k₂) (hi : i < 2) (hj : j < 2)
    (h : (if i + 1 = 1 then k₁ else k₂) = if j + 1 = 1 then k₁ else k₂) : i = j := by
  split_ifs at h with hi' hj' hj'
  · omega
  · exact absurd h hne
  · exact absurd h.symm hne
  · omega

theorem LayoutType.key_inj (type : LayoutType) (hi : i < type.layoutCnt) (hj : j < type.layoutCnt)
    (h : type.key (i + 1) = type.key (j + 1)) : i = j := by
  cases type with
  | newDir | newFile => exact key_two_cases (by decide) hi hj h
  | openDir | openFile => exact key_two_cases (by decide) hi hj h
  | opsFileType | openDirOps | noOpenDirOps | openFileOps | noOpenFileOps | symlinkOps =>
    have hcast : ((i + 1 : ℕ) : ℤ) = ((j + 1 : ℕ) : ℤ) := h
    omega

theorem configured_key (cgv : Ratios accuracy) (hi : i < type.layoutCnt) :
    cgv.configured type (type.key (i + 1)) = cgv.share type (i + 1) := by
  cases type with
  | openDirOps =>
    have hlt : i < 9 := hi
    interval_cases i <;> simp [Ratios.configured, Ratios.ofCode, Ratios.openDirRatios,
      OpenedDirOp.code, LayoutType.key, Ratios.share, Ratios.openDirShare, OpenedDirOp.ofCode]
  | noOpenDirOps =>
    have hlt : i < 12 := hi
    interval_cases i <;> simp [Ratios.configured, Ratios.ofCode, Ratios.noOpenDirRatios,
      NoOpenDirOp.code, LayoutType.key, Ratios.share, Ratios.noOpenDirShare, NoOpenDirOp.ofCode]
  | openFileOps =>
    have hlt : i < 13 := hi
    interval_cases i <;> simp [Ratios.configured, Ratios.ofCode, Ratios.openFileRatios,
      OpenedFileOp.code, LayoutType.key, Ratios.share, Ratios.openFileShare, OpenedFileOp.ofCode]
  | noOpenFileOps =>
    have hlt : i < 14 := hi
    interval_cases i <;> simp [Ratios.configured, Ratios.ofCode, Ratios.noOpenFileRatios,
      NoOpenFileOp.code, LayoutType.key, Ratios.share, Ratios.noOpenFileShare,
      NoOpenFileOp.ofCode]
  | newDir | newFile =>
    by_cases h : i = 0
    · simp [Ratios.configured, Ratios.share, LayoutType.key, h]
    · simp [Ratios.configured, Ratios.share, LayoutType.key, h]
  | openDir | openFile =>
    by_cases h : i = 0
    · simp [Ratios.configured, Ratios.share, LayoutType.key, h, OpType.code]
    · simp [Ratios.configured, Ratios.share, LayoutType.key, h, OpType.code]
  | opsFileType =>
    have hcases : i = 0 ∨ i = 1 ∨ i = 2 := by
      simp only [LayoutType.layoutCnt] at hi
      omega
    rcases hcases with rfl | rfl | rfl <;>
      simp [Ratios.configured, Ratios.share, LayoutType.key, FileType.code]
  | symlinkOps =>
    have hcases : i = 0 ∨ i = 1 := by
      simp only [LayoutType.layoutCnt] at hi
      omega
    rcases hcases with rfl | rfl <;>
      simp [Ratios.configured, Ratios.share, LayoutType.key, SymlinkOp.code]

def Ratios.layoutAt (cgv : Ratios accuracy) (type : LayoutType) (i : ℕ) : Layout :=
  ⟨(cgv.layoutLoop type i).1, (cgv.layoutLoop type (i + 1)).1, type.key (i + 1)⟩

theorem mem_layoutLoop {l : Layout} :
    l ∈ (cgv.layoutLoop type n).2 ↔ ∃ i < n, l = cgv.layoutAt type i := by
  induction n with
  | zero => simp [Ratios.layoutLoop]
  | succ n ih =>
    have hcons : (cgv.layoutLoop type (n + 1)).2 =
      cgv.layoutAt type n :: (cgv.layoutLoop type n).2 := rfl
    rw [hcons, List.mem_cons, ih]
    constructor
    · rintro (rfl | ⟨i, hi, rfl⟩)
      · exact ⟨n, Nat.lt_succ_self n, rfl⟩
      · exact ⟨i, hi.trans (Nat.lt_succ_self n), rfl⟩
    · rintro ⟨i, hi, rfl⟩
      rcases Nat.lt_succ_iff_lt_or_eq.1 hi with hlt | rfl
      · exact Or.inr ⟨i, hlt, rfl⟩
      · exact Or.inl rfl

theorem layoutAt_length (hA : 0 < accuracy) (cgv : Ratios accuracy) (type : LayoutType) (i : ℕ) :
    ((cgv.layoutAt type i).stop - (cgv.layoutAt type i).start : ℕ) =
      (accuracy : ℚ) * cgv.share type (i + 1) := by
  obtain ⟨w, hw⟩ := cgv.whole_share hA type (i + 1)
  simp only [Ratios.layoutAt, layoutLoop_succ hw, hw, Nat.add_sub_cancel_left]

theorem layoutAt_stop_le (hA : 0 < accuracy)
    (h : ∑ j ∈ Finset.range (i + 1), cgv.share type (j + 1) ≤ 1) :
    (cgv.layoutAt type i).stop ≤ accuracy := by
  have hsum := (layoutLoop_tiles hA cgv type (i + 1)).2
  have hle : ((cgv.layoutLoop type (i + 1)).1 : ℚ) ≤ accuracy := by
    rw [hsum]
    exact mul_le_of_le_one_right (Nat.cast_nonneg _) h
  exact_mod_cast hle

theorem randomHandlerIn_eq_iff (hA : 0 < accuracy) {layouts : List Layout} {h : ℕ}
    (hh : h < accuracy) (i : ℕ) :
    randomHandlerIn accuracy layouts h = type.key i ↔ lookup layouts h = some (type.key i) := by
  have hnonneg := type.key_nonneg i
  rw [randomHandlerIn, if_neg hA.ne', Nat.mod_eq_of_lt hh]
  cases lookup layouts h with
  | none =>
    simp only [Option.getD_none, reduceCtorEq, iff_false]
    omega
  | some k => simp

/-- A key is returned for `accuracy` times its ratio many hash values, whatever
the order of the layouts, and no hash value is in two of them. -/
theorem frequency (d : ℕ) (cgv : Ratios (10 ^ (2 + d))) (type : LayoutType)
    {layouts : List Layout} (h : layouts.Perm (cgv.createLayoutTable type)) :
    (∀ l ∈ layouts, ∃ i < type.layoutCnt, l.key = type.key (i + 1) ∧
      (∑ j ∈ Finset.range (i + 1), cgv.share type (j + 1) ≤ 1 →
        (((Finset.range (10 ^ (2 + d))).filter fun hash =>
            randomHandlerIn (10 ^ (2 + d)) layouts hash = l.key).card : ℚ) =
          10 ^ (2 + d) * cgv.configured type l.key)) ∧
      ∀ hash, holders layouts hash ≤ 1 := by
  have hA : 0 < 10 ^ (2 + d) := by positivity
  have htiles := (layoutLoop_tiles hA cgv type type.layoutCnt).1.perm h
  refine ⟨fun l hl => ?_, htiles.holders_le_one⟩
  obtain ⟨i, hi, rfl⟩ := mem_layoutLoop.1 (h.mem_iff.1 hl)
  refine ⟨i, hi, rfl, fun hsum => ?_⟩
  have honly : ∀ t ∈ layouts, t.key = (cgv.layoutAt type i).key → t = cgv.layoutAt type i := by
    intro t ht hkey
    obtain ⟨j, hj, rfl⟩ := mem_layoutLoop.1 (h.mem_iff.1 ht)
    rw [type.key_inj hj hi hkey]
  have hcard := htiles.card_lookup hl honly (layoutAt_stop_le hA hsum)
  have hfilter : ((Finset.range (10 ^ (2 + d))).filter fun hash =>
      randomHandlerIn (10 ^ (2 + d)) layouts hash = (cgv.layoutAt type i).key) =
      (Finset.range (10 ^ (2 + d))).filter fun hash =>
        lookup layouts hash = some (cgv.layoutAt type i).key :=
    Finset.filter_congr fun hash hhash =>
      randomHandlerIn_eq_iff hA (Finset.mem_range.1 hhash) (i + 1)
  rw [hfilter, hcard, layoutAt_length hA]
  have hconf := configured_key cgv hi
  simp only [Ratios.layoutAt, hconf]
  push_cast
  rfl

theorem frequency_reverse :
    ((Finset.range (10 ^ (2 + 2))).filter fun hash =>
        randomHandlerIn (10 ^ (2 + 2)) (shippedConf.createLayoutTable .openDirOps).reverse hash =
          OpenedDirOp.fsync.code).card = 1000 ∧
      ∀ hash, holders (shippedConf.createLayoutTable .openDirOps).reverse hash ≤ 1 := by
  have h := frequency 2 shippedConf .openDirOps (List.reverse_perm _)
  refine ⟨?_, h.2⟩
  have hmem : shippedConf.layoutAt .openDirOps 0 ∈ shippedConf.createLayoutTable .openDirOps :=
    mem_layoutLoop.2 ⟨0, by decide, rfl⟩
  obtain ⟨i, hi, hkey, hcard⟩ := h.1 _ (List.mem_reverse.2 hmem)
  have hzero : 0 = i := LayoutType.openDirOps.key_inj (by decide) hi hkey
  subst hzero
  have hshare : shippedConf.share .openDirOps 1 = 1 / 10 := by
    norm_num [Ratios.share, Ratios.openDirShare, OpenedDirOp.ofCode, shippedConf, percent]
  have hsum : ∑ j ∈ Finset.range (0 + 1), shippedConf.share .openDirOps (j + 1) ≤ 1 := by
    rw [Finset.sum_range_one, hshare]
    norm_num
  have hcount := hcard hsum
  rw [hkey, configured_key shippedConf hi, hshare] at hcount
  refine Nat.cast_injective (R := ℚ) (hcount.trans ?_)
  norm_num

end MyScripts.Shark
