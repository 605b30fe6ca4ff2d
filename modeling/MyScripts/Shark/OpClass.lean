import MyScripts.Shark.LayoutTable
import MyScripts.Shark.FileTableRuns

/-!
# The class of the operations on an existing node

`file_oplist_create` draws whether an existing directory or file is to be
opened. The two tables hold the constants of `op_type_t` as their keys, and the
code compares what it has drawn with 1.
-/
namespace MyScripts.Shark
open Library.Run Library.Slots Library.Decimal FileTable Journal

inductive Existing
  | dir
  | file
  deriving DecidableEq, Repr

namespace Existing

def type : Existing → FileType
  | dir => .dir
  | file => .file

def layoutType : Existing → LayoutType
  | dir => .openDir
  | file => .openFile

def opened : Existing → OpType
  | dir => .openedDir
  | file => .openedFile

def noOpen : Existing → OpType
  | dir => .noOpenDir
  | file => .noOpenFile

def ratio {accuracy : ℕ} (cgv : Ratios accuracy) : Existing → ℚ
  | dir => cgv.openDirRatio.val
  | file => cgv.openFileRatio.val

/-- What `file_oplist_create` makes of the key. -/
def opType (e : Existing) (key : ℤ) : OpType := if key = 1 then e.opened else e.noOpen

end Existing

variable {accuracy : ℕ} {cgv : Ratios accuracy} {e : Existing}

theorem layoutCnt_layoutType : e.layoutType.layoutCnt = 2 := by
  cases e <;> rfl

theorem share_one : cgv.share e.layoutType 1 = e.ratio cgv := by
  cases e <;> rfl

theorem share_two : cgv.share e.layoutType 2 = 1 - e.ratio cgv := by
  cases e <;> rfl

theorem key_one : e.layoutType.key 1 = e.opened.code := by
  cases e <;> rfl

theorem key_two : e.layoutType.key 2 = e.noOpen.code := by
  cases e <;> rfl

theorem ratio_units (hA : 0 < accuracy) (cgv : Ratios accuracy) (e : Existing) :
    ∃ n : ℕ, n ≤ accuracy ∧ (accuracy : ℚ) * e.ratio cgv = n := by
  cases e with
  | dir => exact cgv.openDirRatio.units hA
  | file => exact cgv.openFileRatio.units hA

theorem openTable_eq {n : ℕ} (hn : n ≤ accuracy) (hratio : (accuracy : ℚ) * e.ratio cgv = n) :
    cgv.createLayoutTable e.layoutType =
      [⟨n, accuracy, e.noOpen.code⟩, ⟨0, n, e.opened.code⟩] := by
  have hfirst : (accuracy : ℚ) * cgv.share e.layoutType (0 + 1) = n := by rw [share_one, hratio]
  have hsecond : (accuracy : ℚ) * cgv.share e.layoutType (1 + 1) = (accuracy - n : ℕ) := by
    rw [share_two, mul_sub, mul_one, hratio, Nat.cast_sub hn]
  rw [Ratios.createLayoutTable, layoutCnt_layoutType, layoutLoop_succ hsecond,
    layoutLoop_succ hfirst]
  simp only [Ratios.layoutLoop, Nat.zero_add, Nat.add_sub_cancel' hn, Nat.reduceAdd, key_one,
    key_two]

theorem randomHandler_openTable (hA : 0 < accuracy) {n : ℕ} (hn : n ≤ accuracy)
    (hratio : (accuracy : ℚ) * e.ratio cgv = n) (random : ℕ) :
    cgv.randomHandler e.layoutType random =
      if random % accuracy < n then (e.opened.code : ℤ) else e.noOpen.code := by
  have hlt := Nat.mod_lt random hA
  rw [Ratios.randomHandler, if_neg (Nat.pos_iff_ne_zero.1 hA), openTable_eq hn hratio]
  split_ifs with h
  · have hnot : ¬(Slot.mk n accuracy (e.noOpen.code : ℤ)).Holds (random % accuracy) :=
      fun hs => absurd hs.1 (Nat.not_le.2 h)
    have hholds : (Slot.mk 0 n (e.opened.code : ℤ)).Holds (random % accuracy) :=
      ⟨Nat.zero_le _, h⟩
    rw [lookup_cons_of_not_holds hnot, lookup_cons_of_holds hholds, Option.getD_some]
  · have hholds : (Slot.mk n accuracy (e.noOpen.code : ℤ)).Holds (random % accuracy) :=
      ⟨Nat.le_of_not_lt h, hlt⟩
    rw [lookup_cons_of_holds hholds, Option.getD_some]

def Existing.list (c : Config) (t : Table) (index : CInt) (d : ListDraws) :
    Existing → Option (FileOps × Table)
  | dir => dirList c t index d
  | file => fileList c t index d

variable {c : Config} {t t' : Table} {index : CInt} {d : ListDraws} {l : FileOps}

theorem fileOplistCreate_existing (htype : d.type.1 = e.type.code) (hnew : d.isNew.1 ≠ 1) :
    fileOplistCreate c t index d = e.list c t index d := by
  cases e with
  | dir => rw [fileOplistCreate, if_pos (show d.type.1 = FileType.dir.code from htype), if_neg hnew,
      Existing.list]
  | file =>
    have hdir : d.type.1 ≠ FileType.dir.code := by rw [htype]; decide
    have hsymlink : d.type.1 ≠ FileType.symlink.code := by rw [htype]; decide
    rw [fileOplistCreate, if_neg hdir, if_neg hsymlink, if_neg hnew, Existing.list]

theorem Existing.list_opType (h : e.list c t index d = some (l, t')) :
    l.opType = e.opType d.openKey.1 := by
  cases e with
  | dir =>
    obtain ⟨⟨n, t₁⟩, _, h⟩ := Option.bind_eq_some_iff.1 h
    obtain ⟨⟨made, t₂⟩, _, h⟩ := Option.map_eq_some_iff.1 h
    cases h
    rfl
  | file =>
    obtain ⟨⟨n, t₁⟩, _, h⟩ := Option.bind_eq_some_iff.1 h
    obtain ⟨⟨made, t₂⟩, _, h⟩ := Option.map_eq_some_iff.1 h
    cases h
    rfl

/-- The list has the class that was drawn, and so many hash values give each class. -/
structure ClassDrawn (cgv : Ratios accuracy) (e : Existing) : Prop where
  drawn : ∀ c es s index (d : ListDraws) l t, exec (step c) State.init es = some s →
    d.type.1 = e.type.code → d.isNew.1 ≠ 1 →
    ∀ random, d.openKey.1 = cgv.randomHandler e.layoutType random →
      fileOplistCreate c s.table index d = some (l, t) →
        (l.opType.code : ℤ) = cgv.randomHandler e.layoutType random
  openedCount : (((Finset.range accuracy).filter fun h =>
    e.opType (cgv.randomHandler e.layoutType h) = e.opened).card : ℚ) = accuracy * e.ratio cgv
  noOpenCount : (((Finset.range accuracy).filter fun h =>
    e.opType (cgv.randomHandler e.layoutType h) = e.noOpen).card : ℚ) =
      accuracy - accuracy * e.ratio cgv

def noOps : Config := ⟨1, 0, 0, 0, 0, 0⟩

def existingDraws (e : Existing) (key : CInt) : ListDraws where
  type := smallInt e.type.code
  isNew := smallInt 0
  openKey := key
  pick := [0]
  create := sampleCreate
  ops := fun _ => (0, ⟨false, sampleCreate, ⟨[], word_nil⟩, ⟨[], word_nil⟩, 0, 0, 0, 0, 0⟩)

theorem exists_list (e : Existing) (key : CInt) :
    ∃ s, exec (step noOps) State.init [.create e.type false sampleCreate] = some s ∧
      ∃ l t, fileOplistCreate noOps s.table (smallInt 0) (existingDraws e key) = some (l, t) := by
  obtain ⟨s, n, t, hs, hidle⟩ : ∃ s n t,
      exec (step noOps) State.init [.create e.type false sampleCreate] = some s ∧
        selectIdle s.table e.type [0] = some (n, t) := by
    cases e
    · exact ⟨_, _, _, rfl, rfl⟩
    · exact ⟨_, _, _, rfl, rfl⟩
  have hops : ∀ opType draws, fileOpsNew noOps opType draws 0 0 t = some ([], t) :=
    fun _ _ => rfl
  have hnew : (existingDraws e key).isNew.1 ≠ 1 := by
    show (smallInt 0).1 ≠ 1
    decide
  refine ⟨s, hs, ?_⟩
  rw [fileOplistCreate_existing (e := e) (by cases e <;> rfl) hnew]
  cases e with
  | dir =>
    have hdir : selectIdle s.table .dir (existingDraws .dir key).pick = some (n, t) := hidle
    rw [Existing.list, dirList, hdir]
    simp only [noOps, ite_self, Option.bind_some] at hops ⊢
    exact ⟨_, _, by rw [hops]; rfl⟩
  | file =>
    have hfile : selectIdle s.table .file (existingDraws .file key).pick = some (n, t) := hidle
    rw [Existing.list, fileList, hfile]
    simp only [noOps, ite_self, Option.bind_some] at hops ⊢
    exact ⟨_, _, by rw [hops]; rfl⟩

theorem opType_dir_exchanged :
    Existing.dir.opType Existing.dir.opened.code = Existing.dir.noOpen ∧
      Existing.dir.opType Existing.dir.noOpen.code = Existing.dir.opened := by
  decide

theorem opType_dir_code_ne {key : ℤ} (h : key = Existing.dir.opened.code ∨
    key = Existing.dir.noOpen.code) : ((Existing.dir.opType key).code : ℤ) ≠ key := by
  rcases h with rfl | rfl
  · rw [opType_dir_exchanged.1]
    decide
  · rw [opType_dir_exchanged.2]
    decide

theorem opType_file {key : ℤ} (h : key = Existing.file.opened.code ∨
    key = Existing.file.noOpen.code) : Existing.file.opType key = Existing.file.noOpen := by
  rcases h with rfl | rfl <;> decide

theorem randomHandler_openTable_cases (hA : 0 < accuracy) (cgv : Ratios accuracy) (e : Existing)
    (random : ℕ) : cgv.randomHandler e.layoutType random = e.opened.code ∨
      cgv.randomHandler e.layoutType random = e.noOpen.code := by
  obtain ⟨n, hn, hratio⟩ := ratio_units hA cgv e
  rw [randomHandler_openTable hA hn hratio]
  split_ifs
  · exact Or.inl rfl
  · exact Or.inr rfl

theorem opType_file_draw (hA : 0 < accuracy) (random : ℕ) :
    Existing.file.opType (cgv.randomHandler Existing.file.layoutType random) =
      Existing.file.noOpen :=
  opType_file (randomHandler_openTable_cases hA cgv .file random)

theorem opened_file_eq_empty (hA : 0 < accuracy) :
    ((Finset.range accuracy).filter fun h => Existing.file.opType
      (cgv.randomHandler Existing.file.layoutType h) = Existing.file.opened) = ∅ := by
  refine Finset.filter_eq_empty_iff.2 fun h _ => ?_
  rw [opType_file_draw hA]
  decide

theorem not_classDrawn_dir (hA : 0 < accuracy) : ¬ClassDrawn cgv .dir := by
  intro h
  have hkey := randomHandler_openTable_cases hA cgv .dir 0
  have hrange : InInt32 (cgv.randomHandler Existing.dir.layoutType 0) := by
    rcases hkey with hkey | hkey <;> rw [hkey] <;> decide
  obtain ⟨s, hs, l, t, hl⟩ := exists_list .dir ⟨_, hrange⟩
  have hnew : (existingDraws .dir ⟨_, hrange⟩).isNew.1 ≠ 1 := by
    show (smallInt 0).1 ≠ 1
    decide
  have hdrawn := h.drawn _ _ _ _ _ _ _ hs rfl hnew 0 rfl hl
  rw [fileOplistCreate_existing (e := .dir) rfl hnew] at hl
  rw [Existing.list_opType hl] at hdrawn
  exact opType_dir_code_ne hkey hdrawn

theorem classDrawn_file_iff (hA : 0 < accuracy) :
    ClassDrawn cgv .file ↔ cgv.openFileRatio.val = 0 := by
  have hne : (accuracy : ℚ) ≠ 0 := Nat.cast_ne_zero.2 (Nat.pos_iff_ne_zero.1 hA)
  constructor
  · intro h
    have hcount := h.openedCount
    rw [opened_file_eq_empty hA, Finset.card_empty, Nat.cast_zero] at hcount
    exact (mul_eq_zero.1 hcount.symm).resolve_left hne
  · intro hzero
    have hratio : (accuracy : ℚ) * Existing.file.ratio cgv = (0 : ℕ) := by
      rw [Existing.ratio, hzero, mul_zero, Nat.cast_zero]
    have hkey : ∀ random,
        cgv.randomHandler Existing.file.layoutType random = Existing.file.noOpen.code := by
      intro random
      rw [randomHandler_openTable hA (Nat.zero_le _) hratio, if_neg (Nat.not_lt_zero _)]
    refine ⟨?_, ?_, ?_⟩
    · intro c es s index d l t _ htype hnew random hopen hl
      rw [fileOplistCreate_existing htype hnew] at hl
      rw [Existing.list_opType hl, hopen, opType_file_draw hA, hkey]
    · rw [opened_file_eq_empty hA, hratio, Finset.card_empty]
    · have hall : ((Finset.range accuracy).filter fun h => Existing.file.opType
          (cgv.randomHandler Existing.file.layoutType h) = Existing.file.noOpen) =
            Finset.range accuracy :=
        Finset.filter_true_of_mem fun h _ => opType_file_draw hA h
      rw [hall, hratio, Finset.card_range, Nat.cast_zero, sub_zero]

/-- For directories the class is never the one drawn; for files only if none is to be opened. -/
theorem classDrawn_iff (d : ℕ) (cgv : Ratios (10 ^ (2 + d))) :
    ¬ClassDrawn cgv .dir ∧ (ClassDrawn cgv .file ↔ cgv.openFileRatio.val = 0) := by
  have hA : 0 < 10 ^ (2 + d) := by positivity
  exact ⟨not_classDrawn_dir hA, classDrawn_file_iff hA⟩

/-- With the shipped configuration and hash value 0 both draws say open, and
neither list is one of opened nodes. -/
theorem classDrawn_false_shippedConf :
    (¬ClassDrawn shippedConf .dir ∧ ¬ClassDrawn shippedConf .file) ∧
      ∀ e : Existing, shippedConf.randomHandler e.layoutType 0 = e.opened.code ∧
        e.opType (shippedConf.randomHandler e.layoutType 0) = e.noOpen := by
  have hA : 0 < 10 ^ (2 + 2) := by decide
  have hdir : ((10 ^ (2 + 2) : ℕ) : ℚ) * Existing.dir.ratio shippedConf = (8922 : ℕ) := by
    norm_num [Existing.ratio, shippedConf, percent]
  have hfile : ((10 ^ (2 + 2) : ℕ) : ℚ) * Existing.file.ratio shippedConf = (9000 : ℕ) := by
    norm_num [Existing.ratio, shippedConf, percent]
  refine ⟨⟨not_classDrawn_dir hA, fun h => ?_⟩, fun e => ?_⟩
  · have hzero := (classDrawn_file_iff hA).1 h
    norm_num [shippedConf, percent] at hzero
  · cases e with
    | dir =>
      rw [randomHandler_openTable hA (by decide) hdir]
      decide
    | file =>
      rw [randomHandler_openTable hA (by decide) hfile]
      decide

end MyScripts.Shark
