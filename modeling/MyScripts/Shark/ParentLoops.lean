import MyScripts.Library.ParentLoop
import MyScripts.Shark.AccessRuns

/-!
# The loops over the parents of a node

`check_path_depth`, `get_path_for_file_node` and `file_node_usecnt_update` go up
from a node until the parent is NULL. The parent of any node is a directory, and
the indices of directories fall on the way, so each loop ends, after as many
rounds as indices of directories have been given out at the latest.
-/
namespace MyScripts.Shark.FileTable
open Library.Run Library.Forest

variable {c : Config} {t u : Table} {n p : NodeRef}

namespace Table

def checkPathDepthLoop (t : Table) (rounds : ℕ) (n : NodeRef) : Option Bool :=
  (climb (fun _ => t.parent) (fun depth _ => some (depth + 1)) rounds (t.parent n) 0).map
    fun depth => if 10 ≤ depth then false else true

def getPathLoop (t : Table) (rounds : ℕ) (n : NodeRef) : Option (List Char) :=
  climb (fun _ => t.parent) (fun buf par => some (t.nameOf par ++ '/' :: buf)) rounds (t.parent n)
    (t.nameOf n)

/-- The index is read from the name, and the loop is left at the first of the initial directories. -/
def usecntUpdateLoop (t : Table) (initialDirCnts rounds : ℕ) (n : NodeRef) (isAdd : Bool) :
    Option Table :=
  climb parent
    (fun t par =>
      if scanIndex (t.nameOf par) < initialDirCnts then none
      else some (t.addUsecnt (if isAdd then 1 else -1) par))
    rounds (t.parent n) t

end Table

theorem scanIndex_nameOf (t : Table) (n : NodeRef) : scanIndex (t.nameOf n) = t.key n := by
  rw [Table.nameOf, Table.key]
  cases t.node n with
  | none => rfl
  | some x => exact scanIndex_print x.fileName

/-- The number of directories with smaller indices, at most; for other nodes of all directories. -/
def rank (t : Table) (n : NodeRef) : ℕ :=
  match t.node n with
  | none => 0
  | some x => if x.fileType = .dir then x.fileName.index - 1 else t.cnt .dir

theorem rank_dir (hn : HasNode t n .dir) : rank t n = t.key n - 1 := by
  obtain ⟨x, hx, htype⟩ := hn
  rw [rank, hx, key_of_node hx]
  exact if_pos htype

theorem TableInv.key_range (h : TableInv t) (hn : HasNode t n .dir) :
    0 < t.key n ∧ t.key n ≤ t.cnt .dir := by
  obtain ⟨x, hx, htype⟩ := hn
  rw [key_of_node hx, ← htype]
  exact ⟨h.index_pos n x hx, h.index_le n x hx⟩

theorem TableInv.rank_le (h : TableInv t) (n : NodeRef) : rank t n ≤ t.cnt .dir := by
  cases hx : t.node n with
  | none => simp [rank, hx]
  | some x =>
    by_cases htype : x.fileType = .dir
    · have hdir : HasNode t n .dir := ⟨x, hx, htype⟩
      rw [rank_dir hdir]
      exact (Nat.sub_le _ 1).trans (h.key_range hdir).2
    · simp [rank, hx, htype]

theorem TreeInv.rank_lt (ht : TreeInv t) (h : TableInv t) (hp : t.parent n = some p) :
    rank t p < rank t n := by
  have hdir := ht.parent_dir n p hp
  obtain ⟨hpos, hle⟩ := h.key_range hdir
  rw [rank_dir hdir]
  cases hx : t.node n with
  | none => simp [Table.parent, hx] at hp
  | some x =>
    by_cases htype : x.fileType = .dir
    · have hdir' : HasNode t n .dir := ⟨x, hx, htype⟩
      have hlt := ht.key_lt n p hdir' hp
      rw [rank_dir hdir']
      omega
    · simp only [rank, hx, if_neg htype]
      omega

theorem TreeInv.ancestors_fresh (ht : TreeInv t) (h : TableInv t) (hn : n ≤ t.fresh) :
    t.ancestors t.fresh n = ancestors t.parent (t.cnt .dir) n := by
  rw [ancestors_eq]
  calc
    ancestors t.parent t.fresh n = ancestors t.parent (max t.fresh (t.cnt .dir)) n :=
      ancestors_congr_fuel ht.parent_lt hn (hn.trans (le_max_left ..))
    _ = ancestors t.parent (t.cnt .dir) n :=
      ancestors_congr_fuel (fun _ _ => ht.rank_lt h) ((h.rank_le n).trans (le_max_right ..))
        (h.rank_le n)

theorem takeWhile_all {α : Type*} (l : List α) : l.takeWhile (fun _ => true) = l :=
  List.takeWhile_eq_self_iff.2 fun _ _ => rfl

theorem addParents_foldl (t : Table) (ps : List NodeRef) (buf : Journal.Word) :
    (t.addParents ps buf).1 = ps.foldl (fun buf par => t.nameOf par ++ '/' :: buf) buf.1 := by
  induction ps generalizing buf with
  | nil => rfl
  | cons p ps ih => exact ih _

section Loops

variable (ht : TreeInv t) (h : TableInv t) (hn : n ≤ t.fresh)
include ht h hn

theorem checkPathDepthLoop_eq :
    t.checkPathDepthLoop (t.cnt .dir) n = some (t.checkPathDepth n) := by
  have hclimb : climb (fun _ => t.parent) (fun depth _ => some (depth + 1)) (t.cnt .dir)
      (t.parent n) 0 = some (((t.ancestors t.fresh n).takeWhile fun _ => true).foldl
        (fun depth _ => depth + 1) 0) := by
    rw [ht.ancestors_fresh h hn]
    exact climb_eq (I := fun _ => True) (fun _ _ => ht.rank_lt h) (fun _ _ => rfl)
      (fun _ _ _ => rfl) (fun _ _ _ => trivial) trivial (h.rank_le n)
  have hlength : ∀ (ps : List NodeRef) k, ps.foldl (fun depth _ => depth + 1) k = k + ps.length := by
    intro ps
    induction ps with
    | nil => simp
    | cons p ps ih =>
      intro k
      rw [List.foldl_cons, ih, List.length_cons]
      omega
  rw [Table.checkPathDepthLoop, hclimb, takeWhile_all, hlength, Nat.zero_add, Option.map_some,
    Table.checkPathDepth]
  split_ifs with hdeep
  · rw [decide_eq_false (Nat.not_lt.2 hdeep)]
  · rw [decide_eq_true (Nat.not_le.1 hdeep)]

theorem getPathLoop_eq :
    t.getPathLoop (t.cnt .dir) n = some (t.getPathForFileNode n).1 := by
  have hclimb : t.getPathLoop (t.cnt .dir) n =
      some (((t.ancestors t.fresh n).takeWhile fun _ => true).foldl
        (fun buf par => t.nameOf par ++ '/' :: buf) (t.nameOf n)) := by
    rw [ht.ancestors_fresh h hn]
    exact climb_eq (I := fun _ => True) (fun _ _ => ht.rank_lt h) (fun _ _ => rfl)
      (fun _ _ _ => rfl) (fun _ _ _ => trivial) trivial (h.rank_le n)
  rw [hclimb, takeWhile_all, Table.getPathForFileNode, addParents_foldl]

/-- Counting changes neither the parents nor the names that the loop reads. -/
theorem usecntUpdateLoop_eq (initialDirCnts : ℕ) (isAdd : Bool) :
    t.usecntUpdateLoop initialDirCnts (t.cnt .dir) n isAdd =
      some (t.fileNodeUsecntUpdate initialDirCnts n isAdd) := by
  rw [Table.fileNodeUsecntUpdate, Table.usecntPath, ht.ancestors_fresh h hn]
  apply climb_eq (I := SamePlaces t) (fun _ _ => ht.rank_lt h)
  · exact fun _ hs => hs.parent
  · intro s p hs
    rw [scanIndex_nameOf, hs.key]
    by_cases hkey : t.key p < initialDirCnts
    · rw [if_pos hkey]
      exact (if_neg (by simpa using hkey)).symm
    · rw [if_neg hkey]
      exact (if_pos (by simpa using hkey)).symm
  · exact fun s p hs => hs.trans (samePlaces_addUsecnt s _ p)
  · exact .of_eq rfl
  · exact h.rank_le n

end Loops

/-- The parents form a forest that ends at the root, and so do the three loops. -/
structure Rooted (c : Config) (t : Table) : Prop where
  parent_dir : ∀ n x p, t.node n = some x → x.parent = some p →
    ∃ y, t.node p = some y ∧ y.fileType = .dir ∧ y.freed = false
  index_lt : ∀ n x p y, t.node n = some x → x.fileType = .dir → x.parent = some p →
    t.node p = some y → y.fileName.index < x.fileName.index
  wellFounded : WellFounded fun p n => t.parent n = some p
  checkPathDepth : ∀ n x, t.node n = some x →
    t.checkPathDepthLoop (t.cnt .dir) n = some (t.checkPathDepth n)
  getPath : ∀ n x, t.node n = some x →
    t.getPathLoop (t.cnt .dir) n = some (t.getPathForFileNode n).1
  usecntUpdate : ∀ n x, t.node n = some x → ∀ isAdd,
    t.usecntUpdateLoop c.initialDirCnts (t.cnt .dir) n isAdd =
      some (t.fileNodeUsecntUpdate c.initialDirCnts n isAdd)

theorem SharedInv.rooted {s : Shared} (h : SharedInv s) (c : Config) : Rooted c s.table where
  parent_dir := by
    intro n x p hx hp
    have hparent : s.table.parent n = some p := by rw [Table.parent, hx, Option.bind_some, hp]
    obtain ⟨⟨y, hy, htype⟩, hfreed⟩ := h.live n p hparent
    rw [Table.freed, hy] at hfreed
    exact ⟨y, hy, htype, hfreed⟩
  index_lt := by
    intro n x p y hx htype hp hy
    have hparent : s.table.parent n = some p := by rw [Table.parent, hx, Option.bind_some, hp]
    have hlt := h.tree.key_lt n p ⟨x, hx, htype⟩ hparent
    rwa [key_of_node hx, key_of_node hy] at hlt
  wellFounded := wellFounded_parent fun _ _ => h.tree.rank_lt h.table
  checkPathDepth := fun n x hx =>
    checkPathDepthLoop_eq h.tree h.table (Nat.le_of_lt (h.table.fresh n x hx))
  getPath := fun n x hx => getPathLoop_eq h.tree h.table (Nat.le_of_lt (h.table.fresh n x hx))
  usecntUpdate := fun n x hx =>
    usecntUpdateLoop_eq h.tree h.table (Nat.le_of_lt (h.table.fresh n x hx)) c.initialDirCnts

theorem rooted_of_accesses {s : Shared} {as : List Access} (c : Config)
    (hrun : exec access Shared.init as = some s) : Rooted c s.table :=
  (sharedInv_of_exec hrun).rooted c

/-- After every run of operations, and at every access on the way. -/
theorem rooted_of_exec {s : State} {es : List Event}
    (hrun : exec (step c) State.init es = some s) :
    Rooted c s.table ∧ ∃ as, exec access Shared.init as = some ⟨s.table, none⟩ ∧
      ∀ pre S, pre <+: as → exec access Shared.init pre = some S → Rooted c S.table := by
  obtain ⟨as, has⟩ := passes_of_exec hrun
  exact ⟨rooted_of_accesses c has, as, has, fun _ _ _ hpre => rooted_of_accesses c hpre⟩

theorem rooted_of_exec_rename : ∃ s,
    exec (step sampleConfig) State.init (sampleRun NoOpenFileOp.rename.code) = some s ∧
      Rooted sampleConfig s.table ∧ ∃ as, exec access Shared.init as = some ⟨s.table, none⟩ ∧
        ∀ pre S, pre <+: as → exec access Shared.init pre = some S →
          Rooted sampleConfig S.table := by
  obtain ⟨s, hs⟩ : ∃ s, exec (step sampleConfig) State.init
      (sampleRun NoOpenFileOp.rename.code) = some s := ⟨_, rfl⟩
  exact ⟨s, hs, rooted_of_exec hs⟩

end MyScripts.Shark.FileTable
