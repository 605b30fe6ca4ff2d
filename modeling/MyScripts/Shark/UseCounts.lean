import MyScripts.Library.Forest
import MyScripts.Shark.ExactRelease

/-!
# The use counts of directories

The use count of a directory is the number of busy nodes below it: a node put
into a busy tree is counted at the directories above it, a node taken out is
discounted there. The walk up ends at the first directory with the index of an
initial one, and since indices grow towards the leaves it misses no other.
-/
namespace MyScripts.Shark.FileTable
open Library.Run Library.Forest Journal

variable {c : Config} {t u v w : Table} {n m d : NodeRef} {type : FileType}

namespace Table

def busy (t : Table) : Set NodeRef := {n | ∃ type i, t.rbt false type i = some n}

def usecnt (t : Table) (n : NodeRef) : ℤ := ((t.node n).map (·.usecnt)).getD 0

def countedDirs (t : Table) (initialDirCnts : ℕ) : Set NodeRef :=
  {d | HasNode t d .dir ∧ initialDirCnts ≤ t.key d}

end Table

def FileNode.place (x : FileNode) : Option NodeRef × FileName × FileType :=
  (x.parent, x.fileName, x.fileType)

/-- Nodes change in their use counts and by being freed, in nothing else. -/
structure SamePlaces (t u : Table) : Prop where
  node : ∀ n, (u.node n).map FileNode.place = (t.node n).map FileNode.place

theorem SamePlaces.trans (h : SamePlaces t u) (h' : SamePlaces u v) : SamePlaces t v :=
  ⟨fun n => (h'.node n).trans (h.node n)⟩

theorem SamePlaces.symm (h : SamePlaces t u) : SamePlaces u t := ⟨fun n => (h.node n).symm⟩

theorem SamePlaces.of_eq (h : u.node = t.node) : SamePlaces t u := by
  constructor
  intro n
  rw [h]

theorem parent_eq_place (t : Table) (n : NodeRef) :
    t.parent n = ((t.node n).map FileNode.place).bind (·.1) := by
  rw [Option.bind_map]
  rfl

theorem key_eq_place (t : Table) (n : NodeRef) :
    t.key n = (((t.node n).map FileNode.place).map (·.2.1.index)).getD 0 := by
  rw [Option.map_map]
  rfl

theorem hasNode_iff_place :
    HasNode t n type ↔ ((t.node n).map FileNode.place).map (·.2.2) = some type := by
  simp [HasNode, FileNode.place]

theorem SamePlaces.parent (h : SamePlaces t u) : u.parent = t.parent := by
  funext n
  rw [parent_eq_place, parent_eq_place, h.node n]

theorem SamePlaces.key (h : SamePlaces t u) : u.key = t.key := by
  funext n
  rw [key_eq_place, key_eq_place, h.node n]

theorem SamePlaces.hasNode (h : SamePlaces t u) : HasNode u n type ↔ HasNode t n type := by
  rw [hasNode_iff_place, hasNode_iff_place, h.node n]

theorem SamePlaces.countedDirs (h : SamePlaces t u) (initial : ℕ) :
    u.countedDirs initial = t.countedDirs initial := by
  ext d
  simp only [Table.countedDirs, Set.mem_ofPred_eq, h.hasNode, h.key]

structure Quiet (t u : Table) : Prop where
  places : SamePlaces t u
  usecnt : u.usecnt = t.usecnt
  busy : u.busy = t.busy

theorem Quiet.trans (h : Quiet t u) (h' : Quiet u v) : Quiet t v where
  places := h.places.trans h'.places
  usecnt := h'.usecnt.trans h.usecnt
  busy := h'.busy.trans h.busy

theorem quiet_of_eq (hnode : u.node = t.node) (hbusy : u.rbt false = t.rbt false) : Quiet t u where
  places := .of_eq hnode
  usecnt := by
    funext n
    rw [Table.usecnt, hnode, Table.usecnt]
  busy := by rw [Table.busy, hbusy, Table.busy]

theorem node_insert (t : Table) (type : FileType) (n : NodeRef) (idle : Bool) :
    (t.fileInsertToRbt type n idle).node = t.node := by
  unfold Table.fileInsertToRbt
  split <;> rfl

theorem quiet_insert_idle (t : Table) (type : FileType) (n : NodeRef) :
    Quiet t (t.fileInsertToRbt type n true) :=
  quiet_of_eq (node_insert ..) (busy_insert_idle ..)

theorem quiet_take_idle (t : Table) (type : FileType) (i : ℕ) :
    Quiet t (t.setRbt true type i none) := by
  have hbusy : (t.setRbt true type i none).rbt false = t.rbt false := by
    funext ty j
    simp [Table.setRbt]
  exact quiet_of_eq rfl hbusy

theorem quiet_idleRule : IdleRule Quiet where
  refl _ := quiet_of_eq rfl rfl
  trans := Quiet.trans
  take := quiet_take_idle
  insert := quiet_insert_idle

theorem samePlaces_setNode {x y : FileNode} (hx : t.node n = some x) (h : y.place = x.place) :
    SamePlaces t (t.setNode n y) := by
  constructor
  intro m
  by_cases hm : m = n
  · simp [Table.setNode, hm, hx, h]
  · simp [Table.setNode, hm]

theorem quiet_free (t : Table) (n : NodeRef) : Quiet t (t.free n) := by
  unfold Table.free
  split
  · exact quiet_of_eq rfl rfl
  · next x hx =>
    refine ⟨samePlaces_setNode hx rfl, ?_, rfl⟩
    funext m
    by_cases hm : m = n
    · simp [Table.usecnt, Table.setNode, hm, hx]
    · simp [Table.usecnt, Table.setNode, hm]

theorem quiet_destroy (t : Table) (n : NodeRef) : Quiet t (t.fileNodeDestory n) := by
  rcases fileNodeDestory_cases t n with heq | ⟨heq, _⟩
  · rw [heq]
    exact quiet_of_eq rfl rfl
  · rw [heq]
    exact quiet_free t n

structure TreeInv (t : Table) : Prop where
  parent_lt : ∀ n p, t.parent n = some p → p < n
  parent_dir : ∀ n p, t.parent n = some p → HasNode t p .dir
  key_lt : ∀ n p, HasNode t n .dir → t.parent n = some p → t.key p < t.key n

theorem TreeInv.congr (h : TreeInv t) (hs : SamePlaces t u) : TreeInv u where
  parent_lt := by
    rw [hs.parent]
    exact h.parent_lt
  parent_dir := by
    intro n p hp
    rw [hs.parent] at hp
    exact hs.hasNode.2 (h.parent_dir n p hp)
  key_lt := by
    intro n p hn hp
    rw [hs.parent] at hp
    rw [hs.key]
    exact h.key_lt n p (hs.hasNode.1 hn) hp

theorem ancestors_eq (t : Table) (fuel : ℕ) (n : NodeRef) :
    t.ancestors fuel n = Library.Forest.ancestors t.parent fuel n := by
  induction fuel generalizing n with
  | zero => rfl
  | succ fuel ih =>
    simp only [Table.ancestors, Library.Forest.ancestors]
    cases t.parent n with
    | none => rfl
    | some p => simp [ih]

theorem TreeInv.mem_usecntPath (h : TreeInv t) (hn : n ≤ t.fresh) {initial : ℕ}
    (hd : initial ≤ t.key d) : d ∈ t.usecntPath initial n ↔ Below t.parent n d := by
  have hkeys := ancestors_pairwise h.parent_dir h.key_lt t.fresh n
  rw [Table.usecntPath, ancestors_eq, mem_takeWhile, mem_ancestors h.parent_lt hn]
  · simp [hd]
  · apply hkeys.imp
    simp only [decide_eq_true_eq]
    intro a b hlt hb
    exact hb.trans (Nat.le_of_lt hlt)

theorem TreeInv.usecntPath_nodup (h : TreeInv t) (initial : ℕ) (n : NodeRef) :
    (t.usecntPath initial n).Nodup := by
  have hpath := ancestors_pairwise (P := fun _ => True) (fun _ _ _ => trivial)
    (fun n p _ hp => h.parent_lt n p hp) t.fresh n
  rw [Table.usecntPath, ancestors_eq]
  apply List.Pairwise.sublist (List.takeWhile_sublist _)
  exact hpath.imp Nat.ne_of_gt

theorem samePlaces_addUsecnt (t : Table) (k : ℤ) (n : NodeRef) :
    SamePlaces t (t.addUsecnt k n) := by
  unfold Table.addUsecnt
  split
  · exact .of_eq rfl
  · next x hx => exact samePlaces_setNode hx rfl

theorem usecnt_addUsecnt (k : ℤ) (n : NodeRef) (hd : HasNode t d type) :
    (t.addUsecnt k n).usecnt d = t.usecnt d + if d = n then k else 0 := by
  obtain ⟨y, hy, -⟩ := hd
  by_cases hdn : d = n
  · rw [hdn] at hy
    simp [Table.addUsecnt, Table.usecnt, Table.setNode, hdn, hy]
  · rw [if_neg hdn, add_zero]
    unfold Table.addUsecnt
    split
    · rfl
    · simp [Table.usecnt, Table.setNode, hdn]

theorem samePlaces_usecntUpdate (t : Table) (initial : ℕ) (n : NodeRef) (isAdd : Bool) :
    SamePlaces t (t.fileNodeUsecntUpdate initial n isAdd) := by
  unfold Table.fileNodeUsecntUpdate
  generalize t.usecntPath initial n = ps
  induction ps generalizing t with
  | nil => exact .of_eq rfl
  | cons p ps ih => exact (samePlaces_addUsecnt ..).trans (ih _)

theorem usecnt_foldl (k : ℤ) {ps : List NodeRef} (hps : ps.Nodup) (hd : HasNode t d type) :
    (ps.foldl (fun t p => t.addUsecnt k p) t).usecnt d =
      t.usecnt d + if d ∈ ps then k else 0 := by
  induction ps generalizing t with
  | nil => simp
  | cons p ps ih =>
    obtain ⟨hp, hps⟩ := List.nodup_cons.1 hps
    have hd' := (samePlaces_addUsecnt t k p).hasNode.2 hd
    rw [List.foldl_cons, ih hps hd', usecnt_addUsecnt k p hd]
    by_cases hdp : d = p
    · simp [hdp, hp]
    · simp [hdp]

open Classical

theorem TreeInv.usecnt_update (h : TreeInv t) (hn : n ≤ t.fresh) {initial : ℕ} (isAdd : Bool)
    (hd : d ∈ t.countedDirs initial) :
    (t.fileNodeUsecntUpdate initial n isAdd).usecnt d =
      t.usecnt d + if Below t.parent n d then (if isAdd then 1 else -1) else 0 := by
  rw [Table.fileNodeUsecntUpdate, usecnt_foldl _ (h.usecntPath_nodup initial n) hd.1]
  simp only [h.mem_usecntPath hn hd.2]

structure UseInv (c : Config) (t : Table) : Prop where
  table : TableInv t
  tree : TreeInv t
  balanced : Balanced t.parent t.busy (t.countedDirs c.initialDirCnts) t.usecnt

theorem useInv_init : UseInv c Table.init where
  table := tableInv_init
  tree :=
    { parent_lt := fun n p h => by cases h
      parent_dir := fun n p h => by cases h
      key_lt := fun n p h => by
        obtain ⟨x, hx, -⟩ := h
        cases hx }
  balanced := by
    rintro d ⟨⟨x, hx, -⟩, -⟩
    cases hx

theorem UseInv.quiet (h : UseInv c t) (hq : Quiet t u) (hu : TableInv u) : UseInv c u where
  table := hu
  tree := h.tree.congr hq.places
  balanced := by
    rw [hq.places.parent, hq.busy, hq.places.countedDirs, hq.usecnt]
    exact h.balanced

theorem TableInv.lt_of_busy (h : TableInv t) (hn : n ∈ t.busy) : n < t.fresh := by
  obtain ⟨type, i, hi⟩ := hn
  obtain ⟨x, hx, -⟩ := h.stored false type i n hi
  exact h.fresh n x hx

theorem TableInv.busy_finite (h : TableInv t) : t.busy.Finite :=
  (Set.finite_lt_nat t.fresh).subset fun _ hn => h.lt_of_busy hn

theorem Loose.busy_insert (h : Loose t type n) :
    (t.fileInsertToRbt type n false).busy = insert n t.busy := by
  obtain ⟨x, hx, -, -, hnone⟩ := h
  ext m
  simp only [insert_of_none hx (hnone false), Table.busy, Set.mem_ofPred_eq, Set.mem_insert_iff]
  constructor
  · rintro ⟨ty, j, hm⟩
    rcases rbt_setRbt t false type x.fileName.index (some n) false ty j with ⟨-, h'⟩ | ⟨-, h'⟩
    · rw [h'] at hm
      exact Or.inl (Option.some.inj hm).symm
    · rw [h'] at hm
      exact Or.inr ⟨ty, j, hm⟩
  · rintro (rfl | ⟨ty, j, hm⟩)
    · exact ⟨type, x.fileName.index, if_pos ⟨rfl, rfl, rfl⟩⟩
    · refine ⟨ty, j, ?_⟩
      rcases rbt_setRbt t false type x.fileName.index (some n) false ty j with ⟨hkey, -⟩ | ⟨-, h'⟩
      · rw [hkey.2.1, hkey.2.2, hnone] at hm
        cases hm
      · rw [h', hm]

theorem TableInv.busy_take (h : TableInv t) {i : ℕ} (hn : t.rbt false type i = some n) :
    (t.setRbt false type i none).busy = t.busy \ {n} := by
  ext m
  simp only [Table.busy, Set.mem_sdiff, Set.mem_singleton_iff, Set.mem_ofPred_eq,
    FileTable.busy_take]
  constructor
  · rintro ⟨ty, j, hm, hkey⟩
    refine ⟨⟨ty, j, hm⟩, ?_⟩
    rintro rfl
    obtain ⟨x, hx, hty, hi, -⟩ := h.stored false type i m hn
    obtain ⟨y, hy, hty', hi', -⟩ := h.stored false ty j m hm
    rw [hx] at hy
    obtain rfl := Option.some.inj hy
    exact hkey ⟨hty.symm.trans hty', hi'.symm.trans hi⟩
  · rintro ⟨⟨ty, j, hm⟩, hne⟩
    refine ⟨ty, j, hm, ?_⟩
    rintro ⟨rfl, rfl⟩
    rw [hn] at hm
    exact hne (Option.some.inj hm).symm

theorem UseInv.putInBusy (h : UseInv c t) (hl : Loose t type n) :
    UseInv c (putInBusy c t type n) := by
  have hput := (hl.put h.table false).1
  have hnot : n ∉ t.busy := by
    rintro ⟨ty, i, hi⟩
    exact h.table.not_loose hi hl
  have hplaces : SamePlaces t (t.fileInsertToRbt type n false) := .of_eq (node_insert ..)
  have hall := hplaces.trans (samePlaces_usecntUpdate _ c.initialDirCnts n true)
  have hn : n ≤ (t.fileInsertToRbt type n false).fresh := by
    obtain ⟨x, hx, -⟩ := hl
    exact Nat.le_of_lt (hput.fresh n x (by rw [node_insert, hx]))
  refine ⟨(hput.usecntUpdate ..).inv, h.tree.congr hall, ?_⟩
  rw [FileTable.putInBusy, hall.parent, hall.countedDirs, Table.busy, rbt_usecntUpdate, ← Table.busy,
    hl.busy_insert]
  apply h.balanced.insert h.table.busy_finite hnot
  intro d hd
  rw [(h.tree.congr hplaces).usecnt_update hn true (hplaces.countedDirs _ ▸ hd), hplaces.parent]
  simp [Table.usecnt, node_insert]

theorem UseInv.giveBack (h : UseInv c t) (fileType : ℤ) (index : ℕ) (toIdle : Bool) :
    UseInv c (giveBack c t fileType index toIdle) := by
  have hinv := (h.table.giveBack (c := c) fileType index toIdle).inv
  unfold FileTable.giveBack at hinv ⊢
  cases hty : FileType.ofCode fileType with
  | none => exact h
  | some type =>
    rw [hty] at hinv
    dsimp only [Table.fileDeleteFormRbt] at hinv ⊢
    have htake := h.table.take false type index
    cases hn : t.rbt false type index with
    | none =>
      have hsame : (t.setRbt false type index none).rbt false = t.rbt false := by
        funext ty j
        rcases rbt_setRbt t false type index none false ty j with ⟨⟨-, rfl, rfl⟩, h'⟩ | ⟨-, h'⟩
        · rw [h', hn]
        · exact h'
      exact h.quiet (quiet_of_eq rfl hsame) htake.inv
    | some n =>
      rw [hn] at hinv
      dsimp only at hinv ⊢
      obtain ⟨x, hx, -⟩ := h.table.stored false type index n hn
      have hplaces : SamePlaces t (t.setRbt false type index none) := .of_eq rfl
      have hall := hplaces.trans (samePlaces_usecntUpdate _ c.initialDirCnts n false)
      have hout : UseInv c ((t.setRbt false type index none).fileNodeUsecntUpdate
          c.initialDirCnts n false) := by
        refine ⟨(htake.inv.usecntUpdate ..).inv, h.tree.congr hall, ?_⟩
        rw [hall.parent, hall.countedDirs, Table.busy, rbt_usecntUpdate, ← Table.busy,
          h.table.busy_take hn]
        apply h.balanced.erase h.table.busy_finite ⟨type, index, hn⟩
        intro d hd
        exact (h.tree.congr hplaces).usecnt_update (Nat.le_of_lt (h.table.fresh n x hx)) false hd
      split_ifs at hinv ⊢
      · exact hout.quiet (quiet_insert_idle ..) hinv
      · exact hout.quiet (quiet_destroy ..) hinv

theorem samePlaces_putInBusy (c : Config) (t : Table) (type : FileType) (n : NodeRef) :
    SamePlaces t (putInBusy c t type n) := by
  have hinsert : SamePlaces t (t.fileInsertToRbt type n false) := .of_eq (node_insert ..)
  exact hinsert.trans (samePlaces_usecntUpdate _ c.initialDirCnts n true)

theorem samePlaces_giveBack (c : Config) (t : Table) (fileType : ℤ) (index : ℕ) (toIdle : Bool) :
    SamePlaces t (giveBack c t fileType index toIdle) := by
  unfold FileTable.giveBack
  cases FileType.ofCode fileType with
  | none => exact .of_eq rfl
  | some type =>
    dsimp only [Table.fileDeleteFormRbt]
    cases t.rbt false type index with
    | none => exact .of_eq rfl
    | some n =>
      have htake : SamePlaces t (t.setRbt false type index none) := .of_eq rfl
      have hall := htake.trans (samePlaces_usecntUpdate _ c.initialDirCnts n false)
      dsimp only
      split_ifs
      · exact hall.trans (quiet_insert_idle ..).places
      · exact hall.trans (quiet_destroy ..).places

variable {x : FileNode}

theorem parent_alloc (t : Table) (x : FileNode) (m : NodeRef) :
    (t.alloc x).2.parent m = if m = t.fresh then x.parent else t.parent m := by
  by_cases hm : m = t.fresh
  · simp [Table.parent, Table.alloc, hm]
  · simp [Table.parent, Table.alloc, hm]

theorem TableInv.hasNode_alloc (h : TableInv t) (hn : HasNode (t.alloc x).2 n type) :
    n = t.fresh ∧ x.fileType = type ∨ n ≠ t.fresh ∧ HasNode t n type := by
  obtain ⟨y, hy, ht⟩ := hn
  rcases node_of_alloc hy with ⟨rfl, rfl⟩ | hy
  · exact Or.inl ⟨rfl, ht⟩
  · exact Or.inr ⟨Nat.ne_of_lt (h.fresh n y hy), y, hy, ht⟩

theorem key_alloc_of_ne (x : FileNode) (hn : n ≠ t.fresh) : (t.alloc x).2.key n = t.key n := by
  simp [Table.key, Table.alloc, hn]

theorem TreeInv.alloc (h : TreeInv t) (ht : TableInv t)
    (hp : ∀ p, x.parent = some p → HasNode t p .dir ∧
      (x.fileType = .dir → t.key p < x.fileName.index)) : TreeInv (t.alloc x).2 := by
  have hlt : ∀ {p}, HasNode t p .dir → p < t.fresh := by
    rintro p ⟨y, hy, -⟩
    exact ht.fresh p y hy
  have hold : ∀ {p}, HasNode t p .dir → HasNode (t.alloc x).2 p .dir := by
    rintro p ⟨y, hy, hty⟩
    exact ⟨y, ht.alloc_of_node hy, hty⟩
  constructor
  · intro n p hn
    rw [parent_alloc] at hn
    split_ifs at hn with hfresh
    · rw [hfresh]
      exact hlt (hp p hn).1
    · exact h.parent_lt n p hn
  · intro n p hn
    rw [parent_alloc] at hn
    split_ifs at hn with hfresh
    · exact hold (hp p hn).1
    · exact hold (h.parent_dir n p hn)
  · intro n p hdir hn
    rw [parent_alloc] at hn
    split_ifs at hn with hfresh
    · obtain ⟨hpar, hkey⟩ := hp p hn
      have hnew : x.fileType = .dir := by
        rcases ht.hasNode_alloc hdir with ⟨-, hx⟩ | ⟨hne, -⟩
        · exact hx
        · exact absurd hfresh hne
      have hindex : (t.alloc x).2.key n = x.fileName.index := by
        simp [Table.key, Table.alloc, hfresh]
      rw [key_alloc_of_ne x (Nat.ne_of_lt (hlt hpar)), hindex]
      exact hkey hnew
    · have hdir' : HasNode t n .dir := by
        rcases ht.hasNode_alloc hdir with ⟨heq, -⟩ | ⟨-, hn⟩
        · exact absurd heq hfresh
        · exact hn
      rw [key_alloc_of_ne x (Nat.ne_of_lt (hlt (h.parent_dir n p hn))), key_alloc_of_ne x hfresh]
      exact h.key_lt n p hdir' hn

theorem UseInv.alloc (h : UseInv c t) (hinv : TableInv (t.alloc x).2) (hx : x.usecnt = 0)
    (hp : ∀ p, x.parent = some p → HasNode t p .dir ∧
      (x.fileType = .dir → t.key p < x.fileName.index)) : UseInv c (t.alloc x).2 := by
  have htree := h.tree.alloc h.table hp
  refine ⟨hinv, htree, ?_⟩
  rintro d ⟨hdir, hd⟩
  rcases h.table.hasNode_alloc hdir with ⟨rfl, -⟩ | ⟨hne, hdir⟩
  · have hnone : ∀ n ∈ (t.alloc x).2.busy, ¬Below (t.alloc x).2.parent n t.fresh := by
      intro n hn hbelow
      have hlt := h.table.lt_of_busy hn
      exact Nat.lt_asymm hlt (hbelow.rank_lt htree.parent_lt)
    rw [countBelow_eq_zero hnone]
    simp [Table.usecnt, Table.alloc, hx]
  · have hcount : countBelow (t.alloc x).2.parent t.busy d = countBelow t.parent t.busy d := by
      apply countBelow_congr
      intro n hn
      have hsame : ∀ a ∈ Set.Iio t.fresh, (t.alloc x).2.parent a = t.parent a := by
        intro a ha
        rw [parent_alloc, if_neg (Nat.ne_of_lt ha)]
      have hclosed : ∀ a ∈ Set.Iio t.fresh, ∀ p, t.parent a = some p → p ∈ Set.Iio t.fresh :=
        fun a ha p hp => (h.tree.parent_lt a p hp).trans ha
      constructor
      · apply below_congr (fun a ha => (hsame a ha).symm) _ (h.table.lt_of_busy hn)
        intro a ha p hp
        exact hclosed a ha p (hsame a ha ▸ hp)
      · exact below_congr hsame hclosed (h.table.lt_of_busy hn)
    rw [key_alloc_of_ne x hne] at hd
    have hbalanced := h.balanced d ⟨hdir, hd⟩
    rw [← hcount] at hbalanced
    have husecnt : (t.alloc x).2.usecnt d = t.usecnt d := by
      simp [Table.usecnt, Table.alloc, hne]
    rw [husecnt, hbalanced]
    rfl

theorem UseInv.create {forOp : Bool} {d : CreateDraws} (h : UseInv c t) (hl : Loose t type n)
    (hu : TableInv u) (hc : (if forOp then some (FileTable.putInBusy c t type n)
      else createInitial t type n d) = some u) : UseInv c u := by
  split_ifs at hc with hop
  · obtain rfl := Option.some.inj hc
    exact h.putInBusy hl
  · exact h.quiet (quiet_idleRule.createInitial quiet_free hc) hu

theorem UseInv.fileNodeCreate {forOp : Bool} {d : CreateDraws} {r : Option NodeRef}
    (h : UseInv c t) (hc : fileNodeCreate c t type forOp d = some (r, u)) : UseInv c u := by
  have hinv := (h.table.fileNodeCreate hc).1.inv
  obtain ⟨par, w, x, hpar, rfl, hcases⟩ := fileNodeCreate_cases hc
  obtain ⟨hsel, -, htakes⟩ := (h.table.getIdleIndex type).inv.selectParent hpar
  have hindex : Quiet t (t.getIdleIndex type).2 := quiet_of_eq rfl rfl
  have hw := h.quiet (hindex.trans (quiet_idleRule.selectParent hpar)) hsel.inv
  rcases hcases with ⟨-, v, hv, -, rfl⟩ | ⟨-, -, rfl⟩
  · have htake := h.table.newNode hpar d.suffix
    have hp : ∀ p, par = some p → HasNode w p .dir ∧ (type = .dir → w.key p < t.cnt type + 1) := by
      intro p hp
      have hdir := (htakes p hp).hasNode
      refine ⟨hdir, ?_⟩
      intro htype
      obtain ⟨y, hy, hty⟩ := hdir
      rw [key_of_node hy]
      exact h.table.index_lt_new hpar hy (hty.trans htype.symm)
    have hcreated := (hw.alloc htake.inv rfl hp).create htake.held (htake.create hv).1.inv hv
    exact hcreated.quiet (quiet_idleRule.putParToIdle ..) hinv
  · exact hw.quiet (quiet_idleRule.putParToIdle ..) hinv

theorem useInv_rule : TableRule c (UseInv c) where
  table := UseInv.table
  create := UseInv.fileNodeCreate
  select := fun h hs => h.quiet (quiet_idleRule.selectIdle hs) (h.table.selectIdle hs).inv
  busy := UseInv.putInBusy
  back := fun fileType index toIdle h => h.giveBack fileType index toIdle

theorem useInv_of_exec {s : State} {es : List Event}
    (hrun : exec (step c) State.init es = some s) : UseInv c s.table :=
  useInv_rule.exec useInv_init hrun

/-- In every state of every run the use count of a directory that is not an
initial one is the number of busy nodes below it, and never negative. -/
theorem usecnt_of_exec {s : State} {es : List Event} (hrun : exec (step c) State.init es = some s)
    {x : FileNode} (hx : s.table.node d = some x) (hdir : x.fileType = .dir)
    (hindex : c.initialDirCnts ≤ x.fileName.index) :
    x.usecnt = {n | n ∈ s.table.busy ∧ Below s.table.parent n d}.ncard ∧ 0 ≤ x.usecnt := by
  have hcount := (useInv_of_exec hrun).balanced d ⟨⟨x, hx, hdir⟩, (key_of_node hx).symm ▸ hindex⟩
  have husecnt : s.table.usecnt d = x.usecnt := by simp [Table.usecnt, hx]
  rw [husecnt] at hcount
  refine ⟨hcount, ?_⟩
  rw [hcount]
  exact Int.natCast_nonneg _

theorem usecnt_of_exec_rename : ∃ s x,
    exec (step sampleConfig) State.init (sampleRun NoOpenFileOp.rename.code) = some s ∧
      s.table.node 0 = some x ∧ x.usecnt = 2 ∧
      x.usecnt = {n | n ∈ s.table.busy ∧ Below s.table.parent n 0}.ncard ∧ 0 ≤ x.usecnt := by
  obtain ⟨s, x, hs, hx, hdir, hindex, hcount⟩ : ∃ s x, exec (step sampleConfig) State.init
      (sampleRun NoOpenFileOp.rename.code) = some s ∧ s.table.node 0 = some x ∧
      x.fileType = .dir ∧ 1 ≤ x.fileName.index ∧ x.usecnt = 2 :=
    ⟨_, _, rfl, rfl, rfl, Nat.le_refl 1, rfl⟩
  exact ⟨s, x, hs, hx, hcount, usecnt_of_exec hs hx hdir hindex⟩

end MyScripts.Shark.FileTable
