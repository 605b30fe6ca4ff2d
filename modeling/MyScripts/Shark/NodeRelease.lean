import MyScripts.Shark.DepthBound

/-!
# What becomes of a node that is given back

A node taken out of a busy tree goes to the idle tree or is handed to
`file_node_destory`, which frees it unless it is a directory or counted as used.
Only directories are counted, so a file or a symbolic link is freed. What a node
has become, it stays through the give-backs that follow.
-/
namespace MyScripts.Shark.FileTable
open Library.Run Library.Forest Journal

variable {c : Config} {t u v w : Table} {n m p : NodeRef} {type ty : FileType} {i j : ℕ}

def Calm (t : Table) : Prop := ∀ n type, HasNode t n type → type ≠ .dir → t.usecnt n = 0

structure CalmInv (c : Config) (t : Table) : Prop where
  use : UseInv c t
  calm : Calm t

theorem HasNode.type_eq (h : HasNode t n type) (h' : HasNode t n ty) : type = ty := by
  obtain ⟨x, hx, rfl⟩ := h
  obtain ⟨y, hy, rfl⟩ := h'
  rw [hx] at hy
  cases hy
  rfl

theorem TreeInv.dir_of_mem (h : TreeInv t) {initial : ℕ} (hp : p ∈ t.usecntPath initial n) :
    HasNode t p .dir := by
  have hanc := List.takeWhile_subset _ hp
  rw [ancestors_eq] at hanc
  obtain ⟨a, ha⟩ := exists_child hanc
  exact h.parent_dir a p ha

theorem TreeInv.usecnt_file (h : TreeInv t) (initial : ℕ) (m : NodeRef) (isAdd : Bool)
    (hn : HasNode t n type) (htype : type ≠ .dir) :
    (t.fileNodeUsecntUpdate initial m isAdd).usecnt n = t.usecnt n := by
  have hout : n ∉ t.usecntPath initial m := by
    intro hmem
    exact htype (hn.type_eq (h.dir_of_mem hmem))
  rw [Table.fileNodeUsecntUpdate, usecnt_foldl _ (h.usecntPath_nodup initial m) hn, if_neg hout,
    add_zero]

theorem Calm.quiet (h : Calm t) (hq : Quiet t u) : Calm u := by
  intro n type hn htype
  rw [hq.usecnt]
  exact h n type (hq.places.hasNode.1 hn) htype

theorem Calm.update (h : Calm t) (ht : TreeInv t) (initial : ℕ) (m : NodeRef) (isAdd : Bool)
    (hnode : v.node = t.node) : Calm (v.fileNodeUsecntUpdate initial m isAdd) := by
  intro n type hn htype
  have hv : SamePlaces t v := .of_eq hnode
  have hn' := (samePlaces_usecntUpdate v initial m isAdd).hasNode.1 hn
  rw [(ht.congr hv).usecnt_file initial m isAdd hn' htype, Table.usecnt, hnode]
  exact h n type (hv.hasNode.1 hn') htype

theorem Calm.putInBusy (h : Calm t) (ht : TreeInv t) : Calm (putInBusy c t type n) :=
  h.update ht _ n true (node_insert ..)

theorem Calm.giveBack (h : Calm t) (ht : TreeInv t) (fileType : ℤ) (index : ℕ) (toIdle : Bool) :
    Calm (giveBack c t fileType index toIdle) := by
  unfold FileTable.giveBack
  cases FileType.ofCode fileType with
  | none => exact h
  | some type =>
    dsimp only [Table.fileDeleteFormRbt]
    cases hn : t.rbt false type index with
    | none =>
      dsimp only
      rwa [setRbt_of_none hn]
    | some n =>
      have hout : Calm ((t.setRbt false type index none).fileNodeUsecntUpdate
          c.initialDirCnts n false) := h.update ht _ n false rfl
      dsimp only
      split_ifs
      · exact hout.quiet (quiet_insert_idle ..)
      · exact hout.quiet (quiet_destroy ..)

theorem Calm.alloc {x : FileNode} (h : Calm t) (ht : TableInv t) (hx : x.usecnt = 0) :
    Calm (t.alloc x).2 := by
  intro n type hn htype
  rcases ht.hasNode_alloc hn with ⟨rfl, -⟩ | ⟨hne, hn⟩
  · simp [Table.usecnt, Table.alloc, hx]
  · have hsame : (t.alloc x).2.usecnt n = t.usecnt n := by simp [Table.usecnt, Table.alloc, hne]
    rw [hsame]
    exact h n type hn htype

theorem Calm.create {forOp : Bool} {d : CreateDraws} (h : Calm t) (ht : TreeInv t)
    (hc : (if forOp then some (FileTable.putInBusy c t type n)
      else createInitial t type n d) = some u) : Calm u := by
  split_ifs at hc
  · obtain rfl := Option.some.inj hc
    exact h.putInBusy ht
  · exact h.quiet (quiet_idleRule.createInitial quiet_free hc)

theorem CalmInv.fileNodeCreate {forOp : Bool} {d : CreateDraws} {r : Option NodeRef}
    (h : CalmInv c t) (hc : fileNodeCreate c t type forOp d = some (r, u)) : CalmInv c u := by
  refine ⟨h.use.fileNodeCreate hc, ?_⟩
  have htree := (h.use.fileNodeCreate hc).tree
  obtain ⟨par, w, x, hpar, rfl, hcases⟩ := fileNodeCreate_cases hc
  have hsel := (h.use.table.getIdleIndex type).inv.selectParent hpar
  have hindex : Quiet t (t.getIdleIndex type).2 := quiet_of_eq rfl rfl
  have hw := h.calm.quiet (hindex.trans (quiet_idleRule.selectParent hpar))
  rcases hcases with ⟨-, v, hv, -, rfl⟩ | ⟨-, -, rfl⟩
  · have hplaces := (SamePlaces.create hv).trans (quiet_idleRule.putParToIdle v par).places
    have hcreated := (hw.alloc hsel.1.inv rfl).create (htree.congr hplaces.symm) hv
    exact hcreated.quiet (quiet_idleRule.putParToIdle ..)
  · exact hw.quiet (quiet_idleRule.putParToIdle ..)

theorem calmInv_rule : TableRule c (CalmInv c) where
  table := fun h => h.use.table
  create := CalmInv.fileNodeCreate
  select := by
    intro t u type pick n h hs
    exact ⟨useInv_rule.select h.use hs, h.calm.quiet (quiet_idleRule.selectIdle hs)⟩
  busy := fun h hl => ⟨h.use.putInBusy hl, h.calm.putInBusy h.use.tree⟩
  back := fun fileType index toIdle h =>
    ⟨h.use.giveBack fileType index toIdle, h.calm.giveBack h.use.tree fileType index toIdle⟩

theorem calmInv_of_exec {s : State} {es : List Event}
    (hrun : exec (step c) State.init es = some s) : CalmInv c s.table := by
  apply calmInv_rule.exec _ hrun
  refine ⟨useInv_init, ?_⟩
  intro n type hn
  obtain ⟨x, hx, -⟩ := hn
  cases hx

def Table.freed (t : Table) (n : NodeRef) : Bool := ((t.node n).map (·.freed)).getD false

/-- `n` is not busy any more, and what became of it has not changed. -/
structure Rests (n : NodeRef) (t u : Table) : Prop where
  out : n ∉ u.busy
  freed : u.freed n = t.freed n
  idle : ∀ type i, u.rbt true type i = some n ↔ t.rbt true type i = some n

theorem Rests.refl (h : n ∉ t.busy) : Rests n t t := ⟨h, rfl, fun _ _ => Iff.rfl⟩

theorem Rests.trans (h : Rests n t u) (h' : Rests n u v) : Rests n t v where
  out := h'.out
  freed := h'.freed.trans h.freed
  idle := fun type i => (h'.idle type i).trans (h.idle type i)

theorem not_busy_giveBack (c : Config) (fileType : ℤ) (index : ℕ) (toIdle : Bool)
    (h : n ∉ t.busy) : n ∉ (giveBack c t fileType index toIdle).busy := by
  rintro ⟨type, i, hn⟩
  exact h ⟨type, i, ((busy_giveBack ..).1 hn).1⟩

theorem freed_setNode {x y : FileNode} (hx : t.node m = some x) (hy : y.freed = x.freed) :
    (t.setNode m y).freed n = t.freed n := by
  by_cases hn : n = m
  · subst hn
    simp [Table.freed, Table.setNode, hx, hy]
  · simp [Table.freed, Table.setNode, hn]

theorem freed_addUsecnt (t : Table) (k : ℤ) (m n : NodeRef) :
    (t.addUsecnt k m).freed n = t.freed n := by
  unfold Table.addUsecnt
  split
  · rfl
  · next x hx => exact freed_setNode hx rfl

theorem freed_usecntUpdate (t : Table) (initial : ℕ) (m : NodeRef) (isAdd : Bool) (n : NodeRef) :
    (t.fileNodeUsecntUpdate initial m isAdd).freed n = t.freed n := by
  unfold Table.fileNodeUsecntUpdate
  generalize t.usecntPath initial m = ps
  induction ps generalizing t with
  | nil => rfl
  | cons p ps ih => exact (ih _).trans (freed_addUsecnt t _ p n)

theorem freed_free_of_ne (t : Table) (hne : n ≠ m) : (t.free m).freed n = t.freed n := by
  unfold Table.free
  split
  · rfl
  · simp [Table.freed, Table.setNode, hne]

theorem freed_destroy_of_ne (t : Table) (hne : n ≠ m) :
    (t.fileNodeDestory m).freed n = t.freed n := by
  rcases fileNodeDestory_cases t m with heq | ⟨heq, _⟩
  · rw [heq]
  · rw [heq]
    exact freed_free_of_ne t hne

theorem idle_insert_of_ne (t : Table) (hne : n ≠ m) :
    (t.fileInsertToRbt type m true).rbt true ty i = some n ↔ t.rbt true ty i = some n := by
  unfold Table.fileInsertToRbt
  cases hm : t.rbt true type (t.key m) with
  | some k => rfl
  | none =>
    rcases rbt_setRbt t true type (t.key m) (some m) true ty i with ⟨⟨-, rfl, rfl⟩, h⟩ | ⟨-, h⟩
    · rw [h, hm]
      simp [hne.symm]
    · rw [h]

theorem idle_take_busy (t : Table) (type : FileType) (i : ℕ) :
    (t.setRbt false type i none).rbt true = t.rbt true := by
  funext ty j
  rcases rbt_setRbt t false type i none true ty j with ⟨⟨h, -⟩, -⟩ | ⟨-, h⟩
  · cases h
  · exact h

theorem idle_update (t : Table) (type : FileType) (index initial : ℕ) (m : NodeRef) :
    ((t.setRbt false type index none).fileNodeUsecntUpdate initial m false).rbt true =
      t.rbt true := by
  rw [rbt_usecntUpdate, idle_take_busy]

theorem giveBack_of_not_busy (c : Config) (fileType : ℤ) (index : ℕ) (toIdle : Bool)
    (h : n ∉ t.busy) : (giveBack c t fileType index toIdle).freed n = t.freed n ∧
      ∀ ty i, (giveBack c t fileType index toIdle).rbt true ty i = some n ↔
        t.rbt true ty i = some n := by
  unfold giveBack
  cases FileType.ofCode fileType with
  | none => exact ⟨rfl, fun _ _ => Iff.rfl⟩
  | some type =>
    dsimp only [Table.fileDeleteFormRbt]
    cases hm : t.rbt false type index with
    | none => exact ⟨rfl, fun ty i => by rw [idle_take_busy]⟩
    | some m =>
      have hne : n ≠ m := fun hn => h ⟨type, index, hn ▸ hm⟩
      have hidle := idle_update t type index c.initialDirCnts m
      have hfreed := freed_usecntUpdate (t.setRbt false type index none) c.initialDirCnts m false n
      dsimp only
      split_ifs
      · constructor
        · rw [Table.freed, node_insert]
          exact hfreed
        · intro ty i
          rw [idle_insert_of_ne _ hne, hidle]
      · constructor
        · rw [freed_destroy_of_ne _ hne]
          exact hfreed
        · intro ty i
          rw [rbt_destroy, hidle]

theorem rests_giveBack (c : Config) (fileType : ℤ) (index : ℕ) (toIdle : Bool)
    (h : n ∉ t.busy) : Rests n t (giveBack c t fileType index toIdle) where
  out := not_busy_giveBack c fileType index toIdle h
  freed := (giveBack_of_not_busy c fileType index toIdle h).1
  idle := (giveBack_of_not_busy c fileType index toIdle h).2

theorem rests_moveOps {ops : List FileOp} {hasNode : ℕ → Bool} {k : ℕ} (c : Config)
    (w : Worker) (h : n ∉ t.busy) : Rests n t (moveOps c w hasNode k ops t) := by
  induction ops generalizing t k with
  | nil => exact .refl h
  | cons op ops ih =>
    rw [FileTable.moveOps]
    split_ifs
    · have hback := rests_giveBack c w.fileType (cutStrToInt op.args.newpath) (k ≤ w.opIndex) h
      exact hback.trans (ih hback.out)
    · exact ih h

theorem rests_workerMoveList (c : Config) (w : Worker) (h : n ∉ t.busy) :
    Rests n t (workerMoveList c w t) := by
  have hops : ∀ hasNode toIdle, Rests n t (giveBack c (moveOps c w hasNode 0 w.ops t) w.fileType
      (cutStrToInt w.absPath) toIdle) := by
    intro hasNode toIdle
    have hmove : Rests n t (moveOps c w hasNode 0 w.ops t) := rests_moveOps c w h
    exact hmove.trans (rests_giveBack c _ _ toIdle hmove.out)
  unfold workerMoveList
  dsimp only
  split_ifs
  · exact hops fileOpHasNode _
  · exact hops dirOpHasNode true
  · exact rests_moveOps c w h
  · exact rests_giveBack c _ _ true h
  · exact .refl h
  · exact rests_giveBack c _ _ _ h

theorem TableInv.not_busy (h : TableInv t) (hn : t.rbt true type i = some n) : n ∉ t.busy := by
  rintro ⟨ty, j, hbusy⟩
  obtain ⟨x, hx, rfl, rfl, -⟩ := h.stored true type i n hn
  obtain ⟨y, hy, rfl, rfl, -⟩ := h.stored false ty j n hbusy
  rw [hx] at hy
  cases hy
  rcases h.apart x.fileType x.fileName.index with hnone | hnone
  · rw [hn] at hnone
    cases hnone
  · rw [hbusy] at hnone
    cases hnone

theorem TableInv.not_freed {idle : Bool} (h : TableInv t) (hn : t.rbt idle type i = some n) :
    t.freed n ≠ true := by
  obtain ⟨x, hx, -, -, hfreed⟩ := h.stored idle type i n hn
  simp [Table.freed, hx, hfreed]

theorem TableInv.not_busy_giveBack (h : TableInv t) {fileType : ℤ}
    (hcode : FileType.ofCode fileType = some type) (hn : t.rbt false type i = some n)
    (toIdle : Bool) : n ∉ (FileTable.giveBack c t fileType i toIdle).busy := by
  rintro ⟨ty, j, hbusy⟩
  obtain ⟨hj, hne⟩ := (busy_giveBack ..).1 hbusy
  obtain ⟨x, hx, rfl, rfl, -⟩ := h.stored false type i n hn
  obtain ⟨y, hy, rfl, rfl, -⟩ := h.stored false ty j n hj
  rw [hx] at hy
  cases hy
  exact hne ⟨hcode, rfl⟩

theorem TableInv.idle_giveBack (h : TableInv t) {fileType : ℤ}
    (hcode : FileType.ofCode fileType = some type) (hn : t.rbt false type i = some n) :
    (FileTable.giveBack c t fileType i true).rbt true type i = some n := by
  have hidle : t.rbt true type i = none := (h.apart type i).resolve_right (by rw [hn]; simp)
  have hplaces : SamePlaces t ((t.setRbt false type i none).fileNodeUsecntUpdate
      c.initialDirCnts n false) :=
    SamePlaces.trans (u := t.setRbt false type i none) (.of_eq rfl) (samePlaces_usecntUpdate ..)
  unfold FileTable.giveBack
  rw [hcode]
  dsimp only [Table.fileDeleteFormRbt]
  rw [hn]
  dsimp only
  rw [if_pos rfl, Table.fileInsertToRbt, hplaces.key, h.key_of_rbt hn, idle_update, hidle]
  exact if_pos ⟨rfl, rfl, rfl⟩

theorem freed_destroy_self {x : FileNode} (hx : t.node n = some x) (htype : x.fileType ≠ .dir)
    (hzero : x.usecnt = 0) : (t.fileNodeDestory n).freed n = true := by
  have hfree : (t.free n).freed n = true := by simp [Table.free, Table.freed, Table.setNode, hx]
  unfold Table.fileNodeDestory
  rw [hx]
  dsimp only
  cases hty : x.fileType with
  | dir => exact absurd hty htype
  | file =>
    dsimp only
    rwa [if_neg (not_not.2 hzero)]
  | symlink =>
    dsimp only
    rwa [if_neg (not_not.2 hzero)]

theorem CalmInv.freed_giveBack (h : CalmInv c t) {fileType : ℤ}
    (hcode : FileType.ofCode fileType = some type) (htype : type ≠ .dir)
    (hn : t.rbt false type i = some n) :
    (FileTable.giveBack c t fileType i false).freed n = true := by
  obtain ⟨x, hx, hxt, -⟩ := h.use.table.stored false type i n hn
  have htake : SamePlaces t (t.setRbt false type i none) := .of_eq rfl
  have hplaces := htake.trans (samePlaces_usecntUpdate _ c.initialDirCnts n false)
  have hhas := hplaces.hasNode.2 ⟨x, hx, hxt⟩
  have hcalm := h.calm.update h.use.tree c.initialDirCnts n false
    (v := t.setRbt false type i none) rfl n type hhas htype
  obtain ⟨y, hy, rfl⟩ := hhas
  have hzero : y.usecnt = 0 := by simpa [Table.usecnt, hy] using hcalm
  unfold FileTable.giveBack
  rw [hcode]
  dsimp only [Table.fileDeleteFormRbt]
  rw [hn]
  dsimp only
  rw [if_neg Bool.false_ne_true]
  exact freed_destroy_self hy htype hzero

end MyScripts.Shark.FileTable
