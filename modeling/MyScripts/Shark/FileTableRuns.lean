import MyScripts.Shark.FileTableInvariant

/-!
# Op lists and moves keep the node table

The functions that make an op list take nodes, make nodes and put them into the
busy trees; `worker_move_list` and `mobile_list` are sequences of give-backs.
Each is safe, so every run keeps the table's invariant, and an op list made in
the run keeps saying which nodes it has and under which paths.
-/
namespace MyScripts.Shark.FileTable
open Library.Run Journal

variable {c : Config} {t u v : Table} {n m : NodeRef} {type : FileType} {path : List Char}

def NodeAt (t : Table) (type : FileType) (n : NodeRef) (path : List Char) : Prop :=
  ∃ x dirs, t.node n = some x ∧ x.fileType = type ∧ path = dirs ++ x.fileName.print ∧
    (dirs = [] ∨ ∃ dir, dirs = dir ++ ['/'])

theorem NodeAt.extends (h : NodeAt t type n path) (he : Extends t u) : NodeAt u type n path := by
  obtain ⟨x, dirs, hx, ht, hp, hdirs⟩ := h
  obtain ⟨y, hy, _, hname, hty⟩ := he.node n x hx
  exact ⟨y, dirs, hy, hty.trans ht, by rw [hname, hp], hdirs⟩

theorem addParents_eq (t : Table) (ps : List NodeRef) (buf : Word) :
    ∃ dirs, (t.addParents ps buf).1 = dirs ++ buf.1 ∧ (dirs = [] ∨ ∃ dir, dirs = dir ++ ['/']) := by
  induction ps generalizing buf with
  | nil => exact ⟨[], rfl, Or.inl rfl⟩
  | cons p ps ih =>
    obtain ⟨dirs, heq, _⟩ := ih ⟨t.nameOf p ++ '/' :: buf, by
      simp only [List.mem_append, List.mem_cons, not_or]
      exact ⟨⟨(t.nameOf_word p).1, by decide, buf.2.1⟩, (t.nameOf_word p).2, by decide, buf.2.2⟩⟩
    refine ⟨(dirs ++ t.nameOf p) ++ ['/'], ?_, Or.inr ⟨_, rfl⟩⟩
    rw [Table.addParents, List.foldl_cons, ← Table.addParents, heq]
    simp

theorem HasNode.nodeAt (h : HasNode t n type) : NodeAt t type n (t.getPathForFileNode n) := by
  obtain ⟨x, hx, ht⟩ := h
  obtain ⟨dirs, heq, hdirs⟩ := addParents_eq t (t.ancestors t.fresh n) ⟨t.nameOf n, t.nameOf_word n⟩
  refine ⟨x, dirs, hx, ht, ?_, hdirs⟩
  rw [Table.getPathForFileNode, heq]
  simp [Table.nameOf, hx]

def MadeInfo (t : Table) (opType : OpType) (e : Made) : Prop :=
  (e.2 = none ∧ e.1.args.newpath = []) ∨
    ∃ n type, e.2 = some n ∧ (Op.ofCode opType e.1.op).bind newNodeType = some type ∧
      NodeAt t type n e.1.args.newpath

theorem MadeInfo.extends {opType : OpType} {e : Made} (h : MadeInfo t opType e)
    (he : Extends t u) : MadeInfo u opType e := by
  apply h.imp_right
  rintro ⟨n, type, hn, htype, hat⟩
  exact ⟨n, type, hn, htype, hat.extends he⟩

theorem plainOp_newpath (op opIndex : ℕ) (d : OpDraw) (o : Option Op) :
    (plainOp op opIndex d o).args.newpath = [] := by
  cases o with
  | none => rfl
  | some o => exact (opArgs_strings d o).1

theorem TableInv.fileOpNew {opType : OpType} {op i : ℕ} {d : OpDraw} {r : Option Made}
    (h : TableInv t) (hc : fileOpNew c t opType op i d = some (r, u)) :
    Safe t u ∧ ∀ e ∈ r, MadeInfo u opType e := by
  unfold FileTable.fileOpNew at hc
  by_cases hcalloc : d.calloc = true
  · rw [if_pos hcalloc] at hc
    cases hnew : (Op.ofCode opType op).bind newNodeType with
    | none =>
      rw [hnew] at hc
      cases hc
      refine ⟨h.safe, fun e he => ?_⟩
      cases he
      exact Or.inl ⟨rfl, plainOp_newpath ..⟩
    | some type =>
      rw [hnew] at hc
      obtain ⟨⟨file, w⟩, hfile, hr⟩ := Option.map_eq_some_iff.1 hc
      cases hr
      obtain ⟨hsafe, hnode⟩ := h.fileNodeCreate hfile
      refine ⟨hsafe, fun e he => ?_⟩
      cases he
      cases file with
      | none => exact Or.inl ⟨rfl, rfl⟩
      | some n => exact Or.inr ⟨n, type, rfl, hnew, (hnode n rfl).nodeAt⟩
  · rw [if_neg hcalloc] at hc
    cases hc
    exact ⟨h.safe, fun e he => by cases he⟩

theorem TableInv.fileOpsNew {opType : OpType} {draws : ℕ → ℕ × OpDraw} {todo i : ℕ}
    {made : List Made} (h : TableInv t) (hc : fileOpsNew c opType draws todo i t = some (made, u)) :
    Safe t u ∧ ∀ e ∈ made, MadeInfo u opType e := by
  induction todo generalizing t i made with
  | zero =>
    cases hc
    exact ⟨h.safe, fun e he => absurd he List.not_mem_nil⟩
  | succ todo ih =>
    rw [FileTable.fileOpsNew] at hc
    obtain ⟨⟨fop, w⟩, hfop, hc⟩ := Option.bind_eq_some_iff.1 hc
    obtain ⟨⟨fops, v⟩, hfops, hr⟩ := Option.map_eq_some_iff.1 hc
    cases hr
    obtain ⟨hfirst, hinfo⟩ := h.fileOpNew hfop
    obtain ⟨hrest, hinfos⟩ := ih hfirst.inv hfops
    refine ⟨hfirst.trans hrest, fun e he => ?_⟩
    rcases List.mem_append.1 he with he | he
    · exact (hinfo e (Option.mem_toList.1 he)).extends hrest.keeps.node
    · exact hinfos e he

def classType : OpType → FileType
  | .openedDir | .noOpenDir => .dir
  | .symlink => .symlink
  | .openedFile | .noOpenFile => .file

structure ListInfo (t : Table) (L : FileOps) : Prop where
  own : NodeAt t (classType L.opType) L.file L.path
  type : ∀ type, FileType.ofCode L.fileType = some type → type = classType L.opType
  made : ∀ e ∈ L.made, MadeInfo t L.opType e

theorem ListInfo.extends {L : FileOps} (h : ListInfo t L) (he : Extends t u) : ListInfo u L where
  own := h.own.extends he
  type := h.type
  made := fun e hmem => (h.made e hmem).extends he

def listType (code : ℤ) : FileType :=
  if code = FileType.dir.code then .dir
  else if code = FileType.symlink.code then .symlink
  else .file

theorem listType_of_ofCode {code : ℤ} (h : FileType.ofCode code = some type) :
    type = listType code := by
  unfold FileType.ofCode at h
  split at h <;> cases h <;> rfl

theorem TableInv.existing {pick : List ℕ} {opType : OpType} {draws : ℕ → ℕ × OpDraw} {count : ℕ}
    {made : List Made} (h : TableInv t) (hpick : FileTable.selectIdle t type pick = some (n, u))
    (hops : FileTable.fileOpsNew c opType draws count 0 u = some (made, v)) :
    (Safe t v ∧ Safe t (putInBusy c v type n)) ∧ Extends v (putInBusy c v type n) ∧
      NodeAt v type n (v.getPathForFileNode n) ∧ ∀ e ∈ made, MadeInfo v opType e := by
  have htakes := h.selectIdle hpick
  obtain ⟨hsafe, hinfo⟩ := htakes.inv.fileOpsNew hops
  have hput := (hsafe.keeps.loose type n (Set.notMem_empty n) htakes.held).put hsafe.inv false
  have husecnt := hput.1.usecntUpdate c.initialDirCnts n true
  exact ⟨⟨htakes.toSafe.trans hsafe, htakes.putInBusy hsafe⟩,
    (extends_insert ..).trans husecnt.keeps.node,
    (htakes.hasNode.extends hsafe.keeps.node).nodeAt, hinfo⟩

section Lists

variable {index : CInt} {d : ListDraws} {L : FileOps}

theorem TableInv.newDirList (h : TableInv t)
    (htype : ∀ ty, FileType.ofCode d.type = some ty → ty = .dir)
    (hc : newDirList c t index d = some (L, u)) : Safe t u ∧ ListInfo u L := by
  obtain ⟨⟨file, w⟩, hfile, hc⟩ := Option.bind_eq_some_iff.1 hc
  obtain ⟨n, hn, hr⟩ := Option.map_eq_some_iff.1 hc
  cases hr
  obtain ⟨hsafe, hnode⟩ := h.fileNodeCreate hfile
  exact ⟨hsafe, (hnode n hn).nodeAt, htype, fun e he => absurd he List.not_mem_nil⟩

theorem TableInv.dirList (h : TableInv t)
    (htype : ∀ ty, FileType.ofCode d.type = some ty → ty = .dir)
    (hc : dirList c t index d = some (L, u)) : Safe t u ∧ ListInfo u L := by
  obtain ⟨⟨n, w⟩, hpick, hc⟩ := Option.bind_eq_some_iff.1 hc
  obtain ⟨⟨made, v⟩, hops, hr⟩ := Option.map_eq_some_iff.1 hc
  cases hr
  obtain ⟨⟨_, hsafe⟩, hext, hat, hinfo⟩ := h.existing hpick hops
  have hclass : classType (if d.openKey.1 = 1 then .openedDir else .noOpenDir) = .dir := by
    split_ifs <;> rfl
  refine ⟨hsafe, ?_, ?_, fun e he => (hinfo e he).extends hext⟩
  · rw [hclass]
    exact hat.extends hext
  · rw [hclass]
    exact htype

theorem TableInv.symlinkList (h : TableInv t)
    (htype : ∀ ty, FileType.ofCode d.type = some ty → ty = .symlink)
    (hc : symlinkList c t index d = some (L, u)) : Safe t u ∧ ListInfo u L := by
  obtain ⟨⟨n, w⟩, hpick, hc⟩ := Option.bind_eq_some_iff.1 hc
  obtain ⟨⟨made, v⟩, hops, hr⟩ := Option.map_eq_some_iff.1 hc
  cases hr
  obtain ⟨⟨_, hsafe⟩, hext, hat, hinfo⟩ := h.existing hpick hops
  exact ⟨hsafe, hat.extends hext, htype, fun e he => (hinfo e he).extends hext⟩

theorem TableInv.newFileList (h : TableInv t)
    (htype : ∀ ty, FileType.ofCode d.type = some ty → ty = .file)
    (hc : newFileList c t index d = some (L, u)) : Safe t u ∧ ListInfo u L := by
  obtain ⟨⟨file, w⟩, hfile, hc⟩ := Option.bind_eq_some_iff.1 hc
  obtain ⟨n, hn, hc⟩ := Option.bind_eq_some_iff.1 hc
  obtain ⟨⟨made, v⟩, hops, hr⟩ := Option.map_eq_some_iff.1 hc
  cases hr
  obtain ⟨hsafe, hnode⟩ := h.fileNodeCreate hfile
  obtain ⟨hsafe', hinfo⟩ := hsafe.inv.fileOpsNew hops
  have hat := ((hnode n hn).extends hsafe'.keeps.node).nodeAt
  exact ⟨hsafe.trans hsafe', hat, htype, hinfo⟩

theorem TableInv.fileList (h : TableInv t)
    (htype : ∀ ty, FileType.ofCode d.type = some ty → ty = .file)
    (hc : fileList c t index d = some (L, u)) : Safe t u ∧ ListInfo u L := by
  obtain ⟨⟨n, w⟩, hpick, hc⟩ := Option.bind_eq_some_iff.1 hc
  obtain ⟨⟨made, v⟩, hops, hr⟩ := Option.map_eq_some_iff.1 hc
  cases hr
  obtain ⟨⟨hheld, hsafe⟩, hext, hat, hinfo⟩ := h.existing hpick hops
  have hclass : classType (if d.openKey.1 = 1 then .openedFile else .noOpenFile) = .file := by
    split_ifs <;> rfl
  by_cases hold : d.isNew.1 = 0
  · rw [if_pos hold]
    refine ⟨hsafe, ?_, ?_, fun e he => (hinfo e he).extends hext⟩
    · rw [hclass]
      exact hat.extends hext
    · rw [hclass]
      exact htype
  · -- the node stays out of the trees
    rw [if_neg hold]
    refine ⟨hheld, ?_, ?_, hinfo⟩
    · rw [hclass]
      exact hat
    · rw [hclass]
      exact htype

theorem TableInv.fileOplistCreate (h : TableInv t)
    (hc : fileOplistCreate c t index d = some (L, u)) : Safe t u ∧ ListInfo u L := by
  unfold FileTable.fileOplistCreate at hc
  have htype : ∀ ty, FileType.ofCode d.type = some ty → ty = listType d.type := fun ty hty =>
    listType_of_ofCode hty
  by_cases hdir : d.type.1 = FileType.dir.code
  · rw [if_pos hdir] at hc
    rw [listType, if_pos hdir] at htype
    by_cases hnew : d.isNew.1 = 1
    · rw [if_pos hnew] at hc
      exact h.newDirList htype hc
    · rw [if_neg hnew] at hc
      exact h.dirList htype hc
  · rw [if_neg hdir] at hc
    rw [listType, if_neg hdir] at htype
    by_cases hlink : d.type.1 = FileType.symlink.code
    · rw [if_pos hlink] at hc htype
      exact h.symlinkList htype hc
    · rw [if_neg hlink] at hc htype
      by_cases hnew : d.isNew.1 = 1
      · rw [if_pos hnew] at hc
        exact h.newFileList htype hc
      · rw [if_neg hnew] at hc
        exact h.fileList htype hc

end Lists

theorem TableInv.giveBack (h : TableInv t) (fileType : ℤ) (index : ℕ) (toIdle : Bool) :
    Safe t (giveBack c t fileType index toIdle) := by
  unfold FileTable.giveBack
  cases FileType.ofCode fileType with
  | none => exact h.safe
  | some type =>
    dsimp only [Table.fileDeleteFormRbt]
    cases hn : t.rbt false type index with
    | none => exact h.take false type index
    | some n =>
      have htakes := h.takes hn
      have husecnt := htakes.inv.usecntUpdate c.initialDirCnts n false
      dsimp only
      by_cases hidle : toIdle = true
      · rw [if_pos hidle]
        exact htakes.put husecnt true
      · rw [if_neg hidle]
        exact htakes.destroy husecnt

theorem TableInv.moveOps {w : Worker} {hasNode : ℕ → Bool} (h : TableInv t) (index : ℕ)
    (ops : List FileOp) : Safe t (moveOps c w hasNode index ops t) := by
  induction ops generalizing t index with
  | nil => exact h.safe
  | cons op ops ih =>
    rw [FileTable.moveOps]
    by_cases hop : hasNode op.op = true
    · rw [if_pos hop]
      have hback := h.giveBack (c := c) w.fileType (cutStrToInt op.args.newpath)
        (index ≤ w.opIndex)
      exact hback.trans (ih hback.inv _)
    · rw [if_neg hop]
      exact ih h _

theorem TableInv.workerMoveList (h : TableInv t) (w : Worker) : Safe t (workerMoveList c w t) := by
  have hops : ∀ hasNode toIdle, Safe t (FileTable.giveBack c
      (FileTable.moveOps c w hasNode 0 w.ops t) w.fileType (cutStrToInt w.absPath) toIdle) := by
    intro hasNode toIdle
    have hmove : Safe t (FileTable.moveOps c w hasNode 0 w.ops t) := h.moveOps 0 w.ops
    exact hmove.trans (hmove.inv.giveBack ..)
  unfold FileTable.workerMoveList
  dsimp only
  split_ifs
  · exact hops fileOpHasNode _
  · exact hops dirOpHasNode true
  · exact h.moveOps 0 w.ops
  · exact h.giveBack ..
  · exact h.safe
  · exact h.giveBack ..

/-- What the functions have to keep for the whole of every run to keep it. -/
structure TableRule (c : Config) (I : Table → Prop) : Prop where
  table : ∀ {t}, I t → TableInv t
  create : ∀ {t u type forOp d r}, I t → fileNodeCreate c t type forOp d = some (r, u) → I u
  select : ∀ {t u type pick n}, I t → selectIdle t type pick = some (n, u) → I u
  busy : ∀ {t type n}, I t → Loose t type n → I (putInBusy c t type n)
  back : ∀ {t} fileType index toIdle, I t → I (giveBack c t fileType index toIdle)

section TableRule

variable {I : Table → Prop}

theorem TableRule.fileOpNew {opType : OpType} {op i : ℕ} {d : OpDraw} {r : Option Made}
    (hI : TableRule c I) (h : I t) (hc : fileOpNew c t opType op i d = some (r, u)) : I u := by
  unfold FileTable.fileOpNew at hc
  split_ifs at hc with hcalloc
  · cases hnew : (Op.ofCode opType op).bind newNodeType with
    | none =>
      rw [hnew] at hc
      obtain ⟨-, rfl⟩ := Prod.mk.inj (Option.some.inj hc)
      exact h
    | some type =>
      rw [hnew] at hc
      obtain ⟨⟨file, w⟩, hfile, hr⟩ := Option.map_eq_some_iff.1 hc
      obtain ⟨-, rfl⟩ := Prod.mk.inj hr
      exact hI.create h hfile
  · obtain ⟨-, rfl⟩ := Prod.mk.inj (Option.some.inj hc)
    exact h

theorem TableRule.fileOpsNew {opType : OpType} {draws : ℕ → ℕ × OpDraw} {todo i : ℕ}
    {made : List Made} (hI : TableRule c I) (h : I t)
    (hc : fileOpsNew c opType draws todo i t = some (made, u)) : I u := by
  induction todo generalizing t i made with
  | zero =>
    obtain ⟨-, rfl⟩ := Prod.mk.inj (Option.some.inj hc)
    exact h
  | succ todo ih =>
    rw [FileTable.fileOpsNew] at hc
    obtain ⟨⟨fop, w⟩, hfop, hc⟩ := Option.bind_eq_some_iff.1 hc
    obtain ⟨⟨fops, v⟩, hfops, hr⟩ := Option.map_eq_some_iff.1 hc
    obtain ⟨-, rfl⟩ := Prod.mk.inj hr
    exact ih (hI.fileOpNew h hfop) hfops

theorem TableRule.existing {pick : List ℕ} {opType : OpType} {draws : ℕ → ℕ × OpDraw} {count : ℕ}
    {made : List Made} (hI : TableRule c I) (h : I t) (hpick : selectIdle t type pick = some (n, u))
    (hops : FileTable.fileOpsNew c opType draws count 0 u = some (made, v)) :
    I v ∧ I (putInBusy c v type n) := by
  have htakes := (hI.table h).selectIdle hpick
  have hv := hI.fileOpsNew (hI.select h hpick) hops
  have hsafe := (htakes.inv.fileOpsNew hops).1
  exact ⟨hv, hI.busy hv (hsafe.keeps.loose type n (Set.notMem_empty n) htakes.held)⟩

theorem TableRule.fileOplistCreate {index : CInt} {d : ListDraws} {L : FileOps}
    (hI : TableRule c I) (h : I t) (hc : fileOplistCreate c t index d = some (L, u)) : I u := by
  unfold FileTable.fileOplistCreate at hc
  split_ifs at hc
  · -- a new directory
    obtain ⟨⟨file, w⟩, hfile, hc⟩ := Option.bind_eq_some_iff.1 hc
    obtain ⟨n, -, hr⟩ := Option.map_eq_some_iff.1 hc
    obtain ⟨-, rfl⟩ := Prod.mk.inj hr
    exact hI.create h hfile
  · obtain ⟨⟨n, w⟩, hpick, hc⟩ := Option.bind_eq_some_iff.1 hc
    obtain ⟨⟨made, v⟩, hops, hr⟩ := Option.map_eq_some_iff.1 hc
    obtain ⟨-, rfl⟩ := Prod.mk.inj hr
    exact (hI.existing h hpick hops).2
  · obtain ⟨⟨n, w⟩, hpick, hc⟩ := Option.bind_eq_some_iff.1 hc
    obtain ⟨⟨made, v⟩, hops, hr⟩ := Option.map_eq_some_iff.1 hc
    obtain ⟨-, rfl⟩ := Prod.mk.inj hr
    exact (hI.existing h hpick hops).2
  · -- a new file
    obtain ⟨⟨file, w⟩, hfile, hc⟩ := Option.bind_eq_some_iff.1 hc
    obtain ⟨n, -, hc⟩ := Option.bind_eq_some_iff.1 hc
    obtain ⟨⟨made, v⟩, hops, hr⟩ := Option.map_eq_some_iff.1 hc
    obtain ⟨-, rfl⟩ := Prod.mk.inj hr
    exact hI.fileOpsNew (hI.create h hfile) hops
  · obtain ⟨⟨n, w⟩, hpick, hc⟩ := Option.bind_eq_some_iff.1 hc
    obtain ⟨⟨made, v⟩, hops, hr⟩ := Option.map_eq_some_iff.1 hc
    obtain ⟨-, rfl⟩ := Prod.mk.inj hr
    obtain ⟨hheld, hbusy⟩ := hI.existing h hpick hops
    split_ifs
    · exact hbusy
    · exact hheld

theorem TableRule.moveOps {w : Worker} {hasNode : ℕ → Bool} (hI : TableRule c I) (h : I t)
    (index : ℕ) (ops : List FileOp) : I (moveOps c w hasNode index ops t) := by
  induction ops generalizing t index with
  | nil => exact h
  | cons op ops ih =>
    rw [FileTable.moveOps]
    split_ifs
    · exact ih (hI.back _ _ _ h) _
    · exact ih h _

theorem TableRule.workerMoveList (hI : TableRule c I) (h : I t) (w : Worker) :
    I (workerMoveList c w t) := by
  unfold FileTable.workerMoveList
  dsimp only
  split_ifs
  · exact hI.back _ _ _ (hI.moveOps h 0 w.ops)
  · exact hI.back _ _ _ (hI.moveOps h 0 w.ops)
  · exact hI.moveOps h 0 w.ops
  · exact hI.back _ _ _ h
  · exact h
  · exact hI.back _ _ _ h

theorem TableRule.step {s s' : State} {e : Event} (hI : TableRule c I) (h : I s.table)
    (hstep : FileTable.step c s e = some s') : I s'.table := by
  cases e with
  | create type forOp d =>
    obtain ⟨⟨n, u⟩, hc, rfl⟩ := Option.map_eq_some_iff.1 hstep
    exact hI.create h hc
  | oplist index d =>
    obtain ⟨⟨L, u⟩, hc, rfl⟩ := Option.map_eq_some_iff.1 hstep
    exact hI.fileOplistCreate h hc
  | move w =>
    obtain rfl := Option.some.inj hstep
    exact hI.workerMoveList h w
  | mobile path type choose =>
    obtain rfl := Option.some.inj hstep
    exact hI.back _ _ _ h

theorem TableRule.exec {s : State} {es : List Event} (hI : TableRule c I) (h : I Table.init)
    (hrun : Library.Run.exec (FileTable.step c) State.init es = some s) : I s.table :=
  invariant_exec (I := fun s => I s.table) (fun _ _ _ hs hstep => hI.step hs hstep) h hrun

end TableRule

structure Inv (s : State) : Prop where
  table : TableInv s.table
  lists : ∀ L ∈ s.lists, ListInfo s.table L

theorem inv_init : Inv State.init where
  table := tableInv_init
  lists := fun _ hL => absurd hL List.not_mem_nil

theorem Inv.safe {s : State} (h : Inv s) (hs : Safe s.table u) : Inv { s with table := u } where
  table := hs.inv
  lists := fun L hL => (h.lists L hL).extends hs.keeps.node

theorem Inv.step {s s' : State} {e : Event} (h : Inv s)
    (hstep : FileTable.step c s e = some s') : Inv s' := by
  cases e with
  | create type forOp d =>
    obtain ⟨⟨n, u⟩, hc, rfl⟩ := Option.map_eq_some_iff.1 hstep
    exact h.safe (h.table.fileNodeCreate hc).1
  | oplist index d =>
    obtain ⟨⟨L, u⟩, hc, rfl⟩ := Option.map_eq_some_iff.1 hstep
    obtain ⟨hsafe, hinfo⟩ := h.table.fileOplistCreate hc
    refine ⟨hsafe.inv, fun L' hL' => ?_⟩
    rcases List.mem_append.1 hL' with hL' | hL'
    · exact (h.lists L' hL').extends hsafe.keeps.node
    · rw [List.mem_singleton.1 hL']
      exact hinfo
  | move w =>
    cases hstep
    exact h.safe (h.table.workerMoveList w)
  | mobile path type choose =>
    cases hstep
    exact h.safe (h.table.giveBack ..)

theorem inv_of_exec {s : State} {es : List Event} (hrun : exec (step c) State.init es = some s) :
    Inv s :=
  invariant_exec (I := Inv) (fun _ _ _ hI hs => hI.step hs) inv_init hrun

structure TreesConsistent (t : Table) : Prop where
  typed : ∀ idle type i n, t.rbt idle type i = some n →
    ∃ x, t.node n = some x ∧ x.fileType = type ∧ x.freed = false
  once : ∀ type idle idle' i i' n n' x x', t.rbt idle type i = some n →
    t.rbt idle' type i' = some n' → t.node n = some x → t.node n' = some x' →
    x.fileName.index = x'.fileName.index → idle = idle' ∧ i = i' ∧ n = n'
  unique : ∀ n m x y, t.node n = some x → t.node m = some y → x.freed = false → y.freed = false →
    x.fileType = y.fileType → x.fileName.index = y.fileName.index → n = m

theorem TableInv.treesConsistent (h : TableInv t) : TreesConsistent t where
  typed := by
    intro idle type i n hn
    obtain ⟨x, hx, htype, _, hfreed⟩ := h.stored idle type i n hn
    exact ⟨x, hx, htype, hfreed⟩
  once := by
    intro type idle idle' i i' n n' x x' hn hn' hx hx' hindex
    have hi : ∀ idle i n x, t.rbt idle type i = some n → t.node n = some x →
        x.fileName.index = i := by
      intro idle i n x hn hx
      obtain ⟨y, hy, _, hi, _⟩ := h.stored idle type i n hn
      rw [hx] at hy
      cases hy
      exact hi
    have heq : i = i' := by rw [← hi idle i n x hn hx, ← hi idle' i' n' x' hn' hx', hindex]
    subst heq
    have hidle : idle = idle' := by
      -- an index in both trees of the type is what `apart` excludes
      rcases h.apart type i with hnone | hnone
      · cases idle <;> cases idle' <;> simp_all
      · cases idle <;> cases idle' <;> simp_all
    subst hidle
    rw [hn] at hn'
    exact ⟨rfl, rfl, Option.some.inj hn'⟩
  unique := fun n m x y hx hy _ _ => h.unique n m x y hx hy

/-- In every state of every run the trees and the nodes are consistent. -/
theorem treesConsistent_of_exec {s : State} {es : List Event}
    (hrun : exec (step c) State.init es = some s) : TreesConsistent s.table :=
  (inv_of_exec hrun).table.treesConsistent

def sampleConfig : Config := ⟨1, 1, 1, 1, 1, 1⟩

def sampleCreate : CreateDraws where
  parents := [1]
  suffix := ⟨"aB3xYz".toList, by decide, List.all_eq_true.1 (by decide)⟩
  calloc := true
  onTarget := true
  onCompare := true
  oldFiles := [0]

def sampleRun (op : ℕ) : List Event :=
  [.create .dir false sampleCreate,
    .create .dir false sampleCreate,
    .create .file false sampleCreate,
    .oplist (smallInt 0)
      { type := smallInt 3
        isNew := smallInt 0
        openKey := smallInt 0
        pick := [0]
        create := sampleCreate
        ops := fun _ => (op, ⟨true, sampleCreate, ⟨[], word_nil⟩, ⟨[], word_nil⟩, 0, 0, 0, 0, 0⟩) }]

theorem treesConsistent_rename : ∃ s,
    exec (step sampleConfig) State.init (sampleRun NoOpenFileOp.rename.code) = some s ∧
      TreesConsistent s.table := by
  obtain ⟨s, hs⟩ : ∃ s, exec (step sampleConfig) State.init
      (sampleRun NoOpenFileOp.rename.code) = some s := ⟨_, rfl⟩
  exact ⟨s, hs, treesConsistent_of_exec hs⟩

end MyScripts.Shark.FileTable
