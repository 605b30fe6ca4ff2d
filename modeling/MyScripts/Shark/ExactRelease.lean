import MyScripts.Shark.FileTableRuns
import MyScripts.Shark.JournalFraming

/-!
# What `worker_move_list` takes out of the busy trees

`worker_move_list` looks indices up in the busy tree of the list's type: the
index in the list's path and those in the paths of the operations that have
nodes. Here that set of indices is compared with the nodes the list acquired.
-/
namespace MyScripts.Shark.FileTable
open Library.Run Library.Decimal Journal

variable {c : Config} {t : Table} {n : NodeRef} {type : FileType} {j : ℕ}

theorem rbt_addUsecnt (t : Table) (d : ℤ) (n : NodeRef) : (t.addUsecnt d n).rbt = t.rbt := by
  unfold Table.addUsecnt
  split <;> rfl

theorem rbt_usecntUpdate (t : Table) (initial : ℕ) (n : NodeRef) (isAdd : Bool) :
    (t.fileNodeUsecntUpdate initial n isAdd).rbt = t.rbt := by
  unfold Table.fileNodeUsecntUpdate
  generalize t.usecntPath initial n = ps
  induction ps generalizing t with
  | nil => rfl
  | cons p ps ih => exact (ih _).trans (rbt_addUsecnt t _ p)

theorem rbt_free (t : Table) (n : NodeRef) : (t.free n).rbt = t.rbt := by
  unfold Table.free
  split <;> rfl

theorem rbt_destroy (t : Table) (n : NodeRef) : (t.fileNodeDestory n).rbt = t.rbt := by
  rcases fileNodeDestory_cases t n with heq | ⟨heq, _⟩
  · rw [heq]
  · rw [heq]
    exact rbt_free t n

theorem busy_insert_idle (t : Table) (type : FileType) (n : NodeRef) :
    (t.fileInsertToRbt type n true).rbt false = t.rbt false := by
  unfold Table.fileInsertToRbt
  split
  · rfl
  · funext ty i
    rcases rbt_setRbt t true type (t.key n) (some n) false ty i with ⟨⟨h, _⟩, _⟩ | ⟨_, h⟩
    · cases h
    · exact h

theorem busy_take (t : Table) (type : FileType) (i : ℕ) (ty : FileType) (j : ℕ) (n : NodeRef) :
    (t.setRbt false type i none).rbt false ty j = some n ↔
      t.rbt false ty j = some n ∧ ¬(type = ty ∧ j = i) := by
  rcases rbt_setRbt t false type i none false ty j with ⟨⟨_, hty, hj⟩, h⟩ | ⟨hne, h⟩
  · rw [h]
    constructor
    · intro hnone
      cases hnone
    · intro hn
      exact absurd ⟨hty.symm, hj⟩ hn.2
  · rw [h]
    constructor
    · intro hn
      exact ⟨hn, fun hkey => hne ⟨rfl, hkey.1.symm, hkey.2⟩⟩
    · exact And.left

theorem busy_giveBack_eq (c : Config) (t : Table) {fileType : ℤ} (i : ℕ) (toIdle : Bool)
    (h : FileType.ofCode fileType = some type) :
    (giveBack c t fileType i toIdle).rbt false = (t.setRbt false type i none).rbt false := by
  unfold giveBack
  rw [h]
  dsimp only [Table.fileDeleteFormRbt]
  cases t.rbt false type i with
  | none => rfl
  | some m =>
    dsimp only
    by_cases hidle : toIdle = true
    · rw [if_pos hidle, busy_insert_idle, rbt_usecntUpdate]
    · rw [if_neg hidle, rbt_destroy, rbt_usecntUpdate]

theorem busy_giveBack (c : Config) (t : Table) (fileType : ℤ) (i : ℕ) (toIdle : Bool)
    (ty : FileType) (j : ℕ) (n : NodeRef) :
    (giveBack c t fileType i toIdle).rbt false ty j = some n ↔
      t.rbt false ty j = some n ∧ ¬(FileType.ofCode fileType = some ty ∧ j = i) := by
  cases h : FileType.ofCode fileType with
  | none =>
    unfold giveBack
    simp [h]
  | some type => rw [busy_giveBack_eq c t i toIdle h, busy_take, Option.some.injEq]

def opIndices (hasNode : ℕ → Bool) (ops : List FileOp) : List ℕ :=
  (ops.filter fun op => hasNode op.op).map fun op => cutStrToInt op.args.newpath

theorem busy_moveOps (c : Config) (w : Worker) (hasNode : ℕ → Bool) (index : ℕ)
    (ops : List FileOp) (t : Table) (ty : FileType) (j : ℕ) (n : NodeRef) :
    (moveOps c w hasNode index ops t).rbt false ty j = some n ↔
      t.rbt false ty j = some n ∧
        ¬(FileType.ofCode w.fileType = some ty ∧ j ∈ opIndices hasNode ops) := by
  induction ops generalizing t index with
  | nil => simp [moveOps, opIndices]
  | cons op ops ih =>
    rw [moveOps, ih]
    by_cases hop : hasNode op.op = true
    · rw [if_pos hop, busy_giveBack]
      simp only [opIndices, List.filter_cons, hop, if_true, List.map_cons, List.mem_cons]
      tauto
    · rw [if_neg hop]
      simp only [opIndices, List.filter_cons, hop, if_false, Bool.false_eq_true]

def lookedUp (w : Worker) : List ℕ :=
  let own := cutStrToInt w.absPath
  if w.opType = OpType.noOpenFile.code then own :: opIndices fileOpHasNode w.ops
  else if w.opType = OpType.noOpenDir.code then
    if w.ret = 0 then own :: opIndices dirOpHasNode w.ops else opIndices dirOpHasNode w.ops
  else if w.opType = OpType.openedDir.code then if w.ret = 0 then [own] else []
  else [own]

theorem busy_workerMoveList (c : Config) (w : Worker) (t : Table) (ty : FileType) (j : ℕ)
    (n : NodeRef) :
    (workerMoveList c w t).rbt false ty j = some n ↔
      t.rbt false ty j = some n ∧ ¬(FileType.ofCode w.fileType = some ty ∧ j ∈ lookedUp w) := by
  unfold workerMoveList lookedUp
  dsimp only
  split_ifs
  · rw [busy_giveBack, busy_moveOps, List.mem_cons]
    tauto
  · rw [busy_giveBack, busy_moveOps, List.mem_cons]
    tauto
  · rw [busy_moveOps]
  · rw [busy_giveBack, List.mem_singleton]
  · simp
  · rw [busy_giveBack, List.mem_singleton]

def hasNode : OpType → ℕ → Bool
  | .noOpenFile => fileOpHasNode
  | .noOpenDir => dirOpHasNode
  | _ => fun _ => false

theorem hasNode_cutCode (o : Op) : hasNode o.type (cutCode o) = (newNodeType o).isSome := by
  cases o with
  | openedDir o => cases o <;> rfl
  | noOpenDir o => cases o <;> rfl
  | openedFile o => cases o <;> rfl
  | noOpenFile o => cases o <;> rfl
  | symlink o => cases o <;> rfl

theorem row_of_newNodeType {o : Op} (h : newNodeType o = some type) :
    ∃ fn, row o = some ⟨fn, newpathField⟩ := by
  cases o with
  | openedDir o => cases h
  | noOpenDir o => cases o <;> first | exact ⟨_, rfl⟩ | cases h
  | openedFile o => cases h
  | noOpenFile o => cases o <;> first | exact ⟨_, rfl⟩ | cases h
  | symlink o => cases h

theorem cutOp_print {o : Op} {r : Row} (h : row o = some r) (op : WordOp) (i : OpInfo) (k : ℕ) :
    cutOp o.type.code k (r.print op.args i) =
      ⟨cutCode o, k, readFields op.args r.fields Args.zero⟩ := by
  rw [cutOp, cutStringOperation_print h op.args i fun lf _ => (op.get_print lf.2).1]
  rfl

theorem cutOp_node {t : OpType} {op : WordOp} {o : Op} {r : Row} (ho : Op.ofCode t op.op = some o)
    (hr : row o = some r) (i : OpInfo) (k : ℕ) :
    hasNode t (cutOp t.code k (r.print op.args i)).op = (newNodeType o).isSome ∧
      ((newNodeType o).isSome →
        (cutOp t.code k (r.print op.args i)).args.newpath = op.args.newpath) := by
  rw [← Op.type_of_ofCode ho, cutOp_print hr]
  refine ⟨hasNode_cutCode o, fun hnode => ?_⟩
  obtain ⟨type, htype⟩ := Option.isSome_iff_exists.1 hnode
  obtain ⟨fn, hrow⟩ := row_of_newNodeType htype
  rw [hr] at hrow
  cases hrow
  rfl

theorem emitted_eq_some {t : OpType} {i : OpInfo} {op : FileOp} {line : List Char} :
    emitted t.code i op = some line ↔
      ∃ o r, Op.ofCode t op.op = some o ∧ row o = some r ∧ r.print op.args i = line := by
  simp only [emitted, OpType.ofCode_code, Option.bind_some, Option.map_eq_some_iff,
    Option.bind_eq_some_iff]
  constructor
  · rintro ⟨r, ⟨o, ho, hr⟩, hline⟩
    exact ⟨o, r, ho, hr, hline⟩
  · rintro ⟨o, r, ho, hr, hline⟩
    exact ⟨r, ⟨o, ho, hr⟩, hline⟩

theorem mem_opLines_fileOps {L : FileOps} {group : ℤ} {line : List Char} :
    line ∈ L.opList.opLines group ↔ ∃ e ∈ L.made, ∃ o r, Op.ofCode L.opType e.1.op = some o ∧
      row o = some r ∧ r.print e.1.args ⟨group, L.opsIndex, e.1.opIndex⟩ = line := by
  have hmem : line ∈ L.opList.opLines group ↔ ∃ op ∈ L.made.map Prod.fst,
      emitted L.opType.code ⟨group, L.opsIndex, op.opIndex⟩ op.toFileOp = some line :=
    List.mem_filterMap
  rw [hmem]
  constructor
  · rintro ⟨_, hop, hline⟩
    obtain ⟨e, he, rfl⟩ := List.mem_map.1 hop
    exact ⟨e, he, emitted_eq_some.1 hline⟩
  · rintro ⟨e, he, hline⟩
    exact ⟨e.1, List.mem_map_of_mem he, emitted_eq_some.2 hline⟩

theorem mem_readBack {L : FileOps} {pool : Pool} {group : ℤ} {k : ℕ} {op : FileOp} :
    op ∈ (L.opList.readBack pool group k).ops ↔
      ∃ i, ∃ h : i < (L.opList.opLines group).length,
        cutOp L.opType.code i (L.opList.opLines group)[i] = op :=
  List.mem_mapIdx

theorem mem_opIndices (L : FileOps) (pool : Pool) (group : ℤ) (k i : ℕ) :
    i ∈ opIndices (hasNode L.opType) (L.opList.readBack pool group k).ops ↔
      ∃ e ∈ L.made, ((Op.ofCode L.opType e.1.op).bind newNodeType).isSome ∧
        cutStrToInt e.1.args.newpath = i := by
  simp only [opIndices, List.mem_map, List.mem_filter, mem_readBack]
  constructor
  · rintro ⟨_, ⟨⟨idx, hidx, rfl⟩, hnode⟩, hi⟩
    obtain ⟨e, he, o, r, ho, hr, hline⟩ := mem_opLines_fileOps.1 (List.getElem_mem hidx)
    obtain ⟨hsome, hpath⟩ := cutOp_node ho hr ⟨group, L.opsIndex, e.1.opIndex⟩ idx
    rw [← hline] at hnode hi
    rw [hsome] at hnode
    rw [hpath hnode] at hi
    exact ⟨e, he, by rw [ho]; exact hnode, hi⟩
  · rintro ⟨e, he, hnode, hi⟩
    obtain ⟨type, htype⟩ := Option.isSome_iff_exists.1 hnode
    obtain ⟨o, ho, hot⟩ := Option.bind_eq_some_iff.1 htype
    obtain ⟨fn, hr⟩ := row_of_newNodeType hot
    have hmem : _ ∈ L.opList.opLines group := mem_opLines_fileOps.2 ⟨e, he, o, _, ho, hr, rfl⟩
    obtain ⟨idx, hidx, hline⟩ := List.getElem_of_mem hmem
    obtain ⟨hsome, hpath⟩ := cutOp_node ho hr ⟨group, L.opsIndex, e.1.opIndex⟩ idx
    have hsome' : (newNodeType o).isSome = true := by rw [hot]; rfl
    refine ⟨_, ⟨⟨idx, hidx, rfl⟩, ?_⟩, ?_⟩
    · rw [hline, hsome, hsome']
    · rw [hline, hpath hsome', hi]

theorem cutStrToInt_nodeAt {x : FileNode} {dirs path dir : List Char}
    (hp : path = dirs ++ x.fileName.print) (hdirs : dirs = dir ++ ['/']) :
    cutStrToInt path = x.fileName.index := by
  rw [hp, hdirs, List.append_assoc, List.singleton_append, cutStrToInt_append]

theorem NodeAt.cutStrToInt_mount {path : List Char} (h : NodeAt t type n path) (mount : Mount) :
    ∃ x, t.node n = some x ∧ x.fileType = type ∧ cutStrToInt (mount ++ path) = x.fileName.index := by
  obtain ⟨x, dirs, hx, ht, hp, hdirs⟩ := h
  obtain ⟨m, hm⟩ := mount.2
  refine ⟨x, hx, ht, ?_⟩
  rcases hdirs with rfl | ⟨dir, hdir⟩
  · exact @cutStrToInt_nodeAt x mount.1 _ m (by rw [hp]; rfl) hm
  · exact @cutStrToInt_nodeAt x (mount.1 ++ dirs) _ (mount.1 ++ dir) (by rw [hp, List.append_assoc])
      (by rw [hdir, List.append_assoc])

theorem NodeAt.cutStrToInt {path : List Char} (h : NodeAt t type n path) (hslash : '/' ∈ path) :
    ∃ x, t.node n = some x ∧ x.fileType = type ∧
      FileTable.cutStrToInt path = x.fileName.index := by
  obtain ⟨x, dirs, hx, ht, hp, hdirs⟩ := h
  refine ⟨x, hx, ht, ?_⟩
  rcases hdirs with rfl | ⟨dir, hdir⟩
  · rw [hp, List.nil_append] at hslash
    exact absurd hslash (slash_not_mem_print x.fileName)
  · exact cutStrToInt_nodeAt hp hdir

def ExactRelease (c : Config) (t : Table) (L : FileOps) (w : Worker) : Prop :=
  ∀ type i n, (workerMoveList c w t).rbt false type i = some n ↔
    t.rbt false type i = some n ∧ n ∉ L.acquired

def FileOps.worker (L : FileOps) (mount : Mount) (pool : Pool) (group : ℤ) (k opIndex : ℕ)
    (ret : ℤ) : Worker :=
  operMalloc mount (L.opList.readBack pool group k) opIndex ret

structure Recoverable (L : FileOps) (ret : ℤ) : Prop where
  type : (FileType.ofCode L.fileType).isSome
  ret : classType L.opType = .dir → ret = 0
  ops : ∀ e ∈ L.made, e.2.isSome → (Op.ofCode L.opType e.1.op).bind newNodeType ≠ some .symlink ∧
    '/' ∈ e.1.args.newpath

theorem lookedUp_eq {w : Worker} {T : OpType} (hT : w.opType = T.code)
    (hret : classType T = .dir → w.ret = 0) :
    lookedUp w = FileTable.cutStrToInt w.absPath :: opIndices (hasNode T) w.ops := by
  have hnone : opIndices (fun _ => false) w.ops = [] := by simp [opIndices]
  unfold lookedUp
  rw [hT]
  cases T with
  | openedDir =>
    rw [hret rfl]
    simp [OpType.code, hasNode, hnone]
  | noOpenDir =>
    rw [hret rfl]
    simp [OpType.code, hasNode]
  | openedFile => simp [OpType.code, hasNode, hnone]
  | noOpenFile => simp [OpType.code, hasNode]
  | symlink => simp [OpType.code, hasNode, hnone]

theorem mem_lookedUp {L : FileOps} {ret : ℤ} (h : Recoverable L ret) (mount : Mount) (pool : Pool)
    (group : ℤ) (k opIndex i : ℕ) :
    i ∈ lookedUp (L.worker mount pool group k opIndex ret) ↔
      i = FileTable.cutStrToInt (mount ++ L.path) ∨
        ∃ e ∈ L.made, ((Op.ofCode L.opType e.1.op).bind newNodeType).isSome ∧
          FileTable.cutStrToInt e.1.args.newpath = i := by
  rw [lookedUp_eq (w := L.worker mount pool group k opIndex ret) (T := L.opType) rfl h.ret,
    List.mem_cons, ← mem_opIndices L pool group k]
  rfl

theorem classType_of_newNodeType {T : OpType} {op : ℕ}
    (h : (Op.ofCode T op).bind newNodeType = some type) (hlink : type ≠ .symlink) :
    classType T = type := by
  obtain ⟨o, ho, hnew⟩ := Option.bind_eq_some_iff.1 h
  rw [← Op.type_of_ofCode ho]
  cases o with
  | openedDir o => cases hnew
  | noOpenDir o => cases o <;> first | exact absurd (Option.some.inj hnew).symm hlink | cases hnew
  | openedFile o => cases hnew
  | noOpenFile o =>
    cases o <;> first | exact absurd (Option.some.inj hnew).symm hlink | cases hnew <;> rfl
  | symlink o => cases hnew

theorem mem_acquired {L : FileOps} {ret : ℤ} {x : FileNode} (ht : TableInv t) (hL : ListInfo t L)
    (h : Recoverable L ret) (mount : Mount) (pool : Pool) (group : ℤ) (k opIndex : ℕ)
    (hx : t.node n = some x) :
    n ∈ L.acquired ↔ FileType.ofCode L.fileType = some x.fileType ∧
      x.fileName.index ∈ lookedUp (L.worker mount pool group k opIndex ret) := by
  obtain ⟨type, htype⟩ := Option.isSome_iff_exists.1 h.type
  have hclass := hL.type type htype
  subst hclass
  obtain ⟨own, hown, hownType, hownIndex⟩ := hL.own.cutStrToInt_mount mount
  rw [mem_lookedUp h, htype, Option.some.injEq, FileOps.acquired, List.mem_cons,
    List.mem_filterMap]
  constructor
  · rintro (rfl | ⟨e, he, hn⟩)
    · rw [hx] at hown
      cases hown
      exact ⟨hownType.symm, Or.inl hownIndex.symm⟩
    · obtain ⟨hlink, hslash⟩ := h.ops e he (by rw [hn]; rfl)
      rcases hL.made e he with ⟨hnone, _⟩ | ⟨m, type, hm, hnew, hat⟩
      · rw [hnone] at hn
        cases hn
      · rw [hm] at hn
        cases hn
        obtain ⟨y, hy, hyType, hyIndex⟩ := hat.cutStrToInt hslash
        rw [hx] at hy
        cases hy
        have hfile := classType_of_newNodeType hnew (fun hs => hlink (hs ▸ hnew))
        refine ⟨hfile.trans hyType.symm, Or.inr ⟨e, he, ?_, hyIndex⟩⟩
        rw [hnew]
        rfl
  · rintro ⟨hxType, hindex | ⟨e, he, hnew, hindex⟩⟩
    · rw [hownIndex] at hindex
      exact Or.inl (ht.unique n L.file x own hx hown (hxType.symm.trans hownType.symm) hindex)
    · rcases hL.made e he with ⟨_, hpath⟩ | ⟨m, type, hm, htype', hat⟩
      · -- no node was made, and no node has index 0
        rw [hpath] at hindex
        have hpos := ht.index_pos n x hx
        rw [← hindex] at hpos
        exact absurd hpos (by decide)
      · obtain ⟨hlink, hslash⟩ := h.ops e he (by rw [hm]; rfl)
        obtain ⟨y, hy, hyType, hyIndex⟩ := hat.cutStrToInt hslash
        rw [hyIndex] at hindex
        have hfile := classType_of_newNodeType htype' (fun hs => hlink (hs ▸ htype'))
        have heq := ht.unique n m x y hx hy (hxType.symm.trans (hfile.trans hyType.symm))
          hindex.symm
        exact Or.inr ⟨e, he, heq ▸ hm⟩

/-- In every state of every run, `worker_move_list` on a recoverable list takes
exactly the nodes the list acquired out of the busy trees. -/
theorem exactRelease_of_exec {s : State} {es : List Event} {L : FileOps} {ret : ℤ} {mount : Mount}
    {pool : Pool} {group : ℤ} {k opIndex : ℕ} (hrun : exec (step c) State.init es = some s)
    (hL : L ∈ s.lists) (h : Recoverable L ret) :
    ExactRelease c s.table L (L.worker mount pool group k opIndex ret) := by
  intro type i n
  have hinv := inv_of_exec hrun
  have hworker : (L.worker mount pool group k opIndex ret).fileType = L.fileType := rfl
  rw [busy_workerMoveList, hworker]
  apply and_congr_right
  intro hn
  obtain ⟨x, hx, rfl, rfl, _⟩ := hinv.table.stored false type i n hn
  rw [mem_acquired hinv.table (hinv.lists L hL) h mount pool group k opIndex hx]

theorem exactRelease_rename : ∃ s L,
    exec (step sampleConfig) State.init (sampleRun NoOpenFileOp.rename.code) = some s ∧
      L ∈ s.lists ∧
      ExactRelease sampleConfig s.table L (L.worker ⟨['/'], [], rfl⟩ .disk 0 0 0 0) := by
  obtain ⟨s, L, hs, hL, hrec⟩ : ∃ s L, exec (step sampleConfig) State.init
      (sampleRun NoOpenFileOp.rename.code) = some s ∧ L ∈ s.lists ∧ Recoverable L 0 :=
    ⟨_, _, rfl, List.mem_cons_self .., rfl, fun _ => rfl, by decide⟩
  exact ⟨s, L, hs, hL, exactRelease_of_exec hs hL hrec⟩

theorem exactRelease_false_symlink : ∃ s L,
    exec (step sampleConfig) State.init (sampleRun NoOpenFileOp.symlink.code) = some s ∧
      L ∈ s.lists ∧
      ¬ExactRelease sampleConfig s.table L (L.worker ⟨['/'], [], rfl⟩ .disk 0 0 0 0) := by
  obtain ⟨s, L, hs, hL, htype, hbusy, hacquired⟩ : ∃ s L, exec (step sampleConfig) State.init
      (sampleRun NoOpenFileOp.symlink.code) = some s ∧ L ∈ s.lists ∧
      FileType.ofCode L.fileType = some .file ∧ s.table.rbt false .symlink 1 = some 3 ∧
      3 ∈ L.acquired := ⟨_, _, rfl, List.mem_cons_self .., rfl, rfl, by decide⟩
  refine ⟨s, L, hs, hL, fun h => ?_⟩
  have hstays := (busy_workerMoveList sampleConfig (L.worker ⟨['/'], [], rfl⟩ .disk 0 0 0 0)
    s.table .symlink 1 3).2 ⟨hbusy, fun hkey => ?_⟩
  · exact ((h .symlink 1 3).1 hstays).2 hacquired
  · have hfile : FileType.ofCode L.fileType = some .symlink := hkey.1
    rw [htype] at hfile
    cases hfile

end MyScripts.Shark.FileTable
