import MyScripts.Library.Run
import MyScripts.Shark.FileNode
import MyScripts.Shark.JournalText

/-!
# Creating nodes and op lists, and giving nodes back

`file_node_create` makes a node, `file_oplist_create` takes a node from an idle
tree or makes one and adds the operations, some of which need nodes of their
own; `worker_move_list` and `mobile_list` take nodes out of the busy trees again.
What `random`, `mktemp` and the system calls return is given as data; `none` is
a call that does not return or a NULL pointer dereferenced.
-/
namespace MyScripts.Shark.FileTable
open Library.Run Library.Decimal Journal

structure Config where
  initialDirCnts : ℕ
  operationsOfOpenedDir : ℕ
  operationsOfUnopenedDir : ℕ
  operationsOfOpenedFile : ℕ
  operationsOfUnopenedFile : ℕ
  operationsOfSymlink : ℕ

namespace Table

def nameOf (t : Table) (n : NodeRef) : List Char := ((t.node n).map (·.fileName.print)).getD []

theorem nameOf_word (t : Table) (n : NodeRef) : ' ' ∉ t.nameOf n ∧ '\n' ∉ t.nameOf n := by
  unfold nameOf
  cases t.node n with
  | none => exact ⟨List.not_mem_nil, List.not_mem_nil⟩
  | some x =>
    exact ⟨not_mem_print (by decide) (by decide) (by decide) x.fileName,
      not_mem_print (by decide) (by decide) (by decide) x.fileName⟩

def addParents (t : Table) (ps : List NodeRef) (buf : Word) : Word :=
  ps.foldl (fun buf p => ⟨t.nameOf p ++ '/' :: buf, by
    simp only [List.mem_append, List.mem_cons, not_or]
    exact ⟨⟨(t.nameOf_word p).1, by decide, buf.2.1⟩, (t.nameOf_word p).2, by decide, buf.2.2⟩⟩) buf

def getPathForFileNode (t : Table) (n : NodeRef) : Word :=
  t.addParents (t.ancestors t.fresh n) ⟨t.nameOf n, t.nameOf_word n⟩

end Table

structure CreateDraws where
  parents : List ℕ
  suffix : Suffix
  calloc : Bool
  onTarget : Bool
  onCompare : Bool
  oldFiles : List ℕ

def selectParent (t : Table) : List ℕ → Option (Option NodeRef × Table)
  | [] => none
  | r :: rs =>
    let parIndex := if t.cnt .dir = 0 then 0 else r % t.cnt .dir
    if parIndex = 0 then some (none, t)
    else
      match t.fileDeleteFormRbt .dir parIndex true with
      | (none, t) => selectParent t rs
      | (some par, t) =>
        if t.checkPathDepth par then some (some par, t)
        else selectParent (t.fileInsertToRbt .dir par true) rs

/-- A node of the idle tree, with the index drawn as `file_oplist_create` does. For
files and symbolic links a draw of 0 is repeated, for directories it is looked up. -/
def selectIdle (t : Table) (type : FileType) : List ℕ → Option (NodeRef × Table)
  | [] => none
  | r :: rs =>
    let index := if t.cnt type = 0 then 0 else if t.cnt type = 1 then 1 else r % t.cnt type
    if type ≠ .dir ∧ 1 < t.cnt type ∧ index = 0 then selectIdle t type rs
    else
      match t.fileDeleteFormRbt type index true with
      | (none, t) => selectIdle t type rs
      | (some n, t) => some (n, t)

def putParToIdle (t : Table) : Option NodeRef → Table
  | none => t
  | some par => t.fileInsertToRbt .dir par true

/-- The branch of `file_node_create` for the initial files. A file a symbolic
link was to point to is not put back when `symlink` fails. -/
def createInitial (t : Table) (type : FileType) (n : NodeRef) (d : CreateDraws) : Option Table :=
  match type with
  | .dir | .file =>
    some (if d.onTarget ∧ d.onCompare then t.fileInsertToRbt type n true else t.free n)
  | .symlink =>
    if t.cnt .file = 0 then none
    else
      (selectIdle t .file d.oldFiles).map fun (oldFile, t) =>
        if d.onTarget ∧ d.onCompare then
          (t.fileInsertToRbt .file oldFile true).fileInsertToRbt .symlink n true
        else t.free n

def putInBusy (c : Config) (t : Table) (type : FileType) (n : NodeRef) : Table :=
  (t.fileInsertToRbt type n false).fileNodeUsecntUpdate c.initialDirCnts n true

def fileNodeCreate (c : Config) (t : Table) (type : FileType) (forOp : Bool) (d : CreateDraws) :
    Option (Option NodeRef × Table) :=
  let (currIndex, t) := t.getIdleIndex type
  (selectParent t d.parents).bind fun (par, t) =>
    if d.calloc then
      let (n, t) := t.alloc
        ⟨par, constructionFileName (currIndex + 1) type d.suffix, type, 0, false⟩
      (if forOp then some (putInBusy c t type n) else createInitial t type n d).map fun t =>
        (some n, putParToIdle t par)
    else some (none, putParToIdle t par)

structure OpDraw where
  calloc : Bool
  create : CreateDraws
  name : Word
  value : Word
  random : ℕ
  time0Sec : ℤ
  time0Usec : ℤ
  time1Sec : ℤ
  time1Usec : ℤ

def pseudoOff : ℕ := 1024 * 1024

def opArgs (d : OpDraw) : Op → Args
  | .openedDir .fsetxattr | .noOpenDir .setxattr | .openedFile .fsetxattr | .noOpenFile .setxattr =>
    { Args.zero with name := d.name, value := d.value, flags := 2 }
  | .openedDir .fgetxattr | .openedDir .fremovexattr | .noOpenDir .getxattr
  | .noOpenDir .removexattr | .openedFile .fgetxattr | .openedFile .fremovexattr
  | .noOpenFile .getxattr | .noOpenFile .removexattr => { Args.zero with name := d.name }
  | .openedDir .fchown | .noOpenDir .chown | .openedFile .fchown | .noOpenFile .chown =>
    { Args.zero with owner := 0, group := 0 }
  | .openedDir .fchmod | .noOpenDir .chmod | .openedFile .fchmod | .noOpenFile .chmod =>
    { Args.zero with mode := 667 }
  | .openedDir .futimes | .noOpenDir .utimes | .openedFile .futimes | .noOpenFile .utimes =>
    { Args.zero with
      time0Sec := d.time0Sec
      time0Usec := d.time0Usec
      time1Sec := d.time1Sec
      time1Usec := d.time1Usec }
  | .noOpenDir .access | .noOpenFile .access => { Args.zero with accessMode := 7 }
  | .openedFile .writev | .openedFile .readv =>
    { Args.zero with offset := (d.random % pseudoOff : ℕ) }
  | .openedFile .fallocate =>
    { Args.zero with
      fallocateMode := 0
      fallocateOffset := (d.random % pseudoOff : ℕ)
      fallocateLen := 512 }
  | .openedFile .ftruncate | .noOpenFile .truncate =>
    { Args.zero with length := (d.random % pseudoOff : ℕ) }
  | .openedFile .lk => { Args.zero with operation := 2 }
  | _ => Args.zero

def newNodeType : Op → Option FileType
  | .noOpenDir .symlink | .noOpenFile .symlink => some .symlink
  | .noOpenFile .rename | .noOpenFile .link => some .file
  | _ => none

/-- Renaming and removing a directory are turned into no operation. -/
def opCode (op : ℕ) : Option Op → ℕ
  | some (.noOpenDir .rename) | some (.noOpenDir .rmdir) => 0
  | _ => op

theorem opArgs_strings (d : OpDraw) (o : Op) : (opArgs d o).newpath = [] ∧
    ((opArgs d o).name = d.name ∨ (opArgs d o).name = []) ∧
    ((opArgs d o).value = d.value ∨ (opArgs d o).value = []) := by
  cases o with
  | openedDir o => cases o <;> simp [opArgs, Args.zero]
  | noOpenDir o => cases o <;> simp [opArgs, Args.zero]
  | openedFile o => cases o <;> simp [opArgs, Args.zero]
  | noOpenFile o => cases o <;> simp [opArgs, Args.zero]
  | symlink o => cases o <;> simp [opArgs, Args.zero]

theorem word_nil : ' ' ∉ ([] : List Char) ∧ '\n' ∉ ([] : List Char) :=
  ⟨List.not_mem_nil, List.not_mem_nil⟩

def plainOp (op opIndex : ℕ) (d : OpDraw) : Option Op → WordOp
  | none => ⟨⟨op, opIndex, Args.zero⟩, word_nil, word_nil, word_nil⟩
  | some o =>
    { toFileOp := ⟨opCode op (some o), opIndex, opArgs d o⟩
      newpath_word := by rw [(opArgs_strings d o).1]; exact word_nil
      name_word := by
        rcases (opArgs_strings d o).2.1 with h | h
        · rw [h]; exact d.name.2
        · rw [h]; exact word_nil
      value_word := by
        rcases (opArgs_strings d o).2.2 with h | h
        · rw [h]; exact d.value.2
        · rw [h]; exact word_nil }

def newpathOp (op opIndex : ℕ) (newpath : Word) : WordOp :=
  ⟨⟨op, opIndex, { Args.zero with newpath := newpath }⟩, newpath.2, word_nil, word_nil⟩

def newpathOf (t : Table) : Option NodeRef → Word
  | none => ⟨[], word_nil⟩
  | some n => t.getPathForFileNode n

abbrev Made := WordOp × Option NodeRef

def fileOpNew (c : Config) (t : Table) (opType : OpType) (op opIndex : ℕ) (d : OpDraw) :
    Option (Option Made × Table) :=
  if d.calloc then
    match (Op.ofCode opType op).bind newNodeType with
    | some type =>
      (fileNodeCreate c t type true d.create).map fun (n, t) =>
        (some (newpathOp op opIndex (newpathOf t n), n), t)
    | none => some (some (plainOp op opIndex d (Op.ofCode opType op), none), t)
  else some (none, t)

def fileOpsNew (c : Config) (opType : OpType) (draws : ℕ → ℕ × OpDraw) :
    (todo i : ℕ) → Table → Option (List Made × Table)
  | 0, _, t => some ([], t)
  | todo + 1, i, t =>
    (fileOpNew c t opType (draws i).1 i (draws i).2).bind fun (fop, t) =>
      (fileOpsNew c opType draws todo (i + 1) t).map fun (fops, t) => (fop.toList ++ fops, t)

structure FileOps where
  path : Word
  fileType : CInt
  isNew : CInt
  opType : OpType
  opsIndex : CInt
  made : List Made
  file : NodeRef

def FileOps.opList (l : FileOps) : OpList where
  path := l.path
  fileType := l.fileType
  isNew := l.isNew
  opType := ⟨l.opType.code, by cases l.opType <;> decide⟩
  opsIndex := l.opsIndex
  ops := l.made.map Prod.fst

def FileOps.acquired (l : FileOps) : List NodeRef := l.file :: l.made.filterMap Prod.snd

structure ListDraws where
  type : CInt
  isNew : CInt
  openKey : CInt
  pick : List ℕ
  create : CreateDraws
  ops : ℕ → ℕ × OpDraw

def newDirList (c : Config) (t : Table) (index : CInt) (d : ListDraws) : Option (FileOps × Table) :=
  (fileNodeCreate c t .dir true d.create).bind fun (file, t) =>
    file.map fun n => (⟨t.getPathForFileNode n, d.type, d.isNew, .noOpenDir, index, [], n⟩, t)

def dirList (c : Config) (t : Table) (index : CInt) (d : ListDraws) : Option (FileOps × Table) :=
  let opType := if d.openKey.1 = 1 then OpType.openedDir else .noOpenDir
  let count := if d.openKey.1 = 1 then c.operationsOfOpenedDir else c.operationsOfUnopenedDir
  (selectIdle t .dir d.pick).bind fun (n, t) =>
    (fileOpsNew c opType d.ops count 0 t).map fun (made, t) =>
      (⟨t.getPathForFileNode n, d.type, d.isNew, opType, index, made, n⟩, putInBusy c t .dir n)

def symlinkList (c : Config) (t : Table) (index : CInt) (d : ListDraws) :
    Option (FileOps × Table) :=
  (selectIdle t .symlink d.pick).bind fun (n, t) =>
    (fileOpsNew c .symlink d.ops c.operationsOfSymlink 0 t).map fun (made, t) =>
      (⟨t.getPathForFileNode n, d.type, ⟨0, by decide⟩, .symlink, index, made, n⟩,
        putInBusy c t .symlink n)

def newFileList (c : Config) (t : Table) (index : CInt) (d : ListDraws) :
    Option (FileOps × Table) :=
  (fileNodeCreate c t .file true d.create).bind fun (file, t) =>
    file.bind fun n =>
      (fileOpsNew c .openedFile d.ops c.operationsOfOpenedFile 0 t).map fun (made, t) =>
        (⟨t.getPathForFileNode n, d.type, d.isNew, .openedFile, index, made, n⟩, t)

/-- The node goes into the busy tree only when `is_new` is 0. -/
def fileList (c : Config) (t : Table) (index : CInt) (d : ListDraws) : Option (FileOps × Table) :=
  let opType := if d.openKey.1 = 1 then OpType.openedFile else .noOpenFile
  let count := if d.openKey.1 = 1 then c.operationsOfOpenedFile else c.operationsOfUnopenedFile
  (selectIdle t .file d.pick).bind fun (n, t) =>
    (fileOpsNew c opType d.ops count 0 t).map fun (made, t) =>
      (⟨t.getPathForFileNode n, d.type, d.isNew, opType, index, made, n⟩,
        if d.isNew.1 = 0 then putInBusy c t .file n else t)

def fileOplistCreate (c : Config) (t : Table) (index : CInt) (d : ListDraws) :
    Option (FileOps × Table) :=
  if d.type.1 = FileType.dir.code then
    if d.isNew.1 = 1 then newDirList c t index d else dirList c t index d
  else if d.type.1 = FileType.symlink.code then symlinkList c t index d
  else if d.isNew.1 = 1 then newFileList c t index d
  else fileList c t index d

structure Worker where
  opType : ℤ
  fileType : ℤ
  ops : List FileOp
  absPath : List Char
  opIndex : ℕ
  ret : ℤ

def operMalloc (mount : Mount) (args : JournalOpList) (opIndex : ℕ) (ret : ℤ) : Worker where
  opType := args.opType
  fileType := args.fileType
  ops := args.ops
  absPath := mount ++ args.path
  opIndex := opIndex
  ret := ret

def giveBack (c : Config) (t : Table) (fileType : ℤ) (index : ℕ) (toIdle : Bool) : Table :=
  match FileType.ofCode fileType with
  | none => t
  | some type =>
    match t.fileDeleteFormRbt type index false with
    | (none, t) => t
    | (some n, t) =>
      let t := t.fileNodeUsecntUpdate c.initialDirCnts n false
      if toIdle then t.fileInsertToRbt type n true else t.fileNodeDestory n

def moveOps (c : Config) (w : Worker) (hasNode : ℕ → Bool) : ℕ → List FileOp → Table → Table
  | _, [], t => t
  | index, op :: ops, t =>
    moveOps c w hasNode (index + 1) ops
      (if hasNode op.op then
        giveBack c t w.fileType (cutStrToInt op.args.newpath) (index ≤ w.opIndex)
      else t)

def fileOpHasNode (op : ℕ) : Bool :=
  op = NoOpenFileOp.rename.code ∨ op = NoOpenFileOp.link.code ∨ op = NoOpenFileOp.symlink.code

def dirOpHasNode (op : ℕ) : Bool := op = NoOpenDirOp.symlink.code

def workerMoveList (c : Config) (w : Worker) (t : Table) : Table :=
  let own := cutStrToInt w.absPath
  if w.opType = OpType.noOpenFile.code then
    giveBack c (moveOps c w fileOpHasNode 0 w.ops t) w.fileType own (w.ret = 0)
  else if w.opType = OpType.noOpenDir.code then
    if w.ret = 0 then giveBack c (moveOps c w dirOpHasNode 0 w.ops t) w.fileType own true
    else moveOps c w dirOpHasNode 0 w.ops t
  else if w.opType = OpType.openedDir.code then
    if w.ret = 0 then giveBack c t w.fileType own true else t
  else giveBack c t w.fileType own (w.ret = 0)

def mobileList (c : Config) (t : Table) (path : List Char) (type : ℤ) (choose : Bool) : Table :=
  giveBack c t type (cutStrToInt path) choose

structure State where
  table : Table
  lists : List FileOps

def State.init : State := ⟨Table.init, []⟩

inductive Event
  | create (type : FileType) (forOp : Bool) (d : CreateDraws)
  | oplist (index : CInt) (d : ListDraws)
  | move (w : Worker)
  | mobile (path : List Char) (type : ℤ) (choose : Bool)

def step (c : Config) (s : State) : Event → Option State
  | .create type forOp d =>
    (fileNodeCreate c s.table type forOp d).map fun r => { s with table := r.2 }
  | .oplist index d =>
    (fileOplistCreate c s.table index d).map fun r => ⟨r.2, s.lists ++ [r.1]⟩
  | .move w => some { s with table := workerMoveList c w s.table }
  | .mobile path type choose => some { s with table := mobileList c s.table path type choose }

end MyScripts.Shark.FileTable
