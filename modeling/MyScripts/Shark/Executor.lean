import MyScripts.Shark.SystemCall
import MyScripts.Shark.WorkerPool

/-!
# The executors of op lists

Each class of op list has an executor: it checks the list's target and runs
over the ops, a large switch making the call or calls of each, up to the first
that gives a negative result. Two of them count the ops that unlink the target
and unlink it after the loop; they also give nodes back through `mobile_list`.
-/
namespace MyScripts.Shark.Executor
open Library.Imperative FileTable Journal

variable {σ : Type} (sys : System σ)

/-- `*ret` and `op_list->perform_op_index` when the executor returns. The list is allocated with
`memset`, so its index is 0 where the executor does not set it. -/
structure Execution where
  ret : ℤ
  performOpIndex : ℤ
  deriving DecidableEq, Repr

def performOpIndexInit : ℤ := 0

structure Progress where
  ret : ℤ
  count : ℤ
  newname : List Char
  unlinks : ℕ
  deriving DecidableEq, Repr

abbrev Progress.Failed (p : Progress) : Prop := p.ret < 0

def Progress.start (ret : ℤ) (path : List Char) : Progress := ⟨ret, -1, path, 0⟩

abbrev Branch (σ : Type) := FileOp → Progress → StateM (World σ) Progress

abbrev Switch (σ : Type) := FileOp → Option (StateM (World σ) ℤ)

def Switch.branch (switch : Switch σ) : Branch σ := fun op p =>
  match switch op with
  | none => pure p
  | some m => do
    let ret ← m
    return { p with ret := ret }

def Progress.succeed (p : Progress) : Progress := { p with count := p.count + 1 }

def clearErrno (clears : Bool) : StateM (World σ) Unit :=
  if clears then setTmpErrno 0 else pure ()

def opStep (branch : Branch σ) (clears : Bool) : Branch σ := fun op p => do
  let p ← branch op p
  if p.Failed then return p
  else
    clearErrno clears
    return p.succeed

def runOps (branch : Branch σ) (clears : Bool) (ops : List FileOp) (ret : ℤ) (path : List Char) :
    StateM (World σ) Progress :=
  loop Progress.Failed (opStep branch clears) ops (.start ret path)

def Args.times (a : Args) : Times := ⟨a.time0Sec, a.time0Usec, a.time1Sec, a.time1Usec⟩

def lockUn : ℤ := 8

def lockOnce (fd operation : ℤ) : StateM (World σ) ℤ := do
  let r ← call sys (.flock fd operation)
  if r.ret ≠ 0 then
    saveErrno
    return r.ret
  else
    let r ← call sys (.flock fd lockUn)
    return r.ret

def syncDir (fd : ℤ) : StateM (World σ) ℤ := do
  let r ← call sys (.fsync fd)
  saveErrno
  return r.ret

def needOpenFileSwitch (fd : ℤ) : Switch σ := fun op =>
  match OpenedFileOp.ofCode op.op with
  | some .writev => some (openPwrite sys fd op.args.offset 512)
  | some .readv => some (openPreadv sys fd op.args.offset 1)
  | some .fallocate => some (openFallocate sys fd op.args.fallocateOffset op.args.fallocateLen
      op.args.fallocateMode)
  | some .ftruncate => some (openFtruncate sys fd op.args.length)
  | some .fsync => some (openSync sys fd)
  | some .fgetxattr => some (openFgetxattr sys fd)
  | some .fsetxattr => some (openFsetxattr sys fd)
  | some .fremovexattr => some (openFremovexattr sys fd)
  | some .fchown => some (openFchown sys fd op.args.owner op.args.group)
  | some .fchmod => some (openFchmod sys fd op.args.mode)
  | some .futimes => some (openFutimes sys fd (Args.times op.args))
  | some .fstat => some (openFstat sys fd)
  | some .lk => some (lockOnce sys fd op.args.operation)
  | _ => none

def needOpenDirecSwitch (path : List Char) (fd : ℤ) : Switch σ := fun op =>
  match OpenedDirOp.ofCode op.op with
  | some .fsync => some (syncDir sys fd)
  | some .fgetxattr => some (openFgetxattr sys fd)
  | some .fsetxattr => some (openFsetxattr sys fd)
  | some .fremovexattr => some (openFremovexattr sys fd)
  | some .readdir => some (dircReaddir sys path)
  | some .fchown => some (openFchown sys fd op.args.owner op.args.group)
  | some .fchmod => some (openFchmod sys fd op.args.mode)
  | some .futimes => some (openFutimes sys fd (Args.times op.args))
  | some .fstat => some (openFstat sys fd)
  | _ => none

/-- The branch of `STATFS_DIR_OP` has its `break` in front of the call. -/
def operationDirecSwitch (mount : Mount) (path : List Char) : Switch σ := fun op =>
  match NoOpenDirOp.ofCode op.op with
  | some .symlink => some (operationSymlink sys path (mount ++ op.args.newpath))
  | some .setxattr => some (operationSetxattr sys path)
  | some .getxattr => some (operationGetxattr sys path)
  | some .removexattr => some (operationRemovexattr sys path)
  | some .chown => some (operationChown sys path op.args.owner op.args.group)
  | some .chmod => some (operationChmod sys path op.args.mode)
  | some .utimes => some (operationUtimes sys path (Args.times op.args))
  | some .stat => some (operationStat sys path)
  | some .statfs => none
  | some .access => some (operationAccess sys path op.args.accessMode)
  | _ => none

def operationFileSwitch (mount : Mount) (newname : List Char) : Switch σ := fun op =>
  match NoOpenFileOp.ofCode op.op with
  | some .symlink => some (operationSymlink sys newname (mount ++ op.args.newpath))
  | some .link => some (operationLink sys newname (mount ++ op.args.newpath))
  | some .truncate => some (operationTruncate sys newname op.args.length)
  | some .getxattr => some (operationGetxattr sys newname)
  | some .setxattr => some (operationSetxattr sys newname)
  | some .removexattr => some (operationRemovexattr sys newname)
  | some .access => some (operationAccess sys newname op.args.accessMode)
  | some .chown => some (operationChown sys newname op.args.owner op.args.group)
  | some .chmod => some (operationChmod sys newname op.args.mode)
  | some .utimes => some (operationUtimes sys newname (Args.times op.args))
  | some .stat => some (operationStat sys newname)
  | some .statfs => some (operationStatfs sys newname)
  | _ => none

def mobile (c : Config) (type : FileType) (path : List Char) : StateM (World σ) Unit :=
  modify fun w => { w with table := mobileList c w.table path type.code false }

def renameBranch (c : Config) (mount : Mount) : Branch σ := fun op p => do
  let ret ← operationRename sys p.newname (mount ++ op.args.newpath)
  mobile c .file p.newname
  return { p with ret := ret, newname := if ret = 0 then mount ++ op.args.newpath else p.newname }

def Progress.unlink (p : Progress) : Progress := { p with unlinks := p.unlinks + 1 }

def operationFileBranch (c : Config) (mount : Mount) : Branch σ := fun op p =>
  match NoOpenFileOp.ofCode op.op with
  | some .rename => renameBranch sys c mount op p
  | some .unlink => pure p.unlink
  | _ => (operationFileSwitch sys mount p.newname).branch op p

def symlinkOperationBranch (path : List Char) : Branch σ := fun op p =>
  match SymlinkOp.ofCode op.op with
  | some .readlink => Switch.branch (fun _ => some (operationReadlink sys path)) op p
  | some .unlink => pure p.unlink
  | _ => pure p

theorem operationFileBranch_cases (c : Config) (mount : Mount) (op : FileOp) (p : Progress) :
    (NoOpenFileOp.ofCode op.op = some .rename ∧
      operationFileBranch sys c mount op p = renameBranch sys c mount op p) ∨
    (NoOpenFileOp.ofCode op.op = some .unlink ∧
      operationFileBranch sys c mount op p = pure p.unlink) ∨
    ((NoOpenFileOp.ofCode op.op ≠ some .rename ∧ NoOpenFileOp.ofCode op.op ≠ some .unlink) ∧
      operationFileBranch sys c mount op p =
        (operationFileSwitch sys mount p.newname).branch op p) := by
  unfold operationFileBranch
  split
  · next h => exact Or.inl ⟨h, rfl⟩
  · next h => exact Or.inr (Or.inl ⟨h, rfl⟩)
  · next h h' => exact Or.inr (Or.inr ⟨⟨h, h'⟩, rfl⟩)

theorem symlinkOperationBranch_cases (path : List Char) (op : FileOp) (p : Progress) :
    (SymlinkOp.ofCode op.op = some .readlink ∧ symlinkOperationBranch sys path op p =
      Switch.branch (fun _ => some (operationReadlink sys path)) op p) ∨
    (SymlinkOp.ofCode op.op = some .unlink ∧
      symlinkOperationBranch sys path op p = pure p.unlink) ∨
    ((SymlinkOp.ofCode op.op ≠ some .readlink ∧ SymlinkOp.ofCode op.op ≠ some .unlink) ∧
      symlinkOperationBranch sys path op p = pure p) := by
  unfold symlinkOperationBranch
  split
  · next h => exact Or.inl ⟨h, rfl⟩
  · next h => exact Or.inr (Or.inl ⟨h, rfl⟩)
  · next h h' => exact Or.inr (Or.inr ⟨⟨h, h'⟩, rfl⟩)

def failed : StateM (World σ) Execution := do
  saveErrno
  return ⟨-1, performOpIndexInit⟩

/-- What `need_open_file`, `need_open_direc` and `operation_direc` differ in. -/
structure SimpleExecutor (σ : Type) where
  kind : Kind
  opens : Option OpenFlags
  switch : ℤ → Switch σ
  clears : Bool

/-- The descriptor is compared with 0, not with -1. -/
def openTarget (opens : Option OpenFlags) (path : List Char) :
    StateM (World σ) (Option ℤ) :=
  match opens with
  | none => return some 0
  | some flags => do
    let fd ← call sys (.openPath path flags)
    if fd.ret = 0 then return none else return some fd.ret

def enter (kind : Kind) (opens : Option OpenFlags) (path : List Char) :
    StateM (World σ) (Option (ℤ × ℤ)) := do
  let buf ← call sys (.stat path)
  if buf.ret = -1 ∨ buf.kind ≠ kind then return none
  else
    let fd ← openTarget sys opens path
    return fd.map (buf.ret, ·)

def leave (opens : Option OpenFlags) (fd : ℤ) : StateM (World σ) Unit :=
  match opens with
  | none => pure ()
  | some _ => do
    let _ ← call sys (.close fd)

def SimpleExecutor.execute (e : SimpleExecutor σ) (path : List Char) (ops : List FileOp) :
    StateM (World σ) Execution := do
  match ← enter sys e.kind e.opens path with
  | none => failed
  | some (ret, fd) =>
    let p ← runOps (e.switch fd).branch e.clears ops ret path
    leave sys e.opens fd
    return ⟨p.ret, p.count⟩

def needOpenFile : SimpleExecutor σ where
  kind := .reg
  opens := some .rdwr
  switch := needOpenFileSwitch sys
  clears := true

def needOpenDirec (path : List Char) : SimpleExecutor σ where
  kind := .dir
  opens := some .rdonly
  switch := needOpenDirecSwitch sys path
  clears := false

def operationDirec (mount : Mount) (path : List Char) : SimpleExecutor σ where
  kind := .dir
  opens := none
  switch := fun _ => operationDirecSwitch sys mount path
  clears := false

def ceateFile (path : List Char) (ops : List FileOp) : StateM (World σ) Execution := do
  let buf ← call sys (.stat path)
  if buf.ret = 0 then (needOpenFile sys).execute sys path ops
  else
    let fd ← call sys (.openPath path .create)
    if fd.ret = 0 then failed
    else
      let _ ← call sys (.close fd.ret)
      (needOpenFile sys).execute sys path ops

def eexist : ℤ := 17

def mkdirDirec (path : List Char) : StateM (World σ) Execution := do
  let buf ← call sys (.stat path)
  if buf.ret = 0 then
    setTmpErrno eexist
    return ⟨0, performOpIndexInit⟩
  else
    let r ← call sys (.mkdir path)
    if r.ret = -1 then failed else return ⟨r.ret, performOpIndexInit⟩

/-- `if (unlink_count > 1) *ret = operation_unlink (newname, tmp_errno);` -/
def deferredUnlink (p : Progress) : StateM (World σ) ℤ :=
  if 1 < p.unlinks then operationUnlink sys p.newname else pure p.ret

/-- What follows the loop. Only `operation_file` saves `errno` again when the result is -1. -/
def finish (c : Config) (type : FileType) (saves : Bool) (p : Progress) :
    StateM (World σ) Execution := do
  if p.unlinks = 0 then return ⟨p.ret, p.count⟩
  else
    let ret ← deferredUnlink sys p
    mobile c type p.newname
    if ret = -1 ∧ saves = true then
      saveErrno
      return ⟨ret, p.count⟩
    else return ⟨ret, p.count⟩

def operationFile (c : Config) (mount : Mount) (path : List Char) (ops : List FileOp) :
    StateM (World σ) Execution := do
  let buf ← call sys (.stat path)
  if buf.ret ≠ 0 ∨ buf.kind ≠ .reg then failed
  else
    let p ← runOps (operationFileBranch sys c mount) true ops buf.ret path
    finish sys c .file true p

/-- The result -1 of a check that fails is kept for the loop, which is entered all the same. -/
def checkSymlink (path : List Char) : StateM (World σ) ℤ := do
  let buf ← call sys (.lstat path)
  if buf.ret = -1 ∨ buf.kind ≠ .lnk then error else return buf.ret

def symlinkOperation (c : Config) (path : List Char) (ops : List FileOp) :
    StateM (World σ) Execution := do
  let ret ← checkSymlink sys path
  let p ← runOps (symlinkOperationBranch sys path) false ops ret path
  finish sys c .symlink false p

/-- The worker after the execution; its `op_index` is unsigned. -/
def workerOf (mount : Mount) (l : JournalOpList) (r : Execution) : Worker :=
  operMalloc mount l (Field.toUInt32 r.performOpIndex) r.ret

variable {sys} {Q : SysCall → Bool} {I : World σ → Prop}

def Switch.Makes (sys : System σ) (Q : SysCall → Bool) (switch : Switch σ) : Prop :=
  ∀ op m, switch op = some m → Executor.Makes sys Q Outcome m

theorem makes_lockOnce (fd operation : ℤ) :
    Makes sys SysCall.isPlain Outcome (lockOnce sys fd operation) := by
  apply (makes_call rfl).bind
  intro r hr
  apply Confined.ite
  · exact fun _ => makes_saveErrno.bind fun _ _ => makes_return (hr rfl)
  · exact fun _ => makes_raw rfl rfl

theorem makes_needOpenFile (fd : ℤ) : (needOpenFileSwitch sys fd).Makes sys SysCall.isPlain := by
  intro op m h
  unfold needOpenFileSwitch at h
  split at h <;> cases h
  · exact makes_openPwrite fd _ 512 rfl
  · exact makes_openPreadv fd _ 1
  · exact makes_openFallocate fd _ _ _
  · exact makes_openFtruncate fd _
  · exact makes_checked rfl
  · exact makes_openFgetxattr fd
  · exact makes_openFsetxattr fd
  · exact makes_openFremovexattr fd
  · exact makes_checked rfl
  · exact makes_checked rfl
  · exact makes_checked rfl
  · exact makes_checked rfl
  · exact makes_lockOnce fd _

theorem makes_needOpenDirec (path : List Char) (fd : ℤ) :
    (needOpenDirecSwitch sys path fd).Makes sys SysCall.isPlain := by
  intro op m h
  unfold needOpenDirecSwitch at h
  split at h <;> cases h
  · exact makes_raw_save rfl rfl
  · exact makes_openFgetxattr fd
  · exact makes_openFsetxattr fd
  · exact makes_openFremovexattr fd
  · exact makes_dircReaddir path
  · exact makes_checked rfl
  · exact makes_checked rfl
  · exact makes_checked rfl
  · exact makes_checked rfl

theorem makes_operationDirec (mount : Mount) (path : List Char) :
    (operationDirecSwitch sys mount path).Makes sys SysCall.isPlain := by
  intro op m h
  unfold operationDirecSwitch at h
  split at h <;> cases h
  · exact makes_makeLink _ rfl rfl
  · exact makes_operationSetxattr path
  · exact makes_operationGetxattr path
  · exact makes_operationRemovexattr path
  · exact makes_checked rfl
  · exact makes_checked rfl
  · exact makes_checked rfl
  · exact makes_checkedZero rfl
  · exact makes_operationAccess path _

theorem makes_mild {α : Type} {P : α → Prop} {m : StateM (World σ) α}
    (h : Makes sys SysCall.isPlain P m) : Makes sys SysCall.isMild P m where
  keeps := fun I hI => h.keeps I ⟨fun c hc => hI.1 c (Bool.and_eq_true_iff.1 hc).1, hI.2⟩
  gives := h.gives

theorem makes_operationFile (mount : Mount) (newname : List Char) :
    (operationFileSwitch sys mount newname).Makes sys SysCall.isMild := by
  intro op m h
  unfold operationFileSwitch at h
  split at h <;> cases h
  · exact makes_makeLink _ rfl rfl
  · exact makes_makeLink _ rfl rfl
  · exact makes_checked rfl
  · exact makes_mild (makes_operationGetxattr newname)
  · exact makes_mild (makes_operationSetxattr newname)
  · exact makes_mild (makes_operationRemovexattr newname)
  · exact makes_mild (makes_operationAccess newname _)
  · exact makes_checked rfl
  · exact makes_checked rfl
  · exact makes_checked rfl
  · exact makes_checkedZero rfl
  · exact makes_checkedZero rfl

theorem Switch.Makes.keeps_branch {switch : Switch σ} (h : switch.Makes sys Q)
    (hI : Allowed sys Q I) (op : FileOp) (p : Progress) : Keeps I (switch.branch op p) := by
  unfold Switch.branch
  cases hm : switch op with
  | none => exact Keeps.pure p
  | some m => exact ((h op m hm).keeps I hI).bind fun ret => Keeps.pure _

theorem opStep_run (branch : Branch σ) (clears : Bool) (op : FileOp) (p : Progress)
    (w : World σ) : opStep branch clears op p w =
      if (branch op p w).1.Failed then branch op p w
      else ((branch op p w).1.succeed, (clearErrno clears (branch op p w).2).2) := by
  change (if (branch op p w).1.Failed then (pure (branch op p w).1 : StateM (World σ) Progress)
    else (do clearErrno clears; return (branch op p w).1.succeed)) (branch op p w).2 = _
  split_ifs
  · rfl
  · rfl

theorem opStep_eq (branch : Branch σ) (clears : Bool) (op : FileOp) (p : Progress) (w : World σ) :
    (opStep branch clears op p w).1 =
      if (branch op p w).1.Failed then (branch op p w).1 else (branch op p w).1.succeed := by
  rw [opStep_run]
  split_ifs
  · rfl
  · rfl

theorem failed_opStep {branch : Branch σ} {clears : Bool} {op : FileOp} {p : Progress}
    {w : World σ} : (opStep branch clears op p w).1.Failed ↔ (branch op p w).1.Failed := by
  rw [opStep_eq]
  split_ifs
  · rfl
  · rfl

theorem keeps_clearErrno (hI : Allowed sys Q I) (clears : Bool) :
    Keeps I (clearErrno clears : StateM (World σ) Unit) := by
  apply Keeps.ite
  · exact fun w hw => hI.2 w 0 hw
  · exact Keeps.pure ()

theorem keeps_opStep {branch : Branch σ} {clears : Bool} {op : FileOp} {p : Progress}
    (hI : Allowed sys Q I) (h : Keeps I (branch op p)) : Keeps I (opStep branch clears op p) := by
  apply h.bind
  intro p'
  apply Keeps.ite
  · exact Keeps.pure p'
  · exact (keeps_clearErrno hI clears).bind fun _ => Keeps.pure _

theorem keeps_runOps {branch : Branch σ} {clears : Bool} {ops : List FileOp} {ret : ℤ}
    {path : List Char} (hI : Allowed sys Q I) (h : ∀ op p, Keeps I (branch op p)) :
    Keeps I (runOps branch clears ops ret path) :=
  Keeps.loop fun op _ p => keeps_opStep hI (h op p)

def Branch.KeepsCount (branch : Branch σ) : Prop := ∀ op p w, (branch op p w).1.count = p.count

theorem Switch.keepsCount (switch : Switch σ) : switch.branch.KeepsCount := by
  intro op p w
  unfold Switch.branch
  cases switch op with
  | none => rfl
  | some m => rfl

theorem keepsCount_operationFile (c : Config) (mount : Mount) :
    (operationFileBranch sys c mount).KeepsCount := by
  intro op p w
  rcases operationFileBranch_cases sys c mount op p with ⟨-, h⟩ | ⟨-, h⟩ | ⟨-, h⟩
  · rw [h]
    rfl
  · rw [h]
    rfl
  · rw [h]
    exact Switch.keepsCount _ op p w

section Count

variable {branch : Branch σ} {clears : Bool} {ops : List FileOp} {p : Progress} {w : World σ}

abbrev AllSucceed (branch : Branch σ) (clears : Bool) : List FileOp → Progress → World σ → Prop :=
  Succeeds Progress.Failed (opStep branch clears)

theorem count_of_allSucceed (hcount : branch.KeepsCount)
    (h : AllSucceed branch clears ops p w) :
    (loop Progress.Failed (opStep branch clears) ops p w).1.count = p.count + ops.length := by
  induction ops generalizing p w with
  | nil => exact (Int.add_zero _).symm
  | cons op ops ih =>
    have hop : (opStep branch clears op p w).1.count = p.count + 1 := by
      rw [opStep_eq, if_neg (fun hf => h.1 (failed_opStep.2 hf)), Progress.succeed, hcount]
    rw [loop_cons_of_not h.1, ih h.2, hop]
    simp only [List.length_cons]
    omega

theorem count_of_failsFirst {f : ℕ} (hcount : branch.KeepsCount) (hp : ¬p.Failed)
    (h : FailsFirst Progress.Failed (opStep branch clears) ops p w f) :
    (loop Progress.Failed (opStep branch clears) ops p w).1.count = p.count + f := by
  obtain ⟨op, -, hloop⟩ := h.loop_eq
  have hfailed := (bad_loop hp).2 h.not_succeeds
  rw [hloop] at hfailed ⊢
  rw [opStep_eq, if_pos (failed_opStep.1 hfailed), hcount, count_of_allSucceed hcount h.before,
    List.length_take, Nat.min_eq_left (Nat.le_of_lt h.lt)]

end Count

section Ends

variable {c : Config} {mount : Mount} {path : List Char} {ops : List FileOp} {w : World σ}

theorem finish_of_zero {p : Progress} (h : p.unlinks = 0) (type : FileType) (saves : Bool) :
    finish sys c type saves p w = (⟨p.ret, p.count⟩, w) := by
  change (if p.unlinks = 0 then (pure ⟨p.ret, p.count⟩ : StateM (World σ) Execution) else _) w = _
  rw [if_pos h]
  rfl

theorem finish_of_pos {p : Progress} (h : p.unlinks ≠ 0) (type : FileType) (saves : Bool) :
    (finish sys c type saves p w).1 = ⟨(deferredUnlink sys p w).1, p.count⟩ ∧
      (finish sys c type saves p w).2.sys = (deferredUnlink sys p w).2.sys ∧
      (finish sys c type saves p w).2.table =
        mobileList c (deferredUnlink sys p w).2.table p.newname type.code false := by
  have hrun : finish sys c type saves p w =
      (if (deferredUnlink sys p w).1 = -1 ∧ saves = true then (do
          saveErrno
          return ⟨(deferredUnlink sys p w).1, p.count⟩ : StateM (World σ) Execution)
        else pure ⟨(deferredUnlink sys p w).1, p.count⟩)
          (mobile c type p.newname (deferredUnlink sys p w).2).2 := by
    change (if p.unlinks = 0 then (pure ⟨p.ret, p.count⟩ : StateM (World σ) Execution) else _) w = _
    rw [if_neg h]
    rfl
  rw [hrun]
  split_ifs
  · exact ⟨rfl, rfl, rfl⟩
  · exact ⟨rfl, rfl, rfl⟩

theorem finish_performOpIndex (type : FileType) (saves : Bool) (p : Progress) :
    (finish sys c type saves p w).1.performOpIndex = p.count := by
  by_cases h : p.unlinks = 0
  · rw [finish_of_zero h]
  · rw [(finish_of_pos h type saves).1]

theorem operationFile_of_check (hstat : (sys.call (.stat path) w.sys).1.ret = 0)
    (hkind : (sys.call (.stat path) w.sys).1.kind = .reg) :
    let run := runOps (operationFileBranch sys c mount) true ops 0 path (call sys (.stat path) w).2
    operationFile sys c mount path ops w = finish sys c .file true run.1 run.2 := by
  change (if (sys.call (.stat path) w.sys).1.ret ≠ 0 ∨ (sys.call (.stat path) w.sys).1.kind ≠ .reg
    then (failed : StateM (World σ) Execution)
    else do
      let p ← runOps (operationFileBranch sys c mount) true ops
        (sys.call (.stat path) w.sys).1.ret path
      finish sys c .file true p) (call sys (.stat path) w).2 = _
  rw [if_neg (by rw [not_or, not_not, not_not]; exact ⟨hstat, hkind⟩), hstat]
  rfl

end Ends

end MyScripts.Shark.Executor
