import MyScripts.Shark.FaithfulExecution
import MyScripts.Shark.NodeRelease

/-!
# The two executors that unlink

`operation_file` and `symlink_operation` run their ops alike: an op that renames
the target gives the node of the old path back, an op that unlinks is counted,
and any other leaves the table and the path as they are. After the loop the
target is unlinked and its node given back.
-/
namespace MyScripts.Shark.Executor
open Library.Imperative FileTable Journal

variable {σ : Type} {sys : System σ} {c : Config} {mount : Mount} {path : List Char}

inductive UnlinkClass
  | noOpenFile
  | symlink
  deriving DecidableEq, Repr

namespace UnlinkClass

def type : UnlinkClass → FileType
  | noOpenFile => .file
  | symlink => .symlink

def kind : UnlinkClass → Kind
  | noOpenFile => .reg
  | symlink => .lnk

def probe (x : UnlinkClass) (path : List Char) : SysCall :=
  match x with
  | noOpenFile => .stat path
  | symlink => .lstat path

def saves : UnlinkClass → Bool
  | noOpenFile => true
  | symlink => false

def branch (x : UnlinkClass) (sys : System σ) (c : Config) (mount : Mount) (path : List Char) :
    Branch σ :=
  match x with
  | noOpenFile => operationFileBranch sys c mount
  | symlink => symlinkOperationBranch sys path

def execute (x : UnlinkClass) (sys : System σ) (c : Config) (mount : Mount) (path : List Char)
    (ops : List FileOp) : StateM (World σ) Execution :=
  match x with
  | noOpenFile => operationFile sys c mount path ops
  | symlink => symlinkOperation sys c path ops

def renames (x : UnlinkClass) (op : FileOp) : Bool :=
  match x with
  | noOpenFile => NoOpenFileOp.ofCode op.op = some .rename
  | symlink => false

def unlinks (x : UnlinkClass) (op : FileOp) : Bool :=
  match x with
  | noOpenFile => NoOpenFileOp.ofCode op.op = some .unlink
  | symlink => SymlinkOp.ofCode op.op = some .unlink

def finalPath (x : UnlinkClass) (mount : Mount) (path : List Char) (ops : List FileOp) :
    List Char :=
  ops.foldl (fun name op => if x.renames op then mount ++ op.args.newpath else name) path

def oldPaths (x : UnlinkClass) (mount : Mount) : List Char → List FileOp → List (List Char)
  | _, [] => []
  | name, op :: ops =>
    if x.renames op then name :: x.oldPaths mount (mount ++ op.args.newpath) ops
    else x.oldPaths mount name ops

def Check (x : UnlinkClass) (sys : System σ) (path : List Char) (s : σ) : Prop :=
  (sys.call (x.probe path) s).1.ret = 0 ∧ (sys.call (x.probe path) s).1.kind = x.kind

end UnlinkClass

theorem allowed_table (sys : System σ) (Q : SysCall → Bool) (I : Table → Prop) :
    Allowed sys Q (fun w : World σ => I w.table) :=
  ⟨fun _ _ _ h => h, fun _ _ h => h⟩

def Named (sys : System σ) (path : List Char) (s : σ) : Prop :=
  ∃ call s', (call = .stat path ∨ ∃ name, call = .rename name path) ∧
    (sys.call call s').1.ret = 0 ∧ (sys.call call s').2 = s

theorem operationRename_spec (name newname : List Char) :
    Triple (fun _ : World σ => True) (operationRename sys name newname)
      (fun ret w => ret = -1 ∨ (ret = 0 ∧ Named sys newname w.sys)) := by
  have hstat : Triple (fun _ : World σ => True) (call sys (.stat newname))
      (fun r w => r.ret = -1 ∨ (r.ret = 0 ∧ Named sys newname w.sys)) := by
    constructor
    intro w _
    rcases sys.status (.stat newname) w.sys rfl with h | h
    · exact Or.inr ⟨h, _, w.sys, Or.inl rfl, h, rfl⟩
    · exact Or.inl h
  have hrename : Triple (fun _ : World σ => True) (call sys (.rename name newname))
      (fun r w => r.ret = -1 ∨ (r.ret = 0 ∧ Named sys newname w.sys)) := by
    constructor
    intro w _
    rcases sys.status (.rename name newname) w.sys rfl with h | h
    · exact Or.inr ⟨h, _, w.sys, Or.inr ⟨name, rfl⟩, h, rfl⟩
    · exact Or.inl h
  apply Triple.ite
  · exact fun _ => Triple.pure fun _ _ => Or.inl rfl
  · intro _
    apply hstat.bind
    intro buf
    apply Triple.ite
    · intro hbuf
      apply Triple.bind (R := fun _ _ => True) ⟨fun _ _ => trivial⟩
      intro _
      apply Triple.ite
      · intro _
        apply hrename.bind
        intro r
        apply Triple.ite
        · exact fun _ => ⟨fun _ _ => Or.inl rfl⟩
        · exact fun hr => ⟨fun w hw => Or.inr (hw.resolve_left hr)⟩
      · exact fun _ => ⟨fun _ _ => Or.inl hbuf⟩
    · exact fun hbuf => Triple.pure fun w hw => Or.inr (hw.resolve_left hbuf)

section Op

variable {x : UnlinkClass} {op : FileOp} {p : Progress} {I : World σ → Prop}

theorem branch_of_renames (h : x.renames op = true) :
    x.type = .file ∧ x.branch sys c mount path op p = renameBranch sys c mount op p := by
  cases x with
  | symlink => cases h
  | noOpenFile =>
    rcases operationFileBranch_cases sys c mount op p with ⟨-, heq⟩ | ⟨hop, -⟩ | ⟨hop, -⟩
    · exact ⟨rfl, heq⟩
    · simp [UnlinkClass.renames, hop] at h
    · exact absurd (of_decide_eq_true h) hop.1

theorem branch_of_unlinks (h : x.unlinks op = true) :
    x.branch sys c mount path op p = pure p.unlink := by
  cases x with
  | noOpenFile =>
    rcases operationFileBranch_cases sys c mount op p with ⟨hop, -⟩ | ⟨-, heq⟩ | ⟨hop, -⟩
    · simp [UnlinkClass.unlinks, hop] at h
    · exact heq
    · exact absurd (of_decide_eq_true h) hop.2
  | symlink =>
    rcases symlinkOperationBranch_cases sys path op p with ⟨hop, -⟩ | ⟨-, heq⟩ | ⟨hop, -⟩
    · simp [UnlinkClass.unlinks, hop] at h
    · exact heq
    · exact absurd (of_decide_eq_true h) hop.2

def UnlinkClass.switch (x : UnlinkClass) (sys : System σ) (mount : Mount) (path : List Char)
    (p : Progress) : Switch σ :=
  match x with
  | noOpenFile => operationFileSwitch sys mount p.newname
  | symlink => fun op =>
    if SymlinkOp.ofCode op.op = some .readlink then some (operationReadlink sys path) else none

theorem branch_of_other (hrename : x.renames op = false) (hunlink : x.unlinks op = false) :
    x.branch sys c mount path op p = (x.switch sys mount path p).branch op p := by
  cases x with
  | noOpenFile =>
    rcases operationFileBranch_cases sys c mount op p with ⟨hop, -⟩ | ⟨hop, -⟩ | ⟨-, heq⟩
    · simp [UnlinkClass.renames, hop] at hrename
    · simp [UnlinkClass.unlinks, hop] at hunlink
    · exact heq
  | symlink =>
    rcases symlinkOperationBranch_cases sys path op p with ⟨hop, heq⟩ | ⟨hop, -⟩ | ⟨hop, heq⟩
    · exact heq.trans (by simp only [UnlinkClass.switch, Switch.branch, if_pos hop])
    · simp [UnlinkClass.unlinks, hop] at hunlink
    · exact heq.trans (by simp only [UnlinkClass.switch, Switch.branch, if_neg hop.1])

theorem UnlinkClass.makes_switch : (x.switch sys mount path p).Makes sys SysCall.isMild := by
  cases x with
  | noOpenFile => exact makes_operationFile mount p.newname
  | symlink =>
    intro op m h
    dsimp only [UnlinkClass.switch] at h
    split_ifs at h
    obtain rfl := Option.some.inj h
    exact makes_checked rfl

theorem keeps_branch (hI : Allowed sys SysCall.isMild I) (h : x.renames op = false) :
    Keeps I (x.branch sys c mount path op p) := by
  by_cases hunlink : x.unlinks op = true
  · rw [branch_of_unlinks hunlink]
    exact Keeps.pure _
  · rw [branch_of_other h (Bool.eq_false_iff.2 hunlink)]
    exact UnlinkClass.makes_switch.keeps_branch hI op p

theorem unlinks_of_renames (h : x.renames op = true) : x.unlinks op = false := by
  cases x with
  | symlink => cases h
  | noOpenFile => simp [UnlinkClass.unlinks, of_decide_eq_true h]

variable {w : World σ}

theorem renameBranch_run (op : FileOp) (p : Progress) (w : World σ) :
    let r := operationRename sys p.newname (mount ++ op.args.newpath) w
    renameBranch sys c mount op p w =
      ({ p with
          ret := r.1
          newname := if r.1 = 0 then mount ++ op.args.newpath else p.newname },
        { r.2 with table := mobileList c r.2.table p.newname FileType.file.code false }) :=
  rfl

theorem table_branch : (x.branch sys c mount path op p w).2.table =
    if x.renames op then mobileList c w.table p.newname x.type.code false else w.table := by
  split_ifs with h
  · obtain ⟨htype, heq⟩ : x.type = .file ∧
        x.branch sys c mount path op p = renameBranch sys c mount op p := branch_of_renames h
    have hkeep := (makes_operationRename p.newname (mount ++ op.args.newpath)).keeps _
      (allowed_table sys _ (· = w.table)) w rfl
    rw [heq, htype, renameBranch_run, hkeep]
  · exact keeps_branch (allowed_table sys _ (· = w.table)) (Bool.eq_false_iff.2 h) w rfl

theorem unlinks_branch : (x.branch sys c mount path op p w).1.unlinks =
    p.unlinks + if x.unlinks op then 1 else 0 := by
  by_cases hrename : x.renames op = true
  · rw [(branch_of_renames hrename).2, unlinks_of_renames hrename]
    rfl
  · by_cases hunlink : x.unlinks op = true
    · rw [branch_of_unlinks hunlink, if_pos hunlink]
      rfl
    · rw [branch_of_other (Bool.eq_false_iff.2 hrename) (Bool.eq_false_iff.2 hunlink),
        if_neg hunlink, Switch.branch]
      cases x.switch sys mount path p op with
      | none => rfl
      | some m => rfl

theorem newname_branch_of_not (h : x.renames op = false) :
    (x.branch sys c mount path op p w).1.newname = p.newname := by
  by_cases hunlink : x.unlinks op = true
  · rw [branch_of_unlinks hunlink]
    rfl
  · rw [branch_of_other h (Bool.eq_false_iff.2 hunlink), Switch.branch]
    cases x.switch sys mount path p op with
    | none => rfl
    | some m => rfl

/-- A `rename` that did not fail has named the new path. -/
theorem newname_branch_of_renames (h : x.renames op = true)
    (hok : ¬(x.branch sys c mount path op p w).1.Failed) :
    (x.branch sys c mount path op p w).1.newname = mount ++ op.args.newpath ∧
      Named sys (mount ++ op.args.newpath) (x.branch sys c mount path op p w).2.sys := by
  rw [(branch_of_renames h).2, renameBranch_run] at hok ⊢
  rcases (operationRename_spec p.newname (mount ++ op.args.newpath)).run w trivial with hret | hret
  · have hneg : (-1 : ℤ) < 0 := by decide
    rw [hret] at hok
    exact absurd hneg hok
  · exact ⟨if_pos hret.1, hret.2⟩

theorem newname_branch (hok : ¬(x.branch sys c mount path op p w).1.Failed) :
    (x.branch sys c mount path op p w).1.newname =
      if x.renames op then mount ++ op.args.newpath else p.newname := by
  split_ifs with h
  · exact (newname_branch_of_renames h hok).1
  · exact newname_branch_of_not (Bool.eq_false_iff.2 h)

theorem opStep_progress {branch : Branch σ} {clears : Bool} (hok : ¬(branch op p w).1.Failed) :
    opStep branch clears op p w =
      ((branch op p w).1.succeed, (clearErrno clears (branch op p w).2).2) := by
  rw [opStep_run, if_neg hok]

theorem clearErrno_same (clears : Bool) (w : World σ) :
    (clearErrno clears w).2.table = w.table ∧ (clearErrno clears w).2.sys = w.sys := by
  cases clears with
  | false => exact ⟨rfl, rfl⟩
  | true => exact ⟨rfl, rfl⟩

end Op

def dropPaths (c : Config) (type : FileType) (t : Table) (paths : List (List Char)) : Table :=
  paths.foldl (fun t path => mobileList c t path type.code false) t

/-- After a loop in which no op failed. -/
structure Done (x : UnlinkClass) (c : Config) (mount : Mount) (ops : List FileOp) (p : Progress)
    (t : Table) (p' : Progress) (t' : Table) : Prop where
  newname : p'.newname = x.finalPath mount p.newname ops
  unlinks : p'.unlinks = p.unlinks + ops.countP x.unlinks
  table : t' = dropPaths c x.type t (x.oldPaths mount p.newname ops)

theorem done_loop {x : UnlinkClass} {ops : List FileOp} {p : Progress} {w : World σ}
    (h : AllSucceed (x.branch sys c mount path) x.saves ops p w) :
    let run := loop Progress.Failed (opStep (x.branch sys c mount path) x.saves) ops p w
    Done x c mount ops p w.table run.1 run.2.table := by
  induction ops generalizing p w with
  | nil => exact ⟨rfl, rfl, rfl⟩
  | cons op ops ih =>
    have hok : ¬(x.branch sys c mount path op p w).1.Failed := fun hf => h.1 (failed_opStep.2 hf)
    have hrest := h.2
    have hnew := newname_branch hok
    rw [loop_cons_of_not h.1]
    rw [opStep_progress hok] at hrest ⊢
    obtain ⟨hname, hunlinks, htable⟩ := ih hrest
    refine ⟨?_, ?_, ?_⟩
    · rw [hname, Progress.succeed, hnew]
      rfl
    · rw [hunlinks, Progress.succeed, unlinks_branch, List.countP_cons]
      omega
    · rw [htable, (clearErrno_same x.saves _).1, table_branch, Progress.succeed, hnew,
        UnlinkClass.oldPaths]
      split_ifs
      · rfl
      · rfl

section Ends

variable {x : UnlinkClass} {ops : List FileOp} {w : World σ}

theorem checkSymlink_of_check (h : UnlinkClass.symlink.Check sys path w.sys) :
    checkSymlink sys path w = (0, (call sys (.lstat path) w).2) := by
  obtain ⟨hret, hkind⟩ := h
  have hret' : (sys.call (.lstat path) w.sys).1.ret = 0 := hret
  change (if (sys.call (.lstat path) w.sys).1.ret = -1 ∨
      (sys.call (.lstat path) w.sys).1.kind ≠ .lnk
    then (error : StateM (World σ) ℤ) else pure (sys.call (.lstat path) w.sys).1.ret)
      (call sys (.lstat path) w).2 = _
  rw [hret', if_neg (by rw [not_or, not_not]; exact ⟨by decide, hkind⟩)]
  rfl

theorem UnlinkClass.execute_of_check (h : x.Check sys path w.sys) :
    let run := runOps (x.branch sys c mount path) x.saves ops 0 path (call sys (x.probe path) w).2
    x.execute sys c mount path ops w = finish sys c x.type x.saves run.1 run.2 := by
  cases x with
  | noOpenFile => exact operationFile_of_check h.1 h.2
  | symlink =>
    intro run
    have hrun : symlinkOperation sys c path ops w =
        (do
          let p ← runOps (symlinkOperationBranch sys path) false ops
            (checkSymlink sys path w).1 path
          finish sys c .symlink false p) (checkSymlink sys path w).2 := rfl
    rw [checkSymlink_of_check h] at hrun
    exact hrun

end Ends

end MyScripts.Shark.Executor
