import MyScripts.Shark.NodeRelease

/-!
# The calls of `file_node_destory`

A call for a file or a symbolic link that is in use would return with the lock of
its tree held, and give the lock of the node back without having taken it. The
calls are made on tables in the middle of `worker_move_list` and `mobile_list`,
after the walk that counts the node down.
-/
namespace MyScripts.Shark.FileTable
open Library.Run Journal

inductive LockCall
  | lockTree (type : FileType)
  | unlockTree (type : FileType)
  | unlockNode
  deriving DecidableEq

/-- The calls of the lock functions that `file_node_destory` makes, one branch after the other. -/
def Table.destoryLocks (t : Table) (n : NodeRef) : List LockCall :=
  match t.node n with
  | none => []
  | some x =>
    if x.fileType = .dir then []
    else if x.usecnt ≠ 0 then [.lockTree x.fileType, .unlockNode]
    else [.lockTree x.fileType, .unlockTree x.fileType]

def Table.InUse (t : Table) (n : NodeRef) : Prop :=
  ∃ x, t.node n = some x ∧ x.fileType ≠ .dir ∧ x.usecnt ≠ 0

variable {c : Config} {t u v : Table} {n : NodeRef} {type : FileType}

theorem fileNodeDestory_of_inUse (h : t.InUse n) : t.fileNodeDestory n = t := by
  obtain ⟨x, hx, htype, hcnt⟩ := h
  unfold Table.fileNodeDestory
  rw [hx]
  dsimp only
  cases hty : x.fileType with
  | dir => exact absurd hty htype
  | file => exact if_pos hcnt
  | symlink => exact if_pos hcnt

theorem unlockNode_mem_iff : .unlockNode ∈ t.destoryLocks n ↔ t.InUse n := by
  unfold Table.destoryLocks Table.InUse
  cases hx : t.node n with
  | none => simp
  | some x =>
    dsimp only
    split_ifs with hdir hcnt
    · simp [hdir]
    · simp [hdir, hcnt]
    · simp [not_not.1 hcnt]

def giveBackDestory (c : Config) (t : Table) (fileType : ℤ) (index : ℕ) (toIdle : Bool) :
    Option (Table × NodeRef) :=
  match FileType.ofCode fileType with
  | none => none
  | some type =>
    match t.fileDeleteFormRbt type index false with
    | (none, _) => none
    | (some n, t) =>
      if toIdle then none else some (t.fileNodeUsecntUpdate c.initialDirCnts n false, n)

theorem giveBackDestory_eq_some {fileType : ℤ} {index : ℕ} {toIdle : Bool}
    (h : giveBackDestory c t fileType index toIdle = some (u, n)) :
    ∃ type, FileType.ofCode fileType = some type ∧ t.rbt false type index = some n ∧
      toIdle = false ∧
      u = (t.setRbt false type index none).fileNodeUsecntUpdate c.initialDirCnts n false := by
  unfold giveBackDestory at h
  cases hcode : FileType.ofCode fileType with
  | none =>
    rw [hcode] at h
    cases h
  | some type =>
    rw [hcode] at h
    dsimp only [Table.fileDeleteFormRbt] at h
    cases hn : t.rbt false type index with
    | none =>
      rw [hn] at h
      cases h
    | some m =>
      rw [hn] at h
      obtain ⟨hidle, h⟩ := Option.ite_none_left_eq_some.1 h
      obtain ⟨rfl, rfl⟩ := Prod.mk.inj (Option.some.inj h)
      exact ⟨type, rfl, hn, Bool.eq_false_of_not_eq_true hidle, rfl⟩

theorem giveBack_of_destory {fileType : ℤ} {index : ℕ} {toIdle : Bool}
    (h : giveBackDestory c t fileType index toIdle = some (u, n)) :
    giveBack c t fileType index toIdle = u.fileNodeDestory n := by
  obtain ⟨type, hcode, hn, rfl, rfl⟩ := giveBackDestory_eq_some h
  unfold giveBack
  rw [hcode]
  dsimp only [Table.fileDeleteFormRbt]
  rw [hn]
  rfl

def moveOpsDestory (c : Config) (w : Worker) (hasNode : ℕ → Bool) :
    ℕ → List FileOp → Table → List (Table × NodeRef)
  | _, [], _ => []
  | index, op :: ops, t =>
    if hasNode op.op then
      (giveBackDestory c t w.fileType (cutStrToInt op.args.newpath) (index ≤ w.opIndex)).toList ++
        moveOpsDestory c w hasNode (index + 1) ops
          (giveBack c t w.fileType (cutStrToInt op.args.newpath) (index ≤ w.opIndex))
    else moveOpsDestory c w hasNode (index + 1) ops t

/-- The calls of `worker_move_list`; a list on a directory never destroys its own node. -/
def workerMoveListDestory (c : Config) (w : Worker) (t : Table) : List (Table × NodeRef) :=
  let own := cutStrToInt w.absPath
  if w.opType = OpType.noOpenFile.code then
    moveOpsDestory c w fileOpHasNode 0 w.ops t ++
      (giveBackDestory c (moveOps c w fileOpHasNode 0 w.ops t) w.fileType own (w.ret = 0)).toList
  else if w.opType = OpType.noOpenDir.code then moveOpsDestory c w dirOpHasNode 0 w.ops t
  else if w.opType = OpType.openedDir.code then []
  else (giveBackDestory c t w.fileType own (w.ret = 0)).toList

def destoryCalls (c : Config) (t : Table) : Event → List (Table × NodeRef)
  | .create .. | .oplist .. => []
  | .move w => workerMoveListDestory c w t
  | .mobile path type choose => (giveBackDestory c t type (cutStrToInt path) choose).toList

theorem Calm.not_inUse (h : Calm t) (n : NodeRef) : ¬t.InUse n := by
  rintro ⟨x, hx, htype, hcnt⟩
  have hzero := h n x.fileType ⟨x, hx, rfl⟩ htype
  rw [Table.usecnt, hx] at hzero
  exact hcnt hzero

theorem CalmInv.giveBackDestory (h : CalmInv c t) {fileType : ℤ} {index : ℕ} {toIdle : Bool}
    (hcall : FileTable.giveBackDestory c t fileType index toIdle = some (u, n)) : Calm u := by
  obtain ⟨type, -, -, -, rfl⟩ := giveBackDestory_eq_some hcall
  exact h.calm.update h.use.tree _ n false rfl

theorem CalmInv.giveBack (h : CalmInv c t) (fileType : ℤ) (index : ℕ) (toIdle : Bool) :
    CalmInv c (FileTable.giveBack c t fileType index toIdle) :=
  calmInv_rule.back fileType index toIdle h

theorem CalmInv.moveOpsDestory (h : CalmInv c t) (w : Worker) (hasNode : ℕ → Bool) {k : ℕ}
    {ops : List FileOp} (hcall : (u, n) ∈ FileTable.moveOpsDestory c w hasNode k ops t) :
    Calm u := by
  induction ops generalizing t k with
  | nil => cases hcall
  | cons op ops ih =>
    rw [FileTable.moveOpsDestory] at hcall
    split_ifs at hcall
    · rcases List.mem_append.1 hcall with hhead | htail
      · exact h.giveBackDestory (Option.mem_toList.1 hhead)
      · exact ih (h.giveBack ..) htail
    · exact ih h hcall

theorem CalmInv.workerMoveListDestory (h : CalmInv c t) {w : Worker}
    (hcall : (u, n) ∈ FileTable.workerMoveListDestory c w t) : Calm u := by
  unfold FileTable.workerMoveListDestory at hcall
  dsimp only at hcall
  split_ifs at hcall
  · rcases List.mem_append.1 hcall with hops | hown
    · exact h.moveOpsDestory w fileOpHasNode hops
    · have hmoved : CalmInv c (moveOps c w fileOpHasNode 0 w.ops t) := calmInv_rule.moveOps h 0 w.ops
      exact hmoved.giveBackDestory (Option.mem_toList.1 hown)
  · exact h.moveOpsDestory w dirOpHasNode hcall
  · cases hcall
  · exact h.giveBackDestory (Option.mem_toList.1 hcall)

theorem CalmInv.destoryCalls (h : CalmInv c t) {e : Event}
    (hcall : (u, n) ∈ FileTable.destoryCalls c t e) : Calm u := by
  cases e with
  | create | oplist => cases hcall
  | move w => exact h.workerMoveListDestory hcall
  | mobile path type choose => exact h.giveBackDestory (Option.mem_toList.1 hcall)

/-- In every state of every run the use count of a file or a symbolic link is 0, and no event
in it takes the branch of `file_node_destory` for a node in use. -/
theorem usecnt_eq_zero_of_exec {s : State} {es : List Event}
    (hrun : exec (step c) State.init es = some s) :
    (∀ n x, s.table.node n = some x → x.fileType ≠ .dir → x.usecnt = 0) ∧
      ∀ e, ∀ call ∈ destoryCalls c s.table e,
        ¬call.1.InUse call.2 ∧ LockCall.unlockNode ∉ call.1.destoryLocks call.2 := by
  have hinv := calmInv_of_exec hrun
  constructor
  · intro n x hx htype
    have hzero := hinv.calm n x.fileType ⟨x, hx, rfl⟩ htype
    rwa [Table.usecnt, hx] at hzero
  · intro e call hcall
    have hcalm : Calm call.1 := hinv.destoryCalls hcall
    exact ⟨hcalm.not_inUse call.2, fun hmem => hcalm.not_inUse call.2 (unlockNode_mem_iff.1 hmem)⟩

theorem usecnt_eq_zero_of_exec_rename : ∃ s,
    exec (step sampleConfig) State.init (sampleRun NoOpenFileOp.rename.code) = some s ∧
      (destoryCalls sampleConfig s.table (.mobile "/1-a".toList FileType.file.code false)).map
        Prod.snd = [2] ∧
      (∀ n x, s.table.node n = some x → x.fileType ≠ .dir → x.usecnt = 0) ∧
      ∀ e, ∀ call ∈ destoryCalls sampleConfig s.table e,
        ¬call.1.InUse call.2 ∧ LockCall.unlockNode ∉ call.1.destoryLocks call.2 := by
  obtain ⟨s, hs, hcalls⟩ : ∃ s,
      exec (step sampleConfig) State.init (sampleRun NoOpenFileOp.rename.code) = some s ∧
        (destoryCalls sampleConfig s.table (.mobile "/1-a".toList FileType.file.code false)).map
          Prod.snd = [2] := ⟨_, rfl, by decide +kernel⟩
  exact ⟨s, hs, hcalls, usecnt_eq_zero_of_exec hs⟩

end MyScripts.Shark.FileTable
