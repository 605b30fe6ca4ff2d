import MyScripts.Shark.Executor

/-!
# Execution of the ops of a list in order

What an executor is for: after the checks of the target, the operation of every
op is applied once and in list order, up to the first that fails, and the
position of the last success is left behind. An op fails where its result says
so and where one of its system calls is refused. The executors without unlinking
are compared with this by the system calls they make.
-/
namespace MyScripts.Shark.Executor
open Library.Imperative FileTable

variable {σ : Type} (sys : System σ) (mount : Mount) (path : List Char)

/-- The operation that an op names. `RENAME_DIR_OP` and `RMDIR_DIR_OP`, for which the source has no
function, stand for the system calls of their names. -/
def operationOf (fd : ℤ) (a : Args) : Op → Option (StateM (World σ) ℤ)
  | .openedFile .writev => some (openPwrite sys fd a.offset 512)
  | .openedFile .readv => some (openPreadv sys fd a.offset 1)
  | .openedFile .fallocate =>
    some (openFallocate sys fd a.fallocateOffset a.fallocateLen a.fallocateMode)
  | .openedFile .ftruncate => some (openFtruncate sys fd a.length)
  | .openedFile .fsync => some (openSync sys fd)
  | .openedFile .fsetxattr | .openedDir .fsetxattr => some (openFsetxattr sys fd)
  | .openedFile .fgetxattr | .openedDir .fgetxattr => some (openFgetxattr sys fd)
  | .openedFile .fremovexattr | .openedDir .fremovexattr => some (openFremovexattr sys fd)
  | .openedFile .lk => some (lockOnce sys fd a.operation)
  | .openedFile .fchown | .openedDir .fchown => some (openFchown sys fd a.owner a.group)
  | .openedFile .fchmod | .openedDir .fchmod => some (openFchmod sys fd a.mode)
  | .openedFile .futimes | .openedDir .futimes => some (openFutimes sys fd (Args.times a))
  | .openedFile .fstat | .openedDir .fstat => some (openFstat sys fd)
  | .openedDir .fsync => some (syncDir sys fd)
  | .openedDir .readdir => some (dircReaddir sys path)
  | .noOpenDir .access => some (operationAccess sys path a.accessMode)
  | .noOpenDir .rename => some (checkedZero sys (.rename path (mount ++ a.newpath)))
  | .noOpenDir .symlink => some (operationSymlink sys path (mount ++ a.newpath))
  | .noOpenDir .setxattr => some (operationSetxattr sys path)
  | .noOpenDir .getxattr => some (operationGetxattr sys path)
  | .noOpenDir .removexattr => some (operationRemovexattr sys path)
  | .noOpenDir .chown => some (operationChown sys path a.owner a.group)
  | .noOpenDir .chmod => some (operationChmod sys path a.mode)
  | .noOpenDir .utimes => some (operationUtimes sys path (Args.times a))
  | .noOpenDir .rmdir => some (checkedZero sys (.rmdir path))
  | .noOpenDir .stat => some (operationStat sys path)
  | .noOpenDir .statfs => some (operationStatfs sys path)
  | _ => none

def applyOp (operation : Switch σ) (op : FileOp) : StateM (World σ) ℤ :=
  (operation op).getD (pure 0)

/-- The result of an operation is not negative, and none of its calls is refused. -/
def attempt (m : StateM (World σ) ℤ) : StateM (World σ) Bool := do
  let w ← get
  let ret ← m
  let w' ← get
  return 0 ≤ ret && w'.refused = w.refused

/-- The operations one after the other up to the first that fails, and the position of the last
that succeeded. -/
def applyInOrder (operation : Switch σ) (after : StateM (World σ) Unit) :
    List FileOp → (last : ℤ) → StateM (World σ) ℤ
  | [], last => return last
  | op :: ops, last => do
    let ok ← attempt (applyOp operation op)
    if ok then
      after
      applyInOrder operation after ops (last + 1)
    else return last

/-- The first op that fails, if there is one, has a negative result. -/
def Unmasked (operation : Switch σ) (after : StateM (World σ) Unit) : List FileOp → World σ → Prop
  | [], _ => True
  | op :: ops, w =>
    (applyOp operation op w).1 < 0 ∨ (applyOp operation op w).2.refused = w.refused ∧
      Unmasked operation after ops (after (applyOp operation op w).2).2

inductive SimpleClass
  | openedFile
  | openedDir
  | noOpenDir
  deriving DecidableEq, Repr

def SimpleClass.type : SimpleClass → OpType
  | openedFile => .openedFile
  | openedDir => .openedDir
  | noOpenDir => .noOpenDir

def SimpleClass.executor : SimpleClass → SimpleExecutor σ
  | openedFile => needOpenFile sys
  | openedDir => needOpenDirec sys path
  | noOpenDir => operationDirec sys mount path

def SimpleClass.operation (x : SimpleClass) (fd : ℤ) : Switch σ := fun op =>
  (Op.ofCode x.type op.op).bind (operationOf sys mount path fd op.args)

def SimpleClass.skips : SimpleClass → FileOp → Bool
  | noOpenDir, op => NoOpenDirOp.ofCode op.op = some .statfs ∨
      NoOpenDirOp.ofCode op.op = some .rename ∨ NoOpenDirOp.ofCode op.op = some .rmdir
  | _, _ => false

/-- A target that fails the checks gets no operation, and none succeeded. -/
def SimpleClass.inOrder (x : SimpleClass) (ops : List FileOp) : StateM (World σ) ℤ := do
  let e := x.executor sys mount path
  match ← enter sys e.kind e.opens path with
  | none => return -1
  | some (_, fd) =>
    let last ← applyInOrder (x.operation sys mount path fd) (clearErrno e.clears) ops (-1)
    leave sys e.opens fd
    return last

def Faithful (x : SimpleClass) (ops : List FileOp) (w : World σ) : Prop :=
  let run := (x.executor sys mount path).execute sys path ops w
  let spec := x.inOrder sys mount path ops w
  run.1.performOpIndex = spec.1 ∧ run.2.calls = spec.2.calls

def SimpleClass.Unmasked (x : SimpleClass) (ops : List FileOp) (w : World σ) : Prop :=
  let e := x.executor sys mount path
  let entered := enter sys e.kind e.opens path w
  ∀ ret fd, entered.1 = some (ret, fd) →
    Executor.Unmasked (x.operation sys mount path fd) (clearErrno e.clears) ops entered.2

/-- `stat` finds a target of the executor's kind, and `open`, where it is called, does not
give 0. -/
def Checks (e : SimpleExecutor σ) (s : σ) : Prop :=
  let buf := sys.call (.stat path) s
  buf.1.ret ≠ -1 ∧ buf.1.kind = e.kind ∧
    ∀ flags, e.opens = some flags → (sys.call (.openPath path flags) buf.2).1.ret ≠ 0

variable {sys mount path}

theorem operation_openedFile (fd : ℤ) :
    SimpleClass.openedFile.operation sys mount path fd = needOpenFileSwitch sys fd := by
  funext op
  simp only [SimpleClass.operation, SimpleClass.type, Op.ofCode, needOpenFileSwitch]
  rcases OpenedFileOp.ofCode op.op with _ | o
  · rfl
  · cases o <;> rfl

theorem operation_openedDir (fd : ℤ) :
    SimpleClass.openedDir.operation sys mount path fd = needOpenDirecSwitch sys path fd := by
  funext op
  simp only [SimpleClass.operation, SimpleClass.type, Op.ofCode, needOpenDirecSwitch]
  rcases OpenedDirOp.ofCode op.op with _ | o
  · rfl
  · cases o <;> rfl

theorem operation_noOpenDir (fd : ℤ) {op : FileOp} (h : SimpleClass.noOpenDir.skips op = false) :
    SimpleClass.noOpenDir.operation sys mount path fd op =
      operationDirecSwitch sys mount path op := by
  simp only [SimpleClass.skips, decide_eq_false_iff_not] at h
  simp only [SimpleClass.operation, SimpleClass.type, Op.ofCode, operationDirecSwitch]
  revert h
  rcases NoOpenDirOp.ofCode op.op with _ | o
  · exact fun _ => rfl
  · cases o with
    | statfs | rename | rmdir => exact fun h => absurd (by decide) h
    | _ => exact fun _ => rfl

theorem operation_of_skips (sys : System σ) (mount : Mount) (path : List Char) {x : SimpleClass}
    {op : FileOp} (h : x.skips op = true) (fd : ℤ) :
    ∃ c : SysCall, c.isPlain = false ∧
      x.operation sys mount path fd op = some (checkedZero sys c) := by
  cases x with
  | openedFile | openedDir => cases h
  | noOpenDir =>
    simp only [SimpleClass.operation, SimpleClass.type, Op.ofCode]
    rcases of_decide_eq_true h with hop | hop | hop
    · exact ⟨.statvfs path, rfl, by rw [hop]; rfl⟩
    · exact ⟨.rename path (mount ++ op.args.newpath), rfl, by rw [hop]; rfl⟩
    · exact ⟨.rmdir path, rfl, by rw [hop]; rfl⟩

theorem executor_switch (x : SimpleClass) (fd : ℤ) {op : FileOp} (h : x.skips op = false) :
    (x.executor sys mount path).switch fd op = x.operation sys mount path fd op := by
  cases x with
  | openedFile => rw [operation_openedFile]; rfl
  | openedDir => rw [operation_openedDir]; rfl
  | noOpenDir => rw [operation_noOpenDir fd h]; rfl

section Loops

variable {switch operation : Switch σ} {clears : Bool} {op : FileOp} {ops : List FileOp} {last : ℤ}
  {p : Progress} {w : World σ}

theorem attempt_eq (m : StateM (World σ) ℤ) (w : World σ) :
    attempt m w = (0 ≤ (m w).1 && (m w).2.refused = w.refused, (m w).2) := rfl

theorem applyInOrder_cons (after : StateM (World σ) Unit) (op : FileOp) :
    applyInOrder operation after (op :: ops) last w =
      if 0 ≤ (applyOp operation op w).1 ∧ (applyOp operation op w).2.refused = w.refused then
        applyInOrder operation after ops (last + 1) (after (applyOp operation op w).2).2
      else (last, (applyOp operation op w).2) := by
  have hrun : applyInOrder operation after (op :: ops) last w =
      (if (attempt (applyOp operation op) w).1 = true
        then (do after; applyInOrder operation after ops (last + 1) : StateM (World σ) ℤ)
        else pure last) (attempt (applyOp operation op) w).2 := rfl
  have hok : (attempt (applyOp operation op) w).1 = true ↔
      0 ≤ (applyOp operation op w).1 ∧ (applyOp operation op w).2.refused = w.refused := by
    rw [attempt_eq, Bool.and_eq_true, decide_eq_true_iff, decide_eq_true_iff]
  by_cases h : (attempt (applyOp operation op) w).1 = true
  · rw [hrun, if_pos h, if_pos (hok.1 h)]
    rfl
  · rw [hrun, if_neg h, if_neg (fun hc => h (hok.2 hc))]
    rfl

theorem le_applyInOrder (operation : Switch σ) (after : StateM (World σ) Unit)
    (ops : List FileOp) (last : ℤ) (w : World σ) :
    last ≤ (applyInOrder operation after ops last w).1 := by
  induction ops generalizing last w with
  | nil => exact Int.le_refl last
  | cons op ops ih =>
    rw [applyInOrder_cons]
    split_ifs
    · have h := ih (last + 1) (after (applyOp operation op w).2).2
      omega
    · exact Int.le_refl last

/-- The ops up to the first that fails, where the first `k` succeed. -/
abbrev reached (ops : List FileOp) (k : ℤ) : List FileOp := ops.take (k + 1).toNat

theorem reached_cons {k : ℤ} (hk : 0 ≤ k) (op : FileOp) :
    reached (op :: ops) k = op :: reached ops (k - 1) := by
  have hsucc : (k + 1).toNat = (k - 1 + 1).toNat + 1 := by omega
  rw [reached, hsucc, List.take_succ_cons]

theorem branch_run (switch : Switch σ) (op : FileOp) (w : World σ) (hp : ¬p.Failed) :
    (switch.branch op p w).2 = (applyOp switch op w).2 ∧
      ((switch.branch op p w).1.Failed ↔ (applyOp switch op w).1 < 0) := by
  unfold Switch.branch applyOp
  cases switch op with
  | none => exact ⟨rfl, iff_of_false hp (Int.lt_irrefl 0)⟩
  | some m => exact ⟨rfl, Iff.rfl⟩

theorem loop_of_negative (clears : Bool) (ops : List FileOp) (hp : ¬p.Failed)
    (hneg : (applyOp switch op w).1 < 0) :
    let run := loop Progress.Failed (opStep switch.branch clears) (op :: ops) p w
    run.1.count = p.count ∧ run.2 = (applyOp switch op w).2 := by
  obtain ⟨hworld, hfailed⟩ := branch_run switch op w hp
  have hrun := opStep_run switch.branch clears op p w
  rw [if_pos (hfailed.2 hneg)] at hrun
  rw [loop_cons_of_bad (hrun ▸ hfailed.2 hneg), hrun]
  exact ⟨Switch.keepsCount switch op p w, hworld⟩

theorem loop_of_not_negative (clears : Bool) (ops : List FileOp) (hp : ¬p.Failed)
    (hneg : ¬(applyOp switch op w).1 < 0) :
    ∃ p' : Progress, ¬p'.Failed ∧ p'.count = p.count + 1 ∧
      loop Progress.Failed (opStep switch.branch clears) (op :: ops) p w =
        loop Progress.Failed (opStep switch.branch clears) ops p'
          (clearErrno clears (applyOp switch op w).2).2 := by
  obtain ⟨hworld, hfailed⟩ := branch_run switch op w hp
  have hrun := opStep_run switch.branch clears op p w
  rw [if_neg (fun hf => hneg (hfailed.1 hf)), hworld] at hrun
  have hok : ¬(opStep switch.branch clears op p w).1.Failed :=
    fun hf => hneg (hfailed.1 (failed_opStep.1 hf))
  have hcount : (opStep switch.branch clears op p w).1.count = p.count + 1 := by
    rw [hrun]
    exact congrArg (· + 1) (Switch.keepsCount switch op p w)
  refine ⟨_, hok, hcount, ?_⟩
  rw [loop_cons_of_not hok, hrun]

theorem le_count_loop (switch : Switch σ) (clears : Bool) (ops : List FileOp) (hp : ¬p.Failed) :
    p.count ≤ (loop Progress.Failed (opStep switch.branch clears) ops p w).1.count := by
  induction ops generalizing p w with
  | nil => exact Int.le_refl p.count
  | cons op ops ih =>
    by_cases hneg : (applyOp switch op w).1 < 0
    · exact Int.le_of_eq (loop_of_negative clears ops hp hneg).1.symm
    · obtain ⟨p', hp', hcount, hloop⟩ := loop_of_not_negative clears ops hp hneg
      have hle := ih (p := p') (w := (clearErrno clears (applyOp switch op w).2).2) hp'
      rw [hloop]
      omega

/-- Where the switch has the operations of the ops that are reached, the loop does the same up to
the first op whose failure is masked, and counts that op. -/
theorem loop_applyInOrder (hp : ¬p.Failed)
    (h : ∀ op ∈ reached ops
      ((applyInOrder operation (clearErrno clears) ops p.count w).1 - p.count),
      switch op = operation op) :
    let run := loop Progress.Failed (opStep switch.branch clears) ops p w
    let spec := applyInOrder operation (clearErrno clears) ops p.count w
    Unmasked operation (clearErrno clears) ops w ∧ run.1.count = spec.1 ∧ run.2 = spec.2 ∨
      ¬Unmasked operation (clearErrno clears) ops w ∧ spec.1 < run.1.count := by
  induction ops generalizing p w with
  | nil => exact Or.inl ⟨trivial, rfl, rfl⟩
  | cons op ops ih =>
    have hle := le_applyInOrder operation (clearErrno clears) (op :: ops) p.count w
    rw [reached_cons (by omega), List.forall_mem_cons] at h
    have happly : applyOp switch op w = applyOp operation op w := by
      rw [applyOp, applyOp, h.1]
    intro run spec
    dsimp only [run, spec]
    rw [applyInOrder_cons] at h ⊢
    by_cases hneg : (applyOp operation op w).1 < 0
    · rw [if_neg (fun hok => Int.not_le.2 hneg hok.1)]
      rw [← happly] at hneg ⊢
      obtain ⟨hcount, hworld⟩ := loop_of_negative clears ops hp hneg
      exact Or.inl ⟨Or.inl (happly ▸ hneg), hcount, hworld⟩
    · have hneg' : ¬(applyOp switch op w).1 < 0 := by rwa [happly]
      obtain ⟨p', hp', hcount, hloop⟩ := loop_of_not_negative clears ops hp hneg'
      rw [happly] at hloop
      rw [hloop]
      by_cases hrefused : (applyOp operation op w).2.refused = w.refused
      · rw [if_pos ⟨Int.not_lt.1 hneg, hrefused⟩] at h ⊢
        rw [← hcount] at h ⊢
        have heq : ∀ k : ℤ, k - p.count - 1 = k - p'.count := fun k => by omega
        rw [heq] at h
        refine (ih hp' h.2).imp ?_ ?_
        · exact fun htail => ⟨Or.inr ⟨hrefused, htail.1⟩, htail.2⟩
        · exact fun htail => ⟨fun hu => htail.1 (hu.resolve_left hneg).2, htail.2⟩
      · rw [if_neg (fun hok => hrefused hok.2)]
        have hle' := le_count_loop switch clears ops hp'
          (w := (clearErrno clears (applyOp operation op w).2).2)
        exact Or.inr ⟨fun hu => hrefused (hu.resolve_left hneg).1, by dsimp only; omega⟩

end Loops

def rareCalls (w : World σ) : ℕ := w.calls.countP fun c => !c.isPlain

theorem rareCalls_call (c : SysCall) (w : World σ) :
    rareCalls (call sys c w).2 = rareCalls w + if c.isPlain then 0 else 1 := by
  cases h : c.isPlain <;>
    simp [rareCalls, call, List.countP_append, h]

theorem allowed_same (sys : System σ) (k : ℕ) :
    Allowed sys SysCall.isPlain (fun w : World σ => rareCalls w = k) := by
  refine ⟨?_, fun _ _ h => h⟩
  intro c hc w hw
  rw [rareCalls_call, if_pos hc, hw, Nat.add_zero]

theorem allowed_le (sys : System σ) (k : ℕ) :
    Allowed sys (fun _ => true) (fun w : World σ => k ≤ rareCalls w) := by
  refine ⟨?_, fun _ _ h => h⟩
  intro c _ w hw
  rw [rareCalls_call]
  omega

theorem Allowed.all {Q : SysCall → Bool} {I : World σ → Prop}
    (h : Allowed sys (fun _ => true) I) : Allowed sys Q I :=
  ⟨fun c _ => h.1 c rfl, h.2⟩

theorem keeps_enter {I : World σ → Prop} (hI : Allowed sys SysCall.isPlain I) (kind : Kind)
    (opens : Option OpenFlags) : Keeps I (enter sys kind opens path) := by
  apply Keeps.bind (hI.1 _ rfl)
  intro buf
  apply Keeps.ite
  · exact Keeps.pure none
  · apply Keeps.bind
    · cases opens with
      | none => exact Keeps.pure _
      | some flags =>
        apply Keeps.bind (hI.1 _ rfl)
        intro fd
        apply Keeps.ite
        · exact Keeps.pure none
        · exact Keeps.pure _
    · exact fun fd => Keeps.pure _

theorem keeps_leave {I : World σ → Prop} (hI : Allowed sys SysCall.isPlain I)
    (opens : Option OpenFlags) (fd : ℤ) : Keeps I (leave sys opens fd) := by
  cases opens with
  | none => exact Keeps.pure ()
  | some flags => exact (hI.1 _ rfl).bind fun _ => Keeps.pure ()

theorem rareCalls_checkedZero {c : SysCall} (h : c.isPlain = false) (w : World σ) :
    rareCalls w < rareCalls (checkedZero sys c w).2 := by
  have hcall : rareCalls (call sys c w).2 = rareCalls w + 1 := by
    rw [rareCalls_call, if_neg (Bool.eq_false_iff.1 h)]
  have hrest : Keeps (fun w' : World σ => rareCalls w + 1 ≤ rareCalls w')
      (if (call sys c w).1.ret ≠ 0 then error else pure 0) := by
    apply Keeps.ite
    · exact makes_error.keeps _ (allowed_le sys (rareCalls w + 1))
    · exact Keeps.pure 0
  exact hrest (call sys c w).2 (Nat.le_of_eq hcall.symm)

section Spec

variable {operation : Switch σ} {clears : Bool} {ops : List FileOp} {last : ℤ} {w : World σ}
  {k : ℕ}

theorem keeps_applyOp (hop : operation.Makes sys (fun _ => true)) (k : ℕ) (op : FileOp) :
    Keeps (fun w : World σ => k ≤ rareCalls w) (applyOp operation op) := by
  unfold applyOp
  cases hm : operation op with
  | none => exact Keeps.pure 0
  | some m => exact (hop op m hm).keeps _ (allowed_le sys k)

theorem keeps_applyInOrder (hop : operation.Makes sys (fun _ => true)) :
    Keeps (fun w : World σ => k ≤ rareCalls w)
      (applyInOrder operation (clearErrno clears) ops last) := by
  induction ops generalizing last with
  | nil => exact Keeps.pure last
  | cons op ops ih =>
    intro w hw
    have hfirst := keeps_applyOp hop k op w hw
    rw [applyInOrder_cons]
    split_ifs
    · exact ih _ (keeps_clearErrno (allowed_le sys k) clears _ hfirst)
    · exact hfirst

theorem rareCalls_applyInOrder (hop : operation.Makes sys (fun _ => true)) {op : FileOp}
    {c : SysCall} (hc : c.isPlain = false) (hrare : operation op = some (checkedZero sys c))
    (h : op ∈ reached ops ((applyInOrder operation (clearErrno clears) ops last w).1 - last)) :
    rareCalls w < rareCalls (applyInOrder operation (clearErrno clears) ops last w).2 := by
  induction ops generalizing last w with
  | nil => simp [reached] at h
  | cons a ops ih =>
    have hle := le_applyInOrder operation (clearErrno clears) (a :: ops) last w
    rw [reached_cons (by omega), List.mem_cons] at h
    have hfirst := keeps_applyOp hop (rareCalls w) a w (Nat.le_refl _)
    rw [applyInOrder_cons] at h ⊢
    rcases h with rfl | h
    · have hmore : rareCalls w < rareCalls (applyOp operation op w).2 := by
        rw [applyOp, hrare]
        exact rareCalls_checkedZero hc w
      split_ifs
      · apply Nat.lt_of_lt_of_le hmore
        exact keeps_applyInOrder hop _ (keeps_clearErrno (allowed_le sys _) clears _
          (Nat.le_refl _))
      · exact hmore
    · split_ifs at h ⊢
      · have hnext := keeps_clearErrno (allowed_le sys _) clears _ hfirst
        apply Nat.lt_of_le_of_lt hnext
        apply ih
        have heq : ∀ j : ℤ, j - last - 1 = j - (last + 1) := fun j => by omega
        rwa [heq] at h
      · simp [reached] at h

end Spec

section Executors

variable {ops : List FileOp} {w : World σ}

theorem enter_run (e : SimpleExecutor σ) : enter sys e.kind e.opens path w =
    if (sys.call (.stat path) w.sys).1.ret = -1 ∨ (sys.call (.stat path) w.sys).1.kind ≠ e.kind
    then (none, (call sys (.stat path) w).2)
    else
      ((openTarget sys e.opens path (call sys (.stat path) w).2).1.map
          ((sys.call (.stat path) w.sys).1.ret, ·),
        (openTarget sys e.opens path (call sys (.stat path) w).2).2) := by
  change (if (sys.call (.stat path) w.sys).1.ret = -1 ∨
      (sys.call (.stat path) w.sys).1.kind ≠ e.kind
    then (pure none : StateM (World σ) (Option (ℤ × ℤ)))
    else (do
      let fd ← openTarget sys e.opens path
      return fd.map ((sys.call (.stat path) w.sys).1.ret, ·))) (call sys (.stat path) w).2 = _
  split_ifs
  · rfl
  · rfl

theorem openTarget_some (flags : OpenFlags) : (openTarget sys (some flags) path w).1 =
    if (sys.call (.openPath path flags) w.sys).1.ret = 0 then none
    else some (sys.call (.openPath path flags) w.sys).1.ret := by
  change ((if (sys.call (.openPath path flags) w.sys).1.ret = 0
    then (pure none : StateM (World σ) (Option ℤ))
    else pure (some (sys.call (.openPath path flags) w.sys).1.ret))
      (call sys (.openPath path flags) w).2).1 = _
  split_ifs
  · rfl
  · rfl

theorem enter_cases (path : List Char) (e : SimpleExecutor σ) (w : World σ) :
    (Checks sys path e w.sys ∧ ∃ fd, (enter sys e.kind e.opens path w).1 = some (0, fd)) ∨
      (¬Checks sys path e w.sys ∧ (enter sys e.kind e.opens path w).1 = none) := by
  rw [enter_run]
  split_ifs with hfail
  · right
    refine ⟨fun h => ?_, rfl⟩
    rcases hfail with hstat | hkind
    · exact h.1 hstat
    · exact hkind h.2.1
  · rw [not_or, not_not] at hfail
    have hzero := (sys.status (.stat path) w.sys rfl).resolve_right hfail.1
    rw [hzero]
    cases hopens : e.opens with
    | none =>
      left
      refine ⟨⟨hfail.1, hfail.2, fun flags h => ?_⟩, 0, rfl⟩
      rw [hopens] at h
      cases h
    | some flags =>
      rw [openTarget_some]
      by_cases hfd : (sys.call (.openPath path flags) (call sys (.stat path) w).2.sys).1.ret = 0
      · right
        rw [if_pos hfd]
        exact ⟨fun h => h.2.2 flags hopens hfd, rfl⟩
      · left
        rw [if_neg hfd]
        refine ⟨⟨hfail.1, hfail.2, fun flags' h => ?_⟩, _, rfl⟩
        rw [hopens] at h
        cases h
        exact hfd

theorem execute_of_enter {e : SimpleExecutor σ} {ret fd : ℤ}
    (h : (enter sys e.kind e.opens path w).1 = some (ret, fd)) :
    let run := runOps (e.switch fd).branch e.clears ops ret path
      (enter sys e.kind e.opens path w).2
    e.execute sys path ops w = (⟨run.1.ret, run.1.count⟩, (leave sys e.opens fd run.2).2) := by
  change (match (enter sys e.kind e.opens path w).1 with
    | none => (failed : StateM (World σ) Execution)
    | some (ret, fd) => do
      let p ← runOps (e.switch fd).branch e.clears ops ret path
      leave sys e.opens fd
      return ⟨p.ret, p.count⟩) (enter sys e.kind e.opens path w).2 = _
  rw [h]
  rfl

theorem execute_of_enter_none {e : SimpleExecutor σ}
    (h : (enter sys e.kind e.opens path w).1 = none) :
    (e.execute sys path ops w).1 = ⟨-1, performOpIndexInit⟩ := by
  change ((match (enter sys e.kind e.opens path w).1 with
    | none => (failed : StateM (World σ) Execution)
    | some (ret, fd) => do
      let p ← runOps (e.switch fd).branch e.clears ops ret path
      leave sys e.opens fd
      return ⟨p.ret, p.count⟩) (enter sys e.kind e.opens path w).2).1 = _
  rw [h]
  rfl

theorem inOrder_of_enter (x : SimpleClass) {ret fd : ℤ}
    (h : (enter sys (x.executor sys mount path).kind (x.executor sys mount path).opens path w).1 =
      some (ret, fd)) :
    let e := x.executor sys mount path
    let spec := applyInOrder (x.operation sys mount path fd) (clearErrno e.clears) ops (-1)
      (enter sys e.kind e.opens path w).2
    x.inOrder sys mount path ops w = (spec.1, (leave sys e.opens fd spec.2).2) := by
  intro e
  change (match (enter sys e.kind e.opens path w).1 with
    | none => (pure (-1) : StateM (World σ) ℤ)
    | some (_, fd) => do
      let last ← applyInOrder (x.operation sys mount path fd) (clearErrno e.clears) ops (-1)
      leave sys e.opens fd
      return last) (enter sys e.kind e.opens path w).2 = _
  rw [h]
  rfl

theorem inOrder_of_enter_none (x : SimpleClass)
    (h : (enter sys (x.executor sys mount path).kind (x.executor sys mount path).opens path w).1 =
      none) : (x.inOrder sys mount path ops w).1 = -1 := by
  change ((match (enter sys (x.executor sys mount path).kind
      (x.executor sys mount path).opens path w).1 with
    | none => (pure (-1) : StateM (World σ) ℤ)
    | some (_, fd) => do
      let last ← applyInOrder (x.operation sys mount path fd)
        (clearErrno (x.executor sys mount path).clears) ops (-1)
      leave sys (x.executor sys mount path).opens fd
      return last) (enter sys (x.executor sys mount path).kind
        (x.executor sys mount path).opens path w).2).1 = _
  rw [h]
  rfl

theorem makes_executor (x : SimpleClass) (fd : ℤ) :
    ((x.executor sys mount path).switch fd).Makes sys SysCall.isPlain := by
  cases x with
  | openedFile => exact makes_needOpenFile fd
  | openedDir => exact makes_needOpenDirec path fd
  | noOpenDir => exact makes_operationDirec mount path

theorem makes_operation (x : SimpleClass) (fd : ℤ) :
    (x.operation sys mount path fd).Makes sys (fun _ => true) := by
  intro op m h
  cases hskips : x.skips op with
  | true =>
    obtain ⟨c, -, hc⟩ := operation_of_skips sys mount path hskips fd
    rw [hc] at h
    obtain rfl := Option.some.inj h
    exact makes_checkedZero rfl
  | false =>
    rw [← executor_switch x fd hskips] at h
    have hplain := makes_executor x fd op m h
    exact ⟨fun I hI => hplain.keeps I hI.all, hplain.gives⟩

theorem keeps_execute (x : SimpleClass) {I : World σ → Prop}
    (hI : Allowed sys SysCall.isPlain I) :
    Keeps I ((x.executor sys mount path).execute sys path ops) := by
  apply (keeps_enter hI _ _).bind
  intro entered
  rcases entered with _ | ⟨ret, fd⟩
  · exact (makes_saveErrno.keeps _ hI).bind fun _ => Keeps.pure _
  · apply Keeps.bind
    · exact keeps_runOps hI fun op p => (makes_executor x fd).keeps_branch hI op p
    · exact fun p => (keeps_leave hI _ fd).bind fun _ => Keeps.pure _

theorem rareCalls_inOrder {x : SimpleClass} {ret fd : ℤ} {op : FileOp}
    (henter : (enter sys (x.executor sys mount path).kind (x.executor sys mount path).opens path
      w).1 = some (ret, fd))
    (hop : op ∈ reached ops ((x.inOrder sys mount path ops w).1 + 1)) (h : x.skips op = true) :
    rareCalls w < rareCalls (x.inOrder sys mount path ops w).2 := by
  obtain ⟨c, hc, hrare⟩ := operation_of_skips sys mount path h fd
  have hI := allowed_same sys (rareCalls w)
  have hentered : rareCalls (enter sys (x.executor sys mount path).kind
      (x.executor sys mount path).opens path w).2 = rareCalls w :=
    keeps_enter hI _ _ w rfl
  rw [inOrder_of_enter x henter] at hop ⊢
  have hmore := rareCalls_applyInOrder (makes_operation x fd) hc hrare hop
  rw [hentered] at hmore
  have hleave : Keeps (fun w' : World σ => rareCalls w + 1 ≤ rareCalls w')
      (leave sys (x.executor sys mount path).opens fd) :=
    keeps_leave (allowed_le sys (rareCalls w + 1)).all _ fd
  exact hleave _ hmore

end Executors

/-- `need_open_file`, `need_open_direc` and `operation_direc` apply the operations of a list in
order and leave the position of the last success if and only if the target passes the checks, the
first op that fails has a negative result, and, for `operation_direc`, the ops up to that one have
a branch with a call. -/
theorem faithful_iff (sys : System σ) (mount : Mount) (path : List Char) (x : SimpleClass)
    (ops : List FileOp) (w : World σ) :
    Faithful sys mount path x ops w ↔ Checks sys path (x.executor sys mount path) w.sys ∧
      x.Unmasked sys mount path ops w ∧
      ∀ op ∈ reached ops ((x.inOrder sys mount path ops w).1 + 1), x.skips op = false := by
  rcases enter_cases path (x.executor sys mount path) w with
    ⟨hchecks, fd, henter⟩ | ⟨hchecks, henter⟩
  · have hunmasked : x.Unmasked sys mount path ops w ↔ Executor.Unmasked
        (x.operation sys mount path fd) (clearErrno (x.executor sys mount path).clears) ops
        (enter sys (x.executor sys mount path).kind (x.executor sys mount path).opens path w).2 := by
      refine ⟨fun h => h 0 fd henter, fun h ret' fd' hsome => ?_⟩
      rw [henter] at hsome
      cases hsome
      exact h
    have hskips : Faithful sys mount path x ops w →
        ∀ op ∈ reached ops ((x.inOrder sys mount path ops w).1 + 1), x.skips op = false := by
      rintro ⟨-, hcalls⟩ op hop
      by_contra hskip
      have hmore := rareCalls_inOrder henter hop (Bool.of_not_eq_false hskip)
      have hsame : rareCalls ((x.executor sys mount path).execute sys path ops w).2 =
          rareCalls w := keeps_execute x (allowed_same sys _) w rfl
      rw [rareCalls, rareCalls, ← hcalls] at hmore
      exact Nat.ne_of_gt hmore hsame
    rw [← and_iff_left_of_imp hskips, hunmasked, and_iff_right hchecks]
    refine and_congr_left fun hno => ?_
    rw [inOrder_of_enter x henter] at hno
    rw [Faithful, execute_of_enter henter, inOrder_of_enter x henter]
    rcases loop_applyInOrder (p := .start 0 path) (Int.lt_irrefl 0)
      fun op hop => executor_switch x fd (hno op hop) with
      ⟨hok, hcount, hworld⟩ | ⟨hmasked, hlt⟩
    · exact iff_of_true ⟨hcount, congrArg (fun w => (leave sys _ fd w).2.calls) hworld⟩ hok
    · exact iff_of_false (fun h => Int.ne_of_gt hlt h.1) hmasked
  · have hindex : (0 : ℤ) ≠ -1 := by decide
    rw [Faithful, execute_of_enter_none henter, inOrder_of_enter_none x henter]
    exact iff_of_false (fun h => hindex h.1) (fun h => hchecks h.1)

def answering (kind : Kind) : System Unit where
  call := fun _ s => (⟨0, 0, 0, kind⟩, s)
  status := fun _ _ _ => Or.inl rfl

def freshWorld {τ : Type} (s : τ) : World τ := ⟨s, 0, 0, Table.init, [], 0⟩

def plainFileOp (op : ℕ) : FileOp := ⟨op, 0, Args.zero⟩

/-- The list of one `STATFS_DIR_OP`: only `stat` is called. -/
theorem not_faithful_statfs : ¬Faithful (answering .dir) ⟨['/'], [], rfl⟩ ['/'] .noOpenDir
    [plainFileOp NoOpenDirOp.statfs.code] (freshWorld ()) := by
  intro h
  exact absurd h.2 (by decide)

end MyScripts.Shark.Executor
