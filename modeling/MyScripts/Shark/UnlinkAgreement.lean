import MyScripts.Shark.PartialFailure
import MyScripts.Shark.Unlinking

/-!
# The target of a list and the ops that unlink it

In a list in which no op fails, the target is unlinked after the loop, under the
path that the last rename has given it. What the file system does with names is
left open; five laws of its calls are used.
-/
namespace MyScripts.Shark.Executor
open Library.Imperative Library.Run FileTable Journal

/-- `present s path` says that there is a directory entry at `path`. -/
structure FileSystem {σ : Type} (sys : System σ) where
  present : σ → List Char → Prop
  stat : ∀ path s, (sys.call (.stat path) s).1.ret = 0 → present (sys.call (.stat path) s).2 path
  lstat : ∀ path s, (sys.call (.lstat path) s).1.ret = 0 →
    present (sys.call (.lstat path) s).2 path
  rename : ∀ name path s, (sys.call (.rename name path) s).1.ret = 0 →
    present (sys.call (.rename name path) s).2 path
  unlink : ∀ path s, (sys.call (.unlink path) s).1.ret = 0 →
    ¬present (sys.call (.unlink path) s).2 path
  mild : ∀ c s path, c.isMild = true → present s path → present (sys.call c s).2 path

variable {σ : Type} {sys : System σ} {c : Config} {mount : Mount} {path : List Char}
  {x : UnlinkClass} {op : FileOp} {ops : List FileOp} {p : Progress} {w : World σ} {t : Table}
  {n : NodeRef} {type : FileType} {i : ℕ}

theorem FileSystem.allowed (fs : FileSystem sys) (path : List Char) :
    Allowed sys SysCall.isMild (fun w : World σ => fs.present w.sys path) :=
  ⟨fun c hc w hw => fs.mild c w.sys path hc hw, fun _ _ h => h⟩

theorem FileSystem.present_named (fs : FileSystem sys) {s : σ} (h : Named sys path s) :
    fs.present s path := by
  obtain ⟨call, s', rfl | ⟨name, rfl⟩, hret, rfl⟩ := h
  · exact fs.stat path s' hret
  · exact fs.rename name path s' hret

theorem FileSystem.present_probe (fs : FileSystem sys) (h : x.Check sys path w.sys) :
    fs.present (call sys (x.probe path) w).2.sys path := by
  cases x with
  | noOpenFile => exact fs.stat path w.sys h.1
  | symlink => exact fs.lstat path w.sys h.1

theorem FileSystem.present_branch (fs : FileSystem sys)
    (hok : ¬(x.branch sys c mount path op p w).1.Failed) (hp : fs.present w.sys p.newname) :
    fs.present (x.branch sys c mount path op p w).2.sys
      (x.branch sys c mount path op p w).1.newname := by
  by_cases h : x.renames op = true
  · obtain ⟨hnew, hnamed⟩ := newname_branch_of_renames h hok
    rw [hnew]
    exact fs.present_named hnamed
  · rw [newname_branch_of_not (Bool.eq_false_iff.2 h)]
    exact keeps_branch (fs.allowed p.newname) (Bool.eq_false_iff.2 h) w hp

theorem FileSystem.present_loop (fs : FileSystem sys)
    (h : AllSucceed (x.branch sys c mount path) x.saves ops p w)
    (hp : fs.present w.sys p.newname) :
    let run := loop Progress.Failed (opStep (x.branch sys c mount path) x.saves) ops p w
    fs.present run.2.sys run.1.newname := by
  induction ops generalizing p w with
  | nil => exact hp
  | cons op ops ih =>
    have hok : ¬(x.branch sys c mount path op p w).1.Failed := fun hf => h.1 (failed_opStep.2 hf)
    have hrest := h.2
    have hpresent := fs.present_branch hok hp
    rw [← (clearErrno_same x.saves _).2] at hpresent
    rw [loop_cons_of_not h.1]
    rw [opStep_progress hok] at hrest ⊢
    exact ih hrest hpresent

theorem rests_dropPaths (c : Config) (type : FileType) (paths : List (List Char))
    (h : n ∉ t.busy) : Rests n t (dropPaths c type t paths) := by
  induction paths generalizing t with
  | nil => exact .refl h
  | cons old paths ih =>
    have hback := rests_giveBack c type.code (cutStrToInt old) false h
    exact hback.trans (ih hback.out)

theorem freed_dropPaths (h : CalmInv c t) (htype : type ≠ .dir)
    (hn : t.rbt false type i = some n) (paths : List (List Char)) :
    (dropPaths c type t paths).freed n = true ↔ ∃ old ∈ paths, cutStrToInt old = i := by
  have hcode := FileType.ofCode_code type
  induction paths generalizing t with
  | nil =>
    apply iff_of_false (h.use.table.not_freed hn)
    simp
  | cons old paths ih =>
    have hdrop : dropPaths c type t (old :: paths) =
        dropPaths c type (giveBack c t type.code (cutStrToInt old) false) paths := rfl
    rw [hdrop, List.exists_mem_cons_iff]
    by_cases hold : cutStrToInt old = i
    · rw [hold]
      have hout := h.use.table.not_busy_giveBack (c := c) hcode hn false
      rw [(rests_dropPaths c type paths hout).freed]
      exact iff_of_true (h.freed_giveBack hcode htype hn) (Or.inl rfl)
    · have hbusy := (busy_giveBack c t type.code (cutStrToInt old) false type i n).2
        ⟨hn, fun hkey => hold hkey.2.symm⟩
      have hrest := ih (calmInv_rule.back type.code (cutStrToInt old) false h) hbusy
      apply hrest.trans
      simp only [hold, false_or]

structure NoOpFails (sys : System σ) (x : UnlinkClass) (c : Config) (mount : Mount)
    (path : List Char) (ops : List FileOp) (w : World σ) : Prop where
  check : x.Check sys path w.sys
  loop : AllSucceed (x.branch sys c mount path) x.saves ops (.start 0 path)
    (call sys (x.probe path) w).2
  ret : (x.execute sys c mount path ops w).1.ret ≠ -1

/-- The target is gone if and only if an op of the list unlinks it, and its node is destroyed only
if the target is gone. -/
structure UnlinkAgrees (fs : FileSystem sys) (x : UnlinkClass) (c : Config) (mount : Mount)
    (path : List Char) (ops : List FileOp) (w : World σ) : Prop where
  removed : ¬fs.present (x.execute sys c mount path ops w).2.sys (x.finalPath mount path ops) ↔
    ∃ op ∈ ops, x.unlinks op = true
  node : ∀ n, w.table.rbt false x.type (cutStrToInt (x.finalPath mount path ops)) = some n →
    (x.execute sys c mount path ops w).2.table.freed n = true →
      ¬fs.present (x.execute sys c mount path ops w).2.sys (x.finalPath mount path ops)

theorem UnlinkClass.type_ne_dir (x : UnlinkClass) : x.type ≠ .dir := by
  cases x with
  | noOpenFile => decide
  | symlink => decide

theorem deferredUnlink_of_le (h : p.unlinks ≤ 1) : deferredUnlink sys p w = (p.ret, w) := by
  unfold deferredUnlink
  rw [if_neg (Nat.not_lt.2 h)]
  rfl

theorem FileSystem.deferredUnlink_of_lt (fs : FileSystem sys) (h : 1 < p.unlinks)
    (hret : (deferredUnlink sys p w).1 ≠ -1) :
    ¬fs.present (deferredUnlink sys p w).2.sys p.newname := by
  have hrun : deferredUnlink sys p w = (if (sys.call (.unlink p.newname) w.sys).1.ret ≠ 0
      then (error : StateM (World σ) ℤ) else pure 0) (call sys (.unlink p.newname) w).2 := by
    unfold deferredUnlink
    rw [if_pos h]
    rfl
  rw [hrun] at hret ⊢
  by_cases hzero : (sys.call (.unlink p.newname) w.sys).1.ret = 0
  · rw [if_neg (not_not.2 hzero)]
    exact fs.unlink p.newname w.sys hzero
  · rw [if_pos hzero] at hret
    exact absurd rfl hret

theorem NoOpFails.done (h : NoOpFails sys x c mount path ops w) (fs : FileSystem sys) :
    ∃ p' w', Done x c mount ops (.start 0 path) w.table p' w'.table ∧
      fs.present w'.sys p'.newname ∧
      x.execute sys c mount path ops w = finish sys c x.type x.saves p' w' := by
  have hdone := done_loop h.loop
  have hpresent := fs.present_loop h.loop (fs.present_probe h.check)
  exact ⟨_, _, hdone, hpresent, UnlinkClass.execute_of_check h.check⟩

theorem NoOpFails.end_of_zero (h : NoOpFails sys x c mount path ops w) (fs : FileSystem sys)
    (hzero : ops.countP x.unlinks = 0) :
    fs.present (x.execute sys c mount path ops w).2.sys (x.finalPath mount path ops) ∧
      (x.execute sys c mount path ops w).2.table =
        dropPaths c x.type w.table (x.oldPaths mount path ops) := by
  obtain ⟨p', w', hdone, hpresent, hexec⟩ := h.done fs
  have hunlinks : p'.unlinks = 0 := by rw [hdone.unlinks, hzero, Progress.start]
  rw [hdone.newname] at hpresent
  rw [hexec, finish_of_zero hunlinks]
  exact ⟨hpresent, hdone.table⟩

theorem NoOpFails.end_of_one (h : NoOpFails sys x c mount path ops w) (fs : FileSystem sys)
    (hone : ops.countP x.unlinks = 1) :
    fs.present (x.execute sys c mount path ops w).2.sys (x.finalPath mount path ops) := by
  obtain ⟨p', w', hdone, hpresent, hexec⟩ := h.done fs
  have hunlinks : p'.unlinks = 1 := by rw [hdone.unlinks, hone, Progress.start]
  have hpos : p'.unlinks ≠ 0 := by omega
  rw [hdone.newname] at hpresent
  rw [hexec, (finish_of_pos hpos x.type x.saves).2.1, deferredUnlink_of_le (Nat.le_of_eq hunlinks)]
  exact hpresent

theorem NoOpFails.end_of_lt (h : NoOpFails sys x c mount path ops w) (fs : FileSystem sys)
    (hlt : 1 < ops.countP x.unlinks) :
    ¬fs.present (x.execute sys c mount path ops w).2.sys (x.finalPath mount path ops) := by
  obtain ⟨p', w', hdone, -, hexec⟩ := h.done fs
  have hunlinks : 1 < p'.unlinks := by rwa [hdone.unlinks, Progress.start, Nat.zero_add]
  have hpos : p'.unlinks ≠ 0 := by omega
  have hret := h.ret
  have hname := hdone.newname
  rw [hexec, (finish_of_pos hpos x.type x.saves).1] at hret
  rw [hexec, (finish_of_pos hpos x.type x.saves).2.1]
  rw [Progress.start] at hname
  rw [← hname]
  exact fs.deferredUnlink_of_lt hunlinks hret

/-- When no op fails, the target and its table node go the way the ops say if and only if there is
not exactly one op that unlinks and, where there is none, the final path does not give the number
of a path that a rename has taken away. -/
theorem unlinkAgrees_iff (fs : FileSystem sys) {s : FileTable.State} {es : List FileTable.Event}
    (hrun : exec (FileTable.step c) FileTable.State.init es = some s) (hw : w.table = s.table)
    (h : NoOpFails sys x c mount path ops w) :
    UnlinkAgrees fs x c mount path ops w ↔ ops.countP x.unlinks ≠ 1 ∧
      (ops.countP x.unlinks = 0 → ∀ n,
        w.table.rbt false x.type (cutStrToInt (x.finalPath mount path ops)) = some n →
          ∀ old ∈ x.oldPaths mount path ops,
            cutStrToInt old ≠ cutStrToInt (x.finalPath mount path ops)) := by
  have hinv : CalmInv c w.table := by
    rw [hw]
    exact calmInv_of_exec hrun
  have hsome : (∃ op ∈ ops, x.unlinks op = true) ↔ 0 < ops.countP x.unlinks :=
    List.countP_pos_iff.symm
  rcases Nat.lt_trichotomy (ops.countP x.unlinks) 1 with hcount | hcount | hcount
  · have hzero : ops.countP x.unlinks = 0 := by omega
    obtain ⟨hpresent, htable⟩ := h.end_of_zero fs hzero
    have hnode : ∀ n,
        w.table.rbt false x.type (cutStrToInt (x.finalPath mount path ops)) = some n → _ :=
      fun n hn => freed_dropPaths hinv x.type_ne_dir hn (x.oldPaths mount path ops)
    constructor
    · intro hagrees
      refine ⟨Nat.ne_of_lt hcount, fun _ n hn old hold heq => ?_⟩
      apply hagrees.node n hn _ hpresent
      rw [htable]
      exact (hnode n hn).2 ⟨old, hold, heq⟩
    · rintro ⟨-, hnames⟩
      constructor
      · rw [hsome, hzero]
        simp [hpresent]
      · intro n hn hfreed
        rw [htable] at hfreed
        obtain ⟨old, hold, heq⟩ := (hnode n hn).1 hfreed
        exact absurd heq (hnames hzero n hn old hold)
  · apply iff_of_false
    · intro hagrees
      have hone : 0 < ops.countP x.unlinks := by omega
      exact hagrees.removed.2 (hsome.2 hone) (h.end_of_one fs hcount)
    · exact fun hcond => hcond.1 hcount
  · have hgone := h.end_of_lt fs hcount
    apply iff_of_true
    · exact ⟨iff_of_true hgone (hsome.2 (by omega)), fun _ _ _ => hgone⟩
    · exact ⟨Nat.ne_of_gt hcount, fun hzero => absurd hzero (by omega)⟩

def nameReply (ok : Bool) (names' names : List (List Char)) : Reply × List (List Char) :=
  if ok then (⟨0, 0, 0, .reg⟩, names') else (⟨-1, enoent, 0, .other⟩, names)

theorem nameReply_ret (ok : Bool) (names' names : List (List Char)) :
    (nameReply ok names' names).1.ret = 0 ∨ (nameReply ok names' names).1.ret = -1 := by
  cases ok with
  | true => exact Or.inl rfl
  | false => exact Or.inr rfl

theorem nameReply_of_ret {ok : Bool} {names' names : List (List Char)}
    (h : (nameReply ok names' names).1.ret = 0) :
    ok = true ∧ (nameReply ok names' names).2 = names' := by
  cases ok with
  | true => exact ⟨rfl, rfl⟩
  | false =>
    have hneg : (-1 : ℤ) ≠ 0 := by decide
    exact absurd h hneg

def nameSystem : System (List (List Char)) where
  call := fun c names =>
    match c with
    | .stat path | .lstat path => nameReply (names.any (· = path)) names names
    | .rename name path =>
      nameReply (names.any (· = name)) (path :: names.filter (· ≠ name)) names
    | .unlink path => nameReply (names.any (· = path)) (names.filter (· ≠ path)) names
    | _ => nameReply true names names
  status := by
    intro c names _
    cases c <;> exact nameReply_ret ..

def nameFiles : FileSystem nameSystem where
  present := fun names path => path ∈ names
  stat := by
    intro path names h
    obtain ⟨hin, hnames⟩ := nameReply_of_ret h
    have hsame : (nameSystem.call (.stat path) names).2 = names := hnames
    rw [hsame]
    simpa using hin
  lstat := by
    intro path names h
    obtain ⟨hin, hnames⟩ := nameReply_of_ret h
    have hsame : (nameSystem.call (.lstat path) names).2 = names := hnames
    rw [hsame]
    simpa using hin
  rename := by
    intro name path names h
    have hnames : (nameSystem.call (.rename name path) names).2 =
      path :: names.filter (· ≠ name) := (nameReply_of_ret h).2
    rw [hnames]
    exact List.mem_cons_self
  unlink := by
    intro path names h
    have hnames : (nameSystem.call (.unlink path) names).2 = names.filter (· ≠ path) :=
      (nameReply_of_ret h).2
    rw [hnames]
    simp
  mild := by
    intro c names path hc h
    have hsame : ∀ ok, (nameReply ok names names).2 = names := by
      intro ok
      cases ok with
      | true => rfl
      | false => rfl
    cases c with
    | rename | unlink | rmdir => cases hc
    | stat | lstat =>
      dsimp only [nameSystem]
      rwa [hsame]
    | _ => exact h

instance : Decidable (NoOpFails sys x c mount path ops w) :=
  decidable_of_iff (((sys.call (x.probe path) w.sys).1.ret = 0 ∧
      (sys.call (x.probe path) w.sys).1.kind = x.kind) ∧
      AllSucceed (x.branch sys c mount path) x.saves ops (.start 0 path)
        (call sys (x.probe path) w).2 ∧ (x.execute sys c mount path ops w).1.ret ≠ -1)
    ⟨fun h => ⟨h.1, h.2.1, h.2.2⟩, fun h => ⟨h.check, h.loop, h.ret⟩⟩

def fileWorld (t : Table) (l : JournalOpList) : World (List (List Char)) :=
  ⟨[rootMount ++ l.path], 0, 0, t, [], 0⟩

theorem unlinkAgrees_two : ∃ s L,
    exec (FileTable.step renameConfig) FileTable.State.init (sampleRun NoOpenFileOp.unlink.code) =
      some s ∧
      L ∈ s.lists ∧
      let l := L.opList.readBack .disk 0 0
      UnlinkAgrees nameFiles .noOpenFile renameConfig rootMount (rootMount ++ l.path) l.ops
        (fileWorld s.table l) := by
  obtain ⟨s, L, hs, hL, hok, hcount⟩ : ∃ s L,
      exec (FileTable.step renameConfig) FileTable.State.init
        (sampleRun NoOpenFileOp.unlink.code) = some s ∧ L ∈ s.lists ∧
      let l := L.opList.readBack .disk 0 0
      NoOpFails nameSystem .noOpenFile renameConfig rootMount (rootMount ++ l.path) l.ops
        (fileWorld s.table l) ∧ l.ops.countP UnlinkClass.noOpenFile.unlinks = 2 :=
    ⟨_, _, rfl, List.mem_cons_self .., by decide +kernel, by decide +kernel⟩
  refine ⟨s, L, hs, hL, (unlinkAgrees_iff nameFiles hs rfl hok).2 ⟨?_, ?_⟩⟩
  · rw [hcount]
    decide
  · intro hzero
    rw [hcount] at hzero
    cases hzero

/-- One op that unlinks the file of the list: the file stays, and its node is destroyed. -/
theorem not_unlinkAgrees_one : ∃ s L n,
    exec (FileTable.step sampleConfig) FileTable.State.init (sampleRun NoOpenFileOp.unlink.code) =
      some s ∧
      L ∈ s.lists ∧
      let l := L.opList.readBack .disk 0 0
      let path := rootMount ++ l.path
      let w' := (operationFile nameSystem sampleConfig rootMount path l.ops
        (fileWorld s.table l)).2
      NoOpFails nameSystem .noOpenFile sampleConfig rootMount path l.ops (fileWorld s.table l) ∧
        s.table.rbt false .file (cutStrToInt path) = some n ∧ w'.table.freed n = true ∧
        ¬UnlinkAgrees nameFiles .noOpenFile sampleConfig rootMount path l.ops
          (fileWorld s.table l) := by
  obtain ⟨s, L, n, hs, hL, hok, hn, hfreed, hpresent, hop⟩ : ∃ s L n,
      exec (FileTable.step sampleConfig) FileTable.State.init
        (sampleRun NoOpenFileOp.unlink.code) = some s ∧ L ∈ s.lists ∧
      let l := L.opList.readBack .disk 0 0
      let path := rootMount ++ l.path
      let w' := (operationFile nameSystem sampleConfig rootMount path l.ops
        (fileWorld s.table l)).2
      NoOpFails nameSystem .noOpenFile sampleConfig rootMount path l.ops (fileWorld s.table l) ∧
        s.table.rbt false .file (cutStrToInt path) = some n ∧ w'.table.freed n = true ∧
        UnlinkClass.noOpenFile.finalPath rootMount path l.ops ∈ w'.sys ∧
        ∃ op ∈ l.ops, UnlinkClass.noOpenFile.unlinks op = true :=
    ⟨_, _, 2, rfl, List.mem_cons_self .., by decide +kernel, by decide +kernel,
      by decide +kernel, by decide +kernel, by decide +kernel⟩
  refine ⟨s, L, n, hs, hL, hok, hn, hfreed, ?_⟩
  intro hagrees
  exact hagrees.removed.2 hop hpresent

end MyScripts.Shark.Executor
