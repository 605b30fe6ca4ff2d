import MyScripts.Library.Run
import MyScripts.Shark.Worker
import Mathlib.Data.Fintype.Basic
import Mathlib.Data.List.Basic

/-!
# A pool of worker threads and its journal

The threads of one pool share a queue of op lists. A thread that finds the
queue short enters `build_worker_queue`, which reads the next group of the
journal, or turns the group read before into queue entries, or finds the end of
the journal. Every critical section on the pool's lock is one step.
-/
namespace MyScripts.Shark.WorkerPool
open Library.Run

inductive Kind
  | newDir
  | dir (opened : Bool)
  | newFile
  | file (opened : Bool)
  | symlink
  deriving DecidableEq, Repr

namespace Kind

def fileType : Kind → FileType
  | newDir | dir _ => .dir
  | newFile | file _ => .file
  | symlink => .symlink

def isNew : Kind → Bool
  | newDir | newFile => true
  | _ => false

/-- The journal's `need_open`; a new file's list is of class `OPENED_FILE_OP`. -/
def isNeedOpen : Kind → Bool
  | dir opened | file opened => opened
  | newFile => true
  | newDir | symlink => false

end Kind

inductive Process
  | mkdirDirec
  | ceateFile
  | needOpenDirec
  | operationDirec
  | needOpenFile
  | operationFile
  | symlinkOperation
  deriving DecidableEq, Repr

def process (fileType : FileType) (isNew isNeedOpen : Bool) : Option Process :=
  if isNew then
    match fileType with
    | .dir => some .mkdirDirec
    | .file => some .ceateFile
    | .symlink => none
  else
    match fileType with
    | .dir => some (if isNeedOpen then .needOpenDirec else .operationDirec)
    | .file => some (if isNeedOpen then .needOpenFile else .operationFile)
    | .symlink => some .symlinkOperation

def Kind.process (k : Kind) : Option Process :=
  WorkerPool.process k.fileType k.isNew k.isNeedOpen

theorem Kind.process_ne_none (k : Kind) : k.process ≠ none := by
  cases k <;> simp [Kind.process, WorkerPool.process, fileType, isNew]

/-- The counting of `file_ops_group_new`: lists made in one group, and
`total_ops_cnt` after it. -/
def fileOpsGroupNew : ℕ → ℤ → ℕ × ℤ
  | 0, cnt => (0, cnt)
  | k + 1, cnt =>
    if 0 ≥ cnt then (0, cnt - 1)
    else ((fileOpsGroupNew k (cnt - 1)).1 + 1, (fileOpsGroupNew k (cnt - 1)).2)

def groupRoutine (wait : ℕ) : ℕ → ℤ → List ℕ
  | 0, _ => []
  | fuel + 1, cnt =>
    let g := fileOpsGroupNew wait cnt
    if g.1 = 0 then [] else g.1 :: groupRoutine wait fuel g.2

theorem fileOpsGroupNew_full (k : ℕ) (cnt : ℤ) (h : (k : ℤ) ≤ cnt) :
    fileOpsGroupNew k cnt = (k, cnt - k) := by
  induction k generalizing cnt with
  | zero => simp [fileOpsGroupNew]
  | succ k ih =>
    rw [fileOpsGroupNew, if_neg (by omega), ih _ (by omega)]
    simp only [Prod.mk.injEq, true_and]
    omega

theorem groupRoutine_eq {wait : ℕ} (hw : 0 < wait) (k fuel : ℕ) (hf : k < fuel) :
    groupRoutine wait fuel ((k * wait : ℕ) : ℤ) = List.replicate k wait := by
  induction k generalizing fuel with
  | zero =>
    obtain ⟨fuel, rfl⟩ := Nat.exists_eq_succ_of_ne_zero (Nat.ne_of_gt hf)
    obtain ⟨w, rfl⟩ := Nat.exists_eq_succ_of_ne_zero (Nat.ne_of_gt hw)
    simp [groupRoutine, fileOpsGroupNew]
  | succ k ih =>
    obtain ⟨fuel, rfl⟩ := Nat.exists_eq_succ_of_ne_zero (Nat.ne_of_gt (Nat.zero_lt_of_lt hf))
    have hle : (wait : ℤ) ≤ (((k + 1) * wait : ℕ) : ℤ) := by
      exact_mod_cast Nat.le_mul_of_pos_left wait (Nat.succ_pos k)
    have hrest : (((k + 1) * wait : ℕ) : ℤ) - wait = ((k * wait : ℕ) : ℤ) := by
      rw [Nat.succ_mul]
      push_cast
      omega
    simp only [groupRoutine, fileOpsGroupNew_full _ _ hle, hrest]
    rw [if_neg (Nat.ne_of_gt hw), ih fuel (by omega), List.replicate_succ]

abbrev Journal := List (List Kind)

def opLists (g : ℕ) (kinds : List Kind) : List (ListIndex × Kind) :=
  kinds.zipIdx.map fun kl => (⟨g, kl.2⟩, kl.1)

structure Worker where
  index : ListIndex
  fn : Process
  deriving DecidableEq, Repr

inductive Site
  | worker
  | increase
  deriving DecidableEq, Repr

/-- A thread: before `pool_oper_worker`, at its loop, before and inside
`build_worker_queue`, back from it, with a worker, after the execution, gone. -/
inductive Pc
  | fetch
  | waiting
  | build (site : Site)
  | adding (site : Site) (rest : List (ListIndex × Kind))
  | built (site : Site) (ret : ℤ)
  | perform (w : Worker)
  | increase
  | exited
  deriving DecidableEq, Repr

structure State (n : ℕ) where
  thread : Fin n → Pc
  written : ℕ
  readPos : ℕ
  groupRead : Bool
  group : Option ℕ
  readIndex : ℕ
  queue : List Worker
  workerSize : ℕ
  building : Bool
  destroy : Bool
  mask : Bool
  executed : List ListIndex
  joined : Bool

variable {n : ℕ}

def init (n : ℕ) : State n where
  thread := fun _ => .fetch
  written := 0
  readPos := 0
  groupRead := true
  group := none
  readIndex := 0
  queue := []
  workerSize := 0
  building := false
  destroy := false
  mask := false
  executed := []
  joined := false

namespace State

def goto (s : State n) (i : Fin n) (pc : Pc) : State n :=
  { s with thread := Function.update s.thread i pc }

end State

structure Config where
  total : ℕ
  wait : ℕ

def Config.groupsIndex (c : Config) : ℕ := c.total / c.wait
def Config.minWorkerQueue (c : Config) : ℕ := c.wait / 2

def atEnd (c : Config) (s : State n) : Prop :=
  s.readIndex ≥ c.groupsIndex ∧ s.workerSize = 0

instance (c : Config) (s : State n) : Decidable (atEnd c s) := by
  unfold atEnd
  infer_instance

def buildWorkerQueue (c : Config) (j : Journal) (s : State n) (i : Fin n) (site : Site) : State n :=
  if s.groupRead then
    if s.readPos < s.written then
      { s with
        readPos := s.readPos + 1
        group := some s.readPos
        readIndex := s.readIndex + 1
        groupRead := false }.goto i (.built site 0)
    else
      { s with group := none }.goto i (.built site (if atEnd c s then 1 else 0))
  else
    match s.group with
    | none => s.goto i (.built site (if atEnd c s then 1 else 0))
    | some g =>
      if s.building then s.goto i (.built site 0)
      else
        { s with group := none, groupRead := true, building := true }.goto i
          (.adding site (opLists g (j.getD g [])))

/-- The loop of `build_worker_queue`; the last step clears `building`. A pool
that is being destroyed makes it drop the worker and the lists left. -/
def addWorker (s : State n) (i : Fin n) (site : Site) : List (ListIndex × Kind) → State n
  | [] => { s with building := false }.goto i (.built site 0)
  | (x, k) :: rest =>
    match k.process with
    | none => s.goto i (.adding site rest)
    | some fn =>
      if s.destroy then s.goto i (.built site 0)
      else
        { s with queue := s.queue ++ [Worker.mk x fn], workerSize := s.workerSize + 1 }.goto i
          (.adding site rest)

def poolOperWorker (s : State n) (i : Fin n) : State n :=
  match s.queue with
  | w :: queue => { s with queue := queue, workerSize := s.workerSize - 1 }.goto i (.perform w)
  | [] => s.goto i (if s.destroy then .exited else .build .worker)

def operThread (c : Config) (j : Journal) (s : State n) (i : Fin n) : Option (State n) :=
  match s.thread i with
  | .fetch => some (if s.destroy then s.goto i .exited else poolOperWorker s i)
  | .waiting => some (poolOperWorker s i)
  | .build site => some (buildWorkerQueue c j s i site)
  | .adding site rest => some (addWorker s i site rest)
  | .built .worker ret =>
    some (if ret = 1 then { s with mask := true }.goto i .exited else s.goto i .waiting)
  | .built .increase ret =>
    some (if ret = 1 then { s with mask := true }.goto i .fetch else s.goto i .fetch)
  | .perform w => some ({ s with executed := s.executed ++ [w.index] }.goto i .increase)
  | .increase =>
    some (s.goto i (if s.workerSize < c.minWorkerQueue then .build .increase else .fetch))
  | .exited => none

inductive ThreadMove (c : Config) (j : Journal) (s : State n) (i : Fin n) : State n → Prop
  | leave (h : s.thread i = .fetch ∨ s.thread i = .waiting) (hd : s.destroy = true) :
      ThreadMove c j s i (s.goto i .exited)
  | take (w queue) (h : s.thread i = .fetch ∨ s.thread i = .waiting) (hq : s.queue = w :: queue) :
      ThreadMove c j s i
        ({ s with queue := queue, workerSize := s.workerSize - 1 }.goto i (.perform w))
  | ask (h : s.thread i = .fetch ∨ s.thread i = .waiting) :
      ThreadMove c j s i (s.goto i (.build .worker))
  | read (site) (h : s.thread i = .build site) (hr : s.groupRead = true)
      (hw : s.readPos < s.written) :
      ThreadMove c j s i ({ s with
        readPos := s.readPos + 1
        group := some s.readPos
        readIndex := s.readIndex + 1
        groupRead := false }.goto i (.built site 0))
  | ended (site) (h : s.thread i = .build site) (hr : s.groupRead = true)
      (hw : ¬s.readPos < s.written) (he : atEnd c s) :
      ThreadMove c j s i ({ s with group := none }.goto i (.built site 1))
  | notYet (site) (h : s.thread i = .build site) (hr : s.groupRead = true) :
      ThreadMove c j s i ({ s with group := none }.goto i (.built site 0))
  | noGroup (site ret) (h : s.thread i = .build site) (hr : s.groupRead = false)
      (hg : s.group = none) : ThreadMove c j s i (s.goto i (.built site ret))
  | busy (site) (h : s.thread i = .build site) : ThreadMove c j s i (s.goto i (.built site 0))
  | start (site g) (h : s.thread i = .build site) (hg : s.group = some g)
      (hb : s.building = false) :
      ThreadMove c j s i ({ s with group := none, groupRead := true, building := true }.goto i
        (.adding site (opLists g (j.getD g []))))
  | finish (site) (h : s.thread i = .adding site []) :
      ThreadMove c j s i ({ s with building := false }.goto i (.built site 0))
  | drop (site x rest) (h : s.thread i = .adding site (x :: rest)) (hd : s.destroy = true) :
      ThreadMove c j s i (s.goto i (.built site 0))
  | add (site x fn rest) (h : s.thread i = .adding site (x :: rest)) :
      ThreadMove c j s i
        ({ s with queue := s.queue ++ [Worker.mk x.1 fn], workerSize := s.workerSize + 1 }.goto i
          (.adding site rest))
  | tell (site pc) (h : s.thread i = .built site 1) (hpc : pc = .exited ∨ pc = .fetch) :
      ThreadMove c j s i ({ s with mask := true }.goto i pc)
  | back (site ret pc) (h : s.thread i = .built site ret) (hpc : pc = .waiting ∨ pc = .fetch) :
      ThreadMove c j s i (s.goto i pc)
  | perform (w) (h : s.thread i = .perform w) :
      ThreadMove c j s i ({ s with executed := s.executed ++ [w.index] }.goto i .increase)
  | increase (pc) (h : s.thread i = .increase) (hpc : pc = .build .increase ∨ pc = .fetch) :
      ThreadMove c j s i (s.goto i pc)

inductive Event (n : ℕ)
  | write
  | thread (i : Fin n)
  | destroy
  | join

/-- The writer makes one more group readable, a thread steps, or the manager
destroys the pool whose mask is '1' and joins its threads. -/
def step (c : Config) (j : Journal) (s : State n) : Event n → Option (State n)
  | .write => if s.written < j.length then some { s with written := s.written + 1 } else none
  | .thread i => operThread c j s i
  | .destroy => if s.mask = true then some { s with destroy := true } else none
  | .join =>
    if s.destroy = true ∧ ∀ i, s.thread i = .exited then some { s with joined := true } else none

theorem poolOperWorker_move {c : Config} {j : Journal} {s : State n} {i : Fin n}
    (h : s.thread i = .fetch ∨ s.thread i = .waiting) :
    ThreadMove c j s i (poolOperWorker s i) := by
  unfold poolOperWorker
  cases hq : s.queue with
  | cons w queue => exact .take w queue h hq
  | nil =>
    dsimp only
    split_ifs with hd
    · exact .leave h hd
    · exact .ask h

theorem buildWorkerQueue_move {c : Config} {j : Journal} {s : State n} {i : Fin n} {site : Site}
    (h : s.thread i = .build site) : ThreadMove c j s i (buildWorkerQueue c j s i site) := by
  unfold buildWorkerQueue
  by_cases hr : s.groupRead = true
  · rw [if_pos hr]
    split_ifs with hw he
    · exact .read site h hr hw
    · exact .ended site h hr hw he
    · exact .notYet site h hr
  · rw [if_neg hr]
    cases hg : s.group with
    | none => exact .noGroup site _ h (Bool.eq_false_iff.2 hr) hg
    | some g =>
      by_cases hb : s.building = true
      · simp only [hb, if_true]
        exact .busy site h
      · simp only [if_neg hb]
        exact .start site g h hg (Bool.eq_false_iff.2 hb)

theorem addWorker_move {c : Config} {j : Journal} {s : State n} {i : Fin n} {site : Site}
    {rest : List (ListIndex × Kind)} (h : s.thread i = .adding site rest) :
    ThreadMove c j s i (addWorker s i site rest) := by
  cases rest with
  | nil => exact .finish site h
  | cons x rest =>
    simp only [addWorker]
    cases hk : x.2.process with
    | none => exact absurd hk x.2.process_ne_none
    | some fn =>
      dsimp only
      split_ifs with hd
      · exact .drop site x rest h hd
      · exact .add site x fn rest h

theorem operThread_cases {c : Config} {j : Journal} {s t : State n} {i : Fin n}
    (h : operThread c j s i = some t) : ThreadMove c j s i t := by
  unfold operThread at h
  cases hpc : s.thread i with
  | fetch =>
    simp only [hpc, Option.some.injEq] at h
    subst h
    split_ifs with hd
    · exact .leave (Or.inl hpc) hd
    · exact poolOperWorker_move (Or.inl hpc)
  | waiting =>
    simp only [hpc, Option.some.injEq] at h
    subst h
    exact poolOperWorker_move (Or.inr hpc)
  | build site =>
    simp only [hpc, Option.some.injEq] at h
    subst h
    exact buildWorkerQueue_move hpc
  | adding site rest =>
    simp only [hpc, Option.some.injEq] at h
    subst h
    exact addWorker_move hpc
  | built site ret =>
    cases site with
    | worker =>
      simp only [hpc, Option.some.injEq] at h
      subst h
      split_ifs with hr
      · exact .tell .worker _ (hr ▸ hpc) (Or.inl rfl)
      · exact .back .worker ret _ hpc (Or.inl rfl)
    | increase =>
      simp only [hpc, Option.some.injEq] at h
      subst h
      split_ifs with hr
      · exact .tell .increase _ (hr ▸ hpc) (Or.inr rfl)
      · exact .back .increase ret _ hpc (Or.inr rfl)
  | perform w =>
    simp only [hpc, Option.some.injEq] at h
    subst h
    exact .perform w hpc
  | increase =>
    simp only [hpc, Option.some.injEq] at h
    subst h
    split_ifs
    · exact .increase _ hpc (Or.inl rfl)
    · exact .increase _ hpc (Or.inr rfl)
  | exited => simp only [hpc, reduceCtorEq] at h

end MyScripts.Shark.WorkerPool
