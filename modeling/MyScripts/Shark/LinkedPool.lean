import MyScripts.Shark.PoolPieces
import MyScripts.Shark.PoolLedger

/-!
# The pool as it is in memory

The machine of a pool with the pointers that its threads hold and the memory of every group, op
list and worker. An access to memory that is not allocated is a fault. A builder goes over its
group with `list_for_each_entry_safe`, and holds on to the next node while the pool's lock is free.
-/
namespace MyScripts.Shark.PoolMemory
open Library.CircularList Library.Run ListHead WorkerPool

variable {n : ℕ}

/-- Where `build_worker_queue` was called; `pool_oper_increase` has the worker that is freed after
it. -/
inductive Caller
  | worker
  | increase (w : ℕ)

inductive ThreadPc
  | fetch
  | waiting
  | build (caller : Caller)
  | adding (caller : Caller) (group : ℕ) (pos tmp : Node)
  | built (caller : Caller) (ret : ℤ)
  | perform (w : ℕ)
  | increase (w : ℕ)
  | exited

def ThreadPc.isExited : ThreadPc → Bool
  | .exited => true
  | _ => false

structure Outside where
  written : ℕ
  readPos : ℕ
  groupRead : Bool
  readIndex : ℕ
  workerSize : ℕ
  building : Bool
  destroy : Bool
  mask : Bool
  executed : List ListIndex
  joined : Bool

def Outside.of (s : State n) : Outside :=
  ⟨s.written, s.readPos, s.groupRead, s.readIndex, s.workerSize, s.building, s.destroy, s.mask,
    s.executed, s.joined⟩

structure Pointers (n : ℕ) where
  memory : Memory
  thread : Fin n → ThreadPc
  group : Option ℕ
  outside : Outside
  fault : Bool

def startHeap : Heap Node where
  live n := n = .workerList
  next _ := .workerList
  prev _ := .workerList

def Pointers.init (n : ℕ) (m : Memory) : Pointers n :=
  ⟨{ m with heap := startHeap }, fun _ => .fetch, none, .of (WorkerPool.init n), false⟩

def listFields (x : ListIndex × Kind) : ListFields :=
  ⟨x.2.fileType, x.2.isNew, x.2.isNeedOpen, x.1.opList⟩

def GroupAt.Reads (b : GroupAt) (j : Journal) (g : ℕ) : Prop :=
  b.index = g ∧ b.lists.map ListAt.fields = (opLists g (j.getD g [])).map listFields

instance (b : GroupAt) (j : Journal) (g : ℕ) : Decidable (b.Reads j g) :=
  inferInstanceAs (Decidable (_ ∧ _))

def Fresh (nodes : List Node) (heap : Heap Node) : Prop :=
  nodes.Nodup ∧ ∀ x ∈ nodes, heap.live x = false

instance (nodes : List Node) (heap : Heap Node) : Decidable (Fresh nodes heap) :=
  inferInstanceAs (Decidable (_ ∧ _))

/-- What a thread gets in one step from outside: the group that `analyze_string_read` returns, the
memory for a worker and its path, if there is any, and the answer of `pool_oper_tolerate`. -/
structure Answers where
  group : GroupAt
  worker : Option (ℕ × ℕ)
  tolerate : ℤ

namespace Pointers

def access {β : Type} (c : Pointers n) (r : Option β) (f : β → Pointers n) : Pointers n :=
  match r with
  | none => { c with fault := true }
  | some x => f x

@[simp] theorem access_some {β : Type} (c : Pointers n) (x : β) (f : β → Pointers n) :
    c.access (some x) f = f x := rfl

def setHeap (c : Pointers n) (heap : Heap Node) : Pointers n :=
  { c with memory := { c.memory with heap } }

def goto (c : Pointers n) (i : Fin n) (pc : ThreadPc) : Pointers n :=
  { c with thread := Function.update c.thread i pc }

end Pointers

def takeWorker (heap : Heap Node) : Option (ℕ × Heap Node) := do
  match ← getNext heap .workerList with
  | .list w => (listDelInit (.list w) heap).map fun heap => (w, heap)
  | _ => none

def firstPair (head : Node) (heap : Heap Node) : Option (Node × Node) := do
  let pos ← getNext heap head
  let tmp ← getNext heap pos
  some (pos, tmp)

def readIndex (g : ℕ) (m : Memory) : Option ℕ :=
  if m.heap.live (.groupHead g) then some (m.group g) else none

def readOp (heap : Heap Node) : Node → Option ℕ
  | .oplist f => if heap.live (.oplist f) then some f else none
  | _ => none

def performWorker (fuel : ℕ) (w : ℕ) (m : Memory) : Option ListIndex :=
  if m.heap.live (.list w) ∧ m.heap.live (.absPath (m.worker w).absPath) ∧
      m.heap.live (.opGroup (m.worker w).args) then do
    let nodes ← listForEach fuel (.opListHead (m.worker w).args) m.heap
    let _ ← nodes.mapM (readOp m.heap)
    some (m.worker w).index
  else none

namespace Pointers

def atEnd (cf : Config) (c : Pointers n) : Prop :=
  c.outside.readIndex ≥ cf.groupsIndex ∧ c.outside.workerSize = 0

instance (cf : Config) (c : Pointers n) : Decidable (c.atEnd cf) :=
  inferInstanceAs (Decidable (_ ∧ _))

def poolOperWorker (c : Pointers n) (i : Fin n) : Pointers n :=
  c.access (listEmpty .workerList c.memory.heap) fun empty =>
    if empty then c.goto i (if c.outside.destroy then .exited else .build .worker)
    else
      c.access (takeWorker c.memory.heap) fun taken =>
        { c.setHeap taken.2 with
          outside := { c.outside with workerSize := c.outside.workerSize - 1 } }.goto i
          (.perform taken.1)

def buildWorkerQueue (cf : Config) (j : Journal) (b : GroupAt) (c : Pointers n) (i : Fin n)
    (caller : Caller) : Option (Pointers n) :=
  if c.outside.groupRead then
    if c.outside.readPos < c.outside.written then
      if b.Reads j c.outside.readPos ∧ Fresh b.nodes c.memory.heap then
        some (c.access (analyzeStringRead b c.memory) fun memory =>
          { c with
            memory
            group := some b.addr
            outside := { c.outside with
              readPos := c.outside.readPos + 1
              readIndex := c.outside.readIndex + 1
              groupRead := false } }.goto i (.built caller 0))
      else none
    else
      some ({ c with group := none }.goto i (.built caller (if c.atEnd cf then 1 else 0)))
  else
    match c.group with
    | none => some (c.goto i (.built caller (if c.atEnd cf then 1 else 0)))
    | some g =>
      if c.outside.building then some (c.goto i (.built caller 0))
      else
        some (c.access (firstPair (.groupHead g) c.memory.heap) fun first =>
          { c with
            group := none
            outside := { c.outside with groupRead := true, building := true } }.goto i
            (.adding caller g first.1 first.2))

def nextList (c : Pointers n) (i : Fin n) (caller : Caller) (g : ℕ) (tmp : Node) : Pointers n :=
  c.access (getNext c.memory.heap tmp) fun after => c.goto i (.adding caller g tmp after)

def addWorker (poison : Node × Node) (fuel : ℕ) (c : Pointers n) (i : Fin n) (caller : Caller)
    (g w : ℕ) (tmp : Node) : Pointers n :=
  if c.outside.destroy then
    c.access (freeOperWorker poison fuel c.memory.worker w c.memory.heap) fun heap =>
      (c.setHeap heap).goto i (.built caller 0)
  else
    c.access (listAddTail (.list w) .workerList c.memory.heap) fun heap =>
      { c.setHeap heap with
        outside := { c.outside with workerSize := c.outside.workerSize + 1 } }.nextList i caller g
        tmp

/-- Without memory for the worker, `oper_malloc` has still been called with the group's index. -/
def makeWorker (poison : Node × Node) (fuel : ℕ) (worker : Option (ℕ × ℕ)) (c : Pointers n)
    (i : Fin n) (caller : Caller) (g l : ℕ) (fn : Process) (tmp : Node) : Option (Pointers n) :=
  match readIndex g c.memory, worker with
  | none, _ => some { c with fault := true }
  | some _, none => some (c.nextList i caller g tmp)
  | some index, some (addr, path) =>
    if Fresh [.list addr, .absPath path] c.memory.heap then
      some (c.access (operMalloc fn l index addr path c.memory) fun memory =>
        { c with memory }.addWorker poison fuel i caller g addr tmp)
    else none

/-- The loop of `build_worker_queue`; a list that has no function is left without a worker. -/
def buildWorker (poison : Node × Node) (fuel : ℕ) (worker : Option (ℕ × ℕ)) (c : Pointers n)
    (i : Fin n) (caller : Caller) (g : ℕ) (pos tmp : Node) : Option (Pointers n) :=
  if pos = .groupHead g then
    some (c.access (freeJournalGroupMem g c.memory.heap) fun heap =>
      { c.setHeap heap with outside := { c.outside with building := false } }.goto i
        (.built caller 0))
  else
    match pos with
    | .opGroup l =>
      match listDelInit (.opGroup l) c.memory.heap with
      | none => some { c with fault := true }
      | some heap =>
        let c := c.setHeap heap
        let fields := c.memory.list l
        match process fields.fileType fields.isNew fields.isNeedOpen with
        | none => some (c.nextList i caller g tmp)
        | some fn => c.makeWorker poison fuel worker i caller g l fn tmp
    | _ => some { c with fault := true }

def freeWorkerOf (poison : Node × Node) (fuel : ℕ) (c : Pointers n) (w : ℕ)
    (f : Pointers n → Pointers n) : Pointers n :=
  c.access (freeOperWorker poison fuel c.memory.worker w c.memory.heap) fun heap =>
    f (c.setHeap heap)

def operThread (poison : Node × Node) (fuel : ℕ) (cf : Config) (j : Journal) (c : Pointers n)
    (i : Fin n) (a : Answers) : Option (Pointers n) :=
  match c.thread i with
  | .fetch => some (if c.outside.destroy then c.goto i .exited else c.poolOperWorker i)
  | .waiting => some (c.poolOperWorker i)
  | .build caller => c.buildWorkerQueue cf j a.group i caller
  | .adding caller g pos tmp => c.buildWorker poison fuel a.worker i caller g pos tmp
  | .built .worker ret =>
    some (if ret = 1 then { c with outside := { c.outside with mask := true } }.goto i .exited
      else c.goto i .waiting)
  | .built (.increase w) ret =>
    some (c.freeWorkerOf poison fuel w fun c =>
      if ret = 1 then { c with outside := { c.outside with mask := true } }.goto i .fetch
      else c.goto i .fetch)
  | .perform w =>
    some (c.access (performWorker fuel w c.memory) fun index =>
      { c with outside := { c.outside with executed := c.outside.executed ++ [index] } }.goto i
        (.increase w))
  | .increase w =>
    some (
      if a.tolerate = -1 then c.freeWorkerOf poison fuel w fun c => c.goto i .exited
      else if c.outside.workerSize < cf.minWorkerQueue then c.goto i (.build (.increase w))
      else c.freeWorkerOf poison fuel w fun c => c.goto i .fetch)
  | .exited => none

def join (poison : Node × Node) (fuel : ℕ) (c : Pointers n) : Pointers n :=
  c.access (freeOperList poison fuel c.memory) fun heap =>
    c.access (free .workerList heap) fun heap =>
      { c.setHeap heap with outside := { c.outside with joined := true } }

def allExited (c : Pointers n) : Prop := ∀ i, (c.thread i).isExited = true

instance (c : Pointers n) : Decidable c.allExited :=
  inferInstanceAs (Decidable (∀ i, (c.thread i).isExited = true))

end Pointers

inductive PoolEvent (n : ℕ)
  | write
  | thread (i : Fin n) (a : Answers)
  | destroy
  | join

def poolStep (poison : Node × Node) (fuel : ℕ) (cf : Config) (j : Journal) (c : Pointers n)
    (e : PoolEvent n) : Option (Pointers n) :=
  if c.fault ∨ c.outside.joined then none
  else
    match e with
    | .write =>
      if c.outside.written < j.length then
        some { c with outside := { c.outside with written := c.outside.written + 1 } }
      else none
    | .thread i a => c.operThread poison fuel cf j i a
    | .destroy => some { c with outside := { c.outside with destroy := true } }
    | .join => if c.outside.destroy ∧ c.allExited then some (c.join poison fuel) else none

end MyScripts.Shark.PoolMemory
