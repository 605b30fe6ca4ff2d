import MyScripts.Shark.GroupMemory

/-!
# The queue as it is in memory

`group_queue` is a list of nodes, and `thread_writev` goes over it with
`list_for_each_entry_safe`, which holds on to the next node while `write_lock`
is free. This machine has the pointers and the memory of every group, and an
access to memory that is not allocated is a fault. It does what the machine
does that has a queue of groups.
-/
namespace MyScripts.Shark.GroupMemory
open Library.CircularList Library.Decimal Library.Run ListHead Journal

def readOp (m : Memory) : Node → Option WordOp
  | .oplist f => if m.heap.live (.oplist f) then some (m.op f) else none
  | _ => none

def readList (fuel : ℕ) (m : Memory) : Node → Option OpList
  | .opGroup l =>
    if m.heap.live (.opGroup l) then do
      let nodes ← listForEach fuel (.ops l) m.heap
      let ops ← nodes.mapM (readOp m)
      some ((m.list l).opList ops)
    else none
  | _ => none

def readGroup (fuel : ℕ) (m : Memory) : Node → Option (CInt × List OpList)
  | .groupList g =>
    if m.heap.live (.groupList g) then do
      let nodes ← listForEach fuel (.opsgroup g) m.heap
      let lists ← nodes.mapM (readList fuel m)
      some (m.group g, lists)
    else none
  | _ => none

def printGroup (opsgroupsIndex : CInt) (lists : List OpList) : Option (List Char) :=
  (writeLists opsgroupsIndex lists).bind fun s =>
    (sprintf 128 (groupString opsgroupsIndex)).map (s ++ ·)

def destroyGroup (fuel : ℕ) : Node → Heap Node → Option (Heap Node)
  | .groupList g, heap => fileOpsGroupDestroy fuel g heap
  | _, _ => none

inductive Writer
  | top
  | waiting
  | awake
  | write (pos tmp : Node)
  | printing (rest : List Char) (tmp : Node)
  | relock (tmp : Node)
  | leaving
  | exited

def Writer.signal : Writer → Writer
  | waiting => awake
  | w => w

structure Outside where
  file : List Char
  readLock : Option Holder
  destroy : DestroyPc
  vars : Pool → Reader
  reader : Pool → ReaderPc
  calls : Pool → List Call

def Outside.of (s : State) : Outside :=
  ⟨s.file, s.readLock, s.destroy, s.vars, s.reader, s.calls⟩

def Outside.state (o : Outside) : State :=
  { State.init with
    file := o.file
    readLock := o.readLock
    destroy := o.destroy
    vars := o.vars
    reader := o.reader
    calls := o.calls }

structure Pointers where
  memory : Memory
  groupIndex : ℕ
  group : Option ℕ
  writer : Writer
  outside : Outside
  fault : Bool

def startHeap : Heap Node where
  live n := n = .groupQueue
  next _ := .groupQueue
  prev _ := .groupQueue

def Pointers.init (m : Memory) : Pointers :=
  ⟨{ m with heap := startHeap }, 0, none, .top, .of State.init, false⟩

theorem index_range (k : ℕ) : InInt32 (toInt32 k) := toInt32_range _

def index (k : ℕ) : CInt := ⟨toInt32 k, index_range k⟩

def GroupAt.Fresh (b : GroupAt) (heap : Heap Node) : Prop :=
  b.nodes.Nodup ∧ ∀ x ∈ b.nodes, heap.live x = false

instance (b : GroupAt) (heap : Heap Node) : Decidable (b.Fresh heap) :=
  inferInstanceAs (Decidable (_ ∧ _))

namespace Pointers

def access {β : Type} (c : Pointers) (r : Option β) (f : β → Pointers) : Pointers :=
  match r with
  | none => { c with fault := true }
  | some x => f x

@[simp] theorem access_some {β : Type} (c : Pointers) (x : β) (f : β → Pointers) :
    c.access (some x) f = f x := rfl

def setHeap (c : Pointers) (heap : Heap Node) : Pointers :=
  { c with memory := { c.memory with heap } }

def setOutside (c : Pointers) (o : Outside) : Pointers := { c with outside := o }

def build (c : Pointers) (b : GroupAt) : Option Pointers :=
  if c.group = none ∧ b.Fresh c.memory.heap then
    some (c.access (fileOpsGroupNew (index c.groupIndex) b c.memory) fun memory =>
      { c with memory, group := some b.addr, groupIndex := c.groupIndex + 1 })
  else none

def handleGroups (c : Pointers) : Option Pointers :=
  c.group.map fun g =>
    c.access (listAddTail (.groupList g) .groupQueue c.memory.heap) fun heap =>
      { c.setHeap heap with group := none, writer := c.writer.signal }

def nextGroup (poison : Node × Node) (c : Pointers) (pos tmp : Node) : Pointers :=
  if pos = .groupQueue then { c with writer := .leaving }
  else
    c.access (listDel poison pos c.memory.heap) fun heap =>
      { c.setHeap heap with writer := .write pos tmp }

def start (poison : Node × Node) (c : Pointers) : Pointers :=
  c.access (getNext c.memory.heap .groupQueue) fun pos =>
    c.access (getNext c.memory.heap pos) fun tmp => c.nextGroup poison pos tmp

def threadWritev (poison : Node × Node) (fuel : ℕ) (c : Pointers) : Option Pointers :=
  match c.writer with
  | .top =>
    some (c.access (listEmpty .groupQueue c.memory.heap) fun empty =>
      if empty then { c with writer := .waiting } else c.start poison)
  | .waiting => none
  | .awake => some (c.start poison)
  | .write pos tmp =>
    if c.outside.readLock = none then
      match readGroup fuel c.memory pos with
      | none => some { c with fault := true }
      | some (i, lists) =>
        (printGroup i lists).map fun text =>
          c.access (destroyGroup fuel pos c.memory.heap) fun heap =>
            { c.setHeap heap with
              writer := .printing text tmp
              outside := { c.outside with readLock := some .writer } }
    else none
  | .printing rest tmp =>
    some { c with
      writer := .relock tmp
      outside := { c.outside with file := c.outside.file ++ rest, readLock := none } }
  | .relock tmp =>
    some (c.access (getNext c.memory.heap tmp) fun n => c.nextGroup poison tmp n)
  | .leaving =>
    some { c with writer := if c.outside.destroy ≠ .running then .exited else .top }
  | .exited => none

def flush (c : Pointers) (n : ℕ) : Option Pointers :=
  match c.writer with
  | .printing rest tmp =>
    some { c with
      writer := .printing (rest.drop n) tmp
      outside := { c.outside with file := c.outside.file ++ rest.take n } }
  | _ => none

def destroyStep (c : Pointers) : Option Pointers :=
  match c.outside.destroy with
  | .running => some (c.setOutside { c.outside with destroy := .flagged })
  | .flagged =>
    some { c.setOutside { c.outside with destroy := .joining } with writer := c.writer.signal }
  | .joining =>
    match c.writer with
    | .exited => some (c.setOutside { c.outside with destroy := .joined })
    | _ => none
  | .joined => none

end Pointers

/-- `build` is `file_ops_group_new`, with the addresses that it is given and the
operations that it draws. -/
inductive PointerEvent
  | build (b : GroupAt)
  | handle
  | writer
  | flush (n : ℕ)
  | wake
  | reader (p : Pool)
  | destroy

def pointerStep (poison : Node × Node) (fuel : ℕ) (c : Pointers) (e : PointerEvent) :
    Option Pointers :=
  if c.fault ∨ c.outside.destroy = .joined then none
  else
    match e with
    | .build b => c.build b
    | .handle => c.handleGroups
    | .writer => c.threadWritev poison fuel
    | .flush n => c.flush n
    | .wake => some { c with writer := c.writer.signal }
    | .reader p => (c.outside.state.analyzeStep p).map fun s => c.setOutside (.of s)
    | .destroy => c.destroyStep

end MyScripts.Shark.GroupMemory
