import MyScripts.Shark.MemoryBlocks
import MyScripts.Shark.WorkerPool

/-!
# The memory of a pool

`analyze_string_read` allocates a group with its op lists and their operations, `oper_malloc` a
worker for an op list, and `free_oper_worker` frees a worker with its op list.
-/
namespace MyScripts.Shark.PoolMemory
open Library.CircularList ListHead WorkerPool

/-- The links of the structures at these addresses. A path has none, only memory of its own. -/
inductive Node
  | null
  | workerList
  | groupHead (group : ℕ)
  | opGroup (list : ℕ)
  | opListHead (list : ℕ)
  | oplist (op : ℕ)
  | list (worker : ℕ)
  | absPath (path : ℕ)
  deriving DecidableEq

structure ListFields where
  fileType : FileType
  isNew : Bool
  isNeedOpen : Bool
  opsIndex : ℕ
  deriving DecidableEq

structure WorkerFields where
  fn : Process
  index : ListIndex
  args : ℕ
  absPath : ℕ

structure Memory where
  heap : Heap Node
  group : ℕ → ℕ
  list : ℕ → ListFields
  worker : ℕ → WorkerFields

structure ListAt where
  addr : ℕ
  fields : ListFields
  ops : List ℕ

structure GroupAt where
  addr : ℕ
  index : ℕ
  lists : List ListAt

structure WorkerAt where
  addr : ℕ
  path : ℕ
  fn : Process
  group : ℕ
  list : ListAt

def ListAt.node (l : ListAt) : Node := .opGroup l.addr

def ListAt.nodes (l : ListAt) : List Node := l.node :: .opListHead l.addr :: l.ops.map .oplist

def GroupAt.nodes (b : GroupAt) : List Node :=
  .groupHead b.addr :: b.lists.flatMap ListAt.nodes

def WorkerAt.node (w : WorkerAt) : Node := .list w.addr

def WorkerAt.nodes (w : WorkerAt) : List Node := w.node :: .absPath w.path :: w.list.nodes

def WorkerAt.index (w : WorkerAt) : ListIndex := ⟨w.group, w.list.fields.opsIndex⟩

def WorkerAt.fields (w : WorkerAt) : WorkerFields := ⟨w.fn, w.index, w.list.addr, w.path⟩

def alloc (n : Node) (heap : Heap Node) : Heap Node := malloc n .null .null heap

def readList (l : ListAt) (m : Memory) : Option Memory := do
  let heap := alloc l.node (alloc (.opListHead l.addr) m.heap)
  let heap ← initListHead (.opListHead l.addr) heap
  let heap ← initListHead l.node heap
  let heap ← mallocTails .null (.opListHead l.addr) (l.ops.map .oplist) heap
  some { m with heap, list := Function.update m.list l.addr l.fields }

def readLists (g : ℕ) : List ListAt → Memory → Option Memory
  | [], m => some m
  | l :: ls, m => do
    let m ← readList l m
    let heap ← listAddTail l.node (.groupHead g) m.heap
    readLists g ls { m with heap }

def analyzeStringRead (b : GroupAt) (m : Memory) : Option Memory := do
  let heap ← initListHead (.groupHead b.addr) (alloc (.groupHead b.addr) m.heap)
  readLists b.addr b.lists { m with heap, group := Function.update m.group b.addr b.index }

/-- The path has no links, and stands for itself in their place. -/
def operMalloc (fn : Process) (args group : ℕ) (addr path : ℕ) (m : Memory) : Option Memory :=
  if m.heap.live (.opGroup args) then do
    let heap ← initListHead (.list addr) (alloc (.list addr) m.heap)
    some { m with
      heap := malloc (.absPath path) (.absPath path) (.absPath path) heap
      worker := Function.update m.worker addr ⟨fn, ⟨group, (m.list args).opsIndex⟩, args, path⟩ }
  else none

def freeJournalGroupMem (g : ℕ) (heap : Heap Node) : Option (Heap Node) := free (.groupHead g) heap

def freeJournalOpListMem (poison : Node × Node) (l : ℕ) (heap : Heap Node) :
    Option (Heap Node) := do
  let heap ← listDel poison (.opGroup l) heap
  let heap ← free (.opGroup l) heap
  free (.opListHead l) heap

def freeJournalOpMem (poison : Node × Node) : Node → Heap Node → Option (Heap Node)
  | .oplist f, heap => do
    let heap ← listDel poison (.oplist f) heap
    free (.oplist f) heap
  | _, _ => none

def freeOperWorker (poison : Node × Node) (fuel : ℕ) (fields : ℕ → WorkerFields) (w : ℕ)
    (heap : Heap Node) : Option (Heap Node) :=
  if heap.live (.list w) then do
    let heap ← listForEachSafe fuel (.opListHead (fields w).args) (freeJournalOpMem poison) heap
    let heap ← free (.absPath (fields w).absPath) heap
    let heap ← freeJournalOpListMem poison (fields w).args heap
    free (.list w) heap
  else none

def freeWorker (poison : Node × Node) (fuel : ℕ) (fields : ℕ → WorkerFields) :
    Node → Heap Node → Option (Heap Node)
  | .list w, heap => do
    let heap ← listDelInit (.list w) heap
    freeOperWorker poison fuel fields w heap
  | _, _ => none

def freeOperList (poison : Node × Node) (fuel : ℕ) (m : Memory) : Option (Heap Node) :=
  listForEachSafe fuel .workerList (freeWorker poison fuel m.worker) m.heap

/-- A group with the lists that are in it, an op list that was taken out of its group, a worker
in the hands of a thread, and one in the queue. -/
inductive Piece
  | group (b : GroupAt)
  | list (group : ℕ) (l : ListAt)
  | worker (w : WorkerAt)
  | queued (w : WorkerAt)

namespace Piece

def nodes : Piece → List Node
  | group b => b.nodes
  | list _ l => l.nodes
  | worker w | queued w => w.nodes

end Piece

def ListAt.opHead (l : ListAt) : Node × List Node := (.opListHead l.addr, l.ops.map .oplist)

namespace Piece

def heads : Piece → List (Node × List Node)
  | group b => (.groupHead b.addr, b.lists.map ListAt.node) :: b.lists.map ListAt.opHead
  | list _ l => [(l.node, []), l.opHead]
  | worker w => [(w.node, []), (.absPath w.path, []), (w.list.node, []), w.list.opHead]
  | queued w => [(.absPath w.path, []), (w.list.node, []), w.list.opHead]

end Piece

variable {m m' m'' : Memory} {L L' : HeadLists Node} {l : ListAt} {ls : List ListAt} {b : GroupAt}
  {w : WorkerAt} {p : Piece} {heap : Heap Node} {new new' done : List Node} {g : ℕ}

theorem ListAt.opHead_closed (l : ListAt) :
    l.opHead.1 ∈ l.nodes ∧ ∀ x ∈ l.opHead.2, x ∈ l.nodes :=
  ⟨List.mem_cons_of_mem _ List.mem_cons_self,
    fun _ hx => List.mem_cons_of_mem _ (List.mem_cons_of_mem _ hx)⟩

theorem ListAt.node_mem (l : ListAt) : l.node ∈ l.nodes := List.mem_cons_self

theorem ListAt.head_mem (l : ListAt) : Node.opListHead l.addr ∈ l.nodes := l.opHead_closed.1

theorem GroupAt.list_mem {x : Node} (hl : l ∈ b.lists) (hx : x ∈ l.nodes) : x ∈ b.nodes :=
  List.mem_cons_of_mem _ (List.mem_flatMap.2 ⟨l, hl, hx⟩)

theorem WorkerAt.list_mem {x : Node} (hx : x ∈ w.list.nodes) : x ∈ w.nodes :=
  List.mem_cons_of_mem _ (List.mem_cons_of_mem _ hx)

theorem Piece.closed (p : Piece) : ∀ h ∈ p.heads, h.1 ∈ p.nodes ∧ ∀ x ∈ h.2, x ∈ p.nodes := by
  have hops : ∀ w : WorkerAt, w.list.opHead.1 ∈ w.nodes ∧ ∀ x ∈ w.list.opHead.2, x ∈ w.nodes :=
    fun w => ⟨WorkerAt.list_mem w.list.opHead_closed.1,
      fun x hx => WorkerAt.list_mem (w.list.opHead_closed.2 x hx)⟩
  have hself : ∀ w : WorkerAt, ∀ h ∈ [(.absPath w.path, []), (w.list.node, []), w.list.opHead],
      h.1 ∈ w.nodes ∧ ∀ x ∈ h.2, x ∈ w.nodes := by
    intro w h hh
    simp only [List.mem_cons, List.not_mem_nil, or_false] at hh
    rcases hh with rfl | rfl | rfl
    · exact ⟨List.mem_cons_of_mem _ List.mem_cons_self, by simp⟩
    · exact ⟨WorkerAt.list_mem w.list.node_mem, by simp⟩
    · exact hops w
  cases p with
  | group b =>
    intro h hh
    rcases List.mem_cons.1 hh with rfl | hh
    · refine ⟨List.mem_cons_self, fun x hx => ?_⟩
      obtain ⟨l, hl, rfl⟩ := List.mem_map.1 hx
      exact GroupAt.list_mem hl l.node_mem
    · obtain ⟨l, hl, rfl⟩ := List.mem_map.1 hh
      exact ⟨GroupAt.list_mem hl l.opHead_closed.1,
        fun x hx => GroupAt.list_mem hl (l.opHead_closed.2 x hx)⟩
  | list _ l => simpa [Piece.heads, Piece.nodes, l.node_mem] using l.opHead_closed
  | worker w =>
    intro h hh
    rcases List.mem_cons.1 hh with rfl | hh
    · exact ⟨List.mem_cons_self, by simp⟩
    · exact hself w h hh
  | queued w => exact hself w

def Piece.block (p : Piece) : Block Node := ⟨p.nodes, p.heads, p.closed⟩

def Piece.Loaded (m : Memory) : Piece → Prop
  | group b => m.group b.addr = b.index ∧ ∀ l ∈ b.lists, m.list l.addr = l.fields
  | list _ l => m.list l.addr = l.fields
  | worker w | queued w => m.worker w.addr = w.fields

/-- Only fields of the new structures are written. -/
structure SameData (m m' : Memory) (new : List Node) : Prop where
  group : ∀ g, .groupHead g ∉ new → m'.group g = m.group g
  list : ∀ l, .opGroup l ∉ new → m'.list l = m.list l
  worker : ∀ w, .list w ∉ new → m'.worker w = m.worker w

theorem SameData.trans (h : SameData m m' new) (h' : SameData m' m'' new') :
    SameData m m'' (new ++ new') := by
  refine ⟨fun g hg => ?_, fun l hl => ?_, fun w hw => ?_⟩
  · rw [List.mem_append, not_or] at hg
    rw [h'.group g hg.2, h.group g hg.1]
  · rw [List.mem_append, not_or] at hl
    rw [h'.list l hl.2, h.list l hl.1]
  · rw [List.mem_append, not_or] at hw
    rw [h'.worker w hw.2, h.worker w hw.1]

theorem Piece.Loaded.same (hp : p.Loaded m) (h : SameData m m' new)
    (hout : ∀ x ∈ p.nodes, x ∉ new) : p.Loaded m' := by
  cases p with
  | group b =>
    refine ⟨by rw [h.group b.addr (hout _ List.mem_cons_self), hp.1], fun l hl => ?_⟩
    rw [h.list l.addr (hout _ (GroupAt.list_mem hl l.node_mem)), hp.2 l hl]
  | list _ l => exact (h.list l.addr (hout _ l.node_mem)).trans hp
  | worker w => exact (h.worker w.addr (hout _ List.mem_cons_self)).trans hp
  | queued w => exact (h.worker w.addr (hout _ List.mem_cons_self)).trans hp

theorem readList_eq (h : Stands m.heap L) (hdead : ∀ x ∈ l.nodes, L.live x ≠ true)
    (hnodup : l.nodes.Nodup) :
    ∃ m' L', readList l m = some m' ∧ Stands m'.heap L' ∧ Grows L L' l.nodes [] ∧
      SameData m m' l.nodes ∧ L'.list l.node = some [] ∧
      L'.list (.opListHead l.addr) = some (l.ops.map .oplist) ∧ m'.list l.addr = l.fields := by
  obtain ⟨hnode, hops⟩ := List.nodup_cons.1 hnodup
  obtain ⟨hhead, hops⟩ := List.nodup_cons.1 hops
  rw [List.mem_cons, not_or] at hnode
  obtain ⟨heap₁, heap₂, hinit, hinit', h₂⟩ := h.mallocInit_pair
    (hdead _ l.head_mem) (hdead _ l.node_mem)
    (Ne.symm hnode.1) .null .null
  have hgrows : Grows L ⟨Function.update (Function.update L.live (.opListHead l.addr) true)
      l.node true, Function.update (Function.update L.list (.opListHead l.addr) (some [])) l.node
        (some [])⟩ [l.node, .opListHead l.addr] [] := by
    refine ⟨fun c => ?_, fun c hc _ => ?_⟩
    · by_cases hc : c = l.node <;> by_cases hc' : c = .opListHead l.addr <;>
        simp [hc, hc', Function.update_apply]
    · simp only [List.mem_cons, List.not_mem_nil, or_false, not_or] at hc
      simp only [Function.update_of_ne hc.1, Function.update_of_ne hc.2]
  have hnil : Function.update (Function.update L.list (.opListHead l.addr) (some [])) l.node
      (some []) (.opListHead l.addr) = some [] := by
    rw [Function.update_of_ne (Ne.symm hnode.1), Function.update_self]
  have hout : ∀ x ∈ l.ops.map Node.oplist, x ∉ [l.node, .opListHead l.addr] := by
    intro x hx
    simp only [List.mem_cons, List.not_mem_nil, or_false, not_or]
    exact ⟨fun heq => hnode.2 (heq ▸ hx), fun heq => hhead (heq ▸ hx)⟩
  have hdead' : ∀ x ∈ l.ops.map Node.oplist, L.live x ≠ true := fun x hx =>
    hdead x (l.opHead_closed.2 x hx)
  obtain ⟨heap₃, L', hrun, h', hgrows', hl'⟩ := h₂.mallocTails .null (.opListHead l.addr) hnil
    (fun x hx => hgrows.dead (hdead' x hx) (hout x hx)) hops
  refine ⟨{ m with heap := heap₃, list := Function.update m.list l.addr l.fields }, L', ?_, h',
    hgrows.trans hgrows' (by simp), ⟨fun _ _ => rfl, fun k hk => ?_, fun _ _ => rfl⟩, ?_,
    by simpa using hl', Function.update_self ..⟩
  · simp only [readList, alloc, hinit, hinit', hrun, Option.bind_eq_bind, Option.bind_some]
  · refine Function.update_of_ne ?_ ..
    rintro rfl
    exact hk l.node_mem
  · rw [hgrows'.list _ hnode.2 (by simp [ListAt.node])]
    exact Function.update_self ..

theorem readLists_eq (h : Stands m.heap L) (hg : L.list (.groupHead g) = some done)
    (hdead : ∀ x ∈ ls.flatMap ListAt.nodes, L.live x ≠ true)
    (hnodup : (ls.flatMap ListAt.nodes).Nodup) :
    ∃ m' L', readLists g ls m = some m' ∧ Stands m'.heap L' ∧
      Grows L L' (ls.flatMap ListAt.nodes) [.groupHead g] ∧
      SameData m m' (ls.flatMap ListAt.nodes) ∧
      L'.list (.groupHead g) = some (done ++ ls.map ListAt.node) ∧
      ∀ l ∈ ls, L'.list (.opListHead l.addr) = some (l.ops.map .oplist) ∧
        m'.list l.addr = l.fields := by
  induction ls generalizing m L done with
  | nil =>
    exact ⟨m, L, rfl, h, .refl L _, ⟨fun _ _ => rfl, fun _ _ => rfl, fun _ _ => rfl⟩,
      by simpa using hg, by simp⟩
  | cons l ls ih =>
    rw [List.flatMap_cons] at hdead hnodup
    obtain ⟨hl, hls, hapart⟩ := List.nodup_append'.1 hnodup
    have hdead' : ∀ x ∈ l.nodes, L.live x ≠ true := fun x hx => hdead x (List.mem_append_left _ hx)
    have hout : Node.groupHead g ∉ l.nodes := fun hmem =>
      h.notMem_of_dead (hdead' _ hmem) hg List.mem_cons_self
    obtain ⟨m₁, L₁, hrun, h₁, hgrows, hsame, hnode, hops, hfields⟩ := readList_eq h hdead' hl
    have hg₁ : L₁.list (.groupHead g) = some done := by
      rw [hgrows.list _ hout List.not_mem_nil, hg]
    obtain ⟨heap, hadd, h₂⟩ := h₁.listAddTail hg₁ (h₁.loose_of_nil hnode) (by simp [ListAt.node])
    have hgrows₂ : Grows L ⟨L₁.live, Function.update (Function.update L₁.list l.node none)
        (.groupHead g) (some (done ++ [l.node]))⟩ l.nodes [.groupHead g] := by
      refine ⟨hgrows.live, fun c hc hc' => ?_⟩
      have hne : c ≠ l.node := fun heq => hc (heq ▸ l.node_mem)
      have hne' : c ≠ .groupHead g := fun heq => hc' (heq ▸ List.mem_cons_self)
      simp only [Function.update_of_ne hne, Function.update_of_ne hne']
      exact hgrows.list c hc List.not_mem_nil
    obtain ⟨m', L', hrest, h', hgrows', hsame', hg', hall⟩ := ih (m := { m₁ with heap }) h₂
      (Function.update_self ..)
      (fun x hx => hgrows₂.dead (hdead x (List.mem_append_right _ hx)) fun hx' => hapart hx' hx) hls
    have hsame₁ : SameData m { m₁ with heap } l.nodes := ⟨hsame.group, hsame.list, hsame.worker⟩
    refine ⟨m', L', ?_, h', hgrows₂.trans hgrows' (by simp), hsame₁.trans hsame', ?_, ?_⟩
    · simp only [readLists, hrun, hadd, hrest, Option.bind_eq_bind, Option.bind_some]
    · rw [hg', List.append_assoc, List.map_cons, List.singleton_append]
    · intro k hk
      rcases List.mem_cons.1 hk with rfl | hk
      · refine ⟨?_, ?_⟩
        · rw [hgrows'.list _ (fun hx => hapart k.head_mem hx) (by simp)]
          simpa [ListAt.node, Function.update_apply] using hops
        · rw [hsame'.list _ fun hx => hapart k.node_mem hx]
          exact hfields
      · exact hall k hk

theorem analyzeStringRead_eq (h : Stands m.heap L) (hdead : ∀ x ∈ b.nodes, L.live x ≠ true)
    (hnodup : b.nodes.Nodup) :
    ∃ m' L', analyzeStringRead b m = some m' ∧ Stands m'.heap L' ∧ Grows L L' b.nodes [] ∧
      SameData m m' b.nodes ∧ (∀ h ∈ (Piece.group b).heads, L'.list h.1 = some h.2) ∧
      (Piece.group b).Loaded m' := by
  obtain ⟨hhead, hlists⟩ := List.nodup_cons.1 hnodup
  obtain ⟨heap, hinit, h₁⟩ := h.mallocInit (hdead _ List.mem_cons_self) .null .null
  have hgrows : Grows L ⟨Function.update L.live (.groupHead b.addr) true,
      Function.update L.list (.groupHead b.addr) (some [])⟩ [.groupHead b.addr] [] := by
    refine ⟨fun c => ?_, fun c hc _ => ?_⟩
    · by_cases hc : c = .groupHead b.addr <;> simp [hc]
    · rw [List.mem_singleton] at hc
      exact Function.update_of_ne hc ..
  let m₁ : Memory := { m with heap, group := Function.update m.group b.addr b.index }
  have hsame : SameData m m₁ [.groupHead b.addr] := by
    refine ⟨fun k hk => Function.update_of_ne ?_ .., fun _ _ => rfl, fun _ _ => rfl⟩
    rintro rfl
    exact hk List.mem_cons_self
  obtain ⟨m', L', hrun, h', hgrows', hsame', hg, hall⟩ := readLists_eq (m := m₁) h₁
    (Function.update_self ..) (fun x hx => hgrows.dead (hdead x (List.mem_cons_of_mem _ hx))
      fun hx' => hhead (List.mem_singleton.1 hx' ▸ hx)) hlists
  refine ⟨m', L', ?_, h', hgrows.trans hgrows' (by simp), hsame.trans hsame', fun c hc => ?_, ?_,
    fun l hl => (hall l hl).2⟩
  · simp only [analyzeStringRead, alloc, hinit, Option.bind_eq_bind, Option.bind_some]
    exact hrun
  · rcases List.mem_cons.1 hc with rfl | hc
    · simpa using hg
    · obtain ⟨l, hl, rfl⟩ := List.mem_map.1 hc
      exact (hall l hl).1
  · rw [hsame'.group _ hhead]
    exact Function.update_self ..

end MyScripts.Shark.PoolMemory
