import MyScripts.Shark.LinkedPool

/-!
# The pool in memory is a pool of op lists

Each group, op list and worker that is allocated is in the queue, is what a thread has in hand, is
the group that was read, or is lost. The node that a builder holds on to is in its own group, and
nobody else changes that.
-/
namespace MyScripts.Shark.PoolMemory
open Library.CircularList Library.Run Library.ThreadSum ListHead WorkerPool

variable {m m' : Memory} {L L' : HeadLists Node} {l : ListAt} {ls : List ListAt} {b : GroupAt}
  {w : WorkerAt} {p : Piece} {heap : Heap Node} {queue : List WorkerAt} {ps rest : Multiset Piece}
  {a i : ℕ} {pos tmp : Node} {fuel : ℕ}

def WorkerAt.worker (w : WorkerAt) : Worker := ⟨w.index, w.fn⟩

def WorkerAt.Bounded (fuel : ℕ) (w : WorkerAt) : Prop := w.list.ops.length < fuel

/-- What a piece is where nothing refers to it; a worker is never lost. -/
def Piece.lost : Piece → Option Lost
  | .group b => some (.group b.index (b.lists.map fun l => ⟨b.index, l.fields.opsIndex⟩))
  | .list g l => some (.list ⟨g, l.fields.opsIndex⟩)
  | .worker _ | .queued _ => none

/-- `pos` is the first node of what is left of the group, and `tmp` the one after it. -/
inductive Walked (a : ℕ) : List ListAt → Node → Node → Prop
  | done (tmp : Node) : Walked a [] (.groupHead a) tmp
  | list (l : ListAt) (ls : List ListAt) :
      Walked a (l :: ls) l.node ((ls.map ListAt.node).headD (.groupHead a))

inductive CallerAt (fuel : ℕ) : Caller → Site → Multiset Piece → Prop
  | worker : CallerAt fuel .worker .worker 0
  | increase (w : WorkerAt) (hw : w.Bounded fuel) :
      CallerAt fuel (.increase w.addr) .increase {.worker w}

def entry (x : ListIndex × Kind) : ℕ × ListFields := (x.1.group, listFields x)

/-- What the thread of the one machine has in hand where the other one is. -/
inductive ThreadAt (fuel : ℕ) : ThreadPc → Pc → Multiset Piece → Prop
  | fetch : ThreadAt fuel .fetch .fetch 0
  | waiting : ThreadAt fuel .waiting .waiting 0
  | build {caller site hold} (h : CallerAt fuel caller site hold) :
      ThreadAt fuel (.build caller) (.build site) hold
  | adding {caller site hold a i ls pos tmp rest} (h : CallerAt fuel caller site hold)
      (hw : Walked a ls pos tmp)
      (hr : rest.map entry = ls.map fun l => (i, l.fields))
      (hb : ∀ l ∈ ls, l.ops.length < fuel) :
      ThreadAt fuel (.adding caller a pos tmp) (.adding site rest) (.group ⟨a, i, ls⟩ ::ₘ hold)
  | built {caller site hold} (h : CallerAt fuel caller site hold) (ret : ℤ) :
      ThreadAt fuel (.built caller ret) (.built site ret) hold
  | perform (w : WorkerAt) (hw : w.Bounded fuel) :
      ThreadAt fuel (.perform w.addr) (.perform w.worker) {.worker w}
  | increase (w : WorkerAt) (hw : w.Bounded fuel) :
      ThreadAt fuel (.increase w.addr) .increase {.worker w}
  | exited : ThreadAt fuel .exited .exited 0

theorem groupHead_next (h : Stands heap L) (hl : L.list (.groupHead a) = some (ls.map ListAt.node)) :
    getNext heap (.groupHead a) = some ((ls.map ListAt.node).headD (.groupHead a)) := by
  have hlist := h.lists _ _ hl
  rw [getNext_eq (hlist.live _ List.mem_cons_self), hlist.seg.next_eq]

theorem walked_next (h : Stands heap L) (hl : L.list (.groupHead a) = some (ls.map ListAt.node)) :
    ∃ after, getNext heap ((ls.map ListAt.node).headD (.groupHead a)) = some after ∧
      Walked a ls ((ls.map ListAt.node).headD (.groupHead a)) after := by
  have hlist := h.lists _ _ hl
  cases ls with
  | nil => exact ⟨_, getNext_eq (hlist.live _ List.mem_cons_self), .done _⟩
  | cons l ls =>
    have hnext : getNext heap l.node = some ((ls.map ListAt.node).headD (.groupHead a)) := by
      rw [getNext_eq (hlist.live _ (List.mem_cons_of_mem _ List.mem_cons_self)),
        hlist.seg.2.next_eq]
    exact ⟨_, hnext, .list l ls⟩

theorem firstPair_eq (h : Stands heap L) (hl : L.list (.groupHead a) = some (ls.map ListAt.node)) :
    ∃ first, firstPair (.groupHead a) heap = some first ∧ Walked a ls first.1 first.2 := by
  obtain ⟨after, hafter, hwalked⟩ := walked_next h hl
  refine ⟨(_, after), ?_, hwalked⟩
  rw [firstPair, groupHead_next h hl, Option.bind_eq_bind, Option.bind_some, hafter]
  rfl

theorem Holds.groupHead (h : Holds m L queue (.group ⟨a, i, ls⟩ ::ₘ rest)) :
    L.list (.groupHead a) = some (ls.map ListAt.node) :=
  h.head (Multiset.mem_cons_self _ _) List.mem_cons_self

theorem Holds.listEmpty (h : Holds m L queue ps) :
    listEmpty .workerList m.heap = some queue.isEmpty := by
  rw [listEmpty_eq (h.stands.lists _ _ h.linked), List.isEmpty_map]

theorem Holds.takeWorker (h : Holds m L (w :: queue) rest) :
    ∃ heap L', takeWorker m.heap = some (w.addr, heap) ∧
      Holds { m with heap } L' queue (.worker w ::ₘ rest) := by
  have hlist := h.stands.lists _ _ h.linked
  have hnext : getNext m.heap .workerList = some (.list w.addr) := by
    rw [getNext_eq (hlist.live _ List.mem_cons_self), hlist.seg.next_eq]
    rfl
  obtain ⟨heap, L', hdel, h'⟩ := h.dequeue
  refine ⟨heap, L', ?_, h'⟩
  simp only [WorkerAt.node] at hdel
  simp only [PoolMemory.takeWorker, hnext, hdel, Option.bind_eq_bind, Option.bind_some,
    Option.map_some]

theorem readOps {ops : List ℕ} (hlive : ∀ f ∈ ops, heap.live (.oplist f) = true) :
    (ops.map Node.oplist).mapM (readOp heap) = some ops := by
  induction ops with
  | nil => rfl
  | cons f ops ih =>
    have hrest := ih fun f hf => hlive f (List.mem_cons_of_mem _ hf)
    rw [List.map_cons, List.mapM_cons, readOp, if_pos (hlive f List.mem_cons_self), hrest]
    rfl

theorem Holds.performWorker (h : Holds m L queue (.worker w ::ₘ rest)) (hw : w.Bounded fuel) :
    performWorker fuel w.addr m = some w.index := by
  have hmem : Piece.worker w ∈ Piece.worker w ::ₘ rest := Multiset.mem_cons_self ..
  have hfields : m.worker w.addr = w.fields := h.loadedAt
  have hlive : ∀ c ∈ (Piece.worker w).heads, m.heap.live c.1 = true := fun c hc =>
    (h.stands.lists _ _ (h.head hmem hc)).live _ List.mem_cons_self
  simp only [Piece.heads, List.forall_mem_cons] at hlive
  obtain ⟨hnode, hpath, hlist, -⟩ := hlive
  have hops := h.stands.lists _ _ (h.head (c := w.list.opHead) hmem (by simp [Piece.heads]))
  have hwalk : listForEach fuel (.opListHead w.list.addr) m.heap =
      some (w.list.ops.map .oplist) := by
    refine listForEach_eq hops ?_
    simpa [ListAt.opHead, WorkerAt.Bounded] using hw
  have hread : (w.list.ops.map Node.oplist).mapM (readOp m.heap) = some w.list.ops :=
    readOps fun f hf => hops.live _ (List.mem_cons_of_mem _ (List.mem_map_of_mem hf))
  have hargs : (m.worker w.addr).args = w.list.addr := by rw [hfields]; rfl
  have habs : (m.worker w.addr).absPath = w.path := by rw [hfields]; rfl
  have hindex : (m.worker w.addr).index = w.index := by rw [hfields]; rfl
  simp only [WorkerAt.node, ListAt.node] at hnode hlist
  rw [PoolMemory.performWorker, hargs, habs, if_pos ⟨hnode, hpath, hlist⟩]
  simp only [hwalk, hread, hindex, Option.bind_eq_bind, Option.bind_some]

variable {n k : ℕ} {cf : Config} {j : Journal} {c c' : Pointers n} {s : Ledger n}
  {current : Option GroupAt} {hold : Fin n → Multiset Piece} {lost : List Piece} {t : Fin n}
  {v : Multiset Piece} {pc : ThreadPc} {pc' : Pc} {poison : Node × Node}

def left (current : Option GroupAt) (lost : List Piece) : List Piece :=
  lost ++ (current.map Piece.group).toList

/-- `k` events are still to come, and each puts at most one worker into the queue. -/
structure Refines (fuel k : ℕ) (j : Journal) (c : Pointers n) (s : Ledger n) (L : HeadLists Node)
    (queue : List WorkerAt) (current : Option GroupAt) (hold : Fin n → Multiset Piece)
    (lost : List Piece) : Prop where
  fault : c.fault = false
  running : s.pool.joined = false
  outside : c.outside = .of s.pool
  holds : Holds c.memory L queue (∑ i, hold i + left current lost)
  room : queue.length + k < fuel
  bounded : ∀ w ∈ queue, w.Bounded fuel
  group : c.group = current.map (·.addr)
  groupRead : s.pool.group = current.map (·.index)
  reads : ∀ b, current = some b → b.Reads j b.index ∧ ∀ l ∈ b.lists, l.ops.length < fuel
  unread : s.pool.groupRead = true → current = none
  queued : s.pool.queue = queue.map WorkerAt.worker
  threads : ∀ i, ThreadAt fuel (c.thread i) (s.pool.thread i) (hold i)
  dropped : s.dropped.map some = lost.map Piece.lost

def Stores (fuel k : ℕ) (j : Journal) (c : Pointers n) (s : Ledger n) : Prop :=
  ∃ L queue current hold lost, Refines fuel k j c s L queue current hold lost

theorem Refines.later (h : Refines fuel (k + 1) j c s L queue current hold lost) :
    Refines fuel k j c s L queue current hold lost :=
  { h with room := Nat.lt_of_succ_lt h.room }

theorem threadAt_update {thread : Fin n → ThreadPc} {thread' : Fin n → Pc}
    (h : ∀ i, ThreadAt fuel (thread i) (thread' i) (hold i)) (t : Fin n)
    (hpc : ThreadAt fuel pc pc' v) (i) :
    ThreadAt fuel (Function.update thread t pc i) (Function.update thread' t pc' i)
      (Function.update hold t v i) := by
  by_cases hi : i = t
  · subst hi
    simpa using hpc
  · simpa only [Function.update_of_ne hi] using h i

theorem threadAt_stay {thread : Fin n → ThreadPc} {thread' : Fin n → Pc}
    (h : ∀ i, ThreadAt fuel (thread i) (thread' i) (hold i)) (hpc : ThreadAt fuel pc pc' (hold t))
    (i) : ThreadAt fuel (Function.update thread t pc i) (Function.update thread' t pc' i)
      (hold i) := by
  have hupdate := threadAt_update h t hpc i
  rwa [Function.update_eq_self] at hupdate

theorem Refines.goto (h : Refines fuel k j c s L queue current hold lost)
    (hpc : ThreadAt fuel pc pc' (hold t)) :
    Refines fuel k j (c.goto t pc) { s with pool := s.pool.goto t pc' } L queue current hold lost :=
  { h with threads := threadAt_stay h.threads hpc }

theorem Refines.split (h : Refines fuel k j c s L queue current hold lost) (t : Fin n) :
    ∃ r, Holds c.memory L queue (hold t + (r + left current lost)) ∧
      ∀ v, ∑ i, Function.update hold t v i = v + r := by
  obtain ⟨r, hr, hupdate⟩ := exists_sum_update hold t
  refine ⟨r, ?_, hupdate⟩
  rw [← add_assoc, ← hr]
  exact h.holds

theorem holds_update {r : Multiset Piece}
    (hupdate : ∀ v, ∑ i, Function.update hold t v i = v + r)
    (h : Holds m L queue (v + (r + left current lost))) :
    Holds m L queue (∑ i, Function.update hold t v i + left current lost) := by
  rw [hupdate, add_assoc]
  exact h

theorem left_some (b : GroupAt) (lost : List Piece) :
    ((left (some b) lost : List Piece) : Multiset Piece) =
      .group b ::ₘ (left none lost : List Piece) := by
  rw [left, left, Multiset.cons_coe, Multiset.coe_eq_coe]
  simp

theorem left_lost (current : Option GroupAt) (lost : List Piece) (p : Piece) :
    ((left current (lost ++ [p]) : List Piece) : Multiset Piece) =
      p ::ₘ (left current lost : List Piece) := by
  rw [left, left, Multiset.cons_coe, Multiset.coe_eq_coe, List.append_assoc,
    List.singleton_append]
  exact List.perm_middle

theorem lost_add (v ps : Multiset Piece) (current : Option GroupAt) (lost : List Piece)
    (p : Piece) : v + (ps + left current (lost ++ [p])) = p ::ₘ (v + (ps + left current lost)) := by
  rw [left_lost, Multiset.add_cons, Multiset.add_cons]

theorem Fresh.dead {nodes : List Node} (h : Fresh nodes heap) (hs : Stands heap L) :
    ∀ x ∈ nodes, L.live x ≠ true := by
  intro x hx
  rw [← hs.live, h.2 x hx]
  exact Bool.false_ne_true

theorem Refines.poolOperWorker (h : Refines fuel k j c s L queue current hold lost)
    (hhold : hold t = 0) :
    Stores fuel k j (c.poolOperWorker t) { s with pool := WorkerPool.poolOperWorker s.pool t } := by
  have hdestroy : c.outside.destroy = s.pool.destroy := by rw [h.outside, Outside.of]
  cases queue with
  | nil =>
    have hqueue : s.pool.queue = [] := h.queued
    rw [Pointers.poolOperWorker, h.holds.listEmpty, Pointers.access_some, List.isEmpty_nil,
      if_pos rfl, WorkerPool.poolOperWorker, hqueue, hdestroy]
    refine ⟨L, [], current, hold, lost, h.goto ?_⟩
    rw [hhold]
    split_ifs
    · exact .exited
    · exact .build .worker
  | cons w queue =>
    have hqueue : s.pool.queue = w.worker :: queue.map WorkerAt.worker := h.queued
    obtain ⟨r, hsplit, hupdate⟩ := h.split t
    obtain ⟨heap, L', htake, h'⟩ := hsplit.takeWorker
    rw [hhold, zero_add, ← Multiset.singleton_add] at h'
    rw [Pointers.poolOperWorker, h.holds.listEmpty, Pointers.access_some, List.isEmpty_cons,
      if_neg Bool.false_ne_true, htake, Pointers.access_some, WorkerPool.poolOperWorker, hqueue]
    have hw : w.Bounded fuel := h.bounded w List.mem_cons_self
    refine ⟨L', queue, current, Function.update hold t (.worker w ::ₘ 0), lost, { h with
      outside := ?_
      holds := holds_update hupdate h'
      room := ?_
      bounded := fun v hv => h.bounded v (List.mem_cons_of_mem w hv)
      queued := rfl
      threads := threadAt_update h.threads t (.perform w hw) }⟩
    · simp only [Pointers.goto, Pointers.setHeap, h.outside, Outside.of, State.goto]
    · have hroom := h.room
      rw [List.length_cons] at hroom
      omega

theorem Refines.atEnd (h : Refines fuel k j c s L queue current hold lost) :
    c.atEnd cf ↔ WorkerPool.atEnd cf s.pool := by
  rw [Pointers.atEnd, h.outside]
  rfl

theorem entry_opLists (hb : b.Reads j b.index) :
    (opLists b.index (j.getD b.index [])).map entry = b.lists.map fun l => (b.index, l.fields) := by
  have hfields : b.lists.map (fun l => (b.index, l.fields)) =
      (b.lists.map ListAt.fields).map fun fields => (b.index, fields) := by
    rw [List.map_map]
    rfl
  rw [hfields, hb.2, List.map_map]
  refine List.map_congr_left fun x hx => ?_
  obtain ⟨y, -, rfl⟩ := List.mem_map.1 hx
  rfl

theorem Refines.startGroup {caller : Caller} {site : Site}
    (h : Refines fuel k j c s L queue (some b) hold lost)
    (hcaller : CallerAt fuel caller site (hold t)) :
    Stores fuel k j
      (c.access (firstPair (.groupHead b.addr) c.memory.heap) fun first =>
        { c with
          group := none
          outside := { c.outside with groupRead := true, building := true } }.goto t
          (.adding caller b.addr first.1 first.2))
      { s with
        pool := { s.pool with group := none, groupRead := true, building := true }.goto t
          (.adding site (opLists b.index (j.getD b.index []))) } := by
  obtain ⟨hreads, hb⟩ := h.reads b rfl
  obtain ⟨r, hsplit, hupdate⟩ := h.split t
  rw [left_some, Multiset.add_cons, Multiset.add_cons] at hsplit
  obtain ⟨first, hfirst, hwalked⟩ := firstPair_eq hsplit.stands hsplit.groupHead
  rw [← Multiset.cons_add] at hsplit
  rw [hfirst, Pointers.access_some]
  refine ⟨L, queue, none, Function.update hold t (.group b ::ₘ hold t), lost, { h with
    outside := ?_
    holds := holds_update hupdate hsplit
    group := rfl
    groupRead := rfl
    reads := fun d hd => by cases hd
    unread := fun _ => rfl
    threads := threadAt_update h.threads t (.adding hcaller hwalked (entry_opLists hreads) hb) }⟩
  simp only [Pointers.goto, h.outside, Outside.of, State.goto]

theorem Refines.buildWorkerQueue {caller : Caller} {site : Site}
    (h : Refines fuel k j c s L queue current hold lost)
    (hcaller : CallerAt fuel caller site (hold t))
    (hb : ∀ l ∈ b.lists, l.ops.length < fuel)
    (hstep : c.buildWorkerQueue cf j b t caller = some c') :
    Stores fuel k j c' { s with pool := WorkerPool.buildWorkerQueue cf j s.pool t site } := by
  have hend : (if c.atEnd cf then (1 : ℤ) else 0) = if WorkerPool.atEnd cf s.pool then 1 else 0 :=
    if_congr h.atEnd rfl rfl
  have houtside := h.outside
  have hkeep : ∀ ret, ThreadAt fuel (.built caller ret) (.built site ret) (hold t) := .built hcaller
  rw [Outside.of] at houtside
  simp only [Pointers.buildWorkerQueue, hend, houtside] at hstep
  unfold WorkerPool.buildWorkerQueue
  cases hr : s.pool.groupRead with
  | true =>
    obtain rfl := h.unread hr
    simp only [hr, if_true] at hstep ⊢
    by_cases hw : s.pool.readPos < s.pool.written
    · simp only [hw, if_true] at hstep ⊢
      obtain ⟨⟨hreads, hfresh⟩, hstep⟩ := Option.ite_none_right_eq_some.1 hstep
      obtain ⟨m', L', hrun, h'⟩ :=
        h.holds.analyzeStringRead (hfresh.dead h.holds.stands) hfresh.1
      rw [hrun, Pointers.access_some, Option.some.injEq] at hstep
      subst hstep
      rw [← Multiset.add_cons, ← left_some] at h'
      refine ⟨L', queue, some b, hold, lost, { h with
        outside := rfl
        holds := h'
        group := rfl
        groupRead := ?_
        reads := ?_
        unread := fun hfalse => Bool.noConfusion hfalse
        threads := threadAt_stay h.threads (hkeep 0) }⟩
      · rw [Option.map_some, hreads.1]
        rfl
      · intro d hd
        cases hd
        exact ⟨hreads.1.symm ▸ hreads, hb⟩
    · simp only [hw, if_false, Option.some.injEq] at hstep ⊢
      subst hstep
      exact ⟨L, queue, none, hold, lost, { h with
        outside := by simp only [Pointers.goto, State.goto, Outside.of]
        group := rfl
        groupRead := rfl
        unread := fun _ => rfl
        threads := threadAt_stay h.threads (hkeep _) }⟩
  | false =>
    simp only [hr, Bool.false_eq_true, if_false] at hstep ⊢
    cases current with
    | none =>
      have hgroup : c.group = none := h.group
      have hgroup' : s.pool.group = none := h.groupRead
      simp only [hgroup, hgroup', Option.some.injEq] at hstep ⊢
      subst hstep
      exact ⟨L, queue, none, hold, lost, h.goto (hkeep _)⟩
    | some d =>
      have hgroup : c.group = some d.addr := h.group
      have hgroup' : s.pool.group = some d.index := h.groupRead
      simp only [hgroup, hgroup'] at hstep ⊢
      cases hbuilding : s.pool.building with
      | true =>
        simp only [hbuilding, if_true, Option.some.injEq] at hstep ⊢
        subst hstep
        exact ⟨L, queue, some d, hold, lost, h.goto (hkeep 0)⟩
      | false =>
        simp only [hbuilding, Bool.false_eq_true, if_false, Option.some.injEq] at hstep ⊢
        subst hstep
        have hstart := h.startGroup hcaller
        simp only [houtside] at hstart
        exact hstart

theorem nextList_eq (c : Pointers n) (t : Fin n) (caller : Caller)
    (h : Holds c.memory L queue (.group ⟨a, i, ls⟩ ::ₘ rest)) :
    ∃ after, c.nextList t caller a ((ls.map ListAt.node).headD (.groupHead a)) =
        c.goto t (.adding caller a ((ls.map ListAt.node).headD (.groupHead a)) after) ∧
      Walked a ls ((ls.map ListAt.node).headD (.groupHead a)) after := by
  obtain ⟨after, hafter, hwalked⟩ := walked_next h.stands h.groupHead
  refine ⟨after, ?_, hwalked⟩
  rw [Pointers.nextList, hafter, Pointers.access_some]

theorem entry_eq {x : ListIndex × Kind} (h : entry x = (i, l.fields)) :
    x.1 = ⟨i, l.fields.opsIndex⟩ ∧
      process l.fields.fileType l.fields.isNew l.fields.isNeedOpen = x.2.process := by
  obtain ⟨hgroup, hfields⟩ := Prod.mk.inj h
  rw [← hfields]
  exact ⟨ListIndex.ext hgroup rfl, rfl⟩

variable {caller : Caller} {site : Site} {xs : List (ListIndex × Kind)} {stop : Bool}

theorem Refines.finish (h : Refines fuel k j c s L queue current hold lost)
    (hpc : s.pool.thread t = .adding site []) (hhold : hold t = .group ⟨a, i, []⟩ ::ₘ v)
    (hcaller : CallerAt fuel caller site v) (noMemory : Bool) :
    ∃ s', s.operThread cf j t noMemory stop = some s' ∧ Stores fuel k j
      (c.access (freeJournalGroupMem a c.memory.heap) fun heap =>
        { c.setHeap heap with outside := { c.outside with building := false } }.goto t
          (.built caller 0)) s' := by
  obtain ⟨r, hsplit, hupdate⟩ := h.split t
  rw [hhold, Multiset.cons_add] at hsplit
  obtain ⟨heap, L', hfree, h'⟩ := hsplit.freeGroup
  rw [hfree, Pointers.access_some]
  have hstep : s.operThread cf j t noMemory stop = some { s with
      pool := { s.pool with building := false }.goto t (.built site 0) } := by
    simp only [Ledger.operThread, hpc, WorkerPool.operThread, WorkerPool.addWorker, Option.map_some]
  refine ⟨_, hstep, L', queue, current, Function.update hold t v, lost, { h with
    outside := ?_
    holds := holds_update hupdate h'
    threads := threadAt_update h.threads t (.built hcaller 0) }⟩
  simp only [Pointers.goto, Pointers.setHeap, h.outside, Outside.of, State.goto]

theorem Refines.skip {x : ListIndex × Kind} (h : Refines fuel k j c s L queue current hold lost)
    (hupdate : ∀ v, ∑ i, Function.update hold t v i = v + ps)
    (hunlink : Holds { c.memory with heap } L' queue
      (.list i l ::ₘ .group ⟨a, i, ls⟩ ::ₘ (v + (ps + left current lost))))
    (hpc : s.pool.thread t = .adding site (x :: xs)) (hcaller : CallerAt fuel caller site v)
    (hx : x.1 = ⟨i, l.fields.opsIndex⟩) (hr : xs.map entry = ls.map fun l => (i, l.fields))
    (hb : ∀ l ∈ ls, l.ops.length < fuel) :
    ∃ s', s.operThread cf j t true stop = some s' ∧ Stores fuel k j
      ((c.setHeap heap).nextList t caller a ((ls.map ListAt.node).headD (.groupHead a))) s' := by
  have hgroup := hunlink
  rw [Multiset.cons_swap] at hgroup
  obtain ⟨after, hnext, hwalked⟩ := nextList_eq (c.setHeap heap) t caller hgroup
  rw [← Multiset.cons_add, ← lost_add] at hunlink
  rw [hnext]
  have hstep : s.operThread cf j t true stop = some { s with
      pool := s.pool.goto t (.adding site xs)
      dropped := s.dropped ++ [.list x.1] } := by
    simp only [Ledger.operThread, hpc, if_true]
  have hholds := holds_update hupdate hunlink
  refine ⟨_, hstep, L', queue, current, _, _, { h with
    holds := hholds
    threads := threadAt_update h.threads t (.adding hcaller hwalked hr hb)
    dropped := ?_ }⟩
  simp only [h.dropped, hx, List.map_append, List.map_cons, List.map_nil, Piece.lost]

theorem entries_fst (h : xs.map entry = ls.map fun l => (i, l.fields)) :
    xs.map Prod.fst = ls.map fun l => ⟨i, l.fields.opsIndex⟩ := by
  have hmap := congrArg (List.map fun e : ℕ × ListFields => ListIndex.mk e.1 e.2.opsIndex) h
  rw [List.map_map, List.map_map] at hmap
  exact hmap

theorem Refines.addWorker {x : ListIndex × Kind}
    (h : Refines fuel (k + 1) j c s L queue current hold lost)
    (hupdate : ∀ v, ∑ i, Function.update hold t v i = v + ps)
    (hmade : Holds m L' queue (.worker w ::ₘ .group ⟨a, w.group, ls⟩ ::ₘ
      (v + (ps + left current lost))))
    (hw : w.Bounded fuel) (hpc : s.pool.thread t = .adding site (x :: xs))
    (hcaller : CallerAt fuel caller site v) (hx : x.1 = w.index) (hfn : x.2.process = some w.fn)
    (hr : xs.map entry = ls.map fun l => (w.group, l.fields))
    (hb : ∀ l ∈ ls, l.ops.length < fuel) :
    ∃ s', s.operThread cf j t false stop = some s' ∧ Stores fuel k j
      ({ c with memory := m }.addWorker poison fuel t caller a w.addr
        ((ls.map ListAt.node).headD (.groupHead a))) s' := by
  have hdestroy : c.outside.destroy = s.pool.destroy := by rw [h.outside, Outside.of]
  rw [Pointers.addWorker, hdestroy]
  cases hd : s.pool.destroy with
  | true =>
    obtain ⟨heap, L'', hfree, h'⟩ := hmade.freeOperWorker poison hw
    rw [← lost_add] at h'
    rw [if_pos rfl, hfree, Pointers.access_some]
    have hstep : s.operThread cf j t false stop = some {
        pool := s.pool.goto t (.built site 0)
        dropped := s.dropped ++ [.group x.1.group (xs.map Prod.fst)]
        discarded := s.discarded ++ [x.1] } := by
      simp only [Ledger.operThread, hpc, hd, Bool.false_eq_true, if_false, if_true]
    have hholds := holds_update hupdate h'
    refine ⟨_, hstep, L'', queue, current, _, _, { h.later with
      holds := hholds
      threads := threadAt_update h.threads t (.built hcaller 0)
      dropped := ?_ }⟩
    simp only [h.dropped, hx, WorkerAt.index, entries_fst hr, List.map_append, List.map_cons,
      List.map_nil, Piece.lost]
  | false =>
    obtain ⟨heap, L'', hadd, h'⟩ := hmade.enqueue
    obtain ⟨after, hnext, hwalked⟩ := nextList_eq { { c with memory := m }.setHeap heap with
      outside := { c.outside with workerSize := c.outside.workerSize + 1 } } t caller h'
    rw [← Multiset.cons_add] at h'
    simp only [WorkerAt.node] at hadd
    rw [if_neg Bool.false_ne_true, hadd, Pointers.access_some, hnext]
    have hstep : s.operThread cf j t false stop = some { s with
        pool := { s.pool with
          queue := s.pool.queue ++ [Worker.mk x.1 w.fn]
          workerSize := s.pool.workerSize + 1 }.goto t (.adding site xs) } := by
      simp only [Ledger.operThread, hpc, hd, WorkerPool.addWorker, hfn, Bool.false_eq_true, if_false]
    have hroom := h.room
    have hholds := holds_update hupdate h'
    refine ⟨_, hstep, L'', queue ++ [w], current, _, lost, { h.later with
      outside := ?_
      holds := hholds
      room := ?_
      bounded := ?_
      queued := ?_
      threads := threadAt_update h.threads t (.adding hcaller hwalked hr hb) }⟩
    · simp only [Pointers.goto, Pointers.setHeap, h.outside, Outside.of, State.goto]
    · rw [List.length_append, List.length_singleton]
      omega
    · intro u hu
      rcases List.mem_append.1 hu with hu | hu
      · exact h.bounded u hu
      · exact List.mem_singleton.1 hu ▸ hw
    · rw [List.map_append, ← h.queued, hx]
      rfl

theorem Holds.readIndex (h : Holds m L queue (.group ⟨a, i, ls⟩ ::ₘ rest)) :
    readIndex a m = some i := by
  have hlive := (h.stands.lists _ _ h.groupHead).live _ List.mem_cons_self
  have hindex : m.group a = i := h.loadedAt.1
  rw [PoolMemory.readIndex, if_pos hlive, hindex]

theorem Refines.makeWorker {worker : Option (ℕ × ℕ)} {x : ListIndex × Kind} {fn : Process}
    (h : Refines fuel (k + 1) j c s L queue current hold lost)
    (hupdate : ∀ v, ∑ i, Function.update hold t v i = v + ps)
    (hunlink : Holds { c.memory with heap } L' queue
      (.list i l ::ₘ .group ⟨a, i, ls⟩ ::ₘ (v + (ps + left current lost))))
    (hl : l.ops.length < fuel) (hpc : s.pool.thread t = .adding site (x :: xs))
    (hcaller : CallerAt fuel caller site v) (hx : x.1 = ⟨i, l.fields.opsIndex⟩)
    (hfn : x.2.process = some fn) (hr : xs.map entry = ls.map fun l => (i, l.fields))
    (hb : ∀ l ∈ ls, l.ops.length < fuel)
    (hstep : (c.setHeap heap).makeWorker poison fuel worker t caller a l.addr fn
      ((ls.map ListAt.node).headD (.groupHead a)) = some c') :
    ∃ s', s.operThread cf j t worker.isNone stop = some s' ∧ Stores fuel k j c' s' := by
  have hgroup := hunlink
  rw [Multiset.cons_swap] at hgroup
  have hread : PoolMemory.readIndex a (c.setHeap heap).memory = some i := hgroup.readIndex
  unfold Pointers.makeWorker at hstep
  simp only [hread] at hstep
  cases worker with
  | none =>
    cases hstep
    exact h.later.skip hupdate hunlink hpc hcaller hx hr hb
  | some at' =>
    obtain ⟨addr, path⟩ := at'
    obtain ⟨hfresh, hstep⟩ := Option.ite_none_right_eq_some.1 hstep
    have hdead := hfresh.dead hunlink.stands
    obtain ⟨m', L'', hmalloc, hmade⟩ := Holds.operMalloc (w := ⟨addr, path, fn, i, l⟩) hunlink
      (hdead _ List.mem_cons_self) (hdead _ (List.mem_cons_of_mem _ List.mem_cons_self))
    have hmalloc' : PoolMemory.operMalloc fn l.addr i addr path (c.setHeap heap).memory = some m' :=
      hmalloc
    rw [hmalloc', Pointers.access_some, Option.some.injEq] at hstep
    subst hstep
    exact h.addWorker hupdate hmade hl hpc hcaller hx hfn hr hb

theorem Refines.buildWorker {worker : Option (ℕ × ℕ)}
    (h : Refines fuel (k + 1) j c s L queue current hold lost)
    (hpc : s.pool.thread t = .adding site xs) (hhold : hold t = .group ⟨a, i, ls⟩ ::ₘ v)
    (hcaller : CallerAt fuel caller site v) (hw : Walked a ls pos tmp)
    (hr : xs.map entry = ls.map fun l => (i, l.fields)) (hb : ∀ l ∈ ls, l.ops.length < fuel)
    (hstep : c.buildWorker poison fuel worker t caller a pos tmp = some c') :
    ∃ s', s.operThread cf j t worker.isNone stop = some s' ∧ Stores fuel k j c' s' := by
  unfold Pointers.buildWorker at hstep
  cases hw with
  | done =>
    obtain rfl : xs = [] := List.map_eq_nil_iff.1 hr
    rw [if_pos rfl, Option.some.injEq] at hstep
    subst hstep
    exact h.later.finish hpc hhold hcaller _
  | list l ls =>
    obtain ⟨x, xs, rfl, hx, hr⟩ := List.map_eq_cons_iff.1 hr
    obtain ⟨hindex, hprocess⟩ := entry_eq hx
    have hb' : ∀ l ∈ ls, l.ops.length < fuel := fun k hk => hb k (List.mem_cons_of_mem l hk)
    obtain ⟨r, hsplit, hupdate⟩ := h.split t
    rw [hhold, Multiset.cons_add] at hsplit
    obtain ⟨heap, L', hdel, hunlink⟩ := hsplit.unlink
    have hfields : c.memory.list l.addr = l.fields := hunlink.loadedAt
    have hne : l.node ≠ .groupHead a := by simp [ListAt.node]
    rw [if_neg hne] at hstep
    simp only [ListAt.node] at hdel hstep
    simp only [hdel, Pointers.setHeap, hfields, hprocess] at hstep
    cases hfn : x.2.process with
    | none => exact absurd hfn x.2.process_ne_none
    | some fn =>
      simp only [hfn] at hstep
      exact h.makeWorker hupdate hunlink (hb l List.mem_cons_self) hpc hcaller hindex hfn hr hb' hstep

theorem Refines.mask (h : Refines fuel k j c s L queue current hold lost) :
    Refines fuel k j { c with outside := { c.outside with mask := true } }
      { s with pool := { s.pool with mask := true } } L queue current hold lost :=
  { h with outside := by simp only [h.outside, Outside.of] }

theorem Refines.freeWorkerOf (poison : Node × Node)
    (h : Refines fuel k j c s L queue current hold lost) (hhold : hold t = {.worker w}) (hw : w.Bounded fuel)
    (f : Pointers n → Pointers n) :
    ∃ heap L', c.freeWorkerOf poison fuel w.addr f = f (c.setHeap heap) ∧
      ∀ pc pc', ThreadAt fuel pc pc' 0 →
        Refines fuel k j ((c.setHeap heap).goto t pc) { s with pool := s.pool.goto t pc' } L' queue
          current (Function.update hold t 0) lost := by
  obtain ⟨r, hsplit, hupdate⟩ := h.split t
  rw [hhold, Multiset.singleton_add] at hsplit
  obtain ⟨heap, L', hfree, h'⟩ := hsplit.freeOperWorker poison hw
  rw [← zero_add (r + _)] at h'
  refine ⟨heap, L', by rw [Pointers.freeWorkerOf, hfree, Pointers.access_some], fun pc pc' hpc => ?_⟩
  exact { h with
    holds := holds_update hupdate h'
    threads := threadAt_update h.threads t hpc }

theorem Refines.performWorker (h : Refines fuel k j c s L queue current hold lost)
    (hhold : hold t = {.worker w}) (hw : w.Bounded fuel) :
    PoolMemory.performWorker fuel w.addr c.memory = some w.index := by
  obtain ⟨r, hsplit, -⟩ := h.split t
  rw [hhold, Multiset.singleton_add] at hsplit
  exact hsplit.performWorker hw

theorem Refines.built {ret : ℤ} (h : Refines fuel k j c s L queue current hold lost)
    (hpc : s.pool.thread t = .built site ret) (hc : c.thread t = .built caller ret)
    (hcaller : CallerAt fuel caller site (hold t)) (ans : Answers) (noMemory : Bool)
    (hstep : c.operThread poison fuel cf j t ans = some c') :
    ∃ s', s.operThread cf j t noMemory stop = some s' ∧ Stores fuel k j c' s' := by
  generalize hv : hold t = v at hcaller
  cases hcaller with
  | worker =>
    simp only [Pointers.operThread, hc, Option.some.injEq] at hstep
    subst hstep
    refine ⟨{ s with pool := if ret = 1 then { s.pool with mask := true }.goto t .exited
        else s.pool.goto t .waiting }, ?_, L, queue, current, hold, lost, ?_⟩
    · simp only [Ledger.operThread, hpc, WorkerPool.operThread, Option.map_some]
    · split_ifs
      · exact h.mask.goto (hv ▸ .exited)
      · exact h.goto (hv ▸ .waiting)
  | increase w hw =>
    simp only [Pointers.operThread, hc, Option.some.injEq] at hstep
    subst hstep
    obtain ⟨heap, L', hfree, h'⟩ := h.freeWorkerOf poison hv hw _
    rw [hfree]
    refine ⟨{ s with pool := if ret = 1 then { s.pool with mask := true }.goto t .fetch
        else s.pool.goto t .fetch }, ?_, L', queue, current, Function.update hold t 0, lost, ?_⟩
    · simp only [Ledger.operThread, hpc, WorkerPool.operThread, Option.map_some]
    · split_ifs
      · exact (h' .fetch .fetch .fetch).mask
      · exact h' .fetch .fetch .fetch

theorem Refines.increase (h : Refines fuel k j c s L queue current hold lost)
    (hpc : s.pool.thread t = .increase) (hc : c.thread t = .increase w.addr)
    (hhold : hold t = {.worker w}) (hw : w.Bounded fuel) (ans : Answers) (noMemory : Bool)
    (hstep : c.operThread poison fuel cf j t ans = some c') :
    ∃ s', s.operThread cf j t noMemory (ans.tolerate = -1) = some s' ∧ Stores fuel k j c' s' := by
  have hsize : c.outside.workerSize = s.pool.workerSize := by rw [h.outside, Outside.of]
  simp only [Pointers.operThread, hc, Option.some.injEq] at hstep
  subst hstep
  by_cases hstop : ans.tolerate = -1
  · obtain ⟨heap, L', hfree, h'⟩ := h.freeWorkerOf poison hhold hw _
    rw [if_pos hstop, hfree]
    refine ⟨{ s with pool := s.pool.goto t .exited }, ?_, L', queue, current, _, lost,
      h' _ _ .exited⟩
    simp only [Ledger.operThread, hpc, hstop, decide_true, if_true]
  · rw [if_neg hstop, hsize]
    refine ⟨{ s with
      pool := s.pool.goto t
        (if s.pool.workerSize < cf.minWorkerQueue then .build .increase else .fetch) }, ?_, ?_⟩
    · simp only [Ledger.operThread, hpc, hstop, decide_false, Bool.false_eq_true, if_false,
        WorkerPool.operThread, Option.map_some]
    · split_ifs
      · exact ⟨L, queue, current, hold, lost, h.goto (hhold ▸ .build (.increase w hw))⟩
      · obtain ⟨heap, L', hfree, h'⟩ := h.freeWorkerOf poison hhold hw _
        rw [hfree]
        exact ⟨L', queue, current, _, lost, h' _ _ .fetch⟩

theorem Refines.operThread (h : Refines fuel (k + 1) j c s L queue current hold lost)
    (ans : Answers) (hops : ∀ l ∈ ans.group.lists, l.ops.length < fuel)
    (hstep : c.operThread poison fuel cf j t ans = some c') :
    ∃ s', s.operThread cf j t ans.worker.isNone (ans.tolerate = -1) = some s' ∧
      Stores fuel k j c' s' := by
  have hat := h.threads t
  generalize hc : c.thread t = pc at hat
  generalize hs : s.pool.thread t = pc' at hat
  generalize hv : hold t = v at hat
  have hdestroy : c.outside.destroy = s.pool.destroy := by rw [h.outside, Outside.of]
  cases hat with
  | fetch =>
    simp only [Pointers.operThread, hc, hdestroy, Option.some.injEq] at hstep
    subst hstep
    refine ⟨{ s with pool := if s.pool.destroy then s.pool.goto t .exited
      else WorkerPool.poolOperWorker s.pool t }, ?_, ?_⟩
    · simp only [Ledger.operThread, hs, WorkerPool.operThread, Option.map_some]
    · split_ifs
      · exact ⟨L, queue, current, hold, lost, h.later.goto (hv ▸ .exited)⟩
      · exact h.later.poolOperWorker hv
  | waiting =>
    simp only [Pointers.operThread, hc, Option.some.injEq] at hstep
    subst hstep
    refine ⟨_, ?_, h.later.poolOperWorker hv⟩
    simp only [Ledger.operThread, hs, WorkerPool.operThread, Option.map_some]
  | build hcaller =>
    simp only [Pointers.operThread, hc] at hstep
    refine ⟨_, ?_, h.later.buildWorkerQueue (hv ▸ hcaller) hops hstep⟩
    simp only [Ledger.operThread, hs, WorkerPool.operThread, Option.map_some]
  | adding hcaller hw hr hb =>
    simp only [Pointers.operThread, hc] at hstep
    exact h.buildWorker hs hv hcaller hw hr hb hstep
  | built hcaller ret => exact h.later.built hs hc (hv ▸ hcaller) ans _ hstep
  | perform w hw =>
    simp only [Pointers.operThread, hc, h.performWorker hv hw, Pointers.access_some,
      Option.some.injEq] at hstep
    subst hstep
    have hperform : s.operThread cf j t ans.worker.isNone (ans.tolerate = -1) = some { s with
        pool := { s.pool with executed := s.pool.executed ++ [w.index] }.goto t .increase } := by
      simp only [Ledger.operThread, hs, WorkerPool.operThread, Option.map_some, WorkerAt.worker]
    have hincrease : ThreadAt fuel (.increase w.addr) .increase (hold t) := hv ▸ .increase w hw
    refine ⟨_, hperform, L, queue, current, hold, lost, { h.later with
      outside := ?_
      threads := threadAt_stay h.threads hincrease }⟩
    simp only [Pointers.goto, h.outside, Outside.of, State.goto]
  | increase w hw => exact h.later.increase hs hc hv hw ans _ hstep
  | exited =>
    simp only [Pointers.operThread, hc] at hstep
    cases hstep

structure Joined (c : Pointers n) (s : Ledger n) (lost : List Piece) : Prop where
  fault : c.fault = false
  joined : s.pool.joined = true
  outside : c.outside = .of s.pool
  nodup : (lost.flatMap Piece.nodes).Nodup
  live : ∀ x, c.memory.heap.live x = true ↔ ∃ p ∈ lost, x ∈ p.nodes
  dropped : s.dropped.map some = lost.map Piece.lost

theorem ThreadAt.exited_iff (h : ThreadAt fuel pc pc' v) : pc.isExited = true ↔ pc' = .exited := by
  cases h <;> simp [ThreadPc.isExited]

theorem ThreadAt.hold_eq_zero (h : ThreadAt fuel pc .exited v) : v = 0 := by
  cases h
  rfl

theorem Refines.dropped_left (h : Refines fuel k j c s L queue current hold lost) :
    (s.dropped ++ (s.pool.group.map fun g =>
      Lost.group g ((opLists g (j.getD g [])).map Prod.fst)).toList).map some =
        (left current lost).map Piece.lost := by
  rw [List.map_append, h.dropped, h.groupRead, left, List.map_append]
  congr 1
  cases current with
  | none => rfl
  | some b =>
    have hentries := entries_fst (entry_opLists (h.reads b rfl).1)
    simp only [Option.map_some, Option.toList_some, List.map_cons, List.map_nil, hentries,
      Piece.lost]

theorem Refines.join (poison : Node × Node) (cf : Config)
    (h : Refines fuel k j c s L queue current hold lost) (hd : s.pool.destroy = true)
    (hexited : ∀ i, s.pool.thread i = .exited) :
    ∃ s', s.step cf j .join = some s' ∧ Joined (c.join poison fuel) s' (left current lost) := by
  have hzero : ∑ i, hold i = 0 := Finset.sum_eq_zero fun i _ => by
    have hat := h.threads i
    rw [hexited i] at hat
    exact hat.hold_eq_zero
  have hholds := h.holds
  rw [hzero, zero_add] at hholds
  have hnodup := hholds.blocks.nodup
  rw [pieces, Multiset.map_add, cells_add, cells_pieces, Multiset.nodup_add,
    Multiset.coe_nodup] at hnodup
  obtain ⟨heap, heap', L', hlists, hhead, h', hlive⟩ := hholds.freeOperList poison
    (Nat.lt_of_le_of_lt (Nat.le_add_right _ k) h.room) h.bounded
  have hstep : s.step cf j .join = some {
      pool := { s.pool with joined := true }
      dropped := s.dropped ++
        (s.pool.group.map fun g => Lost.group g ((opLists g (j.getD g [])).map Prod.fst)).toList
      discarded := s.discarded ++ s.pool.queue.map Worker.index } := by
    simp only [Ledger.step, h.running, WorkerPool.step, hd, true_and, if_pos hexited,
      Option.map_some, Bool.false_eq_true, if_false]
  refine ⟨_, hstep, ?_⟩
  rw [Pointers.join, hlists, Pointers.access_some, hhead, Pointers.access_some]
  refine ⟨h.fault, rfl, ?_, hnodup.1, fun x => ?_, h.dropped_left⟩
  · simp only [h.outside, Outside.of]
  · have hx := hlive x
    rw [cells_pieces, Multiset.mem_coe, List.mem_flatMap, ← h'.live] at hx
    exact hx

def PoolEvent.ledger : PoolEvent n → LedgerEvent n
  | .write => .write
  | .thread i ans => .thread i ans.worker.isNone (ans.tolerate = -1)
  | .destroy => .destroy
  | .join => .join

theorem Refines.step {e : PoolEvent n}
    (h : Refines fuel (k + 1) j c s L queue current hold lost)
    (hops : ∀ i ans, e = .thread i ans → ∀ l ∈ ans.group.lists, l.ops.length < fuel)
    (hstep : poolStep poison fuel cf j c e = some c') :
    ∃ s', s.step cf j e.ledger = some s' ∧
      (Stores fuel k j c' s' ∨ ∃ lost, Joined c' s' lost) := by
  unfold poolStep at hstep
  rw [Option.ite_none_left_eq_some] at hstep
  obtain ⟨-, hstep⟩ := hstep
  have hwritten : c.outside.written = s.pool.written := by rw [h.outside, Outside.of]
  have hdestroy : c.outside.destroy = s.pool.destroy := by rw [h.outside, Outside.of]
  cases e with
  | write =>
    simp only [hwritten] at hstep
    obtain ⟨hlt, hstep⟩ := Option.ite_none_right_eq_some.1 hstep
    cases hstep
    refine ⟨{ s with pool := { s.pool with written := s.pool.written + 1 } }, ?_,
      Or.inl ⟨L, queue, current, hold, lost, { h.later with outside := ?_ }⟩⟩
    · simp only [PoolEvent.ledger, Ledger.step, h.running, WorkerPool.step, if_pos hlt,
        Option.map_some, Bool.false_eq_true, if_false]
    · simp only [h.outside, Outside.of]
  | thread i ans =>
    obtain ⟨s', hs', hstores⟩ := h.operThread ans (hops i ans rfl) hstep
    refine ⟨s', ?_, Or.inl hstores⟩
    simp only [PoolEvent.ledger, Ledger.step, h.running, hs', Bool.false_eq_true, if_false]
  | destroy =>
    cases hstep
    refine ⟨{ s with pool := { s.pool with destroy := true } }, ?_,
      Or.inl ⟨L, queue, current, hold, lost, { h.later with outside := ?_ }⟩⟩
    · simp only [PoolEvent.ledger, Ledger.step, h.running, Bool.false_eq_true, if_false]
    · simp only [h.outside, Outside.of]
  | join =>
    simp only [hdestroy] at hstep
    obtain ⟨⟨hd, hexited⟩, hstep⟩ := Option.ite_none_right_eq_some.1 hstep
    cases hstep
    obtain ⟨s', hs', hjoined⟩ := h.join poison cf hd fun i => (h.threads i).exited_iff.1 (hexited i)
    exact ⟨s', hs', Or.inr ⟨_, hjoined⟩⟩

theorem refines_init (m : Memory) (hk : k < fuel) :
    Refines fuel k j (Pointers.init n m) (Ledger.init n)
      ⟨fun x => x = .workerList, fun x => if x = .workerList then some [] else none⟩
      [] none (fun _ => 0) [] where
  fault := rfl
  running := rfl
  outside := rfl
  holds := by
    refine ⟨⟨rfl, fun h l hl => ?_, ?_⟩, ⟨?_, by simp [left, pieces, cells],
      by simp [left, pieces, cells], by simp [left, pieces]⟩, by simp [left, pieces], rfl⟩
    · dsimp only at hl
      split_ifs at hl with hh
      subst hh
      cases hl
      exact ⟨⟨rfl, rfl⟩, List.nodup_singleton _, by simp [Pointers.init, startHeap]⟩
    · rintro a h h' ⟨l, hl, -⟩ ⟨l', hl', -⟩
      dsimp only at hl hl'
      split_ifs at hl hl' with hh hh'
      exact hh.trans hh'.symm
    · simp [left, pieces, cells]
  room := by simpa using hk
  bounded := by simp
  group := rfl
  groupRead := rfl
  reads := by simp
  unread := fun _ => rfl
  queued := rfl
  threads := fun _ => .fetch
  dropped := rfl

def sampleKinds : Journal := [[.file false, .symlink, .dir true]]

def samplePiece : GroupAt where
  addr := 0
  index := 0
  lists := [⟨0, ⟨.file, false, false, 0⟩, [0, 1]⟩, ⟨1, ⟨.symlink, false, false, 1⟩, []⟩,
    ⟨2, ⟨.dir, false, true, 2⟩, [2]⟩]

def sampleMemory : Memory where
  heap := startHeap
  group _ := 0
  list _ := ⟨.file, false, false, 0⟩
  worker _ := ⟨.operationFile, ⟨0, 0⟩, 0, 0⟩

def sampleMove (i : ℕ) (worker : Option (ℕ × ℕ)) : PoolEvent 2 :=
  .thread ⟨i % 2, Nat.mod_lt i Nat.two_pos⟩ ⟨samplePiece, worker, 0⟩

def lossyBuild : List (PoolEvent 2) :=
  .write :: ([0, 1, 0, 1, 0, 1].map fun i => sampleMove i none) ++
    [sampleMove 1 (some (0, 0)), sampleMove 0 none, .destroy, sampleMove 1 (some (1, 1))]

def lossyRun : List (PoolEvent 2) :=
  lossyBuild ++ ([0, 1, 1, 0, 0, 0, 0].map fun i => sampleMove i none) ++ [.join]

def cleanRun : List (PoolEvent 2) :=
  .write :: ([0, 1, 0, 1, 0, 1, 0].map fun i => sampleMove i (some (0, 0))) ++
    [sampleMove 1 (some (1, 1)), sampleMove 0 (some (0, 0)), sampleMove 1 (some (2, 2))] ++
    ([1, 0, 0, 1, 1, 1, 0, 1, 0, 0, 1, 0, 0, 1, 1, 0, 1, 0, 1].map fun i =>
      sampleMove i (some (0, 0))) ++ [.destroy, .join]

theorem sampleMove_bounded {es : List (PoolEvent 2)}
    (hes : ∀ e ∈ es, e = .write ∨ e = .destroy ∨ e = .join ∨ ∃ i worker, e = sampleMove i worker)
    (i : Fin 2) (ans : Answers) (h : .thread i ans ∈ es) :
    ∀ l ∈ ans.group.lists, l.ops.length < 40 := by
  have hgroup : ans.group = samplePiece := by
    rcases hes _ h with h | h | h | ⟨k, worker, h⟩ <;> cases h
    rfl
  rw [hgroup]
  decide

theorem lossyRun_events : ∀ e ∈ lossyRun,
    e = .write ∨ e = .destroy ∨ e = .join ∨ ∃ i worker, e = sampleMove i worker := by
  simp [lossyRun, lossyBuild]

theorem lossyBuild_events : ∀ e ∈ lossyBuild,
    e = .write ∨ e = .destroy ∨ e = .join ∨ ∃ i worker, e = sampleMove i worker :=
  fun e he => lossyRun_events e (List.mem_append_left _ (List.mem_append_left _ he))

theorem cleanRun_events : ∀ e ∈ cleanRun,
    e = .write ∨ e = .destroy ∨ e = .join ∨ ∃ i worker, e = sampleMove i worker := by
  simp [cleanRun]

section Runs

variable {m : Memory} {es : List (PoolEvent n)}

theorem stores_exec (hfuel : es.length < fuel)
    (hops : ∀ i ans, .thread i ans ∈ es → ∀ l ∈ ans.group.lists, l.ops.length < fuel)
    (h : exec (poolStep poison fuel cf j) (Pointers.init n m) es = some c) :
    ∃ s, exec (Ledger.step cf j) (Ledger.init n) (es.map PoolEvent.ledger) = some s ∧
      (Stores fuel 0 j c s ∨ ∃ lost, Joined c s lost) := by
  rw [exec_map]
  refine simulation_events (R := fun k c s => Stores fuel k j c s ∨ ∃ lost, Joined c s lost)
    (fun k c s c' e he hR hstep => ?_) (Or.inl ⟨_, _, _, _, _, refines_init m hfuel⟩) h
  rcases hR with ⟨L, queue, current, hold, lost, hR⟩ | ⟨lost, hR⟩
  · exact hR.step (fun i ans hans => hops i ans (hans ▸ he)) hstep
  · have hjoined : c.outside.joined = true := by rw [hR.outside, Outside.of, hR.joined]
    unfold poolStep at hstep
    rw [if_pos (Or.inr hjoined)] at hstep
    cases hstep

/-- In every interleaving: no memory is used that is not allocated, and none is freed twice. Each
state is one that the machine with the op lists comes to, and until the threads are joined what is
allocated is what the queue, the threads and the group that was read have, and what is lost. -/
theorem pool_refines (poison : Node × Node) (fuel n : ℕ) (cf : Config) (j : Journal) (m : Memory)
    (es : List (PoolEvent n)) (c : Pointers n) (hfuel : es.length < fuel)
    (hops : ∀ i ans, .thread i ans ∈ es → ∀ l ∈ ans.group.lists, l.ops.length < fuel)
    (h : exec (poolStep poison fuel cf j) (Pointers.init n m) es = some c) :
    c.fault = false ∧ ∃ s,
      exec (Ledger.step cf j) (Ledger.init n) (es.map PoolEvent.ledger) = some s ∧
      c.outside = .of s.pool ∧ (c.outside.joined = false → Stores fuel 0 j c s) := by
  obtain ⟨s, hs, ⟨L, queue, current, hold, lost, hR⟩ | ⟨lost, hR⟩⟩ := stores_exec hfuel hops h
  · exact ⟨hR.fault, s, hs, hR.outside, fun _ => ⟨L, queue, current, hold, lost, hR⟩⟩
  · refine ⟨hR.fault, s, hs, hR.outside, fun hfalse => ?_⟩
    rw [hR.outside, Outside.of, hR.joined] at hfalse
    exact Bool.noConfusion hfalse

theorem pool_refines_lossy : ∃ c : Pointers 2,
    exec (poolStep (.null, .null) 40 ⟨3, 3⟩ sampleKinds) (Pointers.init 2 sampleMemory) lossyBuild =
      some c ∧ c.fault = false ∧ ∃ s,
      exec (Ledger.step ⟨3, 3⟩ sampleKinds) (Ledger.init 2) (lossyBuild.map PoolEvent.ledger) =
        some s ∧
      c.outside = .of s.pool ∧ Stores 40 0 sampleKinds c s := by
  obtain ⟨c, hc, hj⟩ : ∃ c, exec (poolStep (.null, .null) 40 ⟨3, 3⟩ sampleKinds)
      (Pointers.init 2 sampleMemory) lossyBuild = some c ∧ (!c.outside.joined) = true := by
    refine (Option.any_eq_true (fun c : Pointers 2 => !c.outside.joined) _).1 ?_
    decide +kernel
  obtain ⟨hfault, s, hs, houtside, hstores⟩ :=
    pool_refines _ 40 2 _ _ _ _ c (by decide) (sampleMove_bounded lossyBuild_events) hc
  exact ⟨c, hc, hfault, s, hs, houtside, hstores (Bool.not_inj hj)⟩

/-- After the threads are joined: what is still allocated is what the ledger has as dropped, piece
by piece: the op lists that no worker was made for, what is left of the groups that a builder gave
up, and the group that nobody took. Each op list that was read is in one of these, or was executed,
or freed without that, and just once. -/
theorem pool_lost (poison : Node × Node) (fuel n : ℕ) (cf : Config) (j : Journal) (m : Memory)
    (es : List (PoolEvent n)) (c : Pointers n) (hfuel : es.length < fuel)
    (hops : ∀ i ans, .thread i ans ∈ es → ∀ l ∈ ans.group.lists, l.ops.length < fuel)
    (h : exec (poolStep poison fuel cf j) (Pointers.init n m) es = some c)
    (hj : c.outside.joined = true) :
    ∃ (s : Ledger n) (lost : List Piece),
      exec (Ledger.step cf j) (Ledger.init n) (es.map PoolEvent.ledger) = some s ∧
      c.outside = .of s.pool ∧ lost.map Piece.lost = s.dropped.map some ∧
      (lost.flatMap Piece.nodes).Nodup ∧
      (∀ x, c.memory.heap.live x = true ↔ ∃ p ∈ lost, x ∈ p.nodes) ∧
      ∀ x : ListIndex, c.outside.executed.count x + s.discarded.count x +
        (s.dropped.flatMap Lost.indices).count x =
          if x.group < c.outside.readPos ∧ x.opList < (j.getD x.group []).length then 1 else 0 := by
  obtain ⟨s, hs, ⟨L, queue, current, hold, lost, hR⟩ | ⟨lost, hR⟩⟩ := stores_exec hfuel hops h
  · rw [hR.outside, Outside.of, hR.running] at hj
    exact Bool.noConfusion hj
  · refine ⟨s, lost, hs, hR.outside, hR.dropped.symm, hR.nodup, hR.live, fun x => ?_⟩
    have htotal := (Ledger.balanced_exec hs).total x
    rw [Ledger.total, hR.joined, if_pos rfl, Ledger.gone, Ledger.unread, inGroup_eq] at htotal
    have hexecuted : c.outside.executed = s.pool.executed := by rw [hR.outside, Outside.of]
    have hread : c.outside.readPos = s.pool.readPos := by rw [hR.outside, Outside.of]
    rw [hexecuted, hread]
    split_ifs at htotal ⊢ <;> omega

theorem pool_lost_lossy : ∃ c : Pointers 2,
    exec (poolStep (.null, .null) 40 ⟨3, 3⟩ sampleKinds) (Pointers.init 2 sampleMemory) lossyRun =
      some c ∧ ∃ (s : Ledger 2) (lost : List Piece),
      exec (Ledger.step ⟨3, 3⟩ sampleKinds) (Ledger.init 2) (lossyRun.map PoolEvent.ledger) =
        some s ∧
      c.outside = .of s.pool ∧ lost.map Piece.lost = s.dropped.map some ∧
      (lost.flatMap Piece.nodes).Nodup ∧
      (∀ x, c.memory.heap.live x = true ↔ ∃ p ∈ lost, x ∈ p.nodes) ∧
      ∀ x : ListIndex, c.outside.executed.count x + s.discarded.count x +
        (s.dropped.flatMap Lost.indices).count x =
          if x.group < c.outside.readPos ∧ x.opList < (sampleKinds.getD x.group []).length then 1
          else 0 := by
  obtain ⟨c, hc, hj⟩ : ∃ c, exec (poolStep (.null, .null) 40 ⟨3, 3⟩ sampleKinds)
      (Pointers.init 2 sampleMemory) lossyRun = some c ∧ c.outside.joined = true := by
    refine (Option.any_eq_true (fun c : Pointers 2 => c.outside.joined) _).1 ?_
    decide +kernel
  exact ⟨c, hc, pool_lost _ 40 2 _ _ _ _ c (by decide) (sampleMove_bounded lossyRun_events) hc hj⟩

/-- When there is memory for the workers, no thread answers the end of the journal while a builder
is at work, and the pool is destroyed for its own mask, nothing is left in the memory after the
threads are joined, and each op list of the journal was executed once. -/
theorem pool_clean (poison : Node × Node) (fuel n : ℕ) (cf : Config) (j : Journal) (m : Memory)
    (es : List (PoolEvent n)) (c : Pointers n) (hfuel : es.length < fuel)
    (hops : ∀ i ans, .thread i ans ∈ es → ∀ l ∈ ans.group.lists, l.ops.length < fuel)
    (h : exec (poolStep poison fuel cf j) (Pointers.init n m) es = some c)
    (hj : c.outside.joined = true) (hlen : j.length ≤ cf.groupsIndex)
    (hclean : Guarded (Ledger.step cf j) (Ledger.Clean cf) (Ledger.init n)
      (es.map PoolEvent.ledger)) :
    (∀ x, c.memory.heap.live x = false) ∧ ∀ x : ListIndex, c.outside.executed.count x =
      if x.opList < (j.getD x.group []).length then 1 else 0 := by
  obtain ⟨s, hs, ⟨L, queue, current, hold, lost, hR⟩ | ⟨lost, hR⟩⟩ := stores_exec hfuel hops h
  · rw [hR.outside, Outside.of, hR.running] at hj
    exact Bool.noConfusion hj
  · have hwhole := Ledger.whole_exec hlen hclean hs
    have hlost : lost = [] := by
      have hmap := hR.dropped.symm
      rwa [hwhole.dropped, List.map_nil, List.map_eq_nil_iff] at hmap
    refine ⟨fun x => ?_, fun x => ?_⟩
    · rw [Bool.eq_false_iff, ne_eq, hR.live, hlost]
      simp
    · have hexecuted : c.outside.executed = s.pool.executed := by rw [hR.outside, Outside.of]
      rw [hexecuted, hwhole.executed_eq hR.joined, inGroup_eq]
      simp only [true_and]

theorem pool_clean_three : ∃ c : Pointers 2,
    exec (poolStep (.null, .null) 40 ⟨3, 3⟩ sampleKinds) (Pointers.init 2 sampleMemory) cleanRun =
      some c ∧ (∀ x, c.memory.heap.live x = false) ∧ ∀ x : ListIndex,
        c.outside.executed.count x =
          if x.opList < (sampleKinds.getD x.group []).length then 1 else 0 := by
  obtain ⟨c, hc, hj⟩ : ∃ c, exec (poolStep (.null, .null) 40 ⟨3, 3⟩ sampleKinds)
      (Pointers.init 2 sampleMemory) cleanRun = some c ∧ c.outside.joined = true := by
    refine (Option.any_eq_true (fun c : Pointers 2 => c.outside.joined) _).1 ?_
    decide +kernel
  exact ⟨c, hc, pool_clean _ 40 2 _ _ _ _ c (by decide) (sampleMove_bounded cleanRun_events) hc hj
    (by decide) (by decide +kernel)⟩

end Runs

end MyScripts.Shark.PoolMemory
