import MyScripts.Shark.PoolMemory

/-!
# The pieces of a pool's memory

The allocated memory is the queue of workers and some pieces. Each function on it takes one piece
to another, and leaves the rest as it is.
-/
namespace MyScripts.Shark.PoolMemory
open Library.CircularList ListHead WorkerPool

variable {m m' : Memory} {L L' : HeadLists Node} {l : ListAt} {ls : List ListAt} {b : GroupAt}
  {w : WorkerAt} {p : Piece} {heap : Heap Node} {new : List Node}

def pieces (queue : List WorkerAt) (ps : Multiset Piece) : Multiset Piece :=
  ps + (queue.map Piece.queued : List Piece)

structure Holds (m : Memory) (L : HeadLists Node) (queue : List WorkerAt) (ps : Multiset Piece) :
    Prop where
  stands : Stands m.heap L
  blocks : ListHead.Holds L (· = .workerList) ((pieces queue ps).map Piece.block)
  loaded : ∀ p ∈ pieces queue ps, p.Loaded m
  linked : L.list .workerList = some (queue.map WorkerAt.node)

variable {queue : List WorkerAt} {ps ps' rest : Multiset Piece} {x : Node}

theorem pieces_add (queue : List WorkerAt) (ps rest : Multiset Piece) :
    pieces queue (ps + rest) = ps + pieces queue rest := add_assoc ..

def Rest (queue : List WorkerAt) (rest : Multiset Piece) (x : Node) : Prop :=
  x = .workerList ∨ x ∈ cells ((pieces queue rest).map Piece.block)

theorem Holds.out (h : Holds m L queue (ps + rest)) (hx : x ∈ cells (ps.map Piece.block)) :
    ¬Rest queue rest x := by
  have hblocks := h.blocks
  rw [pieces_add, Multiset.map_add] at hblocks
  have hnodup := hblocks.nodup
  rw [cells_add, Multiset.nodup_add] at hnodup
  rintro (hqueue | hrest)
  · refine hblocks.apart x ?_ hqueue
    rw [cells_add]
    exact Multiset.mem_add.2 (Or.inl hx)
  · exact Multiset.disjoint_left.1 hnodup.2.2 hx hrest

theorem Rest.linked (hframe : Frame L L' (Rest queue rest))
    (h : L.list .workerList = some (queue.map WorkerAt.node)) :
    L'.list .workerList = some (queue.map WorkerAt.node) := by
  refine hframe _ _ (Or.inl rfl) h fun x hx => Or.inr ?_
  obtain ⟨w, hw, rfl⟩ := List.mem_map.1 hx
  refine mem_cells.2 ⟨(Piece.queued w).block, Multiset.mem_map_of_mem _ ?_, List.mem_cons_self⟩
  exact Multiset.mem_add.2 (Or.inr (Multiset.mem_coe.2 (List.mem_map_of_mem hw)))

theorem mem_cells_block {p : Piece} (hp : p ∈ ps) (hx : x ∈ p.nodes) :
    x ∈ cells (ps.map Piece.block) :=
  mem_cells.2 ⟨p.block, Multiset.mem_map_of_mem _ hp, hx⟩

theorem Holds.reshape (h : Holds m L queue (ps + rest)) (h' : Stands heap L')
    (hcells : cells (ps'.map Piece.block) = cells (ps.map Piece.block))
    (hlive : L'.live = L.live) (hframe : Frame L L' (Rest queue rest))
    (hheads : ∀ p ∈ ps', ∀ h ∈ p.heads, L'.list h.1 = some h.2)
    (hloaded : ∀ p ∈ ps', p.Loaded m) : Holds { m with heap } L' queue (ps' + rest) := by
  have hblocks := h.blocks
  rw [pieces_add, Multiset.map_add] at hblocks
  refine ⟨h', ?_, fun p hp => ?_, Rest.linked hframe h.linked⟩
  · rw [pieces_add, Multiset.map_add]
    refine hblocks.reshape hcells hlive (hframe.mono fun x => Or.inr) fun b hb => ?_
    obtain ⟨p, hp, rfl⟩ := Multiset.mem_map.1 hb
    exact hheads p hp
  · have hp' : p.Loaded m := by
      rw [pieces_add, Multiset.mem_add] at hp
      rcases hp with hp | hp
      · exact hloaded p hp
      · refine h.loaded p ?_
        rw [pieces_add]
        exact Multiset.mem_add.2 (Or.inr hp)
    exact hp'.same ⟨fun _ _ => rfl, fun _ _ => rfl, fun _ _ => rfl⟩ fun _ _ => List.not_mem_nil

theorem Holds.grow (h : Holds m L queue (ps + rest)) (h' : Stands m'.heap L')
    (hgrows : Grows L L' new []) (hsame : SameData m m' new) (hnodup : new.Nodup)
    (hdead : ∀ x ∈ new, L.live x ≠ true)
    (hcells : cells (ps'.map Piece.block) = (new : Multiset Node) + cells (ps.map Piece.block))
    (hheads : ∀ p ∈ ps', ∀ h ∈ p.heads, L'.list h.1 = some h.2)
    (hloaded : ∀ p ∈ ps', p.Loaded m') : Holds m' L' queue (ps' + rest) := by
  have hblocks := h.blocks
  rw [pieces_add, Multiset.map_add] at hblocks
  have hold : ∀ x, Rest queue rest x → x ∉ new := by
    intro x hx hx'
    refine hdead x hx' ((hblocks.live x).2 (hx.imp_right fun hx => ?_))
    rw [cells_add]
    exact Multiset.mem_add.2 (Or.inr hx)
  refine ⟨h', ?_, fun p hp => ?_,
    Rest.linked (hgrows.frame (fun x hx hx' => hold x hx' hx) (by simp)) h.linked⟩
  · rw [pieces_add, Multiset.map_add]
    refine hblocks.grow hgrows hcells hnodup hdead fun b hb => ?_
    obtain ⟨p, hp, rfl⟩ := Multiset.mem_map.1 hb
    exact hheads p hp
  · rw [pieces_add, Multiset.mem_add] at hp
    rcases hp with hp | hp
    · exact hloaded p hp
    · refine (h.loaded p ?_).same hsame fun x hx => hold x (Or.inr (mem_cells_block hp hx))
      rw [pieces_add]
      exact Multiset.mem_add.2 (Or.inr hp)

theorem Holds.drop (h : Holds m L queue (ps + rest)) (h' : Stands heap (L.drop new))
    (hcells : ∀ x, x ∈ new ↔ x ∈ cells (ps.map Piece.block)) :
    Holds { m with heap } (L.drop new) queue rest := by
  have hblocks := h.blocks
  rw [pieces_add, Multiset.map_add] at hblocks
  have hframe : Frame L (L.drop new) (Rest queue rest) :=
    frame_drop fun x hx => h.out ((hcells x).1 hx)
  refine ⟨h', hblocks.drop hcells, fun p hp => ?_, Rest.linked hframe h.linked⟩
  have hp' : p.Loaded m := by
    refine h.loaded p ?_
    rw [pieces_add]
    exact Multiset.mem_add.2 (Or.inr hp)
  exact hp'.same ⟨fun _ _ => rfl, fun _ _ => rfl, fun _ _ => rfl⟩ fun _ _ => List.not_mem_nil

variable {a i : ℕ} {poison : Node × Node} {fuel : ℕ}

theorem cells_cons (p : Piece) (ps : Multiset Piece) :
    cells ((p ::ₘ ps).map Piece.block) = (p.nodes : Multiset Node) + cells (ps.map Piece.block) := by
  rw [Multiset.map_cons, ← Multiset.singleton_add, cells_add, cells_singleton]
  rfl

theorem cells_zero : cells ((0 : Multiset Piece).map Piece.block) = 0 := rfl

theorem cells_one (p : Piece) : cells (({p} : Multiset Piece).map Piece.block) = p.nodes := by
  rw [← Multiset.cons_zero, cells_cons, cells_zero, add_zero]

theorem Holds.head (h : Holds m L queue ps) (hp : p ∈ ps) {c : Node × List Node}
    (hc : c ∈ p.heads) : L.list c.1 = some c.2 :=
  h.blocks.heads p.block (Multiset.mem_map_of_mem _ (Multiset.mem_add.2 (Or.inl hp))) c hc

theorem Holds.nodup (h : Holds m L queue (p ::ₘ rest)) : p.nodes.Nodup := by
  have hnodup := h.blocks.nodup
  rw [← Multiset.singleton_add, pieces_add, Multiset.singleton_add, cells_cons,
    Multiset.nodup_add] at hnodup
  exact hnodup.1

theorem Holds.loadedAt (h : Holds m L queue (p ::ₘ rest)) : p.Loaded m :=
  h.loaded p (Multiset.mem_add.2 (Or.inl (Multiset.mem_cons_self p rest)))

theorem Holds.analyzeStringRead (h : Holds m L queue rest) (hdead : ∀ x ∈ b.nodes, L.live x ≠ true)
    (hnodup : b.nodes.Nodup) :
    ∃ m' L', analyzeStringRead b m = some m' ∧ Holds m' L' queue (.group b ::ₘ rest) := by
  obtain ⟨m', L', hrun, h', hgrows, hsame, hheads, hload⟩ :=
    analyzeStringRead_eq h.stands hdead hnodup
  have hzero : Holds m L queue (0 + rest) := by rwa [zero_add]
  refine ⟨m', L', hrun, ?_⟩
  rw [← Multiset.singleton_add]
  refine hzero.grow h' hgrows hsame hnodup hdead (by rw [cells_one, cells_zero, add_zero]; rfl) ?_ ?_
  · simpa using hheads
  · simpa using hload

theorem update_erase (v : Option (List Node)) {old c : Node} {r : List Node}
    (hl : L.list c = some r) (hc : c ≠ old) (hr : old ∉ r) :
    Function.update (fun h => (L.list h).map (·.erase old)) old v c = some r := by
  rw [Function.update_of_ne hc, hl, Option.map_some, List.erase_of_not_mem hr]

theorem Holds.unlink (h : Holds m L queue (.group ⟨a, i, l :: ls⟩ ::ₘ rest)) :
    ∃ heap L', listDelInit l.node m.heap = some heap ∧
      Holds { m with heap } L' queue (.list i l ::ₘ .group ⟨a, i, ls⟩ ::ₘ rest) := by
  have hmem : Piece.group ⟨a, i, l :: ls⟩ ∈ Piece.group ⟨a, i, l :: ls⟩ ::ₘ rest :=
    Multiset.mem_cons_self ..
  have hgroup : L.list (.groupHead a) = some (l.node :: ls.map ListAt.node) :=
    h.head hmem (List.mem_cons_self)
  have hops : ∀ k ∈ l :: ls, L.list (.opListHead k.addr) = some (k.ops.map .oplist) := fun k hk =>
    h.head (c := k.opHead) hmem (List.mem_cons_of_mem _ (List.mem_map_of_mem hk))
  obtain ⟨hindex, hfields⟩ := h.loadedAt
  obtain ⟨heap, hdel, h'⟩ := h.stands.listDelInit (Or.inl ⟨_, _, hgroup, List.mem_cons_self⟩)
  have hnode : l.node ∈ (Piece.group ⟨a, i, l :: ls⟩).nodes :=
    GroupAt.list_mem (List.mem_cons_self) l.node_mem
  rw [← Multiset.singleton_add] at h
  have hholds : Holds { m with heap } ⟨L.live, Function.update
      (fun h => (L.list h).map (·.erase l.node)) l.node (some [])⟩ queue
      ((.list i l ::ₘ {.group ⟨a, i, ls⟩}) + rest) := by
    refine h.reshape h' ?_ rfl (frame_del (h.out (mem_cells_block (by simp) hnode)))
      (fun p hp => ?_) fun p hp => ?_
    · rw [cells_cons, cells_one, cells_one]
      simp only [Piece.nodes, GroupAt.nodes, List.flatMap_cons, Multiset.coe_add,
        Multiset.coe_eq_coe]
      exact List.perm_middle
    · have hout : ∀ k : ListAt, l.node ∉ k.ops.map Node.oplist := by simp [ListAt.node]
      rw [Multiset.mem_cons, Multiset.mem_singleton] at hp
      rcases hp with rfl | rfl
      · intro c hc
        simp only [Piece.heads, List.mem_cons, List.not_mem_nil, or_false] at hc
        rcases hc with rfl | rfl
        · dsimp only
          rw [Function.update_self]
        · exact update_erase (some []) (hops l List.mem_cons_self) (by simp [ListAt.node]) (hout l)
      · intro c hc
        rcases List.mem_cons.1 hc with rfl | hc
        · dsimp only
          rw [Function.update_of_ne (by simp [ListAt.node]), hgroup, Option.map_some,
            List.erase_cons_head]
        · obtain ⟨k, hk, rfl⟩ := List.mem_map.1 hc
          exact update_erase (some []) (hops k (List.mem_cons_of_mem l hk))
            (by simp [ListAt.node]) (hout k)
    · rw [Multiset.mem_cons, Multiset.mem_singleton] at hp
      rcases hp with rfl | rfl
      · exact hfields l List.mem_cons_self
      · exact ⟨hindex, fun k hk => hfields k (List.mem_cons_of_mem l hk)⟩
  rw [Multiset.cons_add, Multiset.singleton_add] at hholds
  exact ⟨heap, _, hdel, hholds⟩

theorem Holds.operMalloc (h : Holds m L queue (.list w.group w.list ::ₘ rest))
    (hdead : L.live w.node ≠ true) (hdead' : L.live (.absPath w.path) ≠ true) :
    ∃ m' L', operMalloc w.fn w.list.addr w.group w.addr w.path m = some m' ∧
      Holds m' L' queue (.worker w ::ₘ rest) := by
  have hmem : Piece.list w.group w.list ∈ Piece.list w.group w.list ::ₘ rest := Multiset.mem_cons_self ..
  have hnode : L.list w.list.node = some [] := h.head hmem List.mem_cons_self
  have hops : L.list (.opListHead w.list.addr) = some (w.list.ops.map .oplist) :=
    h.head (c := w.list.opHead) hmem (by simp [Piece.heads])
  have hlive : m.heap.live (.opGroup w.list.addr) = true :=
    (h.stands.lists _ _ hnode).live _ List.mem_cons_self
  have hfields : m.list w.list.addr = w.list.fields := h.loadedAt
  obtain ⟨heap, hinit, h₁⟩ := h.stands.mallocInit hdead .null .null
  have hpath : Function.update L.live w.node true (.absPath w.path) ≠ true := by
    rwa [Function.update_of_ne (by simp [WorkerAt.node])]
  have h₂ := h₁.mallocSelf (a := .absPath w.path) hpath
  have hgrows : Grows L ⟨Function.update (Function.update L.live w.node true) (.absPath w.path) true,
      Function.update (Function.update L.list w.node (some [])) (.absPath w.path) (some [])⟩
      [w.node, .absPath w.path] [] := by
    refine ⟨fun c => ?_, fun c hc _ => ?_⟩
    · by_cases hc : c = w.node <;> by_cases hc' : c = .absPath w.path <;>
        simp [hc, hc', Function.update_apply]
    · simp only [List.mem_cons, List.not_mem_nil, or_false, not_or] at hc
      simp only [Function.update_of_ne hc.1, Function.update_of_ne hc.2]
  let m' : Memory := { m with
    heap := malloc (.absPath w.path) (.absPath w.path) (.absPath w.path) heap
    worker := Function.update m.worker w.addr w.fields }
  have hsame : SameData m m' [w.node, .absPath w.path] := by
    refine ⟨fun _ _ => rfl, fun _ _ => rfl, fun k hk => Function.update_of_ne ?_ ..⟩
    rintro rfl
    exact hk List.mem_cons_self
  have hrun : PoolMemory.operMalloc w.fn w.list.addr w.group w.addr w.path m = some m' := by
    simp only [WorkerAt.node] at hinit
    rw [PoolMemory.operMalloc, if_pos hlive]
    simp only [alloc, hinit, hfields, Option.bind_eq_bind, Option.bind_some]
    rfl
  rw [← Multiset.singleton_add] at h
  rw [← Multiset.singleton_add]
  refine ⟨m', _, hrun, h.grow h₂ hgrows hsame (by simp [WorkerAt.node]) (by simp [hdead, hdead'])
    (by rw [cells_one, cells_one]; rfl) (fun p hp c hc => ?_) fun p hp => ?_⟩
  · obtain rfl := Multiset.mem_singleton.1 hp
    simp only [Piece.heads, List.mem_cons, List.not_mem_nil, or_false] at hc
    rcases hc with rfl | rfl | rfl | rfl
    · simp [WorkerAt.node]
    · simp
    · rw [hgrows.list _ (by simp [ListAt.node, WorkerAt.node]) List.not_mem_nil, hnode]
    · rw [hgrows.list _ (by simp [ListAt.opHead, WorkerAt.node]) List.not_mem_nil]
      exact hops
  · obtain rfl := Multiset.mem_singleton.1 hp
    exact Function.update_self (f := m.worker) w.addr w.fields

theorem pieces_cons (w : WorkerAt) (queue : List WorkerAt) (rest : Multiset Piece) :
    pieces (w :: queue) rest = .queued w ::ₘ pieces queue rest := by
  rw [pieces, List.map_cons, ← Multiset.cons_coe, Multiset.add_cons]
  rfl

theorem pieces_concat (w : WorkerAt) (queue : List WorkerAt) (rest : Multiset Piece) :
    pieces (queue ++ [w]) rest = .queued w ::ₘ pieces queue rest := by
  rw [← pieces_cons, pieces, pieces, Multiset.coe_eq_coe.2]
  exact (List.perm_append_singleton w queue).map _

theorem Holds.notMem (h : Holds m L queue ps) (hps : pieces queue ps = p ::ₘ rest)
    (hx : x ∈ p.nodes) : x ∉ cells (rest.map Piece.block) := by
  have hnodup := h.blocks.nodup
  rw [hps, cells_cons, Multiset.nodup_add] at hnodup
  exact fun hx' => Multiset.disjoint_left.1 hnodup.2.2 (Multiset.mem_coe.2 hx) hx'

theorem Holds.workerList_notMem (h : Holds m L queue ps) (hps : pieces queue ps = p ::ₘ rest) :
    Node.workerList ∉ cells (rest.map Piece.block) := by
  have hapart := h.blocks.apart .workerList
  rw [hps, cells_cons] at hapart
  exact fun hx => hapart (Multiset.mem_add.2 (Or.inr hx)) rfl

theorem Holds.requeue {p' : Piece} {queue' : List WorkerAt} (h : Holds m L queue ps)
    (hps : pieces queue ps = p ::ₘ rest) (hps' : pieces queue' ps' = p' ::ₘ rest)
    (hnodes : p'.nodes = p.nodes) (h' : Stands heap L') (hlive : L'.live = L.live)
    (hframe : Frame L L' (· ∈ cells (rest.map Piece.block)))
    (hheads : ∀ c ∈ p'.heads, L'.list c.1 = some c.2) (hload : p'.Loaded m)
    (hlinked : L'.list .workerList = some (queue'.map WorkerAt.node)) :
    Holds { m with heap } L' queue' ps' := by
  have hblocks := h.blocks
  have hloaded := h.loaded
  rw [hps, ← Multiset.singleton_add, Multiset.map_add] at hblocks
  rw [hps] at hloaded
  refine ⟨h', ?_, fun q hq => ?_, hlinked⟩
  · rw [hps', ← Multiset.singleton_add, Multiset.map_add]
    refine hblocks.reshape (by rw [cells_one, cells_one, hnodes]) hlive hframe fun b hb => ?_
    obtain rfl : b = p'.block := by simpa using hb
    exact hheads
  · rw [hps'] at hq
    have hq' : q.Loaded m := (Multiset.mem_cons.1 hq).elim (fun heq => heq ▸ hload)
      fun hmem => hloaded q (Multiset.mem_cons_of_mem hmem)
    exact hq'.same ⟨fun _ _ => rfl, fun _ _ => rfl, fun _ _ => rfl⟩ fun _ _ => List.not_mem_nil

theorem queued_heads {c : Node × List Node} (hc : c ∈ (Piece.queued w).heads) :
    c.1 ≠ .workerList ∧ c.1 ≠ w.node ∧ w.node ∉ c.2 := by
  simp only [Piece.heads, List.mem_cons, List.not_mem_nil, or_false] at hc
  rcases hc with rfl | rfl | rfl <;> simp [WorkerAt.node, ListAt.node, ListAt.opHead]

theorem Holds.enqueue (h : Holds m L queue (.worker w ::ₘ rest)) :
    ∃ heap L', listAddTail w.node .workerList m.heap = some heap ∧
      Holds { m with heap } L' (queue ++ [w]) rest := by
  have hmem : Piece.worker w ∈ Piece.worker w ::ₘ rest := Multiset.mem_cons_self ..
  have hps : pieces queue (.worker w ::ₘ rest) = .worker w ::ₘ pieces queue rest :=
    Multiset.cons_add ..
  obtain ⟨heap, hadd, h'⟩ := h.stands.listAddTail h.linked
    (h.stands.loose_of_nil (h.head hmem List.mem_cons_self)) (by simp [WorkerAt.node])
  refine ⟨heap, _, hadd, h.requeue hps (pieces_concat w queue rest) rfl h' rfl
    (frame_add (h.notMem hps List.mem_cons_self) (h.workerList_notMem hps)) (fun c hc => ?_)
    h.loadedAt (by simp)⟩
  obtain ⟨hqueue, hne, -⟩ := queued_heads hc
  dsimp only
  rw [Function.update_of_ne hqueue, Function.update_of_ne hne, h.head hmem
    (List.mem_cons_of_mem _ hc)]

theorem Holds.dequeue (h : Holds m L (w :: queue) rest) :
    ∃ heap L', listDelInit w.node m.heap = some heap ∧
      Holds { m with heap } L' queue (.worker w ::ₘ rest) := by
  have hps := pieces_cons w queue rest
  have hmem : Piece.queued w ∈ pieces (w :: queue) rest := by
    rw [hps]
    exact Multiset.mem_cons_self ..
  have hload : m.worker w.addr = w.fields := h.loaded (.queued w) hmem
  have hlinked : L.list .workerList = some (w.node :: queue.map WorkerAt.node) := h.linked
  obtain ⟨heap, hdel, h'⟩ := h.stands.listDelInit (Or.inl ⟨_, _, hlinked, List.mem_cons_self⟩)
  refine ⟨heap, _, hdel, h.requeue hps (Multiset.cons_add ..) rfl h' rfl
    (frame_del (h.notMem hps List.mem_cons_self)) (fun c hc => ?_) hload ?_⟩
  · rcases List.mem_cons.1 hc with rfl | hc
    · dsimp only
      rw [Function.update_self]
    · have hold : L.list c.1 = some c.2 :=
        h.blocks.heads (Piece.queued w).block (Multiset.mem_map_of_mem _ hmem) c hc
      obtain ⟨-, hne, hout⟩ := queued_heads hc
      exact update_erase (some []) hold hne hout
  · dsimp only
    rw [Function.update_of_ne (by simp [WorkerAt.node]), hlinked, Option.map_some,
      List.erase_cons_head]

variable {fields : ℕ → WorkerFields} {ops : List ℕ} {ws : List WorkerAt}

theorem freeOps (poison : Node × Node) (h : Stands heap L) (hl : L.list (.opListHead a) = some (ops.map .oplist))
    (hfuel : ops.length < fuel) :
    ∃ heap', listForEachSafe fuel (.opListHead a) (freeJournalOpMem poison) heap = some heap' ∧
      Stands heap' (L.drop (ops.map .oplist)) ∧
      (L.drop (ops.map .oplist)).list (.opListHead a) = some [] := by
  have hloop := Stands.listForEachSafe
    (P := fun fs L => L.list (.opListHead a) = some (fs.map Node.oplist))
    (S := fun f => [Node.oplist f]) (B := freeJournalOpMem poison) (fun _ _ hP => hP) ?_ hfuel hl h
  · rwa [← List.map_eq_flatMap] at hloop
  · intro f fs L heap hP h
    obtain ⟨heap', heap'', hdel, hfree, h'⟩ :=
      h.del_free (Or.inl ⟨_, _, hP, List.mem_cons_self⟩) poison
    refine ⟨heap'', ?_, h', ?_⟩
    · simp only [freeJournalOpMem, hdel, hfree, Option.bind_eq_bind, Option.bind_some]
    · have hnodup := (List.nodup_cons.1 (h.lists _ _ hP).nodup).2
      refine HeadLists.drop_list_cons (by simp) hP List.mem_cons_self fun x hx => ?_
      rw [List.mem_singleton]
      exact fun heq => (List.nodup_cons.1 hnodup).1 (heq ▸ hx)

structure WorkerAt.Alone (L : HeadLists Node) (w : WorkerAt) : Prop where
  node : L.list w.node = some []
  path : L.list (.absPath w.path) = some []
  list : L.list w.list.node = some []
  ops : L.list (.opListHead w.list.addr) = some (w.list.ops.map .oplist)

theorem WorkerAt.alone (hnode : L.list w.node = some [])
    (hheads : ∀ c ∈ (Piece.queued w).heads, L.list c.1 = some c.2) : w.Alone L := by
  simp only [Piece.heads, List.forall_mem_cons] at hheads
  exact ⟨hnode, hheads.1, hheads.2.1, hheads.2.2.1⟩

theorem freeOperWorker_eq (poison : Node × Node) (h : Stands heap L) (hw : w.Alone L)
    (hfields : fields w.addr = w.fields) (hfuel : w.list.ops.length < fuel) :
    ∃ heap', freeOperWorker poison fuel fields w.addr heap = some heap' ∧
      Stands heap' (L.drop w.nodes) := by
  have hlive : heap.live (.list w.addr) = true := (h.lists _ _ hw.node).live _ List.mem_cons_self
  have hargs : (fields w.addr).args = w.list.addr := by rw [hfields]; rfl
  have hpath : (fields w.addr).absPath = w.path := by rw [hfields]; rfl
  obtain ⟨heap₁, hloop, h₁, hnil⟩ := freeOps poison h hw.ops hfuel
  have hkeep : ∀ {S : List Node} {c : Node}, L.list c = some [] → c ∉ S →
      (L.drop S).list c = some [] := fun hc hS => HeadLists.drop_list hS hc (by simp)
  obtain ⟨heap₂, hfree, h₂⟩ := h₁.free_drop (h₁.loose_of_nil (hkeep hw.path (by simp)))
  rw [HeadLists.drop_append] at h₂
  obtain ⟨heap₃, heap₄, hdel, hfree', h₄⟩ :=
    h₂.del_free (Or.inr (hkeep hw.list (by simp [ListAt.node]))) poison
  rw [HeadLists.drop_append] at h₄
  have hhead : (L.drop (w.list.ops.map .oplist ++ [.absPath w.path] ++ [w.list.node])).list
      (.opListHead w.list.addr) = some [] := by
    rw [List.append_assoc, ← HeadLists.drop_append]
    exact HeadLists.drop_list (by simp [ListAt.node]) hnil (by simp)
  obtain ⟨heap₅, hfree'', h₅⟩ := h₄.free_drop (h₄.loose_of_nil hhead)
  rw [HeadLists.drop_append] at h₅
  obtain ⟨heap₆, hlast, h₆⟩ := h₅.free_drop
    (h₅.loose_of_nil (hkeep hw.node (by simp [WorkerAt.node, ListAt.node])))
  rw [HeadLists.drop_append] at h₆
  refine ⟨heap₆, ?_, ?_⟩
  · simp only [ListAt.node, WorkerAt.node] at hdel hfree' hlast
    simp only [freeOperWorker, if_pos hlive, hargs, hpath, hloop, hfree, freeJournalOpListMem,
      hdel, hfree', hfree'', hlast, Option.bind_eq_bind, Option.bind_some]
  · have hmem : ∀ x, x ∈ w.list.ops.map .oplist ++ [.absPath w.path] ++ [w.list.node] ++
        [.opListHead w.list.addr] ++ [w.node] ↔ x ∈ w.nodes := by
      intro x
      simp only [WorkerAt.nodes, ListAt.nodes, List.mem_append, List.mem_cons, List.not_mem_nil,
        or_false]
      tauto
    rwa [HeadLists.drop_congr hmem] at h₆

theorem Holds.freeOperWorker (poison : Node × Node)
    (h : Holds m L queue (.worker w ::ₘ rest)) (hfuel : w.list.ops.length < fuel) :
    ∃ heap L', freeOperWorker poison fuel m.worker w.addr m.heap = some heap ∧
      Holds { m with heap } L' queue rest := by
  have hmem : Piece.worker w ∈ Piece.worker w ::ₘ rest := Multiset.mem_cons_self ..
  have halone : w.Alone L := WorkerAt.alone (h.head hmem List.mem_cons_self) fun c hc =>
    h.head hmem (List.mem_cons_of_mem _ hc)
  obtain ⟨heap, hfree, h'⟩ :=
    freeOperWorker_eq poison h.stands halone h.loadedAt hfuel
  rw [← Multiset.singleton_add] at h
  exact ⟨heap, _, hfree, h.drop h' fun x => by rw [cells_one]; rfl⟩

theorem Holds.freeGroup (h : Holds m L queue (.group ⟨a, i, []⟩ ::ₘ rest)) :
    ∃ heap L', freeJournalGroupMem a m.heap = some heap ∧
      Holds { m with heap } L' queue rest := by
  have hnil : L.list (.groupHead a) = some [] :=
    h.head (Multiset.mem_cons_self _ _) List.mem_cons_self
  obtain ⟨heap, hfree, h'⟩ := h.stands.free_drop (h.stands.loose_of_nil hnil)
  rw [← Multiset.singleton_add] at h
  exact ⟨heap, _, hfree, h.drop h' fun x => by rw [cells_one]; rfl⟩

theorem freeWorkers (poison : Node × Node) (h : Stands heap L)
    (hlinked : L.list .workerList = some (ws.map WorkerAt.node))
    (hheads : ∀ w ∈ ws, ∀ c ∈ (Piece.queued w).heads, L.list c.1 = some c.2)
    (hnodup : (.workerList :: ws.flatMap WorkerAt.nodes).Nodup)
    (hfields : ∀ w ∈ ws, fields w.addr = w.fields) (hfuel : ws.length < fuel)
    (hops : ∀ w ∈ ws, w.list.ops.length < fuel) :
    ∃ heap', listForEachSafe fuel .workerList (freeWorker poison fuel fields) heap = some heap' ∧
      Stands heap' (L.drop (ws.flatMap WorkerAt.nodes)) ∧
      (L.drop (ws.flatMap WorkerAt.nodes)).list .workerList = some [] := by
  have hloop := Stands.listForEachSafe (P := fun us L =>
      L.list .workerList = some (us.map WorkerAt.node) ∧ us ⊆ ws ∧
      (Node.workerList :: us.flatMap WorkerAt.nodes).Nodup ∧
      ∀ w ∈ us, ∀ c ∈ (Piece.queued w).heads, L.list c.1 = some c.2)
    (S := WorkerAt.nodes) (B := freeWorker poison fuel fields) (fun _ _ hP => hP.1) ?_ hfuel
    ⟨hlinked, List.Subset.refl ws, hnodup, hheads⟩ h
  · obtain ⟨heap', hrun, h', hnil, -⟩ := hloop
    exact ⟨heap', hrun, h', hnil⟩
  · rintro w us L heap ⟨hlinked, hsub, hnodup, hheads⟩ h
    rw [List.flatMap_cons, ← List.cons_append] at hnodup
    obtain ⟨hw, hus, hapart⟩ := List.nodup_append'.1 hnodup
    obtain ⟨hout, hw⟩ := List.nodup_cons.1 hw
    obtain ⟨heap₁, hdel, h₁⟩ := h.listDelInit (Or.inl ⟨_, _, hlinked, List.mem_cons_self⟩)
    have halone : w.Alone ⟨L.live, Function.update (fun h => (L.list h).map (·.erase w.node)) w.node
        (some [])⟩ := by
      refine WorkerAt.alone (by dsimp only; rw [Function.update_self]) fun c hc => ?_
      obtain ⟨-, hne, hnot⟩ := queued_heads hc
      exact update_erase (some []) (hheads w List.mem_cons_self c hc) hne hnot
    have hmem : w ∈ ws := hsub List.mem_cons_self
    obtain ⟨heap₂, hfree, h₂⟩ := freeOperWorker_eq poison h₁ halone (hfields w hmem)
      (hops w hmem)
    have hself : w.node ∈ w.nodes := List.mem_cons_self
    rw [h.drop_erase hself] at h₂
    have hrest : ∀ v ∈ us, ∀ x ∈ v.nodes, x ∉ w.nodes := fun v hv x hx hx' =>
      hapart (List.mem_cons_of_mem _ hx') (List.mem_flatMap.2 ⟨v, hv, hx⟩)
    refine ⟨heap₂, ?_, h₂, ?_, fun v hv => hsub (List.mem_cons_of_mem w hv), ?_, fun v hv c hc => ?_⟩
    · simp only [WorkerAt.node] at hdel
      simp only [WorkerAt.node, freeWorker, hdel, hfree, Option.bind_eq_bind, Option.bind_some]
    · refine HeadLists.drop_list_cons hout hlinked List.mem_cons_self fun x hx => ?_
      obtain ⟨v, hv, rfl⟩ := List.mem_map.1 hx
      exact hrest v hv _ List.mem_cons_self
    · exact List.nodup_cons.2 ⟨fun hx => hapart List.mem_cons_self hx, hus⟩
    · obtain ⟨hhead, hlist⟩ := (Piece.queued v).closed c hc
      exact HeadLists.drop_list (hrest v hv _ hhead) (hheads v (List.mem_cons_of_mem w hv) c hc)
        fun x hx => hrest v hv x (hlist x hx)

theorem cells_pieces (ps : List Piece) :
    cells ((ps : Multiset Piece).map Piece.block) = (ps.flatMap Piece.nodes : List Node) := by
  rw [Multiset.map_coe, cells, Multiset.coe_bind, List.flatMap_map]
  rfl

theorem cells_queued (queue : List WorkerAt) :
    cells (((queue.map Piece.queued : List Piece) : Multiset Piece).map Piece.block) =
      (queue.flatMap WorkerAt.nodes : List Node) := by
  rw [cells_pieces, List.flatMap_map]
  rfl

theorem Holds.freeOperList (poison : Node × Node) (h : Holds m L queue rest)
    (hfuel : queue.length < fuel) (hops : ∀ w ∈ queue, w.list.ops.length < fuel) :
    ∃ heap heap' L', freeOperList poison fuel m = some heap ∧ free .workerList heap = some heap' ∧
      Stands heap' L' ∧ ∀ x, L'.live x = true ↔ x ∈ cells (rest.map Piece.block) := by
  have hmem : ∀ w ∈ queue, Piece.queued w ∈ pieces queue rest := fun w hw =>
    Multiset.mem_add.2 (Or.inr (Multiset.mem_coe.2 (List.mem_map_of_mem hw)))
  have hblocks := h.blocks
  rw [pieces, Multiset.map_add, add_comm] at hblocks
  have hnodup := hblocks.nodup
  have hqueue : ∀ x, x ∈ queue.flatMap WorkerAt.nodes ↔ x ∈ cells
      (((queue.map Piece.queued : List Piece) : Multiset Piece).map Piece.block) := fun x => by
    rw [cells_queued, Multiset.mem_coe]
  rw [cells_add, cells_queued, Multiset.nodup_add, Multiset.coe_nodup] at hnodup
  have hout : Node.workerList ∉ queue.flatMap WorkerAt.nodes := by
    intro hx
    refine hblocks.apart .workerList ?_ rfl
    rw [cells_add]
    exact Multiset.mem_add.2 (Or.inl ((hqueue _).1 hx))
  obtain ⟨heap, hrun, h', hnil⟩ := freeWorkers poison h.stands h.linked
    (fun w hw c hc => h.blocks.heads _ (Multiset.mem_map_of_mem _ (hmem w hw)) c hc)
    (List.nodup_cons.2 ⟨hout, hnodup.1⟩) (fun w hw => h.loaded _ (hmem w hw)) hfuel hops
  have hrest := hblocks.drop hqueue
  obtain ⟨heap', hfree, h''⟩ := h'.free_drop (h'.loose_of_nil hnil)
  refine ⟨heap, heap', _, hrun, hfree, h'', fun x => ?_⟩
  rw [HeadLists.drop_live, hrest.live, List.mem_singleton]
  constructor
  · rintro ⟨rfl | hx, hne⟩
    · exact absurd rfl hne
    · exact hx
  · exact fun hx => ⟨Or.inr hx, hrest.apart x hx⟩

end MyScripts.Shark.PoolMemory
