import MyScripts.Shark.JournalPipeline
import MyScripts.Shark.ListRemoval

/-!
# The memory of a group

`file_ops_group_new` allocates a group, its op lists and their operations, and
links them. `file_ops_group_destroy` takes each node out of its list and frees
it, with a loop in a loop, and frees the group at last.
-/
namespace MyScripts.Shark.GroupMemory
open Library.CircularList ListHead Journal

inductive Node
  | null
  | groupQueue
  | groupList (group : ℕ)
  | opsgroup (group : ℕ)
  | opGroup (list : ℕ)
  | ops (list : ℕ)
  | oplist (op : ℕ)
  deriving DecidableEq

structure ListFields where
  path : Word
  fileType : CInt
  isNew : CInt
  opType : CInt
  opsIndex : CInt

def ListFields.opList (f : ListFields) (ops : List WordOp) : OpList :=
  ⟨f.path, f.fileType, f.isNew, f.opType, f.opsIndex, ops⟩

structure Memory where
  heap : Heap Node
  group : ℕ → CInt
  list : ℕ → ListFields
  op : ℕ → WordOp

structure OpAt where
  addr : ℕ
  op : WordOp

/-- `given` says whether `calloc` has memory for the op list. -/
structure ListAt where
  addr : ℕ
  given : Bool
  fields : ListFields
  ops : List OpAt

structure GroupAt where
  addr : ℕ
  lists : List ListAt
  nonempty : lists ≠ []

def OpAt.node (f : OpAt) : Node := .oplist f.addr

def ListAt.node (l : ListAt) : Node := .opGroup l.addr

def ListAt.nodes (l : ListAt) : List Node := l.node :: .ops l.addr :: l.ops.map OpAt.node

def GroupAt.node (b : GroupAt) : Node := .groupList b.addr

def GroupAt.nodes (b : GroupAt) : List Node :=
  b.node :: .opsgroup b.addr :: b.lists.flatMap ListAt.nodes

def ListAt.opList (l : ListAt) : OpList := l.fields.opList (l.ops.map OpAt.op)

def GroupAt.body (b : GroupAt) : GroupBody :=
  ⟨b.lists.map ListAt.opList, by simpa using b.nonempty⟩

def calloc (n : Node) (heap : Heap Node) : Heap Node := malloc n .null .null heap

def fileOpNew (f : OpAt) (m : Memory) : Option Memory := do
  let heap ← initListHead f.node (calloc f.node m.heap)
  some { m with heap, op := Function.update m.op f.addr f.op }

def addOps (l : ℕ) : List OpAt → Memory → Option Memory
  | [], m => some m
  | f :: fs, m => do
    let m ← fileOpNew f m
    let heap ← listAddTail f.node (.ops l) m.heap
    addOps l fs { m with heap }

def fillOplist (l : ListAt) (m : Memory) : Option Memory := do
  let heap := calloc (.ops l.addr) (calloc l.node m.heap)
  let heap ← initListHead l.node heap
  let heap ← initListHead (.ops l.addr) heap
  addOps l.addr l.ops { m with heap, list := Function.update m.list l.addr l.fields }

/-- `&foplist->op_group` of what is returned, which is NULL where `calloc` fails. -/
def fileOplistCreate (l : ListAt) (m : Memory) : Option (Node × Memory) :=
  if l.given then (fillOplist l m).map (l.node, ·) else some (.null, m)

def addLists (g : ℕ) : List ListAt → Memory → Option Memory
  | [], m => some m
  | l :: ls, m => do
    -- the result is linked without a test for NULL
    let (foplist, m) ← fileOplistCreate l m
    let heap ← listAddTail foplist (.opsgroup g) m.heap
    addLists g ls { m with heap }

def fileOpsGroupNew (opsgroupsIndex : CInt) (b : GroupAt) (m : Memory) : Option Memory := do
  let heap := calloc b.node (calloc (.opsgroup b.addr) m.heap)
  let heap ← initListHead (.opsgroup b.addr) heap
  let heap ← initListHead b.node heap
  addLists b.addr b.lists { m with heap, group := Function.update m.group b.addr opsgroupsIndex }

/-- The body of the inner loop. A node that is not in an operation is not cast to one. -/
def destroyOp : Node → Heap Node → Option (Heap Node)
  | .oplist f, heap => do
    let heap ← listDelInit (.oplist f) heap
    free (.oplist f) heap
  | _, _ => none

def destroyList (fuel : ℕ) : Node → Heap Node → Option (Heap Node)
  | .opGroup l, heap => do
    let heap ← listDelInit (.opGroup l) heap
    let heap ← listForEachSafe fuel (.ops l) destroyOp heap
    let heap ← free (.opGroup l) heap
    free (.ops l) heap
  | _, _ => none

def fileOpsGroupDestroy (fuel : ℕ) (g : ℕ) (heap : Heap Node) : Option (Heap Node) := do
  let heap ← listForEachSafe fuel (.opsgroup g) (destroyList fuel) heap
  let heap ← free (.groupList g) heap
  free (.opsgroup g) heap

variable {heap heap' : Heap Node} {m m' m'' : Memory} {L L' L'' : HeadLists Node} {b : GroupAt}
  {l : ListAt} {f : OpAt} {fuel : ℕ}

theorem destroyOps (h : Stands heap L) (hl : L.list (.ops l.addr) = some (l.ops.map OpAt.node))
    (hfuel : l.ops.length < fuel) :
    ∃ heap', listForEachSafe fuel (.ops l.addr) destroyOp heap = some heap' ∧
      Stands heap' (L.drop (l.ops.map OpAt.node)) ∧
      (L.drop (l.ops.map OpAt.node)).list (.ops l.addr) = some [] := by
  have hloop := Stands.listForEachSafe
    (P := fun fs L => L.list (.ops l.addr) = some (fs.map OpAt.node))
    (S := fun f => [f.node]) (B := destroyOp) (fun _ _ hP => hP) ?_ hfuel hl h
  · rwa [← List.map_eq_flatMap] at hloop
  · intro f fs L heap hP h
    obtain ⟨heap', heap'', hdel, hfree, h'⟩ :=
      h.delInit_free (Or.inl ⟨_, _, hP, List.mem_cons_self⟩)
    refine ⟨heap'', ?_, h', ?_⟩
    · rw [← hfree, ← Option.bind_some (f := free f.node), ← hdel]
      rfl
    · have hnodup := (List.nodup_cons.1 (h.lists _ _ hP).nodup).2
      refine HeadLists.drop_list_cons (by simp [OpAt.node]) hP List.mem_cons_self fun x hx => ?_
      rw [List.mem_singleton]
      exact fun heq => (List.nodup_cons.1 hnodup).1 (heq ▸ hx)

theorem destroyList_eq (h : Stands heap L) (hnode : L.Linked l.node)
    (hl : L.list (.ops l.addr) = some (l.ops.map OpAt.node)) (hnodup : l.nodes.Nodup)
    (hfuel : l.ops.length < fuel) :
    ∃ heap', destroyList fuel l.node heap = some heap' ∧ Stands heap' (L.drop l.nodes) := by
  obtain ⟨hnode', hops⟩ := List.nodup_cons.1 hnodup
  have hops' := (List.nodup_cons.1 hops).1
  rw [List.mem_cons, not_or] at hnode'
  obtain ⟨heap₁, hdel, h₁⟩ := h.listDelInit hnode
  have hl₁ : Function.update (fun h => (L.list h).map (·.erase l.node)) l.node (some [])
      (.ops l.addr) = some (l.ops.map OpAt.node) := by
    rw [Function.update_of_ne (Ne.symm hnode'.1), hl, Option.map_some,
      List.erase_of_not_mem hnode'.2]
  obtain ⟨heap₂, hloop, h₂, hnil⟩ := destroyOps h₁ hl₁ hfuel
  have hself : Function.update (fun h => (L.list h).map (·.erase l.node)) l.node (some [])
      l.node = some [] := Function.update_self ..
  obtain ⟨heap₃, hfree, h₃⟩ := h₂.free_drop ((h₁.loose_of_nil hself).drop hnode'.2)
  obtain ⟨heap₄, hfree', h₄⟩ := h₃.free_drop
    ((h₂.loose_of_nil hnil).drop (by simp [ListAt.node]))
  refine ⟨heap₄, ?_, ?_⟩
  · rw [← hfree']
    simp only [ListAt.node] at hdel hfree
    simp only [ListAt.node, destroyList, hdel, hloop, hfree, Option.bind_eq_bind, Option.bind_some]
  · rw [HeadLists.drop_append, HeadLists.drop_append, h.drop_erase (by simp)] at h₄
    have hmem : ∀ x, x ∈ l.ops.map OpAt.node ++ ([l.node] ++ [.ops l.addr]) ↔ x ∈ l.nodes := by
      intro x
      simp only [ListAt.nodes, List.mem_append, List.mem_cons, List.not_mem_nil, or_false]
      exact or_comm.trans or_assoc
    rwa [HeadLists.drop_congr hmem] at h₄

/-- What `file_ops_group_new` leaves behind. -/
structure Owns (L : HeadLists Node) (b : GroupAt) : Prop where
  nodup : b.nodes.Nodup
  live : ∀ n ∈ b.nodes, L.live n = true
  head : L.list (.opsgroup b.addr) = some (b.lists.map ListAt.node)
  lists : ∀ l ∈ b.lists, L.list (.ops l.addr) = some (l.ops.map OpAt.node)

/-- The loops end, no node is used after it was freed, and what is freed is the group. -/
theorem fileOpsGroupDestroy_eq (h : Stands heap L) (hb : Owns L b) (hnode : L.Loose b.node)
    (hfuel : b.lists.length < fuel) (hfuel' : ∀ l ∈ b.lists, l.ops.length < fuel) :
    ∃ heap', fileOpsGroupDestroy fuel b.addr heap = some heap' ∧ Stands heap' (L.drop b.nodes) := by
  obtain ⟨hnode', hrest⟩ := List.nodup_cons.1 hb.nodup
  obtain ⟨hhead, hlists⟩ := List.nodup_cons.1 hrest
  rw [List.mem_cons, not_or] at hnode'
  have hloop := Stands.listForEachSafe (P := fun ls L =>
      L.list (.opsgroup b.addr) = some (ls.map ListAt.node) ∧ ls ⊆ b.lists ∧
      (Node.opsgroup b.addr :: ls.flatMap ListAt.nodes).Nodup ∧
      ∀ l ∈ ls, L.list (.ops l.addr) = some (l.ops.map OpAt.node))
    (S := ListAt.nodes) (B := destroyList fuel) (fun _ _ hP => hP.1) ?_ hfuel
    ⟨hb.head, List.Subset.refl _, hrest, hb.lists⟩ h
  · obtain ⟨heap₁, hrun, h₁, hnil, -⟩ := hloop
    obtain ⟨heap₂, hfree, h₂⟩ := h₁.free_drop (hnode.drop hnode'.2)
    obtain ⟨heap₃, hfree', h₃⟩ := h₂.free_drop
      ((h₁.loose_of_nil hnil).drop (by simp [GroupAt.node]))
    refine ⟨heap₃, ?_, ?_⟩
    · rw [← hfree']
      simp only [GroupAt.node] at hfree
      simp only [fileOpsGroupDestroy, hrun, hfree, Option.bind_eq_bind, Option.bind_some]
    · rw [HeadLists.drop_append, HeadLists.drop_append] at h₃
      have hmem : ∀ x, x ∈ b.lists.flatMap ListAt.nodes ++ ([b.node] ++ [.opsgroup b.addr]) ↔
          x ∈ b.nodes := by
        intro x
        simp only [GroupAt.nodes, List.mem_append, List.mem_cons, List.not_mem_nil, or_false]
        exact or_comm.trans or_assoc
      rwa [HeadLists.drop_congr hmem] at h₃
  · rintro l ls L heap ⟨hhead, hsub, hnodup, hlists⟩ h
    rw [List.flatMap_cons, ← List.cons_append] at hnodup
    obtain ⟨hnodup', hls, hapart⟩ := List.nodup_append'.1 hnodup
    obtain ⟨hout, hl⟩ := List.nodup_cons.1 hnodup'
    have hlinked : L.Linked l.node := Or.inl ⟨_, _, hhead, List.mem_cons_self⟩
    obtain ⟨heap', hrun, h'⟩ := destroyList_eq h hlinked (hlists l List.mem_cons_self) hl
      (hfuel' l (hsub List.mem_cons_self))
    refine ⟨heap', hrun, h', ?_, fun x hx => hsub (List.mem_cons_of_mem l hx), ?_, ?_⟩
    · refine HeadLists.drop_list_cons hout hhead List.mem_cons_self ?_
      rintro x hx hmem
      obtain ⟨k, hk, rfl⟩ := List.mem_map.1 hx
      exact hapart (List.mem_cons_of_mem _ hmem)
        (List.mem_flatMap.2 ⟨k, hk, List.mem_cons_self⟩)
    · refine List.nodup_cons.2 ⟨fun hmem => hapart List.mem_cons_self hmem, hls⟩
    · intro k hk
      have hnodes : ∀ x ∈ k.nodes, x ∉ l.nodes := fun x hx hmem =>
        hapart (List.mem_cons_of_mem _ hmem) (List.mem_flatMap.2 ⟨k, hk, hx⟩)
      refine HeadLists.drop_list (hnodes _ (by simp [ListAt.nodes]))
        (hlists k (List.mem_cons_of_mem l hk)) fun x hx => hnodes x ?_
      exact List.mem_cons_of_mem _ (List.mem_cons_of_mem _ hx)

/-- The nodes `new` came into the memory, no other list changed but those of `heads`, and a list
has no other new members. -/
structure Extends (m m' : Memory) (L L' : HeadLists Node) (new heads : List Node) : Prop where
  stands : Stands m'.heap L'
  live : ∀ c, L'.live c = true ↔ L.live c = true ∨ c ∈ new
  list : ∀ c, c ∉ new → c ∉ heads → L'.list c = L.list c
  members : ∀ c r, L'.list c = some r → ∀ x ∈ r, x ∈ new ∨ ∃ r', L.list c = some r' ∧ x ∈ r'
  group : ∀ g, .groupList g ∉ new → m'.group g = m.group g
  fields : ∀ l, .opGroup l ∉ new → m'.list l = m.list l
  op : ∀ f, .oplist f ∉ new → m'.op f = m.op f

variable {new new' heads heads' done : List Node} {g : ℕ} {i : CInt} {fs : List OpAt}
  {ls : List ListAt}

theorem Extends.refl (h : Stands m.heap L) : Extends m m L L [] heads :=
  ⟨h, by simp, fun _ _ _ => rfl, fun _ r hc _ hx => Or.inr ⟨r, hc, hx⟩, fun _ _ => rfl,
    fun _ _ => rfl, fun _ _ => rfl⟩

theorem Extends.trans (h : Extends m m' L L' new heads) (h' : Extends m' m'' L' L'' new' heads')
    (hheads : ∀ c ∈ heads', c ∈ new ∨ c ∈ heads) :
    Extends m m'' L L'' (new ++ new') heads where
  stands := h'.stands
  live := fun c => by rw [h'.live, h.live, List.mem_append, or_assoc]
  list := by
    intro c hc hhead
    rw [List.mem_append, not_or] at hc
    have hout : c ∉ heads' := fun hmem => (hheads c hmem).elim hc.1 hhead
    rw [h'.list c hc.2 hout, h.list c hc.1 hhead]
  members := by
    intro c r hc x hx
    rw [List.mem_append]
    rcases h'.members c r hc x hx with hnew | ⟨r', hc', hx'⟩
    · exact Or.inl (Or.inr hnew)
    · exact (h.members c r' hc' x hx').imp_left Or.inl
  group := by
    intro g hg
    rw [List.mem_append, not_or] at hg
    rw [h'.group g hg.2, h.group g hg.1]
  fields := by
    intro l hl
    rw [List.mem_append, not_or] at hl
    rw [h'.fields l hl.2, h.fields l hl.1]
  op := by
    intro f hf
    rw [List.mem_append, not_or] at hf
    rw [h'.op f hf.2, h.op f hf.1]

theorem Extends.dead (h : Extends m m' L L' new heads) {c : Node} (hc : L.live c ≠ true)
    (hnew : c ∉ new) : L'.live c ≠ true := by
  rw [ne_eq, h.live, not_or]
  exact ⟨hc, hnew⟩

theorem addOp (h : Stands m.heap L) (hdead : L.live f.node ≠ true) {l : ℕ}
    (hl : L.list (.ops l) = some done) :
    ∃ m' heap L', fileOpNew f m = some m' ∧ listAddTail f.node (.ops l) m'.heap = some heap ∧
      Extends m { m' with heap := heap } L L' [f.node] [.ops l] ∧
      L'.list (.ops l) = some (done ++ [f.node]) ∧ m'.op f.addr = f.op := by
  obtain ⟨heap, heap', hinit, hadd, h'⟩ := h.mallocAddTail hdead hl .null .null
  refine ⟨{ m with heap, op := Function.update m.op f.addr f.op }, heap', _, ?_, hadd,
    ⟨h', ?_, ?_, ?_, fun _ _ => rfl, fun _ _ => rfl, ?_⟩, Function.update_self ..,
    Function.update_self ..⟩
  · simp [fileOpNew, calloc, hinit]
  · intro c
    by_cases hc : c = f.node <;> simp [hc]
  · intro c hc hhead
    rw [List.mem_singleton] at hc hhead
    simp only [Function.update_of_ne hhead, Function.update_of_ne hc]
  · intro c r hc x hx
    dsimp only at hc
    by_cases hch : c = .ops l
    · rw [hch, Function.update_self, Option.some.injEq] at hc
      subst hc
      rcases List.mem_append.1 hx with hx | hx
      · exact Or.inr ⟨done, hch ▸ hl, hx⟩
      · exact Or.inl hx
    · rw [Function.update_of_ne hch] at hc
      by_cases hcf : c = f.node
      · simp [hcf] at hc
      · rw [Function.update_of_ne hcf] at hc
        exact Or.inr ⟨r, hc, hx⟩
  · intro k hk
    refine Function.update_of_ne ?_ ..
    rintro rfl
    exact hk List.mem_cons_self

theorem addOps_eq (h : Stands m.heap L) {l : ℕ} (hl : L.list (.ops l) = some done)
    (hdead : ∀ f ∈ fs, L.live f.node ≠ true) (hnodup : (fs.map OpAt.node).Nodup) :
    ∃ m' L', addOps l fs m = some m' ∧ Extends m m' L L' (fs.map OpAt.node) [.ops l] ∧
      L'.list (.ops l) = some (done ++ fs.map OpAt.node) ∧ ∀ f ∈ fs, m'.op f.addr = f.op := by
  induction fs generalizing m L done with
  | nil => exact ⟨m, L, rfl, .refl h, by simpa using hl, by simp⟩
  | cons f fs ih =>
    obtain ⟨hf, hfs⟩ := List.nodup_cons.1 hnodup
    obtain ⟨m₁, heap, L₁, hnew, hadd, hext, hl₁, hop⟩ := addOp h (hdead f List.mem_cons_self) hl
    have hdead₁ : ∀ k ∈ fs, L₁.live k.node ≠ true := by
      intro k hk
      refine hext.dead (hdead k (List.mem_cons_of_mem f hk)) ?_
      rw [List.mem_singleton]
      exact fun heq => hf (heq ▸ List.mem_map_of_mem hk)
    obtain ⟨m', L', hrun, hext', hl', hops⟩ := ih hext.stands hl₁ hdead₁ hfs
    refine ⟨m', L', ?_, hext.trans hext' (by simp), ?_, ?_⟩
    · simp only [addOps, hnew, hadd, Option.bind_eq_bind, Option.bind_some, hrun]
    · rw [hl', List.append_assoc, List.map_cons, List.singleton_append]
    · intro k hk
      rcases List.mem_cons.1 hk with rfl | hk
      · rw [hext'.op k.addr hf, hop]
      · exact hops k hk

structure ListAt.Loaded (m : Memory) (l : ListAt) : Prop where
  fields : m.list l.addr = l.fields
  ops : ∀ f ∈ l.ops, m.op f.addr = f.op

theorem ListAt.Loaded.extends (hl : l.Loaded m) (h : Extends m m' L L' new heads)
    (hout : ∀ x ∈ l.nodes, x ∉ new) : l.Loaded m' := by
  refine ⟨?_, fun f hf => ?_⟩
  · rw [h.fields l.addr (hout _ List.mem_cons_self), hl.fields]
  · have hmem : f.node ∈ l.nodes :=
      List.mem_cons_of_mem _ (List.mem_cons_of_mem _ (List.mem_map_of_mem hf))
    rw [h.op f.addr (hout _ hmem), hl.ops f hf]

theorem members_pair {S : List Node} {a b : Node} (c : Node) (r : List Node)
    (hc : Function.update (Function.update L.list a (some [])) b (some []) c = some r) (x : Node)
    (hx : x ∈ r) : x ∈ S ∨ ∃ r', L.list c = some r' ∧ x ∈ r' := by
  simp only [Function.update_apply] at hc
  split_ifs at hc
  · exact absurd (Option.some.inj hc ▸ hx) List.not_mem_nil
  · exact absurd (Option.some.inj hc ▸ hx) List.not_mem_nil
  · exact Or.inr ⟨r, hc, hx⟩

theorem fileOplistCreate_eq (h : Stands m.heap L) (hgiven : l.given = true)
    (hdead : ∀ x ∈ l.nodes, L.live x ≠ true) (hnodup : l.nodes.Nodup) :
    ∃ m' L', fileOplistCreate l m = some (l.node, m') ∧ Extends m m' L L' l.nodes [] ∧
      L'.list l.node = some [] ∧ L'.list (.ops l.addr) = some (l.ops.map OpAt.node) ∧
      l.Loaded m' := by
  obtain ⟨hnode, hops⟩ := List.nodup_cons.1 hnodup
  obtain ⟨hhead, hops⟩ := List.nodup_cons.1 hops
  rw [List.mem_cons, not_or] at hnode
  have hdead' : ∀ x ∈ l.ops.map OpAt.node, L.live x ≠ true := fun x hx =>
    hdead x (List.mem_cons_of_mem _ (List.mem_cons_of_mem _ hx))
  obtain ⟨heap, heap', hinit, hinit', h'⟩ := h.mallocInit_pair (hdead _ List.mem_cons_self)
    (hdead (.ops l.addr) (by simp [ListAt.nodes])) hnode.1 .null .null
  have hext : Extends m { m with heap := heap', list := Function.update m.list l.addr l.fields } L
      ⟨Function.update (Function.update L.live l.node true) (.ops l.addr) true,
        Function.update (Function.update L.list l.node (some [])) (.ops l.addr) (some [])⟩
      [l.node, .ops l.addr] [] := by
    refine ⟨h', fun c => ?_, fun c hc _ => ?_, members_pair, fun _ _ => rfl, fun k hk => ?_,
      fun _ _ => rfl⟩
    · by_cases hc : c = l.node <;> by_cases hc' : c = .ops l.addr <;>
        simp [hc, hc', Function.update_apply]
    · simp only [List.mem_cons, List.not_mem_nil, or_false, not_or] at hc
      simp only [Function.update_of_ne hc.1, Function.update_of_ne hc.2]
    · refine Function.update_of_ne ?_ ..
      rintro rfl
      exact hk List.mem_cons_self
  have hnil : Function.update (Function.update L.list l.node (some [])) (.ops l.addr) (some [])
      (.ops l.addr) = some [] := Function.update_self ..
  have hout : ∀ x ∈ l.ops.map OpAt.node, x ∉ [l.node, .ops l.addr] := by
    intro x hx
    simp only [List.mem_cons, List.not_mem_nil, or_false, not_or]
    exact ⟨fun heq => hnode.2 (heq ▸ hx), fun heq => hhead (heq ▸ hx)⟩
  obtain ⟨m', L', hrun, hext', hl', hops'⟩ := addOps_eq hext.stands hnil
    (fun f hf => hext.dead (hdead' _ (List.mem_map_of_mem hf)) (hout _ (List.mem_map_of_mem hf)))
    hops
  refine ⟨m', L', ?_, hext.trans hext' (by simp), ?_, by simpa using hl', ?_, hops'⟩
  · simp only [fileOplistCreate, hgiven, if_true, fillOplist, calloc, hinit, hinit',
      Option.bind_eq_bind, Option.bind_some, hrun, Option.map_some]
  · rw [hext'.list _ hnode.2 (by simp [ListAt.node])]
    simp [ListAt.node]
  · rw [hext'.fields l.addr hnode.2]
    exact Function.update_self ..

theorem addList (h : Stands m.heap L) (hgiven : l.given = true)
    (hdead : ∀ x ∈ l.nodes, L.live x ≠ true) (hnodup : l.nodes.Nodup)
    (hg : L.list (.opsgroup g) = some done) :
    ∃ m' heap L', fileOplistCreate l m = some (l.node, m') ∧
      listAddTail l.node (.opsgroup g) m'.heap = some heap ∧
      Extends m { m' with heap := heap } L L' l.nodes [.opsgroup g] ∧
      L'.list (.opsgroup g) = some (done ++ [l.node]) ∧
      L'.list (.ops l.addr) = some (l.ops.map OpAt.node) ∧ l.Loaded m' := by
  have hout : Node.opsgroup g ∉ l.nodes := fun hmem =>
    h.notMem_of_dead (hdead _ hmem) hg List.mem_cons_self
  obtain ⟨m', L', hnew, hext, hnode, hops, hload⟩ := fileOplistCreate_eq h hgiven hdead hnodup
  have hg' : L'.list (.opsgroup g) = some done := by
    rw [hext.list _ hout List.not_mem_nil, hg]
  obtain ⟨heap, hadd, h'⟩ := hext.stands.listAddTail hg' (hext.stands.loose_of_nil hnode)
    (by simp [ListAt.node])
  refine ⟨m', heap, _, hnew, hadd,
    ⟨h', hext.live, fun c hc hhead => ?_, fun c r hc x hx => ?_, hext.group, hext.fields, hext.op⟩,
    ?_, ?_, hload⟩
  · rw [List.mem_singleton] at hhead
    have hne : c ≠ l.node := fun heq => hc (heq ▸ List.mem_cons_self)
    simp only [Function.update_of_ne hhead, Function.update_of_ne hne]
    exact hext.list c hc List.not_mem_nil
  · dsimp only at hc
    by_cases hch : c = .opsgroup g
    · rw [hch, Function.update_self, Option.some.injEq] at hc
      subst hc
      rcases List.mem_append.1 hx with hx | hx
      · exact Or.inr ⟨done, hch ▸ hg, hx⟩
      · exact Or.inl (List.mem_singleton.1 hx ▸ List.mem_cons_self)
    · rw [Function.update_of_ne hch] at hc
      by_cases hcl : c = l.node
      · simp [hcl] at hc
      · rw [Function.update_of_ne hcl] at hc
        exact hext.members c r hc x hx
  · exact Function.update_self ..
  · simpa [ListAt.node, Function.update_apply] using hops

theorem addLists_eq (h : Stands m.heap L) (hg : L.list (.opsgroup g) = some done)
    (hgiven : ∀ l ∈ ls, l.given = true) (hdead : ∀ x ∈ ls.flatMap ListAt.nodes, L.live x ≠ true)
    (hnodup : (ls.flatMap ListAt.nodes).Nodup) :
    ∃ m' L', addLists g ls m = some m' ∧
      Extends m m' L L' (ls.flatMap ListAt.nodes) [.opsgroup g] ∧
      L'.list (.opsgroup g) = some (done ++ ls.map ListAt.node) ∧
      ∀ l ∈ ls, L'.list (.ops l.addr) = some (l.ops.map OpAt.node) ∧ l.Loaded m' := by
  induction ls generalizing m L done with
  | nil => exact ⟨m, L, rfl, .refl h, by simpa using hg, by simp⟩
  | cons l ls ih =>
    rw [List.flatMap_cons] at hdead hnodup
    obtain ⟨hl, hls, hapart⟩ := List.nodup_append'.1 hnodup
    obtain ⟨m₁, heap, L₁, hnew, hadd, hext, hg₁, hops, hload⟩ := addList h
      (hgiven l List.mem_cons_self) (fun x hx => hdead x (List.mem_append_left _ hx)) hl hg
    obtain ⟨m', L', hrun, hext', hg', hrest⟩ := ih hext.stands hg₁
      (fun k hk => hgiven k (List.mem_cons_of_mem l hk))
      (fun x hx => hext.dead (hdead x (List.mem_append_right _ hx)) fun hx' => hapart hx' hx) hls
    refine ⟨m', L', ?_, hext.trans hext' (by simp), ?_, ?_⟩
    · simp only [addLists, hnew, hadd, Option.bind_eq_bind, Option.bind_some, hrun]
    · rw [hg', List.append_assoc, List.map_cons, List.singleton_append]
    · intro k hk
      rcases List.mem_cons.1 hk with rfl | hk
      · refine ⟨?_, ?_⟩
        · rw [hext'.list _ (fun hx => hapart (by simp [ListAt.nodes]) hx) (by simp), hops]
        · have hload' : k.Loaded { m₁ with heap := heap } := ⟨hload.fields, hload.ops⟩
          exact hload'.extends hext' fun x hx hx' => hapart hx hx'
      · exact hrest k hk

theorem addLists_null (h : Stands m.heap L) (hg : L.list (.opsgroup g) = some done)
    (hgiven : ∃ l ∈ ls, l.given = false) (hdead : ∀ x ∈ ls.flatMap ListAt.nodes, L.live x ≠ true)
    (hnodup : (ls.flatMap ListAt.nodes).Nodup) (hnull : L.live .null ≠ true) :
    addLists g ls m = none := by
  induction ls generalizing m L done with
  | nil =>
    obtain ⟨l, hl, -⟩ := hgiven
    cases hl
  | cons l ls ih =>
    rw [List.flatMap_cons] at hdead hnodup
    obtain ⟨hl, hls, hapart⟩ := List.nodup_append'.1 hnodup
    cases hfirst : l.given with
    | false =>
      have hput : listAddTail Node.null (.opsgroup g) m.heap = none := by
        rw [← h.live] at hnull
        simp [listAddTail, putNext, hnull]
      simp [addLists, fileOplistCreate, hfirst, hput]
    | true =>
      obtain ⟨m₁, heap, L₁, hnew, hadd, hext, hg₁, -, -⟩ := addList h hfirst
        (fun x hx => hdead x (List.mem_append_left _ hx)) hl hg
      have hrest : ∃ k ∈ ls, k.given = false := by
        obtain ⟨k, hk, hnot⟩ := hgiven
        rcases List.mem_cons.1 hk with rfl | hk
        · rw [hfirst] at hnot
          cases hnot
        · exact ⟨k, hk, hnot⟩
      have hnone := ih hext.stands hg₁ hrest
        (fun x hx => hext.dead (hdead x (List.mem_append_right _ hx)) fun hx' => hapart hx' hx) hls
        (hext.dead hnull (by simp [ListAt.nodes, ListAt.node, OpAt.node]))
      simp only [addLists, hnew, hadd, Option.bind_eq_bind, Option.bind_some, hnone]

structure GroupAt.Loaded (m : Memory) (b : GroupAt) (i : CInt) : Prop where
  group : m.group b.addr = i
  lists : ∀ l ∈ b.lists, l.Loaded m

def GroupAt.Given (b : GroupAt) : Prop := ∀ l ∈ b.lists, l.given = true

theorem fileOpsGroupNew_start (h : Stands m.heap L) (hdead : ∀ x ∈ b.nodes, L.live x ≠ true)
    (hnodup : b.nodes.Nodup) (i : CInt) :
    ∃ m' L', fileOpsGroupNew i b m = addLists b.addr b.lists m' ∧
      Extends m m' L L' [b.node, .opsgroup b.addr] [] ∧
      L'.list (.opsgroup b.addr) = some [] ∧ L'.list b.node = some [] ∧ m'.group b.addr = i ∧
      ∀ x ∈ b.lists.flatMap ListAt.nodes, L'.live x ≠ true := by
  obtain ⟨hnode, hlists⟩ := List.nodup_cons.1 hnodup
  obtain ⟨hhead, hlists⟩ := List.nodup_cons.1 hlists
  rw [List.mem_cons, not_or] at hnode
  obtain ⟨heap, heap', hinit, hinit', h'⟩ := h.mallocInit_pair
    (hdead (.opsgroup b.addr) (by simp [GroupAt.nodes])) (hdead _ List.mem_cons_self)
    (Ne.symm hnode.1) .null .null
  have hext : Extends m { m with heap := heap', group := Function.update m.group b.addr i } L
      ⟨Function.update (Function.update L.live (.opsgroup b.addr) true) b.node true,
        Function.update (Function.update L.list (.opsgroup b.addr) (some [])) b.node (some [])⟩
      [b.node, .opsgroup b.addr] [] := by
    refine ⟨h', fun c => ?_, fun c hc _ => ?_, members_pair, fun k hk => ?_, fun _ _ => rfl,
      fun _ _ => rfl⟩
    · by_cases hc : c = b.node <;> by_cases hc' : c = .opsgroup b.addr <;>
        simp [hc, hc', Function.update_apply]
    · simp only [List.mem_cons, List.not_mem_nil, or_false, not_or] at hc
      simp only [Function.update_of_ne hc.1, Function.update_of_ne hc.2]
    · refine Function.update_of_ne ?_ ..
      rintro rfl
      exact hk List.mem_cons_self
  refine ⟨_, _, ?_, hext, ?_, Function.update_self .., Function.update_self .., fun x hx => ?_⟩
  · simp only [fileOpsGroupNew, calloc, hinit, hinit', Option.bind_eq_bind, Option.bind_some]
  · dsimp only
    rw [Function.update_of_ne (Ne.symm hnode.1), Function.update_self]
  · refine hext.dead (hdead x (List.mem_cons_of_mem _ (List.mem_cons_of_mem _ hx))) ?_
    simp only [List.mem_cons, List.not_mem_nil, or_false, not_or]
    exact ⟨fun heq => hnode.2 (heq ▸ hx), fun heq => hhead (heq ▸ hx)⟩

theorem fileOpsGroupNew_eq (h : Stands m.heap L) (hgiven : b.Given)
    (hdead : ∀ x ∈ b.nodes, L.live x ≠ true) (hnodup : b.nodes.Nodup) :
    ∃ m' L', fileOpsGroupNew i b m = some m' ∧ Extends m m' L L' b.nodes [] ∧ Owns L' b ∧
      L'.list b.node = some [] ∧ b.Loaded m' i := by
  obtain ⟨m₁, L₁, hstart, hext, hhead, hnil, hindex, hdead₁⟩ :=
    fileOpsGroupNew_start h hdead hnodup i
  obtain ⟨hnode, hlists⟩ := List.nodup_cons.1 hnodup
  rw [List.mem_cons, not_or] at hnode
  obtain ⟨m', L', hrun, hext', hg, hall⟩ := addLists_eq hext.stands hhead hgiven hdead₁
    (List.nodup_cons.1 hlists).2
  have hwhole := hext.trans hext' (by simp)
  refine ⟨m', L', hstart.trans hrun, hwhole,
    ⟨hnodup, fun x hx => ?_, by simpa using hg, fun l hl => (hall l hl).1⟩,
    ?_, ?_, fun l hl => (hall l hl).2⟩
  · exact (hwhole.live x).2 (Or.inr hx)
  · rw [hext'.list _ hnode.2 (by simp [GroupAt.node]), hnil]
  · rw [hext'.group b.addr hnode.2, hindex]

theorem fileOpsGroupNew_null (h : Stands m.heap L) (hgiven : ¬b.Given)
    (hdead : ∀ x ∈ b.nodes, L.live x ≠ true) (hnodup : b.nodes.Nodup)
    (hnull : L.live .null ≠ true) : fileOpsGroupNew i b m = none := by
  obtain ⟨m₁, L₁, hstart, hext, hhead, -, -, hdead₁⟩ := fileOpsGroupNew_start h hdead hnodup i
  have hlists := (List.nodup_cons.1 (List.nodup_cons.1 hnodup).2).2
  have hmissing : ∃ l ∈ b.lists, l.given = false := by
    simpa [GroupAt.Given] using hgiven
  rw [hstart]
  exact addLists_null hext.stands hhead hmissing hdead₁ hlists
    (hext.dead hnull (by simp [GroupAt.node]))

end MyScripts.Shark.GroupMemory
