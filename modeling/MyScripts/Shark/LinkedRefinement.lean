import MyScripts.Shark.LinkedPipeline

/-!
# The queue in memory is a queue of groups

At any time the allocated memory is that of the groups in the queue, of the one
the writer has and of the one the generator has made. The node the writer holds
on to is the first of the queue, or the head, since nobody else takes groups off.
-/
namespace MyScripts.Shark.GroupMemory
open Library.CircularList Library.Decimal Library.Run ListHead Journal

structure Placed extends GroupAt where
  index : CInt

def Placed.group (b : Placed) : Group :=
  ⟨b.lists.map ListAt.opList, b.index, by simpa using b.nonempty⟩

variable {m m' m'' : Memory} {L L' : HeadLists Node} {b : GroupAt} {p : Placed}
  {gs gs' : List Placed} {new heads : List Node} {x : Node} {fuel : ℕ}

structure Holds (m : Memory) (L : HeadLists Node) (gs : List Placed) : Prop where
  stands : Stands m.heap L
  nodup : (gs.flatMap (·.nodes)).Nodup
  live : ∀ x, L.live x = true ↔ x = .groupQueue ∨ x ∈ gs.flatMap (·.nodes)
  owns : ∀ p ∈ gs, Owns L p.toGroupAt
  loaded : ∀ p ∈ gs, p.Loaded m p.index

theorem Holds.perm (h : Holds m L gs) (hp : gs.Perm gs') : Holds m L gs' where
  stands := h.stands
  nodup := (hp.flatMap_right _).nodup_iff.1 h.nodup
  live := fun x => by rw [h.live, (hp.flatMap_right _).mem_iff]
  owns := fun p hmem => h.owns p (hp.mem_iff.2 hmem)
  loaded := fun p hmem => h.loaded p (hp.mem_iff.2 hmem)

theorem opsgroup_mem (b : GroupAt) : Node.opsgroup b.addr ∈ b.nodes :=
  List.mem_cons_of_mem _ List.mem_cons_self

theorem listNode_mem {l : ListAt} (hl : l ∈ b.lists) : ∀ x ∈ l.nodes, x ∈ b.nodes := fun _ hx =>
  List.mem_cons_of_mem _ (List.mem_cons_of_mem _ (List.mem_flatMap.2 ⟨l, hl, hx⟩))

theorem ops_mem (l : ListAt) : Node.ops l.addr ∈ l.nodes :=
  List.mem_cons_of_mem _ List.mem_cons_self

theorem opNode_mem {l : ListAt} : ∀ x ∈ l.ops.map OpAt.node, x ∈ l.nodes := fun _ hx =>
  List.mem_cons_of_mem _ (List.mem_cons_of_mem _ hx)

theorem Owns.congr (h : Owns L b) (hlive : ∀ x ∈ b.nodes, L'.live x = L.live x)
    (hlist : ∀ x ∈ b.nodes, x ≠ b.node → ∀ r, L.list x = some r → (∀ y ∈ r, y ∈ b.nodes) →
      L'.list x = some r) : Owns L' b where
  nodup := h.nodup
  live := fun x hx => by rw [hlive x hx, h.live x hx]
  head := by
    refine hlist _ (opsgroup_mem b) (by simp [GroupAt.node]) _ h.head fun y hy => ?_
    obtain ⟨l, hl, rfl⟩ := List.mem_map.1 hy
    exact listNode_mem hl _ List.mem_cons_self
  lists := fun l hl => hlist _ (listNode_mem hl _ (ops_mem l)) (by simp [GroupAt.node]) _
    (h.lists l hl) fun y hy => listNode_mem hl y (opNode_mem y hy)

theorem Extends.owns (h : Extends m m' L L' new []) (hb : Owns L b)
    (hout : ∀ x ∈ b.nodes, x ∉ new) :
    Owns L' b := by
  refine hb.congr (fun x hx => ?_) fun x hx _ r hr _ => ?_
  · rw [hb.live x hx, h.live]
    exact Or.inl (hb.live x hx)
  · rw [h.list x (hout x hx) List.not_mem_nil, hr]

theorem GroupAt.Loaded.extends {i : CInt} (hb : b.Loaded m i) (h : Extends m m' L L' new heads)
    (hout : ∀ x ∈ b.nodes, x ∉ new) : b.Loaded m' i where
  group := by rw [h.group b.addr (hout _ List.mem_cons_self), hb.group]
  lists := fun l hl => (hb.lists l hl).extends h fun x hx => hout x (listNode_mem hl x hx)

theorem Extends.loose (h : Extends m m' L L' new []) (hx : L.Loose x) (hout : x ∉ new) :
    L'.Loose x := by
  refine ⟨(h.live x).2 (Or.inl hx.1), fun c r hc hmem => ?_⟩
  rcases List.mem_cons.1 hmem with rfl | hmem
  · rw [h.list x hout List.not_mem_nil] at hc
    exact hx.2 x r hc List.mem_cons_self
  · rcases h.members c r hc x hmem with hnew | ⟨r', hr', hmem'⟩
    · exact absurd hnew hout
    · obtain ⟨-, rfl⟩ := hx.2 c r' hr' (List.mem_cons_of_mem c hmem')
      exact absurd hmem' List.not_mem_nil

theorem Holds.build (h : Holds m L gs) (hgiven : p.Given) (hfresh : p.Fresh m.heap) :
    ∃ m' L', fileOpsGroupNew p.index p.toGroupAt m = some m' ∧ Holds m' L' (p :: gs) ∧
      L'.Loose p.node ∧ L'.list .groupQueue = L.list .groupQueue ∧
      ∀ x, x ∉ p.nodes → L.Loose x → L'.Loose x := by
  have hdead : ∀ x ∈ p.nodes, L.live x ≠ true := fun x hx => by
    rw [← h.stands.live, hfresh.2 x hx]
    exact nofun
  obtain ⟨m', L', hnew, hext, howns, hnil, hload⟩ :=
    fileOpsGroupNew_eq (i := p.index) h.stands hgiven hdead hfresh.1
  have hold : ∀ q ∈ gs, ∀ x ∈ q.nodes, x ∉ p.nodes := fun q hq x hx hx' =>
    hdead x hx' ((h.live x).2 (Or.inr (List.mem_flatMap.2 ⟨q, hq, hx⟩)))
  have hhead : Node.groupQueue ∉ p.nodes := fun hmem =>
    hdead _ hmem ((h.live _).2 (Or.inl rfl))
  refine ⟨m', L', hnew, ⟨hext.stands, ?_, fun x => ?_, fun q hq => ?_, fun q hq => ?_⟩,
    hext.stands.loose_of_nil hnil, hext.list _ hhead List.not_mem_nil,
    fun x hx hl => hext.loose hl hx⟩
  · rw [List.flatMap_cons, List.nodup_append']
    refine ⟨hfresh.1, h.nodup, fun x hx hx' => ?_⟩
    obtain ⟨q, hq, hx'⟩ := List.mem_flatMap.1 hx'
    exact hold q hq x hx' hx
  · rw [hext.live, h.live, List.flatMap_cons, List.mem_append, or_assoc, or_comm (a := x ∈ p.nodes)]
  · rcases List.mem_cons.1 hq with rfl | hq
    · exact howns
    · exact hext.owns (h.owns q hq) (hold q hq)
  · rcases List.mem_cons.1 hq with rfl | hq
    · exact hload
    · exact (h.loaded q hq).extends hext (hold q hq)

theorem Holds.build_null (h : Holds m L gs) (hgiven : ¬b.Given) (hfresh : b.Fresh m.heap)
    (i : CInt) : fileOpsGroupNew i b m = none := by
  have hdead : ∀ x ∈ b.nodes, L.live x ≠ true := fun x hx => by
    rw [← h.stands.live, hfresh.2 x hx]
    exact nofun
  refine fileOpsGroupNew_null h.stands hgiven hdead hfresh.1 ?_
  rw [ne_eq, h.live]
  simp [GroupAt.nodes, GroupAt.node, ListAt.nodes, ListAt.node, OpAt.node]

theorem groupQueue_notMem (b : GroupAt) : Node.groupQueue ∉ b.nodes := by
  simp [GroupAt.nodes, GroupAt.node, ListAt.nodes, ListAt.node, OpAt.node]

theorem eq_node_of_mem {b' : GroupAt} (h : b'.node ∈ b.nodes) : b'.node = b.node := by
  simpa [GroupAt.nodes, GroupAt.node, ListAt.nodes, ListAt.node, OpAt.node] using h

theorem Holds.handle (h : Holds m L gs) {r : List Node} (hp : L.Loose p.node)
    (hq : L.list .groupQueue = some r) :
    ∃ heap, listAddTail p.node .groupQueue m.heap = some heap ∧
      Holds { m with heap } ⟨L.live,
        Function.update (Function.update L.list p.node none) .groupQueue (some (r ++ [p.node]))⟩
        gs := by
  obtain ⟨heap, hadd, h'⟩ := h.stands.listAddTail hq hp (by simp [GroupAt.node])
  refine ⟨heap, hadd, h', h.nodup, h.live, fun q hmem => ?_, fun q hmem => ?_⟩
  · refine (h.owns q hmem).congr (fun _ _ => rfl) fun x hx hne s hs _ => ?_
    have hqueue : x ≠ .groupQueue := fun heq => groupQueue_notMem q.toGroupAt (heq ▸ hx)
    have hnode : x ≠ p.node := fun heq =>
      hne (heq.trans (eq_node_of_mem (heq ▸ hx)))
    dsimp only
    rw [Function.update_of_ne hqueue, Function.update_of_ne hnode, hs]
  · exact ⟨(h.loaded q hmem).group, fun l hl => ⟨((h.loaded q hmem).lists l hl).fields,
      ((h.loaded q hmem).lists l hl).ops⟩⟩

theorem Holds.take (h : Holds m L gs) (poison : Node × Node) {r : List Node}
    (hq : L.list .groupQueue = some (p.node :: r)) :
    ∃ heap, listDel poison p.node m.heap = some heap ∧
      Holds { m with heap } ⟨L.live,
        Function.update (fun c => (L.list c).map (·.erase p.node)) p.node none⟩ gs := by
  have hlinked : L.Linked p.node := Or.inl ⟨_, _, hq, List.mem_cons_self⟩
  obtain ⟨heap, hdel, h'⟩ := h.stands.listDel hlinked poison
  refine ⟨heap, hdel, h', h.nodup, h.live, fun q hmem => ?_, fun q hmem => ?_⟩
  · refine (h.owns q hmem).congr (fun _ _ => rfl) fun x hx hne s hs _ => ?_
    have hnode : x ≠ p.node := fun heq =>
      hne (heq.trans (eq_node_of_mem (heq ▸ hx)))
    have hqueue : x ≠ .groupQueue := fun heq => groupQueue_notMem q.toGroupAt (heq ▸ hx)
    have hout : p.node ∉ s := fun hmem' => hqueue
      (h.stands.apart p.node x .groupQueue ⟨s, hs, List.mem_cons_of_mem x hmem'⟩
        ⟨_, hq, List.mem_cons_of_mem _ List.mem_cons_self⟩)
    dsimp only
    rw [Function.update_of_ne hnode, hs, Option.map_some, List.erase_of_not_mem hout]
  · exact ⟨(h.loaded q hmem).group, fun l hl => ⟨((h.loaded q hmem).lists l hl).fields,
      ((h.loaded q hmem).lists l hl).ops⟩⟩

structure GroupAt.Bounded (b : GroupAt) (fuel : ℕ) : Prop where
  lists : b.lists.length < fuel
  ops : ∀ l ∈ b.lists, l.ops.length < fuel

theorem Holds.apart (h : Holds m L (p :: gs)) {q : Placed} (hq : q ∈ gs) :
    ∀ x ∈ q.nodes, x ∉ p.nodes := by
  have hnodup := h.nodup
  rw [List.flatMap_cons, List.nodup_append'] at hnodup
  exact fun x hx hx' => hnodup.2.2 hx' (List.mem_flatMap.2 ⟨q, hq, hx⟩)

theorem Holds.destroy (h : Holds m L (p :: gs)) (hp : L.Loose p.node) (hfuel : p.Bounded fuel) :
    ∃ heap, destroyGroup fuel p.node m.heap = some heap ∧
      Holds { m with heap } (L.drop p.nodes) gs := by
  obtain ⟨heap, hrun, h'⟩ := fileOpsGroupDestroy_eq h.stands (h.owns p List.mem_cons_self) hp
    hfuel.lists hfuel.ops
  have hnodup := h.nodup
  rw [List.flatMap_cons, List.nodup_append'] at hnodup
  have hout : ∀ q ∈ gs, ∀ x ∈ q.nodes, x ∉ p.nodes := fun q hq => h.apart hq
  refine ⟨heap, hrun, h', hnodup.2.1, fun x => ?_, fun q hq => ?_, fun q hq => ?_⟩
  · rw [HeadLists.drop_live, h.live, List.flatMap_cons, List.mem_append]
    have hqueue := groupQueue_notMem p.toGroupAt
    constructor
    · rintro ⟨hx | hx | hx, hx'⟩
      · exact Or.inl hx
      · exact absurd hx hx'
      · exact Or.inr hx
    · rintro (rfl | hx)
      · exact ⟨Or.inl rfl, hqueue⟩
      · exact ⟨Or.inr (Or.inr hx), fun hx' => hnodup.2.2 hx' hx⟩
  · refine (h.owns q (List.mem_cons_of_mem p hq)).congr (fun x hx => ?_) fun x hx _ r hr hmem => ?_
    · simp [HeadLists.drop, hout q hq x hx]
    · exact HeadLists.drop_list (hout q hq x hx) hr fun y hy => hout q hq y (hmem y hy)
  · have hload := h.loaded q (List.mem_cons_of_mem p hq)
    exact ⟨hload.group, fun l hl => ⟨(hload.lists l hl).fields, (hload.lists l hl).ops⟩⟩

theorem mapM_eq {α β γ : Type} {f : α → Option β} {g : γ → α} {k : γ → β} {cs : List γ}
    (h : ∀ c ∈ cs, f (g c) = some (k c)) : (cs.map g).mapM f = some (cs.map k) := by
  induction cs with
  | nil => rfl
  | cons c cs ih =>
    simp [h c List.mem_cons_self, ih fun d hd => h d (List.mem_cons_of_mem c hd)]

theorem Holds.readGroup (h : Holds m L gs) (hp : p ∈ gs) (hfuel : p.Bounded fuel) :
    readGroup fuel m p.node = some (p.index, p.lists.map ListAt.opList) := by
  have howns := h.owns p hp
  have hload := h.loaded p hp
  have hlive : ∀ x ∈ p.nodes, m.heap.live x = true := fun x hx => by
    rw [h.stands.live, howns.live x hx]
  have hread : ∀ l ∈ p.lists, readList fuel m l.node = some l.opList := by
    intro l hl
    have hops : ∀ f ∈ l.ops, readOp m f.node = some f.op := by
      intro f hf
      have hnode : m.heap.live (.oplist f.addr) = true :=
        hlive _ (listNode_mem hl _ (opNode_mem _ (List.mem_map_of_mem hf)))
      rw [OpAt.node, readOp, if_pos hnode, (hload.lists l hl).ops f hf]
    have hwalk := listForEach_eq (h.stands.lists _ _ (howns.lists l hl))
      (by simpa using hfuel.ops l hl)
    have hnode : m.heap.live (.opGroup l.addr) = true :=
      hlive _ (listNode_mem hl _ List.mem_cons_self)
    rw [ListAt.node, readList, if_pos hnode, hwalk]
    simp [mapM_eq hops, (hload.lists l hl).fields, ListAt.opList]
  have hwalk := listForEach_eq (h.stands.lists _ _ howns.head) (by simpa using hfuel.lists)
  have hnode : m.heap.live (.groupList p.addr) = true := hlive _ List.mem_cons_self
  rw [GroupAt.node, GroupMemory.readGroup, if_pos hnode, hwalk]
  simp [mapM_eq hread, hload.group]

def Next (tmp : Node) (more : Bool) (queue : List Placed) : Prop :=
  more = true ∧ (∃ p rest, queue = p :: rest ∧ tmp = p.node) ∨ more = false ∧ tmp = .groupQueue

inductive Follows : Writer → WriterPc → List Placed → Option Placed → Prop
  | top {queue} : Follows .top .top queue none
  | waiting {queue} : Follows .waiting .waiting queue none
  | awake {queue} : Follows .awake .awake queue none
  | write {queue} (p : Placed) {tmp more} (h : Next tmp more queue) :
      Follows (.write p.node tmp) (.write p.group more) queue (some p)
  | printing {queue} (rest) {tmp more} (h : Next tmp more queue) :
      Follows (.printing rest tmp) (.printing rest more) queue none
  | relock {queue tmp more} (h : Next tmp more queue) :
      Follows (.relock tmp) (.relock more) queue none
  | leaving {queue} : Follows .leaving .leaving queue none
  | exited {queue} : Follows .exited .exited queue none

/-- All groups in memory: those in the queue, the one the writer has taken off and not yet
destroyed, and the one that is made and not handed over. -/
def allGroups (queue : List Placed) (held built : Option Placed) : List Placed :=
  queue ++ (held.toList ++ built.toList)

structure Refines (fuel : ℕ) (c : Pointers) (s : State) (L : HeadLists Node) (queue : List Placed)
    (held built : Option Placed) : Prop where
  fault : c.fault = false
  outside : c.outside = .of s
  holds : Holds c.memory L (allGroups queue held built)
  bounded : ∀ p ∈ allGroups queue held built, p.Bounded fuel
  linked : L.list .groupQueue = some (queue.map (·.node))
  queued : s.queue = queue.map Placed.group
  follows : Follows c.writer s.writer queue held
  loose : ∀ p ∈ held.toList ++ built.toList, L.Loose p.node
  groupIndex : c.groupIndex = s.handed.length + built.toList.length
  group : c.group = built.map (·.addr)
  index : ∀ p ∈ built, p.index = GroupMemory.index s.handed.length

variable {c c' : Pointers} {s : State} {queue : List Placed} {held built : Option Placed}
  {poison : Node × Node} {w : Writer} {pc : WriterPc} {tmp : Node} {more : Bool}

theorem Next.append (h : Next tmp more queue) (p : Placed) : Next tmp more (queue ++ [p]) := by
  rcases h with ⟨hmore, q, rest, rfl, htmp⟩ | h
  · exact Or.inl ⟨hmore, q, rest ++ [p], rfl, htmp⟩
  · exact Or.inr h

theorem Follows.append (h : Follows w pc queue held) (p : Placed) :
    Follows w pc (queue ++ [p]) held := by
  cases h with
  | write q h => exact .write q (h.append p)
  | printing rest h => exact .printing rest (h.append p)
  | relock h => exact .relock (h.append p)
  | _ => constructor

theorem Follows.signal (h : Follows w pc queue held) : Follows w.signal pc.signal queue held := by
  cases h with
  | waiting => exact .awake
  | write q h => exact .write q h
  | printing rest h => exact .printing rest h
  | relock h => exact .relock h
  | _ => constructor

theorem refines_init (m : Memory) :
    Refines fuel (Pointers.init m) State.init
      ⟨fun n => n = .groupQueue, fun n => if n = .groupQueue then some [] else none⟩
      [] none none where
  fault := rfl
  outside := rfl
  holds := by
    refine ⟨⟨rfl, fun h l hl => ?_, ?_⟩, List.nodup_nil, by simp [allGroups], by simp [allGroups],
      by simp [allGroups]⟩
    · dsimp only at hl
      split_ifs at hl with hh
      subst hh
      cases hl
      exact ⟨⟨rfl, rfl⟩, List.nodup_singleton _, by simp [Pointers.init, startHeap]⟩
    · rintro a h h' ⟨l, hl, -⟩ ⟨l', hl', -⟩
      dsimp only at hl hl'
      split_ifs at hl hl' with hh hh'
      exact hh.trans hh'.symm
  bounded := by simp [allGroups]
  linked := rfl
  queued := rfl
  follows := .top
  loose := by simp
  groupIndex := rfl
  group := rfl
  index := by simp

/-- The groups of the other machine are in memory. -/
def Stores (fuel : ℕ) (c : Pointers) (s : State) : Prop :=
  ∃ L queue held built, Refines fuel c s L queue held built

section Perm

variable {r rest : List Placed}

theorem allGroups_build :
    (p :: allGroups queue held none).Perm (allGroups queue held (some p)) := by
  simp only [allGroups, Option.toList_none, List.append_nil, Option.toList_some,
    ← List.append_assoc]
  exact (List.perm_append_singleton p _).symm

theorem allGroups_handle :
    (allGroups queue held (some p)).Perm (allGroups (queue ++ [p]) held none) := by
  simp only [allGroups, Option.toList_none, List.append_nil, Option.toList_some, List.append_assoc]
  exact List.perm_append_comm.append_left queue

theorem allGroups_take :
    (allGroups (p :: queue) none built).Perm (allGroups queue (some p) built) := by
  simp only [allGroups, Option.toList_none, List.nil_append, Option.toList_some, List.cons_append]
  exact List.perm_middle.symm

theorem allGroups_destroy :
    (allGroups queue (some p) built).Perm (p :: allGroups queue none built) := by
  simp only [allGroups, Option.toList_none, List.nil_append, Option.toList_some, List.cons_append]
  exact List.perm_middle

end Perm

theorem Refines.build_null (h : Refines fuel c s L queue held built) (hgiven : ¬b.Given)
    (hstep : c.build b = some c') : c'.fault = true := by
  rw [Pointers.build, Option.ite_none_right_eq_some, Option.some.injEq] at hstep
  obtain ⟨⟨-, hfresh⟩, rfl⟩ := hstep
  rw [h.holds.build_null hgiven hfresh]
  rfl

theorem Refines.build (h : Refines fuel c s L queue held built) (hgiven : b.Given)
    (hb : b.Bounded fuel) (hstep : c.build b = some c') : Stores fuel c' s := by
  rw [Pointers.build, Option.ite_none_right_eq_some, Option.some.injEq] at hstep
  obtain ⟨⟨hgroup, hfresh⟩, rfl⟩ := hstep
  obtain rfl : built = none := by
    rw [h.group, Option.map_eq_none_iff] at hgroup
    exact hgroup
  let p : Placed := ⟨b, GroupMemory.index c.groupIndex⟩
  obtain ⟨m', L', hnew, hholds, hloose, hqueue, hkeep⟩ := h.holds.build (p := p) hgiven hfresh
  have hindex : c.groupIndex = s.handed.length := h.groupIndex
  rw [show fileOpsGroupNew (GroupMemory.index c.groupIndex) b c.memory = some m' from hnew,
    Pointers.access_some]
  refine ⟨L', queue, held, some p, h.fault, h.outside, hholds.perm allGroups_build, ?_, ?_,
    h.queued, h.follows, ?_, ?_, rfl, ?_⟩
  · intro q hq
    rcases List.mem_cons.1 (allGroups_build.mem_iff.2 hq) with rfl | hq
    · exact hb
    · exact h.bounded q hq
  · rw [hqueue, h.linked]
  · intro q hq
    rcases List.mem_append.1 hq with hq | hq
    · have hold : q.node ∉ p.nodes := by
        intro hmem
        have hlive := (h.loose q (List.mem_append_left _ hq)).1
        rw [← h.holds.stands.live, hfresh.2 _ hmem] at hlive
        cases hlive
      exact hkeep _ hold (h.loose q (List.mem_append_left _ hq))
    · rw [Option.toList_some, List.mem_singleton] at hq
      exact hq ▸ hloose
  · simp [hindex]
  · simp [p, hindex]

theorem Refines.handle (h : Refines fuel c s L queue held built)
    (hstep : c.handleGroups = some c') :
    ∃ body, Stores fuel c' (s.handleGroups body) := by
  rw [Pointers.handleGroups, Option.map_eq_some_iff] at hstep
  obtain ⟨g, hg, rfl⟩ := hstep
  rw [h.group, Option.map_eq_some_iff] at hg
  obtain ⟨p, rfl, rfl⟩ := hg
  obtain ⟨heap, hadd, hholds⟩ := h.holds.handle (h.loose p (by simp)) h.linked
  have hgroup : p.group = p.body.group s.handed.length := by
    rw [Placed.group, GroupBody.group, Group.mk.injEq]
    exact ⟨rfl, h.index p rfl⟩
  rw [show listAddTail (.groupList p.addr) .groupQueue c.memory.heap = some heap from hadd,
    Pointers.access_some]
  refine ⟨p.body, _, queue ++ [p], held, none, h.fault, h.outside, hholds.perm allGroups_handle,
    ?_, ?_, ?_, (h.follows.append p).signal, ?_, ?_, rfl, ?_⟩
  · exact fun q hq => h.bounded q (allGroups_handle.mem_iff.2 hq)
  · simp
  · simp [State.handleGroups, h.queued, hgroup]
  · intro q hq
    rw [Option.toList_none, List.append_nil] at hq
    refine (h.loose q (List.mem_append_left _ hq)).addTail ?_ (by simp [GroupAt.node]) h.linked
    obtain rfl := Option.mem_toList.1 hq
    have hapart := (h.holds.perm allGroups_destroy).apart (q := p) (by simp [allGroups])
    exact fun heq => hapart p.node List.mem_cons_self (heq ▸ List.mem_cons_self)
  · simp [Pointers.setHeap, State.handleGroups, h.groupIndex]
  · simp

variable {pos : Node}

theorem next_headD (rest : List Placed) :
    Next ((rest.map (·.node)).headD .groupQueue) (!rest.isEmpty) rest := by
  cases rest with
  | nil => exact Or.inr ⟨rfl, rfl⟩
  | cons p rest => exact Or.inl ⟨rfl, p, rest, rfl, rfl⟩

theorem Refines.isList (h : Refines fuel c s L queue held built) :
    IsList c.memory.heap .groupQueue (queue.map (·.node)) :=
  h.holds.stands.lists _ _ h.linked

theorem Refines.leave (h : Refines fuel c s L queue none built) :
    Stores fuel { c with writer := .leaving } { s with writer := .leaving } :=
  ⟨L, queue, none, built, { h with follows := .leaving }⟩

theorem nextGroup_nil (hq : s.queue = []) : s.nextGroup = { s with writer := .leaving } := by
  unfold State.nextGroup
  split
  · rfl
  · next g rest h =>
    rw [hq] at h
    cases h

theorem nextGroup_cons {g : Group} {rest : List Group} (hq : s.queue = g :: rest) :
    s.nextGroup = { s with writer := .write g !rest.isEmpty, queue := rest } := by
  unfold State.nextGroup
  split
  · next h =>
    rw [hq] at h
    cases h
  · next g' rest' h =>
    rw [hq] at h
    cases h
    rfl

theorem Refines.nextGroup (h : Refines fuel c s L queue none built)
    (hpos : pos = (queue.map (·.node)).headD .groupQueue)
    (htmp : ∀ p rest, queue = p :: rest → tmp = (rest.map (·.node)).headD .groupQueue) :
    Stores fuel (c.nextGroup poison pos tmp) s.nextGroup := by
  cases queue with
  | nil =>
    obtain rfl : pos = .groupQueue := hpos
    rw [Pointers.nextGroup, if_pos rfl, nextGroup_nil h.queued]
    exact h.leave
  | cons p rest =>
    obtain rfl : pos = p.node := hpos
    obtain rfl := htmp p rest rfl
    obtain ⟨heap, hdel, hholds⟩ := h.holds.take poison h.linked
    rw [Pointers.nextGroup, if_neg (by simp [GroupAt.node]), hdel, Pointers.access_some,
      nextGroup_cons h.queued]
    refine ⟨_, rest, some p, built, h.fault, h.outside, hholds.perm allGroups_take, ?_, ?_, rfl,
      ?_, ?_, h.groupIndex, h.group, h.index⟩
    · exact fun q hq => h.bounded q (allGroups_take.mem_iff.2 hq)
    · simp [GroupAt.node, h.linked]
    · have hempty : (rest.map Placed.group).isEmpty = rest.isEmpty := by simp
      rw [hempty]
      exact .write p (next_headD rest)
    · intro q hq
      rcases List.mem_append.1 hq with hq | hq
      · obtain rfl := List.mem_singleton.1 hq
        exact h.holds.stands.loose_del (Or.inl ⟨_, _, h.linked, List.mem_cons_self⟩)
      · exact (h.loose q (List.mem_append_right _ hq)).del

theorem Refines.start (h : Refines fuel c s L queue none built) :
    Stores fuel (c.start poison) s.nextGroup := by
  have hlist := h.isList
  have hpos := hlist.next_mem
  rw [Pointers.start, getNext_eq (hlist.live _ List.mem_cons_self), Pointers.access_some,
    getNext_eq (hlist.live _ hpos), Pointers.access_some]
  refine h.nextGroup hlist.seg.next_eq fun p rest hqueue => ?_
  subst hqueue
  rw [hlist.seg.next_eq]
  exact hlist.seg.2.next_eq

theorem Refines.relock (h : Refines fuel c s L queue none built)
    (hpc : s.writer = .relock more) (hnext : Next tmp more queue) :
    ∃ s', s.threadWritev = some s' ∧
      Stores fuel (c.access (getNext c.memory.heap tmp) fun n => c.nextGroup poison tmp n) s' := by
  have hlist := h.isList
  rw [State.threadWritev, hpc]
  rcases hnext with ⟨rfl, p, rest, rfl, rfl⟩ | ⟨rfl, rfl⟩
  · have hlive := hlist.live p.node (List.mem_cons_of_mem _ List.mem_cons_self)
    rw [getNext_eq hlive, Pointers.access_some]
    refine ⟨_, rfl, h.nextGroup rfl fun q r hqr => ?_⟩
    cases hqr
    exact hlist.seg.2.next_eq
  · rw [getNext_eq (hlist.live _ List.mem_cons_self), Pointers.access_some, Pointers.nextGroup,
      if_pos rfl]
    exact ⟨_, rfl, h.leave⟩

theorem Refines.print (h : Refines fuel c s L queue (some p) built)
    (hw : c.writer = .write p.node tmp) (hpc : s.writer = .write p.group more)
    (hnext : Next tmp more queue) (hstep : c.threadWritev poison fuel = some c') :
    ∃ s', s.threadWritev = some s' ∧ Stores fuel c' s' := by
  have hholds := h.holds.perm allGroups_destroy
  have hmem : p ∈ allGroups queue (some p) built := allGroups_destroy.mem_iff.2 List.mem_cons_self
  have hread := hholds.readGroup List.mem_cons_self (h.bounded p hmem)
  obtain ⟨heap, hfree, hrest⟩ := hholds.destroy (h.loose p (by simp)) (h.bounded p hmem)
  simp only [Pointers.threadWritev, hw, hread] at hstep
  obtain ⟨hlock, hstep⟩ := Option.ite_none_right_eq_some.1 hstep
  obtain ⟨text, htext, rfl⟩ := Option.map_eq_some_iff.1 hstep
  have hlock' : s.readLock = none := by
    rw [h.outside] at hlock
    exact hlock
  have htext' : writeGroup p.group = some text := htext
  have hwrite : s.threadWritev = some { s with
      readLock := some .writer
      writer := .printing text more
      written := s.written ++ [p.group] } := by
    simp only [State.threadWritev, hpc, if_pos hlock', htext', Option.map_some]
  rw [hfree, Pointers.access_some]
  refine ⟨_, hwrite, L.drop p.nodes, queue, none, built, h.fault, ?_, hrest, fun q hq => ?_, ?_,
    h.queued, .printing text hnext, fun q hq => ?_, h.groupIndex, h.group, h.index⟩
  · simp [h.outside, Outside.of]
  · exact h.bounded q (allGroups_destroy.mem_iff.2 (List.mem_cons_of_mem p hq))
  · refine HeadLists.drop_list (groupQueue_notMem _) h.linked fun x hx => ?_
    obtain ⟨q, hq, rfl⟩ := List.mem_map.1 hx
    exact hholds.apart (by simp [allGroups, hq]) _ List.mem_cons_self
  · refine (h.loose q (List.mem_append_right _ hq)).drop ?_
    exact hholds.apart (by simpa [allGroups] using Or.inr hq) _ List.mem_cons_self

theorem Refines.threadWritev (h : Refines fuel c s L queue held built)
    (hstep : c.threadWritev poison fuel = some c') :
    ∃ s', s.threadWritev = some s' ∧ Stores fuel c' s' := by
  have hfollows := h.follows
  cases hw : c.writer with
  | top =>
    rw [hw] at hfollows
    generalize hpc : s.writer = pc at hfollows
    cases hfollows
    simp only [Pointers.threadWritev, hw, listEmpty_eq h.isList, Pointers.access_some,
      Option.some.injEq] at hstep
    subst hstep
    have hempty : s.queue.isEmpty = queue.isEmpty := by simp [h.queued]
    have hempty' : (queue.map (·.node)).isEmpty = queue.isEmpty := by simp
    rw [hempty']
    cases hq : queue.isEmpty with
    | true =>
      have hwait : s.threadWritev = some { s with writer := .waiting } := by
        simp only [State.threadWritev, hpc, hempty, hq, if_true]
      exact ⟨_, hwait, L, queue, none, built, { h with follows := .waiting }⟩
    | false =>
      have hnext : s.threadWritev = some s.nextGroup := by
        simp only [State.threadWritev, hpc, hempty, hq, Bool.false_eq_true, if_false]
      exact ⟨_, hnext, h.start⟩
  | awake =>
    rw [hw] at hfollows
    generalize hpc : s.writer = pc at hfollows
    cases hfollows
    simp only [Pointers.threadWritev, hw, Option.some.injEq] at hstep
    subst hstep
    exact ⟨_, by rw [State.threadWritev, hpc], h.start⟩
  | write pos tmp =>
    rw [hw] at hfollows
    generalize hpc : s.writer = pc at hfollows
    cases hfollows with
    | write p hnext => exact h.print hw hpc hnext hstep
  | printing rest tmp =>
    rw [hw] at hfollows
    generalize hpc : s.writer = pc at hfollows
    cases hfollows with
    | @printing _ _ _ more hnext =>
      simp only [Pointers.threadWritev, hw, Option.some.injEq] at hstep
      subst hstep
      have hflush : s.threadWritev = some { s with
          file := s.file ++ rest
          readLock := none
          writer := .relock more } := by rw [State.threadWritev, hpc]
      refine ⟨_, hflush, L, queue, none, built, { h with outside := ?_, follows := .relock hnext }⟩
      simp only [h.outside, Outside.of]
  | relock tmp =>
    rw [hw] at hfollows
    generalize hpc : s.writer = pc at hfollows
    cases hfollows with
    | relock hnext =>
      simp only [Pointers.threadWritev, hw, Option.some.injEq] at hstep
      subst hstep
      exact h.relock hpc hnext
  | leaving =>
    rw [hw] at hfollows
    generalize hpc : s.writer = pc at hfollows
    cases hfollows
    simp only [Pointers.threadWritev, hw, Option.some.injEq] at hstep
    subst hstep
    have hleave : s.threadWritev =
        some { s with writer := if s.threadShutdown then .exited else .top } := by
      rw [State.threadWritev, hpc]
    refine ⟨_, hleave, L, queue, none, built, { h with follows := ?_ }⟩
    rw [h.outside]
    by_cases hd : s.destroy = .running
    · simp only [State.threadShutdown, Outside.of, hd]
      exact .top
    · simp only [State.threadShutdown, Outside.of, ne_eq, hd, not_false_eq_true, if_true,
        decide_true]
      exact .exited
  | waiting =>
    simp only [Pointers.threadWritev, hw] at hstep
    cases hstep
  | exited =>
    simp only [Pointers.threadWritev, hw] at hstep
    cases hstep

theorem analyzeStep_outside (s : State) (p : Pool) :
    s.analyzeStep p = ((Outside.of s).state.analyzeStep p).map fun t =>
      { t with
        handed := s.handed
        queue := s.queue
        writer := s.writer
        written := s.written } := by
  simp only [State.analyzeStep, Outside.of, Outside.state]
  cases s.reader p with
  | idle => rfl
  | opened before => by_cases hl : s.readLock = none <;> simp [hl, State.setReader]
  | reading before =>
    dsimp only
    split
    · rfl
    · rfl
    · rfl
  | eof before file => rfl
  | crashed => rfl

theorem Refines.flush {n : ℕ} (h : Refines fuel c s L queue held built)
    (hstep : c.flush n = some c') :
    ∃ s', s.flush n = some s' ∧ Stores fuel c' s' := by
  have hfollows := h.follows
  unfold Pointers.flush at hstep
  split at hstep
  · next rest tmp hw =>
    rw [hw] at hfollows
    generalize hpc : s.writer = pc at hfollows
    cases hfollows with
    | @printing _ _ _ more hnext =>
      cases hstep
      have hflush : s.flush n = some { s with
          file := s.file ++ rest.take n
          writer := .printing (rest.drop n) more } := by rw [State.flush, hpc]
      refine ⟨_, hflush, L, queue, none, built,
        { h with outside := ?_, follows := .printing _ hnext }⟩
      simp only [h.outside, Outside.of]
  · cases hstep

theorem Refines.destroyStep (h : Refines fuel c s L queue held built)
    (hstep : c.destroyStep = some c') : ∃ s', s.destroyStep = some s' ∧ Stores fuel c' s' := by
  have houtside : c.outside.destroy = s.destroy := by rw [h.outside, Outside.of]
  unfold Pointers.destroyStep at hstep
  split at hstep
  · next hd =>
    cases hstep
    rw [houtside] at hd
    have hflag : s.destroyStep = some { s with destroy := .flagged } := by
      rw [State.destroyStep, hd]
    refine ⟨_, hflag, L, queue, held, built, { h with outside := ?_ }⟩
    simp only [Pointers.setOutside, h.outside, Outside.of]
  · next hd =>
    cases hstep
    rw [houtside] at hd
    have hjoin : s.destroyStep =
        some { s with destroy := .joining, writer := s.writer.signal } := by
      rw [State.destroyStep, hd]
    refine ⟨_, hjoin, L, queue, held, built, { h with outside := ?_, follows := h.follows.signal }⟩
    simp only [Pointers.setOutside, h.outside, Outside.of]
  · next hd =>
    split at hstep
    · next hw =>
      cases hstep
      rw [houtside] at hd
      have hfollows := h.follows
      rw [hw] at hfollows
      generalize hpc : s.writer = pc at hfollows
      cases hfollows
      have hjoined : s.destroyStep = some { s with destroy := .joined } := by
        rw [State.destroyStep, hd]
        dsimp only
        rw [hpc]
      refine ⟨_, hjoined, L, queue, none, built, { h with outside := ?_ }⟩
      simp only [Pointers.setOutside, h.outside, Outside.of]
    · cases hstep
  · cases hstep

theorem Refines.step {e : PointerEvent} (h : Refines fuel c s L queue held built)
    (he : ∀ b, e = .build b → b.Given ∧ b.Bounded fuel) (hstep : pointerStep poison fuel c e = some c') :
    ∃ s', Leads step s s' ∧ Stores fuel c' s' := by
  unfold pointerStep at hstep
  rw [Option.ite_none_left_eq_some, not_or] at hstep
  obtain ⟨⟨-, hjoined⟩, hstep⟩ := hstep
  have hrunning : s.destroy ≠ .joined := by
    rw [h.outside] at hjoined
    exact hjoined
  cases e with
  | build b => exact ⟨s, .refl s, h.build (he b rfl).1 (he b rfl).2 hstep⟩
  | handle =>
    obtain ⟨body, hc'⟩ := h.handle hstep
    exact ⟨_, .single (e := .handle body) (if_neg hrunning), hc'⟩
  | writer =>
    obtain ⟨s', hs', hc'⟩ := h.threadWritev hstep
    exact ⟨s', .single (e := .writer) ((if_neg hrunning).trans hs'), hc'⟩
  | flush n =>
    obtain ⟨s', hs', hc'⟩ := h.flush hstep
    exact ⟨s', .single (e := .flush n) ((if_neg hrunning).trans hs'), hc'⟩
  | wake =>
    cases hstep
    exact ⟨_, .single (e := .wake) (if_neg hrunning), L, queue, held, built,
      { h with follows := h.follows.signal }⟩
  | reader p =>
    obtain ⟨t, ht, rfl⟩ := Option.map_eq_some_iff.1 hstep
    rw [h.outside] at ht
    have hread : s.analyzeStep p = some { t with
        handed := s.handed
        queue := s.queue
        writer := s.writer
        written := s.written } := by rw [analyzeStep_outside, ht, Option.map_some]
    exact ⟨_, .single (e := .reader p) ((if_neg hrunning).trans hread), L, queue, held, built,
      { h with outside := rfl }⟩
  | destroy =>
    obtain ⟨s', hs', hc'⟩ := h.destroyStep hstep
    exact ⟨s', .single (e := .destroy) ((if_neg hrunning).trans hs'), hc'⟩

/-- An op list without memory has been linked, which is a fault, or the groups are in memory. -/
def Tracks (fuel : ℕ) (es : List PointerEvent) (c : Pointers) : Prop :=
  (∃ b, .build b ∈ es ∧ ¬b.Given) ∧ c.fault = true ∨
    (∀ b, .build b ∈ es → b.Given) ∧ ∃ s, Leads step State.init s ∧ Stores fuel c s

theorem Tracks.step {es : List PointerEvent} {e : PointerEvent} (h : Tracks fuel es c)
    (he : ∀ b, e = .build b → b.Bounded fuel) (hstep : pointerStep poison fuel c e = some c') :
    Tracks fuel (es ++ [e]) c' := by
  rcases h with ⟨-, hfault⟩ | ⟨hgiven, s, hs, L, queue, held, built, hR⟩
  · unfold pointerStep at hstep
    rw [if_pos (Or.inl hfault)] at hstep
    cases hstep
  · by_cases hlast : ∀ b, e = .build b → b.Given
    · obtain ⟨s', hs', hstores⟩ := hR.step (fun b hb => ⟨hlast b hb, he b hb⟩) hstep
      refine Or.inr ⟨fun b hb => ?_, s', hs.trans hs', hstores⟩
      rcases List.mem_append.1 hb with hb | hb
      · exact hgiven b hb
      · exact hlast b (List.mem_singleton.1 hb).symm
    · obtain ⟨b, rfl, hnot⟩ : ∃ b, e = .build b ∧ ¬b.Given := by simpa using hlast
      unfold pointerStep at hstep
      rw [Option.ite_none_left_eq_some] at hstep
      exact Or.inl ⟨⟨b, List.mem_append_right _ List.mem_cons_self, hnot⟩,
        hR.build_null hnot hstep.2⟩

end MyScripts.Shark.GroupMemory
