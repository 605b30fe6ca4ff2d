import MyScripts.Library.CircularList
import MyScripts.Library.Run

/-!
# The lists of `list.h`

The functions read and write the two pointers of nodes in memory. An access to
a node that is not allocated is `none`. Over the memory stands the view of the
callers: some nodes are heads, each with a list, and no node is in two lists.
-/
namespace MyScripts.Shark.ListHead
open Library Library.CircularList

variable {α : Type} [DecidableEq α]

section Access

def getNext (m : Heap α) (a : α) : Option α := if m.live a then some (m.next a) else none

def getPrev (m : Heap α) (a : α) : Option α := if m.live a then some (m.prev a) else none

def putNext (m : Heap α) (a b : α) : Option (Heap α) :=
  if m.live a then some { m with next := Function.update m.next a b } else none

def putPrev (m : Heap α) (a b : α) : Option (Heap α) :=
  if m.live a then some { m with prev := Function.update m.prev a b } else none

end Access

def initListHead (head : α) (m : Heap α) : Option (Heap α) := do
  let m ← putPrev m head head
  putNext m head head

def listAdd (new head : α) (m : Heap α) : Option (Heap α) := do
  let m ← putPrev m new head
  let m ← putNext m new (← getNext m head)
  let m ← putNext m (← getPrev m new) new
  putPrev m (← getNext m new) new

def listAddTail (new head : α) (m : Heap α) : Option (Heap α) := do
  let m ← putNext m new head
  let m ← putPrev m new (← getPrev m head)
  let m ← putNext m (← getPrev m new) new
  putPrev m (← getNext m new) new

def unlink (old : α) (m : Heap α) : Option (Heap α) := do
  let m ← putNext m (← getPrev m old) (← getNext m old)
  putPrev m (← getNext m old) (← getPrev m old)

def listDel (poison : α × α) (old : α) (m : Heap α) : Option (Heap α) := do
  let m ← unlink old m
  let m ← putNext m old poison.1
  putPrev m old poison.2

def listDelInit (old : α) (m : Heap α) : Option (Heap α) := do
  let m ← unlink old m
  let m ← putNext m old old
  putPrev m old old

def listEmpty (head : α) (m : Heap α) : Option Bool :=
  (getNext m head).map fun n => n = head

def splice (list head : α) (m : Heap α) : Option (Heap α) := do
  let m ← putNext m (← getPrev m list) (← getNext m head)
  let m ← putPrev m (← getNext m head) (← getPrev m list)
  let m ← putNext m head (← getNext m list)
  putPrev m (← getNext m list) head

def listSpliceInit (list head : α) (m : Heap α) : Option (Heap α) := do
  if (← listEmpty list m) then some m
  else
    let m ← splice list head m
    initListHead list m

def append (list head : α) (m : Heap α) : Option (Heap α) := do
  let m ← putNext m (← getPrev m head) (← getNext m list)
  let m ← putPrev m (← getNext m list) (← getPrev m head)
  let m ← putPrev m head (← getPrev m list)
  putNext m (← getPrev m list) head

def listAppendInit (list head : α) (m : Heap α) : Option (Heap α) := do
  if (← listEmpty list m) then some m
  else
    let m ← append list head m
    initListHead list m

/-- `list_for_each` from `pos` on, in at most `fuel` rounds. -/
def forEach (m : Heap α) (head : α) : ℕ → α → Option (List α)
  | 0, _ => none
  | fuel + 1, pos =>
    if pos = head then some []
    else do
      let rest ← forEach m head fuel (← getNext m pos)
      some (pos :: rest)

def listForEach (fuel : ℕ) (head : α) (m : Heap α) : Option (List α) := do
  forEach m head fuel (← getNext m head)

/-- `list_for_each_entry_safe` from `pos` on. The next node is read before the body runs. -/
def forEachSafe (head : α) (body : α → Heap α → Option (Heap α)) :
    ℕ → α → α → Heap α → Option (Heap α)
  | 0, _, _, _ => none
  | fuel + 1, pos, n, m =>
    if pos = head then some m
    else do
      let m ← body pos m
      forEachSafe head body fuel n (← getNext m n) m

def listForEachSafe (fuel : ℕ) (head : α) (body : α → Heap α → Option (Heap α)) (m : Heap α) :
    Option (Heap α) := do
  let pos ← getNext m head
  forEachSafe head body fuel pos (← getNext m pos) m

def malloc (a n p : α) (m : Heap α) : Heap α :=
  { m.set a n p with live := Function.update m.live a true }

def free (a : α) (m : Heap α) : Option (Heap α) :=
  if m.live a then some { m with live := Function.update m.live a false } else none

variable {m m' : Heap α} {new head list old a b p n : α} {l l' r : List α} {poison : α × α}

omit [DecidableEq α] in
theorem getNext_eq (ha : m.live a = true) : getNext m a = some (m.next a) := if_pos ha

theorem initListHead_eq (hlive : m.live head = true) :
    initListHead head m = some (m.set head head head) := by
  simp [initListHead, putPrev, putNext, hlive, Heap.set]

theorem listAdd_eq (h : IsList m head l) (hlive : m.live new = true) (hnew : new ∉ head :: l) :
    listAdd new head m = some ((m.join new (m.next head)).join head new) := by
  have hhead := h.live head List.mem_cons_self
  have hnext := h.live _ h.next_mem
  have hne : new ≠ head := fun heq => hnew (heq ▸ List.mem_cons_self)
  have hne' : new ≠ m.next head := fun heq => hnew (heq ▸ h.next_mem)
  simp [listAdd, putNext, putPrev, getNext, getPrev, Heap.join, hlive, hhead, hnext, hne,
    Function.update_comm hne']

theorem listAddTail_eq (h : IsList m head l) (hlive : m.live new = true)
    (hnew : new ∉ head :: l) :
    listAddTail new head m = some ((m.join (m.prev head) new).join new head) := by
  have hhead := h.live head List.mem_cons_self
  have hprev := h.live _ h.prev_mem
  have hne : new ≠ head := fun heq => hnew (heq ▸ List.mem_cons_self)
  have hne' : new ≠ m.prev head := fun heq => hnew (heq ▸ h.prev_mem)
  simp [listAddTail, putNext, putPrev, getNext, getPrev, Heap.join, hlive, hhead, hprev,
    Function.update_comm hne']

theorem unlink_eq (hold : m.live old = true) (hprev : m.live (m.prev old) = true)
    (hnext : m.live (m.next old) = true) :
    unlink old m = some (m.join (m.prev old) (m.next old)) := by
  simp [unlink, putNext, putPrev, getNext, getPrev, Heap.join, hold, hprev, hnext,
    Function.update_apply]

theorem listDel_eq (hunlink : unlink old m = some m') (hlive : m'.live old = true) :
    listDel poison old m = some (m'.set old poison.1 poison.2) := by
  simp [listDel, hunlink, putNext, putPrev, hlive, Heap.set]

theorem listDelInit_eq (hunlink : unlink old m = some m') (hlive : m'.live old = true) :
    listDelInit old m = some (m'.set old old old) := by
  simp [listDelInit, hunlink, putNext, putPrev, hlive, Heap.set]

theorem listEmpty_eq (h : IsList m head l) : listEmpty head m = some l.isEmpty := by
  rw [listEmpty, getNext, if_pos (h.live head List.mem_cons_self), Option.map_some,
    Option.some.injEq]
  cases l with
  | nil => simp [h.next_eq_head.2 rfl]
  | cons x l => simp [h.next_eq_head]

theorem splice_eq (h : IsList m list l) (h' : IsList m head l')
    (hapart : List.Disjoint (list :: l) (head :: l')) (hne : l ≠ []) :
    splice list head m =
      some ((m.join (m.prev list) (m.next head)).join head (m.next list)) := by
  have hlive := fun x hx => h.live x hx
  have hlive' := fun x hx => h'.live x hx
  have hprev : m.prev list ≠ list := fun heq => hne (h.prev_eq_head.1 heq)
  have hne₁ : m.prev list ≠ head := fun heq => hapart h.prev_mem (heq ▸ List.mem_cons_self)
  have hne₂ : list ≠ head := fun heq => hapart List.mem_cons_self (heq ▸ List.mem_cons_self)
  simp [splice, putNext, putPrev, getNext, getPrev, Heap.join, hlive list List.mem_cons_self,
    hlive _ h.prev_mem, hlive _ h.next_mem, hlive' head List.mem_cons_self, hlive' _ h'.next_mem,
    hprev.symm, hne₁.symm, hne₂]

theorem append_eq (h : IsList m list l) (h' : IsList m head l')
    (hapart : List.Disjoint (list :: l) (head :: l')) (hne : l ≠ []) :
    append list head m =
      some ((m.join (m.prev head) (m.next list)).join (m.prev list) head) := by
  have hlive := fun x hx => h.live x hx
  have hlive' := fun x hx => h'.live x hx
  have hnext : m.next list ≠ list := fun heq => hne (h.next_eq_head.1 heq)
  have hne₂ : list ≠ head := fun heq => hapart List.mem_cons_self (heq ▸ List.mem_cons_self)
  have hne₃ : list ≠ m.prev head := fun heq => hapart List.mem_cons_self (heq ▸ h'.prev_mem)
  simp [append, putNext, putPrev, getNext, getPrev, Heap.join, hlive list List.mem_cons_self,
    hlive _ h.prev_mem, hlive _ h.next_mem, hlive' head List.mem_cons_self, hlive' _ h'.prev_mem,
    hnext.symm, hne₂, hne₃]

theorem forEach_seg {fuel : ℕ} (h : Seg m a l head) (hnodup : head ∉ l)
    (hlive : ∀ x ∈ l, m.live x = true) (hfuel : l.length < fuel) :
    forEach m head fuel (m.next a) = some l := by
  induction l generalizing a fuel with
  | nil =>
    obtain ⟨fuel, rfl⟩ := Nat.exists_eq_succ_of_ne_zero (Nat.ne_of_gt hfuel)
    rw [h.1, forEach, if_pos rfl]
  | cons x l ih =>
    obtain ⟨fuel, rfl⟩ := Nat.exists_eq_succ_of_ne_zero (Nat.ne_of_gt (Nat.zero_lt_of_lt hfuel))
    rw [List.mem_cons, not_or] at hnodup
    have hrest := ih h.2 hnodup.2 (fun y hy => hlive y (List.mem_cons_of_mem x hy))
      (Nat.lt_of_succ_lt_succ hfuel)
    rw [h.1.1, forEach, if_neg (Ne.symm hnodup.1)]
    simp [getNext, hlive x List.mem_cons_self, hrest]

theorem listForEach_eq {fuel : ℕ} (h : IsList m head l) (hfuel : l.length < fuel) :
    listForEach fuel head m = some l := by
  have hwalk := forEach_seg h.seg (List.nodup_cons.1 h.nodup).1
    (fun x hx => h.live x (List.mem_cons_of_mem head hx)) hfuel
  simp [listForEach, getNext, h.live head List.mem_cons_self, hwalk]

/-- The nodes that are allocated, and the heads with their lists. -/
structure HeadLists (α : Type) where
  live : α → Bool
  list : α → Option (List α)

inductive Op (α : Type)
  | malloc (a n p : α)
  | free (a : α)
  | init (head : α)
  | add (new head : α)
  | addTail (new head : α)
  | del (old : α)
  | delInit (old : α)
  | spliceInit (list head : α)
  | appendInit (list head : α)

namespace HeadLists

def Member (L : HeadLists α) (a h : α) : Prop := ∃ l, L.list h = some l ∧ a ∈ h :: l

/-- In no list, and no list is lost with it. -/
def Loose (L : HeadLists α) (a : α) : Prop :=
  L.live a = true ∧ ∀ h l, L.list h = some l → a ∈ h :: l → h = a ∧ l = []

open Classical in
/-- A call that its caller may make. `none` is a call that is not allowed. -/
noncomputable def apply (L : HeadLists α) : Op α → Option (HeadLists α)
  | .malloc a _ _ =>
    if L.live a = true then none else some { L with live := Function.update L.live a true }
  | .free a =>
    if L.Loose a then
      some ⟨Function.update L.live a false, Function.update L.list a none⟩
    else none
  | .init head =>
    if L.Loose head then some { L with list := Function.update L.list head (some []) } else none
  | .add new head =>
    (L.list head).bind fun l =>
      if L.Loose new ∧ new ≠ head then
        some { L with
          list := Function.update (Function.update L.list new none) head (some (new :: l)) }
      else none
  | .addTail new head =>
    (L.list head).bind fun l =>
      if L.Loose new ∧ new ≠ head then
        some { L with
          list := Function.update (Function.update L.list new none) head (some (l ++ [new])) }
      else none
  | .del old =>
    if (∃ h l, L.list h = some l ∧ old ∈ l) ∨ L.list old = some [] then
      some { L with
        list := Function.update (fun h => (L.list h).map (·.erase old)) old none }
    else none
  | .delInit old =>
    if (∃ h l, L.list h = some l ∧ old ∈ l) ∨ L.list old = some [] then
      some { L with
        list := Function.update (fun h => (L.list h).map (·.erase old)) old (some []) }
    else none
  | .spliceInit list head =>
    (L.list list).bind fun l => (L.list head).bind fun l' =>
      if list ≠ head then
        some { L with
          list := Function.update (Function.update L.list head (some (l ++ l'))) list (some []) }
      else none
  | .appendInit list head =>
    (L.list list).bind fun l => (L.list head).bind fun l' =>
      if list ≠ head then
        some { L with
          list := Function.update (Function.update L.list head (some (l' ++ l))) list (some []) }
      else none

end HeadLists

def run (poison : α × α) (m : Heap α) : Op α → Option (Heap α)
  | .malloc a n p => some (malloc a n p m)
  | .free a => free a m
  | .init head => initListHead head m
  | .add new head => listAdd new head m
  | .addTail new head => listAddTail new head m
  | .del old => listDel poison old m
  | .delInit old => listDelInit old m
  | .spliceInit list head => listSpliceInit list head m
  | .appendInit list head => listAppendInit list head m

/-- The memory has the lists, and no node is in two of them. -/
structure Stands (m : Heap α) (L : HeadLists α) : Prop where
  live : m.live = L.live
  lists : ∀ h l, L.list h = some l → IsList m h l
  apart : ∀ a h h', L.Member a h → L.Member a h' → h = h'

variable {L L' : HeadLists α} {op : Op α}

section Members

omit [DecidableEq α]

theorem Stands.disjoint (h : Stands m L) (ha : L.list a = some l) (hb : L.list b = some l')
    (hne : a ≠ b) : List.Disjoint (a :: l) (b :: l') :=
  fun x hx hx' => hne (h.apart x a b ⟨l, ha, hx⟩ ⟨l', hb, hx'⟩)

theorem Stands.notMem (h : Stands m L) (ha : L.list a = some l) (hb : L.Member x b)
    (hne : a ≠ b) : x ∉ a :: l :=
  fun hx => hne (h.apart x a b ⟨l, ha, hx⟩ hb)

theorem HeadLists.Loose.notMem (h : L.Loose x) (ha : L.list a = some l) (hne : a ≠ x) :
    x ∉ a :: l :=
  fun hx => hne (h.2 a l ha hx).1

end Members

theorem Stands.insert (h : Stands m L) (hhead : L.list head = some l) (hloose : L.Loose new)
    (hmem : ∀ x ∈ l', x = new ∨ x ∈ l) (hlive : m'.live = m.live) (hlist : IsList m' head l')
    (hrest : ∀ a r, a ≠ head → a ≠ new → L.list a = some r → IsList m' a r) :
    Stands m' { L with
      list := Function.update (Function.update L.list new none) head (some l') } where
  live := hlive.trans h.live
  lists := by
    intro a r ha
    dsimp only at ha
    by_cases hah : a = head
    · subst hah
      rw [Function.update_self] at ha
      exact Option.some.inj ha ▸ hlist
    · rw [Function.update_of_ne hah] at ha
      by_cases han : a = new
      · simp [han] at ha
      · rw [Function.update_of_ne han] at ha
        exact hrest a r hah han ha
  apart := by
    have hmember : ∀ x a, HeadLists.Member ⟨L.live, Function.update
        (Function.update L.list new none) head (some l')⟩ x a →
        (x = new → a = head) ∧ (x ≠ new → L.Member x a) := by
      rintro x a ⟨r, ha, hx⟩
      dsimp only at ha
      by_cases hah : a = head
      · subst hah
        simp only [Function.update_self, Option.some.injEq] at ha
        subst ha
        refine ⟨fun _ => rfl, fun hxn => ⟨l, hhead, ?_⟩⟩
        rcases List.mem_cons.1 hx with rfl | hx
        · exact List.mem_cons_self
        · exact List.mem_cons_of_mem a ((hmem x hx).resolve_left hxn)
      · rw [Function.update_of_ne hah] at ha
        by_cases han : a = new
        · simp [han] at ha
        · rw [Function.update_of_ne han] at ha
          refine ⟨?_, fun _ => ⟨r, ha, hx⟩⟩
          rintro rfl
          exact absurd hx (hloose.notMem ha han)
    intro x a b ha hb
    by_cases hx : x = new
    · rw [(hmember x a ha).1 hx, (hmember x b hb).1 hx]
    · exact h.apart x a b ((hmember x a ha).2 hx) ((hmember x b hb).2 hx)

theorem Stands.listAdd (h : Stands m L) (hhead : L.list head = some l) (hloose : L.Loose new)
    (hne : new ≠ head) :
    ∃ m', ListHead.listAdd new head m = some m' ∧ Stands m' { L with
      list := Function.update (Function.update L.list new none) head (some (new :: l)) } := by
  have hlist := h.lists head l hhead
  have hlive : m.live new = true := by rw [h.live, hloose.1]
  have hout := hloose.notMem hhead hne.symm
  refine ⟨_, listAdd_eq hlist hlive hout, h.insert hhead hloose (fun x hx => List.mem_cons.1 hx) rfl
    (hlist.addFront hlive hout) fun a r hah han ha => ?_⟩
  have hnew := hloose.notMem ha han
  have hmember : ∀ x ∈ head :: l, x ∉ a :: r := fun x hx => h.notMem ha ⟨l, hhead, hx⟩ hah
  exact ((h.lists a r ha).join hnew (hmember _ hlist.next_mem)).join
    (hmember _ List.mem_cons_self) hnew

theorem Stands.listAddTail (h : Stands m L) (hhead : L.list head = some l) (hloose : L.Loose new)
    (hne : new ≠ head) :
    ∃ m', ListHead.listAddTail new head m = some m' ∧ Stands m' { L with
      list := Function.update (Function.update L.list new none) head (some (l ++ [new])) } := by
  have hlist := h.lists head l hhead
  have hlive : m.live new = true := by rw [h.live, hloose.1]
  have hout := hloose.notMem hhead hne.symm
  refine ⟨_, listAddTail_eq hlist hlive hout, h.insert hhead hloose ?_ rfl
    (hlist.addBack hlive hout) fun a r hah han ha => ?_⟩
  · intro x hx
    rw [List.mem_append, List.mem_singleton] at hx
    exact hx.symm
  · have hnew := hloose.notMem ha han
    have hmember : ∀ x ∈ head :: l, x ∉ a :: r := fun x hx => h.notMem ha ⟨l, hhead, hx⟩ hah
    exact ((h.lists a r ha).join (hmember _ hlist.prev_mem) hnew).join hnew
      (hmember _ List.mem_cons_self)

def HeadLists.Linked (L : HeadLists α) (old : α) : Prop :=
  (∃ h l, L.list h = some l ∧ old ∈ l) ∨ L.list old = some []

theorem Stands.unlink (h : Stands m L) (hold : L.Linked old) :
    m.live old = true ∧
      ListHead.unlink old m = some (m.join (m.prev old) (m.next old)) ∧
      ∀ a r, a ≠ old → L.list a = some r →
        IsList (m.join (m.prev old) (m.next old)) a (r.erase old) := by
  rcases hold with ⟨c, l, hc, hmem⟩ | hnil
  · obtain ⟨s, t, rfl⟩ := List.append_of_mem hmem
    have hlist := h.lists c _ hc
    obtain ⟨hleft, hright⟩ := seg_append.1 hlist.seg
    have hprev : m.prev old ∈ c :: (s ++ old :: t) := by
      rw [← List.cons_append]
      exact List.mem_append_left _ hleft.prev_mem
    have hnext : m.next old ∈ c :: (s ++ old :: t) := by
      have hmem' := hright.next_mem
      simp only [List.mem_append, List.mem_cons] at hmem' ⊢
      tauto
    have hlive := hlist.live old (List.mem_cons_of_mem c hmem)
    refine ⟨hlive, unlink_eq hlive (hlist.live _ hprev) (hlist.live _ hnext), fun a r ha hr => ?_⟩
    by_cases hac : a = c
    · subst hac
      rw [hc] at hr
      cases hr
      have hs : old ∉ s := fun hs => by
        have hnodup := (List.nodup_cons.1 hlist.nodup).2
        exact (List.disjoint_of_nodup_append hnodup) hs List.mem_cons_self
      rw [List.erase_append_right _ hs, List.erase_cons_head]
      exact hlist.remove
    · have hmember : ∀ x ∈ c :: (s ++ old :: t), x ∉ a :: r :=
        fun x hx => h.notMem hr ⟨_, hc, hx⟩ hac
      have hout := hmember old (List.mem_cons_of_mem c hmem)
      rw [List.erase_of_not_mem fun hx => hout (List.mem_cons_of_mem a hx)]
      exact (h.lists a r hr).join (hmember _ hprev) (hmember _ hnext)
  · have hlist := h.lists old [] hnil
    have hlive := hlist.live old List.mem_cons_self
    obtain ⟨hnext, hprev⟩ : m.next old = old ∧ m.prev old = old := hlist.seg
    refine ⟨hlive, unlink_eq hlive (by rw [hprev, hlive]) (by rw [hnext, hlive]),
      fun a r ha hr => ?_⟩
    have hout := h.notMem hr ⟨[], hnil, List.mem_cons_self⟩ ha
    rw [List.erase_of_not_mem fun hx => hout (List.mem_cons_of_mem a hx), hnext, hprev]
    exact (h.lists a r hr).join hout hout

/-- The node has the links that are given to it, and a list only if it is linked to itself. -/
theorem Stands.remove (h : Stands m L) (hold : L.Linked old) {v : Option (List α)} {n p : α}
    (hv : ∀ r, v = some r → r = [] ∧ n = old ∧ p = old) :
    Stands ((m.join (m.prev old) (m.next old)).set old n p) { L with
      list := Function.update (fun h => (L.list h).map (·.erase old)) old v } := by
  obtain ⟨hlive, -, hlists⟩ := h.unlink hold
  have hcases : ∀ a r, Function.update (fun h => (L.list h).map (·.erase old)) old v a = some r →
      a = old ∧ v = some r ∨ a ≠ old ∧ ∃ l, L.list a = some l ∧ l.erase old = r := by
    intro a r ha
    by_cases hao : a = old
    · rw [hao, Function.update_self] at ha
      exact Or.inl ⟨hao, ha⟩
    · rw [Function.update_of_ne hao] at ha
      exact Or.inr ⟨hao, Option.map_eq_some_iff.1 ha⟩
  have hout : ∀ a l, a ≠ old → L.list a = some l → old ∉ a :: l.erase old := by
    intro a l hao ha hmem
    rcases List.mem_cons.1 hmem with heq | hmem
    · exact hao heq.symm
    · exact (List.nodup_cons.1 (h.lists a l ha).nodup).2.not_mem_erase hmem
  refine ⟨h.live, fun a r ha => ?_, ?_⟩
  · rcases hcases a r ha with ⟨rfl, hr⟩ | ⟨hao, l, hl, rfl⟩
    · obtain ⟨rfl, rfl, rfl⟩ := hv r hr
      exact isList_set hlive
    · exact (hlists a l hao hl).set (hout a l hao hl)
  · have hmember : ∀ x a, HeadLists.Member ⟨L.live, Function.update
        (fun h => (L.list h).map (·.erase old)) old v⟩ x a →
        (x = old → a = old) ∧ (x ≠ old → L.Member x a) := by
      rintro x a ⟨r, ha, hx⟩
      rcases hcases a r ha with ⟨rfl, hr⟩ | ⟨hao, l, hl, rfl⟩
      · obtain ⟨rfl, -⟩ := hv r hr
        exact ⟨fun _ => rfl, fun hne => absurd (List.mem_singleton.1 hx) hne⟩
      · refine ⟨?_, fun _ => ⟨l, hl, ?_⟩⟩
        · rintro rfl
          exact absurd hx (hout a l hao hl)
        · rcases List.mem_cons.1 hx with rfl | hx
          · exact List.mem_cons_self
          · exact List.mem_cons_of_mem a (List.mem_of_mem_erase hx)
    intro x a b ha hb
    by_cases hx : x = old
    · rw [(hmember x a ha).1 hx, (hmember x b hb).1 hx]
    · exact h.apart x a b ((hmember x a ha).2 hx) ((hmember x b hb).2 hx)

theorem Stands.listDel (h : Stands m L) (hold : L.Linked old) (poison : α × α) :
    ∃ m', ListHead.listDel poison old m = some m' ∧ Stands m' { L with
      list := Function.update (fun h => (L.list h).map (·.erase old)) old none } := by
  obtain ⟨hlive, hunlink, -⟩ := h.unlink hold
  exact ⟨_, listDel_eq hunlink hlive, h.remove hold (by simp)⟩

theorem Stands.listDelInit (h : Stands m L) (hold : L.Linked old) :
    ∃ m', ListHead.listDelInit old m = some m' ∧ Stands m' { L with
      list := Function.update (fun h => (L.list h).map (·.erase old)) old (some []) } := by
  obtain ⟨hlive, hunlink, -⟩ := h.unlink hold
  exact ⟨_, listDelInit_eq hunlink hlive, h.remove hold (by simp)⟩

theorem Stands.merge (h : Stands m L) (ha : L.list list = some l) (hb : L.list head = some l')
    (hne : list ≠ head) (hmem : ∀ x ∈ r, x ∈ l ∨ x ∈ l') (hlist : IsList m' head r)
    (hlive : m'.live = m.live)
    (hrest : ∀ c s, c ≠ list → c ≠ head → L.list c = some s → IsList m' c s) :
    Stands (m'.set list list list) { L with
      list := Function.update (Function.update L.list head (some r)) list (some []) } := by
  have hout : list ∉ head :: r := by
    intro hx
    rcases List.mem_cons.1 hx with hx | hx
    · exact hne hx
    · rcases hmem list hx with hx | hx
      · exact (List.nodup_cons.1 (h.lists list l ha).nodup).1 hx
      · exact h.notMem hb ⟨l, ha, List.mem_cons_self⟩ hne.symm (List.mem_cons_of_mem head hx)
  have hcases : ∀ c s, Function.update (Function.update L.list head (some r)) list (some []) c =
      some s → c = list ∧ s = [] ∨ c = head ∧ s = r ∨
        c ≠ list ∧ c ≠ head ∧ L.list c = some s := by
    intro c s hc
    by_cases hcl : c = list
    · rw [hcl, Function.update_self] at hc
      exact Or.inl ⟨hcl, (Option.some.inj hc).symm⟩
    · rw [Function.update_of_ne hcl] at hc
      by_cases hch : c = head
      · rw [hch, Function.update_self] at hc
        exact Or.inr (Or.inl ⟨hch, (Option.some.inj hc).symm⟩)
      · rw [Function.update_of_ne hch] at hc
        exact Or.inr (Or.inr ⟨hcl, hch, hc⟩)
  refine ⟨hlive.trans h.live, fun c s hc => ?_, ?_⟩
  · rcases hcases c s hc with ⟨rfl, rfl⟩ | ⟨rfl, rfl⟩ | ⟨hcl, hch, hc⟩
    · refine isList_set ?_
      rw [hlive]
      exact (h.lists c l ha).live c List.mem_cons_self
    · exact hlist.set hout
    · exact (hrest c s hcl hch hc).set (h.notMem hc ⟨l, ha, List.mem_cons_self⟩ hcl)
  · -- A node of the head's new list was in one of the two lists before.
    have hmember : ∀ x c, HeadLists.Member ⟨L.live, Function.update
        (Function.update L.list head (some r)) list (some [])⟩ x c →
        c = list ∧ x = list ∨ c = head ∧ x ≠ list ∧ (L.Member x list ∨ L.Member x head) ∨
          c ≠ list ∧ c ≠ head ∧ L.Member x c := by
      rintro x c ⟨s, hc, hx⟩
      rcases hcases c s hc with ⟨hcl, rfl⟩ | ⟨rfl, rfl⟩ | ⟨hcl, hch, hc⟩
      · exact Or.inl ⟨hcl, hcl ▸ List.mem_singleton.1 hx⟩
      · refine Or.inr (Or.inl ⟨rfl, ne_of_mem_of_not_mem hx hout, ?_⟩)
        rcases List.mem_cons.1 hx with rfl | hx
        · exact Or.inr ⟨l', hb, List.mem_cons_self⟩
        · rcases hmem x hx with hx | hx
          · exact Or.inl ⟨l, ha, List.mem_cons_of_mem list hx⟩
          · exact Or.inr ⟨l', hb, List.mem_cons_of_mem c hx⟩
      · exact Or.inr (Or.inr ⟨hcl, hch, s, hc, hx⟩)
    have hself : L.Member list list := ⟨l, ha, List.mem_cons_self⟩
    intro x c d hc hd
    rcases hmember x c hc with ⟨rfl, rfl⟩ | ⟨rfl, hxl, hx⟩ | ⟨hcl, hch, hx⟩ <;>
      rcases hmember x d hd with ⟨hdl, hxl'⟩ | ⟨hdh, hxl', hx'⟩ | ⟨hdl, hdh, hx'⟩
    · exact hdl.symm
    · exact absurd rfl hxl'
    · exact (h.apart x d x hx' hself).symm
    · exact absurd hxl' hxl
    · exact hdh.symm
    · rcases hx with hx | hx
      · exact absurd (h.apart x d list hx' hx) hdl
      · exact (h.apart x d c hx' hx).symm
    · subst hxl'
      exact (h.apart x c x hx hself).trans hdl.symm
    · rcases hx' with hx' | hx'
      · exact absurd (h.apart x c list hx hx') hcl
      · exact (h.apart x c head hx hx').trans hdh.symm
    · exact h.apart x c d hx hx'

theorem Stands.merge_nil (h : Stands m L) (ha : L.list list = some [])
    (hb : L.list head = some l') :
    Stands m { L with
      list := Function.update (Function.update L.list head (some l')) list (some []) } := by
  rwa [← hb, Function.update_eq_self, ← ha, Function.update_eq_self]

theorem Stands.listSpliceInit (h : Stands m L) (ha : L.list list = some l)
    (hb : L.list head = some l') (hne : list ≠ head) :
    ∃ m', ListHead.listSpliceInit list head m = some m' ∧ Stands m' { L with
      list := Function.update (Function.update L.list head (some (l ++ l'))) list (some []) } := by
  have hfrom := h.lists list l ha
  have hinto := h.lists head l' hb
  have hapart := h.disjoint ha hb hne
  by_cases hnil : l = []
  · subst hnil
    exact ⟨m, by simp [ListHead.listSpliceInit, listEmpty_eq hfrom], h.merge_nil ha hb⟩
  · refine ⟨_, ?_, h.merge ha hb hne (fun x => List.mem_append.1)
      (hfrom.splice hinto hapart hnil) rfl fun c s hcl hch hc => ?_⟩
    · simp [ListHead.listSpliceInit, listEmpty_eq hfrom, hnil, splice_eq hfrom hinto hapart hnil,
        initListHead_eq, hfrom.live list List.mem_cons_self]
    · have hout : ∀ x ∈ list :: l, x ∉ c :: s := fun x hx => h.notMem hc ⟨l, ha, hx⟩ hcl
      have hout' : ∀ x ∈ head :: l', x ∉ c :: s := fun x hx => h.notMem hc ⟨l', hb, hx⟩ hch
      exact ((h.lists c s hc).join (hout _ hfrom.prev_mem) (hout' _ hinto.next_mem)).join
        (hout' _ List.mem_cons_self) (hout _ hfrom.next_mem)

theorem Stands.listAppendInit (h : Stands m L) (ha : L.list list = some l)
    (hb : L.list head = some l') (hne : list ≠ head) :
    ∃ m', ListHead.listAppendInit list head m = some m' ∧ Stands m' { L with
      list := Function.update (Function.update L.list head (some (l' ++ l))) list (some []) } := by
  have hfrom := h.lists list l ha
  have hinto := h.lists head l' hb
  have hapart := h.disjoint ha hb hne
  by_cases hnil : l = []
  · subst hnil
    rw [List.append_nil]
    exact ⟨m, by simp [ListHead.listAppendInit, listEmpty_eq hfrom], h.merge_nil ha hb⟩
  · refine ⟨_, ?_, h.merge ha hb hne (fun x hx => (List.mem_append.1 hx).symm)
      (hfrom.append hinto hapart hnil) rfl fun c s hcl hch hc => ?_⟩
    · simp [ListHead.listAppendInit, listEmpty_eq hfrom, hnil, append_eq hfrom hinto hapart hnil,
        initListHead_eq, hfrom.live list List.mem_cons_self]
    · have hout : ∀ x ∈ list :: l, x ∉ c :: s := fun x hx => h.notMem hc ⟨l, ha, hx⟩ hcl
      have hout' : ∀ x ∈ head :: l', x ∉ c :: s := fun x hx => h.notMem hc ⟨l', hb, hx⟩ hch
      exact ((h.lists c s hc).join (hout' _ hinto.prev_mem) (hout _ hfrom.next_mem)).join
        (hout _ hfrom.prev_mem) (hout' _ List.mem_cons_self)

theorem Stands.malloc (h : Stands m L) (ha : L.live a ≠ true) :
    Stands (ListHead.malloc a n p m) { L with live := Function.update L.live a true } where
  live := by rw [ListHead.malloc, h.live]
  lists := by
    intro c r hc
    have hout : a ∉ c :: r := fun hx => ha (h.live ▸ (h.lists c r hc).live a hx)
    refine (h.lists c r hc).frame fun x hx => ?_
    have hxa : x ≠ a := ne_of_mem_of_not_mem hx hout
    refine ⟨?_, ?_, Function.update_of_ne hxa ..⟩
    · exact Function.update_of_ne hxa n m.next
    · exact Function.update_of_ne hxa p m.prev
  apart := h.apart

theorem Stands.free (h : Stands m L) (ha : L.Loose a) :
    ∃ m', ListHead.free a m = some m' ∧
      Stands m' ⟨Function.update L.live a false, Function.update L.list a none⟩ := by
  have hcases : ∀ c r, Function.update L.list a none c = some r → c ≠ a ∧ L.list c = some r := by
    intro c r hc
    by_cases hca : c = a
    · simp [hca] at hc
    · exact ⟨hca, by rwa [Function.update_of_ne hca] at hc⟩
  refine ⟨_, if_pos (by rw [h.live, ha.1]), by rw [h.live], fun c r hc => ?_, ?_⟩
  · obtain ⟨hca, hc⟩ := hcases c r hc
    refine (h.lists c r hc).frame fun x hx => ⟨rfl, rfl, Function.update_of_ne ?_ ..⟩
    exact ne_of_mem_of_not_mem hx (ha.notMem hc hca)
  · rintro x c d ⟨r, hc, hx⟩ ⟨s, hd, hx'⟩
    exact h.apart x c d ⟨r, (hcases c r hc).2, hx⟩ ⟨s, (hcases d s hd).2, hx'⟩

theorem Stands.initListHead (h : Stands m L) (ha : L.Loose head) :
    ∃ m', ListHead.initListHead head m = some m' ∧
      Stands m' { L with list := Function.update L.list head (some []) } := by
  have hlive : m.live head = true := by rw [h.live, ha.1]
  have hcases : ∀ c r, Function.update L.list head (some []) c = some r →
      c = head ∧ r = [] ∨ c ≠ head ∧ L.list c = some r := by
    intro c r hc
    by_cases hch : c = head
    · rw [hch, Function.update_self] at hc
      exact Or.inl ⟨hch, (Option.some.inj hc).symm⟩
    · exact Or.inr ⟨hch, by rwa [Function.update_of_ne hch] at hc⟩
  refine ⟨_, initListHead_eq hlive, h.live, fun c r hc => ?_, ?_⟩
  · rcases hcases c r hc with ⟨rfl, rfl⟩ | ⟨hch, hc⟩
    · exact isList_set hlive
    · exact (h.lists c r hc).set (ha.notMem hc hch)
  · have hmember : ∀ x c, HeadLists.Member ⟨L.live, Function.update L.list head (some [])⟩ x c →
        c = head ∧ x = head ∨ x ≠ head ∧ L.Member x c := by
      rintro x c ⟨r, hc, hx⟩
      rcases hcases c r hc with ⟨rfl, rfl⟩ | ⟨hch, hc⟩
      · exact Or.inl ⟨rfl, List.mem_singleton.1 hx⟩
      · exact Or.inr ⟨ne_of_mem_of_not_mem hx (ha.notMem hc hch), r, hc, hx⟩
    intro x c d hc hd
    rcases hmember x c hc with ⟨hch, hx⟩ | ⟨hx, hc⟩ <;>
      rcases hmember x d hd with ⟨hdh, hx'⟩ | ⟨hx', hd⟩
    · exact hch.trans hdh.symm
    · exact absurd hx hx'
    · exact absurd hx' hx
    · exact h.apart x c d hc hd

theorem Stands.run (h : Stands m L) (hop : L.apply op = some L') :
    ∃ m', ListHead.run poison m op = some m' ∧ Stands m' L' := by
  cases op with
  | malloc a n p =>
    obtain ⟨ha, rfl⟩ := by simpa [HeadLists.apply] using hop
    exact ⟨_, rfl, h.malloc (by simp [ha])⟩
  | free a =>
    obtain ⟨ha, rfl⟩ := by simpa [HeadLists.apply] using hop
    exact h.free ha
  | init head =>
    obtain ⟨ha, rfl⟩ := by simpa [HeadLists.apply] using hop
    exact h.initListHead ha
  | add new head =>
    obtain ⟨l, hl, ⟨hloose, hne⟩, rfl⟩ := by
      simpa [HeadLists.apply, Option.bind_eq_some_iff] using hop
    exact h.listAdd hl hloose hne
  | addTail new head =>
    obtain ⟨l, hl, ⟨hloose, hne⟩, rfl⟩ := by
      simpa [HeadLists.apply, Option.bind_eq_some_iff] using hop
    exact h.listAddTail hl hloose hne
  | del old =>
    rw [HeadLists.apply, Option.ite_none_right_eq_some, Option.some.injEq] at hop
    obtain ⟨hold, rfl⟩ := hop
    exact h.listDel hold poison
  | delInit old =>
    rw [HeadLists.apply, Option.ite_none_right_eq_some, Option.some.injEq] at hop
    obtain ⟨hold, rfl⟩ := hop
    exact h.listDelInit hold
  | spliceInit list head =>
    obtain ⟨l, hl, l', hl', hne, rfl⟩ := by
      simpa [HeadLists.apply, Option.bind_eq_some_iff] using hop
    exact h.listSpliceInit hl hl' hne
  | appendInit list head =>
    obtain ⟨l, hl, l', hl', hne, rfl⟩ := by
      simpa [HeadLists.apply, Option.bind_eq_some_iff] using hop
    exact h.listAppendInit hl hl' hne

def HeadLists.start : HeadLists α := ⟨fun _ => false, fun _ => none⟩

theorem Stands.exec {ops : List (Op α)} (h : Stands m L)
    (hops : Run.exec HeadLists.apply L ops = some L') :
    ∃ m', Run.exec (ListHead.run poison) m ops = some m' ∧ Stands m' L' :=
  Run.simulation_exec (R := fun _ L m => Stands m L) (fun _ _ _ _ _ hs ht => hs.run ht) h hops

/-- Allowed calls never touch memory that is not allocated, and the loops and tests over any
head then see exactly the list that the calls describe. -/
theorem lists_refine (poison : α × α) (m : Heap α) (hm : ∀ a, m.live a = false)
    (ops : List (Op α)) (L : HeadLists α)
    (hops : Run.exec HeadLists.apply HeadLists.start ops = some L) :
    ∃ m', Run.exec (run poison) m ops = some m' ∧ m'.live = L.live ∧
      ∀ head l, L.list head = some l →
        listEmpty head m' = some l.isEmpty ∧
        (∀ fuel, l.length < fuel → listForEach fuel head m' = some l) ∧
        ∀ head' l', L.list head' = some l' → head ≠ head' →
          List.Disjoint (head :: l) (head' :: l') := by
  have hempty : Stands m HeadLists.start := by
    refine ⟨funext hm, fun h l hl => by simp [HeadLists.start] at hl, ?_⟩
    rintro a h h' ⟨l, hl, -⟩
    simp [HeadLists.start] at hl
  obtain ⟨m', hrun, hm'⟩ := hempty.exec hops
  refine ⟨m', hrun, hm'.live, fun head l hl => ⟨listEmpty_eq (hm'.lists head l hl), ?_, ?_⟩⟩
  · exact fun fuel hfuel => listForEach_eq (hm'.lists head l hl) hfuel
  · exact fun head' l' hl' hne => hm'.disjoint hl hl' hne

theorem HeadLists.apply_addTail (hhead : L.list head = some l) (hloose : L.Loose new)
    (hne : new ≠ head) :
    L.apply (.addTail new head) = some { L with
      list := Function.update (Function.update L.list new none) head
        (some (l ++ [new])) } := by
  rw [apply, hhead, Option.bind_some, if_pos ⟨hloose, hne⟩]

theorem HeadLists.apply_del (hold : L.Linked old) :
    L.apply (.del old) = some { L with
      list := Function.update (fun h => (L.list h).map (·.erase old)) old none } :=
  if_pos hold

def HeadLists.three (l : List ℕ) : HeadLists ℕ :=
  ⟨fun a => a ≤ 2, fun a => if a = 0 then some l else none⟩

theorem HeadLists.three_loose {l : List ℕ} {a : ℕ} (ha : a ≤ 2) (h0 : a ≠ 0) (hl : a ∉ l) :
    (three l).Loose a := by
  refine ⟨by simpa [three] using ha, fun h r hr hmem => ?_⟩
  by_cases hh : h = 0
  · simp_all [three]
  · simp [three, hh] at hr

theorem HeadLists.three_addTail {l : List ℕ} {a : ℕ} (ha : a ≤ 2) (h0 : a ≠ 0) (hl : a ∉ l) :
    (three l).apply (.addTail a 0) = some (three (l ++ [a])) := by
  rw [apply_addTail (l := l) rfl (three_loose ha h0 hl) h0]
  congr 2
  funext b
  by_cases hb : b = 0 <;> by_cases hba : b = a <;> simp [three, hb, hba, h0]

theorem HeadLists.three_del {l : List ℕ} {a : ℕ} (h0 : a ≠ 0) (hl : a ∈ l) :
    (three l).apply (.del a) = some (three (l.erase a)) := by
  rw [apply_del (Or.inl ⟨0, l, rfl, hl⟩)]
  congr 2
  funext b
  by_cases hb : b = 0 <;> by_cases hba : b = a <;> simp_all [three]

theorem lists_refine_two :
    ∃ m, Run.exec (run (8, 9)) ⟨fun _ => false, id, id⟩
        [.malloc 0 0 0, .malloc 1 0 0, .malloc 2 0 0, .init 0, .addTail 1 0, .addTail 2 0,
          .del 1] = some m ∧ listForEach 2 0 m = some [2] := by
  have hstart : Run.exec HeadLists.apply HeadLists.start
      [.malloc 0 0 0, .malloc 1 0 0, .malloc 2 0 0, .init 0] = some (HeadLists.three []) := by
    simp [Run.exec, HeadLists.apply, HeadLists.start, HeadLists.Loose, HeadLists.three]
    constructor
    · funext a
      simp only [Function.update_apply]
      grind
    · funext a
      simp [Function.update_apply]
  have hrest : Run.exec HeadLists.apply (HeadLists.three [])
      [.addTail 1 0, .addTail 2 0, .del 1] = some (HeadLists.three [2]) := by
    simp [Run.exec_cons, HeadLists.three_addTail, HeadLists.three_del]
  obtain ⟨m, hm, -, hall⟩ := lists_refine (8, 9) ⟨fun _ => false, id, id⟩ (fun _ => rfl) _ _
    (Run.exec_trans hstart hrest)
  exact ⟨m, hm, (hall 0 [2] rfl).2.1 2 (by decide)⟩

end MyScripts.Shark.ListHead
