import Mathlib.Data.List.Nodup
import Mathlib.Logic.Function.Basic

/-!
# Circular doubly linked lists

Each node has the addresses of the next and of the previous one. A segment runs
from one node to another through a list of nodes, and a list is a segment that
ends at the head where it begins. Lists are changed by joins: one node is made
the next of another, and this one the previous of it.
-/
namespace MyScripts.Library.CircularList

variable {α : Type*}

structure Heap (α : Type*) where
  live : α → Bool
  next : α → α
  prev : α → α

variable {m m' : Heap α} {a b c head p n x y z : α} {l r : List α}

def Linked (m : Heap α) (a b : α) : Prop := m.next a = b ∧ m.prev b = a

/-- The links from `a` through `l` to `b`. -/
def Seg (m : Heap α) : α → List α → α → Prop
  | a, [], b => Linked m a b
  | a, x :: l, b => Linked m a x ∧ Seg m x l b

structure IsList (m : Heap α) (head : α) (l : List α) : Prop where
  seg : Seg m head l head
  nodup : (head :: l).Nodup
  live : ∀ a ∈ head :: l, m.live a = true

theorem seg_append : Seg m a (l ++ x :: r) b ↔ Seg m a l x ∧ Seg m x r b := by
  induction l generalizing a with
  | nil => rfl
  | cons y l ih => rw [List.cons_append, Seg, Seg, ih, and_assoc]

theorem Seg.next_eq (h : Seg m a l b) : m.next a = l.headD b := by
  cases l with
  | nil => exact h.1
  | cons x l => exact h.1.1

theorem Seg.next_mem (h : Seg m a l b) : m.next a ∈ l ++ [b] := by
  cases l with
  | nil => simp [h.1]
  | cons x l => simp [h.1.1]

theorem Seg.prev_mem (h : Seg m a l b) : m.prev b ∈ a :: l := by
  induction l generalizing a with
  | nil => simp [h.2]
  | cons x l ih => exact List.mem_cons_of_mem a (ih h.2)

theorem Seg.frame (h : Seg m a l b) (hnext : ∀ x ∈ a :: l, m'.next x = m.next x)
    (hprev : ∀ x ∈ l ++ [b], m'.prev x = m.prev x) : Seg m' a l b := by
  induction l generalizing a with
  | nil =>
    refine ⟨?_, ?_⟩
    · rw [hnext a List.mem_cons_self, h.1]
    · rw [hprev b List.mem_cons_self, h.2]
  | cons x l ih =>
    refine ⟨⟨?_, ?_⟩, ih h.2 ?_ ?_⟩
    · rw [hnext a List.mem_cons_self, h.1.1]
    · rw [hprev x List.mem_cons_self, h.1.2]
    · exact fun y hy => hnext y (List.mem_cons_of_mem a hy)
    · exact fun y hy => hprev y (List.mem_cons_of_mem x hy)

theorem IsList.frame (h : IsList m head l)
    (hsame : ∀ x ∈ head :: l, m'.next x = m.next x ∧ m'.prev x = m.prev x ∧ m'.live x = m.live x) :
    IsList m' head l where
  seg := by
    refine h.seg.frame (fun x hx => (hsame x hx).1) fun x hx => (hsame x ?_).2.1
    rw [List.mem_cons]
    rw [List.mem_append, List.mem_singleton] at hx
    exact hx.symm
  nodup := h.nodup
  live := fun x hx => by rw [(hsame x hx).2.2, h.live x hx]

theorem IsList.next_mem (h : IsList m head l) : m.next head ∈ head :: l := by
  have hmem := h.seg.next_mem
  rw [List.mem_append, List.mem_singleton] at hmem
  exact List.mem_cons.2 hmem.symm

theorem IsList.prev_mem (h : IsList m head l) : m.prev head ∈ head :: l := h.seg.prev_mem

theorem IsList.next_eq_head (h : IsList m head l) : m.next head = head ↔ l = [] := by
  cases l with
  | nil => simpa using h.seg.1
  | cons x l =>
    have hne : head ≠ x := fun heq => (List.nodup_cons.1 h.nodup).1 (heq ▸ List.mem_cons_self)
    simp [h.seg.1.1, hne.symm]

theorem IsList.prev_eq_head (h : IsList m head l) : m.prev head = head ↔ l = [] := by
  rcases List.eq_nil_or_concat' l with rfl | ⟨l', x, rfl⟩
  · simpa using h.seg.2
  · have hne : x ≠ head := fun heq =>
      (List.nodup_cons.1 h.nodup).1 (heq ▸ List.mem_append_right l' List.mem_cons_self)
    simp [(seg_append.1 h.seg).2.2, hne]

section Join

variable [DecidableEq α]

def Heap.join (m : Heap α) (p n : α) : Heap α :=
  { m with next := Function.update m.next p n, prev := Function.update m.prev n p }

@[simp] theorem join_live : (m.join p n).live = m.live := rfl

theorem linked_join (m : Heap α) (p n : α) : Linked (m.join p n) p n :=
  ⟨Function.update_self .., Function.update_self ..⟩

theorem join_next (h : x ≠ p) : (m.join p n).next x = m.next x := Function.update_of_ne h ..

theorem join_prev (h : x ≠ n) : (m.join p n).prev x = m.prev x := Function.update_of_ne h ..

theorem Seg.join (h : Seg m a l b) (hp : p ∉ a :: l) (hn : n ∉ l ++ [b]) :
    Seg (m.join p n) a l b :=
  h.frame (fun _ hx => join_next (ne_of_mem_of_not_mem hx hp))
    fun _ hx => join_prev (ne_of_mem_of_not_mem hx hn)

theorem Seg.redirectEnd (h : Seg m a l x) (hnodup : (a :: l).Nodup) (hy : y ∉ l) :
    Seg (m.join (m.prev x) y) a l y := by
  rcases List.eq_nil_or_concat' l with rfl | ⟨l', z, rfl⟩
  · rw [h.2]
    exact linked_join m a y
  · rw [seg_append] at h ⊢
    rw [h.2.2]
    refine ⟨h.1.join ?_ hy, linked_join m z y⟩
    rw [← List.cons_append] at hnodup
    exact fun hz => (List.disjoint_of_nodup_append hnodup) hz List.mem_cons_self

theorem Seg.redirectStart (h : Seg m x r b) (hnodup : (r ++ [b]).Nodup) (hz : z ∉ r) :
    Seg (m.join z (m.next x)) z r b := by
  cases r with
  | nil =>
    rw [h.1]
    exact linked_join m z b
  | cons y r =>
    rw [h.1.1]
    exact ⟨linked_join m z y, h.2.join hz (List.nodup_cons.1 hnodup).1⟩

theorem Seg.paste (h : Seg m a l x) (h' : Seg m z r b) (hnodup : (a :: l ++ r).Nodup)
    (hb : b ∉ l ∧ b ∉ r) : Seg (m.join (m.prev x) (m.next z)) a (l ++ r) b := by
  have hleft : (a :: l).Nodup := hnodup.of_append_left
  have hapart := List.disjoint_of_nodup_append hnodup
  cases r with
  | nil =>
    rw [h'.1, List.append_nil]
    exact h.redirectEnd hleft hb.1
  | cons y r =>
    rw [h'.1.1, seg_append]
    have hy : y ∉ a :: l := fun hmem => hapart hmem List.mem_cons_self
    have hr : (y :: r).Nodup := hnodup.of_append_right
    refine ⟨h.redirectEnd hleft fun hmem => hy (List.mem_cons_of_mem a hmem), ?_⟩
    refine h'.2.join (fun hmem => hapart h.prev_mem hmem) ?_
    simp only [List.mem_append, List.mem_singleton, not_or]
    exact ⟨(List.nodup_cons.1 hr).1, fun heq => hb.2 (heq ▸ List.mem_cons_self)⟩

theorem IsList.join (h : IsList m head l) (hp : p ∉ head :: l) (hn : n ∉ head :: l) :
    IsList (m.join p n) head l :=
  h.frame fun _ hx =>
    ⟨join_next (ne_of_mem_of_not_mem hx hp), join_prev (ne_of_mem_of_not_mem hx hn), rfl⟩

def Heap.set (m : Heap α) (a n p : α) : Heap α :=
  { m with next := Function.update m.next a n, prev := Function.update m.prev a p }

@[simp] theorem set_live : (m.set a n p).live = m.live := rfl

theorem set_next (h : x ≠ a) : (m.set a n p).next x = m.next x := Function.update_of_ne h ..

theorem set_prev (h : x ≠ a) : (m.set a n p).prev x = m.prev x := Function.update_of_ne h ..

theorem IsList.set (h : IsList m head l) (ha : a ∉ head :: l) : IsList (m.set a n p) head l :=
  h.frame fun _ hx =>
    ⟨set_next (ne_of_mem_of_not_mem hx ha), set_prev (ne_of_mem_of_not_mem hx ha), rfl⟩

theorem isList_set (ha : m.live a = true) : IsList (m.set a a a) a [] where
  seg := ⟨Function.update_self .., Function.update_self ..⟩
  nodup := List.nodup_singleton a
  live := fun x hx => by
    rw [List.mem_singleton] at hx
    rw [hx, set_live, ha]

theorem IsList.addFront (h : IsList m head l) (hlive : m.live x = true) (hx : x ∉ head :: l) :
    IsList ((m.join x (m.next head)).join head x) head (x :: l) := by
  obtain ⟨hhead, hl⟩ := List.nodup_cons.1 h.nodup
  have hne : head ≠ x := fun heq => hx (heq ▸ List.mem_cons_self)
  have hxl : x ∉ l := fun hmem => hx (List.mem_cons_of_mem head hmem)
  have hrotate : (l ++ [head]).Nodup := List.nodup_append_comm.1 h.nodup
  have hstart := h.seg.redirectStart hrotate hxl
  refine ⟨⟨linked_join _ head x, hstart.join ?_ ?_⟩, ?_, ?_⟩
  · simpa [hne] using hhead
  · simpa [hxl] using hne.symm
  · simp [hne, hhead, hxl, hl]
  · simpa [hlive, h.live head List.mem_cons_self] using
      fun a ha => h.live a (List.mem_cons_of_mem head ha)

theorem IsList.addBack (h : IsList m head l) (hlive : m.live x = true) (hx : x ∉ head :: l) :
    IsList ((m.join (m.prev head) x).join x head) head (l ++ [x]) := by
  obtain ⟨hhead, hl⟩ := List.nodup_cons.1 h.nodup
  have hne : head ≠ x := fun heq => hx (heq ▸ List.mem_cons_self)
  have hxl : x ∉ l := fun hmem => hx (List.mem_cons_of_mem head hmem)
  have hend := h.seg.redirectEnd h.nodup hxl
  refine ⟨seg_append.2 ⟨hend.join hx ?_, linked_join _ x head⟩, ?_, ?_⟩
  · simpa [hne] using hhead
  · rw [← List.cons_append]
    exact List.nodup_append.2 ⟨h.nodup, List.nodup_singleton x, by
      rintro a ha b hb rfl
      exact hx (List.mem_singleton.1 hb ▸ ha)⟩
  · intro a ha
    rw [← List.cons_append, List.mem_append, List.mem_singleton] at ha
    rcases ha with ha | rfl
    · exact h.live a ha
    · exact hlive

theorem IsList.remove (h : IsList m head (l ++ x :: r)) :
    IsList (m.join (m.prev x) (m.next x)) head (l ++ r) := by
  obtain ⟨hleft, hright⟩ := seg_append.1 h.seg
  have hnodup : (head :: l ++ r).Nodup :=
    h.nodup.sublist (((List.sublist_cons_self x r).append_left l).cons_cons head)
  have hhead := (List.nodup_cons.1 h.nodup).1
  simp only [List.mem_append, List.mem_cons, not_or] at hhead
  refine ⟨hleft.paste hright hnodup ⟨hhead.1, hhead.2.2⟩, hnodup, fun a ha => h.live a ?_⟩
  simp only [List.mem_cons, List.mem_append] at ha ⊢
  rcases ha with ha | ha | ha
  · exact Or.inl ha
  · exact Or.inr (Or.inl ha)
  · exact Or.inr (Or.inr (Or.inr ha))

variable {head' : α} {l' : List α}

theorem IsList.splice (h : IsList m head l) (h' : IsList m head' l')
    (hapart : List.Disjoint (head :: l) (head' :: l')) (hne : l ≠ []) :
    IsList ((m.join (m.prev head) (m.next head')).join head' (m.next head)) head' (l ++ l') := by
  obtain ⟨hhead, hl⟩ := List.nodup_cons.1 h.nodup
  obtain ⟨hhead', hl'⟩ := List.nodup_cons.1 h'.nodup
  have hout : head' ∉ l := fun hmem => hapart (List.mem_cons_of_mem head hmem) List.mem_cons_self
  have hdisjoint : List.Disjoint (head :: l) l' :=
    fun a ha ha' => hapart ha (List.mem_cons_of_mem head' ha')
  have hpaste := h.seg.paste h'.seg (List.nodup_append'.2 ⟨h.nodup, hl', hdisjoint⟩)
    ⟨hout, hhead'⟩
  have hnext : (m.join (m.prev head) (m.next head')).next head = m.next head :=
    join_next fun heq => hne (h.prev_eq_head.1 heq.symm)
  have hnodup : (head' :: (l ++ l')).Nodup := by
    refine List.nodup_cons.2 ⟨by simp [hout, hhead'], List.nodup_append'.2 ⟨hl, hl', ?_⟩⟩
    exact fun a ha => hdisjoint (List.mem_cons_of_mem head ha)
  rw [← hnext]
  refine ⟨hpaste.redirectStart ?_ (List.nodup_cons.1 hnodup).1, hnodup, fun a ha => ?_⟩
  · exact List.nodup_append_comm.1 hnodup
  · rw [List.mem_cons, List.mem_append] at ha
    rcases ha with rfl | ha | ha
    · exact h'.live a List.mem_cons_self
    · exact h.live a (List.mem_cons_of_mem head ha)
    · exact h'.live a (List.mem_cons_of_mem head' ha)

theorem IsList.append (h : IsList m head l) (h' : IsList m head' l')
    (hapart : List.Disjoint (head :: l) (head' :: l')) (hne : l ≠ []) :
    IsList ((m.join (m.prev head') (m.next head)).join (m.prev head) head') head' (l' ++ l) := by
  obtain ⟨hhead, hl⟩ := List.nodup_cons.1 h.nodup
  obtain ⟨hhead', hl'⟩ := List.nodup_cons.1 h'.nodup
  have hout : head ∉ l' := fun hmem => hapart List.mem_cons_self (List.mem_cons_of_mem head' hmem)
  have hdisjoint : List.Disjoint (head' :: l') l :=
    fun a ha' ha => hapart (List.mem_cons_of_mem head ha) ha'
  have hnodup : (head' :: l' ++ l).Nodup := List.nodup_append'.2 ⟨h'.nodup, hl, hdisjoint⟩
  have hpaste := h'.seg.paste h.seg hnodup ⟨hout, hhead⟩
  have hprev : (m.join (m.prev head') (m.next head)).prev head = m.prev head :=
    join_prev fun heq => hne (h.next_eq_head.1 heq.symm)
  rw [← hprev]
  refine ⟨hpaste.redirectEnd hnodup (List.nodup_cons.1 hnodup).1, hnodup, fun a ha => ?_⟩
  rw [List.mem_cons, List.mem_append] at ha
  rcases ha with rfl | ha | ha
  · exact h'.live a List.mem_cons_self
  · exact h'.live a (List.mem_cons_of_mem head' ha)
  · exact h.live a (List.mem_cons_of_mem head ha)

end Join

end MyScripts.Library.CircularList
