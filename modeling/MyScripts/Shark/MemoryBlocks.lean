import MyScripts.Shark.ListRemoval
import Mathlib.Data.Multiset.Bind

/-!
# Memory in blocks

What is allocated falls into blocks, each with its nodes and with the lists whose heads are among
them. A function that works on some blocks leaves the lists of the others alone, so what is known
of these stays true.
-/
namespace MyScripts.Shark.ListHead
open Library.CircularList

variable {α : Type} [DecidableEq α] {m m' : Heap α} {L L' L'' : HeadLists α} {S T : α → Prop}
  {head n old : α} {l l' as new new' heads heads' : List α}

def Frame (L L' : HeadLists α) (S : α → Prop) : Prop :=
  ∀ c l, S c → L.list c = some l → (∀ x ∈ l, S x) → L'.list c = some l

omit [DecidableEq α] in
theorem Frame.trans (h : Frame L L' S) (h' : Frame L' L'' S) : Frame L L'' S :=
  fun c l hc hl hS => h' c l hc (h c l hc hl hS) hS

omit [DecidableEq α] in
theorem Frame.mono (h : Frame L L' S) (hT : ∀ x, T x → S x) : Frame L L' T :=
  fun c l hc hl hl' => h c l (hT c hc) hl fun x hx => hT x (hl' x hx)

theorem frame_del {live : α → Bool} {v : Option (List α)} (hold : ¬S old) :
    Frame L ⟨live, Function.update (fun h => (L.list h).map (·.erase old)) old v⟩ S := by
  intro c l hc hl hS
  have hne : c ≠ old := fun heq => hold (heq ▸ hc)
  dsimp only
  rw [Function.update_of_ne hne, hl, Option.map_some,
    List.erase_of_not_mem fun hmem => hold (hS old hmem)]

theorem frame_add {live : α → Bool} {v : Option (List α)} (hn : ¬S n) (hhead : ¬S head) :
    Frame L ⟨live, Function.update (Function.update L.list n none) head v⟩ S := by
  intro c l hc hl _
  have hne : c ≠ n := fun heq => hn (heq ▸ hc)
  have hne' : c ≠ head := fun heq => hhead (heq ▸ hc)
  dsimp only
  rw [Function.update_of_ne hne', Function.update_of_ne hne, hl]

theorem frame_drop (hS : ∀ x ∈ as, ¬S x) : Frame L (L.drop as) S :=
  fun c _ hc hl hl' => HeadLists.drop_list (fun hmem => hS c hmem hc) hl
    fun x hx hmem => hS x hmem (hl' x hx)

structure Grows (L L' : HeadLists α) (new heads : List α) : Prop where
  live : ∀ c, L'.live c = true ↔ L.live c = true ∨ c ∈ new
  list : ∀ c, c ∉ new → c ∉ heads → L'.list c = L.list c

omit [DecidableEq α] in
theorem Grows.refl (L : HeadLists α) (heads : List α) : Grows L L [] heads :=
  ⟨by simp, fun _ _ _ => rfl⟩

omit [DecidableEq α] in
theorem Grows.trans (h : Grows L L' new heads) (h' : Grows L' L'' new' heads')
    (hheads : ∀ c ∈ heads', c ∈ new ∨ c ∈ heads) : Grows L L'' (new ++ new') heads where
  live := fun c => by rw [h'.live, h.live, List.mem_append, or_assoc]
  list := by
    intro c hc hhead
    rw [List.mem_append, not_or] at hc
    have hout : c ∉ heads' := fun hmem => (hheads c hmem).elim hc.1 hhead
    rw [h'.list c hc.2 hout, h.list c hc.1 hhead]

omit [DecidableEq α] in
theorem Grows.dead (h : Grows L L' new heads) {c : α} (hc : L.live c ≠ true) (hnew : c ∉ new) :
    L'.live c ≠ true := by
  rw [ne_eq, h.live, not_or]
  exact ⟨hc, hnew⟩

omit [DecidableEq α] in
theorem Grows.frame (h : Grows L L' new heads) (hnew : ∀ x ∈ new, ¬S x)
    (hheads : ∀ x ∈ heads, ¬S x) : Frame L L' S := by
  intro c l hc hl _
  rw [h.list c (fun hmem => hnew c hmem hc) fun hmem => hheads c hmem hc, hl]

def mallocTails (null head : α) : List α → Heap α → Option (Heap α)
  | [], m => some m
  | a :: as, m => do
    let m ← initListHead a (malloc a null null m)
    let m ← listAddTail a head m
    mallocTails null head as m

theorem Stands.mallocTails (h : Stands m L) (null head : α) (hhead : L.list head = some l)
    (hdead : ∀ a ∈ as, L.live a ≠ true) (hnodup : as.Nodup) :
    ∃ m' L', ListHead.mallocTails null head as m = some m' ∧ Stands m' L' ∧
      Grows L L' as [head] ∧ L'.list head = some (l ++ as) := by
  induction as generalizing m L l with
  | nil => exact ⟨m, L, rfl, h, .refl L [head], by rw [hhead, List.append_nil]⟩
  | cons a as ih =>
    obtain ⟨ha, has⟩ := List.nodup_cons.1 hnodup
    obtain ⟨m₁, m₂, hinit, hadd, h₂⟩ :=
      h.mallocAddTail (hdead a List.mem_cons_self) hhead null null
    have hgrows : Grows L ⟨Function.update L.live a true,
        Function.update (Function.update L.list a none) head (some (l ++ [a]))⟩ [a] [head] := by
      refine ⟨fun c => ?_, fun c hc hc' => ?_⟩
      · by_cases hca : c = a <;> simp [hca]
      · rw [List.mem_singleton] at hc hc'
        simp only [Function.update_of_ne hc', Function.update_of_ne hc]
    have hdead' : ∀ b ∈ as, Function.update L.live a true b ≠ true := by
      intro b hb
      rw [Function.update_of_ne (ne_of_mem_of_not_mem hb ha)]
      exact hdead b (List.mem_cons_of_mem a hb)
    obtain ⟨m', L', hrun, h', hgrows', hhead'⟩ := ih h₂ (Function.update_self ..) hdead' has
    refine ⟨m', L', ?_, h', hgrows.trans hgrows' (by simp), ?_⟩
    · simp only [ListHead.mallocTails, hinit, hadd, Option.bind_eq_bind, Option.bind_some, hrun]
    · rw [hhead', List.append_assoc, List.singleton_append]

/-- Some nodes, and the heads among them with their lists. -/
structure Block (α : Type) where
  nodes : List α
  heads : List (α × List α)
  closed : ∀ h ∈ heads, h.1 ∈ nodes ∧ ∀ x ∈ h.2, x ∈ nodes

def cells (bs : Multiset (Block α)) : Multiset α := bs.bind fun b => (b.nodes : Multiset α)

variable {bs bs' rest : Multiset (Block α)} {base : α → Prop} {b : Block α} {x : α}

omit [DecidableEq α] in
theorem cells_add (bs bs' : Multiset (Block α)) : cells (bs + bs') = cells bs + cells bs' :=
  Multiset.add_bind ..

omit [DecidableEq α] in
theorem cells_singleton (b : Block α) : cells {b} = (b.nodes : Multiset α) :=
  Multiset.singleton_bind ..

omit [DecidableEq α] in
theorem mem_cells : x ∈ cells bs ↔ ∃ b ∈ bs, x ∈ b.nodes := by
  simp [cells]

/-- What is allocated is `base` and the blocks, without overlap, and each block has its lists. -/
structure Holds (L : HeadLists α) (base : α → Prop) (bs : Multiset (Block α)) : Prop where
  nodup : (cells bs).Nodup
  live : ∀ x, L.live x = true ↔ base x ∨ x ∈ cells bs
  apart : ∀ x ∈ cells bs, ¬base x
  heads : ∀ b ∈ bs, ∀ h ∈ b.heads, L.list h.1 = some h.2

omit [DecidableEq α]

/-- The rule for a function that makes the blocks `bs'` of the blocks `bs`. -/
theorem Holds.update (h : Holds L base (bs + rest)) (hnodup : (cells bs').Nodup)
    (hnew : ∀ x ∈ cells bs', x ∈ cells bs ∨ L.live x ≠ true)
    (hlive : ∀ x, L'.live x = true ↔ L.live x = true ∧ x ∉ cells bs ∨ x ∈ cells bs')
    (hframe : Frame L L' (· ∈ cells rest))
    (hheads : ∀ b ∈ bs', ∀ h ∈ b.heads, L'.list h.1 = some h.2) : Holds L' base (bs' + rest) := by
  have hall := h.nodup
  rw [cells_add, Multiset.nodup_add] at hall
  obtain ⟨-, hrest, hapart⟩ := hall
  have hout : ∀ x ∈ cells rest, L.live x = true ∧ x ∉ cells bs ∧ ¬base x := by
    intro x hx
    have hmem : x ∈ cells (bs + rest) := by
      rw [cells_add]
      exact Multiset.mem_add.2 (Or.inr hx)
    exact ⟨(h.live x).2 (Or.inr hmem), fun hx' => Multiset.disjoint_left.1 hapart hx' hx,
      h.apart x hmem⟩
  refine ⟨?_, fun x => ?_, fun x hx => ?_, fun b hb => ?_⟩
  · rw [cells_add, Multiset.nodup_add]
    refine ⟨hnodup, hrest, Multiset.disjoint_left.2 fun {x} hx hx' => ?_⟩
    exact (hnew x hx).elim (hout x hx').2.1 fun hdead => hdead (hout x hx').1
  · rw [hlive, h.live, cells_add, cells_add, Multiset.mem_add, Multiset.mem_add]
    constructor
    · rintro (⟨hx | hx | hx, hx'⟩ | hx)
      · exact Or.inl hx
      · exact absurd hx hx'
      · exact Or.inr (Or.inr hx)
      · exact Or.inr (Or.inl hx)
    · rintro (hx | hx | hx)
      · refine Or.inl ⟨Or.inl hx, fun hmem => h.apart x ?_ hx⟩
        rw [cells_add]
        exact Multiset.mem_add.2 (Or.inl hmem)
      · exact Or.inr hx
      · exact Or.inl ⟨Or.inr (Or.inr hx), (hout x hx).2.1⟩
  · rw [cells_add, Multiset.mem_add] at hx
    rcases hx with hx | hx
    · rcases hnew x hx with hx | hx
      · refine h.apart x ?_
        rw [cells_add]
        exact Multiset.mem_add.2 (Or.inl hx)
      · exact fun hbase => hx ((h.live x).2 (Or.inl hbase))
    · exact (hout x hx).2.2
  · rcases Multiset.mem_add.1 hb with hb | hb
    · exact hheads b hb
    · intro c hc
      have hmem : ∀ x ∈ b.nodes, x ∈ cells rest := fun x hx => mem_cells.2 ⟨b, hb, hx⟩
      obtain ⟨hhead, hlist⟩ := b.closed c hc
      exact hframe c.1 c.2 (hmem _ hhead) (h.heads b (Multiset.mem_add.2 (Or.inr hb)) c hc)
        fun x hx => hmem x (hlist x hx)

theorem Holds.reshape (h : Holds L base (bs + rest)) (hcells : cells bs' = cells bs)
    (hlive : L'.live = L.live) (hframe : Frame L L' (· ∈ cells rest))
    (hheads : ∀ b ∈ bs', ∀ h ∈ b.heads, L'.list h.1 = some h.2) : Holds L' base (bs' + rest) := by
  have hbs := h.nodup
  rw [cells_add, Multiset.nodup_add] at hbs
  refine h.update (by rw [hcells]; exact hbs.1) (fun x hx => Or.inl (hcells ▸ hx)) (fun x => ?_)
    hframe hheads
  rw [hlive, hcells]
  constructor
  · intro hx
    by_cases hmem : x ∈ cells bs
    · exact Or.inr hmem
    · exact Or.inl ⟨hx, hmem⟩
  · rintro (hx | hx)
    · exact hx.1
    · refine (h.live x).2 (Or.inr ?_)
      rw [cells_add]
      exact Multiset.mem_add.2 (Or.inl hx)

theorem Holds.grow (h : Holds L base (bs + rest)) (hgrows : Grows L L' new [])
    (hcells : cells bs' = (new : Multiset α) + cells bs) (hnodup : new.Nodup)
    (hdead : ∀ x ∈ new, L.live x ≠ true)
    (hheads : ∀ b ∈ bs', ∀ h ∈ b.heads, L'.list h.1 = some h.2) : Holds L' base (bs' + rest) := by
  have hlive : ∀ x ∈ cells (bs + rest), L.live x = true := fun x hx => (h.live x).2 (Or.inr hx)
  have hall := h.nodup
  simp only [cells_add, Multiset.mem_add] at hlive
  rw [cells_add, Multiset.nodup_add] at hall
  refine h.update ?_ (fun x hx => ?_) (fun x => ?_)
    (hgrows.frame (fun x hx hx' => hdead x hx (hlive x (Or.inr hx'))) (by simp)) hheads
  · rw [hcells, Multiset.nodup_add]
    exact ⟨hnodup, hall.1, Multiset.disjoint_left.2 fun {x} hx hx' =>
      hdead x hx (hlive x (Or.inl hx'))⟩
  · rw [hcells, Multiset.mem_add] at hx
    exact hx.symm.imp_right (hdead x)
  · rw [hgrows.live, hcells, Multiset.mem_add, Multiset.mem_coe]
    have hbs := hlive x
    tauto

variable [DecidableEq α]

theorem Holds.drop (h : Holds L base (bs + rest)) (hcells : ∀ x, x ∈ as ↔ x ∈ cells bs) :
    Holds (L.drop as) base rest := by
  have hall := h.nodup
  rw [cells_add, Multiset.nodup_add] at hall
  have hzero : Holds (L.drop as) base ((0 : Multiset (Block α)) + rest) := by
    refine h.update (by simp [cells]) (by simp [cells]) (fun x => ?_) (frame_drop fun x hx => ?_)
      (by simp)
    · simp [HeadLists.drop_live, hcells, cells]
    · exact Multiset.disjoint_left.1 hall.2.2 ((hcells x).1 hx)
  rwa [zero_add] at hzero

end MyScripts.Shark.ListHead
