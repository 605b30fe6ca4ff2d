import MyScripts.Shark.ListHead

/-!
# Nodes that leave the memory

A node that is taken out of its list with `list_del_init` and freed is gone
from the lists and from the memory, and nothing else changes. This gives the
rule for a `list_for_each_entry_safe` whose body frees the node it is at.
-/
namespace MyScripts.Shark.ListHead
open Library Library.CircularList

variable {α : Type} [DecidableEq α] {m m' : Heap α} {L L' : HeadLists α} {a h head n old : α}
  {l r S T : List α}

namespace HeadLists

def drop (L : HeadLists α) (S : List α) : HeadLists α where
  live a := L.live a && decide (a ∉ S)
  list h := if h ∈ S then none else (L.list h).map (·.filter (· ∉ S))

theorem drop_live : (L.drop S).live a = true ↔ L.live a = true ∧ a ∉ S := by
  rw [drop, Bool.and_eq_true, decide_eq_true_iff]

theorem drop_nil : L.drop [] = L := by
  simp [drop]

theorem drop_append : (L.drop S).drop T = L.drop (S ++ T) := by
  have hlive : ∀ a, ((L.drop S).drop T).live a = (L.drop (S ++ T)).live a := by
    intro a
    simp only [drop, Bool.and_assoc, List.mem_append, not_or, Bool.decide_and]
  have hlist : ∀ h, ((L.drop S).drop T).list h = (L.drop (S ++ T)).list h := by
    intro h
    by_cases hS : h ∈ S <;> by_cases hT : h ∈ T <;>
      simp [drop, hS, hT, Option.map_map, Function.comp_def, List.filter_filter, Bool.and_comm]
  rw [HeadLists.mk.injEq]
  exact ⟨funext hlive, funext hlist⟩

theorem drop_list (hh : h ∉ S) (hl : L.list h = some l) (hS : ∀ x ∈ l, x ∉ S) :
    (L.drop S).list h = some l := by
  have hself : l.filter (· ∉ S) = l := List.filter_eq_self.2 fun x hx => decide_eq_true (hS x hx)
  simp only [drop, if_neg hh, hl, Option.map_some, hself]

theorem drop_list_cons (hh : h ∉ S) (hl : L.list h = some (a :: l)) (ha : a ∈ S)
    (hS : ∀ x ∈ l, x ∉ S) : (L.drop S).list h = some l := by
  have hself : l.filter (· ∉ S) = l := List.filter_eq_self.2 fun x hx => decide_eq_true (hS x hx)
  simp only [drop, if_neg hh, hl, Option.map_some, List.filter_cons, ha, not_true, decide_false,
    Bool.false_eq_true, if_false, hself]

theorem drop_congr (h : ∀ x, x ∈ S ↔ x ∈ T) : L.drop S = L.drop T := by
  simp only [drop, h]

theorem Loose.drop (ha : L.Loose a) (hS : a ∉ S) : (L.drop S).Loose a := by
  refine ⟨drop_live.2 ⟨ha.1, hS⟩, fun c l hc hmem => ?_⟩
  by_cases hcS : c ∈ S
  · simp [HeadLists.drop, hcS] at hc
  · simp only [HeadLists.drop, if_neg hcS] at hc
    obtain ⟨l', hl', rfl⟩ := Option.map_eq_some_iff.1 hc
    have hmem' : a ∈ c :: l' := by
      rcases List.mem_cons.1 hmem with rfl | hmem
      · exact List.mem_cons_self
      · exact List.mem_cons_of_mem c (List.mem_filter.1 hmem).1
    obtain ⟨hca, rfl⟩ := ha.2 c l' hl' hmem'
    exact ⟨hca, rfl⟩

end HeadLists

omit [DecidableEq α] in
theorem Stands.loose_of_nil (h : Stands m L) (ha : L.list a = some []) : L.Loose a := by
  refine ⟨?_, fun c l hc hmem => ?_⟩
  · rw [← h.live]
    exact (h.lists a [] ha).live a List.mem_cons_self
  · have hca := h.apart a c a ⟨l, hc, hmem⟩ ⟨[], ha, List.mem_cons_self⟩
    subst hca
    rw [hc, Option.some.injEq] at ha
    exact ⟨rfl, ha⟩

theorem Stands.free_drop (h : Stands m L) (ha : L.Loose a) :
    ∃ m', ListHead.free a m = some m' ∧ Stands m' (L.drop [a]) := by
  obtain ⟨m', hfree, hm'⟩ := h.free ha
  refine ⟨m', hfree, ?_⟩
  have heq : L.drop [a] = ⟨Function.update L.live a false, Function.update L.list a none⟩ := by
    rw [HeadLists.drop, HeadLists.mk.injEq]
    refine ⟨funext fun x => ?_, funext fun c => ?_⟩
    · by_cases hx : x = a <;> simp [hx]
    · by_cases hc : c = a
      · simp [hc]
      · rw [Function.update_of_ne hc, if_neg (by simpa using hc)]
        cases hl : L.list c with
        | none => rfl
        | some l =>
          rw [Option.map_some, Option.some.injEq, List.filter_eq_self]
          intro x hx
          have hxa : x ≠ a := by
            rintro rfl
            exact ha.notMem hl hc (List.mem_cons_of_mem c hx)
          simpa using hxa
  rwa [heq]

theorem Stands.drop_erase (h : Stands m L) (hold : old ∈ S) (v : Option (List α)) :
    HeadLists.drop ⟨L.live, Function.update (fun h => (L.list h).map (·.erase old)) old v⟩ S =
      L.drop S := by
  rw [HeadLists.drop, HeadLists.drop, HeadLists.mk.injEq]
  refine ⟨rfl, funext fun c => ?_⟩
  by_cases hc : c ∈ S
  · simp [hc]
  · have hne : c ≠ old := fun heq => hc (heq ▸ hold)
    dsimp only
    rw [Function.update_of_ne hne, if_neg hc, if_neg hc]
    cases hl : L.list c with
    | none => rfl
    | some l =>
      rw [Option.map_some, Option.map_some, Option.map_some, Option.some.injEq,
        (List.nodup_cons.1 (h.lists c l hl).nodup).2.erase_eq_filter, List.filter_filter]
      refine List.filter_congr fun x hx => ?_
      by_cases hxo : x = old <;> simp [hxo, hold]

theorem Stands.delInit_free (h : Stands m L) (hold : L.Linked old) :
    ∃ m' m'', ListHead.listDelInit old m = some m' ∧ ListHead.free old m' = some m'' ∧
      Stands m'' (L.drop [old]) := by
  obtain ⟨m', hdel, hm'⟩ := h.listDelInit hold
  have hnil : Function.update (fun h => (L.list h).map (·.erase old)) old (some []) old = some [] :=
    Function.update_self ..
  obtain ⟨m'', hfree, hm''⟩ := hm'.free_drop (hm'.loose_of_nil hnil)
  rw [h.drop_erase List.mem_cons_self] at hm''
  exact ⟨m', m'', hdel, hfree, hm''⟩

namespace HeadLists

theorem Loose.addTail (ha : L.Loose a) (hne : a ≠ n) (hhead : a ≠ head)
    (hl : L.list head = some l) :
    Loose ⟨L.live, Function.update (Function.update L.list n none) head (some (l ++ [n]))⟩ a := by
  refine ⟨ha.1, fun c r hc hmem => ?_⟩
  dsimp only at hc
  by_cases hch : c = head
  · rw [hch, Function.update_self, Option.some.injEq] at hc
    subst hch hc
    have hmem' : a ∈ c :: l := by
      rw [List.mem_cons, List.mem_append, List.mem_singleton] at hmem
      rw [List.mem_cons]
      tauto
    exact absurd (ha.2 c l hl hmem').1.symm hhead
  · rw [Function.update_of_ne hch] at hc
    by_cases hcn : c = n
    · simp [hcn] at hc
    · rw [Function.update_of_ne hcn] at hc
      exact ha.2 c r hc hmem

theorem Loose.del (ha : L.Loose a) :
    Loose ⟨L.live, Function.update (fun h => (L.list h).map (·.erase old)) old none⟩ a := by
  refine ⟨ha.1, fun c r hc hmem => ?_⟩
  dsimp only at hc
  by_cases hco : c = old
  · simp [hco] at hc
  · rw [Function.update_of_ne hco] at hc
    obtain ⟨l, hl, rfl⟩ := Option.map_eq_some_iff.1 hc
    have hmem' : a ∈ c :: l := by
      rcases List.mem_cons.1 hmem with rfl | hmem
      · exact List.mem_cons_self
      · exact List.mem_cons_of_mem c (List.mem_of_mem_erase hmem)
    obtain ⟨hca, rfl⟩ := ha.2 c l hl hmem'
    exact ⟨hca, rfl⟩

end HeadLists

theorem Stands.loose_del (h : Stands m L) (hold : L.Linked old) :
    HeadLists.Loose
      ⟨L.live, Function.update (fun h => (L.list h).map (·.erase old)) old none⟩ old := by
  refine ⟨?_, fun c r hc hmem => ?_⟩
  · rw [← h.live]
    exact (h.unlink hold).1
  · dsimp only at hc
    by_cases hco : c = old
    · simp [hco] at hc
    · rw [Function.update_of_ne hco] at hc
      obtain ⟨r, hr, rfl⟩ := Option.map_eq_some_iff.1 hc
      have hmem' := (List.mem_cons.1 hmem).resolve_left (Ne.symm hco)
      exact absurd hmem' (List.nodup_cons.1 (h.lists c r hr).nodup).2.not_mem_erase

theorem Stands.del_free (h : Stands m L) (hold : L.Linked old) (poison : α × α) :
    ∃ m' m'', ListHead.listDel poison old m = some m' ∧ ListHead.free old m' = some m'' ∧
      Stands m'' (L.drop [old]) := by
  obtain ⟨m', hdel, hm'⟩ := h.listDel hold poison
  obtain ⟨m'', hfree, hm''⟩ := hm'.free_drop (h.loose_del hold)
  rw [h.drop_erase List.mem_cons_self] at hm''
  exact ⟨m', m'', hdel, hfree, hm''⟩

omit [DecidableEq α] in
theorem Stands.notMem_of_dead (h : Stands m L) (ha : L.live a ≠ true) {c : α}
    (hc : L.list c = some l) : a ∉ c :: l :=
  fun hmem => ha (h.live ▸ (h.lists c l hc).live a hmem)

theorem Stands.mallocInit (h : Stands m L) (ha : L.live a ≠ true) (n p : α) :
    ∃ m', ListHead.initListHead a (ListHead.malloc a n p m) = some m' ∧
      Stands m' ⟨Function.update L.live a true, Function.update L.list a (some [])⟩ := by
  refine (h.malloc ha).initListHead ⟨Function.update_self .., fun c l hc hmem => ?_⟩
  exact absurd hmem (h.notMem_of_dead ha hc)

theorem Stands.mallocSelf (h : Stands m L) (ha : L.live a ≠ true) :
    Stands (ListHead.malloc a a a m)
      ⟨Function.update L.live a true, Function.update L.list a (some [])⟩ := by
  obtain ⟨m', hinit, h'⟩ := h.mallocInit ha a a
  have hlive : (ListHead.malloc a a a m).live a = true := Function.update_self ..
  rw [initListHead_eq hlive, Option.some.injEq] at hinit
  have hself : (ListHead.malloc a a a m).set a a a = ListHead.malloc a a a m := by
    simp [ListHead.malloc, Heap.set]
  rwa [← hself, hinit]

theorem Stands.mallocInit_pair (h : Stands m L) (ha : L.live a ≠ true) {b : α}
    (hb : L.live b ≠ true) (hne : a ≠ b) (n p : α) :
    ∃ m' m'', ListHead.initListHead a (ListHead.malloc b n p (ListHead.malloc a n p m)) = some m' ∧
      ListHead.initListHead b m' = some m'' ∧
      Stands m'' ⟨Function.update (Function.update L.live a true) b true,
        Function.update (Function.update L.list a (some [])) b (some [])⟩ := by
  have hb' : Function.update L.live a true b ≠ true := by
    rwa [Function.update_of_ne hne.symm]
  have hlive : Function.update (Function.update L.live a true) b true a = true := by
    rw [Function.update_of_ne hne, Function.update_self]
  obtain ⟨m', hinit, h'⟩ := ((h.malloc (n := n) (p := p) ha).malloc (n := n) (p := p)
    hb').initListHead ⟨hlive, fun c l hc hmem => absurd hmem (h.notMem_of_dead ha hc)⟩
  have hloose : HeadLists.Loose ⟨Function.update (Function.update L.live a true) b true,
      Function.update L.list a (some [])⟩ b := by
    refine ⟨Function.update_self .., fun c l hc hmem => ?_⟩
    dsimp only at hc
    by_cases hca : c = a
    · rw [hca, Function.update_self, Option.some.injEq] at hc
      subst hca hc
      exact absurd (List.mem_singleton.1 hmem) hne.symm
    · rw [Function.update_of_ne hca] at hc
      exact absurd hmem (h.notMem_of_dead hb hc)
  obtain ⟨m'', hinit', h''⟩ := h'.initListHead hloose
  exact ⟨m', m'', hinit, hinit', h''⟩

theorem Stands.mallocAddTail (h : Stands m L) (ha : L.live a ≠ true)
    (hhead : L.list head = some l) (n p : α) :
    ∃ m' m'', ListHead.initListHead a (ListHead.malloc a n p m) = some m' ∧
      ListHead.listAddTail a head m' = some m'' ∧
      Stands m'' ⟨Function.update L.live a true,
        Function.update (Function.update L.list a none) head (some (l ++ [a]))⟩ := by
  have hne : a ≠ head := fun heq => h.notMem_of_dead ha hhead (heq ▸ List.mem_cons_self)
  obtain ⟨m', hinit, h'⟩ := h.mallocInit ha n p
  have hself : Function.update L.list a (some []) a = some [] := Function.update_self ..
  have hhead' : Function.update L.list a (some []) head = some l := by
    rw [Function.update_of_ne hne.symm, hhead]
  obtain ⟨m'', hadd, h''⟩ := h'.listAddTail hhead' (h'.loose_of_nil hself) hne
  refine ⟨m', m'', hinit, hadd, ?_⟩
  rwa [Function.update_idem] at h''

section Loops

variable {ι : Type} {node : ι → α} {is : List ι} {P : List ι → HeadLists α → Prop} {S : ι → List α}
  {B : α → Heap α → Option (Heap α)} {fuel : ℕ}

/-- The rule for a loop over the nodes of some items, whose body takes the nodes `S i` out of
the memory. -/
theorem Stands.forEachSafe (hhead : ∀ is L, P is L → L.list head = some (is.map node))
    (hbody : ∀ i is L m, P (i :: is) L → Stands m L →
      ∃ m', B (node i) m = some m' ∧ Stands m' (L.drop (S i)) ∧ P is (L.drop (S i)))
    (hfuel : is.length < fuel) (hP : P is L) (h : Stands m L)
    (hn : ∀ i js, is = i :: js → n = (js.map node).headD head) :
    ∃ m', ListHead.forEachSafe head B fuel ((is.map node).headD head) n m = some m' ∧
      Stands m' (L.drop (is.flatMap S)) ∧ P [] (L.drop (is.flatMap S)) := by
  induction is generalizing L m n fuel with
  | nil =>
    obtain ⟨fuel, rfl⟩ := Nat.exists_eq_succ_of_ne_zero (Nat.ne_of_gt hfuel)
    refine ⟨m, if_pos rfl, ?_⟩
    rw [List.flatMap_nil, HeadLists.drop_nil]
    exact ⟨h, hP⟩
  | cons i js ih =>
    obtain ⟨fuel, rfl⟩ := Nat.exists_eq_succ_of_ne_zero (Nat.ne_of_gt (Nat.zero_lt_of_lt hfuel))
    have hlist := h.lists head _ (hhead _ _ hP)
    have hne : node i ≠ head :=
      fun heq => (List.nodup_cons.1 hlist.nodup).1 (heq ▸ List.mem_cons_self)
    obtain ⟨m', hrun, hm', hP'⟩ := hbody i js L m hP h
    have hrest := hm'.lists head _ (hhead _ _ hP')
    obtain rfl := hn i js rfl
    have hmem : (js.map node).headD head ∈ head :: js.map node := by
      cases js with
      | nil => exact List.mem_cons_self
      | cons j js => exact List.mem_cons_of_mem head List.mem_cons_self
    obtain ⟨m'', hloop, hm''⟩ := ih (n := m'.next ((js.map node).headD head))
      (Nat.lt_of_succ_lt_succ hfuel) hP' hm' fun j ks hjs => by
        subst hjs
        exact hrest.seg.2.next_eq
    refine ⟨m'', ?_, ?_⟩
    · rw [List.map_cons, List.headD_cons, ListHead.forEachSafe, if_neg hne]
      simp only [hrun, getNext_eq (hrest.live _ hmem), Option.bind_eq_bind, Option.bind_some, hloop]
    · rwa [HeadLists.drop_append] at hm''

theorem Stands.listForEachSafe (hhead : ∀ is L, P is L → L.list head = some (is.map node))
    (hbody : ∀ i is L m, P (i :: is) L → Stands m L →
      ∃ m', B (node i) m = some m' ∧ Stands m' (L.drop (S i)) ∧ P is (L.drop (S i)))
    (hfuel : is.length < fuel) (hP : P is L) (h : Stands m L) :
    ∃ m', ListHead.listForEachSafe fuel head B m = some m' ∧
      Stands m' (L.drop (is.flatMap S)) ∧ P [] (L.drop (is.flatMap S)) := by
  have hlist := h.lists head _ (hhead is L hP)
  obtain ⟨m', hloop, hm'⟩ := Stands.forEachSafe (n := m.next ((is.map node).headD head)) hhead
    hbody hfuel hP h fun i js his => by
      subst his
      exact hlist.seg.2.next_eq
  refine ⟨m', ?_, hm'⟩
  have hmem := hlist.next_mem
  rw [hlist.seg.next_eq] at hmem
  simp only [ListHead.listForEachSafe, getNext_eq (hlist.live head List.mem_cons_self),
    hlist.seg.next_eq, getNext_eq (hlist.live _ hmem), Option.bind_eq_bind, Option.bind_some, hloop]

end Loops

end MyScripts.Shark.ListHead
