import MyScripts.CreateConfig.Expansion
import MyScripts.CreateConfig.GapCounts

/-!
# The items of a scheme

What the expansion reads from the text of a scheme: the pairs of combinations
that it gives groups to, and the combinations with new groups.
-/
namespace MyScripts.CreateConfig
open Library.SumOfProducts Library.Exceptions

variable {d : List Combination} {ps : List Gap} {left : ℕ → ℕ} {nn : ℕ} {total : Option ℕ}
  {v : List ℕ} {s : Stock} {c : List Char}

theorem take_le (left : ℕ → ℕ) (x i y : ℕ) : take left x i y ≤ left y := by
  by_cases hy : y = x
  · subst hy
    simp [take]
  · simp [take, hy]

theorem gapCounts_bounded (h : v ∈ gapCounts nn ps left total) :
    v.length ≤ ps.length ∧ ∀ x ∈ ps.zip v, x.2 ≤ left x.1.source := by
  induction ps generalizing left total v with
  | nil => simp [gapCounts] at h
  | cons p ps ih =>
    rw [gapCounts] at h
    split_ifs at h
    · simp [List.mem_singleton.1 h]
    · simp only [List.mem_flatMap, List.mem_map, mem_downTo] at h
      obtain ⟨i, hi, w, hw, rfl⟩ := h
      obtain ⟨hlength, hbound⟩ := ih hw
      refine ⟨by simpa using hlength, ?_⟩
      rw [List.zip_cons_cons, List.forall_mem_cons]
      exact ⟨hi, fun x hx => (hbound x hx).trans (take_le left p.source i x.1.source)⟩

theorem gapCounts_ne_nil (h : v ∈ gapCounts nn ps left none) : v ≠ [] := by
  cases ps with
  | nil => simp [gapCounts] at h
  | cons p ps =>
    rintro rfl
    simp [gapCounts] at h

theorem exists_of_mem_gap {g : Globals} (hrun : (combnmgap d (gaplist d) nn
      ((gaplist d).map (·.gap)) (aglist d) []).run globals = .ok () g) (hc : (1, c) ∈ g.schemelist) :
    ∃ v, c = text (terms ((gaplist d).map (·.gap)) v) ∧ v ≠ [] ∧ v.length ≤ (gaplist d).length ∧
      ∀ x ∈ (gaplist d).zip v, x.2 ≤ counts d x.1.source := by
  rw [combnmgap_run_all] at hrun
  cases hrun
  have hmem : (1, c) ∈ gapSchemes nn [] (gaplist d) (counts d) := by
    simpa [Globals.add, globals] using hc
  obtain ⟨v, hv, hscheme⟩ := List.mem_map.1 hmem
  obtain ⟨hlength, hbound⟩ := gapCounts_bounded hv
  exact ⟨v, (Prod.mk.inj hscheme).2.symm, gapCounts_ne_nil hv, hlength, hbound⟩

theorem pairs_nodup (n : ℕ) : (pairs n).Nodup := by
  rw [pairs, List.nodup_flatMap]
  constructor
  · intro o _
    exact (List.nodup_range' 1).map fun a b h => (Prod.mk.inj h).2
  · apply (List.nodup_range (n := n)).imp
    intro o o' ho
    simp only [Function.onFun, List.disjoint_left, List.mem_map]
    rintro _ ⟨p, _, rfl⟩ ⟨p', _, hp'⟩
    exact ho (Prod.mk.inj hp').1.symm

theorem mem_pairs {n o p : ℕ} : (o, p) ∈ pairs n ↔ o < p ∧ p < n := by
  simp only [pairs, List.mem_flatMap, List.mem_range, List.mem_map, List.mem_range'_1,
    Prod.mk.injEq]
  constructor
  · rintro ⟨o, _, p, hp, rfl, rfl⟩
    omega
  · rintro ⟨hop, hp⟩
    exact ⟨o, by omega, p, by omega, rfl, rfl⟩

variable {α β : Type} {p : Gap} {x : Gap × ℕ} {q q' : ℕ × ℕ} {t i k : ℕ} {a : α} {l : List α}

def combination (d : List Combination) (i : ℕ) : Combination := d.getD i ⟨0, 0, 0⟩

def gapMove (d : List Combination) (x : Gap × ℕ) : Move :=
  ⟨(combination d x.1.source).n, (combination d x.1.source).m,
    (combination d x.1.target).n, (combination d x.1.target).m, x.2⟩

def gained (d : List Combination) (v : List ℕ) : List (Gap × ℕ) :=
  ((gaplist d).zip v).filter fun x => 0 < x.2

theorem source_target_toGap (h : q ∈ pairs d.length) :
    (toGap d q).source < d.length ∧ (toGap d q).target < d.length := by
  obtain ⟨o, p⟩ := q
  obtain ⟨hop, hp⟩ := mem_pairs.1 h
  rw [toGap]
  split_ifs
  · exact ⟨hp, hop.trans hp⟩
  · exact ⟨hop.trans hp, hp⟩

theorem toGap_injOn (hq : q ∈ pairs d.length) (hq' : q' ∈ pairs d.length)
    (hsource : (toGap d q).source = (toGap d q').source)
    (htarget : (toGap d q).target = (toGap d q').target) : q = q' := by
  obtain ⟨o, p⟩ := q
  obtain ⟨o', p'⟩ := q'
  have hlt := (mem_pairs.1 hq).1
  have hlt' := (mem_pairs.1 hq').1
  rw [toGap, toGap] at hsource htarget
  rw [Prod.mk.injEq]
  split_ifs at hsource htarget <;> dsimp only at hsource htarget <;> omega

theorem run_item (h : l[i]? = some a) :
    (item l i).run s = .ok a s := by
  simp [item, h, EStateM.run_pure]

theorem run_countOf (t i : ℕ) : (countOf (product [t, i])).run s = .ok i s := by
  have hitem : (item ((product [t, i]).splitOn '*') 1).run s =
      .ok (Library.Decimal.printNat i) s :=
    run_item (by rw [splitOn_product (by simp)]; rfl)
  rw [countOf, EStateM.run_bind, hitem]
  simp [int, readNat_printNat, EStateM.run_pure]

theorem gaplist_range (hp : p ∈ gaplist d) : p.source < d.length ∧ p.target < d.length := by
  obtain ⟨q, hq, rfl⟩ := List.mem_map.1 (gaplist_eq d ▸ hp)
  exact source_target_toGap hq

theorem mem_gaplist_of_gained (h : x ∈ gained d v) : x.1 ∈ gaplist d ∧ 0 < x.2 := by
  obtain ⟨hzip, hpos⟩ := List.mem_filter.1 h
  exact ⟨(List.of_mem_zip hzip).1, by simpa using hpos⟩

theorem foldlM_items {f : List β → List Char × ℕ → Taking (List β)} {out : α × ℕ → β}
    (weight : α → ℕ) {pre xs xs₀ : List α}
    (hf : ∀ k x, xs₀[k]? = some x → ∀ scheme i, (f scheme (product [weight x, i], k)).run s =
      .ok (if 0 < i then scheme ++ [out (x, i)] else scheme) s)
    (hxs : xs₀ = pre ++ xs) (scheme : List β) :
    ((((terms (xs.map weight) v).map product).zipIdx pre.length).foldlM f scheme).run s =
      .ok (scheme ++ ((xs.zip v).filter fun x => 0 < x.2).map out) s := by
  induction xs generalizing pre scheme v with
  | nil => simp [terms, EStateM.run_pure]
  | cons x xs ih =>
    cases v with
    | nil => simp [terms, EStateM.run_pure]
    | cons i v =>
      have hx : xs₀[pre.length]? = some x := by simp [hxs]
      have hxs' : xs₀ = (pre ++ [x]) ++ xs := by simpa using hxs
      have hrest := fun scheme => ih (v := v) hxs' scheme
      simp only [List.length_append, List.length_singleton] at hrest
      simp only [terms, List.map_cons, List.zipWith_cons_cons, List.zipIdx_cons, List.foldlM_cons,
        EStateM.run_bind, hf _ _ hx]
      rw [← terms, hrest, List.zip_cons_cons]
      by_cases hi : 0 < i
      · simp [hi]
      · simp [hi]

theorem gapItem_run {scheme : List Move} (hp : (gaplist d)[k]? = some p) :
    (gapItem d scheme (product [t, i], k)).run s =
      .ok (if 0 < i then scheme ++ [gapMove d (p, i)] else scheme) s := by
  obtain ⟨hsource, htarget⟩ := gaplist_range (List.mem_of_getElem? hp)
  have hanm : (item d p.source).run s = .ok (combination d p.source) s :=
    run_item (by simp [combination, hsource])
  have hbnm : (item d p.target).run s = .ok (combination d p.target) s :=
    run_item (by simp [combination, htarget])
  simp only [gapItem, EStateM.run_bind, run_countOf]
  split_ifs with hi
  · simp only [EStateM.run_bind, run_item hp, hanm, hbnm]
    rfl
  · rfl

theorem gapItems_run (hv : v ≠ []) (hd : gaplist d ≠ []) :
    (gapItems d ((text (terms ((gaplist d).map (·.gap)) v)).splitOn '+')).run s =
      .ok ((gained d v).map (gapMove d)) s := by
  have hterms : terms ((gaplist d).map (·.gap)) v ≠ [] := by
    simpa [terms, hv] using hd
  rw [gapItems, splitOn_text hterms]
  exact foldlM_items (·.gap) (fun _ _ hp _ _ => gapItem_run hp) (List.nil_append _).symm []

def newGroup (x : Combination × ℕ) : Combination := ⟨x.1.n, x.1.m, x.2⟩

def grown (d : List Combination) (v : List ℕ) : List Combination :=
  ((d.zip v).filter fun x => 0 < x.2).map newGroup

theorem newItem_run {nm : Combination} {scheme : List Combination} (hnm : d[k]? = some nm) :
    (newItem d scheme (product [t, i], k)).run s =
      .ok (if 0 < i then scheme ++ [newGroup (nm, i)] else scheme) s := by
  simp only [newItem, EStateM.run_bind, run_countOf]
  split_ifs with hi
  · simp only [EStateM.run_bind, run_item hnm]
    rfl
  · rfl

theorem newItems_run (d : List Combination) (v : List ℕ) :
    (newItems d ((terms (tlist d) v).map product)).run s = .ok (grown d v) s := by
  rw [newItems, tlist]
  exact foldlM_items _ (fun _ _ hnm _ _ => newItem_run hnm) (List.nil_append _).symm []

end MyScripts.CreateConfig
