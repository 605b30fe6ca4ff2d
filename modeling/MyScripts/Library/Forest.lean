import Mathlib.Data.Set.Card
import Mathlib.Logic.Relation

/-!
# Counts along ancestor chains

A forest is given by the parent of each node. A node that keeps the number of
the elements of a set below it stays exact when every element that comes or goes
is counted at all its ancestors.
-/
namespace MyScripts.Library.Forest

variable {α : Type*} {parent parent' : α → Option α} {n d : α} {fuel : ℕ}

/-- `n` is strictly below `d`. -/
def Below (parent : α → Option α) (n d : α) : Prop :=
  Relation.TransGen (fun a b => parent a = some b) n d

theorem below_iff :
    Below parent n d ↔ ∃ p, parent n = some p ∧ (d = p ∨ Below parent p d) := by
  rw [Below, Relation.TransGen.head'_iff]
  apply exists_congr
  intro p
  rw [Relation.reflTransGen_iff_eq_or_transGen]
  rfl

def ancestors (parent : α → Option α) : ℕ → α → List α
  | 0, _ => []
  | fuel + 1, n =>
    match parent n with
    | none => []
    | some p => p :: ancestors parent fuel p

theorem exists_child (hd : d ∈ ancestors parent fuel n) : ∃ a, parent a = some d := by
  induction fuel generalizing n with
  | zero => cases hd
  | succ fuel ih =>
    rw [ancestors] at hd
    cases hp : parent n with
    | none =>
      rw [hp] at hd
      cases hd
    | some p =>
      rw [hp] at hd
      rcases List.mem_cons.1 hd with rfl | hd
      · exact ⟨n, hp⟩
      · exact ih hd

section Rank

variable {rank : α → ℕ} (hrank : ∀ n p, parent n = some p → rank p < rank n)
include hrank

theorem Below.rank_lt (h : Below parent n d) : rank d < rank n := by
  induction h with
  | single h => exact hrank _ _ h
  | tail _ h ih => exact (hrank _ _ h).trans ih

theorem mem_ancestors (hn : rank n ≤ fuel) : d ∈ ancestors parent fuel n ↔ Below parent n d := by
  induction fuel generalizing n with
  | zero =>
    simp only [ancestors, List.not_mem_nil, false_iff]
    intro h
    have hlt := h.rank_lt hrank
    omega
  | succ fuel ih =>
    rw [below_iff]
    cases hp : parent n with
    | none => simp [ancestors, hp]
    | some p =>
      have hlt := hrank n p hp
      simp [ancestors, hp, ih (Nat.le_of_lt_succ (hlt.trans_le hn))]

theorem ancestors_congr_fuel {fuel' : ℕ} (hn : rank n ≤ fuel) (hn' : rank n ≤ fuel') :
    ancestors parent fuel n = ancestors parent fuel' n := by
  induction fuel generalizing n fuel' with
  | zero =>
    cases hp : parent n with
    | none => cases fuel' <;> simp [ancestors, hp]
    | some p =>
      have hlt := hrank n p hp
      omega
  | succ fuel ih =>
    cases hp : parent n with
    | none => cases fuel' <;> simp [ancestors, hp]
    | some p =>
      have hlt := hrank n p hp
      obtain ⟨k, rfl⟩ := Nat.exists_eq_succ_of_ne_zero (by omega : fuel' ≠ 0)
      simp only [ancestors, hp]
      rw [ih (by omega) (by omega : rank p ≤ k)]

end Rank

theorem below_congr {S : Set α} (hsame : ∀ a ∈ S, parent' a = parent a)
    (hclosed : ∀ a ∈ S, ∀ p, parent a = some p → p ∈ S) (hn : n ∈ S) (h : Below parent n d) :
    Below parent' n d := by
  induction h using Relation.TransGen.head_induction_on with
  | single h => exact .single ((hsame _ hn).trans h)
  | head h _ ih => exact .head ((hsame _ hn).trans h) (ih (hclosed _ hn _ h))

section Key

variable {key : α → ℕ} {P : α → Prop} (hP : ∀ n p, parent n = some p → P p)
  (hkey : ∀ n p, P n → parent n = some p → key p < key n)
include hP hkey

theorem key_lt_of_mem (hn : P n) (hd : d ∈ ancestors parent fuel n) : key d < key n := by
  induction fuel generalizing n with
  | zero => cases hd
  | succ fuel ih =>
    cases hp : parent n with
    | none => simp [ancestors, hp] at hd
    | some p =>
      have hlt := hkey n p hn hp
      simp only [ancestors, hp, List.mem_cons] at hd
      rcases hd with rfl | hd
      · exact hlt
      · exact (ih (hP n p hp) hd).trans hlt

theorem ancestors_pairwise (fuel : ℕ) (n : α) :
    (ancestors parent fuel n).Pairwise fun a b => key b < key a := by
  induction fuel generalizing n with
  | zero => exact .nil
  | succ fuel ih =>
    cases hp : parent n with
    | none => simp [ancestors, hp]
    | some p =>
      simp only [ancestors, hp, List.pairwise_cons]
      exact ⟨fun b hb => key_lt_of_mem hP hkey (hP n p hp) hb, ih p⟩

end Key

theorem mem_takeWhile {q : α → Bool} {l : List α} (hl : l.Pairwise fun a b => q b → q a) :
    d ∈ l.takeWhile q ↔ d ∈ l ∧ q d := by
  induction l with
  | nil => simp
  | cons a l ih =>
    obtain ⟨ha, hl⟩ := List.pairwise_cons.1 hl
    cases hq : q a with
    | true =>
      rw [List.takeWhile_cons_of_pos hq, List.mem_cons, ih hl, List.mem_cons, or_and_right]
      apply or_congr_left
      constructor
      · rintro rfl
        exact ⟨rfl, hq⟩
      · exact And.left
    | false =>
      rw [List.takeWhile_cons_of_neg (by simp [hq])]
      simp only [List.not_mem_nil, List.mem_cons, false_iff, not_and]
      intro hd hqd
      rcases hd with rfl | hd
      · simp [hq] at hqd
      · simp [ha d hd hqd] at hq

open Classical

variable {B D : Set α} {count count' : α → ℤ}

noncomputable def countBelow (parent : α → Option α) (B : Set α) (d : α) : ℕ :=
  {n | n ∈ B ∧ Below parent n d}.ncard

theorem countBelow_insert (hB : B.Finite) (hn : n ∉ B) (d : α) :
    countBelow parent (insert n B) d =
      countBelow parent B d + if Below parent n d then 1 else 0 := by
  rw [countBelow, countBelow]
  split_ifs with h
  · have hset : {m | m ∈ insert n B ∧ Below parent m d} =
        insert n {m | m ∈ B ∧ Below parent m d} := by
      ext m
      simp only [Set.mem_ofPred_eq, Set.mem_insert_iff, or_and_right]
      apply or_congr_left
      constructor
      · exact And.left
      · rintro rfl
        exact ⟨rfl, h⟩
    rw [hset, Set.ncard_insert_of_notMem (fun hmem => hn hmem.1) (hB.subset fun m hm => hm.1)]
  · rw [Nat.add_zero]
    congr 1
    ext m
    simp only [Set.mem_ofPred_eq, Set.mem_insert_iff, or_and_right, or_iff_right_iff_imp]
    rintro ⟨rfl, hm⟩
    exact absurd hm h

theorem countBelow_erase (hB : B.Finite) (hn : n ∈ B) (d : α) :
    countBelow parent B d =
      countBelow parent (B \ {n}) d + if Below parent n d then 1 else 0 := by
  have hout : n ∉ B \ {n} := fun h => h.2 rfl
  rw [← countBelow_insert (hB.subset Set.sdiff_subset) hout d, Set.insert_sdiff_singleton,
    Set.insert_eq_of_mem hn]

theorem countBelow_congr (h : ∀ n ∈ B, Below parent' n d ↔ Below parent n d) :
    countBelow parent' B d = countBelow parent B d := by
  rw [countBelow, countBelow]
  congr 1
  ext m
  exact and_congr_right (h m)

theorem countBelow_eq_zero (h : ∀ n ∈ B, ¬Below parent n d) : countBelow parent B d = 0 := by
  rw [countBelow]
  convert Set.ncard_empty α
  exact Set.eq_empty_of_forall_notMem fun m hm => h m hm.1 hm.2

/-- Every node of `D` counts the elements of `B` below it. -/
def Balanced (parent : α → Option α) (B D : Set α) (count : α → ℤ) : Prop :=
  ∀ d ∈ D, count d = countBelow parent B d

theorem Balanced.insert (h : Balanced parent B D count) (hB : B.Finite) (hn : n ∉ B)
    (hcount : ∀ d ∈ D, count' d = count d + if Below parent n d then 1 else 0) :
    Balanced parent (insert n B) D count' := by
  intro d hd
  rw [hcount d hd, h d hd, countBelow_insert hB hn]
  split_ifs <;> simp

theorem Balanced.erase (h : Balanced parent B D count) (hB : B.Finite) (hn : n ∈ B)
    (hcount : ∀ d ∈ D, count' d = count d + if Below parent n d then -1 else 0) :
    Balanced parent (B \ {n}) D count' := by
  intro d hd
  rw [hcount d hd, h d hd, countBelow_erase hB hn]
  split_ifs <;> simp

end MyScripts.Library.Forest
