import MyScripts.Shark.WorkerPool
import Mathlib.Algebra.BigOperators.Group.List.Basic
import Mathlib.Algebra.Ring.Nat

/-!
# How many groups are handed over

`group_routine` counts the op lists down and fills one group after the other;
the pools wait for `total_op_group / operations_waiting_list` groups. The lists
left over by this division are handed over as one more group.
-/
namespace MyScripts.Shark.WorkerPool

variable {wait : ℕ}

def handedGroups (wait : ℕ) : (fuel groupIndex : ℕ) → ℤ → List (ℕ × ℕ)
  | 0, _, _ => []
  | fuel + 1, groupIndex, cnt =>
    let g := fileOpsGroupNew wait cnt
    if g.1 = 0 then [] else (groupIndex, g.1) :: handedGroups wait fuel (groupIndex + 1) g.2

theorem map_handedGroups (fuel i : ℕ) (cnt : ℤ) :
    (handedGroups wait fuel i cnt).map Prod.snd = groupRoutine wait fuel cnt := by
  induction fuel generalizing i cnt with
  | zero => rfl
  | succ fuel ih =>
    simp only [handedGroups, groupRoutine]
    split_ifs
    · rfl
    · rw [List.map_cons, ih]

theorem fileOpsGroupNew_partial (k n : ℕ) (h : n < k) : fileOpsGroupNew k n = (n, -1) := by
  induction k generalizing n with
  | zero => omega
  | succ k ih =>
    cases n with
    | zero => simp [fileOpsGroupNew]
    | succ n =>
      have hcnt : ((n + 1 : ℕ) : ℤ) - 1 = n := by omega
      rw [fileOpsGroupNew, if_neg (by omega), hcnt, ih n (by omega)]

theorem handedGroups_done (hw : 0 < wait) (fuel i : ℕ) : handedGroups wait fuel i (-1) = [] := by
  obtain ⟨w, rfl⟩ := Nat.exists_eq_succ_of_ne_zero (Nat.ne_of_gt hw)
  cases fuel <;> simp [handedGroups, fileOpsGroupNew]

theorem handedGroups_eq (hw : 0 < wait) (q r fuel i : ℕ) (hr : r < wait)
    (hf : q * wait + r < fuel) :
    handedGroups wait fuel i ((q * wait + r : ℕ) : ℤ) =
      ((List.range' i q).map fun k => (k, wait)) ++ if r = 0 then [] else [(i + q, r)] := by
  induction q generalizing fuel i with
  | zero =>
    obtain ⟨fuel, rfl⟩ := Nat.exists_eq_succ_of_ne_zero (Nat.ne_of_gt (Nat.zero_lt_of_lt hf))
    rw [Nat.zero_mul, Nat.zero_add, handedGroups, fileOpsGroupNew_partial wait r hr]
    dsimp only
    rw [handedGroups_done hw]
    split_ifs <;> simp
  | succ q ih =>
    obtain ⟨fuel, rfl⟩ := Nat.exists_eq_succ_of_ne_zero (Nat.ne_of_gt (Nat.zero_lt_of_lt hf))
    rw [Nat.succ_mul] at hf ⊢
    have hle : (wait : ℤ) ≤ ((q * wait + wait + r : ℕ) : ℤ) := by omega
    have hrest : ((q * wait + wait + r : ℕ) : ℤ) - wait = ((q * wait + r : ℕ) : ℤ) := by omega
    rw [handedGroups, fileOpsGroupNew_full wait _ hle]
    dsimp only
    rw [if_neg (Nat.ne_of_gt hw), hrest, ih fuel (i + 1) (by omega), List.range'_succ,
      List.map_cons, List.cons_append, Nat.add_right_comm, Nat.add_assoc]

/-- What the pools rely on. -/
structure CountAgrees (c : Config) (gs : List (ℕ × ℕ)) : Prop where
  count : gs.length = c.groupsIndex
  numbered : gs.map Prod.fst = List.range gs.length
  lists : (gs.map Prod.snd).sum = c.total
  bounded : ∀ g ∈ gs, g.2 ≤ c.wait

theorem handedGroups_total (c : Config) (hw : 0 < c.wait) {fuel : ℕ} (hf : c.total < fuel) :
    handedGroups c.wait fuel 0 c.total =
      ((List.range' 0 c.groupsIndex).map fun k => (k, c.wait)) ++
        if c.total % c.wait = 0 then [] else [(c.groupsIndex, c.total % c.wait)] := by
  have hsplit : c.total / c.wait * c.wait + c.total % c.wait = c.total := Nat.div_add_mod' ..
  have heq := handedGroups_eq hw (c.total / c.wait) (c.total % c.wait) fuel 0
    (Nat.mod_lt _ hw) (by rwa [hsplit])
  rw [hsplit, Nat.zero_add] at heq
  exact heq

section Total

variable (c : Config) (hw : 0 < c.wait) {fuel : ℕ} (hf : c.total < fuel)
include hw hf

theorem length_handedGroups : (handedGroups c.wait fuel 0 c.total).length =
    c.groupsIndex + if c.total % c.wait = 0 then 0 else 1 := by
  rw [handedGroups_total c hw hf]
  split_ifs <;> simp

theorem numbered_handedGroups : (handedGroups c.wait fuel 0 c.total).map Prod.fst =
    List.range (handedGroups c.wait fuel 0 c.total).length := by
  rw [length_handedGroups c hw hf, handedGroups_total c hw hf, List.range_eq_range']
  split_ifs
  · simp [Function.comp_def]
  · simp [Function.comp_def, List.range'_concat]

theorem sum_handedGroups :
    ((handedGroups c.wait fuel 0 c.total).map Prod.snd).sum = c.total := by
  have hsplit : c.groupsIndex * c.wait + c.total % c.wait = c.total := Nat.div_add_mod' ..
  have hfull : ((List.range' 0 c.groupsIndex).map fun _ => c.wait).sum = c.groupsIndex * c.wait := by
    rw [List.map_const', List.length_range']
    exact List.sum_replicate c.groupsIndex c.wait
  rw [handedGroups_total c hw hf, List.map_append, List.sum_append, List.map_map]
  split_ifs with hrest
  · rw [hrest, Nat.add_zero] at hsplit
    exact hfull.trans hsplit
  · exact (congrArg (· + c.total % c.wait) hfull).trans hsplit

theorem bounded_handedGroups : ∀ g ∈ handedGroups c.wait fuel 0 c.total, g.2 ≤ c.wait := by
  intro g hg
  rw [handedGroups_total c hw hf, List.mem_append] at hg
  rcases hg with hg | hg
  · obtain ⟨k, -, rfl⟩ := List.mem_map.1 hg
    exact Nat.le_refl _
  · split_ifs at hg
    · cases hg
    · rw [List.mem_singleton.1 hg]
      exact Nat.le_of_lt (Nat.mod_lt _ hw)

end Total

/-- The groups are always numbered, hold all op lists and are never too long; their
number is the one the pools wait for if and only if the division has no remainder. -/
theorem countAgrees_iff (c : Config) (hw : 0 < c.wait) (fuel : ℕ) (hf : c.total < fuel) :
    CountAgrees c (handedGroups c.wait fuel 0 c.total) ↔ c.wait ∣ c.total := by
  rw [Nat.dvd_iff_mod_eq_zero]
  constructor
  · intro h
    have hcount := h.count
    rw [length_handedGroups c hw hf] at hcount
    by_contra hrest
    rw [if_neg hrest] at hcount
    omega
  · intro hrest
    refine ⟨?_, numbered_handedGroups c hw hf, sum_handedGroups c hw hf, bounded_handedGroups c hw hf⟩
    rw [length_handedGroups c hw hf, if_pos hrest, Nat.add_zero]

theorem countAgrees_six : CountAgrees ⟨6, 3⟩ (handedGroups 3 7 0 6) :=
  (countAgrees_iff ⟨6, 3⟩ (by decide) 7 (by decide)).2 (by decide)

theorem not_countAgrees_seven : handedGroups 3 8 0 7 = [(0, 3), (1, 3), (2, 1)] ∧
    (⟨7, 3⟩ : Config).groupsIndex = 2 ∧ ¬CountAgrees ⟨7, 3⟩ (handedGroups 3 8 0 7) :=
  ⟨rfl, rfl, fun h => absurd h.count (by decide)⟩

end MyScripts.Shark.WorkerPool
