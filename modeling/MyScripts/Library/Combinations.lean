import Mathlib.Data.List.Sublists

/-!
# Combinations

The sublists of one length, in the order in which a search with backtracking
meets them: first those with the head of the list, then those without.
-/
namespace MyScripts.Library.Combinations

variable {α : Type*} {l s : List α} {n : ℕ}

def combinations : ℕ → List α → List (List α)
  | 0, _ => [[]]
  | _ + 1, [] => []
  | n + 1, a :: l => (combinations n l).map (a :: ·) ++ combinations (n + 1) l

theorem combinations_zero (l : List α) : combinations 0 l = [[]] := by
  cases l <;> rfl

theorem combinations_perm (n : ℕ) (l : List α) : (combinations n l).Perm (l.sublistsLen n) := by
  induction l generalizing n with
  | nil =>
    cases n with
    | zero => exact .refl _
    | succ n => exact .refl _
  | cons a l ih =>
    cases n with
    | zero => rw [combinations_zero, List.sublistsLen_zero]
    | succ n =>
      rw [combinations, List.sublistsLen_succ_cons]
      exact (((ih n).map _).append (ih (n + 1))).trans List.perm_append_comm

theorem mem_combinations : s ∈ combinations n l ↔ s.Sublist l ∧ s.length = n := by
  rw [(combinations_perm n l).mem_iff, List.mem_sublistsLen]

theorem nodup_combinations (n : ℕ) (h : l.Nodup) : (combinations n l).Nodup :=
  (combinations_perm n l).nodup_iff.2 (List.nodup_sublistsLen n h)

end MyScripts.Library.Combinations
