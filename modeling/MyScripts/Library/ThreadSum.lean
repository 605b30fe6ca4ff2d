import Mathlib.Algebra.BigOperators.Group.Finset.Piecewise
import Mathlib.Data.Fintype.Basic

/-!
# Sums over the threads of a system

What a family of threads holds together, when one of them moves.
-/
namespace MyScripts.Library.ThreadSum

variable {ι α : Type*} [Fintype ι] [DecidableEq ι]

theorem sum_update_add (f : ι → α) (g : α → ℕ) (i : ι) (a : α) :
    (∑ j, g (Function.update f i a j)) + g (f i) = (∑ j, g (f j)) + g a := by
  have hmem := Finset.mem_univ i
  have h₁ := Finset.add_sum_erase Finset.univ (fun j => g (Function.update f i a j)) hmem
  have h₂ := Finset.add_sum_erase Finset.univ (fun j => g (f j)) hmem
  have h₃ : ∑ j ∈ Finset.univ.erase i, g (Function.update f i a j) =
      ∑ j ∈ Finset.univ.erase i, g (f j) :=
    Finset.sum_congr rfl fun j hj => by rw [Function.update_of_ne (Finset.ne_of_mem_erase hj)]
  rw [Function.update_self] at h₁
  omega

theorem sum_update_eq {M : Type*} [AddCommGroup M] (f : ι → α) (g : α → M) (i : ι) (a : α) :
    ∑ j, g (Function.update f i a j) = ∑ j, g (f j) - g (f i) + g a := by
  have hmem := Finset.mem_univ i
  have h₁ := Finset.add_sum_erase Finset.univ (fun j => g (Function.update f i a j)) hmem
  have h₂ := Finset.add_sum_erase Finset.univ (fun j => g (f j)) hmem
  have h₃ : ∑ j ∈ Finset.univ.erase i, g (Function.update f i a j) =
      ∑ j ∈ Finset.univ.erase i, g (f j) :=
    Finset.sum_congr rfl fun j hj => by rw [Function.update_of_ne (Finset.ne_of_mem_erase hj)]
  rw [Function.update_self] at h₁
  rw [← h₁, ← h₂, h₃, add_sub_cancel_left, add_comm]

theorem exists_sum_update {M : Type*} [AddCommMonoid M] (f : ι → M) (i : ι) :
    ∃ rest, ∑ j, f j = f i + rest ∧ ∀ v, ∑ j, Function.update f i v j = v + rest := by
  have hmem := Finset.mem_univ i
  refine ⟨∑ j ∈ Finset.univ.erase i, f j, (Finset.add_sum_erase _ f hmem).symm, fun v => ?_⟩
  have h := Finset.add_sum_erase Finset.univ (Function.update f i v) hmem
  rw [Function.update_self] at h
  rw [← h]
  refine congrArg (v + ·) (Finset.sum_congr rfl fun j hj => ?_)
  exact Function.update_of_ne (Finset.ne_of_mem_erase hj) ..

end MyScripts.Library.ThreadSum
