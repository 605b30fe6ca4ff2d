import Mathlib.Data.List.Basic

/-!
# Loops that draw from a stream of random numbers

A loop that draws until a draw suits it takes the shortest prefix of the stream
on which it ends. Over a stream that takes every residue of every modulus
infinitely often, a loop that ends on some residue ends.
-/
namespace MyScripts.Library.RandomStream

variable {random : ℕ → ℕ} {ends : List ℕ → Bool} {fuel fuel' pos k m r : ℕ}

def draws (random : ℕ → ℕ) (pos k : ℕ) : List ℕ := (List.range k).map fun i => random (pos + i)

def taken (ends : List ℕ → Bool) (random : ℕ → ℕ) (fuel pos : ℕ) : Option ℕ :=
  (List.range fuel).find? fun k => ends (draws random pos k)

theorem ends_of_taken (h : taken ends random fuel pos = some k) : ends (draws random pos k) := by
  have hfound := List.find?_some h
  exact hfound

theorem exists_taken (h : ends (draws random pos k)) :
    ∃ fuel l, taken ends random fuel pos = some l := by
  refine ⟨k + 1, ?_⟩
  apply Option.isSome_iff_exists.1
  apply List.find?_isSome.2
  exact ⟨k, List.mem_range.2 (Nat.lt_succ_self k), h⟩

theorem taken_mono (h : taken ends random fuel pos = some k) (hle : fuel ≤ fuel') :
    taken ends random fuel' pos = some k := by
  obtain ⟨extra, rfl⟩ := Nat.exists_eq_add_of_le hle
  rw [taken, List.range_add, List.find?_append]
  unfold taken at h
  rw [h]
  rfl

/-- Every residue of every modulus comes infinitely often. -/
def Fair (random : ℕ → ℕ) : Prop := ∀ m r pos, r < m → ∃ j, pos ≤ j ∧ random j % m = r

theorem Fair.exists_draw (h : Fair random) (hr : r < m) (pos : ℕ) :
    ∃ k, ∃ x ∈ draws random pos k, x % m = r := by
  obtain ⟨j, hj, hres⟩ := h m r pos hr
  refine ⟨j - pos + 1, random j, ?_, hres⟩
  apply List.mem_map.2
  refine ⟨j - pos, List.mem_range.2 (Nat.lt_succ_self _), ?_⟩
  rw [Nat.add_sub_cancel' hj]

theorem fair_id : Fair id := by
  intro m r pos hr
  refine ⟨pos * m + r, ?_, ?_⟩
  · exact Nat.le_add_right_of_le (Nat.le_mul_of_pos_right pos (Nat.zero_lt_of_lt hr))
  · rw [id, Nat.mul_add_mod_of_lt hr]

end MyScripts.Library.RandomStream
