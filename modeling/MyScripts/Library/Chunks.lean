import Mathlib.Data.List.Range
import Mathlib.Algebra.Order.Group.Nat
import Mathlib.Logic.Function.Basic

/-!
# Buffers in chunks

A buffer cut into chunks of one size, the chunks of a table with rows of equal
length, and arrays of pointers into buffers that are set one entry at a time.
-/
namespace MyScripts.Library.Chunks

variable {α β ι : Type*} {n k q i : ℕ}

def chunk (n : ℕ) (l : List α) (i : ℕ) : List α := (l.drop (n * i)).take n

theorem length_chunk {l : List α} (h : n * (i + 1) ≤ l.length) : (chunk n l i).length = n := by
  rw [chunk, List.length_take, List.length_drop, min_eq_left]
  rw [Nat.mul_succ] at h
  omega

theorem flatMap_chunk_take (l : List α) (q : ℕ) :
    (List.range q).flatMap (chunk n l) = l.take (n * q) := by
  induction q with
  | zero => rw [List.range_zero, List.flatMap_nil, Nat.mul_zero, List.take_zero]
  | succ q ih =>
    rw [List.range_succ, List.flatMap_append, ih, List.flatMap_singleton, Nat.mul_succ,
      List.take_add, chunk]

theorem flatMap_chunk {l : List α} (h : l.length = n * q) :
    (List.range q).flatMap (chunk n l) = l := by
  rw [flatMap_chunk_take, ← h, List.take_length]

theorem flatMap_range_mul (f : ℕ → List α) (q k : ℕ) :
    (List.range (q * k)).flatMap f =
      (List.range q).flatMap fun s => (List.range k).flatMap fun c => f (s * k + c) := by
  induction q with
  | zero => rw [Nat.zero_mul, List.range_zero, List.flatMap_nil, List.flatMap_nil]
  | succ q ih =>
    rw [Nat.succ_mul, List.range_add, List.flatMap_append, ih, List.range_succ,
      List.flatMap_append, List.flatMap_singleton, List.flatMap_map]

theorem flatMap_range_eq (f : ℕ → List α) (h : i < k) :
    ((List.range k).flatMap fun c => if c = i then f c else []) = f i := by
  induction k with
  | zero => exact absurd h (Nat.not_lt_zero i)
  | succ k ih =>
    rw [List.range_succ, List.flatMap_append, List.flatMap_singleton]
    by_cases hk : i < k
    · rw [ih hk, if_neg (Nat.ne_of_gt hk), List.append_nil]
    · have hi : i = k := by omega
      subst hi
      have hnone : ((List.range i).flatMap fun c => if c = i then f c else []) = [] := by
        refine List.flatMap_eq_nil_iff.2 fun c hc => if_neg ?_
        exact Nat.ne_of_lt (List.mem_range.1 hc)
      rw [hnone, if_pos rfl, List.nil_append]

theorem mapM_eq_some {f : α → Option β} {g : α → β} {l : List α} (h : ∀ x ∈ l, f x = some (g x)) :
    l.mapM f = some (l.map g) := by
  induction l with
  | nil => rfl
  | cons x l ih =>
    rw [List.mapM_cons, h x List.mem_cons_self, ih fun y hy => h y (List.mem_cons_of_mem x hy)]
    rfl

theorem mapM_map_eq_some {f : β → Option ι} {g : α → β} {h : α → ι} {l : List α}
    (hl : ∀ x ∈ l, f (g x) = some (h x)) : (l.map g).mapM f = some (l.map h) := by
  induction l with
  | nil => rfl
  | cons x l ih =>
    rw [List.map_cons, List.mapM_cons, hl x List.mem_cons_self,
      ih fun y hy => hl y (List.mem_cons_of_mem x hy)]
    rfl

theorem of_mapM_eq_some {f : α → Option β} {l : List α} {out : List β} (h : l.mapM f = some out) :
    l.map f = out.map some := by
  induction l generalizing out with
  | nil =>
    cases h
    rfl
  | cons x l ih =>
    rw [List.mapM_cons] at h
    obtain ⟨y, hy, h⟩ := Option.bind_eq_some_iff.1 h
    obtain ⟨ys, hys, h⟩ := Option.bind_eq_some_iff.1 h
    cases h
    rw [List.map_cons, List.map_cons, hy, ih hys]

variable [DecidableEq ι]

theorem foldl_update (f : ι → β) (p : ι → β) (l : List ι) (x : ι) :
    l.foldl (fun p r => Function.update p r (f r)) p x = if x ∈ l then f x else p x := by
  induction l generalizing p with
  | nil => rfl
  | cons r l ih =>
    rw [List.foldl_cons, ih]
    by_cases hx : x ∈ l
    · rw [if_pos hx, if_pos (List.mem_cons_of_mem r hx)]
    · by_cases hr : x = r
      · subst hr
        rw [if_neg hx, if_pos List.mem_cons_self, Function.update_self]
      · rw [if_neg hx, if_neg (by simp only [List.mem_cons, hr, hx, or_self, not_false_iff]),
          Function.update_of_ne hr]

theorem foldl_update_self (f : β → β) (p : ι → β) {l : List ι} (hl : l.Nodup) (x : ι) :
    l.foldl (fun p r => Function.update p r (f (p r))) p x = if x ∈ l then f (p x) else p x := by
  induction l generalizing p with
  | nil => rfl
  | cons r l ih =>
    obtain ⟨hr, hl⟩ := List.nodup_cons.1 hl
    rw [List.foldl_cons, ih _ hl]
    by_cases hxr : x = r
    · subst hxr
      rw [if_neg hr, if_pos List.mem_cons_self, Function.update_self]
    · rw [Function.update_of_ne hxr]
      simp only [List.mem_cons, hxr, false_or]

end MyScripts.Library.Chunks
