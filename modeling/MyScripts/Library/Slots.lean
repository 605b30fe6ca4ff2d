import Mathlib.Data.Nat.Notation
import Mathlib.Order.Basic
import Mathlib.Order.Interval.Finset.Nat
import Mathlib.Tactic.SplitIfs

/-!
# Slots

A table of half-open intervals with a key each, in which a number is looked up
as in a weighted draw. A table that is built by putting each slot where the one
before it ends tiles an initial segment, and there the look-up finds the only
slot that holds the number.
-/
namespace MyScripts.Library.Slots

structure Slot (κ : Type*) where
  start : ℕ
  stop : ℕ
  key : κ

variable {κ : Type*} {l : List (Slot κ)} {n m x : ℕ}

def Slot.Holds (s : Slot κ) (x : ℕ) : Prop := s.start ≤ x ∧ x < s.stop

instance (s : Slot κ) (x : ℕ) : Decidable (s.Holds x) :=
  inferInstanceAs (Decidable (_ ∧ _))

def holders (l : List (Slot κ)) (x : ℕ) : ℕ := l.countP fun s => s.Holds x

def lookup (l : List (Slot κ)) (x : ℕ) : Option κ := (l.find? fun s => s.Holds x).map Slot.key

/-- Every number below `n` is in one slot, every other number in none. -/
def Tiles (l : List (Slot κ)) (n : ℕ) : Prop := ∀ x, holders l x = if x < n then 1 else 0

theorem tiles_nil : Tiles ([] : List (Slot κ)) 0 := fun _ => rfl

theorem Tiles.cons (h : Tiles l n) (w : ℕ) (k : κ) : Tiles (⟨n, n + w, k⟩ :: l) (n + w) := by
  intro x
  have hx := h x
  unfold holders at hx ⊢
  have hnew : (Slot.mk n (n + w) k).Holds x ↔ n ≤ x ∧ x < n + w := Iff.rfl
  rw [List.countP_cons, hx]
  simp only [decide_eq_true_eq, hnew]
  split_ifs <;> omega

theorem Tiles.holders_eq_one (h : Tiles l n) : holders l x = 1 ↔ x < n := by
  rw [h x]
  split_ifs with hx
  · simp only [hx]
  · simp only [hx]

theorem Tiles.covers_iff (h : Tiles l n) : (∀ x < m, holders l x = 1) ↔ m ≤ n := by
  constructor
  · intro hall
    by_contra hlt
    exact absurd (h.holders_eq_one.1 (hall n (Nat.lt_of_not_le hlt))) (Nat.lt_irrefl n)
  · exact fun hle x hx => h.holders_eq_one.2 (Nat.lt_of_lt_of_le hx hle)

theorem lookup_eq_none : lookup l x = none ↔ holders l x = 0 := by
  simp only [lookup, holders, Option.map_eq_none_iff, List.find?_eq_none, List.countP_eq_zero]

theorem Tiles.lookup_eq_none (h : Tiles l n) : lookup l x = none ↔ n ≤ x := by
  rw [Slots.lookup_eq_none, h x]
  split_ifs with hx
  · simp only [false_iff, Nat.not_le, hx]
  · simp only [Nat.le_of_not_lt hx]

theorem lookup_cons_of_not_holds {s : Slot κ} (h : ¬s.Holds x) : lookup (s :: l) x = lookup l x := by
  rw [lookup, List.find?_cons_of_neg (by simpa only [decide_eq_true_eq] using h), lookup]

theorem lookup_cons_of_holds {s : Slot κ} (h : s.Holds x) : lookup (s :: l) x = some s.key := by
  rw [lookup, List.find?_cons_of_pos (by simpa only [decide_eq_true_eq] using h), Option.map_some]

theorem key_mem_of_lookup {k : κ} (h : lookup l x = some k) : ∃ s ∈ l, s.key = k := by
  obtain ⟨s, hs, rfl⟩ := Option.map_eq_some_iff.1 h
  exact ⟨s, List.mem_of_find?_eq_some hs, rfl⟩

theorem Tiles.perm (h : Tiles l n) {l' : List (Slot κ)} (hp : l'.Perm l) : Tiles l' n :=
  fun x => (hp.countP_eq _).trans (h x)

theorem Tiles.holders_le_one (h : Tiles l n) (x : ℕ) : holders l x ≤ 1 := by
  rw [h x]
  split_ifs <;> simp

theorem Tiles.eq_of_holds (h : Tiles l n) {s t : Slot κ} (hs : s ∈ l) (ht : t ∈ l)
    (hsx : s.Holds x) (htx : t.Holds x) : s = t := by
  have hle := h.holders_le_one x
  rw [holders, List.countP_eq_length_filter] at hle
  have hs' : s ∈ l.filter fun s => s.Holds x := by simp [hs, hsx]
  have ht' : t ∈ l.filter fun s => s.Holds x := by simp [ht, htx]
  obtain ⟨i, hi, rfl⟩ := List.getElem_of_mem hs'
  obtain ⟨j, hj, rfl⟩ := List.getElem_of_mem ht'
  have hij : i = j := by omega
  simp only [hij]

/-- The look-up does not depend on the order of the slots. -/
theorem Tiles.lookup_eq_some (h : Tiles l n) {k : κ} :
    lookup l x = some k ↔ ∃ s ∈ l, s.Holds x ∧ s.key = k := by
  constructor
  · intro hl
    obtain ⟨s, hs, rfl⟩ := Option.map_eq_some_iff.1 hl
    exact ⟨s, List.mem_of_find?_eq_some hs, by simpa using List.find?_some hs, rfl⟩
  · rintro ⟨s, hs, hsx, rfl⟩
    cases hl : l.find? fun s => s.Holds x with
    | none =>
      have hnot := List.find?_eq_none.1 hl s hs
      simp [hsx] at hnot
    | some t =>
      have htx : t.Holds x := by simpa using List.find?_some hl
      rw [lookup, hl, h.eq_of_holds (List.mem_of_find?_eq_some hl) hs htx hsx, Option.map_some]

theorem Tiles.card_lookup [DecidableEq κ] (h : Tiles l n) {s : Slot κ} (hs : s ∈ l)
    (hkey : ∀ t ∈ l, t.key = s.key → t = s) (hstop : s.stop ≤ m) :
    ((Finset.range m).filter fun x => lookup l x = some s.key).card = s.stop - s.start := by
  have hdrawn : ((Finset.range m).filter fun x => lookup l x = some s.key) =
      Finset.Ico s.start s.stop := by
    ext x
    rw [Finset.mem_filter, Finset.mem_range, Finset.mem_Ico, h.lookup_eq_some]
    constructor
    · rintro ⟨_, t, ht, htx, htk⟩
      rwa [hkey t ht htk] at htx
    · intro hx
      exact ⟨hx.2.trans_le hstop, s, hs, hx, rfl⟩
  rw [hdrawn, Nat.card_Ico]

end MyScripts.Library.Slots
