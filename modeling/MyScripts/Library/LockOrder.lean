import Mathlib.Logic.Function.Basic
import Mathlib.Order.WellFounded

/-!
# Locks that are taken in one order

A lock has a holder or none, and a thread that wants a lock with a holder is
blocked. If a thread that holds a lock only ever wants one that comes after it,
some thread can go on.
-/
namespace MyScripts.Library.LockOrder

variable {ι α : Type*} {holder : α → Option ι} {wants : ι → Option α} {held : ι → List α}
  {r : α → α → Prop} {a b : α} {i j : ι} {l : List α}

/-- The locks and the threads agree on who holds what. -/
def Owns (holder : α → Option ι) (held : ι → List α) : Prop :=
  ∀ a i, holder a = some i ↔ a ∈ held i

section Update

variable [DecidableEq ι] [DecidableEq α]

theorem Owns.lock (h : Owns holder held) (hfree : holder a = none) (i : ι) :
    Owns (Function.update holder a (some i)) (Function.update held i (a :: held i)) := by
  intro b j
  by_cases hb : b = a
  · subst hb
    rw [Function.update_self, Option.some.injEq]
    by_cases hj : j = i
    · simp [hj]
    · rw [Function.update_of_ne hj, ← h b j, hfree]
      simp [Ne.symm hj]
  · rw [Function.update_of_ne hb, h b j]
    by_cases hj : j = i
    · simp [hj, hb]
    · rw [Function.update_of_ne hj]

theorem Owns.unlock (h : Owns holder held) (hi : held i = a :: l) (ha : a ∉ l) :
    Owns (Function.update holder a none) (Function.update held i l) := by
  have hholder : holder a = some i := (h a i).2 (by simp [hi])
  intro b j
  by_cases hb : b = a
  · subst hb
    rw [Function.update_self]
    by_cases hj : j = i
    · simp [hj, ha]
    · rw [Function.update_of_ne hj, ← h b j, hholder]
      simp [Ne.symm hj]
  · rw [Function.update_of_ne hb, h b j]
    by_cases hj : j = i
    · simp [hj, hi, hb]
    · rw [Function.update_of_ne hj]

end Update

def Blocked (holder : α → Option ι) (wants : ι → Option α) (i : ι) : Prop :=
  ∃ a, wants i = some a ∧ holder a ≠ none

/-- Whoever holds a lock wants one that comes after it, if any. -/
def Ordered (holder : α → Option ι) (wants : ι → Option α) (r : α → α → Prop) : Prop :=
  ∀ a i b, holder a = some i → wants i = some b → r b a

/-- The chain from the holder of a lock to the holder of the lock it wants has an end. -/
theorem exists_holder_not_blocked (hr : WellFounded r) (h : Ordered holder wants r)
    (ha : holder a ≠ none) : ∃ b j, holder b = some j ∧ ¬Blocked holder wants j := by
  induction a using hr.induction with
  | _ a ih =>
    obtain ⟨i, hi⟩ := Option.ne_none_iff_exists'.1 ha
    by_cases hblocked : Blocked holder wants i
    · obtain ⟨b, hb, hheld⟩ := hblocked
      exact ih b (h a i b hi hb) hheld
    · exact ⟨a, i, hi, hblocked⟩

theorem exists_not_blocked (hr : WellFounded r) (h : Ordered holder wants r) (i : ι) :
    ∃ j, (j = i ∨ ∃ b, holder b = some j) ∧ ¬Blocked holder wants j := by
  by_cases hblocked : Blocked holder wants i
  · obtain ⟨a, -, ha⟩ := hblocked
    obtain ⟨b, j, hj, hgo⟩ := exists_holder_not_blocked hr h ha
    exact ⟨j, Or.inr ⟨b, hj⟩, hgo⟩
  · exact ⟨i, Or.inl rfl, hblocked⟩

end MyScripts.Library.LockOrder
