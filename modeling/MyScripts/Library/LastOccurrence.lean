import Mathlib.Data.List.Infix

/-!
# The last occurrence of a word

What a greedy pattern matches: the text before the last occurrence and the text
after it, and the text with that occurrence replaced.
-/
namespace MyScripts.Library.LastOccurrence

variable {α : Type*} [DecidableEq α] {old new s u v a b : List α}

def lastSplit (old : List α) : List α → Option (List α × List α)
  | [] => if old = [] then some ([], []) else none
  | c :: s =>
    match lastSplit old s with
    | some (a, b) => some (c :: a, b)
    | none => if old <+: c :: s then some ([], (c :: s).drop old.length) else none

def replaceLast (old new s : List α) : List α :=
  match lastSplit old s with
  | some (a, b) => a ++ new ++ b
  | none => s

theorem lastSplit_eq (h : lastSplit old s = some (a, b)) : s = a ++ old ++ b := by
  induction s generalizing a with
  | nil =>
    rw [lastSplit] at h
    split_ifs at h with hold
    simp only [Option.some.injEq, Prod.mk.injEq] at h
    simp [hold, ← h.1, ← h.2]
  | cons c s ih =>
    rw [lastSplit] at h
    split at h
    · next a' b' hs =>
      simp only [Option.some.injEq, Prod.mk.injEq] at h
      obtain ⟨rfl, rfl⟩ := h
      rw [ih hs]
      rfl
    · split_ifs at h with hold
      simp only [Option.some.injEq, Prod.mk.injEq] at h
      obtain ⟨rfl, rfl⟩ := h
      exact (List.prefix_append_drop hold)

theorem lastSplit_eq_none : lastSplit old s = none ↔ ¬old <:+: s := by
  induction s with
  | nil =>
    by_cases hold : old = []
    · simp [lastSplit, hold]
    · simp [lastSplit, hold]
  | cons c s ih =>
    rw [lastSplit, List.infix_cons_iff]
    cases hs : lastSplit old s with
    | none =>
      have hnot := ih.1 hs
      by_cases hold : old <+: c :: s
      · simp [hold]
      · simp [hold, hnot]
    | some r =>
      have hsome : old <:+: s := by
        by_contra hnot
        rw [ih.2 hnot] at hs
        cases hs
      simp [hsome]

theorem lastSplit_append (u : List α) (h : lastSplit old v = some (a, b)) :
    lastSplit old (u ++ v) = some (u ++ a, b) := by
  induction u with
  | nil => exact h
  | cons c u ih => rw [List.cons_append, lastSplit, ih, List.cons_append]

theorem replaceLast_of_not (h : ¬old <:+: s) : replaceLast old new s = s := by
  rw [replaceLast, lastSplit_eq_none.2 h]

theorem exists_replaceLast (new : List α) (h : old <:+: s) : ∃ a b, lastSplit old s = some (a, b) ∧
    s = a ++ old ++ b ∧ replaceLast old new s = a ++ new ++ b := by
  cases hs : lastSplit old s with
  | none => exact absurd h (lastSplit_eq_none.1 hs)
  | some r =>
    obtain ⟨a, b⟩ := r
    exact ⟨a, b, rfl, lastSplit_eq hs, by rw [replaceLast, hs]⟩

end MyScripts.Library.LastOccurrence
