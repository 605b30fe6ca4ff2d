import Mathlib.Data.List.Basic

/-!
# Programs over a state, and loops that stop at the first failure

`Keeps` says that a program keeps a condition on the state. `Confined` says it of
every condition of a class, and tells what values the program gives; the class
stands for the effects the program may have. `loop` runs a body over a list and
leaves it after the first element that the body fails on.
-/
namespace MyScripts.Library.Imperative

variable {S α β : Type} {I : S → Prop} {K : (S → Prop) → Prop} {P : α → Prop} {Q : β → Prop}

def Keeps (I : S → Prop) (m : StateM S α) : Prop := ∀ s, I s → I (m s).2

theorem Keeps.pure (a : α) : Keeps I (Pure.pure a : StateM S α) := fun _ h => h

theorem Keeps.bind {m : StateM S α} {f : α → StateM S β} (hm : Keeps I m)
    (hf : ∀ a, Keeps I (f a)) : Keeps I (m >>= f) :=
  fun s hs => hf (m s).1 (m s).2 (hm s hs)

theorem Keeps.ite {c : Prop} [Decidable c] {m n : StateM S α} (hm : Keeps I m) (hn : Keeps I n) :
    Keeps I (if c then m else n) := by
  split_ifs
  · exact hm
  · exact hn

structure Confined (K : (S → Prop) → Prop) (P : α → Prop) (m : StateM S α) : Prop where
  keeps : ∀ I, K I → Keeps I m
  gives : ∀ s, P (m s).1

theorem Confined.pure {a : α} (h : P a) : Confined K P (Pure.pure a : StateM S α) where
  keeps := fun _ _ => Keeps.pure a
  gives := fun _ => h

theorem Confined.bind {m : StateM S α} {f : α → StateM S β} (hm : Confined K P m)
    (hf : ∀ a, P a → Confined K Q (f a)) : Confined K Q (m >>= f) where
  keeps := fun I hI s hs =>
    (hf (m s).1 (hm.gives s)).keeps I hI (m s).2 (hm.keeps I hI s hs)
  gives := fun s => (hf (m s).1 (hm.gives s)).gives (m s).2

theorem Confined.ite {c : Prop} [Decidable c] {m n : StateM S α} (hm : c → Confined K P m)
    (hn : ¬c → Confined K P n) : Confined K P (if c then m else n) := by
  split_ifs with h
  · exact hm h
  · exact hn h

theorem Confined.mono {P' : α → Prop} {m : StateM S α} (hm : Confined K P m)
    (h : ∀ a, P a → P' a) : Confined K P' m where
  keeps := hm.keeps
  gives := fun s => h _ (hm.gives s)

/-- Started where `I` holds, the program ends where `R` holds of its value and the state. -/
structure Triple (I : S → Prop) (m : StateM S α) (R : α → S → Prop) : Prop where
  run : ∀ s, I s → R (m s).1 (m s).2

section Triple

variable {R : α → S → Prop} {R' : β → S → Prop}

theorem Triple.pure {a : α} (h : ∀ s, I s → R a s) : Triple I (Pure.pure a : StateM S α) R := ⟨h⟩

theorem Triple.bind {m : StateM S α} {f : α → StateM S β} (hm : Triple I m R)
    (hf : ∀ a, Triple (R a) (f a) R') : Triple I (m >>= f) R' :=
  ⟨fun s hs => (hf (m s).1).run (m s).2 (hm.run s hs)⟩

theorem Triple.ite {c : Prop} [Decidable c] {m n : StateM S α} (hm : c → Triple I m R)
    (hn : ¬c → Triple I n R) : Triple I (if c then m else n) R := by
  split_ifs with h
  · exact hm h
  · exact hn h

end Triple

variable {bad : β → Prop} [DecidablePred bad] {step : α → β → StateM S β} {l l₁ l₂ : List α}
  {b : β} {s : S} {f : ℕ}

def loop (bad : β → Prop) [DecidablePred bad] (step : α → β → StateM S β) : List α → β → StateM S β
  | [], b => pure b
  | a :: as, b => do
    let b ← step a b
    if bad b then pure b else loop bad step as b

def Succeeds (bad : β → Prop) (step : α → β → StateM S β) : List α → β → S → Prop
  | [], _, _ => True
  | a :: as, b, s => ¬bad (step a b s).1 ∧ Succeeds bad step as (step a b s).1 (step a b s).2

instance decidableSucceeds : (l : List α) → (b : β) → (s : S) → Decidable (Succeeds bad step l b s)
  | [], _, _ => isTrue trivial
  | a :: as, b, s =>
    have := decidableSucceeds as (step a b s).1 (step a b s).2
    inferInstanceAs (Decidable (¬bad (step a b s).1 ∧ _))

/-- The body fails on the element at position `f`, and on none before it. -/
structure FailsFirst (bad : β → Prop) (step : α → β → StateM S β) (l : List α) (b : β) (s : S)
    (f : ℕ) : Prop where
  lt : f < l.length
  before : Succeeds bad step (l.take f) b s
  at_self : ¬Succeeds bad step (l.take (f + 1)) b s

theorem loop_cons (a : α) : loop bad step (a :: l) b s =
    if bad (step a b s).1 then step a b s else loop bad step l (step a b s).1 (step a b s).2 := by
  change (if bad (step a b s).1 then (pure (step a b s).1 : StateM S β)
    else loop bad step l (step a b s).1) (step a b s).2 = _
  split_ifs
  · rfl
  · rfl

theorem loop_cons_of_bad {a : α} (h : bad (step a b s).1) :
    loop bad step (a :: l) b s = step a b s := by
  rw [loop_cons, if_pos h]

theorem loop_cons_of_not {a : α} (h : ¬bad (step a b s).1) :
    loop bad step (a :: l) b s = loop bad step l (step a b s).1 (step a b s).2 := by
  rw [loop_cons, if_neg h]

theorem bad_loop (hb : ¬bad b) : bad (loop bad step l b s).1 ↔ ¬Succeeds bad step l b s := by
  induction l generalizing b s with
  | nil => exact iff_of_false hb (fun h => h trivial)
  | cons a as ih =>
    by_cases h : bad (step a b s).1
    · rw [loop_cons_of_bad h]
      exact iff_of_true h (fun hs => hs.1 h)
    · rw [loop_cons_of_not h, ih h, Succeeds]
      simp only [h, not_false_iff, true_and]

theorem loop_append_of_succeeds (h : Succeeds bad step l₁ b s) : loop bad step (l₁ ++ l₂) b s =
    loop bad step l₂ (loop bad step l₁ b s).1 (loop bad step l₁ b s).2 := by
  induction l₁ generalizing b s with
  | nil => rfl
  | cons a as ih =>
    rw [List.cons_append, loop_cons_of_not h.1, loop_cons_of_not h.1, ih h.2]

theorem loop_append_of_not (h : ¬Succeeds bad step l₁ b s) :
    loop bad step (l₁ ++ l₂) b s = loop bad step l₁ b s := by
  induction l₁ generalizing b s with
  | nil => exact absurd trivial h
  | cons a as ih =>
    rw [List.cons_append]
    by_cases ha : bad (step a b s).1
    · rw [loop_cons_of_bad ha, loop_cons_of_bad ha]
    · rw [loop_cons_of_not ha, loop_cons_of_not ha]
      exact ih fun hs => h ⟨ha, hs⟩

theorem succeeds_append : Succeeds bad step (l₁ ++ l₂) b s ↔ Succeeds bad step l₁ b s ∧
    Succeeds bad step l₂ (loop bad step l₁ b s).1 (loop bad step l₁ b s).2 := by
  induction l₁ generalizing b s with
  | nil => exact (and_iff_right trivial).symm
  | cons a as ih =>
    rw [List.cons_append, Succeeds, Succeeds, and_assoc]
    apply and_congr_right
    intro h
    rw [ih, loop_cons_of_not h]

theorem FailsFirst.not_succeeds (h : FailsFirst bad step l b s f) : ¬Succeeds bad step l b s := by
  intro hs
  rw [← List.take_append_drop (f + 1) l, succeeds_append] at hs
  exact h.at_self hs.1

theorem FailsFirst.loop_eq (h : FailsFirst bad step l b s f) :
    ∃ a, l[f]? = some a ∧ loop bad step l b s =
      step a (loop bad step (l.take f) b s).1 (loop bad step (l.take f) b s).2 := by
  have hlast := h.at_self
  have hloop : loop bad step l b s = loop bad step (l.take (f + 1)) b s := by
    conv_lhs => rw [← List.take_append_drop (f + 1) l]
    exact loop_append_of_not hlast
  rw [List.take_succ_eq_append_getElem h.lt, succeeds_append] at hlast
  refine ⟨l.get ⟨f, h.lt⟩, List.getElem?_eq_getElem h.lt, ?_⟩
  rw [hloop, List.take_succ_eq_append_getElem h.lt, loop_append_of_succeeds h.before]
  apply loop_cons_of_bad
  by_contra hok
  exact hlast ⟨h.before, hok, trivial⟩

theorem Keeps.loop (h : ∀ a ∈ l, ∀ b, Keeps I (step a b)) : Keeps I (loop bad step l b) := by
  induction l generalizing b with
  | nil => exact Keeps.pure b
  | cons a as ih =>
    apply Keeps.bind
    · exact h a List.mem_cons_self b
    · intro b'
      apply Keeps.ite
      · exact Keeps.pure b'
      · exact ih fun a' ha' => h a' (List.mem_cons_of_mem a ha')

end MyScripts.Library.Imperative
