import MyScripts.Shark.Manager
import Mathlib.Order.Bounds.Basic

/-!
# The furthest list of a pool, and where its survivor is stopped

`oper_thread` keeps the position of the furthest list of its pool, and
`check_pool_notice_destroy` compares the surviving pool's with the destroy
point. Both treat a position in the group they stand in differently from one
in another group.
-/
namespace MyScripts.Shark.Manager
open Library.Run

variable {n : ℕ} {p q : Pool} {i : ListIndex} {s t : State} {e : Event} {es fs : List Event}

structure Recorded (s t : State) : Prop where
  progress : t.progress = s.progress
  errors : t.errors = s.errors
  destroyMark : t.destroyMark = s.destroyMark
  limitPending : t.limitPending = s.limitPending

theorem Recorded.refl : Recorded s s := ⟨rfl, rfl, rfl, rfl⟩

theorem recorded_willDestroyDigi (s : State) (count : ℕ) (which : ℤ) :
    Recorded s (willDestroyDigi s count which) := by
  unfold willDestroyDigi
  split_ifs <;> exact ⟨rfl, rfl, rfl, rfl⟩

theorem recorded_afterDestroy (s : State) (p : Pool) (after : After) :
    Recorded s (afterDestroy s p after) := by
  cases after with
  | willDisk =>
    simp only [afterDestroy]
    split_ifs
    · exact ⟨rfl, rfl, rfl, rfl⟩
    · have hrest := recorded_willDestroyDigi (s.setMask .disk .destroyed) 1 (-1)
      exact ⟨hrest.progress, hrest.errors, hrest.destroyMark, hrest.limitPending⟩
  | willDigi count =>
    simp only [afterDestroy]
    split_ifs <;> exact ⟨rfl, rfl, rfl, rfl⟩
  | notice => exact ⟨rfl, rfl, rfl, rfl⟩
  | allDest => exact ⟨rfl, rfl, rfl, rfl⟩

theorem recorded_manage (h : manage s = some t) : Recorded s t := by
  unfold manage at h
  generalize s.pc = pc at h
  cases pc with
  | sleeping => cases h; exact ⟨rfl, rfl, rfl, rfl⟩
  | returned r => cases h
  | loop st which =>
    cases st with
    | willDestroy =>
      cases h
      unfold checkPoolWillDestroy
      split_ifs
      · exact ⟨rfl, rfl, rfl, rfl⟩
      · exact recorded_willDestroyDigi s 0 which
    | noticeOther =>
      cases h
      unfold checkPoolNoticeDestroy
      dsimp only
      split_ifs <;> exact ⟨rfl, rfl, rfl, rfl⟩
    | _ => cases h; exact ⟨rfl, rfl, rfl, rfl⟩
  | destroying p after =>
    simp only [Option.ite_none_left_eq_some, Option.some.injEq] at h
    obtain ⟨_, rfl⟩ := h
    have hrest := recorded_afterDestroy (s.join p) p after
    exact ⟨hrest.progress, hrest.errors, hrest.destroyMark, hrest.limitPending⟩

def completed (p : Pool) (es : List Event) : List ListIndex :=
  es.filterMap fun e =>
    match e with
    | .oper q i => if q = p then some i else none
    | _ => none

theorem completed_append (p : Pool) (es fs : List Event) :
    completed p (es ++ fs) = completed p es ++ completed p fs :=
  List.filterMap_append ..

theorem oper_progress (s : State) (p : Pool) (i : ListIndex) :
    (oper s p i).progress p =
      if (s.progress p).group ≤ i.group then i else s.progress p := by
  unfold oper
  split_ifs
  · exact Function.update_self ..
  · rfl

theorem oper_progress_of_ne (s : State) (i : ListIndex) (h : q ≠ p) :
    (oper s p i).progress q = s.progress q := by
  unfold oper
  split_ifs
  · exact Function.update_of_ne h ..
  · rfl

theorem step_progress (p : Pool) (h : step n s e = some t) :
    (∃ i, e = .oper p i ∧ completed p [e] = [i] ∧
      t.progress p = if (s.progress p).group ≤ i.group then i else s.progress p) ∨
    completed p [e] = [] ∧ t.progress p = s.progress p := by
  cases e with
  | manage => exact Or.inr ⟨rfl, by rw [(recorded_manage h).progress]⟩
  | oper q i =>
    simp only [step, Option.ite_none_left_eq_some, Option.some.injEq] at h
    obtain ⟨_, rfl⟩ := h
    by_cases hq : q = p
    · subst hq
      exact Or.inl ⟨i, rfl, by simp [completed], oper_progress s q i⟩
    · exact Or.inr ⟨by simp [completed, hq], oper_progress_of_ne s i (Ne.symm hq)⟩
  | finish q =>
    simp only [step, Option.ite_none_left_eq_some, Option.some.injEq] at h
    obtain ⟨_, rfl⟩ := h
    exact Or.inr ⟨rfl, rfl⟩
  | error q i =>
    simp only [step, Option.ite_none_left_eq_some, Option.some.injEq] at h
    obtain ⟨_, rfl⟩ := h
    refine Or.inr ⟨rfl, ?_⟩
    unfold updateMinError
    dsimp only
    split_ifs <;> rfl
  | limit q =>
    simp only [step, Option.ite_none_right_eq_some, Option.some.injEq] at h
    obtain ⟨_, rfl⟩ := h
    exact Or.inr ⟨rfl, rfl⟩

/-- No list is completed after a later one of the pool's furthest group. -/
def InOrder (s : State) : Event → Prop
  | .oper p i => i.group = (s.progress p).group → (s.progress p).opList ≤ i.opList
  | _ => True

theorem InOrder.progress_eq (hg : InOrder s (.oper p i)) :
    (if (s.progress p).group ≤ i.group then i else s.progress p) = max i (s.progress p) := by
  split_ifs with h
  · rcases Nat.lt_or_eq_of_le h with hlt | heq
    · exact (max_eq_left (ListIndex.lt_iff.2 (Or.inl hlt)).le).symm
    · refine (max_eq_left (not_lt.1 fun hlt => ?_)).symm
      rcases ListIndex.lt_iff.1 hlt with hgroup | ⟨_, hlist⟩
      · omega
      · have hle := hg heq.symm
        omega
  · exact (max_eq_right (ListIndex.lt_iff.2 (Or.inl (Nat.lt_of_not_le h))).le).symm

def Furthest (is : List ListIndex) (m : ListIndex) : Prop := IsGreatest {i | i ∈ is} m

theorem Furthest.snoc {is : List ListIndex} {m : ListIndex} (h : Furthest is m) (i : ListIndex) :
    Furthest (is ++ [i]) (max i m) := by
  have hset : {j | j ∈ is ++ [i]} = insert i {j | j ∈ is} := by
    ext j
    simp [or_comm]
  unfold Furthest
  rw [hset]
  exact h.insert i

structure HighWater (n : ℕ) (s₀ : State) (es : List Event) : Prop where
  furthest : ∀ p pre, pre <+: es → ∀ s, exec (step n) s₀ pre = some s → completed p pre ≠ [] →
    Furthest (completed p pre) (s.progress p)
  increases : ∀ p pre mid, pre ++ mid <+: es → ∀ s t, exec (step n) s₀ pre = some s →
    exec (step n) s mid = some t → s.progress p ≤ t.progress p

theorem step_progress_le (hg : InOrder s e) (h : step n s e = some t) (p : Pool) :
    s.progress p ≤ t.progress p := by
  rcases step_progress p h with ⟨i, rfl, _, ht⟩ | ⟨_, ht⟩
  · rw [ht, hg.progress_eq]
    exact le_max_right ..
  · rw [ht]

theorem zero_le_index (i : ListIndex) : (⟨0, 0⟩ : ListIndex) ≤ i := by
  refine not_lt.1 fun h => ?_
  rcases ListIndex.lt_iff.1 h with h | ⟨_, h⟩ <;> exact Nat.not_lt_zero _ h

theorem furthest_of_guarded {m : ListIndex} {min : Pool → ListIndex}
    (hg : Guarded (step n) InOrder (init m min) es) (h : exec (step n) (init m min) es = some s)
    (p : Pool) :
    completed p es = [] ∧ s.progress p = ⟨0, 0⟩ ∨ Furthest (completed p es) (s.progress p) := by
  refine history_guarded (I := fun es s =>
    completed p es = [] ∧ s.progress p = ⟨0, 0⟩ ∨ Furthest (completed p es) (s.progress p))
    ?_ (Or.inl ⟨rfl, rfl⟩) hg h
  intro fs s e t hI hge hstep
  rw [completed_append]
  rcases step_progress p hstep with ⟨i, rfl, hdone, ht⟩ | ⟨hdone, ht⟩
  · right
    rw [hdone, ht, hge.progress_eq]
    rcases hI with ⟨hnone, hzero⟩ | hI
    · -- the first list the pool completes
      rw [hnone, hzero, max_eq_left (zero_le_index i)]
      exact ⟨List.mem_singleton_self i, fun j hj => (List.mem_singleton.1 hj).le⟩
    · exact hI.snoc i
  · rw [hdone, ht, List.append_nil]
    exact hI

theorem highWater_of_guarded {m : ListIndex} {min : Pool → ListIndex}
    (hg : Guarded (step n) InOrder (init m min) es) : HighWater n (init m min) es where
  furthest p pre hp s hs hne := by
    rcases furthest_of_guarded (hg.of_prefix hp) hs p with ⟨hnone, _⟩ | hfar
    · exact absurd hnone hne
    · exact hfar
  increases p pre mid hp s t hs ht := by
    have hmid := ((guarded_append hs).1 (hg.of_prefix hp)).2
    exact invariant_guarded (I := fun u => s.progress p ≤ u.progress p)
      (fun u e v hu hge hv => hu.trans (step_progress_le hge hv p)) le_rfl hmid ht

theorem not_inOrder (h : ¬InOrder s e) : ∃ p i, e = .oper p i ∧
    i.group = (s.progress p).group ∧ i.opList < (s.progress p).opList := by
  cases e with
  | oper p i =>
    simp only [InOrder, Classical.not_imp, Nat.not_le] at h
    exact ⟨p, i, rfl, h⟩
  | _ => exact absurd trivial h

/-- In a run the positions are the furthest ones if and only if no pool
completes a list after a later one of the group its position is in. -/
theorem highWater_iff_inOrder (n : ℕ) (m : ListIndex) (min : Pool → ListIndex) (es : List Event)
    (t : State) (h : exec (step n) (init m min) es = some t) :
    HighWater n (init m min) es ↔ Guarded (step n) InOrder (init m min) es := by
  refine ⟨fun hw => ?_, highWater_of_guarded⟩
  by_contra hn
  obtain ⟨pre, e, post, u, v, hes, hpre, hne, hv, _⟩ := exists_of_not_guarded h hn
  obtain ⟨p, i, rfl, hgroup, hlist⟩ := not_inOrder hne
  have hp : pre ++ [.oper p i] <+: es := ⟨post, by rw [hes, List.append_assoc]; rfl⟩
  have hle := hw.increases p pre _ hp u v hpre (exec_cons_eq_some.2 ⟨v, hv, rfl⟩)
  have hlt : v.progress p < u.progress p := by
    rcases step_progress p hv with ⟨j, hj, _, hvp⟩ | ⟨hnone, _⟩
    · cases hj
      rw [hvp, if_pos hgroup.ge]
      exact ListIndex.lt_iff.2 (Or.inr ⟨hgroup, hlist⟩)
    · simp [completed] at hnone
  exact absurd hle (not_le.2 hlt)

theorem highWater_iff_inOrder_twoGroups : HighWater 1 (init ⟨0, 0⟩ fun _ => ⟨0, 0⟩)
    [.oper .disk ⟨1, 0⟩, .oper .disk ⟨0, 3⟩, .oper .disk ⟨1, 2⟩] :=
  (highWater_iff_inOrder 1 ⟨0, 0⟩ _ _ _ rfl).2
    (.cons (fun _ => by decide) rfl <| .cons (fun _ => by decide) rfl <|
      .cons (fun _ => by decide) rfl trivial)

theorem highWater_false_overtaken : ¬HighWater 1 (init ⟨0, 0⟩ fun _ => ⟨0, 0⟩)
    [.oper .disk ⟨0, 1⟩, .oper .disk ⟨0, 0⟩] := by
  intro h
  have hfar := h.furthest .disk _ (List.prefix_refl _) _ rfl (by decide)
  have hle := hfar.2 (show (⟨0, 1⟩ : ListIndex) ∈ _ by decide)
  exact absurd hle (by decide)

inductive Label
  | allDest
  | willCont
  deriving DecidableEq, Repr

/-- The comparison as the source branches, for either pool: the test of the same
group has no `else`, and control falls into the label `all_dest`. -/
def noticeLabel (progress destroyMark : ListIndex) : Label :=
  if progress.group > destroyMark.group then .allDest
  else if progress.group = destroyMark.group then
    if progress.opList ≥ destroyMark.opList then .allDest
    else .allDest
  else .willCont

theorem noticeLabel_eq (i j : ListIndex) :
    noticeLabel i j = if i.group ≥ j.group then .allDest else .willCont := by
  unfold noticeLabel
  split_ifs <;> first | rfl | omega

theorem checkPoolNoticeDestroy_label {which : ℤ} (hn : s.normal (noticed which).other = true)
    (hm : s.mask (noticed which) ≠ .ending) :
    checkPoolNoticeDestroy s which =
      match noticeLabel (s.progress (noticed which)) s.destroyMark with
      | .allDest => s.poolDestroy (noticed which) .allDest
      | .willCont => s.setPc (.loop .willContinue which) := by
  unfold checkPoolNoticeDestroy
  dsimp only
  rw [if_neg hm, if_pos hn, noticeLabel_eq]
  split_ifs <;> rfl

/-- The state `check_pool_notice_destroy` answers, the join of `pool_destroy` included. -/
def noticeAnswer (s : State) (which : ℤ) : Option ManagerState :=
  let t := checkPoolNoticeDestroy s which
  match t.pc with
  | .loop state _ => some state
  | .destroying p after =>
    match (afterDestroy (t.join p) p after).pc with
    | .loop state _ => some state
    | _ => none
  | _ => none

/-- The survivor is destroyed at or after the destroy point, and goes on before it. -/
def BoundaryExact (s : State) (which : ℤ) : Prop :=
  (noticeAnswer s which = some .allDestroy ↔ s.destroyMark ≤ s.progress (noticed which)) ∧
    (s.progress (noticed which) < s.destroyMark → noticeAnswer s which = some .willContinue)

theorem noticeAnswer_eq {which : ℤ} (hn : s.normal (noticed which).other = true)
    (hm : s.mask (noticed which) ≠ .ending) : noticeAnswer s which = some
      (if s.destroyMark.group ≤ (s.progress (noticed which)).group then .allDestroy
        else .willContinue) := by
  rw [noticeAnswer, checkPoolNoticeDestroy_label hn hm, noticeLabel_eq]
  by_cases hgroup : s.destroyMark.group ≤ (s.progress (noticed which)).group
  · rw [if_pos hgroup, if_pos hgroup]
    rfl
  · rw [if_neg hgroup, if_neg hgroup]
    rfl

/-- The answer is the boundary's but for a survivor that stands in the destroy
point's group, at an earlier list: the inner test falls through to `all_dest`. -/
theorem boundaryExact_iff (s : State) (which : ℤ) (hn : s.normal (noticed which).other = true)
    (hm : s.mask (noticed which) ≠ .ending) :
    BoundaryExact s which ↔ ¬((s.progress (noticed which)).group = s.destroyMark.group ∧
      (s.progress (noticed which)).opList < s.destroyMark.opList) := by
  have hanswer := noticeAnswer_eq hn hm
  constructor
  · rintro ⟨hall, _⟩ ⟨hgroup, hlist⟩
    rw [if_pos hgroup.ge] at hanswer
    exact not_le.2 (ListIndex.lt_iff.2 (Or.inr ⟨hgroup, hlist⟩)) (hall.1 hanswer)
  · intro hnot
    have hiff : s.destroyMark.group ≤ (s.progress (noticed which)).group ↔
        s.destroyMark ≤ s.progress (noticed which) := by
      rw [← not_lt, ← not_lt, not_iff_not, ListIndex.lt_iff]
      exact ⟨Or.inl, fun h => h.resolve_right hnot⟩
    rw [BoundaryExact, hanswer, ← hiff]
    refine ⟨⟨fun h => ?_, fun h => by rw [if_pos h]⟩, fun h => ?_⟩
    · by_contra hlt
      rw [if_neg hlt] at h
      cases h
    · rw [if_neg (fun hle => not_le.2 h (hiff.1 hle))]

def stoppedAt (destroyMark progress : ListIndex) : State :=
  { init destroyMark fun _ => destroyMark with
    mask := Function.update (fun _ => .running) .disk .destroyed
    normal := Function.update (fun _ => false) .disk true
    progress := fun _ => progress }

theorem boundaryExact_iff_atPoint : BoundaryExact (stoppedAt ⟨3, 5⟩ ⟨3, 5⟩) 0 :=
  (boundaryExact_iff (stoppedAt ⟨3, 5⟩ ⟨3, 5⟩) 0 rfl (by decide)).2 (by decide)

theorem boundaryExact_false_sameGroup : ¬BoundaryExact (stoppedAt ⟨3, 5⟩ ⟨3, 2⟩) 0 := by
  intro h
  have hle := h.1.1 rfl
  exact absurd hle (by decide)

end MyScripts.Shark.Manager
