import MyScripts.Shark.PoolProgress

/-!
# The minimum of the errors and the destroy point

From the error that reaches the limit on, the error list keeps the least
position of a failure; the manager's destroy point is a copy made once, by the
thread that reached the limit. The cluster pool's function was written as a copy
of the disk pool's.
-/
namespace MyScripts.Shark.Manager
open Library.Run

variable {n : ℕ} {p q : Pool} {i : ListIndex} {s t : State} {e : Event} {es fs : List Event}

def diskErrors (es : List Event) : List ListIndex :=
  es.filterMap fun e =>
    match e with
    | .error .disk i => some i
    | _ => none

def fromLimit (n : ℕ) (es : List Event) : List ListIndex := (diskErrors es).drop (n - 1)

theorem diskErrors_append (es fs : List Event) :
    diskErrors (es ++ fs) = diskErrors es ++ diskErrors fs :=
  List.filterMap_append ..

theorem fromLimit_of_none (h : diskErrors [e] = []) : fromLimit n (es ++ [e]) = fromLimit n es := by
  rw [fromLimit, diskErrors_append, h, List.append_nil, fromLimit]

theorem fromLimit_error (h : n ≤ (diskErrors es).length + 1) (i : ListIndex) :
    fromLimit n (es ++ [.error .disk i]) = fromLimit n es ++ [i] := by
  rw [fromLimit, diskErrors_append, List.drop_append_of_le_length (by omega), fromLimit]
  rfl

def Earliest (is : List ListIndex) (m : ListIndex) : Prop := IsLeast {i | i ∈ is} m

theorem Earliest.snoc {is : List ListIndex} {m : ListIndex} (h : Earliest is m) (i : ListIndex) :
    Earliest (is ++ [i]) (min i m) := by
  have hset : {j | j ∈ is ++ [i]} = insert i {j | j ∈ is} := by
    ext j
    simp [or_comm]
  unfold Earliest
  rw [hset]
  exact h.insert i

theorem updateMinError_disk (n : ℕ) (s : State) (i : ListIndex) :
    (updateMinError n s .disk i).destroyMark = s.destroyMark ∧
    (updateMinError n s .disk i).errors.sum .disk = s.errors.sum .disk + 1 ∧
    (s.errors.sum .disk + 1 < n ∧
        (updateMinError n s .disk i).errors.haveDestroy .disk = s.errors.haveDestroy .disk ∧
        (updateMinError n s .disk i).errors.min .disk = s.errors.min .disk ∧
        (updateMinError n s .disk i).limitPending .disk = s.limitPending .disk ∨
      n ≤ s.errors.sum .disk + 1 ∧ s.errors.haveDestroy .disk = true ∧
        (updateMinError n s .disk i).errors.haveDestroy .disk = true ∧
        (updateMinError n s .disk i).errors.min .disk = min i (s.errors.min .disk) ∧
        (updateMinError n s .disk i).limitPending .disk = s.limitPending .disk ∨
      n ≤ s.errors.sum .disk + 1 ∧ s.errors.haveDestroy .disk = false ∧
        (updateMinError n s .disk i).errors.haveDestroy .disk = true ∧
        (updateMinError n s .disk i).errors.min .disk = i ∧
        (updateMinError n s .disk i).limitPending .disk = true) := by
  unfold updateMinError
  simp only [Function.update_self]
  by_cases hlimit : n ≤ s.errors.sum .disk + 1
  · rw [if_pos hlimit]
    by_cases hhave : s.errors.haveDestroy .disk = true
    · rw [if_pos hhave]
      by_cases hlt : i < s.errors.min .disk
      · rw [if_pos hlt, min_eq_left hlt.le]
        simp only [Function.update_self, true_and]
        exact Or.inr (Or.inl ⟨hlimit, hhave, hhave, trivial⟩)
      · rw [if_neg hlt, min_eq_right (not_lt.1 hlt)]
        simp only [Function.update_self, true_and]
        exact Or.inr (Or.inl ⟨hlimit, hhave, hhave, trivial⟩)
    · rw [if_neg hhave]
      simp only [Function.update_self, true_and]
      exact Or.inr (Or.inr ⟨hlimit, Bool.eq_false_iff.2 hhave, trivial⟩)
  · rw [if_neg hlimit]
    simp only [Function.update_self, true_and]
    exact Or.inl ⟨Nat.lt_of_not_le hlimit, trivial⟩

/-- Every other step leaves the disk pool's minimum alone, and moves the destroy
point only by a copy of it. -/
theorem step_disk_errors (h : step n s e = some t) :
    (∃ i, e = .error .disk i ∧ t = updateMinError n s .disk i) ∨
    diskErrors [e] = [] ∧ t.errors.sum .disk = s.errors.sum .disk ∧
      t.errors.haveDestroy .disk = s.errors.haveDestroy .disk ∧
      t.errors.min .disk = s.errors.min .disk ∧
      (t.destroyMark = s.destroyMark ∧ t.limitPending .disk = s.limitPending .disk ∨
        t.destroyMark = s.errors.min .disk) := by
  cases e with
  | manage =>
    have hsame := recorded_manage h
    rw [hsame.errors, hsame.destroyMark, hsame.limitPending]
    exact Or.inr ⟨rfl, rfl, rfl, rfl, Or.inl ⟨rfl, rfl⟩⟩
  | oper p i =>
    simp only [step, Option.ite_none_left_eq_some, Option.some.injEq] at h
    obtain ⟨_, rfl⟩ := h
    unfold oper
    split_ifs <;> exact Or.inr ⟨rfl, rfl, rfl, rfl, Or.inl ⟨rfl, rfl⟩⟩
  | finish p =>
    simp only [step, Option.ite_none_left_eq_some, Option.some.injEq] at h
    obtain ⟨_, rfl⟩ := h
    exact Or.inr ⟨rfl, rfl, rfl, rfl, Or.inl ⟨rfl, rfl⟩⟩
  | error p i =>
    simp only [step, Option.ite_none_left_eq_some, Option.some.injEq] at h
    obtain ⟨_, rfl⟩ := h
    cases p with
    | disk => exact Or.inl ⟨i, rfl, rfl⟩
    | digi =>
      right
      unfold updateMinError
      dsimp only
      split_ifs <;> exact ⟨rfl, rfl, rfl, rfl, Or.inl ⟨rfl, rfl⟩⟩
  | limit p =>
    simp only [step, Option.ite_none_right_eq_some, Option.some.injEq] at h
    obtain ⟨_, rfl⟩ := h
    exact Or.inr ⟨rfl, rfl, rfl, rfl, Or.inr rfl⟩

def NotEarlier (s : State) : Event → Prop
  | .error .disk i => s.errors.haveDestroy .disk = true → s.limitPending .disk = false →
      s.destroyMark ≤ i
  | _ => True

structure MinInv (n : ℕ) (es : List Event) (s : State) : Prop where
  sum : s.errors.sum .disk = (diskErrors es).length
  reached : s.errors.haveDestroy .disk = true ↔ fromLimit n es ≠ []
  least : fromLimit n es ≠ [] → Earliest (fromLimit n es) (s.errors.min .disk)

theorem minInv_init (m : ListIndex) (min : Pool → ListIndex) : MinInv n [] (init m min) where
  sum := rfl
  reached := ⟨fun h => (Bool.false_ne_true h).elim, fun h => absurd List.drop_nil h⟩
  least h := absurd List.drop_nil h

theorem MinInv.step (h : MinInv n es s) (hs : step n s e = some t) : MinInv n (es ++ [e]) t := by
  rcases step_disk_errors hs with ⟨i, rfl, rfl⟩ | ⟨hnone, hsum, hhave, hmin, _⟩
  · obtain ⟨_, hsum, hcase⟩ := updateMinError_disk n s i
    have hlength : (diskErrors (es ++ [.error .disk i])).length = (diskErrors es).length + 1 := by
      rw [diskErrors_append, List.length_append]
      rfl
    rw [h.sum] at hsum hcase
    rcases hcase with ⟨hlt, hhave, hmin, _⟩ | ⟨hle, hhad, hhave, hmin, _⟩ | ⟨hle, hhad, hhave, hmin, _⟩
    · -- below the limit there is nothing to keep
      have hbefore : fromLimit n es = [] := List.drop_eq_nil_of_le (by omega)
      have hafter : fromLimit n (es ++ [.error .disk i]) = [] :=
        List.drop_eq_nil_of_le (by rw [hlength]; omega)
      refine ⟨hsum.trans hlength.symm, ?_, fun hne => absurd hafter hne⟩
      rw [hhave, hafter, h.reached, hbefore]
    · have hfrom := fromLimit_error hle i
      refine ⟨hsum.trans hlength.symm, ?_, fun _ => ?_⟩
      · rw [hhave, hfrom]
        simp
      · rw [hfrom, hmin]
        exact (h.least (h.reached.1 hhad)).snoc i
    · have hfrom := fromLimit_error hle i
      have hempty : fromLimit n es = [] := by
        by_contra hne
        rw [h.reached.2 hne] at hhad
        cases hhad
      rw [hempty, List.nil_append] at hfrom
      refine ⟨hsum.trans hlength.symm, ?_, fun _ => ?_⟩
      · rw [hhave, hfrom]
        simp
      · rw [hfrom, hmin]
        exact ⟨List.mem_singleton_self i, fun j hj => (List.mem_singleton.1 hj).ge⟩
  · refine ⟨?_, ?_, ?_⟩
    · rw [hsum, h.sum, diskErrors_append, hnone, List.append_nil]
    · rw [hhave, fromLimit_of_none hnone, h.reached]
    · rw [fromLimit_of_none hnone, hmin]
      exact h.least

theorem minInv_of_exec {m : ListIndex} {min : Pool → ListIndex}
    (h : exec (step n) (init m min) es = some s) : MinInv n es s :=
  history_exec (fun _ _ _ _ hI hs => hI.step hs) (minInv_init m min) h

/-- In every state of the run the destroy point, once set, is the least position
of the disk pool's errors from the one that reached the limit on. -/
def DestroyPointEarliest (n : ℕ) (s₀ : State) (es : List Event) : Prop :=
  ∀ pre, pre <+: es → ∀ s, exec (step n) s₀ pre = some s → fromLimit n pre ≠ [] →
    s.limitPending .disk = false → Earliest (fromLimit n pre) s.destroyMark

theorem destroyMark_of_guarded {m : ListIndex} {min : Pool → ListIndex}
    (hg : Guarded (step n) NotEarlier (init m min) es)
    (h : exec (step n) (init m min) es = some s) (hne : fromLimit n es ≠ [])
    (hp : s.limitPending .disk = false) : s.destroyMark = s.errors.min .disk := by
  refine (history_guarded (I := fun es s => MinInv n es s ∧ (fromLimit n es ≠ [] →
    s.limitPending .disk = false → s.destroyMark = s.errors.min .disk)) ?_
    ⟨minInv_init m min, fun h => absurd List.drop_nil h⟩ hg h).2 hne hp
  rintro fs s e t ⟨hI, hmark⟩ hge hstep
  refine ⟨hI.step hstep, fun hne hp => ?_⟩
  rcases step_disk_errors hstep with ⟨i, rfl, rfl⟩ | ⟨hnone, _, _, hmin, hcopy⟩
  · obtain ⟨hmark', _, hcase⟩ := updateMinError_disk n s i
    rcases hcase with ⟨hlt, _⟩ | ⟨_, hhad, _, hmin, hpend⟩ | ⟨_, _, _, _, hpend⟩
    · rw [hI.sum] at hlt
      refine absurd (List.drop_eq_nil_of_le ?_) hne
      rw [diskErrors_append, List.length_append]
      exact Nat.le_pred_of_lt hlt
    · -- a later error, which the guard keeps from being an earlier one
      rw [hpend] at hp
      have heq := hmark (hI.reached.1 hhad) hp
      have hle := hge hhad hp
      rw [hmark', hmin, heq, min_eq_right (heq ▸ hle)]
    · rw [hpend] at hp
      cases hp
  · rw [fromLimit_of_none hnone] at hne
    rcases hcopy with ⟨hmark', hpend⟩ | hcopy
    · rw [hmark', hmin]
      exact hmark hne (hpend ▸ hp)
    · rw [hcopy, hmin]

theorem not_notEarlier (h : ¬NotEarlier s e) : ∃ i, e = .error .disk i ∧
    s.errors.haveDestroy .disk = true ∧ s.limitPending .disk = false ∧ i < s.destroyMark := by
  cases e with
  | error p i =>
    cases p with
    | disk =>
      simp only [NotEarlier, Classical.not_imp, not_le] at h
      exact ⟨i, rfl, h⟩
    | digi => exact absurd trivial h
  | _ => exact absurd trivial h

/-- In a run the destroy point is the earliest error if and only if no disk error
that comes after the copy is before the copied position. -/
theorem destroyPointEarliest_iff (n : ℕ) (m : ListIndex) (min : Pool → ListIndex)
    (es : List Event) (t : State) (h : exec (step n) (init m min) es = some t) :
    DestroyPointEarliest n (init m min) es ↔ Guarded (step n) NotEarlier (init m min) es := by
  constructor
  · intro hd
    by_contra hn
    obtain ⟨pre, e, post, u, v, hes, hpre, hne, hv, _⟩ := exists_of_not_guarded h hn
    obtain ⟨i, rfl, hhave, hpend, hlt⟩ := not_notEarlier hne
    have hp : pre ++ [.error .disk i] <+: es := ⟨post, by rw [hes, List.append_assoc]; rfl⟩
    have hrun := exec_trans hpre (exec_cons_eq_some.2 ⟨v, hv, exec_nil⟩)
    rcases step_disk_errors hv with ⟨j, hj, rfl⟩ | ⟨hnone, _⟩
    · cases hj
      obtain ⟨hmark, _, hcase⟩ := updateMinError_disk n u i
      have hI := minInv_of_exec hpre
      have hlimit : n ≤ (diskErrors pre).length + 1 := by
        by_contra hlt
        exact hI.reached.1 hhave (List.drop_eq_nil_of_le (by omega))
      have hfrom := fromLimit_error hlimit i
      have hpend' : (updateMinError n u .disk i).limitPending .disk = false := by
        rcases hcase with ⟨_, _, _, hpend'⟩ | ⟨_, _, _, _, hpend'⟩ | ⟨_, hhad, _⟩
        · rw [hpend', hpend]
        · rw [hpend', hpend]
        · rw [hhave] at hhad
          cases hhad
      have hleast := hd _ hp _ hrun (by rw [hfrom]; simp) hpend'
      rw [hfrom, hmark] at hleast
      have hle := hleast.2 (show i ∈ fromLimit n pre ++ [i] from List.mem_append_right _ (by simp))
      exact absurd hlt (not_lt.2 hle)
    · cases hnone
  · intro hg pre hp s hs hne hpend
    rw [destroyMark_of_guarded (hg.of_prefix hp) hs hne hpend]
    exact (minInv_of_exec hs).least hne

theorem destroyPointEarliest_iff_later : DestroyPointEarliest 2 (init ⟨0, 0⟩ fun _ => ⟨0, 0⟩)
    [.error .disk ⟨1, 0⟩, .error .disk ⟨3, 2⟩, .limit .disk, .error .disk ⟨4, 1⟩] :=
  (destroyPointEarliest_iff 2 ⟨0, 0⟩ _ _ _ rfl).2
    (.cons (fun h => by cases h) rfl <| .cons (fun h => by cases h) rfl <| .cons trivial rfl <|
      .cons (fun _ _ => by decide) rfl trivial)

/-- The error that reaches the limit is at (3,2); the next one, of a slower thread, at (2,0). -/
theorem destroyPointEarliest_false_slowThread :
    ¬DestroyPointEarliest 1 (init ⟨0, 0⟩ fun _ => ⟨0, 0⟩)
      [.error .disk ⟨3, 2⟩, .limit .disk, .error .disk ⟨2, 0⟩] := by
  intro h
  have hleast := h _ (List.prefix_refl _) _ rfl (by decide) rfl
  have hle := hleast.2 (show (⟨2, 0⟩ : ListIndex) ∈ _ by decide)
  exact absurd hle (by decide)

end MyScripts.Shark.Manager
