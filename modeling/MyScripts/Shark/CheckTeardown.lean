import MyScripts.Shark.CheckThreads

/-!
# Mismatches at the teardown of the check pool

While the pool is alive every queued pair that mismatches is still queued,
still being compared, or on its way to a report. Main destroys the pool once it
has seen `check_flag` at 1; a pair being compared at that moment is dropped.
-/
namespace MyScripts.Shark.CheckThreads
open Library.Run

variable {n : ℕ} {c : Checks} {s t : State n} {i : Fin n} {e : Event n}

namespace State

@[simp] theorem goto_self (s : State n) (i : Fin n) (pc : Pc) : (s.goto i pc).thread i = pc :=
  Function.update_self ..

theorem goto_of_ne (s : State n) {i j : Fin n} (pc : Pc) (h : j ≠ i) :
    (s.goto i pc).thread j = s.thread j :=
  Function.update_of_ne h ..

end State

theorem ThreadMove.thread_of_ne (hm : ThreadMove c s i t) {j : Fin n} (hj : j ≠ i) :
    t.thread j = s.thread j := by
  cases hm <;> exact State.goto_of_ne _ _ hj

def Reported (c : Checks) (s : State n) : Prop :=
  s.reports ≠ [] ∨ ∃ i w, s.thread i = .change w ∧ Bad c w ∨ s.thread i = .report w

def Drained (s : State n) : Prop := s.queue = [] ∧ s.traversed = true

theorem Reported.threadMove (h : Reported c s) (hm : ThreadMove c s i t) : Reported c t := by
  rcases h with h | ⟨j, w, hj⟩
  · left
    cases hm with
    | report w _ => exact List.append_ne_nil_of_left_ne_nil h _
    | _ => exact h
  · by_cases hji : j = i
    · subst hji
      have hask : ¬Asking s j := by
        rintro (ha | ha) <;> simp [ha] at hj
      cases hm with
      | mismatch v hv hbv => exact Or.inr ⟨j, v, Or.inr (State.goto_self ..)⟩
      | report v hv => exact Or.inl (List.append_ne_nil_of_right_ne_nil _ (List.cons_ne_nil _ _))
      | agree v hv hbv =>
        rw [hv] at hj
        simp only [Pc.change.injEq, reduceCtorEq, or_false] at hj
        exact absurd (hj.1 ▸ hj.2) hbv
      | take v rest ha _ => exact absurd ha hask
      | null ha _ => exact absurd ha hask
      | wait ha => exact absurd ha hask
      | lastFlag hv _ => simp [hv] at hj
      | leave hv => simp [hv] at hj
      | quit v hv _ => simp [hv] at hj
      | pass v hv _ => simp [hv] at hj
    · exact Or.inr ⟨j, w, by rwa [hm.thread_of_ne hji]⟩

theorem Reported.move (h : Reported c s) (hm : Move c s e t) : Reported c t := by
  cases hm with
  | thread i t ht => exact h.threadMove ht
  | _ => exact h

def Pending (s : State n) (w : CheckoutDate) : Prop := w ∈ s.queue ∨ ∃ i, s.thread i = .perform w

theorem ThreadMove.frame (hm : ThreadMove c s i t) :
    t.destroy = s.destroy ∧ t.main = s.main ∧ t.todo = s.todo ∧ t.traversed = s.traversed ∧
      t.queued = s.queued := by
  cases hm <;> exact ⟨rfl, rfl, rfl, rfl, rfl⟩

theorem Drained.threadMove (h : Drained s) (hm : ThreadMove c s i t) : Drained t := by
  refine ⟨?_, hm.frame.2.2.2.1.trans h.2⟩
  cases hm with
  | take w rest _ hq => exact absurd (hq.symm.trans h.1) (List.cons_ne_nil _ _)
  | _ => exact h.1

theorem Pending.of_threadMove {w : CheckoutDate} (hm : ThreadMove c s i t) (h : Pending t w) :
    Pending s w := by
  rcases h with h | ⟨j, hj⟩
  · left
    cases hm with
    | take v rest _ hq =>
      rw [hq]
      exact List.mem_cons_of_mem v h
    | _ => exact h
  · by_cases hji : j = i
    · subst hji
      cases hm with
      | take v rest _ hq =>
        rw [State.goto_self, Pc.perform.injEq] at hj
        left
        rw [hq, hj]
        exact List.mem_cons_self ..
      | _ => rw [State.goto_self] at hj; exact Pc.noConfusion hj
    · rw [hm.thread_of_ne hji] at hj
      exact Or.inr ⟨j, hj⟩

theorem Pending.threadMove {w : CheckoutDate} (h : Pending s w) (hb : Bad c w)
    (hd : s.destroy = false) (hm : ThreadMove c s i t) : Pending t w ∨ Reported c t := by
  rcases h with h | ⟨j, hj⟩
  · left
    cases hm with
    | take v rest _ hq =>
      rw [hq, List.mem_cons] at h
      rcases h with rfl | h
      · exact Or.inr ⟨i, State.goto_self ..⟩
      · exact Or.inl h
    | _ => exact Or.inl h
  · by_cases hji : j = i
    · subst hji
      have hask : ¬Asking s j := by
        rintro (ha | ha) <;> simp [ha] at hj
      cases hm with
      | pass v hv _ =>
        rw [hv, Pc.perform.injEq] at hj
        exact Or.inr (Or.inr ⟨j, v, Or.inl ⟨State.goto_self .., hj ▸ hb⟩⟩)
      | quit v _ hq => exact absurd (hd.symm.trans hq) (by decide)
      | take v rest ha _ => exact absurd ha hask
      | null ha _ => exact absurd ha hask
      | wait ha => exact absurd ha hask
      | lastFlag hv _ => simp [hv] at hj
      | leave hv => simp [hv] at hj
      | mismatch v hv _ => simp [hv] at hj
      | agree v hv _ => simp [hv] at hj
      | report v hv => simp [hv] at hj
    · exact Or.inl (Or.inr ⟨j, (hm.thread_of_ne hji).trans hj⟩)

structure Live (c : Checks) (s : State n) : Prop where
  destroy : s.destroy = false
  main : s.main = .polling ∨ s.main = .destroying
  todo : s.traversed = true → s.todo = []
  flag_two : s.checkFlag = 2 → s.traversed = true
  flag_one : s.checkFlag = 1 → Reported c s ∨ Drained s
  seen : s.main = .destroying → Reported c s ∨ Drained s
  null : ∀ i, s.thread i = .gotNull → Drained s
  fetched : ∀ w, Pending s w → w ∈ s.queued
  judged : ∀ w ∈ s.queued, Bad c w → Pending s w ∨ Reported c s

theorem live_init (todo : List CheckoutDate) : Live c (init n todo) where
  destroy := rfl
  main := Or.inl rfl
  todo h := Bool.noConfusion h
  flag_two h := absurd h (show ¬0 = 2 by decide)
  flag_one h := absurd h (show ¬0 = 1 by decide)
  seen h := Main.noConfusion h
  null i h := Pc.noConfusion h
  fetched w h := by
    rcases h with h | ⟨i, h⟩
    · exact absurd h List.not_mem_nil
    · exact Pc.noConfusion h
  judged w h := absurd h List.not_mem_nil

theorem Live.threadMove (h : Live c s) (hm : ThreadMove c s i t) : Live c t := by
  obtain ⟨hd, hmain, htodo, htr, hqd⟩ := hm.frame
  have hstable : Reported c s ∨ Drained s → Reported c t ∨ Drained t :=
    Or.imp (·.threadMove hm) (·.threadMove hm)
  refine ⟨hd.trans h.destroy, hmain ▸ h.main, ?_, ?_, ?_, ?_, fun j hj => ?_, ?_, ?_⟩
  · rw [htr, htodo]
    exact h.todo
  · rw [htr]
    cases hm with
    | lastFlag _ _ => exact fun hf => absurd hf (show ¬1 = 2 by decide)
    | mismatch _ _ _ => exact fun hf => absurd hf (show ¬1 = 2 by decide)
    | _ => exact h.flag_two
  · cases hm with
    | lastFlag hv _ => exact fun _ => hstable (Or.inr (h.null i hv))
    | mismatch w _ _ => exact fun _ => Or.inl (Or.inr ⟨i, w, Or.inr (State.goto_self ..)⟩)
    | _ => exact fun hf => hstable (h.flag_one hf)
  · rw [hmain]
    exact fun hs => hstable (h.seen hs)
  · by_cases hji : j = i
    · subst hji
      cases hm with
      | null _ hn =>
        rcases hn with hn | ⟨hf, hq⟩
        · exact absurd (h.destroy.symm.trans hn) (by decide)
        · exact ⟨hq, h.flag_two hf⟩
      | _ => rw [State.goto_self] at hj; exact Pc.noConfusion hj
    · rw [hm.thread_of_ne hji] at hj
      exact (h.null j hj).threadMove hm
  · intro w hw
    rw [hqd]
    exact h.fetched w (hw.of_threadMove hm)
  · intro w hw hb
    rw [hqd] at hw
    rcases h.judged w hw hb with hp | hr
    · exact hp.threadMove hb h.destroy hm
    · exact Or.inr (hr.threadMove hm)

def destroyed (s : State n) : State n := { s with main := .joining, destroy := true }

theorem Live.move (h : Live c s) (hm : Move c s e t) :
    Live c t ∨ e = .destroy ∧ s.main = .destroying ∧ t = destroyed s := by
  cases hm with
  | enqueue w todo ht =>
    left
    have hnot : s.traversed ≠ true := fun htr => by
      rw [h.todo htr] at ht
      cases ht
    refine ⟨h.destroy, h.main, fun htr => absurd htr hnot, h.flag_two, fun hf => ?_,
      fun hs => ?_, fun j hj => absurd (h.null j hj).2 hnot, ?_, ?_⟩
    · exact (h.flag_one hf).imp id fun hd => absurd hd.2 hnot
    · exact (h.seen hs).imp id fun hd => absurd hd.2 hnot
    · rintro v (hv | hv)
      · rcases List.mem_append.1 hv with hv | hv
        · exact List.mem_append_left _ (h.fetched v (Or.inl hv))
        · exact List.mem_append_right _ hv
      · exact List.mem_append_left _ (h.fetched v (Or.inr hv))
    · intro v hv hb
      rcases List.mem_append.1 hv with hv | hv
      · refine (h.judged v hv hb).imp ?_ id
        rintro (hq | hq)
        · exact Or.inl (List.mem_append_left _ hq)
        · exact Or.inr hq
      · exact Or.inl (Or.inl (List.mem_append_right _ hv))
  | skip w todo _ hd => exact absurd (h.destroy.symm.trans hd) (by decide)
  | traversed ht =>
    left
    refine ⟨h.destroy, h.main, fun _ => ht, fun _ => rfl,
      fun hf => absurd hf (show ¬2 = 1 by decide), fun hs => ?_,
      fun j hj => ⟨(h.null j hj).1, rfl⟩, h.fetched, h.judged⟩
    exact (h.seen hs).imp id fun hd => ⟨hd.1, rfl⟩
  | thread i t ht => exact Or.inl (h.threadMove ht)
  | poll hf _ =>
    exact Or.inl ⟨h.destroy, Or.inr rfl, h.todo, h.flag_two, h.flag_one, fun _ => h.flag_one hf,
      h.null, h.fetched, h.judged⟩
  | destroy hmain => exact Or.inr ⟨rfl, hmain, rfl⟩
  | tearDown hmain _ => rcases h.main with hm | hm <;> exact absurd (hm.symm.trans hmain) (by decide)

structure Clean (c : Checks) (s : State n) : Prop where
  todo : s.todo = []
  queued : ∀ w ∈ s.queued, ¬Bad c w

theorem Clean.move (h : Clean c s) (hm : Move c s e t) : Clean c t := by
  cases hm with
  | enqueue w todo ht => exact absurd (h.todo.symm.trans ht) (by simp)
  | skip w todo ht _ => exact absurd (h.todo.symm.trans ht) (by simp)
  | thread i t ht =>
    obtain ⟨_, _, htodo, _, hqd⟩ := ht.frame
    exact ⟨htodo.trans h.todo, hqd ▸ h.queued⟩
  | traversed _ => exact ⟨h.todo, h.queued⟩
  | poll _ _ => exact ⟨h.todo, h.queued⟩
  | destroy _ => exact ⟨h.todo, h.queued⟩
  | tearDown _ _ => exact ⟨h.todo, h.queued⟩

structure Lost (c : Checks) (s : State n) : Prop where
  destroy : s.destroy = true
  queue : s.queue = []
  todo : s.todo = []
  reports : s.reports = []
  change : ∀ i w, s.thread i = .change w → ¬Bad c w
  report : ∀ i w, s.thread i ≠ .report w
  bad : ∃ w ∈ s.queued, Bad c w

theorem Lost.goto (h : Lost c s) (i : Fin n) {pc : Pc} (hc : ∀ w, pc ≠ .change w)
    (hr : ∀ w, pc ≠ .report w) : Lost c (s.goto i pc) := by
  refine ⟨h.destroy, h.queue, h.todo, h.reports, fun j w hj => ?_, fun j w hj => ?_, h.bad⟩
  · by_cases hji : j = i
    · subst hji
      exact absurd ((State.goto_self ..).symm.trans hj) (hc w)
    · exact h.change j w (by rwa [State.goto_of_ne s pc hji] at hj)
  · by_cases hji : j = i
    · subst hji
      exact absurd ((State.goto_self ..).symm.trans hj) (hr w)
    · exact h.report j w (by rwa [State.goto_of_ne s pc hji] at hj)

theorem Lost.setFlag (h : Lost c s) (f : ℕ) : Lost c (s.setFlag f) :=
  ⟨h.destroy, h.queue, h.todo, h.reports, h.change, h.report, h.bad⟩

theorem Lost.threadMove (h : Lost c s) (hm : ThreadMove c s i t) : Lost c t := by
  cases hm with
  | take w rest _ hq => exact absurd (h.queue.symm.trans hq) (by simp)
  | null _ _ => exact h.goto i (fun _ => Pc.noConfusion) fun _ => Pc.noConfusion
  | wait _ => exact h.goto i (fun _ => Pc.noConfusion) fun _ => Pc.noConfusion
  | lastFlag _ _ => exact (h.setFlag 1).goto i (fun _ => Pc.noConfusion) fun _ => Pc.noConfusion
  | leave _ => exact h.goto i (fun _ => Pc.noConfusion) fun _ => Pc.noConfusion
  | quit w _ _ => exact h.goto i (fun _ => Pc.noConfusion) fun _ => Pc.noConfusion
  | pass w _ hd => exact absurd (h.destroy.symm.trans hd) (by decide)
  | mismatch w hw hb => exact absurd hb (h.change i w hw)
  | agree w _ _ => exact h.goto i (fun _ => Pc.noConfusion) fun _ => Pc.noConfusion
  | report w hw => exact absurd hw (h.report i w)

theorem Lost.move (h : Lost c s) (hm : Move c s e t) : Lost c t := by
  cases hm with
  | enqueue w todo ht => exact absurd (h.todo.symm.trans ht) (by simp)
  | skip w todo ht _ => exact absurd (h.todo.symm.trans ht) (by simp)
  | thread i t ht => exact h.threadMove ht
  | traversed _ => exact ⟨h.destroy, h.queue, h.todo, h.reports, h.change, h.report, h.bad⟩
  | poll _ _ => exact ⟨h.destroy, h.queue, h.todo, h.reports, h.change, h.report, h.bad⟩
  | destroy _ => exact ⟨rfl, h.queue, h.todo, h.reports, h.change, h.report, h.bad⟩
  | tearDown _ _ => exact ⟨h.destroy, h.queue, h.todo, h.reports, h.change, h.report, h.bad⟩

theorem exited_of_tornDown {todo : List CheckoutDate} {es : List (Event n)}
    (h : exec (step c) (init n todo) es = some s) (hd : s.main = .tornDown) (i : Fin n) :
    s.thread i = .exited := by
  have hall : s.main = .tornDown → ∀ i, s.thread i = .exited := by
    refine invariant_exec (I := fun u => u.main = .tornDown → ∀ i, u.thread i = .exited)
      (fun u e v _ hv hvd => ?_) (fun h0 => Main.noConfusion h0) h
    have hne := step_main_ne hv
    cases step_cases hv with
    | thread j v hj => exact absurd (hj.frame.2.1.symm.trans hvd) hne
    | tearDown _ hx => exact hx
    | poll _ _ => exact Main.noConfusion hvd
    | destroy _ => exact Main.noConfusion hvd
    | enqueue w todo _ => exact absurd hvd hne
    | skip w todo _ _ => exact absurd hvd hne
    | traversed _ => exact absurd hvd hne
  exact hall hd i

def NoMismatchLost (c : Checks) (s : State n) : Prop :=
  s.main = .tornDown → (∃ w ∈ s.queued, Bad c w) → s.reports ≠ []

/-- When main destroys the pool, no thread is comparing a bad pair, or a
report is already certain. -/
def NoneComparing (c : Checks) (s : State n) : Event n → Prop
  | .destroy => Reported c s ∨ ∀ i w, s.thread i = .perform w → ¬Bad c w
  | _ => True

theorem Live.destroyed_reported (h : Live c s) (hm : s.main = .destroying)
    (hg : Reported c s ∨ ∀ i w, s.thread i = .perform w → ¬Bad c w) :
    Reported c (destroyed s) ∨ Clean c (destroyed s) := by
  by_cases hr : Reported c s
  · exact Or.inl hr
  · right
    have hdrained := (h.seen hm).resolve_left hr
    refine ⟨h.todo hdrained.2, fun w hw hb => ?_⟩
    rcases (h.judged w hw hb).resolve_right hr with hq | ⟨i, hi⟩
    · rw [hdrained.1] at hq
      exact List.not_mem_nil hq
    · exact hg.resolve_left hr i w hi hb

theorem Live.destroyed_lost (h : Live c s) (hm : s.main = .destroying) (hr : ¬Reported c s)
    (hg : ¬∀ i w, s.thread i = .perform w → ¬Bad c w) : Lost c (destroyed s) := by
  have hdrained := (h.seen hm).resolve_left hr
  push Not at hg
  obtain ⟨i, w, hi, hb⟩ := hg
  refine ⟨rfl, hdrained.1, h.todo hdrained.2, ?_, fun j v hj hv => ?_, fun j v hj => ?_,
    w, h.fetched w (Or.inr ⟨i, hi⟩), hb⟩
  · by_contra hrep
    exact hr (Or.inl hrep)
  · exact hr (Or.inr ⟨j, v, Or.inl ⟨hj, hv⟩⟩)
  · exact hr (Or.inr ⟨j, v, Or.inr hj⟩)

theorem guarded_cases {todo : List CheckoutDate} {es : List (Event n)}
    (hg : Guarded (step c) (NoneComparing c) (init n todo) es)
    (h : exec (step c) (init n todo) es = some s) : Live c s ∨ Reported c s ∨ Clean c s := by
  refine invariant_guarded (I := fun u => Live c u ∨ Reported c u ∨ Clean c u)
    (fun u e v hu hge hv => ?_) (Or.inl (live_init todo)) hg h
  have hm := step_cases hv
  rcases hu with hl | hr | hc
  · rcases hl.move hm with hl' | ⟨rfl, hmain, rfl⟩
    · exact Or.inl hl'
    · exact Or.inr (hl.destroyed_reported hmain hge)
  · exact Or.inr (Or.inl (hr.move hm))
  · exact Or.inr (Or.inr (hc.move hm))

theorem Move.destroyed (hm : Move c s e t) (h : s.destroy = true) : t.destroy = true := by
  cases hm with
  | thread j v hj => exact hj.frame.1.trans h
  | destroy _ => rfl
  | _ => exact h

theorem live_of_destroy {todo : List CheckoutDate} {es : List (Event n)}
    (h : exec (step c) (init n todo) es = some s) (hd : s.destroy = false) : Live c s := by
  have hall : Live c s ∨ s.destroy = true := by
    refine invariant_exec (I := fun u => Live c u ∨ u.destroy = true)
      (fun u e v hu hv => ?_) (Or.inl (live_init todo)) h
    have hm := step_cases hv
    rcases hu with hl | hd
    · rcases hl.move hm with hl' | ⟨_, _, rfl⟩
      · exact Or.inl hl'
      · exact Or.inr rfl
    · exact Or.inr (hm.destroyed hd)
  exact hall.resolve_right (Bool.eq_false_iff.1 hd)

theorem live_of_destroying {todo : List CheckoutDate} {es : List (Event n)}
    (h : exec (step c) (init n todo) es = some s) (hm : s.main = .destroying) : Live c s := by
  have hall : s.destroy = true → s.main = .joining ∨ s.main = .tornDown := by
    refine invariant_exec (I := fun u => u.destroy = true → u.main = .joining ∨ u.main = .tornDown)
      (fun u e v hu hv => ?_) (fun h0 => Bool.noConfusion h0) h
    cases step_cases hv with
    | thread j v hj =>
      rw [hj.frame.1, hj.frame.2.1]
      exact hu
    | poll _ hp => exact fun hd => absurd ((hu hd).imp hp.symm.trans hp.symm.trans) (by decide)
    | destroy _ => exact fun _ => Or.inl rfl
    | tearDown _ _ => exact fun _ => Or.inr rfl
    | _ => exact hu
  refine live_of_destroy h (Bool.eq_false_iff.2 fun hd => ?_)
  exact absurd ((hall hd).imp hm.symm.trans hm.symm.trans) (by decide)

theorem lost_of_not_guarded {todo : List CheckoutDate} {es : List (Event n)}
    (hg : ¬Guarded (step c) (NoneComparing c) (init n todo) es)
    (h : exec (step c) (init n todo) es = some s) : Lost c s := by
  obtain ⟨pre, e, post, u, v, _, hpre, hf, hv, hpost⟩ := exists_of_not_guarded h hg
  have hlost : Lost c v := by
    cases e with
    | destroy =>
      simp only [NoneComparing, not_or] at hf
      cases step_cases hv with
      | destroy hm => exact (live_of_destroying hpre hm).destroyed_lost hm hf.1 hf.2
    | _ => exact absurd trivial hf
  exact invariant_exec (I := Lost c) (fun _ _ _ hl ht => hl.move (step_cases ht)) hlost hpost

/-- In every run no mismatch is lost at the teardown, and in a run that ends
torn down, if and only if main's destroy found no bad pair in comparison. -/
theorem noMismatchLost_iff_noneComparing (n : ℕ) (c : Checks) (todo : List CheckoutDate)
    (es : List (Event n)) (s : State n) (h : exec (step c) (init n todo) es = some s) :
    (Guarded (step c) (NoneComparing c) (init n todo) es → NoMismatchLost c s) ∧
      (s.main = .tornDown →
        (NoMismatchLost c s ↔ Guarded (step c) (NoneComparing c) (init n todo) es)) := by
  have hgood : Guarded (step c) (NoneComparing c) (init n todo) es → NoMismatchLost c s := by
    intro hg hd hbad
    rcases guarded_cases hg h with hl | hr | hc
    · rcases hl.main with hm | hm <;> exact absurd (hm.symm.trans hd) (by decide)
    · rcases hr with hr | ⟨i, w, hi⟩
      · exact hr
      · rw [exited_of_tornDown h hd i] at hi
        simp at hi
    · obtain ⟨w, hw, hb⟩ := hbad
      exact absurd hb (hc.queued w hw)
  refine ⟨hgood, fun hd => ⟨fun hn => ?_, hgood⟩⟩
  by_contra hg
  have hl := lost_of_not_guarded hg h
  exact hn hd hl.bad hl.reports

def pair (a b : List Char) : CheckoutDate := ⟨.file, a, b⟩

def allFail : Checks := ⟨fun _ => -1, [], []⟩

def oneFails : Checks := ⟨fun w => if w.checkPath = ['/', 'a'] then -1 else 0, [], []⟩

theorem noMismatchLost_iff_noneComparing_report :
    ∃ s, exec (step oneFails) (init 2 [pair ['/', 'a'] ['/', 'a'], pair ['/'] ['/']])
        [.enqueue, .enqueue, .traversed, .thread 0, .thread 1, .thread 0, .thread 0, .poll,
          .thread 0, .destroy, .thread 1, .tearDown] = some s ∧
      s.main = .tornDown ∧ (∃ w ∈ s.queued, Bad oneFails w) ∧ NoMismatchLost oneFails s := by
  refine ⟨_, rfl, rfl, ⟨pair ['/', 'a'] ['/', 'a'], List.mem_cons_self .., by decide⟩, ?_⟩
  refine (noMismatchLost_iff_noneComparing 2 oneFails [pair ['/', 'a'] ['/', 'a'], pair ['/'] ['/']]
    [.enqueue, .enqueue, .traversed, .thread 0, .thread 1, .thread 0, .thread 0, .poll, .thread 0,
      .destroy, .thread 1, .tearDown] _ rfl).1 ?_
  refine .cons trivial rfl <| .cons trivial rfl <| .cons trivial rfl <| .cons trivial rfl <|
    .cons trivial rfl <| .cons trivial rfl <| .cons trivial rfl <| .cons trivial rfl <|
    .cons trivial rfl <| .cons (Or.inl (Or.inl (List.cons_ne_nil _ _))) rfl <|
    .cons trivial rfl <| .cons trivial rfl trivial

/-- Thread 0 compares the only pair when thread 1 finds the queue empty and
sets `check_flag`: main destroys the pool and thread 0 leaves without a report. -/
theorem noMismatchLost_false_twoThreads :
    ∃ s, exec (step allFail) (init 2 [pair ['/'] ['/']]) [.enqueue, .traversed, .thread 0,
      .thread 1, .thread 1, .poll, .destroy, .thread 0, .tearDown] = some s ∧
      s.reports = [] ∧ ¬NoMismatchLost allFail s := by
  refine ⟨_, rfl, rfl, fun h => ?_⟩
  exact h rfl ⟨pair ['/'] ['/'], List.mem_cons_self .., by decide⟩ rfl

end MyScripts.Shark.CheckThreads
