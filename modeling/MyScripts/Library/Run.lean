import Mathlib.Data.List.Basic

/-!
# Runs of a partial step function

A machine is a partial function `step : σ → ε → Option σ`: the event names
the choice the scheduler makes and `none` says that the event is not enabled.
A run is a list of events. Invariants, guards on the steps taken and relations
between two states of a run each have one induction rule here.
-/
namespace MyScripts.Library.Run

variable {σ ε : Type*} {step : σ → ε → Option σ} {s t u : σ} {e : ε} {es fs : List ε}

def exec (step : σ → ε → Option σ) : σ → List ε → Option σ
  | s, [] => some s
  | s, e :: es => (step s e).bind fun t => exec step t es

@[simp] theorem exec_nil : exec step s [] = some s := rfl

theorem exec_cons : exec step s (e :: es) = (step s e).bind fun t => exec step t es := rfl

theorem exec_cons_eq_some :
    exec step s (e :: es) = some u ↔ ∃ t, step s e = some t ∧ exec step t es = some u := by
  simp only [exec_cons, Option.bind_eq_some_iff]

theorem exec_append :
    exec step s (es ++ fs) = (exec step s es).bind fun t => exec step t fs := by
  induction es generalizing s with
  | nil => rfl
  | cons e es ih =>
    rw [List.cons_append, exec_cons, exec_cons, Option.bind_assoc]
    congr 1
    funext t
    exact ih

theorem exec_append_eq_some :
    exec step s (es ++ fs) = some u ↔
      ∃ t, exec step s es = some t ∧ exec step t fs = some u := by
  simp only [exec_append, Option.bind_eq_some_iff]

theorem exec_trans (h : exec step s es = some t) (h' : exec step t fs = some u) :
    exec step s (es ++ fs) = some u :=
  exec_append_eq_some.2 ⟨t, h, h'⟩

theorem exec_map {ε' : Type*} {f : ε' → ε} {es : List ε'} :
    exec step s (es.map f) = exec (fun s e => step s (f e)) s es := by
  induction es generalizing s with
  | nil => rfl
  | cons e es ih =>
    rw [List.map_cons, exec_cons, exec_cons]
    congr 1
    funext t
    exact ih

/-- Some run goes from `s` to `t`. -/
def Leads (step : σ → ε → Option σ) (s t : σ) : Prop := ∃ es, exec step s es = some t

theorem Leads.refl (s : σ) : Leads step s s := ⟨[], rfl⟩

theorem Leads.single (h : step s e = some t) : Leads step s t :=
  ⟨[e], exec_cons_eq_some.2 ⟨t, h, rfl⟩⟩

theorem Leads.trans (h : Leads step s t) (h' : Leads step t u) : Leads step s u := by
  obtain ⟨es, hes⟩ := h
  obtain ⟨fs, hfs⟩ := h'
  exact ⟨es ++ fs, exec_trans hes hfs⟩

/-- The invariant rule: what every step preserves holds at the end of every run. -/
theorem invariant_exec {I : σ → Prop}
    (hstep : ∀ s e t, I s → step s e = some t → I t)
    (hs : I s) (h : exec step s es = some t) : I t := by
  induction es generalizing s with
  | nil =>
    cases h
    exact hs
  | cons e es ih =>
    obtain ⟨u, hu, ht⟩ := exec_cons_eq_some.1 h
    exact ih (hstep s e u hs hu) ht

/-- Every step the run takes meets `g` in the state before the step. -/
def Guarded (step : σ → ε → Option σ) (g : σ → ε → Prop) : σ → List ε → Prop
  | _, [] => True
  | s, e :: es => g s e ∧ ∀ t, step s e = some t → Guarded step g t es

variable {g : σ → ε → Prop}

theorem Guarded.cons (he : g s e) (h : step s e = some t) (hes : Guarded step g t es) :
    Guarded step g s (e :: es) := by
  refine ⟨he, fun u hu => ?_⟩
  rw [h] at hu
  cases hu
  exact hes

theorem guarded_cons_some (h : step s e = some t) :
    Guarded step g s (e :: es) ↔ g s e ∧ Guarded step g t es := by
  simp only [Guarded, h, Option.some.injEq, forall_eq']

theorem guarded_cons_none (h : step s e = none) : Guarded step g s (e :: es) ↔ g s e := by
  simp only [Guarded, h, reduceCtorEq, false_implies, implies_true, and_true]

instance Guarded.decidable [∀ s e, Decidable (g s e)] :
    ∀ s es, Decidable (Guarded step g s es)
  | _, [] => .isTrue trivial
  | s, e :: es =>
    match h : step s e with
    | none => decidable_of_iff _ (guarded_cons_none h).symm
    | some t =>
      haveI : Decidable (Guarded step g t es) := Guarded.decidable t es
      decidable_of_iff _ (guarded_cons_some h).symm

theorem guarded_of_forall (h : ∀ s e, g s e) : Guarded step g s es := by
  induction es generalizing s with
  | nil => trivial
  | cons e es ih => exact ⟨h s e, fun _ _ => ih⟩

theorem guarded_append (h : exec step s es = some t) :
    Guarded step g s (es ++ fs) ↔ Guarded step g s es ∧ Guarded step g t fs := by
  induction es generalizing s with
  | nil =>
    cases h
    simp only [List.nil_append, Guarded, true_and]
  | cons e es ih =>
    obtain ⟨u, hu, ht⟩ := exec_cons_eq_some.1 h
    simp only [List.cons_append, Guarded, hu, Option.some.injEq, forall_eq', ih ht, and_assoc]

theorem Guarded.of_append (hg : Guarded step g s (es ++ fs)) : Guarded step g s es := by
  induction es generalizing s with
  | nil => trivial
  | cons e es ih => exact ⟨hg.1, fun t ht => ih (hg.2 t ht)⟩

theorem Guarded.of_prefix (hg : Guarded step g s es) (hp : fs <+: es) : Guarded step g s fs := by
  obtain ⟨rest, rfl⟩ := hp
  exact hg.of_append

theorem invariant_guarded {I : σ → Prop}
    (hstep : ∀ s e t, I s → g s e → step s e = some t → I t)
    (hs : I s) (hg : Guarded step g s es) (h : exec step s es = some t) : I t := by
  induction es generalizing s with
  | nil =>
    cases h
    exact hs
  | cons e es ih =>
    obtain ⟨u, hu, ht⟩ := exec_cons_eq_some.1 h
    exact ih (hstep s e u hs hg.1 hu) (hg.2 u hu) ht

theorem history_guarded_from {I : List ε → σ → Prop}
    (hstep : ∀ fs s e t, I fs s → g s e → step s e = some t → I (fs ++ [e]) t)
    (hs : I fs s) (hg : Guarded step g s es) (h : exec step s es = some t) : I (fs ++ es) t := by
  induction es generalizing s fs with
  | nil =>
    cases h
    rw [List.append_nil]
    exact hs
  | cons e es ih =>
    obtain ⟨u, hu, ht⟩ := exec_cons_eq_some.1 h
    have hrest := ih (hstep fs s e u hs hg.1 hu) (hg.2 u hu) ht
    rwa [List.append_assoc] at hrest

/-- The invariant rule for what depends on the events so far. -/
theorem history_guarded {I : List ε → σ → Prop}
    (hstep : ∀ fs s e t, I fs s → g s e → step s e = some t → I (fs ++ [e]) t)
    (hs : I [] s) (hg : Guarded step g s es) (h : exec step s es = some t) : I es t :=
  history_guarded_from hstep hs hg h

theorem history_exec {I : List ε → σ → Prop}
    (hstep : ∀ fs s e t, I fs s → step s e = some t → I (fs ++ [e]) t)
    (hs : I [] s) (h : exec step s es = some t) : I es t :=
  history_guarded (g := fun _ _ => True) (fun fs s e t hI _ ht => hstep fs s e t hI ht) hs
    (guarded_of_forall fun _ _ => trivial) h

theorem exists_of_not_guarded (h : exec step s es = some t) (hg : ¬Guarded step g s es) :
    ∃ pre e post u v, es = pre ++ e :: post ∧ exec step s pre = some u ∧
      ¬g u e ∧ step u e = some v ∧ exec step v post = some t := by
  induction es generalizing s with
  | nil => exact absurd trivial hg
  | cons e es ih =>
    obtain ⟨v, hv, ht⟩ := exec_cons_eq_some.1 h
    by_cases hge : g s e
    · have hrest : ¬Guarded step g v es := fun hr => hg (Guarded.cons hge hv hr)
      obtain ⟨pre, f, post, u, w, hes, hpre, hgf, hw, hpost⟩ := ih ht hrest
      refine ⟨e :: pre, f, post, u, w, ?_, ?_, hgf, hw, hpost⟩
      · rw [hes, List.cons_append]
      · exact exec_cons_eq_some.2 ⟨v, hv, hpre⟩
    · exact ⟨[], e, es, s, v, rfl, rfl, hge, hv, ht⟩

variable {τ : Type*} {step' : τ → ε → Option τ} {s' : τ}

/-- The simulation rule. The relation may count the events that are still to come, so that a
resource that every event uses up can be part of it. -/
theorem simulation_events {R : ℕ → σ → τ → Prop}
    (hstep : ∀ n s s' t, ∀ e ∈ es, R (n + 1) s s' → step s e = some t →
      ∃ t', step' s' e = some t' ∧ R n t t')
    (hs : R es.length s s') (h : exec step s es = some t) :
    ∃ t', exec step' s' es = some t' ∧ R 0 t t' := by
  induction es generalizing s s' with
  | nil =>
    cases h
    exact ⟨s', rfl, hs⟩
  | cons e es ih =>
    obtain ⟨u, hu, ht⟩ := exec_cons_eq_some.1 h
    obtain ⟨u', hu', hR⟩ := hstep es.length s s' u e List.mem_cons_self hs hu
    obtain ⟨t', ht', hR'⟩ :=
      ih (fun n s s' t e he => hstep n s s' t e (List.mem_cons_of_mem _ he)) hR ht
    exact ⟨t', exec_cons_eq_some.2 ⟨u', hu', ht'⟩, hR'⟩

theorem simulation_exec {R : ℕ → σ → τ → Prop}
    (hstep : ∀ n s s' e t, R (n + 1) s s' → step s e = some t →
      ∃ t', step' s' e = some t' ∧ R n t t')
    (hs : R es.length s s') (h : exec step s es = some t) :
    ∃ t', exec step' s' es = some t' ∧ R 0 t t' :=
  simulation_events (fun n s s' t e _ hR ht => hstep n s s' e t hR ht) hs h

theorem exec_total (f : σ → ε → σ) (s : σ) (es : List ε) :
    exec (fun s e => some (f s e)) s es = some (es.foldl f s) := by
  induction es generalizing s with
  | nil => rfl
  | cons e es ih => exact ih (f s e)

end MyScripts.Library.Run
