import MyScripts.Library.Run
import MyScripts.Shark.Worker

/-!
# Release of an op list's nodes by the two pools

Every op list is executed once by each pool. After an execution the thread
enters `file_choose_insert`, which compares the list with the manager's one
mark under the manager's lock, and either raises the mark or, the lock given
back, calls `worker_move_list`. A scheduler picks any interleaving of the
three steps of every (pool, list) pair.
-/
namespace MyScripts.Shark.Release
open Library.Run

def fileChooseInsert (manager worker : ListIndex) : Option ListIndex :=
  if worker.group > manager.group then
    some worker
  else if worker.group = manager.group ∧ worker.opList > manager.opList then
    some worker
  else
    none

theorem fileChooseInsert_of_lt {m i : ListIndex} (h : m < i) : fileChooseInsert m i = some i := by
  unfold fileChooseInsert
  rcases ListIndex.lt_iff.1 h with hg | ⟨hg, hl⟩
  · rw [if_pos hg]
  · rw [if_neg (by omega), if_pos ⟨hg.symm, hl⟩]

theorem fileChooseInsert_of_le {m i : ListIndex} (h : i ≤ m) : fileChooseInsert m i = none := by
  unfold fileChooseInsert
  have hn : ¬m < i := not_lt.2 h
  rw [ListIndex.lt_iff] at hn
  rw [if_neg (by omega), if_neg (by omega)]

theorem fileChooseInsert_cases (m i : ListIndex) :
    m < i ∧ fileChooseInsert m i = some i ∨ i ≤ m ∧ fileChooseInsert m i = none := by
  rcases lt_or_ge m i with h | h
  · exact Or.inl ⟨h, fileChooseInsert_of_lt h⟩
  · exact Or.inr ⟨h, fileChooseInsert_of_le h⟩

inductive Stage
  | running
  | completed
  | moving
  | returned
  deriving DecidableEq, Repr

def Stage.choices : Stage → ℕ
  | .running | .completed => 0
  | _ => 1

def Stage.pending : Stage → ℕ
  | .moving => 1
  | _ => 0

/-- One call of `worker_move_list`, and whether both pools had completed the list then. -/
structure MoveCall where
  list : ListIndex
  bothCompleted : Bool
  deriving DecidableEq, Repr

structure State where
  mark : ListIndex
  stage : Pool → ListIndex → Stage
  calls : List MoveCall

def init : State where
  mark := ⟨0, 0⟩
  stage := fun _ _ => .running
  calls := []

namespace State

def setStage (s : State) (p : Pool) (i : ListIndex) (x : Stage) : State :=
  { s with stage := fun q j => if q = p ∧ j = i then x else s.stage q j }

def raise (s : State) (m : ListIndex) : State := { s with mark := m }

def call (s : State) (i : ListIndex) : State :=
  { s with calls := s.calls ++
      [⟨i, decide (s.stage .disk i ≠ .running ∧ s.stage .digi i ≠ .running)⟩] }

@[simp] theorem setStage_self (s : State) (p : Pool) (i : ListIndex) (x : Stage) :
    (s.setStage p i x).stage p i = x :=
  if_pos ⟨rfl, rfl⟩

@[simp] theorem setStage_other (s : State) (p : Pool) (i : ListIndex) (x : Stage) :
    (s.setStage p i x).stage p.other i = s.stage p.other i :=
  if_neg fun h => p.other_ne h.1

theorem setStage_of_ne (s : State) (p q : Pool) {i j : ListIndex} (x : Stage) (h : j ≠ i) :
    (s.setStage p i x).stage q j = s.stage q j :=
  if_neg fun hji => h hji.2

@[simp] theorem call_stage (s : State) (i : ListIndex) : (s.call i).stage = s.stage := rfl

def moved (s : State) (i : ListIndex) : ℕ := s.calls.countP fun c => c.list = i

@[simp] theorem setStage_moved (s : State) (p : Pool) (i j : ListIndex) (x : Stage) :
    (s.setStage p i x).moved j = s.moved j := rfl

@[simp] theorem call_moved_self (s : State) (i : ListIndex) : (s.call i).moved i = s.moved i + 1 := by
  simp only [moved, call, List.countP_append, List.countP_singleton, decide_true, if_true]

theorem call_moved_of_ne (s : State) {i j : ListIndex} (h : j ≠ i) :
    (s.call i).moved j = s.moved j := by
  simp only [moved, call, List.countP_append, List.countP_singleton, h.symm, decide_false,
    Bool.false_eq_true, if_false, Nat.add_zero]

def chosen (s : State) (i : ListIndex) : ℕ :=
  (s.stage .disk i).choices + (s.stage .digi i).choices

def decided (s : State) (i : ListIndex) : ℕ :=
  s.moved i + ((s.stage .disk i).pending + (s.stage .digi i).pending)

theorem chosen_eq (s : State) (p : Pool) (i : ListIndex) :
    s.chosen i = (s.stage p i).choices + (s.stage p.other i).choices := by
  cases p
  · rfl
  · exact Nat.add_comm _ _

theorem decided_eq (s : State) (p : Pool) (i : ListIndex) :
    s.decided i = s.moved i + ((s.stage p i).pending + (s.stage p.other i).pending) := by
  cases p
  · rfl
  · exact congrArg _ (Nat.add_comm _ _)

theorem setStage_chosen (s : State) (p : Pool) (i : ListIndex) (x : Stage) :
    (s.setStage p i x).chosen i + (s.stage p i).choices = s.chosen i + x.choices := by
  simp only [chosen_eq _ p, setStage_self, setStage_other]
  omega

theorem setStage_decided (s : State) (p : Pool) (i : ListIndex) (x : Stage) :
    (s.setStage p i x).decided i + (s.stage p i).pending = s.decided i + x.pending := by
  simp only [decided_eq _ p, setStage_self, setStage_other, setStage_moved]
  omega

theorem setStage_chosen_of_ne (s : State) (p : Pool) {i j : ListIndex} (x : Stage) (h : j ≠ i) :
    (s.setStage p i x).chosen j = s.chosen j := by
  simp only [chosen, setStage_of_ne s p _ x h]

theorem setStage_decided_of_ne (s : State) (p : Pool) {i j : ListIndex} (x : Stage) (h : j ≠ i) :
    (s.setStage p i x).decided j = s.decided j := by
  simp only [decided, setStage_of_ne s p _ x h, setStage_moved]

@[simp] theorem call_chosen (s : State) (i j : ListIndex) : (s.call i).chosen j = s.chosen j := rfl

theorem call_decided_self (s : State) (i : ListIndex) :
    (s.call i).decided i = s.decided i + 1 := by
  simp only [decided, call_moved_self, call_stage]
  omega

theorem call_decided_of_ne (s : State) {i j : ListIndex} (h : j ≠ i) :
    (s.call i).decided j = s.decided j := by
  simp only [decided, call_moved_of_ne s h, call_stage]

end State

inductive Event
  | complete (p : Pool) (i : ListIndex)
  | choose (p : Pool) (i : ListIndex)
  | move (p : Pool) (i : ListIndex)
  deriving DecidableEq, Repr

def step (s : State) : Event → Option State
  | .complete p i => if s.stage p i = .running then some (s.setStage p i .completed) else none
  | .choose p i =>
    if s.stage p i = .completed then
      match fileChooseInsert s.mark i with
      | some m => some ((s.setStage p i .returned).raise m)
      | none => some (s.setStage p i .moving)
    else none
  | .move p i =>
    if s.stage p i = .moving then some ((s.call i).setStage p i .returned) else none

inductive Move (s : State) : Event → State → Prop
  | complete (p i) (h : s.stage p i = .running) :
      Move s (.complete p i) (s.setStage p i .completed)
  | raise (p i) (h : s.stage p i = .completed) (hm : s.mark < i) :
      Move s (.choose p i) ((s.setStage p i .returned).raise i)
  | toMove (p i) (h : s.stage p i = .completed) (hm : i ≤ s.mark) :
      Move s (.choose p i) (s.setStage p i .moving)
  | move (p i) (h : s.stage p i = .moving) :
      Move s (.move p i) ((s.call i).setStage p i .returned)

theorem step_cases {s t : State} {e : Event} (h : step s e = some t) : Move s e t := by
  cases e with
  | complete p i =>
    simp only [step, Option.ite_none_right_eq_some, Option.some.injEq] at h
    obtain ⟨hs, rfl⟩ := h
    exact .complete p i hs
  | choose p i =>
    simp only [step, Option.ite_none_right_eq_some] at h
    obtain ⟨hs, h⟩ := h
    rcases fileChooseInsert_cases s.mark i with ⟨hm, hf⟩ | ⟨hm, hf⟩
    · simp only [hf, Option.some.injEq] at h
      subst h
      exact .raise p i hs hm
    · simp only [hf, Option.some.injEq] at h
      subst h
      exact .toMove p i hs hm
  | move p i =>
    simp only [step, Option.ite_none_right_eq_some, Option.some.injEq] at h
    obtain ⟨hs, rfl⟩ := h
    exact .move p i hs

def Event.list : Event → ListIndex
  | .complete _ i | .choose _ i | .move _ i => i

theorem Move.counts {s t : State} {e : Event} (h : Move s e t) :
    (∀ p, e ≠ .choose p e.list) ∧
      t.chosen e.list = s.chosen e.list ∧ t.decided e.list = s.decided e.list ∧ t.mark = s.mark ∨
    (∃ p, e = .choose p e.list) ∧ t.chosen e.list = s.chosen e.list + 1 ∧
      (s.mark < e.list ∧ t.mark = e.list ∧ t.decided e.list = s.decided e.list ∨
        e.list ≤ s.mark ∧ t.mark = s.mark ∧ t.decided e.list = s.decided e.list + 1) := by
  cases h with
  | complete p i h =>
    have hc := s.setStage_chosen p i .completed
    have hd := s.setStage_decided p i .completed
    rw [h] at hc hd
    exact Or.inl ⟨fun _ => Event.noConfusion, hc, hd, rfl⟩
  | raise p i h hm =>
    have hc := s.setStage_chosen p i .returned
    have hd := s.setStage_decided p i .returned
    rw [h] at hc hd
    exact Or.inr ⟨⟨p, rfl⟩, hc, Or.inl ⟨hm, rfl, hd⟩⟩
  | toMove p i h hm =>
    have hc := s.setStage_chosen p i .moving
    have hd := s.setStage_decided p i .moving
    rw [h] at hc hd
    exact Or.inr ⟨⟨p, rfl⟩, hc, Or.inr ⟨hm, rfl, hd⟩⟩
  | move p i h =>
    have hc := (s.call i).setStage_chosen p i .returned
    have hd := (s.call i).setStage_decided p i .returned
    rw [State.call_stage, h, State.call_chosen] at hc
    rw [State.call_stage, h, State.call_decided_self] at hd
    exact Or.inl ⟨fun _ => Event.noConfusion, Nat.add_right_cancel hc, Nat.add_right_cancel hd, rfl⟩

theorem Move.frame {s t : State} {e : Event} (h : Move s e t) {j : ListIndex} (hj : j ≠ e.list) :
    t.chosen j = s.chosen j ∧ t.decided j = s.decided j := by
  cases h with
  | complete p i _ =>
    exact ⟨State.setStage_chosen_of_ne _ _ _ hj, State.setStage_decided_of_ne _ _ _ hj⟩
  | raise p i _ _ =>
    exact ⟨State.setStage_chosen_of_ne s _ _ hj, State.setStage_decided_of_ne s _ _ hj⟩
  | toMove p i _ _ =>
    exact ⟨State.setStage_chosen_of_ne _ _ _ hj, State.setStage_decided_of_ne _ _ _ hj⟩
  | move p i _ =>
    change j ≠ i at hj
    refine ⟨State.setStage_chosen_of_ne _ _ _ hj, ?_⟩
    rw [State.setStage_decided_of_ne _ _ _ hj, State.call_decided_of_ne s hj]

theorem Move.mark_le {s t : State} {e : Event} (h : Move s e t) : s.mark ≤ t.mark := by
  rcases h.counts with ⟨_, _, _, hm⟩ | ⟨_, _, ⟨hlt, hm, _⟩ | ⟨_, hm, _⟩⟩
  · exact hm.ge
  · exact hm ▸ hlt.le
  · exact hm.ge

theorem Move.calls {s t : State} {e : Event} (h : Move s e t) :
    t.calls = s.calls ∨ ∃ p i, s.stage p i = .moving ∧ t.calls = (s.call i).calls := by
  cases h with
  | complete p i _ => exact Or.inl rfl
  | raise p i _ _ => exact Or.inl rfl
  | toMove p i _ _ => exact Or.inl rfl
  | move p i h => exact Or.inr ⟨p, i, h, rfl⟩

structure ReleaseProtocol (s : State) : Prop where
  afterBoth : ∀ c ∈ s.calls, c.bothCompleted = true
  atMostOnce : ∀ i, s.moved i ≤ 1
  once : ∀ i, s.stage .disk i = .returned → s.stage .digi i = .returned → s.moved i = 1

def Complete (s : State) : Prop :=
  ∀ i, (s.stage .disk i = .running ∧ s.stage .digi i = .running) ∨
    (s.stage .disk i = .returned ∧ s.stage .digi i = .returned)

/-- The first of a list's two comparisons finds the list above the mark. -/
def FirstAbove (s : State) : Event → Prop
  | .choose _ i => s.chosen i = 0 → s.mark < i
  | _ => True

structure Orderly (s : State) : Prop where
  below : ∀ i, 1 ≤ s.chosen i → i ≤ s.mark
  decided : ∀ i, s.decided i = s.chosen i - 1
  afterBoth : ∀ c ∈ s.calls, c.bothCompleted = true

theorem orderly_init : Orderly init where
  below i h := absurd h (by decide : ¬1 ≤ 0)
  decided _ := rfl
  afterBoth c h := absurd h List.not_mem_nil

theorem Orderly.other_completed {s : State} (h : Orderly s) {p : Pool} {i : ListIndex}
    (hp : s.stage p i = .moving) : s.stage p.other i ≠ .running := by
  intro ho
  have hd := h.decided i
  rw [s.decided_eq p, s.chosen_eq p, hp, ho] at hd
  simp only [Stage.pending, Stage.choices] at hd
  omega

theorem Orderly.call_afterBoth {s : State} (h : Orderly s) {p : Pool} {i : ListIndex}
    (hp : s.stage p i = .moving) : ∀ c ∈ (s.call i).calls, c.bothCompleted = true := by
  intro c hc
  rcases List.mem_append.1 hc with hc | hc
  · exact h.afterBoth c hc
  · have hself : s.stage p i ≠ .running := by
      rw [hp]
      decide
    have hother := h.other_completed hp
    rw [List.mem_singleton] at hc
    subst hc
    cases p with
    | disk => exact decide_eq_true ⟨hself, hother⟩
    | digi => exact decide_eq_true ⟨hother, hself⟩

theorem Orderly.step {s t : State} {e : Event} (h : Orderly s) (hg : FirstAbove s e)
    (hm : Move s e t) : Orderly t := by
  have hle := hm.mark_le
  refine ⟨fun i hi => ?_, fun i => ?_, ?_⟩
  · by_cases hie : i = e.list
    · subst hie
      rcases hm.counts with ⟨_, hc, _, hmark⟩ | ⟨_, _, ⟨_, hmark, _⟩ | ⟨hie, _, _⟩⟩
      · exact hmark ▸ h.below _ (hc ▸ hi)
      · exact hmark.ge
      · exact hie.trans hle
    · rw [(hm.frame hie).1] at hi
      exact (h.below i hi).trans hle
  · by_cases hie : i = e.list
    · subst hie
      have hd := h.decided e.list
      rcases hm.counts with ⟨_, hc, hd', _⟩ | ⟨⟨p, he⟩, hc, ⟨hlt, _, hd'⟩ | ⟨hle', _, hd'⟩⟩
      · rw [hc, hd', hd]
      · have hzero : s.chosen e.list = 0 := by
          by_contra hne
          exact absurd (h.below _ (Nat.one_le_iff_ne_zero.2 hne)) (not_le.2 hlt)
        rw [hd', hd, hc, hzero]
      · have hpos : s.chosen e.list ≠ 0 := by
          intro hz
          rw [he] at hg
          exact absurd (hg hz) (not_lt.2 hle')
        omega
    · rw [(hm.frame hie).1, (hm.frame hie).2, h.decided i]
  · rcases hm.calls with hc | ⟨p, i, hp, hc⟩
    · rw [hc]
      exact h.afterBoth
    · rw [hc]
      exact h.call_afterBoth hp

theorem Stage.choices_le (x : Stage) : x.choices ≤ 1 := by
  cases x <;> decide

theorem Orderly.releaseProtocol {s : State} (h : Orderly s) : ReleaseProtocol s := by
  refine ⟨h.afterBoth, fun i => ?_, fun i hd hc => ?_⟩
  · have hi := h.decided i
    have h₁ := (s.stage .disk i).choices_le
    have h₂ := (s.stage .digi i).choices_le
    simp only [State.decided, State.chosen] at hi
    omega
  · have hi := h.decided i
    simp only [State.decided, State.chosen, hd, hc, Stage.choices, Stage.pending] at hi
    omega

structure Doubled (s : State) (i : ListIndex) : Prop where
  chosen : 1 ≤ s.chosen i
  le_mark : i ≤ s.mark
  decided : s.decided i = s.chosen i

theorem Doubled.step {s t : State} {e : Event} {i : ListIndex} (h : Doubled s i)
    (hm : Move s e t) : Doubled t i := by
  have hc := h.chosen
  have hd := h.decided
  have hle := h.le_mark.trans hm.mark_le
  by_cases hie : i = e.list
  · subst hie
    rcases hm.counts with ⟨_, hc', hd', _⟩ | ⟨_, hc', ⟨hlt, _, _⟩ | ⟨_, _, hd'⟩⟩
    · exact ⟨by omega, hle, by omega⟩
    · exact absurd h.le_mark (not_le.2 hlt)
    · exact ⟨by omega, hle, by omega⟩
  · obtain ⟨hc', hd'⟩ := hm.frame hie
    exact ⟨by omega, hle, by omega⟩

theorem Move.decided_le {s t : State} {e : Event} (hm : Move s e t)
    (h : ∀ i, s.decided i ≤ s.chosen i) (i : ListIndex) : t.decided i ≤ t.chosen i := by
  have hi := h i
  by_cases hie : i = e.list
  · subst hie
    rcases hm.counts with ⟨_, hc, hd, _⟩ | ⟨_, hc, ⟨_, _, hd⟩ | ⟨_, _, hd⟩⟩ <;> omega
  · rw [(hm.frame hie).1, (hm.frame hie).2]
    exact hi

theorem doubled_of_not_firstAbove {s t : State} {e : Event}
    (h : ∀ i, s.decided i ≤ s.chosen i) (hg : ¬FirstAbove s e) (hm : Move s e t) :
    Doubled t e.list := by
  have hi := h e.list
  cases e with
  | complete p i => exact absurd trivial hg
  | move p i => exact absurd trivial hg
  | choose p i =>
    simp only [FirstAbove, Classical.not_imp] at hg
    obtain ⟨hzero, hnlt⟩ := hg
    rcases hm.counts with ⟨hne, _⟩ | ⟨_, hc, ⟨hlt, _, _⟩ | ⟨hle, hmark, hd⟩⟩
    · exact absurd rfl (hne p)
    · exact absurd hlt hnlt
    · change s.decided i ≤ s.chosen i at hi
      change t.decided i = s.decided i + 1 at hd
      change t.chosen i = s.chosen i + 1 at hc
      refine ⟨?_, hmark ▸ hle, ?_⟩
      · change 1 ≤ t.chosen i
        omega
      · change t.decided i = t.chosen i
        omega

theorem Doubled.not_releaseProtocol {s : State} {i : ListIndex} (h : Doubled s i)
    (hs : Complete s) : ¬ReleaseProtocol s := by
  intro hr
  have hc := h.chosen
  have hd := h.decided
  have hm := hr.atMostOnce i
  rcases hs i with ⟨h₁, h₂⟩ | ⟨h₁, h₂⟩
  · simp only [State.chosen, h₁, h₂, Stage.choices] at hc
    omega
  · simp only [State.chosen, State.decided, h₁, h₂, Stage.choices, Stage.pending] at hd
    omega

/-- The protocol holds in every run whose first comparisons all find their
list above the mark, and a complete run that keeps the protocol is such a run. -/
theorem releaseProtocol_iff_firstAbove (es : List Event) (s : State)
    (h : exec step init es = some s) :
    (Guarded step FirstAbove init es → ReleaseProtocol s) ∧
      (Complete s → (ReleaseProtocol s ↔ Guarded step FirstAbove init es)) := by
  have hgood : Guarded step FirstAbove init es → ReleaseProtocol s := by
    intro hg
    have ho : Orderly s := invariant_guarded
      (fun _ _ _ ho hf ht => ho.step hf (step_cases ht)) orderly_init hg h
    exact ho.releaseProtocol
  refine ⟨hgood, fun hs => ⟨fun hr => ?_, hgood⟩⟩
  by_contra hn
  obtain ⟨pre, e, post, u, v, _, hpre, hf, hv, hpost⟩ := exists_of_not_guarded h hn
  have hle : ∀ i, u.decided i ≤ u.chosen i := invariant_exec
    (fun _ _ _ hi ht => (step_cases ht).decided_le hi) (fun _ => Nat.le_refl _) hpre
  have hd : Doubled s e.list := invariant_exec (I := fun w => Doubled w e.list)
    (fun _ _ _ hd ht => hd.step (step_cases ht))
    (doubled_of_not_firstAbove hle hf (step_cases hv)) hpost
  exact hd.not_releaseProtocol hs hr

def inTurn (i : ListIndex) : List Event :=
  [.complete .disk i, .choose .disk i, .complete .digi i, .choose .digi i, .move .digi i]

theorem releaseProtocol_iff_firstAbove_inTurn :
    ∃ s, exec step init (inTurn ⟨0, 1⟩) = some s ∧ ReleaseProtocol s := by
  refine ⟨_, rfl, (releaseProtocol_iff_firstAbove (inTurn ⟨0, 1⟩) _ rfl).1 ?_⟩
  refine .cons trivial rfl (.cons (fun _ => by decide) rfl (.cons trivial rfl ?_))
  exact .cons (fun h => absurd h (by decide)) rfl (.cons trivial rfl trivial)

/-- List (0,0) is on the manager's initial mark: the disk pool alone has its
nodes moved, and the cluster pool has them moved a second time. -/
theorem releaseProtocol_false_at_zero :
    ∃ s, exec step init [.complete .disk ⟨0, 0⟩, .choose .disk ⟨0, 0⟩, .move .disk ⟨0, 0⟩,
      .complete .digi ⟨0, 0⟩, .choose .digi ⟨0, 0⟩, .move .digi ⟨0, 0⟩] = some s ∧
      s.calls = [⟨⟨0, 0⟩, false⟩, ⟨⟨0, 0⟩, true⟩] ∧ ¬ReleaseProtocol s := by
  refine ⟨_, rfl, rfl, fun h => ?_⟩
  have hb := h.afterBoth ⟨⟨0, 0⟩, false⟩ (List.mem_cons_self ..)
  exact Bool.noConfusion hb

end MyScripts.Shark.Release
