import MyScripts.Library.Run
import Mathlib.Data.Int.Notation
import Mathlib.Logic.Function.Basic
import Mathlib.Tactic.SplitIfs

/-!
# The check pool

`check_all` walks the test mount and queues the pairs of paths to compare,
the check threads compare and report, and main polls `check_flag` and then
destroys the pool. One step is one critical section, or one of the unlocked accesses to
`check_flag` and `destroy` that the threads make in between.
-/
namespace MyScripts.Shark.CheckThreads
open Library.Run

inductive CheckoutState
  | direc
  | file
  | symlink
  deriving DecidableEq, Repr

structure CheckoutDate where
  type : CheckoutState
  checkPath : List Char
  diskPath : List Char
  deriving DecidableEq, Repr

structure ErrorPaths where
  disk : List (List Char)
  digi : List (List Char)

structure Checks where
  fn : CheckoutDate → ℤ
  errors : ErrorPaths

def poolCheckChange (c : Checks) (w : CheckoutDate) : ℤ :=
  if c.fn w = 0 then 0
  else if c.fn w = -1 then
    if w.diskPath ∈ c.errors.disk then 0
    else if w.checkPath ∈ c.errors.digi then 0
    else -1
  else -1

def Bad (c : Checks) (w : CheckoutDate) : Prop := poolCheckChange c w = -1

instance (c : Checks) (w : CheckoutDate) : Decidable (Bad c w) := by
  unfold Bad
  infer_instance

theorem bad_iff {c : Checks} {w : CheckoutDate} (h : c.fn w = 0 ∨ c.fn w = -1) :
    Bad c w ↔ c.fn w = -1 ∧ w.diskPath ∉ c.errors.disk ∧ w.checkPath ∉ c.errors.digi := by
  unfold Bad poolCheckChange
  rcases h with h | h
  · simp [h]
  · rw [if_neg (by omega), if_pos h]
    split_ifs with hd hc
    · simp [hd]
    · simp [hc]
    · simp [h, hd, hc]

/-- A check thread: before `pool_check_worker`, asleep in its loop, back from
it with NULL, comparing, past the test of `destroy`, about to report, gone. -/
inductive Pc
  | fetch
  | waiting
  | gotNull
  | perform (w : CheckoutDate)
  | change (w : CheckoutDate)
  | report (w : CheckoutDate)
  | exited
  deriving DecidableEq, Repr

inductive Main
  | polling
  | destroying
  | joining
  | tornDown
  deriving DecidableEq, Repr

structure State (n : ℕ) where
  thread : Fin n → Pc
  queue : List CheckoutDate
  todo : List CheckoutDate
  traversed : Bool
  checkFlag : ℕ
  destroy : Bool
  main : Main
  queued : List CheckoutDate
  reports : List CheckoutDate

variable {n : ℕ}

def init (n : ℕ) (todo : List CheckoutDate) : State n where
  thread := fun _ => .fetch
  queue := []
  todo := todo
  traversed := false
  checkFlag := 0
  destroy := false
  main := .polling
  queued := []
  reports := []

namespace State

def goto (s : State n) (i : Fin n) (pc : Pc) : State n :=
  { s with thread := Function.update s.thread i pc }

def pop (s : State n) (rest : List CheckoutDate) : State n := { s with queue := rest }

def setFlag (s : State n) (f : ℕ) : State n := { s with checkFlag := f }

def handle (s : State n) (w : CheckoutDate) : State n := { s with reports := s.reports ++ [w] }

end State

def poolCheckWorker (s : State n) (i : Fin n) : State n :=
  match s.queue with
  | w :: rest => (s.pop rest).goto i (.perform w)
  | [] => if s.destroy ∨ s.checkFlag = 2 then s.goto i .gotNull else s.goto i .waiting

def checkThread (c : Checks) (s : State n) (i : Fin n) : Option (State n) :=
  match s.thread i with
  | .fetch => some (if s.destroy then s.goto i .gotNull else poolCheckWorker s i)
  | .waiting => some (poolCheckWorker s i)
  | .gotNull => some ((if s.checkFlag = 2 then s.setFlag 1 else s).goto i .exited)
  | .perform w => some (s.goto i (if s.destroy then .exited else .change w))
  | .change w =>
    some (if poolCheckChange c w = -1 then (s.setFlag 1).goto i (.report w) else s.goto i .fetch)
  | .report w => some ((s.handle w).goto i .exited)
  | .exited => none

inductive Event (n : ℕ)
  | enqueue
  | skip
  | traversed
  | thread (i : Fin n)
  | poll
  | destroy
  | tearDown

/-- The traversal gives entries up only once it has seen `destroy`; nothing
runs on after the pool is freed. -/
def step (c : Checks) (s : State n) : Event n → Option (State n)
  | .enqueue =>
    match s.todo with
    | w :: todo =>
      if s.main = .tornDown then none
      else some { s with todo := todo, queue := s.queue ++ [w], queued := s.queued ++ [w] }
    | [] => none
  | .skip =>
    match s.todo with
    | _ :: todo =>
      if s.main = .tornDown ∨ s.destroy = false then none else some { s with todo := todo }
    | [] => none
  | .traversed =>
    if s.main = .tornDown ∨ s.traversed = true ∨ s.todo ≠ [] then none
    else some { s with traversed := true, checkFlag := 2 }
  | .thread i => if s.main = .tornDown then none else checkThread c s i
  | .poll =>
    if s.main = .polling ∧ s.checkFlag = 1 then some { s with main := .destroying } else none
  | .destroy =>
    if s.main = .destroying then some { s with main := .joining, destroy := true } else none
  | .tearDown =>
    if s.main = .joining ∧ ∀ i, s.thread i = .exited then some { s with main := .tornDown }
    else none

def Asking (s : State n) (i : Fin n) : Prop := s.thread i = .fetch ∨ s.thread i = .waiting

inductive ThreadMove (c : Checks) (s : State n) (i : Fin n) : State n → Prop
  | take (w rest) (h : Asking s i) (hq : s.queue = w :: rest) :
      ThreadMove c s i ((s.pop rest).goto i (.perform w))
  | null (h : Asking s i) (hn : s.destroy = true ∨ s.checkFlag = 2 ∧ s.queue = []) :
      ThreadMove c s i (s.goto i .gotNull)
  | wait (h : Asking s i) : ThreadMove c s i (s.goto i .waiting)
  | lastFlag (h : s.thread i = .gotNull) (hf : s.checkFlag = 2) :
      ThreadMove c s i ((s.setFlag 1).goto i .exited)
  | leave (h : s.thread i = .gotNull) : ThreadMove c s i (s.goto i .exited)
  | quit (w) (h : s.thread i = .perform w) (hd : s.destroy = true) :
      ThreadMove c s i (s.goto i .exited)
  | pass (w) (h : s.thread i = .perform w) (hd : s.destroy = false) :
      ThreadMove c s i (s.goto i (.change w))
  | mismatch (w) (h : s.thread i = .change w) (hb : Bad c w) :
      ThreadMove c s i ((s.setFlag 1).goto i (.report w))
  | agree (w) (h : s.thread i = .change w) (hb : ¬Bad c w) : ThreadMove c s i (s.goto i .fetch)
  | report (w) (h : s.thread i = .report w) : ThreadMove c s i ((s.handle w).goto i .exited)

theorem poolCheckWorker_move {c : Checks} {s : State n} {i : Fin n} (ha : Asking s i) :
    ThreadMove c s i (poolCheckWorker s i) := by
  unfold poolCheckWorker
  cases hq : s.queue with
  | cons w rest => exact .take w rest ha hq
  | nil =>
    dsimp only
    split_ifs with h
    · exact .null ha (h.imp id fun hf => ⟨hf, hq⟩)
    · exact .wait ha

theorem checkThread_cases {c : Checks} {s t : State n} {i : Fin n}
    (h : checkThread c s i = some t) : ThreadMove c s i t := by
  unfold checkThread at h
  cases hpc : s.thread i with
  | fetch =>
    simp only [hpc, Option.some.injEq] at h
    subst h
    split_ifs with hd
    · exact .null (Or.inl hpc) (Or.inl hd)
    · exact poolCheckWorker_move (Or.inl hpc)
  | waiting =>
    simp only [hpc, Option.some.injEq] at h
    subst h
    exact poolCheckWorker_move (Or.inr hpc)
  | gotNull =>
    simp only [hpc, Option.some.injEq] at h
    subst h
    split_ifs with hf
    · exact .lastFlag hpc hf
    · exact .leave hpc
  | perform w =>
    simp only [hpc, Option.some.injEq] at h
    subst h
    cases hd : s.destroy with
    | true => exact .quit w hpc hd
    | false => exact .pass w hpc hd
  | change w =>
    simp only [hpc, Option.some.injEq] at h
    subst h
    split_ifs with hb
    · exact .mismatch w hpc hb
    · exact .agree w hpc hb
  | report w =>
    simp only [hpc, Option.some.injEq] at h
    subst h
    exact .report w hpc
  | exited => simp only [hpc, reduceCtorEq] at h

inductive Move (c : Checks) (s : State n) : Event n → State n → Prop
  | enqueue (w todo) (h : s.todo = w :: todo) :
      Move c s .enqueue { s with todo := todo, queue := s.queue ++ [w], queued := s.queued ++ [w] }
  | skip (w todo) (h : s.todo = w :: todo) (hd : s.destroy = true) :
      Move c s .skip { s with todo := todo }
  | traversed (h : s.todo = []) :
      Move c s .traversed { s with traversed := true, checkFlag := 2 }
  | thread (i t) (h : ThreadMove c s i t) : Move c s (.thread i) t
  | poll (hf : s.checkFlag = 1) (hm : s.main = .polling) :
      Move c s .poll { s with main := .destroying }
  | destroy (hm : s.main = .destroying) :
      Move c s .destroy { s with main := .joining, destroy := true }
  | tearDown (hm : s.main = .joining) (h : ∀ i, s.thread i = .exited) :
      Move c s .tearDown { s with main := .tornDown }

theorem step_cases {c : Checks} {s t : State n} {e : Event n} (h : step c s e = some t) :
    Move c s e t := by
  cases e with
  | enqueue =>
    cases ht : s.todo with
    | nil => simp only [step, ht, reduceCtorEq] at h
    | cons w todo =>
      simp only [step, ht, Option.ite_none_left_eq_some, Option.some.injEq] at h
      obtain ⟨_, rfl⟩ := h
      exact .enqueue w todo ht
  | skip =>
    cases ht : s.todo with
    | nil => simp only [step, ht, reduceCtorEq] at h
    | cons w todo =>
      simp only [step, ht, Option.ite_none_left_eq_some, Option.some.injEq, not_or,
        Bool.not_eq_false] at h
      obtain ⟨⟨_, hd⟩, rfl⟩ := h
      exact .skip w todo ht hd
  | traversed =>
    simp only [step, Option.ite_none_left_eq_some, Option.some.injEq, not_or, not_not] at h
    obtain ⟨⟨_, _, ht⟩, rfl⟩ := h
    exact .traversed ht
  | thread i =>
    simp only [step, Option.ite_none_left_eq_some] at h
    exact .thread i t (checkThread_cases h.2)
  | poll =>
    simp only [step, Option.ite_none_right_eq_some, Option.some.injEq] at h
    obtain ⟨⟨hm, hf⟩, rfl⟩ := h
    exact .poll hf hm
  | destroy =>
    simp only [step, Option.ite_none_right_eq_some, Option.some.injEq] at h
    obtain ⟨hm, rfl⟩ := h
    exact .destroy hm
  | tearDown =>
    simp only [step, Option.ite_none_right_eq_some, Option.some.injEq] at h
    obtain ⟨⟨hm, hx⟩, rfl⟩ := h
    exact .tearDown hm hx

theorem step_main_ne {c : Checks} {s t : State n} {e : Event n} (h : step c s e = some t) :
    s.main ≠ .tornDown := by
  intro hm
  cases e with
  | enqueue => cases ht : s.todo <;> simp [step, ht, hm] at h
  | skip => cases ht : s.todo <;> simp [step, ht, hm] at h
  | _ => simp [step, hm] at h

end MyScripts.Shark.CheckThreads
