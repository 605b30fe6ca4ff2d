import MyScripts.Shark.CheckTeardown
import MyScripts.Shark.CheckTree

/-!
# Complete runs of the check

When the traversal is over and the check threads have nothing left to do, every
pair that was queued has been compared, so a report was written if some pair
mismatches, and otherwise there is a run without any.
-/
namespace MyScripts.Shark.CheckThreads
open Library.Run

variable {n : ℕ} {c : Checks} {s t : State n} {i : Fin n} {e : Event n} {todo : List CheckoutDate}

/-- The traversal is over, no thread has a pair, and none is left in the queue
unless all threads are gone. Main has not destroyed the pool. -/
structure Complete (s : State n) : Prop where
  traversed : s.traversed = true
  destroy : s.destroy = false
  idle : ∀ i w, s.thread i ≠ .perform w ∧ s.thread i ≠ .change w ∧ s.thread i ≠ .report w
  queue : s.queue = [] ∨ ∀ i, s.thread i = .exited

/-- Before the destroy nothing is skipped, and threads leave only after a report
or at the end. -/
structure Whole (todo : List CheckoutDate) (s : State n) : Prop where
  queued : s.queued ++ s.todo = todo
  exited : ∀ i, s.thread i = .exited → s.reports ≠ [] ∨ Drained s

theorem whole_init (todo : List CheckoutDate) : Whole todo (init n todo) where
  queued := rfl
  exited := fun _ h => Pc.noConfusion h

theorem Whole.threadMove (h : Whole todo s) (hl : Live c s) (hm : ThreadMove c s i t) :
    Whole todo t := by
  obtain ⟨_, _, htodo, _, hqd⟩ := hm.frame
  refine ⟨by rw [hqd, htodo, h.queued], fun j hj => ?_⟩
  have hreports : s.reports ≠ [] → t.reports ≠ [] := by
    intro hr
    cases hm with
    | report w _ => exact List.append_ne_nil_of_left_ne_nil hr _
    | _ => exact hr
  by_cases hji : j = i
  · subst hji
    cases hm with
    | lastFlag hv _ => exact Or.inr (hl.null j hv)
    | leave hv => exact Or.inr (hl.null j hv)
    | quit w _ hd => exact absurd (hl.destroy.symm.trans hd) (by decide)
    | report w _ => exact Or.inl (List.append_ne_nil_of_right_ne_nil _ (List.cons_ne_nil _ _))
    | _ => rw [State.goto_self] at hj; exact Pc.noConfusion hj
  · rw [hm.thread_of_ne hji] at hj
    exact (h.exited j hj).imp hreports fun hd => hd.threadMove hm

theorem Whole.move (h : Whole todo s) (hl : Live c s) (hm : Move c s e t) : Whole todo t := by
  cases hm with
  | enqueue w rest ht =>
    refine ⟨?_, fun j hj => ?_⟩
    · rw [← h.queued, ht, List.append_assoc]
      rfl
    · rcases h.exited j hj with hr | hd
      · exact Or.inl hr
      · rw [hl.todo hd.2] at ht
        cases ht
  | skip w rest _ hd => exact absurd (hl.destroy.symm.trans hd) (by decide)
  | traversed ht =>
    refine ⟨h.queued, fun j hj => ?_⟩
    exact (h.exited j hj).imp id fun hd => ⟨hd.1, rfl⟩
  | thread i t ht => exact h.threadMove hl ht
  | poll _ _ => exact ⟨h.queued, h.exited⟩
  | destroy _ => exact ⟨h.queued, h.exited⟩
  | tearDown _ _ => exact ⟨h.queued, h.exited⟩

theorem whole_of_destroy {es : List (Event n)} (h : exec (step c) (init n todo) es = some s)
    (hd : s.destroy = false) : Whole todo s := by
  have hall : Live c s ∧ Whole todo s ∨ s.destroy = true := by
    refine invariant_exec (I := fun u => Live c u ∧ Whole todo u ∨ u.destroy = true)
      (fun u e v hu hv => ?_) (Or.inl ⟨live_init todo, whole_init todo⟩) h
    have hm := step_cases hv
    rcases hu with ⟨hl, hw⟩ | hd
    · rcases hl.move hm with hl' | ⟨_, _, rfl⟩
      · exact Or.inl ⟨hl', hw.move hl hm⟩
      · exact Or.inr rfl
    · exact Or.inr (hm.destroyed hd)
  exact (hall.resolve_right (Bool.eq_false_iff.1 hd)).2

theorem Complete.reported {es : List (Event (n + 1))} {s : State (n + 1)}
    (h : exec (step c) (init (n + 1) todo) es = some s) (hs : Complete s)
    (hbad : ∃ w ∈ todo, Bad c w) : s.reports ≠ [] := by
  have hl := live_of_destroy h hs.destroy
  have hw := whole_of_destroy h hs.destroy
  obtain ⟨w, hmem, hb⟩ := hbad
  have hqueued : w ∈ s.queued := by
    have hall := hw.queued
    rw [hl.todo hs.traversed, List.append_nil] at hall
    rwa [hall]
  rcases hl.judged w hqueued hb with (hq | ⟨i, hi⟩) | hr | ⟨i, v, hi⟩
  · have hne : s.queue ≠ [] := List.ne_nil_of_mem hq
    have hexited := hs.queue.resolve_left hne 0
    exact (hw.exited 0 hexited).resolve_right fun hd => hne hd.1
  · exact absurd hi (hs.idle i w).1
  · exact hr
  · rcases hi with ⟨hi, _⟩ | hi
    · exact absurd hi (hs.idle i v).2.1
    · exact absurd hi (hs.idle i v).2.2

def between (n : ℕ) (queued todo : List CheckoutDate) : State (n + 1) :=
  { init (n + 1) todo with queued := queued }

theorem update_fetch (i : Fin n) (a b : Pc) :
    Function.update (Function.update (Function.update (fun _ => Pc.fetch) i a) i b) i .fetch =
      fun _ => Pc.fetch := by
  rw [Function.update_idem, Function.update_idem, Function.update_eq_self]

theorem step_thread (h : s.main ≠ .tornDown) (i : Fin n) :
    step c s (.thread i) = checkThread c s i := if_neg h

theorem checkThread_agree {w : CheckoutDate} (h : s.thread i = .change w) (hw : ¬Bad c w) :
    checkThread c s i = some (s.goto i .fetch) := by
  simp only [checkThread, h]
  exact congrArg some (if_neg hw)

theorem exec_between {w : CheckoutDate} (hw : ¬Bad c w) (queued todo : List CheckoutDate) :
    exec (step c) (between n queued (w :: todo)) [.enqueue, .thread 0, .thread 0, .thread 0] =
      some (between n (queued ++ [w]) todo) := by
  let s₁ := between n (queued ++ [w]) todo
  let s₂ := (s₁.goto 0 (.perform w)).goto 0 (.change w)
  have hagree : step c s₂ (.thread 0) = some (s₂.goto 0 .fetch) := by
    have hthread : s₂.thread 0 = .change w := State.goto_self ..
    have hmain : s₂.main ≠ .tornDown := Main.noConfusion
    exact (step_thread hmain 0).trans (checkThread_agree hthread hw)
  have hback : s₂.goto 0 .fetch = s₁ := by
    simp only [s₂, State.goto, update_fetch, s₁, between, init]
  rw [hback] at hagree
  exact exec_cons_eq_some.2 ⟨_, rfl, exec_cons_eq_some.2 ⟨_, rfl, exec_cons_eq_some.2 ⟨s₂, rfl,
    exec_cons_eq_some.2 ⟨s₁, hagree, rfl⟩⟩⟩⟩

theorem exists_complete (n : ℕ) (hgood : ∀ w ∈ todo, ¬Bad c w) :
    ∃ es s, exec (step c) (init (n + 1) todo) es = some s ∧ Complete s ∧ s.reports = [] := by
  have hrun : ∀ queued, ∃ es s, exec (step c) (between n queued todo) es = some s ∧
      Complete s ∧ s.reports = [] := by
    induction todo with
    | nil =>
      intro queued
      refine ⟨[.traversed], _, rfl, ⟨rfl, rfl, fun i w => ?_, Or.inl rfl⟩, rfl⟩
      exact ⟨Pc.noConfusion, Pc.noConfusion, Pc.noConfusion⟩
    | cons w todo ih =>
      intro queued
      obtain ⟨hw, htodo⟩ := List.forall_mem_cons.1 hgood
      obtain ⟨es, s, hes, hs⟩ := ih htodo (queued ++ [w])
      exact ⟨_, s, exec_trans (exec_between hw queued todo) hes, hs⟩
  exact hrun []

end MyScripts.Shark.CheckThreads

namespace MyScripts.Shark.CheckTree
open Library.Run Library.DirTree CheckThreads

def Differ (T V : Tree) : Prop := ∃ p, (T.at p).map (·.kind) ≠ (V.at p).map (·.kind)

def CheckoutComplete (threads : ℕ) (md5 : List Char → Digest) (m : Mounts) (T V : Tree) : Prop :=
  Differ T V → ∀ (es : List (Event threads)) s,
    exec (step (checks md5 m T V)) (init threads (checkAll m T V)) es = some s → Complete s →
      s.reports ≠ []

theorem mismatch_of_kind_ne {md5 : List Char → Digest} {m : Mounts} {T V : Tree} {p : List Char}
    {a b : Entry} (ha : T.at p = some a) (hb : V.at p = some b) (hne : a.kind ≠ b.kind)
    (hkind : a.kind = .reg ∨ a.kind = .lnk) : Mismatch md5 m T V p := by
  have hunequal : ∀ w, Unequal md5 w a b := fun w => Or.inr (Or.inr (Or.inl hne))
  rcases hkind with h | h
  · exact ⟨a, b, .file, ha, hb, by rw [h]; rfl, hunequal _⟩
  · exact ⟨a, b, .symlink, ha, hb, by rw [h]; rfl, hunequal _⟩

/-- The check reports that two trees differ if and only if, when they do, some
pair that the traversal does queue mismatches. -/
theorem checkoutComplete_iff (n : ℕ) (md5 : List Char → Digest) (m : Mounts) (T V : Tree) :
    CheckoutComplete (n + 1) md5 m T V ↔ (Differ T V → ∃ p, Mismatch md5 m T V p) := by
  rw [← exists_bad_iff]
  constructor
  · intro h hdiffer
    by_contra hnone
    push Not at hnone
    obtain ⟨es, s, hes, hs, hreports⟩ := exists_complete n hnone
    exact h hdiffer es s hes hs hreports
  · intro h hdiffer es s hes hs
    exact hs.reported hes (h hdiffer)

def sampleAttrs : Attrs := ⟨0, 0, 420, []⟩

def oneFile : Tree :=
  ⟨.leaf ⟨['a'], by decide⟩ ⟨⟨.reg, by decide⟩, sampleAttrs, []⟩ .nil, by decide, trivial⟩

def oneDir : Tree := ⟨.sub ⟨['a'], by decide⟩ sampleAttrs .nil .nil, by decide, trivial, trivial⟩

def emptyTree : Tree := ⟨.nil, trivial⟩

def sampleMounts : Mounts where
  digioceand := ⟨"/mnt/".toList, "/mnt".toList, rfl⟩
  disk := ⟨"/val/".toList, "/val".toList, rfl⟩
  absolute := rfl

/-- A file on the test side or the validation side only, and a directory whose
counterpart is a file, are not reported. -/
theorem checkoutComplete_false_oneSided :
    ¬CheckoutComplete 1 (fun _ => .zero) sampleMounts oneFile emptyTree ∧
    ¬CheckoutComplete 1 (fun _ => .zero) sampleMounts emptyTree oneFile ∧
    ¬CheckoutComplete 1 (fun _ => .zero) sampleMounts oneDir oneFile := by
  have hfalse : ∀ T V : Tree, checkAll sampleMounts T V = [] → Differ T V →
      ¬CheckoutComplete 1 (fun _ => .zero) sampleMounts T V := by
    intro T V hpairs hdiffer h
    obtain ⟨es, s, hes, hs, hreports⟩ := @exists_complete
      (checks (fun _ => .zero) sampleMounts T V)
      (checkAll sampleMounts T V) 0 (by rw [hpairs]; exact fun w hw => absurd hw List.not_mem_nil)
    exact h hdiffer es s hes hs hreports
  exact ⟨hfalse _ _ rfl ⟨['a'], by decide⟩, hfalse _ _ rfl ⟨['a'], by decide⟩,
    hfalse _ _ rfl ⟨['a'], by decide⟩⟩

end MyScripts.Shark.CheckTree
