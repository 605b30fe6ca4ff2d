import MyScripts.Shark.ErrorMinimum
import Mathlib.Data.List.MinMax

/-!
# The two pools' error functions side by side

`update_digi_min_error` is a copy of `update_disk_min_error` in which some of the
disk pool's names were left. Here both are written out with all they touch, and
compared after an exchange of the pools.
-/
namespace MyScripts.Shark.Manager

/-- An entry of the error lists. `date` takes its position from the worker, but
its `op_index` is never set; `workerOp` is the worker's. -/
structure Failure where
  index : ListIndex
  workerOp : ℕ
  dateOp : ℕ

structure Minimum where
  index : ListIndex
  op : ℕ

structure Errors where
  list : Pool → List Failure
  sum : Pool → ℤ
  haveDestroy : Pool → Bool
  min : Pool → Minimum
  mask : Pool → Mask
  normal : Pool → Bool
  destroyMark : ListIndex

namespace Errors

def add (x : Errors) (p : Pool) (e : Failure) : Errors :=
  { x with
    list := Function.update x.list p (x.list p ++ [e])
    sum := Function.update x.sum p (x.sum p + 1) }

def setMin (x : Errors) (p : Pool) (m : Minimum) : Errors :=
  { x with min := Function.update x.min p m }

def setHaveDestroy (x : Errors) (p : Pool) : Errors :=
  { x with haveDestroy := Function.update x.haveDestroy p true }

def stop (x : Errors) (p : Pool) (destroyMark : ListIndex) : Errors :=
  { x with
    mask := Function.update x.mask p .ending
    normal := Function.update x.normal p true
    destroyMark := destroyMark }

def swap (x : Errors) : Errors where
  list p := x.list p.other
  sum p := x.sum p.other
  haveDestroy p := x.haveDestroy p.other
  min p := x.min p.other
  mask p := x.mask p.other
  normal p := x.normal p.other
  destroyMark := x.destroyMark

end Errors

/-- The body of both functions: `own` is the pool whose list, count and minimum are
written, `named` the one in the comparisons, the copy and the flags. -/
def updatePoolMinError (own named : Pool) (errorNum : ℤ) (x : Errors) (e : Failure) : Errors × ℤ :=
  let x := x.add own e
  if x.sum own ≥ errorNum then
    if x.haveDestroy own then
      if e.index.group < (x.min named).index.group then
        (x.setMin own ⟨e.index, e.dateOp⟩, -1)
      else if e.index.group = (x.min named).index.group then
        if e.index.opList < (x.min named).index.opList then
          (x.setMin own ⟨e.index, e.dateOp⟩, -1)
        else (x, -1)
      else (x, -1)
    else
      let x := (x.setHaveDestroy own).setMin own ⟨e.index, e.workerOp⟩
      (x.stop named (x.min named).index, -1)
  else (x, 0)

def updateDiskMinError (errorNum : ℤ) (x : Errors) (e : Failure) : Errors × ℤ :=
  updatePoolMinError .disk .disk errorNum x e

/-- The comparisons, the destroy point and the flags are the disk pool's. -/
def updateDigiMinError (errorSum : ℤ) (x : Errors) (e : Failure) : Errors × ℤ :=
  updatePoolMinError .digi .disk errorSum x e

def diskAll (errorNum : ℤ) (x : Errors) (es : List Failure) : Errors :=
  es.foldl (fun x e => (updateDiskMinError errorNum x e).1) x

def digiAll (errorSum : ℤ) (x : Errors) (es : List Failure) : Errors :=
  es.foldl (fun x e => (updateDigiMinError errorSum x e).1) x

variable {own named p q : Pool} {errorNum : ℤ} {x : Errors} {e : Failure} {es : List Failure}

def poolAll (own named : Pool) (errorNum : ℤ) (x : Errors) (es : List Failure) : Errors :=
  es.foldl (fun x e => (updatePoolMinError own named errorNum x e).1) x

def keep (bound : ListIndex) (m : Minimum) (e : Failure) : Minimum :=
  if e.index < bound then ⟨e.index, e.dateOp⟩ else m

def keepMin (own named : Pool) (min : Pool → Minimum) (e : Failure) : Pool → Minimum :=
  Function.update min own (keep (min named).index (min own) e)

structure Outcome where
  min : Pool → Minimum
  mask : Pool → Mask
  normal : Pool → Bool
  destroyMark : ListIndex

def Errors.outcome (x : Errors) : Outcome := ⟨x.min, x.mask, x.normal, x.destroyMark⟩

def outcomeFrom (own named : Pool) (x : Errors) : List Failure → Outcome
  | [] => x.outcome
  | e :: es =>
    if x.haveDestroy own then
      ⟨(e :: es).foldl (keepMin own named) x.min, x.mask, x.normal, x.destroyMark⟩
    else
      let min := Function.update x.min own ⟨e.index, e.workerOp⟩
      ⟨es.foldl (keepMin own named) min, Function.update x.mask named .ending,
        Function.update x.normal named true, (min named).index⟩

def late (errorNum : ℤ) (sum : ℤ) (es : List Failure) : List Failure :=
  es.drop (errorNum - sum - 1).toNat

theorem late_of_le {sum : ℤ} (h : errorNum ≤ sum + 1) : late errorNum sum es = es := by
  have hzero : (errorNum - sum - 1).toNat = 0 := by omega
  rw [late, hzero, List.drop_zero]

theorem late_of_lt {sum : ℤ} (h : sum + 1 < errorNum) :
    late errorNum sum (e :: es) = late errorNum (sum + 1) es := by
  have hsucc : (errorNum - sum - 1).toNat = (errorNum - (sum + 1) - 1).toNat + 1 := by omega
  rw [late, hsucc, List.drop_succ_cons, late]

/-- The two tests of group and list are one of the order of positions. -/
theorem keep_cases {α : Type} (f : Minimum → α) (bound : ListIndex) (m : Minimum) (e : Failure) :
    (if e.index.group < bound.group then f ⟨e.index, e.dateOp⟩
      else if e.index.group = bound.group then
        if e.index.opList < bound.opList then f ⟨e.index, e.dateOp⟩ else f m
      else f m) = f (keep bound m e) := by
  unfold keep
  by_cases hlt : e.index < bound
  · rw [if_pos hlt]
    rcases ListIndex.lt_iff.1 hlt with hgroup | ⟨hgroup, hlist⟩
    · rw [if_pos hgroup]
    · rw [if_neg (by omega), if_pos hgroup, if_pos hlist]
  · rw [if_neg hlt]
    have hgroup : ¬e.index.group < bound.group := fun h => hlt (ListIndex.lt_iff.2 (Or.inl h))
    rw [if_neg hgroup]
    split_ifs with heq hlist
    · exact absurd (ListIndex.lt_iff.2 (Or.inr ⟨heq, hlist⟩)) hlt
    · rfl
    · rfl

theorem updatePoolMinError_below (h : x.sum own + 1 < errorNum) :
    (updatePoolMinError own named errorNum x e).1 = x.add own e := by
  have hlimit : ¬(x.add own e).sum own ≥ errorNum := by
    simp only [Errors.add, Function.update_self, not_le]
    exact h
  unfold updatePoolMinError
  dsimp only
  rw [if_neg hlimit]

theorem updatePoolMinError_noted (h : errorNum ≤ x.sum own + 1) (hhave : x.haveDestroy own = true) :
    (updatePoolMinError own named errorNum x e).1 =
      (x.add own e).setMin own (keep (x.min named).index (x.min own) e) := by
  have hlimit : (x.add own e).sum own ≥ errorNum := by
    simp only [Errors.add, Function.update_self]
    exact h
  have hhave' : (x.add own e).haveDestroy own = true := hhave
  have hself : (x.add own e).setMin own (x.min own) = x.add own e := by
    simp only [Errors.setMin, Errors.add, Function.update_eq_self]
  have hkeep := keep_cases (fun m => ((x.add own e).setMin own m, (-1 : ℤ)))
    (x.min named).index (x.min own) e
  rw [hself] at hkeep
  unfold updatePoolMinError
  dsimp only
  rw [if_pos hlimit, if_pos hhave']
  exact congrArg Prod.fst hkeep

theorem updatePoolMinError_first (h : errorNum ≤ x.sum own + 1) (hhave : ¬x.haveDestroy own = true) :
    (updatePoolMinError own named errorNum x e).1 =
      (((x.add own e).setHaveDestroy own).setMin own ⟨e.index, e.workerOp⟩).stop named
        (Function.update x.min own ⟨e.index, e.workerOp⟩ named).index := by
  have hlimit : (x.add own e).sum own ≥ errorNum := by
    simp only [Errors.add, Function.update_self]
    exact h
  have hhave' : ¬(x.add own e).haveDestroy own = true := hhave
  unfold updatePoolMinError
  dsimp only
  rw [if_pos hlimit, if_neg hhave']
  rfl

theorem outcome_noted (h : errorNum ≤ x.sum own + 1) (hhave : x.haveDestroy own = true) :
    (poolAll own named errorNum x es).outcome =
      ⟨es.foldl (keepMin own named) x.min, x.mask, x.normal, x.destroyMark⟩ := by
  induction es generalizing x with
  | nil => rfl
  | cons e es ih =>
    rw [poolAll, List.foldl_cons, updatePoolMinError_noted h hhave, ← poolAll, ih]
    · rfl
    · simp only [Errors.setMin, Errors.add, Function.update_self]
      omega
    · exact hhave

theorem outcome_poolAll (own named : Pool) (errorNum : ℤ) (x : Errors) (es : List Failure) :
    (poolAll own named errorNum x es).outcome =
      outcomeFrom own named x (late errorNum (x.sum own) es) := by
  induction es generalizing x with
  | nil => rw [late, List.drop_nil, outcomeFrom, poolAll, List.foldl_nil]
  | cons e es ih =>
    by_cases hlimit : errorNum ≤ x.sum own + 1
    · rw [late_of_le hlimit, outcomeFrom]
      by_cases hhave : x.haveDestroy own = true
      · rw [if_pos hhave, outcome_noted hlimit hhave]
      · rw [if_neg hhave, poolAll, List.foldl_cons, updatePoolMinError_first hlimit hhave, ← poolAll,
          outcome_noted]
        · rfl
        · simp only [Errors.stop, Errors.setMin, Errors.setHaveDestroy, Errors.add,
            Function.update_self]
          omega
        · exact Function.update_self ..
    · have hbelow : x.sum own + 1 < errorNum := not_le.1 hlimit
      rw [late_of_lt hbelow, poolAll, List.foldl_cons, updatePoolMinError_below hbelow, ← poolAll, ih]
      have hsum : (x.add own e).sum own = x.sum own + 1 := Function.update_self ..
      rw [hsum]
      cases late errorNum (x.sum own + 1) es <;> rfl

def Outcome.swap (o : Outcome) : Outcome :=
  ⟨fun p => o.min p.other, fun p => o.mask p.other, fun p => o.normal p.other, o.destroyMark⟩

theorem other_other (p : Pool) : p.other.other = p := by
  cases p <;> rfl

theorem update_other {α : Type} (f : Pool → α) (p : Pool) (a : α) :
    (fun q => Function.update f p a q.other) = Function.update (fun q => f q.other) p.other a := by
  funext q
  cases p <;> cases q <;> rfl

theorem keepMin_other (own named : Pool) (min : Pool → Minimum) (e : Failure) :
    (fun q => keepMin own named min e q.other) =
      keepMin own.other named.other (fun q => min q.other) e := by
  unfold keepMin
  rw [update_other]
  simp only [other_other]

theorem foldl_keepMin_other (own named : Pool) (min : Pool → Minimum) (es : List Failure) :
    (fun q => es.foldl (keepMin own named) min q.other) =
      es.foldl (keepMin own.other named.other) fun q => min q.other := by
  induction es generalizing min with
  | nil => rfl
  | cons e es ih => rw [List.foldl_cons, ih, keepMin_other, List.foldl_cons]

theorem outcomeFrom_swap (own named : Pool) (x : Errors) (es : List Failure) :
    (outcomeFrom own named x.swap es).swap = outcomeFrom own.other named.other x es := by
  have hback : ∀ {α : Type} (f : Pool → α), (fun q : Pool => f q.other.other) = f := by
    intro α f
    funext q
    rw [other_other]
  cases es with
  | nil => simp only [outcomeFrom, Outcome.swap, Errors.outcome, Errors.swap, hback]
  | cons e es =>
    dsimp only [outcomeFrom]
    by_cases hhave : x.haveDestroy own.other = true
    · have hswap : x.swap.haveDestroy own = true := hhave
      rw [if_pos hhave, if_pos hswap, Outcome.swap]
      simp only [foldl_keepMin_other, Errors.swap, hback]
    · have hswap : ¬x.swap.haveDestroy own = true := hhave
      rw [if_neg hhave, if_neg hswap, Outcome.swap]
      simp only [foldl_keepMin_other, update_other, Errors.swap, hback]
      congr 2
      cases own <;> cases named <;> rfl

/-- For these errors the cluster pool's function does what the disk pool's does
with the pools exchanged. -/
def Mirrors (errorNum : ℤ) (x : Errors) (es : List Failure) : Prop :=
  (digiAll errorNum x es).outcome = (diskAll errorNum x.swap es).swap.outcome

theorem mirrors_outcomeFrom (errorNum : ℤ) (x : Errors) (es : List Failure) :
    Mirrors errorNum x es ↔
      outcomeFrom .digi .disk x (late errorNum (x.sum .digi) es) =
        outcomeFrom .digi .digi x (late errorNum (x.sum .digi) es) := by
  have hdigi : (digiAll errorNum x es).outcome = _ := outcome_poolAll .digi .disk errorNum x es
  have hdisk : (diskAll errorNum x.swap es).swap.outcome = _ :=
    (congrArg Outcome.swap (outcome_poolAll .disk .disk errorNum x.swap es)).trans
      (outcomeFrom_swap .disk .disk x _)
  rw [Mirrors, hdigi, hdisk]
  rfl

def Failure.noted (e : Failure) : Minimum := ⟨e.index, e.dateOp⟩

def lastBelow (bound : ListIndex) (m : Minimum) (es : List Failure) : Minimum :=
  ((es.filter fun e => e.index < bound).getLast?.map Failure.noted).getD m

def NotesEarliest (bound : ListIndex) (m : Minimum) (es : List Failure) : Prop :=
  (m :: es.map Failure.noted).argmin Minimum.index = some (lastBelow bound m es)

theorem foldl_keep (bound : ListIndex) (m : Minimum) (es : List Failure) :
    es.foldl (keep bound) m = lastBelow bound m es := by
  induction es using List.reverseRecOn with
  | nil => rfl
  | append_singleton es e ih =>
    rw [List.foldl_append, ih, List.foldl_cons, List.foldl_nil, keep, lastBelow, lastBelow,
      List.filter_append]
    by_cases hlt : e.index < bound
    · rw [if_pos hlt, List.filter_singleton]
      simp [hlt, Failure.noted]
    · rw [if_neg hlt, List.filter_singleton]
      simp [hlt]

theorem argmin_noted (m : Minimum) (es : List Failure) :
    (m :: es.map Failure.noted).argmin Minimum.index =
      some (es.foldl (fun m e => keep m.index m e) m) := by
  induction es using List.reverseRecOn with
  | nil => rfl
  | append_singleton es e ih =>
    rw [List.map_append, ← List.cons_append, List.map_singleton, List.argmin_concat, ih,
      List.foldl_append, List.foldl_cons, List.foldl_nil]
    exact (apply_ite some ..).symm

theorem foldl_keepMin_self (p : Pool) (min : Pool → Minimum) (es : List Failure) :
    es.foldl (keepMin p p) min =
      Function.update min p (es.foldl (fun m e => keep m.index m e) (min p)) := by
  induction es generalizing min with
  | nil => exact (Function.update_eq_self ..).symm
  | cons e es ih =>
    rw [List.foldl_cons, ih, keepMin, Function.update_idem, Function.update_self, List.foldl_cons]

theorem foldl_keepMin_of_ne (h : named ≠ own) (min : Pool → Minimum) (es : List Failure) :
    es.foldl (keepMin own named) min =
      Function.update min own (es.foldl (keep (min named).index) (min own)) := by
  induction es generalizing min with
  | nil => exact (Function.update_eq_self ..).symm
  | cons e es ih =>
    rw [List.foldl_cons, ih, keepMin, Function.update_idem, Function.update_self,
      Function.update_of_ne h, List.foldl_cons]

theorem notesEarliest_iff (min : Pool → Minimum) (es : List Failure) :
    es.foldl (keepMin .digi .disk) min = es.foldl (keepMin .digi .digi) min ↔
      NotesEarliest (min .disk).index (min .digi) es := by
  rw [foldl_keepMin_of_ne (by decide), foldl_keepMin_self, foldl_keep, NotesEarliest, argmin_noted,
    Option.some.injEq]
  constructor
  · intro h
    have hdigi := congrFun h .digi
    rw [Function.update_self, Function.update_self] at hdigi
    exact hdigi.symm
  · intro h
    rw [h]

theorem update_both {α : Type} (f : Pool → α) (a : α) :
    Function.update f .disk a = Function.update f .digi a ↔ ∀ p, f p = a := by
  constructor
  · intro h p
    cases p with
    | disk => exact (congrFun h .disk).symm
    | digi => exact congrFun h .digi
  · intro h
    funext p
    cases p with
    | disk => exact (h .disk).symm
    | digi => exact h .digi

/-- What the errors at or above the limit and the state before must be. -/
def MirrorsWhen (x : Errors) : List Failure → Prop
  | [] => True
  | e :: es =>
    if x.haveDestroy .digi then NotesEarliest (x.min .disk).index (x.min .digi) (e :: es)
    else (∀ p, x.mask p = .ending) ∧ (∀ p, x.normal p = true) ∧ (x.min .disk).index = e.index ∧
      NotesEarliest e.index ⟨e.index, e.workerOp⟩ es

/-- The cluster pool's function is the disk pool's with the pools exchanged exactly
in these states and for these errors. -/
theorem mirrors_iff (errorNum : ℤ) (x : Errors) (es : List Failure) :
    Mirrors errorNum x es ↔ MirrorsWhen x (late errorNum (x.sum .digi) es) := by
  rw [mirrors_outcomeFrom]
  generalize late errorNum (x.sum .digi) es = ls
  cases ls with
  | nil => exact iff_of_true rfl trivial
  | cons e es =>
    unfold outcomeFrom MirrorsWhen
    by_cases hhave : x.haveDestroy .digi = true
    · simp only [if_pos hhave, Outcome.mk.injEq, and_true]
      exact notesEarliest_iff x.min (e :: es)
    · have hmin := notesEarliest_iff (Function.update x.min .digi ⟨e.index, e.workerOp⟩) es
      rw [Function.update_self, Function.update_of_ne (by decide)] at hmin
      simp only [if_neg hhave, Outcome.mk.injEq, hmin, update_both, Function.update_self]
      rw [Function.update_of_ne (by decide)]
      constructor
      · rintro ⟨hleast, hmask, hnormal, hmark⟩
        exact ⟨hmask, hnormal, hmark, hmark ▸ hleast⟩
      · rintro ⟨hmask, hnormal, hmark, hleast⟩
        exact ⟨hmark ▸ hleast, hmask, hnormal, hmark⟩

def freshErrors : Errors where
  list _ := []
  sum _ := 0
  haveDestroy _ := false
  min _ := ⟨⟨0, 0⟩, 0⟩
  mask _ := .running
  normal _ := false
  destroyMark := ⟨0, 0⟩

theorem mirrors_false_firstError : ¬Mirrors 1 freshErrors [⟨⟨3, 2⟩, 0, 0⟩] := by
  intro h
  have hmask := congrFun (congrArg Outcome.mask h) .disk
  cases hmask

def reportError (n : ℕ) (s : State) (p : Pool) (i : ListIndex) : State :=
  let t := updateMinError n s p i
  if t.limitPending p then limitReached t p else t

structure Agrees (x : Errors) (s : State) : Prop where
  sum : ∀ p, x.sum p = s.errors.sum p
  haveDestroy : x.haveDestroy = s.errors.haveDestroy
  min : ∀ p, (x.min p).index = s.errors.min p
  mask : x.mask = s.mask
  normal : x.normal = s.normal
  destroyMark : x.destroyMark = s.destroyMark

theorem index_update (min : Pool → Minimum) (p q : Pool) (m : Minimum) :
    (Function.update min p m q).index = Function.update (fun q => (min q).index) p m.index q := by
  rw [Function.update_apply, Function.update_apply, apply_ite Minimum.index]

section Report

variable {n : ℕ} {s : State} {p : Pool} {i : ListIndex}

theorem reportError_below (hlimit : ¬n ≤ s.errors.sum p + 1) (hp : s.limitPending p = false) :
    reportError n s p i = { s with
      errors := { s.errors with sum := Function.update s.errors.sum p (s.errors.sum p + 1) } } := by
  unfold reportError updateMinError
  simp only [Function.update_self, ge_iff_le, if_neg hlimit, hp, Bool.false_eq_true, if_false]

theorem reportError_noted (hlimit : n ≤ s.errors.sum p + 1)
    (hhave : s.errors.haveDestroy p = true) (hp : s.limitPending p = false) :
    reportError n s p i = { s with
      errors := { s.errors with
        sum := Function.update s.errors.sum p (s.errors.sum p + 1)
        min := Function.update s.errors.min p
          (if i < s.errors.min .disk then i else s.errors.min p) } } := by
  unfold reportError updateMinError
  simp only [Function.update_self, ge_iff_le, if_pos hlimit, if_pos hhave]
  by_cases hlt : i < s.errors.min .disk
  · simp [hlt, hp]
  · simp [hlt, hp]

theorem reportError_first (hlimit : n ≤ s.errors.sum p + 1)
    (hhave : ¬s.errors.haveDestroy p = true) :
    reportError n s p i = { s with
      errors :=
        { sum := Function.update s.errors.sum p (s.errors.sum p + 1)
          haveDestroy := Function.update s.errors.haveDestroy p true
          min := Function.update s.errors.min p i }
      mask := Function.update s.mask .disk .ending
      normal := Function.update s.normal .disk true
      destroyMark := Function.update s.errors.min p i .disk
      limitPending := Function.update s.limitPending p false } := by
  unfold reportError updateMinError
  simp only [Function.update_self, ge_iff_le, if_pos hlimit, if_neg hhave, if_true, limitReached,
    Function.update_idem]

end Report

theorem Agrees.limit_iff {n : ℕ} {s : State} (h : Agrees x s) (p : Pool) :
    (n : ℤ) ≤ x.sum p + 1 ↔ n ≤ s.errors.sum p + 1 := by
  rw [h.sum]
  omega

theorem Agrees.sum_update {s : State} (h : Agrees x s) (p q : Pool) :
    Function.update x.sum p (x.sum p + 1) q =
      (Function.update s.errors.sum p (s.errors.sum p + 1) q : ℕ) := by
  rw [Function.update_apply, Function.update_apply]
  split_ifs
  · rw [h.sum]
    rfl
  · exact h.sum q

theorem agrees_updatePoolMinError {n : ℕ} {s : State} (h : Agrees x s) (p : Pool) (e : Failure)
    (hp : s.limitPending p = false) :
    Agrees (updatePoolMinError p .disk n x e).1 (reportError n s p e.index) := by
  have hmin : (fun q => (x.min q).index) = s.errors.min := funext h.min
  by_cases hlimit : (n : ℤ) ≤ x.sum p + 1
  · have hlimit' := (h.limit_iff p).1 hlimit
    by_cases hhave : x.haveDestroy p = true
    · rw [updatePoolMinError_noted hlimit hhave,
        reportError_noted hlimit' (h.haveDestroy ▸ hhave) hp]
      refine ⟨h.sum_update p, h.haveDestroy, fun q => ?_, h.mask, h.normal, h.destroyMark⟩
      simp only [Errors.setMin, Errors.add]
      rw [index_update, hmin, keep, h.min .disk, apply_ite Minimum.index, h.min p]
    · rw [updatePoolMinError_first hlimit hhave,
        reportError_first hlimit' (h.haveDestroy ▸ hhave)]
      refine ⟨h.sum_update p, ?_, fun q => ?_, ?_, ?_, ?_⟩
      · exact congrArg (Function.update · p true) h.haveDestroy
      · simp only [Errors.stop, Errors.setMin, Errors.setHaveDestroy, Errors.add]
        rw [index_update, hmin]
      · exact congrArg (Function.update · .disk .ending) h.mask
      · exact congrArg (Function.update · .disk true) h.normal
      · simp only [Errors.stop]
        rw [index_update, hmin]
  · rw [updatePoolMinError_below (not_le.1 hlimit),
      reportError_below (fun hle => hlimit ((h.limit_iff p).2 hle)) hp]
    exact ⟨h.sum_update p, h.haveDestroy, h.min, h.mask, h.normal, h.destroyMark⟩

/-- Each pool's function is the two sections of the manager's model, one after the other. -/
theorem agrees_updateMinError {n : ℕ} {s : State} (h : Agrees x s) (e : Failure)
    (hp : ∀ p, s.limitPending p = false) :
    Agrees (updateDiskMinError n x e).1 (reportError n s .disk e.index) ∧
      Agrees (updateDigiMinError n x e).1 (reportError n s .digi e.index) :=
  ⟨agrees_updatePoolMinError h .disk e (hp .disk), agrees_updatePoolMinError h .digi e (hp .digi)⟩

end MyScripts.Shark.Manager
