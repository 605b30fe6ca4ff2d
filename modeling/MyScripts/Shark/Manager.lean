import MyScripts.Library.Run
import MyScripts.Shark.Worker

/-!
# The manager's poll and the ends of the two pools

The main thread polls the two masks under the manager's lock and runs
`get_manager_state`, whose helpers give the lock back while `pool_destroy`
joins a pool's threads. The pools' threads write the masks at the end of the
journal and when an error list reaches its limit. Every iteration of the
switch and every critical section of a worker is one step.
-/
namespace MyScripts.Shark.Manager
open Library.Run

/-- The characters of `manager->mask`: '0', '1' and '2'. -/
inductive Mask
  | running
  | ending
  | destroyed
  deriving DecidableEq, Repr

inductive ManagerState
  | survive
  | destroy
  | willDestroy
  | haveDestroy
  | noticeOther
  | allDestroy
  | willContinue
  deriving DecidableEq, Repr

inductive After
  | willDisk
  | willDigi (count : ℕ)
  | notice
  | allDest
  deriving DecidableEq, Repr

inductive Pc
  | sleeping
  | loop (state : ManagerState) (which : ℤ)
  | destroying (p : Pool) (after : After)
  | returned (ret : ℤ)
  deriving DecidableEq, Repr

structure ErrorList where
  sum : Pool → ℕ
  haveDestroy : Pool → Bool
  min : Pool → ListIndex

structure State where
  pc : Pc
  mask : Pool → Mask
  normal : Pool → Bool
  destroyMark : ListIndex
  progress : Pool → ListIndex
  errors : ErrorList
  /-- A thread of the pool is between the error list's lock and the manager's. -/
  limitPending : Pool → Bool
  joined : Pool → Bool
  destroys : Pool → ℕ

/-- The state `manager_init` leaves; the minima of the error list are never initialised. -/
def init (destroyMark : ListIndex) (min : Pool → ListIndex) : State where
  pc := .sleeping
  mask := fun _ => .running
  normal := fun _ => false
  destroyMark := destroyMark
  progress := fun _ => ⟨0, 0⟩
  errors := ⟨fun _ => 0, fun _ => false, min⟩
  limitPending := fun _ => false
  joined := fun _ => false
  destroys := fun _ => 0

namespace State

def setPc (s : State) (pc : Pc) : State := { s with pc := pc }

def setMask (s : State) (p : Pool) (m : Mask) : State :=
  { s with mask := Function.update s.mask p m }

def poolDestroy (s : State) (p : Pool) (after : After) : State :=
  { s with pc := .destroying p after, destroys := Function.update s.destroys p (s.destroys p + 1) }

def join (s : State) (p : Pool) : State :=
  { s with joined := Function.update s.joined p true }

def unlocked (s : State) : Bool :=
  match s.pc with
  | .loop _ _ => false
  | _ => true

end State

def checkPoolState (s : State) : ManagerState :=
  if s.mask .disk = .running ∧ s.mask .digi = .running then .survive else .destroy

def checkPoolDestroy (s : State) : ManagerState :=
  if s.mask .disk ≠ .destroyed ∧ s.mask .digi ≠ .destroyed then .willDestroy else .haveDestroy

def willDestroyDigi (s : State) (count : ℕ) (which : ℤ) : State :=
  if s.mask .digi = .ending then
    s.poolDestroy .digi (.willDigi count)
  else
    s.setPc (.loop (if count = 2 then .allDestroy else .haveDestroy) which)

def checkPoolWillDestroy (s : State) (which : ℤ) : State :=
  if s.mask .disk = .ending then s.poolDestroy .disk .willDisk else willDestroyDigi s 0 which

def checkPoolHaveDestroy (s : State) : ℤ :=
  if s.mask .disk = .destroyed then 0 else 1

def noticed (which : ℤ) : Pool :=
  if which = 0 then .digi else .disk

def checkPoolNoticeDestroy (s : State) (which : ℤ) : State :=
  let p := noticed which
  if s.mask p = .ending then
    s.poolDestroy p .notice
  else if s.normal p.other = true then
    -- in the same group the inner test has no effect: both ways lead to `all_dest`
    if (s.progress p).group ≥ s.destroyMark.group then
      s.poolDestroy p .allDest
    else
      s.setPc (.loop .willContinue which)
  else
    s.setPc (.loop .willContinue which)

def checkPoolAllDestroy (s : State) : ℤ :=
  if s.normal .disk = false ∧ s.normal .digi = false then 1 else -1

def afterDestroy (s : State) (p : Pool) : After → State
  | .willDisk =>
    let t := s.setMask .disk .destroyed
    if t.mask .digi = .destroyed then t.setPc (.loop .allDestroy (-1))
    else willDestroyDigi t 1 (-1)
  | .willDigi count =>
    let t := s.setMask .digi .destroyed
    if t.mask .disk = .destroyed then t.setPc (.loop .allDestroy (-1))
    else t.setPc (.loop (if count + 1 = 2 then .allDestroy else .haveDestroy) (-1))
  | .notice => s.setPc (.loop .allDestroy (-1))
  | .allDest => (s.setMask p .destroyed).setPc (.loop .allDestroy (-1))

def manage (s : State) : Option State :=
  match s.pc with
  | .sleeping => some (s.setPc (.loop (checkPoolState s) (-1)))
  | .loop .survive _ => some (s.setPc .sleeping)
  | .loop .destroy which => some (s.setPc (.loop (checkPoolDestroy s) which))
  | .loop .willDestroy which => some (checkPoolWillDestroy s which)
  | .loop .haveDestroy _ => some (s.setPc (.loop .noticeOther (checkPoolHaveDestroy s)))
  | .loop .noticeOther which => some (checkPoolNoticeDestroy s which)
  | .loop .allDestroy _ => some (s.setPc (.returned (checkPoolAllDestroy s)))
  | .loop .willContinue _ => some (s.setPc .sleeping)
  | .destroying p after => if s.limitPending p then none else some (afterDestroy (s.join p) p after)
  | .returned _ => none

def oper (s : State) (p : Pool) (i : ListIndex) : State :=
  if i.group ≥ (s.progress p).group then
    { s with progress := Function.update s.progress p i }
  else s

/-- The error list's section of `update_disk_min_error` and `update_digi_min_error`:
both compare with the disk pool's minimum. -/
def updateMinError (maxErrorRange : ℕ) (s : State) (p : Pool) (i : ListIndex) : State :=
  let errors := { s.errors with sum := Function.update s.errors.sum p (s.errors.sum p + 1) }
  if errors.sum p ≥ maxErrorRange then
    if errors.haveDestroy p then
      if i < errors.min .disk then
        { s with errors := { errors with min := Function.update errors.min p i } }
      else { s with errors := errors }
    else
      { s with
        errors := { errors with
          haveDestroy := Function.update errors.haveDestroy p true
          min := Function.update errors.min p i }
        limitPending := Function.update s.limitPending p true }
  else { s with errors := errors }

/-- The manager's section of both functions: the cluster pool's copy, too,
writes `mask[0]`, `normal[0]` and the disk pool's minimum. -/
def limitReached (s : State) (p : Pool) : State :=
  { s with
    mask := Function.update s.mask .disk .ending
    normal := Function.update s.normal .disk true
    destroyMark := s.errors.min .disk
    limitPending := Function.update s.limitPending p false }

inductive Event
  | manage
  | oper (p : Pool) (i : ListIndex)
  | finish (p : Pool)
  | error (p : Pool) (i : ListIndex)
  | limit (p : Pool)
  deriving DecidableEq, Repr

/-- A pool's threads step until they are joined; what they do to the masks
needs the manager's lock. `finish` is a `build_worker_queue` that returned 1. -/
def step (maxErrorRange : ℕ) (s : State) : Event → Option State
  | .manage => manage s
  | .oper p i => if s.joined p then none else some (oper s p i)
  | .finish p => if s.joined p ∨ s.unlocked = false then none else some (s.setMask p .ending)
  | .error p i => if s.joined p then none else some (updateMinError maxErrorRange s p i)
  | .limit p =>
    if s.limitPending p = true ∧ s.unlocked = true then some (limitReached s p) else none

end MyScripts.Shark.Manager
