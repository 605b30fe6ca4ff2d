import MyScripts.Library.LockOrder
import MyScripts.Library.ThreadSum
import MyScripts.Shark.TreeAccesses

/-!
# Walks up the tree at the same time

`file_node_usecnt_update` keeps the lock of the node it is called for and takes
the locks of the directories above it, one at a time. Any number of threads make
such calls. A count is read and written in two steps, so it is the lock of the
directory that keeps the updates apart.
-/
namespace MyScripts.Shark.UsecntWalk
open FileTable Library.Run Library.Forest Library.LockOrder Library.ThreadSum

/-- Where a thread is. `n` is the node of the call, `d` what is added, `p` the directory
that `par` points to, and `v` the count read from it. -/
inductive Pc
  | idle
  | locking (n : NodeRef) (d : ℤ)
  | waiting (n : NodeRef) (d : ℤ) (p : NodeRef)
  | holding (n : NodeRef) (d : ℤ) (p : NodeRef)
  | loaded (n : NodeRef) (d : ℤ) (p : NodeRef) (v : ℤ)
  | stored (n : NodeRef) (d : ℤ) (p : NodeRef)
  | leaving (n p : NodeRef)
  | unlocking (n : NodeRef)
  deriving DecidableEq

structure State (ι : Type*) where
  table : Table
  lock : NodeRef → Option ι
  pc : ι → Pc

def State.start {ι : Type*} (t : Table) : State ι := ⟨t, fun _ => none, fun _ => .idle⟩

inductive Event (ι : Type*)
  | call (i : ι) (fileNode : NodeRef) (isAdd : Bool)
  | move (i : ι)

def delta (isAdd : Bool) : ℤ := if isAdd then 1 else -1

def setUsecnt (t : Table) (v : ℤ) (n : NodeRef) : Table :=
  match t.node n with
  | none => t
  | some x => t.setNode n { x with usecnt := v }

def loop (n : NodeRef) (d : ℤ) : Option NodeRef → Pc
  | none => .unlocking n
  | some p => .waiting n d p

variable {ι : Type*} [DecidableEq ι]

namespace State

def goto (s : State ι) (i : ι) (pc : Pc) : State ι := { s with pc := Function.update s.pc i pc }

def mutexLock (s : State ι) (i : ι) (n : NodeRef) : Option (State ι) :=
  if s.lock n = none then some { s with lock := Function.update s.lock n (some i) } else none

def mutexUnlock (s : State ι) (n : NodeRef) : State ι :=
  { s with lock := Function.update s.lock n none }

end State

def step (initialDirCnts : ℕ) (s : State ι) : Event ι → Option (State ι)
  | .call i fileNode isAdd =>
    match s.pc i with
    | .idle => some (s.goto i (.locking fileNode (delta isAdd)))
    | _ => none
  | .move i =>
    match s.pc i with
    | .idle => none
    | .locking n d => (s.mutexLock i n).map fun s => s.goto i (loop n d (s.table.parent n))
    | .waiting n d p => (s.mutexLock i p).map fun s => s.goto i (.holding n d p)
    | .holding n d p =>
      some (s.goto i
        (if s.table.key p < initialDirCnts then .leaving n p else .loaded n d p (s.table.usecnt p)))
    | .loaded n d p v =>
      some ({ s with table := setUsecnt s.table (v + d) p }.goto i (.stored n d p))
    | .stored n d p => some ((s.mutexUnlock p).goto i (loop n d (s.table.parent p)))
    | .leaving n p => some ((s.mutexUnlock p).goto i (.unlocking n))
    | .unlocking n => some ((s.mutexUnlock n).goto i .idle)

def calls (es : List (Event ι)) : List (NodeRef × Bool) :=
  es.filterMap fun
    | .call _ n isAdd => some (n, isAdd)
    | .move _ => none

def oneByOne (initialDirCnts : ℕ) (t : Table) (cs : List (NodeRef × Bool)) : Table :=
  cs.foldl (fun t c => t.fileNodeUsecntUpdate initialDirCnts c.1 c.2) t

variable {t u v : Table} {n p q : NodeRef} {type : FileType} {initial : ℕ}

theorem setUsecnt_add (t : Table) (d : ℤ) (n : NodeRef) :
    setUsecnt t (t.usecnt n + d) n = t.addUsecnt d n := by
  unfold setUsecnt Table.addUsecnt Table.usecnt
  cases t.node n with
  | none => rfl
  | some x => rfl

structure OnlyCounts (t u : Table) : Prop where
  node : ∀ n, u.node n = (t.node n).map ({ · with usecnt := u.usecnt n })
  fresh : u.fresh = t.fresh
  rbt : u.rbt = t.rbt
  cnt : u.cnt = t.cnt

theorem OnlyCounts.refl (t : Table) : OnlyCounts t t := by
  refine ⟨fun n => ?_, rfl, rfl, rfl⟩
  unfold Table.usecnt
  cases t.node n with
  | none => rfl
  | some x => rfl

theorem OnlyCounts.places (h : OnlyCounts t u) : SamePlaces t u := by
  constructor
  intro n
  rw [h.node n, Option.map_map]
  rfl

theorem OnlyCounts.addUsecnt (h : OnlyCounts t u) (d : ℤ) (n : NodeRef) :
    OnlyCounts t (u.addUsecnt d n) := by
  have hx := h.node n
  unfold Table.addUsecnt
  split
  · exact h
  · next x hux =>
    refine ⟨fun m => ?_, h.fresh, h.rbt, h.cnt⟩
    rw [hux] at hx
    by_cases hm : m = n
    · subst hm
      obtain ⟨y, hy, rfl⟩ := Option.map_eq_some_iff.1 hx.symm
      simp [Table.setNode, Table.usecnt, hy]
    · have hm' := h.node m
      simpa [Table.setNode, Table.usecnt, hm] using hm'

theorem OnlyCounts.foldl (h : OnlyCounts t u) (d : ℤ) (ps : List NodeRef) :
    OnlyCounts t (ps.foldl (fun t p => t.addUsecnt d p) u) := by
  induction ps generalizing u with
  | nil => exact h
  | cons p ps ih => exact ih (h.addUsecnt d p)

theorem OnlyCounts.ext (hu : OnlyCounts t u) (hv : OnlyCounts t v)
    (h : ∀ n type, HasNode t n type → u.usecnt n = v.usecnt n) : u = v := by
  obtain ⟨node, fresh, rbt, cnt⟩ := u
  obtain ⟨node', fresh', rbt', cnt'⟩ := v
  obtain rfl : fresh = fresh' := hu.fresh.trans hv.fresh.symm
  obtain rfl : rbt = rbt' := hu.rbt.trans hv.rbt.symm
  obtain rfl : cnt = cnt' := hu.cnt.trans hv.cnt.symm
  obtain rfl : node = node' := by
    funext n
    have hnode := hu.node n
    have hnode' := hv.node n
    dsimp only at hnode hnode'
    rw [hnode, hnode']
    cases hx : t.node n with
    | none => rfl
    | some x => rw [h n x.fileType ⟨x, hx, rfl⟩]
  rfl

theorem usecntPath_none (h : t.parent n = none) : t.usecntPath initial n = [] := by
  rw [Table.usecntPath]
  cases t.fresh with
  | zero => rfl
  | succ fuel => rw [Table.ancestors, h]; rfl

def walkFrom (initial : ℕ) (t : Table) (p : NodeRef) : List NodeRef :=
  if t.key p < initial then [] else p :: t.usecntPath initial p

theorem usecntPath_some (ht : TableInv t) (htree : TreeInv t) (h : t.parent n = some p) :
    t.usecntPath initial n = walkFrom initial t p := by
  have hlt := htree.parent_lt n p h
  obtain ⟨x, hx, -⟩ : ∃ x, t.node n = some x ∧ x.parent = some p := Option.bind_eq_some_iff.1 h
  have hn : n < t.fresh := ht.fresh n x hx
  obtain ⟨fuel, hfuel⟩ := Nat.exists_eq_succ_of_ne_zero (Nat.ne_of_gt (Nat.zero_lt_of_lt hn))
  have hp : p ≤ fuel := Nat.le_of_lt_succ (hfuel ▸ Nat.lt_trans hlt hn)
  have hcongr := ancestors_congr_fuel htree.parent_lt hp (Nat.le_of_lt (Nat.lt_trans hlt hn))
  have hpath : t.ancestors t.fresh n = p :: t.ancestors t.fresh p := by
    rw [ancestors_eq, ancestors_eq, ← hcongr, hfuel, Library.Forest.ancestors, h]
  rw [Table.usecntPath, hpath, walkFrom, Table.usecntPath]
  split_ifs with hkey
  · exact List.takeWhile_cons_of_neg (by simpa using hkey)
  · exact List.takeWhile_cons_of_pos (by simpa using hkey)

theorem notMem_usecntPath (htree : TreeInv t) (p : NodeRef) : p ∉ t.usecntPath initial p := by
  intro hp
  have hmem := List.takeWhile_subset _ hp
  rw [ancestors_eq] at hmem
  have hlt : id p < id p := key_lt_of_mem (P := fun _ => True) (fun _ _ _ => trivial)
    (fun n p _ hnp => htree.parent_lt n p hnp) trivial hmem
  exact Nat.lt_irrefl p hlt

namespace Pc

def held : Pc → List NodeRef
  | .idle | .locking .. => []
  | .waiting n _ _ | .unlocking n => [n]
  | .holding n _ p | .loaded n _ p _ | .stored n _ p | .leaving n p => [p, n]

def wants : Pc → Option NodeRef
  | .locking n _ => some n
  | .waiting _ _ p => some p
  | _ => none

def Inv (initial : ℕ) (t : Table) : Pc → Prop
  | .waiting n _ p | .holding n _ p | .stored n _ p | .leaving n p => Below t.parent n p
  | .loaded n _ p v => Below t.parent n p ∧ initial ≤ t.key p ∧ v = t.usecnt p
  | _ => True

def rest (initial : ℕ) (t : Table) (q : NodeRef) : Pc → ℤ
  | .locking n d => if q ∈ t.usecntPath initial n then d else 0
  | .waiting _ d p | .holding _ d p | .loaded _ d p _ => if q ∈ walkFrom initial t p then d else 0
  | .stored _ d p => if q ∈ t.usecntPath initial p then d else 0
  | .idle | .leaving .. | .unlocking _ => 0

end Pc

def share (initial : ℕ) (t : Table) (q : NodeRef) (c : NodeRef × Bool) : ℤ :=
  if q ∈ t.usecntPath initial c.1 then delta c.2 else 0

theorem owns_update {s : State ι} {i : ι} {pc : Pc} {lock : NodeRef → Option ι}
    (h : Owns lock (Function.update (fun i => (s.pc i).held) i pc.held)) :
    Owns lock fun j => (Function.update s.pc i pc j).held := by
  intro a j
  rw [h a j]
  by_cases hj : j = i
  · simp [hj]
  · simp [hj]

omit [DecidableEq ι] in
theorem mutexLock_eq_some {s s' : State ι} {i : ι} {n : NodeRef} :
    s.mutexLock i n = some s' ↔
      s.lock n = none ∧ s' = { s with lock := Function.update s.lock n (some i) } := by
  unfold State.mutexLock
  split_ifs with h
  · simp [h, eq_comm]
  · simp [h]

section Invariant

variable [Fintype ι]

/-- `t` is the table at the start. -/
structure WalkInv (initial : ℕ) (t : Table) (es : List (Event ι)) (s : State ι) : Prop where
  only : OnlyCounts t s.table
  owns : Owns s.lock fun i => (s.pc i).held
  pc : ∀ i, (s.pc i).Inv initial s.table
  count : ∀ q type, HasNode t q type →
    s.table.usecnt q + ∑ i, (s.pc i).rest initial t q =
      t.usecnt q + ((calls es).map (share initial t q)).sum

omit [DecidableEq ι] in
theorem walkInv_start (t : Table) :
    WalkInv initial t ([] : List (Event ι)) (State.start t) where
  only := .refl t
  owns := fun a i => by simp [State.start, Pc.held]
  pc := fun _ => trivial
  count := fun q type _ => by simp [State.start, Pc.rest, calls]

variable {s s' : State ι} {es : List (Event ι)} {i : ι} {pc : Pc} {lock : NodeRef → Option ι}

theorem WalkInv.quiet (h : WalkInv initial t es s)
    (howns : Owns lock (Function.update (fun i => (s.pc i).held) i pc.held))
    (hpc : pc.Inv initial s.table)
    (hrest : ∀ q, pc.rest initial t q = (s.pc i).rest initial t q) :
    WalkInv initial t (es ++ [.move i]) ⟨s.table, lock, Function.update s.pc i pc⟩ where
  only := h.only
  owns := owns_update howns
  pc := by
    intro j
    by_cases hj : j = i
    · simpa [hj] using hpc
    · simpa [hj] using h.pc j
  count := by
    intro q type hq
    have hcalls : calls (es ++ [.move i]) = calls es := by simp [calls]
    rw [hcalls, ← h.count q type hq, sum_update_eq, hrest q, sub_add_cancel]

theorem rest_loop (ht : TableInv t) (htree : TreeInv t) (n m : NodeRef) (d : ℤ) (q : NodeRef) :
    (loop n d (t.parent m)).rest initial t q = if q ∈ t.usecntPath initial m then d else 0 := by
  cases hp : t.parent m with
  | none => simp [loop, Pc.rest, usecntPath_none hp]
  | some p => rw [loop, Pc.rest, usecntPath_some ht htree hp]

theorem held_loop (n : NodeRef) (d : ℤ) (par : Option NodeRef) : (loop n d par).held = [n] := by
  cases par with
  | none => rfl
  | some p => rfl

theorem usecnt_addUsecnt_of_ne (t : Table) (d : ℤ) (h : q ≠ p) :
    (t.addUsecnt d p).usecnt q = t.usecnt q := by
  unfold Table.addUsecnt
  split
  · rfl
  · simp [Table.usecnt, Table.setNode, h]

theorem Pc.Inv.addUsecnt {d : ℤ} (h : pc.Inv initial t)
    (hother : p ∉ pc.held) : pc.Inv initial (t.addUsecnt d p) := by
  have hplaces := samePlaces_addUsecnt t d p
  cases pc with
  | idle | locking | unlocking => trivial
  | waiting n e q | holding n e q | stored n e q | leaving n q =>
    rw [Pc.Inv, hplaces.parent]
    exact h
  | loaded n e q v =>
    obtain ⟨hbelow, hkey, hv⟩ := h
    have hne : q ≠ p := by
      rintro rfl
      exact hother List.mem_cons_self
    rw [Pc.Inv, hplaces.parent, hplaces.key, usecnt_addUsecnt_of_ne t d hne]
    exact ⟨hbelow, hkey, hv⟩

theorem lt_of_below (htree : TreeInv t) (h : Below t.parent n p) : id p < id n :=
  h.rank_lt htree.parent_lt

theorem ne_of_below (htree : TreeInv t) (h : Below t.parent n p) : p ≠ n :=
  Nat.ne_of_lt (lt_of_below htree h)

/-- The thread holds the lock, so that nobody else is between reading and writing the count. -/
theorem WalkInv.store {d : ℤ} {v : ℤ} (htree : TreeInv t) (h : WalkInv initial t es s)
    (hpc : s.pc i = .loaded n d p v) :
    WalkInv initial t (es ++ [.move i])
      ⟨setUsecnt s.table (v + d) p, s.lock, Function.update s.pc i (.stored n d p)⟩ := by
  have hinv := h.pc i
  rw [hpc] at hinv
  obtain ⟨hbelow, hkey, rfl⟩ := hinv
  have hplaces := h.only.places
  rw [hplaces.key] at hkey
  rw [setUsecnt_add]
  refine ⟨h.only.addUsecnt d p, owns_update ?_, fun j => ?_, fun q type hq => ?_⟩
  · have heq : Function.update (fun j => (s.pc j).held) i (Pc.stored n d p).held =
        fun j => (s.pc j).held := Function.update_eq_self_iff.2 (by rw [hpc]; rfl)
    rw [heq]
    exact h.owns
  · by_cases hj : j = i
    · rw [hj]
      simpa [Pc.Inv, (samePlaces_addUsecnt s.table d p).parent] using hbelow
    · dsimp only
      rw [Function.update_of_ne hj]
      refine (h.pc j).addUsecnt fun hmem => hj ?_
      have hi : s.lock p = some i := (h.owns p i).2 (by simp [hpc, Pc.held])
      have hlock := (h.owns p j).2 hmem
      rw [hi] at hlock
      exact (Option.some.inj hlock).symm
  · have hcalls : calls (es ++ [.move i]) = calls es := by simp [calls]
    have hold : (s.pc i).rest initial t q = if q = p ∨ q ∈ t.usecntPath initial p then d else 0 := by
      rw [hpc, Pc.rest, walkFrom, if_neg (Nat.not_lt.2 hkey)]
      simp only [List.mem_cons]
    have hnew : (Pc.stored n d p).rest initial t q =
        if q ∈ t.usecntPath initial p then d else 0 := rfl
    have hout : p ∉ t.usecntPath initial p := notMem_usecntPath htree p
    rw [hcalls, ← h.count q type hq, sum_update_eq, hold, hnew,
      usecnt_addUsecnt d p (hplaces.hasNode.2 hq)]
    by_cases hqp : q = p
    · simp only [hqp, hout, true_or, if_true, if_false]
      omega
    · simp only [hqp, false_or, if_false]
      omega

theorem WalkInv.move (ht : TableInv t) (htree : TreeInv t) (h : WalkInv initial t es s)
    (hm : step initial s (.move i) = some s') : WalkInv initial t (es ++ [.move i]) s' := by
  have hplaces := h.only.places
  have hparent := hplaces.parent
  have hinv := h.pc i
  have hlock := fun n (hfree : s.lock n = none) => h.owns.lock hfree i
  have hunlock := fun n l => h.owns.unlock (i := i) (a := n) (l := l)
  simp only [step] at hm
  cases hpc : s.pc i with
  | idle =>
    rw [hpc] at hm
    cases hm
  | locking n d =>
    rw [hpc] at hm hlock
    obtain ⟨u, hu, rfl⟩ := Option.map_eq_some_iff.1 hm
    obtain ⟨hfree, rfl⟩ := mutexLock_eq_some.1 hu
    refine h.quiet ?_ ?_ fun q => ?_
    · rw [held_loop]
      exact hlock n hfree
    · cases hp : s.table.parent n with
      | none => trivial
      | some p => exact .single hp
    · rw [hpc, hparent, rest_loop ht htree]
      rfl
  | waiting n d p =>
    rw [hpc] at hm hlock hinv
    obtain ⟨u, hu, rfl⟩ := Option.map_eq_some_iff.1 hm
    obtain ⟨hfree, rfl⟩ := mutexLock_eq_some.1 hu
    refine h.quiet (hlock p hfree) hinv fun q => ?_
    rw [hpc]
    rfl
  | holding n d p =>
    rw [hpc] at hm hinv
    obtain rfl := Option.some.inj hm
    have howns : ∀ pc : Pc, pc.held = [p, n] →
        Owns s.lock (Function.update (fun j => (s.pc j).held) i pc.held) := by
      intro pc hheld
      rw [Function.update_eq_self_iff.2 (by rw [hheld, hpc]; rfl)]
      exact h.owns
    split_ifs with hkey
    · refine h.quiet (howns _ rfl) hinv fun q => ?_
      rw [hplaces.key] at hkey
      rw [hpc, Pc.rest, walkFrom, if_pos hkey, if_neg List.not_mem_nil]
      rfl
    · refine h.quiet (howns _ rfl) ⟨hinv, Nat.le_of_not_lt hkey, rfl⟩ fun q => ?_
      rw [hpc]
      rfl
  | loaded n d p v =>
    rw [hpc] at hm
    obtain rfl := Option.some.inj hm
    exact h.store htree hpc
  | stored n d p =>
    rw [hpc] at hm hinv hunlock
    obtain rfl := Option.some.inj hm
    have hne : p ≠ n := ne_of_below (htree.congr hplaces) hinv
    refine h.quiet ?_ ?_ fun q => ?_
    · rw [held_loop]
      exact hunlock p [n] rfl (by simpa using hne)
    · cases hp : s.table.parent p with
      | none => trivial
      | some p' => exact .tail hinv hp
    · rw [hpc, hparent, rest_loop ht htree]
      rfl
  | leaving n p =>
    rw [hpc] at hm hinv hunlock
    obtain rfl := Option.some.inj hm
    have hne : p ≠ n := ne_of_below (htree.congr hplaces) hinv
    refine h.quiet (hunlock p [n] rfl (by simpa using hne)) trivial fun q => ?_
    rw [hpc]
    rfl
  | unlocking n =>
    rw [hpc] at hm hunlock
    obtain rfl := Option.some.inj hm
    refine h.quiet (hunlock n [] rfl List.not_mem_nil) trivial fun q => ?_
    rw [hpc]
    rfl

theorem WalkInv.call {n : NodeRef} {isAdd : Bool} (h : WalkInv initial t es s)
    (hm : step initial s (.call i n isAdd) = some s') :
    WalkInv initial t (es ++ [.call i n isAdd]) s' := by
  simp only [step] at hm
  cases hpc : s.pc i with
  | idle =>
    rw [hpc] at hm
    obtain rfl := Option.some.inj hm
    refine ⟨h.only, owns_update ?_, fun j => ?_, fun q type hq => ?_⟩
    · rw [Function.update_eq_self_iff.2 (by rw [hpc]; rfl)]
      exact h.owns
    · by_cases hj : j = i
      · simp [State.goto, hj, Pc.Inv]
      · simpa [State.goto, hj] using h.pc j
    · have hcalls : calls (es ++ [Event.call i n isAdd]) = calls es ++ [(n, isAdd)] := by
        simp [calls]
      have hcount := h.count q type hq
      dsimp only [State.goto]
      have hidle : Pc.idle.rest initial t q = 0 := rfl
      have hnew : (Pc.locking n (delta isAdd)).rest initial t q = share initial t q (n, isAdd) := rfl
      rw [hcalls, sum_update_eq, hpc, hidle, hnew, List.map_append, List.sum_append, List.map_cons,
        List.map_nil, List.sum_singleton]
      omega
  | _ =>
    rw [hpc] at hm
    cases hm

theorem WalkInv.step {e : Event ι} (ht : TableInv t) (htree : TreeInv t)
    (h : WalkInv initial t es s) (hm : UsecntWalk.step initial s e = some s') :
    WalkInv initial t (es ++ [e]) s' := by
  cases e with
  | call i n isAdd => exact h.call hm
  | move i => exact h.move ht htree hm

theorem walkInv_of_exec (ht : TableInv t) (htree : TreeInv t)
    (hrun : exec (UsecntWalk.step initial) (State.start t) es = some s) :
    WalkInv initial t es s :=
  history_exec (I := WalkInv initial t) (fun _ _ _ _ hI he => hI.step ht htree he)
    (walkInv_start t) hrun

theorem onlyCounts_oneByOne (t : Table) (cs : List (NodeRef × Bool)) :
    OnlyCounts t (oneByOne initial t cs) := by
  suffices h : ∀ u, OnlyCounts t u → OnlyCounts t (oneByOne initial u cs) from h t (.refl t)
  induction cs with
  | nil => exact fun u hu => hu
  | cons c cs ih => exact fun u hu => ih _ (hu.foldl ..)

/-- The walks of the calls do not depend on the counts, so their order does not matter. -/
theorem usecnt_oneByOne (htree : TreeInv t) (cs : List (NodeRef × Bool)) (hq : HasNode t q type) :
    (oneByOne initial t cs).usecnt q = t.usecnt q + (cs.map (share initial t q)).sum := by
  suffices h : ∀ u, OnlyCounts t u →
      (oneByOne initial u cs).usecnt q = u.usecnt q + (cs.map (share initial t q)).sum from
    h t (.refl t)
  induction cs with
  | nil => simp [oneByOne]
  | cons c cs ih =>
    intro u hu
    have hplaces := hu.places
    have hpath : u.usecntPath initial c.1 = t.usecntPath initial c.1 := by
      rw [Table.usecntPath, Table.usecntPath, ancestors_eq, ancestors_eq, hplaces.parent,
        hplaces.key, hu.fresh]
    have hone : (u.fileNodeUsecntUpdate initial c.1 c.2).usecnt q =
        u.usecnt q + share initial t q c := by
      rw [Table.fileNodeUsecntUpdate, hpath,
        usecnt_foldl _ (htree.usecntPath_nodup initial c.1) (hplaces.hasNode.2 hq)]
      rfl
    have hrest := ih (u.fileNodeUsecntUpdate initial c.1 c.2) (hu.foldl ..)
    rw [oneByOne, List.foldl_cons, ← oneByOne, hrest, hone, List.map_cons, List.sum_cons, add_assoc]

variable {sh : Shared} {as : List Access}

/-- When no call is going on, the table is the one that the calls leave behind that are made one
after the other, whatever the interleaving was. -/
theorem walks_atomic (hsh : exec access Shared.init as = some sh)
    (hrun : exec (UsecntWalk.step initial) (State.start sh.table) es = some s)
    (hidle : ∀ i, s.pc i = .idle) :
    s.table = oneByOne initial sh.table (calls es) ∧ ∀ n, s.lock n = none := by
  have hinv := sharedInv_of_exec hsh
  have h := walkInv_of_exec hinv.table hinv.tree hrun
  constructor
  · refine h.only.ext (onlyCounts_oneByOne _ _) fun q type hq => ?_
    have hcount := h.count q type hq
    have hzero : ∑ i, (s.pc i).rest initial sh.table q = 0 :=
      Finset.sum_eq_zero fun i _ => by rw [hidle i]; rfl
    rw [usecnt_oneByOne hinv.tree _ hq, ← hcount, hzero, add_zero]
  · intro n
    refine Option.eq_none_iff_forall_ne_some.2 fun i hi => ?_
    have hmem := (h.owns n i).1 hi
    simp [hidle i, Pc.held] at hmem

/-- Steps left in the call at most: four for each directory up to `p`. -/
def Pc.toGo : Pc → ℕ
  | .idle => 0
  | .locking n _ => 4 * n + 3
  | .waiting _ _ p => 4 * p + 6
  | .holding _ _ p => 4 * p + 5
  | .loaded _ _ p _ => 4 * p + 4
  | .stored _ _ p => 4 * p + 3
  | .leaving .. => 2
  | .unlocking _ => 1

theorem toGo_loop (htree : TreeInv t) (n m : NodeRef) (d : ℤ) :
    (loop n d (t.parent m)).toGo ≤ 4 * m + 2 := by
  have hstep : ∀ {p m : ℕ}, p < m → 4 * p + 6 ≤ 4 * m + 2 := by omega
  cases hp : t.parent m with
  | none => exact Nat.le_add_left 1 (4 * m + 1)
  | some p => exact hstep (htree.parent_lt m p hp)

omit [Fintype ι] in
theorem move_toGo (htree : TreeInv s.table) (hm : step initial s (.move i) = some s') :
    ∃ pc, s'.pc = Function.update s.pc i pc ∧ pc.toGo < (s.pc i).toGo := by
  have hloop := fun n m (d : ℤ) => Nat.lt_succ_of_le (toGo_loop htree n m d)
  simp only [step] at hm
  cases hpc : s.pc i with
  | idle =>
    rw [hpc] at hm
    cases hm
  | locking n d =>
    rw [hpc] at hm
    obtain ⟨u, hu, rfl⟩ := Option.map_eq_some_iff.1 hm
    obtain ⟨-, rfl⟩ := mutexLock_eq_some.1 hu
    exact ⟨_, rfl, hloop n n d⟩
  | waiting n d p =>
    rw [hpc] at hm
    obtain ⟨u, hu, rfl⟩ := Option.map_eq_some_iff.1 hm
    obtain ⟨-, rfl⟩ := mutexLock_eq_some.1 hu
    exact ⟨_, rfl, Nat.lt_succ_self _⟩
  | holding n d p =>
    rw [hpc] at hm
    obtain rfl := Option.some.inj hm
    refine ⟨_, rfl, ?_⟩
    split_ifs
    · exact Nat.lt_of_lt_of_le (by decide : 2 < 5) (Nat.le_add_left 5 _)
    · exact Nat.lt_succ_self _
  | loaded n d p v =>
    rw [hpc] at hm
    obtain rfl := Option.some.inj hm
    exact ⟨_, rfl, Nat.lt_succ_self _⟩
  | stored n d p =>
    rw [hpc] at hm
    obtain rfl := Option.some.inj hm
    exact ⟨_, rfl, hloop n p d⟩
  | leaving n p =>
    rw [hpc] at hm
    obtain rfl := Option.some.inj hm
    exact ⟨_, rfl, Nat.lt_succ_self 1⟩
  | unlocking n =>
    rw [hpc] at hm
    obtain rfl := Option.some.inj hm
    exact ⟨_, rfl, Nat.one_pos⟩

theorem sum_toGo_lt (htree : TreeInv s.table) (hm : step initial s (.move i) = some s') :
    ∑ j, (s'.pc j).toGo < ∑ j, (s.pc j).toGo := by
  obtain ⟨pc, hpc, hlt⟩ := move_toGo htree hm
  have hsum := sum_update_add s.pc Pc.toGo i pc
  rw [hpc]
  omega

omit [Fintype ι] in
theorem move_of_not_blocked (hpc : s.pc i ≠ .idle)
    (hb : ¬Blocked s.lock (fun i => (s.pc i).wants) i) :
    ∃ s', step initial s (.move i) = some s' := by
  have hfree : ∀ n, (s.pc i).wants = some n → s.mutexLock i n =
      some { s with lock := Function.update s.lock n (some i) } := by
    intro n hn
    refine if_pos ?_
    by_contra hheld
    exact hb ⟨n, hn, hheld⟩
  simp only [step]
  cases hi : s.pc i with
  | idle => exact absurd hi hpc
  | locking n d => exact ⟨_, congrArg (Option.map _) (hfree n (by rw [hi]; rfl))⟩
  | waiting n d p => exact ⟨_, congrArg (Option.map _) (hfree p (by rw [hi]; rfl))⟩
  | _ => exact ⟨_, rfl⟩

omit [DecidableEq ι] in
/-- Who holds a lock wants the lock of a directory above. -/
theorem WalkInv.ordered (htree : TreeInv t) (h : WalkInv initial t es s) :
    Ordered s.lock (fun i => (s.pc i).wants) (· < ·) := by
  intro a i b ha hb
  have hmem := (h.owns a i).1 ha
  have hinv := h.pc i
  dsimp only at hb hmem
  cases hpc : s.pc i with
  | waiting n d p =>
    rw [hpc] at hb hmem hinv
    obtain rfl := Option.some.inj hb
    obtain rfl := List.mem_singleton.1 hmem
    exact lt_of_below (htree.congr h.only.places) hinv
  | idle | locking =>
    rw [hpc] at hmem
    cases hmem
  | holding | loaded | stored | leaving | unlocking =>
    rw [hpc] at hb
    cases hb

theorem WalkInv.no_deadlock (htree : TreeInv t) (h : WalkInv initial t es s)
    (hpc : s.pc i ≠ .idle) : ∃ j s', UsecntWalk.step initial s (.move j) = some s' := by
  obtain ⟨j, hj, hgo⟩ := exists_not_blocked wellFounded_lt (h.ordered htree) i
  have hbusy : s.pc j ≠ .idle := by
    rcases hj with rfl | ⟨b, hb⟩
    · exact hpc
    · intro hidle
      have hmem := (h.owns b j).1 hb
      simp [hidle, Pc.held] at hmem
  obtain ⟨s', hs'⟩ := move_of_not_blocked hbusy hgo
  exact ⟨j, s', hs'⟩

theorem length_le_sum_toGo (htree : TreeInv t) {is : List ι} {u : State ι}
    (h : WalkInv initial t es s) (ht : TableInv t)
    (hrun : exec (UsecntWalk.step initial) s (is.map .move) = some u) :
    is.length ≤ ∑ i, (s.pc i).toGo := by
  induction is generalizing s es with
  | nil => exact Nat.zero_le _
  | cons i is ih =>
    obtain ⟨v, hv, hrest⟩ := exec_cons_eq_some.1 hrun
    have hlt := sum_toGo_lt (htree.congr h.only.places) hv
    have hle := ih (h.move ht htree hv) hrest
    rw [List.length_cons]
    omega

/-- Without new calls every schedule comes to an end, and it only does when all calls have
returned. -/
theorem walks_finish (hsh : exec access Shared.init as = some sh)
    (hrun : exec (UsecntWalk.step initial) (State.start sh.table) es = some s) {is : List ι}
    {u : State ι} (hmoves : exec (UsecntWalk.step initial) s (is.map .move) = some u) :
    is.length ≤ ∑ i, (s.pc i).toGo ∧
      ((∀ i, UsecntWalk.step initial u (.move i) = none) → ∀ i, u.pc i = .idle) := by
  have hinv := sharedInv_of_exec hsh
  have h := walkInv_of_exec hinv.table hinv.tree hrun
  refine ⟨length_le_sum_toGo hinv.tree h hinv.table hmoves, fun hstuck i => ?_⟩
  have hend := walkInv_of_exec hinv.table hinv.tree (exec_trans hrun hmoves)
  by_contra hpc
  obtain ⟨j, u', hu'⟩ := hend.no_deadlock hinv.tree hpc
  rw [hstuck j] at hu'
  cases hu'

end Invariant

def sampleForest : List Access :=
  [.getIdleIndex .dir, .drawParent 0, .alloc sampleCreate.suffix, .insert .dir 0 true, .finish,
    .getIdleIndex .dir, .drawParent 1, .alloc sampleCreate.suffix, .finish, .insert .dir 0 true,
    .getIdleIndex .dir, .drawParent 1, .alloc sampleCreate.suffix, .finish]

def sampleCalls : List (Event (Fin 2)) := [.call 0 1 true, .call 1 2 true]

def sampleMoves : List (Fin 2) := [0, 1, 0, 0, 0, 0, 1, 1, 1, 0, 1, 1]

theorem walks_atomic_two : ∃ (sh : Shared) (s : State (Fin 2)),
    exec access Shared.init sampleForest = some sh ∧
      exec (step 1) (State.start sh.table) (sampleCalls ++ sampleMoves.map .move) = some s ∧
      s.table.usecnt 0 = 2 ∧ s.table = oneByOne 1 sh.table [(1, true), (2, true)] ∧
      ∀ n, s.lock n = none := by
  obtain ⟨sh, s, hsh, hs, hidle, hcount⟩ : ∃ (sh : Shared) (s : State (Fin 2)),
      exec access Shared.init sampleForest = some sh ∧
        exec (step 1) (State.start sh.table) (sampleCalls ++ sampleMoves.map .move) = some s ∧
        (∀ i, s.pc i = .idle) ∧ s.table.usecnt 0 = 2 :=
    ⟨_, _, rfl, rfl, by decide +kernel, by decide +kernel⟩
  exact ⟨sh, s, hsh, hs, hcount, walks_atomic hsh hs hidle⟩

theorem walks_finish_two : ∃ (sh : Shared) (s u : State (Fin 2)),
    exec access Shared.init sampleForest = some sh ∧
      exec (step 1) (State.start sh.table) sampleCalls = some s ∧
      exec (step 1) s (sampleMoves.map .move) = some u ∧
      sampleMoves.length ≤ ∑ i, (s.pc i).toGo ∧
      ((∀ i, step 1 u (.move i) = none) → ∀ i, u.pc i = .idle) := by
  obtain ⟨sh, s, u, hsh, hs, hu⟩ : ∃ (sh : Shared) (s u : State (Fin 2)),
      exec access Shared.init sampleForest = some sh ∧
        exec (step 1) (State.start sh.table) sampleCalls = some s ∧
        exec (step 1) s (sampleMoves.map .move) = some u := ⟨_, _, _, rfl, rfl, rfl⟩
  exact ⟨sh, s, u, hsh, hs, hu, walks_finish hsh hs hu⟩

end MyScripts.Shark.UsecntWalk
