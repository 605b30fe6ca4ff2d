import MyScripts.Shark.PoolConservation

/-!
# What becomes of the op lists that are not executed

`oper_malloc` can fail, `pool_oper_tolerate` can end a thread, and `pool_destroy` can be called in
any state, for the pool's own mask or for the errors of the other pool. Each op list is executed,
freed without that, or left where nothing refers to it any more.
-/
namespace MyScripts.Shark.WorkerPool
open Library.Run

variable {n : ℕ} {c : Config} {j : Journal} {i : Fin n}

/-- What nothing refers to any more: an op list for which there was no worker, or a group with the
op lists that were left of it. -/
inductive Lost
  | list (x : ListIndex)
  | group (groupsIndex : ℕ) (rest : List ListIndex)

def Lost.indices : Lost → List ListIndex
  | .list x => [x]
  | .group _ rest => rest

/-- `discarded` are the op lists that were freed with a worker that no thread has executed. -/
structure Ledger (n : ℕ) where
  pool : State n
  dropped : List Lost
  discarded : List ListIndex

/-- A thread steps; `noMemory` if `oper_malloc` fails in it, and `stop` if `pool_oper_tolerate`
answers -1. -/
inductive LedgerEvent (n : ℕ)
  | write
  | thread (i : Fin n) (noMemory stop : Bool)
  | destroy
  | join

namespace Ledger

def init (n : ℕ) : Ledger n := ⟨WorkerPool.init n, [], []⟩

def operThread (c : Config) (j : Journal) (s : Ledger n) (i : Fin n) (noMemory stop : Bool) :
    Option (Ledger n) :=
  match s.pool.thread i with
  | .adding site (x :: rest) =>
    if noMemory then
      some { s with
        pool := s.pool.goto i (.adding site rest)
        dropped := s.dropped ++ [.list x.1] }
    else if s.pool.destroy then
      some {
        pool := s.pool.goto i (.built site 0)
        dropped := s.dropped ++ [.group x.1.group (rest.map Prod.fst)]
        discarded := s.discarded ++ [x.1] }
    else some { s with pool := addWorker s.pool i site (x :: rest) }
  | .increase =>
    if stop then some { s with pool := s.pool.goto i .exited }
    else (WorkerPool.operThread c j s.pool i).map fun pool => { s with pool }
  | _ => (WorkerPool.operThread c j s.pool i).map fun pool => { s with pool }

def step (c : Config) (j : Journal) (s : Ledger n) (e : LedgerEvent n) : Option (Ledger n) :=
  if s.pool.joined then none
  else
    match e with
    | .write => (WorkerPool.step c j s.pool .write).map fun pool => { s with pool }
    | .thread i noMemory stop => s.operThread c j i noMemory stop
    | .destroy => some { s with pool := { s.pool with destroy := true } }
    | .join => (WorkerPool.step c j s.pool .join).map fun pool => {
        pool
        dropped := s.dropped ++
          (s.pool.group.map fun g => Lost.group g ((opLists g (j.getD g [])).map Prod.fst)).toList
        discarded := s.discarded ++ s.pool.queue.map Worker.index }

end Ledger

variable {s t : Ledger n} {noMemory stop : Bool} {x : ListIndex}

inductive Ledger.Move (c : Config) (j : Journal) (s : Ledger n) (i : Fin n) (noMemory : Bool) :
    Ledger n → Prop
  | move (pool) (h : ThreadMove c j s.pool i pool)
      (hd : s.pool.destroy = true → ∀ site rest, s.pool.thread i ≠ .adding site rest) :
      Move c j s i noMemory { s with pool }
  | finish (site) (h : s.pool.thread i = .adding site []) :
      Move c j s i noMemory { s with
        pool := { s.pool with building := false }.goto i (.built site 0) }
  | skip (site x rest) (h : s.pool.thread i = .adding site (x :: rest)) (hm : noMemory = true) :
      Move c j s i noMemory { s with
        pool := s.pool.goto i (.adding site rest)
        dropped := s.dropped ++ [.list x.1] }
  | leave (site x rest) (h : s.pool.thread i = .adding site (x :: rest))
      (hd : s.pool.destroy = true) :
      Move c j s i noMemory {
        pool := s.pool.goto i (.built site 0)
        dropped := s.dropped ++ [.group x.1.group (rest.map Prod.fst)]
        discarded := s.discarded ++ [x.1] }
  | stop (h : s.pool.thread i = .increase) :
      Move c j s i noMemory { s with pool := s.pool.goto i .exited }

theorem Ledger.operThread_cases (h : s.operThread c j i noMemory stop = some t) :
    Ledger.Move c j s i noMemory t := by
  have hplain : (∀ site rest, s.pool.thread i ≠ .adding site rest) →
      ((WorkerPool.operThread c j s.pool i).map fun pool => { s with pool }) = some t →
      Ledger.Move c j s i noMemory t := by
    intro hout h
    obtain ⟨pool, hpool, rfl⟩ := Option.map_eq_some_iff.1 h
    exact .move pool (WorkerPool.operThread_cases hpool) fun _ => hout
  unfold Ledger.operThread at h
  split at h
  · next site x rest hpc =>
    by_cases hm : noMemory = true
    · rw [if_pos hm, Option.some.injEq] at h
      subst h
      exact .skip site x rest hpc hm
    · rw [if_neg hm] at h
      by_cases hd : s.pool.destroy = true
      · rw [if_pos hd, Option.some.injEq] at h
        subst h
        exact .leave site x rest hpc hd
      · rw [if_neg hd, Option.some.injEq] at h
        subst h
        exact .move _ (addWorker_move hpc) fun hd' => absurd hd' hd
  · next hpc =>
    by_cases hs : stop = true
    · rw [if_pos hs, Option.some.injEq] at h
      subst h
      exact .stop hpc
    · rw [if_neg hs] at h
      refine hplain (fun site rest hadd => ?_) h
      rw [hpc] at hadd
      exact Pc.noConfusion hadd
  · next hadd _ =>
    cases hpc : s.pool.thread i with
    | adding site rest =>
      cases rest with
      | nil =>
        simp only [WorkerPool.operThread, hpc, addWorker, Option.map_some, Option.some.injEq] at h
        subst h
        exact .finish site hpc
      | cons x rest => exact absurd hpc (hadd site x rest)
    | _ =>
      refine hplain (fun site rest hadd => ?_) h
      rw [hpc] at hadd
      exact Pc.noConfusion hadd

theorem Inv.goto {s : State n} {pc : Pc} (h : Inv c j s) (hx : s.thread i ≠ .exited)
    (hpc : ∀ site rest, pc = .adding site rest → ∃ rest', s.thread i = .adding site rest') :
    Inv c j (s.goto i pc) := by
  have hadd : ∀ {k site rest}, (s.goto i pc).thread k = .adding site rest →
      ∃ rest', s.thread k = .adding site rest' := by
    intro k site rest hk
    by_cases hki : k = i
    · subst hki
      rw [State.goto_self] at hk
      exact hpc site rest hk
    · rw [State.goto_of_ne _ _ hki] at hk
      exact ⟨rest, hk⟩
  refine ⟨h.group, h.readIndex, h.written, h.size, fun k site rest hk => ?_,
    fun k l site site' rest rest' hk hl => ?_, fun hj => absurd ((h.joined hj).2 i) hx⟩
  · obtain ⟨rest', hk'⟩ := hadd hk
    exact h.building k site rest' hk'
  · obtain ⟨r, hk'⟩ := hadd hk
    obtain ⟨r', hl'⟩ := hadd hl
    exact h.unique k l site site' r r' hk' hl'

theorem Ledger.Move.inv (hm : Ledger.Move c j s i noMemory t) (h : Inv c j s.pool) :
    Inv c j t.pool := by
  cases hm with
  | move pool hm _ => exact h.threadMove hm
  | finish site hpc => exact h.threadMove (.finish site hpc)
  | skip site x rest hpc _ =>
    refine h.goto (by rw [hpc]; exact Pc.noConfusion) fun site' rest' hadd => ?_
    rw [Pc.adding.injEq] at hadd
    exact ⟨_, hadd.1 ▸ hpc⟩
  | leave site x rest hpc hd => exact h.threadMove (.drop site x rest hpc hd)
  | stop hpc =>
    exact h.goto (by rw [hpc]; exact Pc.noConfusion) fun _ _ hadd => Pc.noConfusion hadd

namespace Ledger

def gone (s : Ledger n) (x : ListIndex) : ℕ :=
  (s.dropped.flatMap Lost.indices).count x + s.discarded.count x

def unread (j : Journal) (s : State n) (x : ListIndex) : ℕ :=
  if s.readPos ≤ x.group then inGroup j x.group x else 0

def total (j : Journal) (s : Ledger n) (x : ListIndex) : ℕ :=
  s.gone x + if s.pool.joined then unread j s.pool x + s.pool.executed.count x else load j s.pool x

end Ledger

theorem Ledger.total_eq (hj : s.pool.joined = false) :
    s.total j x = s.gone x + load j s.pool x := by
  rw [Ledger.total, hj]
  rfl

theorem Ledger.gone_drop (pool : State n) (l : Lost) (ys : List ListIndex) :
    Ledger.gone ⟨pool, s.dropped ++ [l], s.discarded ++ ys⟩ x =
      s.gone x + l.indices.count x + ys.count x := by
  simp only [Ledger.gone, List.flatMap_append, List.flatMap_cons, List.flatMap_nil,
    List.append_nil, List.count_append]
  omega

theorem Ledger.Move.load_eq (hm : Ledger.Move c j s i noMemory t) (h : Inv c j s.pool)
    (x : ListIndex) : t.gone x + load j t.pool x = s.gone x + load j s.pool x := by
  cases hm with
  | move pool hm hd => exact congrArg (s.gone x + ·) (hm.load_eq h x hd)
  | finish site hpc =>
    have hload : load j ({ s.pool with building := false }.goto i (.built site 0)) x =
        load j s.pool x := load_goto rfl (by rw [hpc]; rfl)
    exact congrArg (s.gone x + ·) hload
  | skip site y rest hpc _ =>
    have hheld := held_goto s.pool i (.adding site rest) x
    have hgone := s.gone_drop (s.pool.goto i (.adding site rest)) (.list y.1) [] (x := x)
    have hstored : stored j (s.pool.goto i (.adding site rest)) x = stored j s.pool x := rfl
    rw [List.append_nil] at hgone
    rw [hpc] at hheld
    simp only [Pc.holds, List.countP_cons, decide_eq_true_eq] at hheld
    simp only [hgone, Lost.indices, List.count_singleton, List.count_nil, beq_iff_eq, load, hstored]
    omega
  | leave site y rest hpc _ =>
    have hheld := held_goto s.pool i (.built site 0) x
    have hgone := s.gone_drop (s.pool.goto i (.built site 0))
      (.group y.1.group (rest.map Prod.fst)) [y.1] (x := x)
    have hstored : stored j (s.pool.goto i (.built site 0)) x = stored j s.pool x := rfl
    have hcount : (rest.map Prod.fst).count x = rest.countP fun y => y.1 = x := by
      rw [List.count, List.countP_map]
      congr 1
    rw [hpc] at hheld
    simp only [Pc.holds, List.countP_cons, decide_eq_true_eq] at hheld
    simp only [hgone, Lost.indices, List.count_singleton, beq_iff_eq, load, hstored, hcount]
    omega
  | stop hpc =>
    have hload : load j (s.pool.goto i .exited) x = load j s.pool x :=
      load_goto rfl (by rw [hpc]; rfl)
    exact congrArg (s.gone x + ·) hload

theorem Ledger.Move.joined_eq (hm : Ledger.Move c j s i noMemory t) :
    t.pool.joined = s.pool.joined := by
  cases hm with
  | move pool hm _ => exact hm.frame.2.2
  | _ => rfl

structure Ledger.Balanced (c : Config) (j : Journal) (s : Ledger n) : Prop extends
    Inv c j s.pool where
  total : ∀ x, s.total j x = inGroup j x.group x

theorem Ledger.balanced_init : (Ledger.init n).Balanced c j where
  toInv := inv_init
  total x := by
    have hload : load j (WorkerPool.init n) x = inGroup j x.group x := sound_init (c := c).load x
    rw [Ledger.total_eq rfl]
    exact (Nat.zero_add _).trans hload

theorem Ledger.Balanced.step {e : LedgerEvent n} (h : s.Balanced c j)
    (hstep : s.step c j e = some t) : t.Balanced c j := by
  unfold Ledger.step at hstep
  rw [Option.ite_none_left_eq_some, Bool.not_eq_true] at hstep
  obtain ⟨hj, hstep⟩ := hstep
  cases e with
  | write =>
    simp only [WorkerPool.step, Option.map_eq_some_iff, Option.ite_none_right_eq_some,
      Option.some.injEq] at hstep
    obtain ⟨_, ⟨hlt, rfl⟩, rfl⟩ := hstep
    have hle := h.written.1
    refine ⟨⟨h.group, h.readIndex, ⟨?_, hlt⟩, h.size, h.building, h.unique, h.joined⟩, h.total⟩
    change s.pool.readPos ≤ s.pool.written + 1
    omega
  | thread i noMemory stop =>
    have hm := Ledger.operThread_cases hstep
    refine ⟨hm.inv h.toInv, fun x => ?_⟩
    rw [Ledger.total_eq (hm.joined_eq.trans hj), hm.load_eq h.toInv, ← Ledger.total_eq hj, h.total]
  | destroy =>
    cases hstep
    exact ⟨⟨h.group, h.readIndex, h.written, h.size, h.building, h.unique,
      fun hjoin => absurd (hj.symm.trans hjoin) Bool.false_ne_true⟩, h.total⟩
  | join =>
    simp only [WorkerPool.step, Option.map_eq_some_iff, Option.ite_none_right_eq_some,
      Option.some.injEq] at hstep
    obtain ⟨_, ⟨⟨hd, hx⟩, rfl⟩, rfl⟩ := hstep
    refine ⟨⟨h.group, h.readIndex, h.written, h.size, h.building, h.unique, fun _ => ⟨hd, hx⟩⟩,
      fun x => ?_⟩
    have htotal := h.total x
    have hheld : held s.pool x = 0 := Finset.sum_eq_zero fun i _ => by
      rw [hx i]
      rfl
    have hqueue : (s.pool.queue.map Worker.index).count x =
        s.pool.queue.countP fun w => w.index = x := by
      rw [List.count, List.countP_map]
      congr 1
    have hgroup : ((s.pool.group.map fun g =>
        Lost.group g ((opLists g (j.getD g [])).map Prod.fst)).toList.flatMap Lost.indices).count x =
          s.pool.group.elim 0 fun g => inGroup j g x := by
      cases s.pool.group with
      | none => rfl
      | some g =>
        simp only [Option.map_some, Option.toList_some, List.flatMap_cons, List.flatMap_nil,
          List.append_nil, Lost.indices, Option.elim, inGroup, List.count, List.countP_map]
        congr 1
    rw [Ledger.total_eq hj, load, hheld, Nat.add_zero] at htotal
    simp only [Ledger.total, Ledger.gone, if_true, List.flatMap_append, List.count_append, hqueue,
      hgroup, Ledger.unread]
    simp only [Ledger.gone, stored] at htotal
    omega

theorem Ledger.balanced_exec {es : List (LedgerEvent n)}
    (h : exec (Ledger.step c j) (Ledger.init n) es = some s) : s.Balanced c j :=
  invariant_exec (I := Ledger.Balanced c j) (fun _ _ _ hs ht => hs.step ht) Ledger.balanced_init h

/-- There is memory for the workers, no thread answers the end of the journal while a builder is
at work, and the pool is destroyed for its own mask. -/
def Ledger.Clean (c : Config) (s : Ledger n) : LedgerEvent n → Prop
  | .thread i noMemory _ => noMemory = false ∧ EndWhenBuilt c s.pool (.thread i)
  | .destroy => s.pool.mask = true
  | _ => True

instance (s : Ledger n) : ∀ e, Decidable (s.Clean c e)
  | .write | .join => .isTrue trivial
  | .thread _ _ _ => inferInstanceAs (Decidable (_ ∧ _))
  | .destroy => inferInstanceAs (Decidable (_ = _))

structure Ledger.Whole (c : Config) (j : Journal) (s : Ledger n) : Prop extends
    Sound c j s.pool where
  dropped : s.dropped = []
  discarded : s.discarded = []

theorem Sound.exit {s : State n} (h : Sound c j s) (hpc : s.thread i = .increase) :
    Sound c j (s.goto i .exited) := by
  refine ⟨h.goto (by rw [hpc]; exact Pc.noConfusion) fun _ _ hadd => Pc.noConfusion hadd,
    fun ht => ?_, h.destroy, fun x => ?_⟩
  · have hdrained : Drained j s := by
      refine h.told (ht.imp_right ?_)
      rintro ⟨k, site, hk⟩
      by_cases hki : k = i
      · subst hki
        rw [State.goto_self] at hk
        exact Pc.noConfusion hk
      · rw [State.goto_of_ne _ _ hki] at hk
        exact ⟨k, site, hk⟩
    exact ⟨hdrained.readPos, hdrained.group, hdrained.queue, hdrained.building⟩
  · rw [← h.load x]
    exact load_goto rfl (by rw [hpc]; rfl)

theorem Ledger.Whole.move (h : s.Whole c j) (hj : j.length ≤ c.groupsIndex)
    (hg : EndWhenBuilt c s.pool (.thread i)) (hm : Ledger.Move c j s i false t) : t.Whole c j := by
  cases hm with
  | move pool hm _ => exact ⟨h.toSound.threadMove hj hg hm, h.dropped, h.discarded⟩
  | finish site hpc => exact ⟨h.toSound.threadMove hj hg (.finish site hpc), h.dropped, h.discarded⟩
  | skip site x rest hpc hm => exact Bool.noConfusion hm
  | leave site x rest hpc hd =>
    have hbuilding := h.building i site (x :: rest) hpc
    rw [(h.told (Or.inl (h.destroy hd))).building] at hbuilding
    exact Bool.noConfusion hbuilding
  | stop hpc => exact ⟨h.toSound.exit hpc, h.dropped, h.discarded⟩

theorem Ledger.Whole.step {e : LedgerEvent n} (h : s.Whole c j) (hj : j.length ≤ c.groupsIndex)
    (hg : s.Clean c e) (hstep : s.step c j e = some t) : t.Whole c j := by
  unfold Ledger.step at hstep
  rw [Option.ite_none_left_eq_some] at hstep
  obtain ⟨-, hstep⟩ := hstep
  cases e with
  | write =>
    obtain ⟨pool, hpool, rfl⟩ := Option.map_eq_some_iff.1 hstep
    exact ⟨h.toSound.step (e := .write) hj trivial hpool, h.dropped, h.discarded⟩
  | thread i noMemory stop =>
    obtain ⟨rfl, hg⟩ := hg
    exact h.move hj hg (Ledger.operThread_cases hstep)
  | destroy =>
    cases hstep
    have hpool : WorkerPool.step c j s.pool .destroy = some { s.pool with destroy := true } :=
      if_pos hg
    exact ⟨h.toSound.step (e := .destroy) hj trivial hpool, h.dropped, h.discarded⟩
  | join =>
    obtain ⟨pool, hpool, rfl⟩ := Option.map_eq_some_iff.1 hstep
    have hsound := h.toSound.step (e := .join) hj trivial hpool
    simp only [WorkerPool.step, Option.ite_none_right_eq_some, Option.some.injEq] at hpool
    obtain ⟨⟨hd, -⟩, rfl⟩ := hpool
    have hdrained := h.told (Or.inl (h.destroy hd))
    refine ⟨hsound, ?_, ?_⟩
    · simp [h.dropped, hdrained.group]
    · simp [h.discarded, hdrained.queue]

theorem Ledger.whole_exec {es : List (LedgerEvent n)} (hj : j.length ≤ c.groupsIndex)
    (hg : Guarded (Ledger.step c j) (Ledger.Clean c) (Ledger.init n) es)
    (h : exec (Ledger.step c j) (Ledger.init n) es = some s) : s.Whole c j :=
  invariant_guarded (I := Ledger.Whole c j) (fun _ _ _ hs hg ht => hs.step hj hg ht)
    ⟨sound_init, rfl, rfl⟩ hg h

end MyScripts.Shark.WorkerPool
