import MyScripts.Shark.WorkerPool
import MyScripts.Library.ThreadSum
import Mathlib.Data.List.GetD

/-!
# No op list lost by a pool

Every op list of the journal is in one place: unread, in the group just read,
in a builder's hands, queued, held by a thread, or executed. The end of the
journal is answered with the queue empty; if no builder is at work then, the
pool stays drained and the destroy finds nothing to drop.
-/
namespace MyScripts.Shark.WorkerPool
open Library.Run Library.ThreadSum

variable {n : ℕ} {c : Config} {j : Journal} {s t : State n} {i : Fin n} {e : Event n}

namespace State

@[simp] theorem goto_self (s : State n) (i : Fin n) (pc : Pc) : (s.goto i pc).thread i = pc :=
  Function.update_self ..

theorem goto_of_ne (s : State n) {i k : Fin n} (pc : Pc) (h : k ≠ i) :
    (s.goto i pc).thread k = s.thread k :=
  Function.update_of_ne h ..

end State

def Pc.holds (x : ListIndex) : Pc → ℕ
  | .adding _ rest => rest.countP fun y => y.1 = x
  | .perform w => if w.index = x then 1 else 0
  | _ => 0

def held (s : State n) (x : ListIndex) : ℕ := ∑ i, (s.thread i).holds x

theorem held_goto (s : State n) (i : Fin n) (pc : Pc) (x : ListIndex) :
    held (s.goto i pc) x + (s.thread i).holds x = held s x + pc.holds x :=
  sum_update_add s.thread (Pc.holds x) i pc

def inGroup (j : Journal) (g : ℕ) (x : ListIndex) : ℕ :=
  (opLists g (j.getD g [])).countP fun y => y.1 = x

def stored (j : Journal) (s : State n) (x : ListIndex) : ℕ :=
  (if s.readPos ≤ x.group then inGroup j x.group x else 0) +
    (s.group.elim 0 fun g => inGroup j g x) +
    s.queue.countP (fun w => w.index = x) + s.executed.count x

def load (j : Journal) (s : State n) (x : ListIndex) : ℕ := stored j s x + held s x

theorem opLists_fst (g : ℕ) (kinds : List Kind) :
    (opLists g kinds).map Prod.fst = (List.range kinds.length).map (ListIndex.mk g) := by
  simp only [opLists, List.map_map, List.range_eq_range']
  rw [← List.zipIdx_map_snd 0 kinds, List.map_map]
  rfl

theorem inGroup_eq (j : Journal) (g : ℕ) (x : ListIndex) :
    inGroup j g x = if x.group = g ∧ x.opList < (j.getD g []).length then 1 else 0 := by
  have hcount : inGroup j g x =
      ((List.range (j.getD g []).length).map (ListIndex.mk g)).count x := by
    rw [← opLists_fst, List.count, List.countP_map, inGroup]
    congr 1
  have hinj : Function.Injective (ListIndex.mk g) := fun a b h => congrArg ListIndex.opList h
  rw [hcount]
  split_ifs with h
  · obtain ⟨hg, hl⟩ := h
    refine List.count_eq_one_of_mem (List.nodup_range.map hinj) ?_
    exact List.mem_map.2 ⟨x.opList, List.mem_range.2 hl, by rw [← hg]⟩
  · refine List.count_eq_zero_of_not_mem fun hx => h ?_
    obtain ⟨l, hl, rfl⟩ := List.mem_map.1 hx
    exact ⟨rfl, List.mem_range.1 hl⟩

theorem inGroup_of_ne {g : ℕ} {x : ListIndex} (h : x.group ≠ g) : inGroup j g x = 0 := by
  rw [inGroup_eq, if_neg fun hx => h hx.1]

structure Inv (c : Config) (j : Journal) (s : State n) : Prop where
  group : s.groupRead = true ↔ s.group = none
  readIndex : s.readIndex = s.readPos
  written : s.readPos ≤ s.written ∧ s.written ≤ j.length
  size : s.workerSize = s.queue.length
  building : ∀ i site rest, s.thread i = .adding site rest → s.building = true
  unique : ∀ i k site site' rest rest', s.thread i = .adding site rest →
    s.thread k = .adding site' rest' → i = k
  joined : s.joined = true → s.destroy = true ∧ ∀ i, s.thread i = .exited

theorem inv_init : Inv c j (init n) where
  group := ⟨fun _ => rfl, fun _ => rfl⟩
  readIndex := rfl
  written := ⟨Nat.le_refl 0, Nat.zero_le _⟩
  size := rfl
  building _ _ _ h := Pc.noConfusion h
  unique _ _ _ _ _ _ h := Pc.noConfusion h
  joined h := Bool.noConfusion h

theorem load_goto {u : State n} {pc : Pc} {x : ListIndex} (hu : u.thread = s.thread)
    (h : stored j u x + pc.holds x = stored j s x + (s.thread i).holds x) :
    load j (u.goto i pc) x = load j s x := by
  have hheld := held_goto u i pc x
  have hs : held u x = held s x := by rw [held, held, hu]
  have hgoto : stored j (u.goto i pc) x = stored j u x := rfl
  rw [hu, hs] at hheld
  rw [load, load, hgoto]
  omega

theorem ThreadMove.load_eq (hm : ThreadMove c j s i t) (hi : Inv c j s) (x : ListIndex)
    (hd : s.destroy = true → ∀ site rest, s.thread i ≠ .adding site rest) :
    load j t x = load j s x := by
  have hplain : ∀ {pc : Pc}, pc.holds x = (s.thread i).holds x →
      load j (s.goto i pc) x = load j s x := fun h => load_goto rfl (by rw [h])
  have hask : s.thread i = .fetch ∨ s.thread i = .waiting → (s.thread i).holds x = 0 := by
    rintro (h | h) <;> rw [h] <;> rfl
  cases hm with
  | leave h _ => exact hplain (hask h).symm
  | take w queue h hq =>
    refine load_goto rfl ?_
    rw [hask h]
    simp only [stored, hq, List.countP_cons, Pc.holds, decide_eq_true_eq]
    omega
  | ask h => exact hplain (hask h).symm
  | read site h hr hw =>
    refine load_goto rfl ?_
    have hg := hi.group.1 hr
    rw [h]
    simp only [stored, hg, Pc.holds, Option.elim]
    by_cases hx : x.group = s.readPos
    · rw [hx, if_neg (by omega), if_pos (Nat.le_refl _)]
      omega
    · rw [inGroup_of_ne hx]
      by_cases hlt : s.readPos ≤ x.group
      · rw [if_pos hlt, if_pos (by omega)]
      · rw [if_neg hlt, if_neg (by omega)]
  | ended site h hr _ _ =>
    refine load_goto rfl ?_
    simp only [stored, hi.group.1 hr, h, Pc.holds]
  | notYet site h hr =>
    refine load_goto rfl ?_
    simp only [stored, hi.group.1 hr, h, Pc.holds]
  | noGroup site ret h _ _ => exact hplain (by rw [h]; rfl)
  | busy site h => exact hplain (by rw [h]; rfl)
  | start site g h hg _ =>
    refine load_goto rfl ?_
    simp only [stored, hg, h, Pc.holds, Option.elim, inGroup]
    omega
  | finish site h => exact load_goto rfl (by rw [h]; rfl)
  | drop site y rest h hdest => exact absurd h (hd hdest site (y :: rest))
  | add site y fn rest h =>
    refine load_goto rfl ?_
    rw [h]
    simp only [stored, Pc.holds, List.countP_append, List.countP_cons, List.countP_nil]
    omega
  | tell site pc h hpc =>
    refine load_goto rfl ?_
    rw [h]
    rcases hpc with rfl | rfl <;> rfl
  | back site ret pc h hpc =>
    refine hplain ?_
    rw [h]
    rcases hpc with rfl | rfl <;> rfl
  | perform w h =>
    refine load_goto rfl ?_
    rw [h]
    simp only [stored, Pc.holds, List.count_append, List.count_singleton, beq_iff_eq]
    omega
  | increase pc h hpc =>
    refine hplain ?_
    rw [h]
    rcases hpc with rfl | rfl <;> rfl

theorem ThreadMove.thread_of_ne (hm : ThreadMove c j s i t) {k : Fin n} (hk : k ≠ i) :
    t.thread k = s.thread k := by
  cases hm <;> exact State.goto_of_ne _ _ hk

theorem ThreadMove.not_exited (hm : ThreadMove c j s i t) : s.thread i ≠ .exited := by
  intro hx
  cases hm <;> simp_all

theorem ThreadMove.frame (hm : ThreadMove c j s i t) :
    t.written = s.written ∧ t.destroy = s.destroy ∧ t.joined = s.joined := by
  cases hm <;> exact ⟨rfl, rfl, rfl⟩

theorem ThreadMove.adding_of (hm : ThreadMove c j s i t) {k : Fin n} {site : Site}
    {rest : List (ListIndex × Kind)} (h : t.thread k = .adding site rest) :
    (∃ rest', s.thread k = .adding site rest') ∨
      k = i ∧ s.building = false ∧ t.building = true := by
  by_cases hk : k = i
  · subst hk
    cases hm with
    | start site' g _ _ hb => exact Or.inr ⟨rfl, hb, rfl⟩
    | add site' x fn rest' hadd =>
      rw [State.goto_self, Pc.adding.injEq] at h
      exact Or.inl ⟨_, h.1 ▸ hadd⟩
    | tell site' pc _ hpc =>
      rw [State.goto_self] at h
      rcases hpc with rfl | rfl <;> exact Pc.noConfusion h
    | back site' ret pc _ hpc =>
      rw [State.goto_self] at h
      rcases hpc with rfl | rfl <;> exact Pc.noConfusion h
    | increase pc _ hpc =>
      rw [State.goto_self] at h
      rcases hpc with rfl | rfl <;> exact Pc.noConfusion h
    | _ => rw [State.goto_self] at h; exact Pc.noConfusion h
  · rw [hm.thread_of_ne hk] at h
    exact Or.inl ⟨rest, h⟩

theorem ThreadMove.building_of (hm : ThreadMove c j s i t) (hb : s.building = true) :
    t.building = true ∨ (∃ site rest, s.thread i = .adding site rest) ∧
      ∀ site rest, t.thread i ≠ .adding site rest := by
  cases hm with
  | finish site h =>
    refine Or.inr ⟨⟨site, [], h⟩, fun site' rest' h' => ?_⟩
    rw [State.goto_self] at h'
    exact Pc.noConfusion h'
  | start site g _ _ _ => exact Or.inl rfl
  | _ => exact Or.inl hb

theorem Inv.threadMove (hi : Inv c j s) (hm : ThreadMove c j s i t) : Inv c j t := by
  obtain ⟨hw, _, hj⟩ := hm.frame
  refine ⟨?_, ?_, ?_, ?_, fun k site rest hk => ?_, fun k l site site' rest rest' hk hl => ?_,
    fun ht => absurd ((hi.joined (hj.symm.trans ht)).2 i) hm.not_exited⟩
  · cases hm with
    | read site _ _ _ => exact ⟨fun h => Bool.noConfusion h, fun h => absurd h (Option.some_ne_none _)⟩
    | ended site _ hr _ _ => exact ⟨fun _ => rfl, fun _ => hr⟩
    | notYet site _ hr => exact ⟨fun _ => rfl, fun _ => hr⟩
    | start site g _ _ _ => exact ⟨fun _ => rfl, fun _ => rfl⟩
    | _ => exact hi.group
  · cases hm with
    | read site _ _ _ => exact congrArg (· + 1) hi.readIndex
    | _ => exact hi.readIndex
  · rw [hw]
    refine ⟨?_, hi.written.2⟩
    cases hm with
    | read site _ _ hlt => exact hlt
    | _ => exact hi.written.1
  · cases hm with
    | take w queue _ hq =>
      have hs := hi.size
      rw [hq, List.length_cons] at hs
      exact congrArg (· - 1) hs
    | add site x fn rest _ =>
      change s.workerSize + 1 = (s.queue ++ [Worker.mk x.1 fn]).length
      rw [List.length_append, hi.size, List.length_singleton]
    | _ => exact hi.size
  · rcases hm.adding_of hk with ⟨rest', hs⟩ | ⟨_, _, hb⟩
    · rcases hm.building_of (hi.building k site rest' hs) with hb | ⟨⟨site', r, hi'⟩, hnot⟩
      · exact hb
      · have hki := hi.unique k i site site' rest' r hs hi'
        subst hki
        exact absurd hk (hnot site rest)
    · exact hb
  · rcases hm.adding_of hk with ⟨r, hs⟩ | ⟨rfl, hb, _⟩
    · rcases hm.adding_of hl with ⟨r', hs'⟩ | ⟨_, hb, _⟩
      · exact hi.unique k l site site' r r' hs hs'
      · exact absurd ((hi.building k site r hs).symm.trans hb) (by decide)
    · rcases hm.adding_of hl with ⟨r', hs'⟩ | ⟨rfl, _, _⟩
      · exact absurd ((hi.building l site' r' hs').symm.trans hb) (by decide)
      · rfl

structure Drained (j : Journal) (s : State n) : Prop where
  readPos : s.readPos = j.length
  group : s.group = none
  queue : s.queue = []
  building : s.building = false

theorem Drained.threadMove (hd : Drained j s) (hi : Inv c j s) (hm : ThreadMove c j s i t) :
    Drained j t := by
  cases hm with
  | take w queue _ hq => exact absurd (hd.queue.symm.trans hq) (by simp)
  | read site _ _ hlt =>
    have hw := hi.written.2
    have hp := hd.readPos
    omega
  | ended site _ _ _ _ => exact ⟨hd.readPos, rfl, hd.queue, hd.building⟩
  | notYet site _ _ => exact ⟨hd.readPos, rfl, hd.queue, hd.building⟩
  | start site g _ hg _ => exact absurd (hd.group.symm.trans hg) (by simp)
  | finish site h => exact ⟨hd.readPos, hd.group, hd.queue, rfl⟩
  | add site x fn rest h =>
    exact absurd ((hi.building i site (x :: rest) h).symm.trans hd.building) (by decide)
  | _ => exact ⟨hd.readPos, hd.group, hd.queue, hd.building⟩

/-- A thread that answers the end of the journal does so with no builder at work. -/
def EndWhenBuilt (c : Config) (s : State n) : Event n → Prop
  | .thread i => (∃ site, s.thread i = .build site) → s.groupRead = true →
      ¬s.readPos < s.written → atEnd c s → s.building = false
  | _ => True

def Pc.isBuild : Pc → Bool
  | .build _ => true
  | _ => false

theorem Pc.isBuild_iff (pc : Pc) : pc.isBuild = true ↔ ∃ site, pc = .build site := by
  cases pc <;> simp [isBuild]

instance (s : State n) : ∀ e, Decidable (EndWhenBuilt c s e)
  | .thread i =>
    haveI : Decidable (∃ site, s.thread i = .build site) := decidable_of_iff _ (Pc.isBuild_iff _)
    inferInstanceAs (Decidable (_ → _ → _ → _ → _))
  | .write | .destroy | .join => .isTrue trivial

/-- The invariant of the guarded runs: the answer 1 means a drained pool. -/
structure Sound (c : Config) (j : Journal) (s : State n) : Prop extends Inv c j s where
  told : s.mask = true ∨ (∃ i site, s.thread i = .built site 1) → Drained j s
  destroy : s.destroy = true → s.mask = true
  load : ∀ x, load j s x = inGroup j x.group x

theorem ThreadMove.told_of (hm : ThreadMove c j s i t) (hi : Inv c j s)
    (hj : j.length ≤ c.groupsIndex) (hg : EndWhenBuilt c s (.thread i))
    (h : t.mask = true ∨ ∃ i site, t.thread i = .built site 1) :
    (s.mask = true ∨ ∃ i site, s.thread i = .built site 1) ∨ Drained j t := by
  have hkeep : ∀ {k site}, k ≠ i → t.thread k = .built site 1 →
      ∃ k site, s.thread k = .built site 1 := fun hk ht =>
    ⟨_, _, (hm.thread_of_ne hk).symm.trans ht⟩
  cases hm with
  | ended site hb hr hw he =>
    right
    have hend := hi.readIndex
    have hle := hi.written
    have hge : s.readIndex ≥ c.groupsIndex := he.1
    refine ⟨?_, rfl, ?_, hg ⟨site, hb⟩ hr hw he⟩
    · change s.readPos = j.length
      omega
    · exact List.eq_nil_of_length_eq_zero (hi.size.symm.trans he.2)
  | noGroup site ret _ hr hnone => exact absurd (hi.group.2 hnone) (hr ▸ Bool.false_ne_true)
  | tell site pc hb _ => exact Or.inl (Or.inr ⟨i, site, hb⟩)
  | _ =>
    left
    rcases h with h | ⟨k, site', hk⟩
    · exact Or.inl h
    · right
      by_cases hki : k = i
      · subst hki
        rw [State.goto_self] at hk
        simp_all
      · exact hkeep hki hk

theorem Sound.threadMove (hs : Sound c j s) (hj : j.length ≤ c.groupsIndex)
    (hg : EndWhenBuilt c s (.thread i)) (hm : ThreadMove c j s i t) : Sound c j t := by
  refine ⟨hs.toInv.threadMove hm, fun ht => ?_, fun hd => ?_, fun x => ?_⟩
  · rcases hm.told_of hs.toInv hj hg ht with h | h
    · exact (hs.told h).threadMove hs.toInv hm
    · exact h
  · have hmask := hs.destroy (hm.frame.2.1.symm.trans hd)
    cases hm with
    | tell site pc _ _ => rfl
    | _ => exact hmask
  · rw [hm.load_eq hs.toInv x fun hd site rest hadd => ?_, hs.load x]
    have hb := hs.building i site rest hadd
    rw [(hs.told (Or.inl (hs.destroy hd))).building] at hb
    exact Bool.noConfusion hb

theorem sound_init : Sound c j (init n) where
  toInv := inv_init
  told h := by
    rcases h with h | ⟨i, site, h⟩
    · exact Bool.noConfusion h
    · exact Pc.noConfusion h
  destroy h := Bool.noConfusion h
  load x := by
    have hheld : held (init n) x = 0 := Finset.sum_eq_zero fun _ _ => rfl
    have hstored : stored j (init n) x = inGroup j x.group x := by
      simp [stored, init]
    rw [WorkerPool.load, hheld, hstored, Nat.add_zero]

theorem Sound.step (hs : Sound c j s) (hj : j.length ≤ c.groupsIndex) (hg : EndWhenBuilt c s e)
    (h : step c j s e = some t) : Sound c j t := by
  cases e with
  | write =>
    simp only [WorkerPool.step, Option.ite_none_right_eq_some, Option.some.injEq] at h
    obtain ⟨hlt, rfl⟩ := h
    have hw := hs.written
    refine ⟨⟨hs.group, hs.readIndex, ⟨?_, hlt⟩, hs.size, hs.building, hs.unique, hs.joined⟩,
      fun ht => ?_, hs.destroy, hs.load⟩
    · change s.readPos ≤ s.written + 1
      omega
    · obtain ⟨h₁, h₂, h₃, h₄⟩ := hs.told ht
      exact ⟨h₁, h₂, h₃, h₄⟩
  | thread i => exact hs.threadMove hj hg (operThread_cases h)
  | destroy =>
    simp only [WorkerPool.step, Option.ite_none_right_eq_some, Option.some.injEq] at h
    obtain ⟨hm, rfl⟩ := h
    obtain ⟨h₁, h₂, h₃, h₄⟩ := hs.told (Or.inl hm)
    exact ⟨⟨hs.group, hs.readIndex, hs.written, hs.size, hs.building, hs.unique,
      fun hjoin => ⟨rfl, (hs.joined hjoin).2⟩⟩, fun _ => ⟨h₁, h₂, h₃, h₄⟩, fun _ => hm, hs.load⟩
  | join =>
    simp only [WorkerPool.step, Option.ite_none_right_eq_some, Option.some.injEq] at h
    obtain ⟨⟨hd, hx⟩, rfl⟩ := h
    obtain ⟨h₁, h₂, h₃, h₄⟩ := hs.told (Or.inl (hs.destroy hd))
    exact ⟨⟨hs.group, hs.readIndex, hs.written, hs.size, hs.building, hs.unique,
      fun _ => ⟨hd, hx⟩⟩,
      fun _ => ⟨h₁, h₂, h₃, h₄⟩, hs.destroy, hs.load⟩

theorem Sound.executed_eq (hs : Sound c j s) (hj : s.joined = true) (x : ListIndex) :
    s.executed.count x = inGroup j x.group x := by
  obtain ⟨hd, hx⟩ := hs.joined hj
  have hdrained := hs.told (Or.inl (hs.destroy hd))
  have hheld : held s x = 0 := Finset.sum_eq_zero fun i _ => by
    rw [hx i]
    rfl
  have hload := hs.load x
  rw [WorkerPool.load, stored, hheld, hdrained.group, hdrained.queue, hdrained.readPos] at hload
  have hnone : (if j.length ≤ x.group then inGroup j x.group x else 0) = 0 := by
    split_ifs with hlt
    · rw [inGroup_eq, if_neg]
      rintro ⟨_, hl⟩
      rw [List.getD_eq_default _ _ hlt] at hl
      exact Nat.not_lt_zero _ hl
    · rfl
  simp only [hnone, Option.elim, List.countP_nil] at hload
  omega

def AllExecuted (c : Config) (j : Journal) (s : State n) : Prop :=
  s.joined = true → ∀ g < c.groupsIndex, ∀ l < (j.getD g []).length,
    s.executed.count ⟨g, l⟩ = 1

theorem Sound.allExecuted (hs : Sound c j s) : AllExecuted c j s := by
  intro hj g _ l hl
  rw [hs.executed_eq hj, inGroup_eq, if_pos ⟨rfl, hl⟩]

/-- With a total that is a multiple of the group size, a pool that never
answers the end of the journal while a builder is at work has executed every op
list exactly once when its threads are joined. -/
theorem allExecuted_of_endWhenBuilt (n : ℕ) (c : Config) (j : Journal) (es : List (Event n))
    (s : State n) (hw : 0 < c.wait) (hd : c.wait ∣ c.total)
    (hj : j.map List.length = groupRoutine c.wait (c.total + 1) c.total)
    (h : exec (step c j) (init n) es = some s)
    (hg : Guarded (step c j) (EndWhenBuilt c) (init n) es) : AllExecuted c j s := by
  have hlen : j.length = c.groupsIndex := by
    obtain ⟨k, hk⟩ := hd
    have hle : k < c.total + 1 := by
      rw [hk]
      exact Nat.lt_succ_of_le (Nat.le_mul_of_pos_left k hw)
    have hgroups := groupRoutine_eq hw k (c.total + 1) hle
    rw [Nat.mul_comm, ← hk, ← hj] at hgroups
    have hmap := congrArg List.length hgroups
    rw [List.length_map, List.length_replicate] at hmap
    rw [hmap, Config.groupsIndex, hk, Nat.mul_div_cancel_left k hw]
  have hs : Sound c j s := invariant_guarded (I := Sound c j)
    (fun _ _ _ hs hf ht => hs.step hlen.le hf ht) sound_init hg h
  exact hs.allExecuted

def single : Journal := [[.file false]]

def twoGroups : Journal := [[.file false, .symlink], [.dir true, .file true]]

def sharedRun (i j : Fin 2) : List (Event 2) :=
  .write :: ([i, i, i, i, i].map .thread) ++ .write ::
    ([j, j, i, i, i, j, j, i, i, i, i, j, j, i, i, i, i, j, j, j, i, i, j, i, j, j, i, i, j, j, j, j,
      i, i, i, i].map .thread) ++ [.destroy, .join]

theorem allExecuted_of_endWhenBuilt_twoGroups :
    ∃ s, exec (step ⟨4, 2⟩ twoGroups) (init 2) (sharedRun 0 1) = some s ∧ s.joined = true ∧
      AllExecuted ⟨4, 2⟩ twoGroups s := by
  obtain ⟨s, hs, hj⟩ : ∃ s, exec (step ⟨4, 2⟩ twoGroups) (init 2) (sharedRun 0 1) = some s ∧
      s.joined = true := by
    refine (Option.any_eq_true (fun s : State 2 => s.joined) _).1 ?_
    decide +kernel
  exact ⟨s, hs, hj, allExecuted_of_endWhenBuilt 2 ⟨4, 2⟩ twoGroups (sharedRun 0 1) s (by decide)
    (by decide) (by decide) hs (by decide +kernel)⟩

/-- Thread 0 has the group's lists in hand when thread 1 finds the queue empty
and the journal at its end; the manager's destroy makes thread 0 drop them. -/
theorem allExecuted_false_twoThreads :
    single.map List.length = groupRoutine 1 2 1 ∧ ∃ s, exec (step ⟨1, 1⟩ single) (init 2)
      [.write, .thread 0, .thread 0, .thread 0, .thread 0, .thread 0, .thread 1, .thread 1,
      .thread 1, .destroy, .thread 0, .thread 0, .thread 0, .join] = some s ∧ s.executed = [] ∧
    ¬AllExecuted ⟨1, 1⟩ single s := by
  refine ⟨by decide, _, rfl, rfl, fun h => ?_⟩
  exact absurd (h rfl 0 (by decide) 0 (by decide)) (by decide)

end MyScripts.Shark.WorkerPool
