import MyScripts.Shark.Manager

/-!
# The two pools at every program point of the manager

Each pool is alive, being joined, or over, and the main thread's program point
says which. The invariant is kept by every step except one: the cluster
pool's error limit, written to the disk pool's mask after that pool is gone.
-/
namespace MyScripts.Shark.Manager
open Library.Run

structure Alive (s : State) (p : Pool) : Prop where
  mask : s.mask p ≠ .destroyed
  destroys : s.destroys p = 0
  joined : s.joined p = false

structure Joining (s : State) (p : Pool) : Prop where
  mask : s.mask p ≠ .destroyed
  destroys : s.destroys p = 1
  joined : s.joined p = false

structure Over (s : State) (p : Pool) : Prop where
  destroys : s.destroys p = 1
  joined : s.joined p = true

structure Gone (s : State) (p : Pool) : Prop extends Over s p where
  mask : s.mask p = .destroyed

def OneAlive (s : State) : Prop := ∃ p, Alive s p ∧ (Alive s p.other ∨ Gone s p.other)

def PcInv (s : State) : Pc → Prop
  | .sleeping | .loop .survive _ | .loop .willContinue _ => OneAlive s
  | .loop .destroy _ => OneAlive s ∧ ∃ p, s.mask p ≠ .running
  | .loop .willDestroy _ => (∀ p, Alive s p) ∧ ∃ p, s.mask p ≠ .running
  | .loop .haveDestroy _ => ∃ p, Alive s p ∧ Gone s p.other
  | .loop .noticeOther which => Alive s (noticed which) ∧ Gone s (noticed which).other
  | .loop .allDestroy _ | .returned _ => ∀ p, Over s p
  | .destroying p .willDisk => p = .disk ∧ Joining s .disk ∧ Alive s .digi
  | .destroying p (.willDigi count) => p = .digi ∧ Joining s .digi ∧
      (count = 0 ∧ Alive s .disk ∨ count = 1 ∧ Gone s .disk)
  | .destroying p .notice | .destroying p .allDest => Joining s p ∧ Gone s p.other

structure Inv (s : State) : Prop where
  pc : PcInv s s.pc
  pending : ∀ p, s.limitPending p = true → s.joined p = false

theorem inv_init (m : ListIndex) (min : Pool → ListIndex) : Inv (init m min) where
  pc := ⟨.disk, ⟨Mask.noConfusion, rfl, rfl⟩, Or.inl ⟨Mask.noConfusion, rfl, rfl⟩⟩
  pending _ _ := rfl

structure Same (s t : State) : Prop where
  pc : t.pc = s.pc
  destroys : t.destroys = s.destroys
  joined : t.joined = s.joined
  mask : ∀ p, t.mask p = .destroyed ↔ s.mask p = .destroyed
  locked : s.unlocked = false → t.mask = s.mask

variable {s t : State} {p q : Pool}

theorem Same.alive (h : Same s t) (ha : Alive s p) : Alive t p :=
  ⟨mt (h.mask p).1 ha.mask, h.destroys ▸ ha.destroys, h.joined ▸ ha.joined⟩

theorem Same.joining (h : Same s t) (hj : Joining s p) : Joining t p :=
  ⟨mt (h.mask p).1 hj.mask, h.destroys ▸ hj.destroys, h.joined ▸ hj.joined⟩

theorem Same.over (h : Same s t) (ho : Over s p) : Over t p :=
  ⟨h.destroys ▸ ho.destroys, h.joined ▸ ho.joined⟩

theorem Same.gone (h : Same s t) (hg : Gone s p) : Gone t p :=
  ⟨h.over hg.toOver, (h.mask p).2 hg.mask⟩

theorem Same.oneAlive (h : Same s t) (ho : OneAlive s) : OneAlive t := by
  obtain ⟨p, ha, hq⟩ := ho
  exact ⟨p, h.alive ha, hq.imp h.alive h.gone⟩

theorem Same.pcInv (h : Same s t) (hi : PcInv s s.pc) : PcInv t t.pc := by
  have hl := h.locked
  unfold State.unlocked at hl
  rw [h.pc]
  generalize s.pc = pc at hi hl
  cases pc with
  | sleeping => exact h.oneAlive hi
  | returned r => exact fun p => h.over (hi p)
  | loop st which =>
    have hm : t.mask = s.mask := hl rfl
    cases st with
    | survive => exact h.oneAlive hi
    | willContinue => exact h.oneAlive hi
    | destroy => exact ⟨h.oneAlive hi.1, hm ▸ hi.2⟩
    | willDestroy => exact ⟨fun p => h.alive (hi.1 p), hm ▸ hi.2⟩
    | haveDestroy =>
      obtain ⟨p, ha, hg⟩ := hi
      exact ⟨p, h.alive ha, h.gone hg⟩
    | noticeOther => exact ⟨h.alive hi.1, h.gone hi.2⟩
    | allDestroy => exact fun p => h.over (hi p)
  | destroying p after =>
    cases after with
    | willDisk => exact ⟨hi.1, h.joining hi.2.1, h.alive hi.2.2⟩
    | willDigi count =>
      refine ⟨hi.1, h.joining hi.2.1, ?_⟩
      rcases hi.2.2 with ⟨hc, ha⟩ | ⟨hc, hg⟩
      · exact Or.inl ⟨hc, h.alive ha⟩
      · exact Or.inr ⟨hc, h.gone hg⟩
    | notice => exact ⟨h.joining hi.1, h.gone hi.2⟩
    | allDest => exact ⟨h.joining hi.1, h.gone hi.2⟩

theorem Inv.same (hi : Inv s) (h : Same s t)
    (hp : ∀ p, t.limitPending p = true → s.joined p = false) : Inv t where
  pc := h.pcInv hi.pc
  pending p ht := h.joined ▸ hp p ht

theorem OneAlive.cases (h : OneAlive s) (q : Pool) : Alive s q ∨ Gone s q := by
  obtain ⟨p, ha, ho⟩ := h
  rcases p.eq_or_eq_other q with rfl | rfl
  · exact Or.inl ha
  · exact ho

theorem PcInv.cases {pc : Pc} (h : PcInv s pc) (q : Pool) : Alive s q ∨ Joining s q ∨ Over s q := by
  have hone : OneAlive s → Alive s q ∨ Joining s q ∨ Over s q := fun ho =>
    (ho.cases q).imp id fun hg => Or.inr hg.toOver
  have htwo : ∀ {p}, Alive s p ∧ Gone s p.other → Alive s q ∨ Joining s q ∨ Over s q :=
    fun ⟨ha, hg⟩ => hone ⟨_, ha, Or.inr hg⟩
  cases pc with
  | sleeping => exact hone h
  | returned r => exact Or.inr (Or.inr (h q))
  | loop st which =>
    cases st with
    | survive => exact hone h
    | willContinue => exact hone h
    | destroy => exact hone h.1
    | willDestroy => exact Or.inl (h.1 q)
    | haveDestroy =>
      obtain ⟨p, hp⟩ := h
      exact htwo hp
    | noticeOther => exact htwo h
    | allDestroy => exact Or.inr (Or.inr (h q))
  | destroying p after =>
    have hjoin : Joining s p ∧ (Alive s p.other ∨ Gone s p.other) →
        Alive s q ∨ Joining s q ∨ Over s q := by
      rintro ⟨hj, ho⟩
      rcases p.eq_or_eq_other q with rfl | rfl
      · exact Or.inr (Or.inl hj)
      · exact ho.imp id fun hg => Or.inr hg.toOver
    cases after with
    | willDisk =>
      obtain ⟨rfl, hj, ha⟩ := h
      exact hjoin ⟨hj, Or.inl ha⟩
    | willDigi count =>
      obtain ⟨rfl, hj, ho⟩ := h
      exact hjoin ⟨hj, ho.imp And.right And.right⟩
    | notice => exact hjoin ⟨h.1, Or.inr h.2⟩
    | allDest => exact hjoin ⟨h.1, Or.inr h.2⟩

theorem Inv.destroys_le (hi : Inv s) (p : Pool) : s.destroys p ≤ 1 := by
  rcases hi.pc.cases p with h | h | h
  · exact h.destroys ▸ Nat.zero_le 1
  · exact h.destroys.le
  · exact h.destroys.le

theorem Inv.mask_ne (hi : Inv s) (hj : s.joined p = false) : s.mask p ≠ .destroyed := by
  rcases hi.pc.cases p with h | h | h
  · exact h.mask
  · exact h.mask
  · exact absurd (h.joined.symm.trans hj) (by decide)

theorem update_ending_iff (hm : s.mask p ≠ .destroyed) (q : Pool) :
    Function.update s.mask p .ending q = .destroyed ↔ s.mask q = .destroyed := by
  by_cases hq : q = p
  · subst hq
    rw [Function.update_self]
    exact ⟨fun h => Mask.noConfusion h, fun h => absurd h hm⟩
  · rw [Function.update_of_ne hq]

theorem oper_same (i : ListIndex) : Same s (oper s p i) := by
  unfold oper
  split <;> exact ⟨rfl, rfl, rfl, fun _ => Iff.rfl, fun _ => rfl⟩

theorem finish_same (hm : s.mask p ≠ .destroyed) (hu : s.unlocked = true) :
    Same s (s.setMask p .ending) :=
  ⟨rfl, rfl, rfl, update_ending_iff hm, fun h => absurd hu (h ▸ Bool.false_ne_true)⟩

theorem limitReached_same (hm : s.mask .disk ≠ .destroyed) (hu : s.unlocked = true) :
    Same s (limitReached s p) :=
  ⟨rfl, rfl, rfl, update_ending_iff hm, fun h => absurd hu (h ▸ Bool.false_ne_true)⟩

theorem updateMinError_same (n : ℕ) (i : ListIndex) : Same s (updateMinError n s p i) := by
  unfold updateMinError
  dsimp only
  split_ifs <;> exact ⟨rfl, rfl, rfl, fun _ => Iff.rfl, fun _ => rfl⟩

theorem updateMinError_limitPending (n : ℕ) (i : ListIndex) :
    (updateMinError n s p i).limitPending q = true → q = p ∨ s.limitPending q = true := by
  unfold updateMinError
  dsimp only
  split_ifs
  · exact Or.inr
  · exact Or.inr
  · intro h
    change Function.update s.limitPending p true q = true at h
    by_cases hq : q = p
    · exact Or.inl hq
    · exact Or.inr (by rwa [Function.update_of_ne hq] at h)
  · exact Or.inr

theorem Alive.setPc (h : Alive s p) (c : Pc) : Alive (s.setPc c) p := ⟨h.mask, h.destroys, h.joined⟩

theorem Gone.setPc (h : Gone s p) (c : Pc) : Gone (s.setPc c) p :=
  ⟨⟨h.destroys, h.joined⟩, h.mask⟩

theorem OneAlive.setPc (h : OneAlive s) (c : Pc) : OneAlive (s.setPc c) := by
  obtain ⟨p, ha, ho⟩ := h
  exact ⟨p, ha.setPc c, ho.imp (·.setPc c) (·.setPc c)⟩

theorem Over.setPc (h : Over s p) (c : Pc) : Over (s.setPc c) p := ⟨h.destroys, h.joined⟩

theorem Alive.poolDestroy (h : Alive s p) (after : After) : Joining (s.poolDestroy p after) p where
  mask := h.mask
  destroys := by
    change Function.update s.destroys p (s.destroys p + 1) p = 1
    rw [Function.update_self, h.destroys]
  joined := h.joined

theorem Alive.poolDestroy_of_ne (h : Alive s q) (after : After) (hq : q ≠ p) :
    Alive (s.poolDestroy p after) q where
  mask := h.mask
  destroys := (Function.update_of_ne hq _ _).trans h.destroys
  joined := h.joined

theorem Gone.poolDestroy_of_ne (h : Gone s q) (after : After) (hq : q ≠ p) :
    Gone (s.poolDestroy p after) q where
  mask := h.mask
  destroys := (Function.update_of_ne hq _ _).trans h.destroys
  joined := h.joined

theorem Joining.gone (h : Joining s p) : Gone ((s.join p).setMask p .destroyed) p where
  mask := Function.update_self ..
  destroys := h.destroys
  joined := Function.update_self ..

theorem Joining.over (h : Joining s p) : Over (s.join p) p where
  destroys := h.destroys
  joined := Function.update_self ..

theorem Gone.join_of_ne (h : Gone s q) (hq : q ≠ p) : Gone (s.join p) q where
  mask := h.mask
  destroys := h.destroys
  joined := (Function.update_of_ne hq _ _).trans h.joined

theorem Alive.join_of_ne (h : Alive s q) (hq : q ≠ p) : Alive (s.join p) q where
  mask := h.mask
  destroys := h.destroys
  joined := (Function.update_of_ne hq _ _).trans h.joined

theorem Gone.setMask_of_ne (h : Gone s q) (m : Mask) (hq : q ≠ p) : Gone (s.setMask p m) q where
  mask := (Function.update_of_ne hq _ _).trans h.mask
  destroys := h.destroys
  joined := h.joined

theorem Alive.setMask_of_ne (h : Alive s q) (m : Mask) (hq : q ≠ p) : Alive (s.setMask p m) q where
  mask := by
    change Function.update s.mask p m q ≠ _
    rw [Function.update_of_ne hq]
    exact h.mask
  destroys := h.destroys
  joined := h.joined

theorem willDestroyDigi_pcInv {count : ℕ} (which : ℤ) (ha : Alive s .digi)
    (h : count = 0 ∧ Alive s .disk ∧ s.mask .digi = .ending ∨ count = 1 ∧ Gone s .disk) :
    PcInv (willDestroyDigi s count which) (willDestroyDigi s count which).pc := by
  unfold willDestroyDigi
  split_ifs with hm
  · refine ⟨rfl, ha.poolDestroy _, ?_⟩
    rcases h with ⟨hc, hd, _⟩ | ⟨hc, hg⟩
    · exact Or.inl ⟨hc, hd.poolDestroy_of_ne _ (by decide)⟩
    · exact Or.inr ⟨hc, hg.poolDestroy_of_ne _ (by decide)⟩
  · omega
  · rcases h with ⟨_, _, hme⟩ | ⟨_, hg⟩
    · exact absurd hme hm
    · exact ⟨.digi, ha.setPc _, hg.setPc _⟩

theorem checkPoolWillDestroy_pcInv (which : ℤ) (ha : ∀ p, Alive s p)
    (hm : ∃ p, s.mask p ≠ .running) :
    PcInv (checkPoolWillDestroy s which) (checkPoolWillDestroy s which).pc := by
  unfold checkPoolWillDestroy
  split_ifs with hd
  · exact ⟨rfl, (ha .disk).poolDestroy _, (ha .digi).poolDestroy_of_ne _ (by decide)⟩
  · refine willDestroyDigi_pcInv which (ha .digi) (Or.inl ⟨rfl, ha .disk, ?_⟩)
    obtain ⟨p, hp⟩ := hm
    have hnot := (ha p).mask
    cases p with
    | disk => cases h : s.mask .disk <;> simp_all
    | digi => cases h : s.mask .digi <;> simp_all

theorem checkPoolNoticeDestroy_pcInv {which : ℤ} (ha : Alive s (noticed which))
    (hg : Gone s (noticed which).other) :
    PcInv (checkPoolNoticeDestroy s which) (checkPoolNoticeDestroy s which).pc := by
  have hne := (noticed which).other_ne
  have hcont : PcInv (s.setPc (.loop .willContinue which)) (.loop .willContinue which) :=
    OneAlive.setPc ⟨_, ha, Or.inr hg⟩ _
  unfold checkPoolNoticeDestroy
  dsimp only
  split_ifs with hm hn hp
  · exact ⟨ha.poolDestroy _, hg.poolDestroy_of_ne _ hne⟩
  · exact ⟨ha.poolDestroy _, hg.poolDestroy_of_ne _ hne⟩
  · exact hcont
  · exact hcont

theorem afterDestroy_pcInv {after : After} (h : PcInv s (.destroying p after)) :
    PcInv (afterDestroy (s.join p) p after) (afterDestroy (s.join p) p after).pc := by
  cases after with
  | willDisk =>
    obtain ⟨rfl, hj, ha⟩ := h
    have ha' := (ha.join_of_ne (p := .disk) (by decide)).setMask_of_ne (p := .disk) .destroyed (by decide)
    simp only [afterDestroy]
    rw [if_neg ha'.mask]
    exact willDestroyDigi_pcInv _ ha' (Or.inr ⟨rfl, hj.gone⟩)
  | willDigi count =>
    obtain ⟨rfl, hj, ho⟩ := h
    simp only [afterDestroy]
    rcases ho with ⟨hc, ha⟩ | ⟨hc, hg⟩
    · have ha' := (ha.join_of_ne (p := .digi) (by decide)).setMask_of_ne
        (p := .digi) .destroyed (by decide)
      rw [if_neg ha'.mask, hc]
      exact ⟨.disk, ha'.setPc _, hj.gone.setPc _⟩
    · have hg' := (hg.join_of_ne (p := .digi) (by decide)).setMask_of_ne
        (p := .digi) .destroyed (by decide)
      rw [if_pos hg'.mask]
      intro q
      cases q with
      | disk => exact hg'.toOver.setPc _
      | digi => exact hj.gone.toOver.setPc _
  | notice =>
    intro q
    rcases p.eq_or_eq_other q with rfl | rfl
    · exact h.1.over.setPc _
    · exact (h.2.join_of_ne p.other_ne).toOver.setPc _
  | allDest =>
    intro q
    rcases p.eq_or_eq_other q with rfl | rfl
    · exact h.1.gone.toOver.setPc _
    · exact ((h.2.join_of_ne p.other_ne).setMask_of_ne .destroyed p.other_ne).toOver.setPc _

theorem manage_pcInv (hi : PcInv s s.pc) (h : manage s = some t) : PcInv t t.pc := by
  unfold manage at h
  generalize s.pc = pc at hi h
  cases pc with
  | sleeping =>
    cases h
    change PcInv _ (.loop (checkPoolState s) (-1))
    unfold checkPoolState
    split_ifs with hm
    · exact OneAlive.setPc hi _
    · refine ⟨OneAlive.setPc hi _, ?_⟩
      by_contra hn
      push Not at hn
      exact hm ⟨hn .disk, hn .digi⟩
  | returned r => cases h
  | loop st which =>
    cases st with
    | survive =>
      cases h
      exact OneAlive.setPc hi _
    | willContinue =>
      cases h
      exact OneAlive.setPc hi _
    | destroy =>
      cases h
      obtain ⟨ho, hm⟩ := hi
      change PcInv _ (.loop (checkPoolDestroy s) which)
      unfold checkPoolDestroy
      split_ifs with hd
      · refine ⟨fun p => ?_, hm⟩
        rcases ho.cases p with ha | hg
        · exact ha.setPc _
        · cases p with
          | disk => exact absurd hg.mask hd.1
          | digi => exact absurd hg.mask hd.2
      · obtain ⟨p, ha, ha' | hg⟩ := ho
        · refine absurd ⟨?_, ?_⟩ hd <;> cases p <;> first | exact ha.mask | exact ha'.mask
        · exact ⟨p, ha.setPc _, hg.setPc _⟩
    | willDestroy =>
      cases h
      exact checkPoolWillDestroy_pcInv which hi.1 hi.2
    | haveDestroy =>
      cases h
      obtain ⟨p, ha, hg⟩ := hi
      change PcInv _ (.loop .noticeOther (checkPoolHaveDestroy s))
      unfold checkPoolHaveDestroy
      split_ifs with hm
      · cases p with
        | disk => exact absurd hm ha.mask
        | digi => exact ⟨ha.setPc _, hg.setPc _⟩
      · cases p with
        | disk => exact ⟨ha.setPc _, hg.setPc _⟩
        | digi => exact absurd hg.mask hm
    | noticeOther =>
      cases h
      exact checkPoolNoticeDestroy_pcInv hi.1 hi.2
    | allDestroy =>
      cases h
      exact fun p => (hi p).setPc _
  | destroying p after =>
    simp only [Option.ite_none_left_eq_some, Option.some.injEq] at h
    obtain ⟨_, rfl⟩ := h
    exact afterDestroy_pcInv hi

theorem willDestroyDigi_fields (s : State) (count : ℕ) (which : ℤ) :
    (willDestroyDigi s count which).mask = s.mask ∧
      (willDestroyDigi s count which).joined = s.joined ∧
      (willDestroyDigi s count which).limitPending = s.limitPending := by
  unfold willDestroyDigi
  split_ifs <;> exact ⟨rfl, rfl, rfl⟩

theorem afterDestroy_fields (s : State) (p : Pool) (after : After) :
    (∀ q, s.mask q = .destroyed → (afterDestroy s p after).mask q = .destroyed) ∧
      (afterDestroy s p after).joined = s.joined ∧
      (afterDestroy s p after).limitPending = s.limitPending := by
  have hset : ∀ r q, s.mask q = .destroyed → (s.setMask r .destroyed).mask q = .destroyed := by
    intro r q hq
    by_cases hqr : q = r
    · exact hqr ▸ Function.update_self ..
    · exact (Function.update_of_ne hqr _ _).trans hq
  cases after with
  | willDisk =>
    simp only [afterDestroy]
    split_ifs
    · exact ⟨hset _, rfl, rfl⟩
    · obtain ⟨hm, hj, hl⟩ := willDestroyDigi_fields (s.setMask .disk .destroyed) 1 (-1)
      exact ⟨fun q hq => hm ▸ hset _ q hq, hj, hl⟩
  | willDigi count =>
    simp only [afterDestroy]
    split_ifs <;> exact ⟨hset _, rfl, rfl⟩
  | notice => exact ⟨fun _ => id, rfl, rfl⟩
  | allDest => exact ⟨hset _, rfl, rfl⟩

theorem manage_fields (h : manage s = some t) :
    (∀ q, s.mask q = .destroyed → t.mask q = .destroyed) ∧ t.limitPending = s.limitPending ∧
      (t.joined = s.joined ∨
        ∃ p, s.limitPending p = false ∧ t.joined = Function.update s.joined p true) := by
  unfold manage at h
  generalize s.pc = pc at h
  cases pc with
  | sleeping => cases h; exact ⟨fun _ => id, rfl, Or.inl rfl⟩
  | returned r => cases h
  | loop st which =>
    cases st with
    | willDestroy =>
      cases h
      unfold checkPoolWillDestroy
      split_ifs
      · exact ⟨fun _ => id, rfl, Or.inl rfl⟩
      · obtain ⟨hm, hj, hl⟩ := willDestroyDigi_fields s 0 which
        exact ⟨fun q hq => hm ▸ hq, hl, Or.inl hj⟩
    | noticeOther =>
      cases h
      unfold checkPoolNoticeDestroy
      dsimp only
      split_ifs <;> exact ⟨fun _ => id, rfl, Or.inl rfl⟩
    | _ => cases h; exact ⟨fun _ => id, rfl, Or.inl rfl⟩
  | destroying p after =>
    simp only [Option.ite_none_left_eq_some, Option.some.injEq, Bool.not_eq_true] at h
    obtain ⟨hp, rfl⟩ := h
    obtain ⟨hm, hj, hl⟩ := afterDestroy_fields (s.join p) p after
    exact ⟨hm, hl, Or.inr ⟨p, hp, hj⟩⟩

theorem Inv.manage (hi : Inv s) (h : manage s = some t) : Inv t where
  pc := manage_pcInv hi.pc h
  pending p hp := by
    obtain ⟨_, hl, hj⟩ := manage_fields h
    rw [hl] at hp
    rcases hj with hj | ⟨q, hq, hj⟩
    · rw [hj]
      exact hi.pending p hp
    · rw [hj, Function.update_of_ne]
      · exact hi.pending p hp
      · rintro rfl
        rw [hq] at hp
        exact Bool.noConfusion hp

variable {n : ℕ} {e : Event}

/-- The cluster pool's error limit is not acted on while the disk pool is marked '2'. -/
def NoSlip (s : State) : Event → Prop
  | .limit .digi => s.mask .disk ≠ .destroyed
  | _ => True

theorem Inv.step (hi : Inv s) (hg : NoSlip s e) (h : step n s e = some t) :
    Inv t ∧ ∀ p, s.mask p = .destroyed → t.mask p = .destroyed := by
  have hsame : ∀ {u}, Same s u → (∀ p, u.limitPending p = true → s.joined p = false) →
      Inv u ∧ ∀ p, s.mask p = .destroyed → u.mask p = .destroyed :=
    fun hu hp => ⟨hi.same hu hp, fun p => (hu.mask p).2⟩
  cases e with
  | manage => exact ⟨hi.manage h, (manage_fields h).1⟩
  | oper p i =>
    simp only [Manager.step, Option.ite_none_left_eq_some, Option.some.injEq] at h
    obtain ⟨_, rfl⟩ := h
    refine hsame (oper_same i) fun q hq => hi.pending q ?_
    unfold oper at hq
    split at hq <;> exact hq
  | finish p =>
    simp only [Manager.step, Option.ite_none_left_eq_some, Option.some.injEq, not_or,
      Bool.not_eq_true, Bool.not_eq_false] at h
    obtain ⟨⟨hj, hu⟩, rfl⟩ := h
    exact hsame (finish_same (hi.mask_ne hj) hu) hi.pending
  | error p i =>
    simp only [Manager.step, Option.ite_none_left_eq_some, Option.some.injEq,
      Bool.not_eq_true] at h
    obtain ⟨hj, rfl⟩ := h
    refine hsame (updateMinError_same n i) fun q hq => ?_
    rcases updateMinError_limitPending n i hq with rfl | hq
    · exact hj
    · exact hi.pending q hq
  | limit p =>
    simp only [Manager.step, Option.ite_none_right_eq_some, Option.some.injEq] at h
    obtain ⟨⟨hp, hu⟩, rfl⟩ := h
    have hm : s.mask .disk ≠ .destroyed := by
      cases p with
      | disk => exact hi.mask_ne (hi.pending .disk hp)
      | digi => exact hg
    refine hsame (limitReached_same hm hu) fun q hq => ?_
    change Function.update s.limitPending p false q = true at hq
    by_cases hqp : q = p
    · subst hqp
      rw [Function.update_self] at hq
      exact Bool.noConfusion hq
    · rw [Function.update_of_ne hqp] at hq
      exact hi.pending q hq

structure DestroyedOnce (n : ℕ) (s₀ : State) (es : List Event) : Prop where
  once : ∀ pre, pre <+: es → ∀ s, exec (step n) s₀ pre = some s → ∀ p, s.destroys p ≤ 1
  kept : ∀ pre mid, pre ++ mid <+: es → ∀ s t, exec (step n) s₀ pre = some s →
    exec (step n) s mid = some t → ∀ p, s.mask p = .destroyed → t.mask p = .destroyed
  returned : ∀ pre, pre <+: es → ∀ s, exec (step n) s₀ pre = some s → s.pc = .returned 1 →
    ∀ p, s.destroys p = 1 ∧ s.joined p = true

theorem inv_of_guarded {s₀ : State} {es : List Event} (h₀ : Inv s₀)
    (hg : Guarded (step n) NoSlip s₀ es) (h : exec (step n) s₀ es = some s) : Inv s :=
  invariant_guarded (fun _ _ _ hi hf ht => (hi.step hf ht).1) h₀ hg h

theorem destroyedOnce_of_guarded {s₀ : State} {es : List Event} (h₀ : Inv s₀)
    (hg : Guarded (step n) NoSlip s₀ es) : DestroyedOnce n s₀ es where
  once pre hp s hs := (inv_of_guarded h₀ (hg.of_prefix hp) hs).destroys_le
  kept pre mid hp s t hs ht p hm := by
    have hpre := hg.of_prefix hp
    have hi := inv_of_guarded h₀ hpre.of_append hs
    have hmid := ((guarded_append hs).1 hpre).2
    exact (invariant_guarded (I := fun u => Inv u ∧ u.mask p = .destroyed)
      (fun _ _ _ hi hf ht => ⟨(hi.1.step hf ht).1, (hi.1.step hf ht).2 p hi.2⟩)
      ⟨hi, hm⟩ hmid ht).2
  returned pre hp s hs hr p := by
    have hi := (inv_of_guarded h₀ (hg.of_prefix hp) hs).pc
    rw [hr] at hi
    exact ⟨(hi p).destroys, (hi p).joined⟩

theorem not_noSlip (h : ¬NoSlip s e) : e = .limit .digi ∧ s.mask .disk = .destroyed := by
  cases e with
  | limit p =>
    cases p with
    | disk => exact absurd trivial h
    | digi => exact ⟨rfl, not_not.1 h⟩
  | _ => exact absurd trivial h

/-- A run keeps the promises about the pools if and only if the cluster pool
never acts on its error limit while the disk pool is marked '2'. -/
theorem destroyedOnce_iff_noSlip (n : ℕ) (m : ListIndex) (min : Pool → ListIndex)
    (es : List Event) (t : State) (h : exec (step n) (init m min) es = some t) :
    DestroyedOnce n (init m min) es ↔ Guarded (step n) NoSlip (init m min) es := by
  refine ⟨fun hd => ?_, destroyedOnce_of_guarded (inv_init m min)⟩
  by_contra hn
  obtain ⟨pre, e, post, u, v, hes, hpre, hf, hv, _⟩ := exists_of_not_guarded h hn
  obtain ⟨rfl, hm⟩ := not_noSlip hf
  have hp : pre ++ [.limit .digi] <+: es := ⟨post, by rw [hes, List.append_assoc]; rfl⟩
  have hkept := hd.kept pre _ hp u v hpre (exec_cons_eq_some.2 ⟨v, hv, rfl⟩) .disk hm
  simp only [Manager.step, Option.ite_none_right_eq_some, Option.some.injEq] at hv
  obtain ⟨_, rfl⟩ := hv
  have hend : (limitReached u .digi).mask .disk = .ending := by
    simp only [limitReached, Function.update_self]
  exact Mask.noConfusion (hend.symm.trans hkept)

def clusterLimit : List Event :=
  [.error .digi ⟨0, 0⟩, .error .digi ⟨0, 1⟩, .limit .digi, .manage, .manage, .manage, .manage,
    .manage, .manage, .manage, .manage]

theorem destroyedOnce_iff_noSlip_clusterLimit :
    ∃ t, exec (step 2) (init ⟨1, 1⟩ fun _ => ⟨0, 0⟩) clusterLimit = some t ∧
      (∀ p, t.destroys p = 1) ∧ DestroyedOnce 2 (init ⟨1, 1⟩ fun _ => ⟨0, 0⟩) clusterLimit :=
  ⟨_, rfl, fun p => by cases p <;> rfl, (destroyedOnce_iff_noSlip 2 ⟨1, 1⟩ _ clusterLimit _ rfl).2
    (.cons trivial rfl <| .cons trivial rfl <| .cons Mask.noConfusion rfl <| .cons trivial rfl <|
      .cons trivial rfl <| .cons trivial rfl <| .cons trivial rfl <| .cons trivial rfl <|
      .cons trivial rfl <| .cons trivial rfl <| .cons trivial rfl trivial)⟩

def diskFinishes : List Event :=
  [.finish .disk, .manage, .manage, .manage, .manage, .manage, .manage, .manage]

theorem exec_errors (k : ℕ) (s : State) (p : Pool) (i : ListIndex) (hj : s.joined p = false)
    (hk : s.errors.sum p + k < n) :
    exec (step n) s (List.replicate k (.error p i)) = some { s with
      errors := { s.errors with sum := Function.update s.errors.sum p (s.errors.sum p + k) } } := by
  induction k generalizing s with
  | zero => simp only [List.replicate_zero, exec_nil, Nat.add_zero, Function.update_eq_self]
  | succ k ih =>
    have hone : step n s (.error p i) = some { s with
        errors := { s.errors with sum := Function.update s.errors.sum p (s.errors.sum p + 1) } } := by
      simp only [Manager.step, hj, Bool.false_eq_true, if_false, updateMinError,
        Function.update_self]
      rw [if_neg (by omega)]
    rw [List.replicate_succ, exec_cons, hone, Option.bind_some, ih]
    · simp only [Function.update_self, Function.update_idem]
      rw [Nat.add_assoc, Nat.add_comm 1 k]
    · exact hj
    · simp only [Function.update_self]
      omega

/-- The disk pool is done; then the cluster pool's five hundredth error is
written to `mask[0]`, and the next poll destroys the disk pool again. -/
def limitAfterDisk : List Event :=
  diskFinishes ++ List.replicate 499 (.error .digi ⟨0, 0⟩) ++
    [.error .digi ⟨0, 0⟩, .limit .digi, .manage, .manage, .manage]

theorem destroyedOnce_false_limitAfterDisk :
    (∃ t, exec (step 500) (init ⟨1, 1⟩ fun _ => ⟨0, 0⟩) limitAfterDisk = some t ∧
      t.destroys .disk = 2) ∧
    ¬DestroyedOnce 500 (init ⟨1, 1⟩ fun _ => ⟨0, 0⟩) limitAfterDisk := by
  have hrun : ∃ t, exec (step 500) (init ⟨1, 1⟩ fun _ => ⟨0, 0⟩) limitAfterDisk = some t ∧
      t.destroys .disk = 2 := by
    have hdisk : exec (step 500) (init ⟨1, 1⟩ fun _ => ⟨0, 0⟩) diskFinishes = some _ := rfl
    have herr := exec_trans hdisk (exec_errors 499 _ .digi ⟨0, 0⟩ rfl (by decide))
    exact ⟨_, exec_trans herr rfl, rfl⟩
  refine ⟨hrun, fun h => ?_⟩
  obtain ⟨t, ht, h2⟩ := hrun
  have hle := h.once limitAfterDisk (List.prefix_refl _) t ht .disk
  omega

end MyScripts.Shark.Manager
