import MyScripts.Shark.Selection

/-!
# How deep the nodes get

`check_path_depth` compares the number of a directory's ancestors with the
constant 10; the configured `dir_max_depth` does not reach it. A new node is put
below a directory with fewer than 10 ancestors, so no node ever has more than 10,
and a chain of directories reaches this bound.
-/
namespace MyScripts.Shark.FileTable
open Library.Run Library.Forest

variable {c : Config} {t u v w : Table} {n p : NodeRef} {type : FileType} {forOp : Bool}
  {d : CreateDraws} {r : Option NodeRef}

def depth (t : Table) (n : NodeRef) : ℕ := (Library.Forest.ancestors t.parent n n).length

theorem TreeInv.length_ancestors (h : TreeInv t) (hn : n ≤ t.fresh) :
    (t.ancestors t.fresh n).length = depth t n := by
  rw [ancestors_eq, depth, ancestors_congr_fuel h.parent_lt hn (Nat.le_refl n)]

theorem depth_root (hp : t.parent n = none) : depth t n = 0 := by
  cases n <;> simp [depth, Library.Forest.ancestors, hp]

theorem TreeInv.depth_child (h : TreeInv t) (hp : t.parent n = some p) :
    depth t n = depth t p + 1 := by
  have hlt := h.parent_lt n p hp
  obtain ⟨k, rfl⟩ := Nat.exists_eq_succ_of_ne_zero (Nat.ne_of_gt (Nat.zero_lt_of_lt hlt))
  have hfuel := ancestors_congr_fuel h.parent_lt (Nat.le_of_lt_succ hlt)
    (Nat.le_refl p)
  simp only [depth, Library.Forest.ancestors, hp, List.length_cons, hfuel]

theorem SamePlaces.create (hc : (if forOp then some (putInBusy c t type n)
    else createInitial t type n d) = some u) : SamePlaces t u := by
  split_ifs at hc
  · obtain rfl := Option.some.inj hc
    exact samePlaces_putInBusy ..
  · exact (quiet_idleRule.createInitial quiet_free hc).places

theorem TableInv.fileNodeCreate_parent (h : TableInv t)
    (hc : FileTable.fileNodeCreate c t type forOp d = some (r, u)) :
    u.parent = t.parent ∨ ∃ par : Option NodeRef, u.parent = Function.update t.parent t.fresh par ∧
      ∀ p, par = some p → HasNode t p .dir ∧ t.checkPathDepth p = true := by
  obtain ⟨par, w, x, hpar, rfl, hcases⟩ := fileNodeCreate_cases hc
  have hindex := h.getIdleIndex type
  obtain ⟨-, ⟨hnode, -, hfresh⟩, -⟩ := hindex.inv.selectParent hpar
  have hw : w.parent = t.parent := (SamePlaces.of_eq hnode).parent
  have hdir : ∀ p, par = some p → HasNode t p .dir ∧ t.checkPathDepth p = true := by
    rintro p rfl
    rcases hindex.inv.selectParent_eq hpar with ⟨hnone, -⟩ | ⟨q, i, hq, hi, hdepth, -⟩
    · cases hnone
    · obtain rfl := Option.some.inj hq
      obtain ⟨x, hx, htype, -⟩ := h.stored true .dir i p hi
      refine ⟨⟨x, hx, htype⟩, ?_⟩
      rw [Table.checkPathDepth, ancestors_eq] at hdepth ⊢
      exact hdepth
  rcases hcases with ⟨-, v, hv, -, rfl⟩ | ⟨-, -, rfl⟩
  · refine Or.inr ⟨par, ?_, hdir⟩
    rw [(quiet_idleRule.putParToIdle v par).places.parent, (SamePlaces.create hv).parent]
    funext m
    rw [parent_alloc, hw, hfresh, Function.update_apply]
    rfl
  · exact Or.inl ((quiet_idleRule.putParToIdle w par).places.parent.trans hw)

structure DepthInv (c : Config) (t : Table) : Prop where
  use : UseInv c t
  bound : ∀ n, depth t n ≤ 10

theorem DepthInv.congr (h : DepthInv c t) (hu : UseInv c u) (hp : u.parent = t.parent) :
    DepthInv c u where
  use := hu
  bound := fun n => by
    rw [depth, hp]
    exact h.bound n

theorem DepthInv.insert {par : Option NodeRef} (h : DepthInv c t) (hu : UseInv c u)
    (hup : u.parent = Function.update t.parent t.fresh par)
    (hpar : ∀ p, par = some p → HasNode t p .dir ∧ t.checkPathDepth p = true) : DepthInv c u where
  use := hu
  bound := by
    have hlt : ∀ n < t.fresh, depth u n = depth t n := by
      intro n hn
      induction n using Nat.strong_induction_on with
      | h n ih =>
        have hsame : u.parent n = t.parent n := by
          rw [hup, Function.update_of_ne (Nat.ne_of_lt hn)]
        cases hp : t.parent n with
        | none => rw [depth_root hp, depth_root (hsame.trans hp)]
        | some p =>
          have hlt := h.use.tree.parent_lt n p hp
          rw [h.use.tree.depth_child hp, hu.tree.depth_child (hsame.trans hp),
            ih p hlt (hlt.trans hn)]
    intro n
    rcases Nat.lt_trichotomy n t.fresh with hn | rfl | hn
    · rw [hlt n hn]
      exact h.bound n
    · have hnew : u.parent t.fresh = par := by rw [hup, Function.update_self]
      cases par with
      | none =>
        rw [depth_root hnew]
        exact Nat.zero_le 10
      | some p =>
        obtain ⟨⟨x, hx, -⟩, hdepth⟩ := hpar p rfl
        have hp := h.use.table.fresh p x hx
        rw [Table.checkPathDepth, h.use.tree.length_ancestors (Nat.le_of_lt hp),
          decide_eq_true_iff] at hdepth
        rw [hu.tree.depth_child hnew, hlt p hp]
        exact hdepth
    · -- nothing is allocated beyond the new node
      have hnone : t.node n = none := by
        cases hx : t.node n with
        | none => rfl
        | some x => exact absurd (h.use.table.fresh n x hx) (Nat.lt_asymm hn)
      have hroot : u.parent n = none := by
        rw [hup, Function.update_of_ne (Nat.ne_of_gt hn), Table.parent, hnone]
        rfl
      rw [depth_root hroot]
      exact Nat.zero_le 10

theorem depthInv_rule : TableRule c (DepthInv c) where
  table := fun h => h.use.table
  create := by
    intro t u type forOp d r h hc
    have hu := h.use.fileNodeCreate hc
    rcases h.use.table.fileNodeCreate_parent hc with hp | ⟨par, hp, hpar⟩
    · exact h.congr hu hp
    · exact h.insert hu hp hpar
  select := by
    intro t u type pick n h hs
    exact h.congr (useInv_rule.select h.use hs) (quiet_idleRule.selectIdle hs).places.parent
  busy := by
    intro t type n h hl
    exact h.congr (h.use.putInBusy hl) (samePlaces_putInBusy ..).parent
  back := by
    intro t fileType index toIdle h
    exact h.congr (h.use.giveBack ..) (samePlaces_giveBack ..).parent

theorem depthInv_of_exec {s : State} {es : List Event}
    (hrun : exec (step c) State.init es = some s) : DepthInv c s.table := by
  apply depthInv_rule.exec _ hrun
  refine ⟨useInv_init, fun n => ?_⟩
  rw [depth_root rfl]
  exact Nat.zero_le 10

def chainRun (k : ℕ) : List Event :=
  (List.range k).map fun i => .create .dir false { sampleCreate with parents := [i] }

/-- Every node of every run has at most `dir_max_depth` ancestors if and only if
the configured bound is at least the constant of `check_path_depth`. -/
theorem ancestors_le_iff (c : Config) (dirMaxDepth : ℤ) :
    (∀ es s, exec (step c) State.init es = some s → ∀ n x, s.table.node n = some x →
      ((s.table.ancestors s.table.fresh n).length : ℤ) ≤ dirMaxDepth) ↔ 10 ≤ dirMaxDepth := by
  constructor
  · intro hbound
    obtain ⟨s, hs, x, hx, hlen⟩ : ∃ s, exec (step c) State.init (chainRun 11) = some s ∧
        ∃ x, s.table.node 10 = some x ∧ (s.table.ancestors s.table.fresh 10).length = 10 :=
      ⟨_, rfl, _, rfl, rfl⟩
    have hten := hbound (chainRun 11) s hs 10 x hx
    rw [hlen] at hten
    exact hten
  · intro hten es s hs n x hx
    have hinv := depthInv_of_exec hs
    have hle := hinv.bound n
    rw [hinv.use.tree.length_ancestors (Nat.le_of_lt (hinv.use.table.fresh n x hx))]
    omega

theorem ancestors_exceed : ∃ s x,
    exec (step sampleConfig) State.init (chainRun 3) = some s ∧ s.table.node 2 = some x ∧
      (s.table.ancestors s.table.fresh 2).length = 2 ∧
      ¬((s.table.ancestors s.table.fresh 2).length : ℤ) ≤ 1 :=
  ⟨_, _, rfl, rfl, rfl, by decide⟩

end MyScripts.Shark.FileTable
