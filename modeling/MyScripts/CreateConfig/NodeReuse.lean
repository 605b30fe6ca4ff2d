import MyScripts.CreateConfig.DiskPool

/-!
# Free disks on nodes in use

The script makes new arrays on the nodes of the existing ones while enough nodes
have free disks. A pass over the node lists that takes no disk leaves all as it
was, and the loop goes on forever.
-/
namespace MyScripts.CreateConfig
open Library.Exceptions

abbrev NodeLists := List (ℕ × List (List Node))

def reuse (eccount : ℕ) (nodelist : List Node) : Taking Unit := do
  let pool := (← get).pool
  if pool.keys.length < nodelist.length then pure ()
  else if ∀ node ∈ nodelist, node ∈ pool then
    let newec ← nodelist.mapM takeDisk
    addCreated eccount newec
  else pure ()

def reusePass (ecnodeinfos : NodeLists) : Taking Unit :=
  ecnodeinfos.forM fun (eccount, ecnodeinfo) => ecnodeinfo.forM (reuse eccount)

def leastSize (nmlist : List Combination) : ℕ := ((tlist nmlist).min?).getD 0

def Continues (nmlist : List Combination) (s : Stock) : Prop :=
  s.pool.keys ≠ [] ∧ ¬s.pool.keys.length < leastSize nmlist

instance (nmlist : List Combination) : DecidablePred (Continues nmlist) :=
  fun s => inferInstanceAs (Decidable (s.pool.keys ≠ [] ∧ ¬s.pool.keys.length < leastSize nmlist))

variable {α : Type} {s s' t : Stock} {pool : Pool} {nodelist : List Node} {newec : List Disk}
  {eccount : ℕ} {ecnodeinfos : NodeLists} {nmlist : List Combination}

def Served (pool : Pool) (nodelist : List Node) : Prop :=
  nodelist.length ≤ pool.keys.length ∧ ∀ node ∈ nodelist, node ∈ pool

structure Serves (A : Pool → Prop) (m : Taking Unit) : Prop where
  idle : ∀ s, ¬A s.pool → ∃ s', m.run s = .ok () s' ∧ s'.pool = s.pool
  progress : ∀ s s', A s.pool → m.run s = .ok () s' → s'.pool.total < s.pool.total

theorem Serves.total_le {A : Pool → Prop} {m : Taking Unit} (h : Serves A m)
    (hrun : m.run s = .ok () s') : s'.pool.total ≤ s.pool.total := by
  by_cases hA : A s.pool
  · exact (h.progress s s' hA hrun).le
  · obtain ⟨t, ht, hpool⟩ := h.idle s hA
    rw [ht] at hrun
    cases hrun
    rw [hpool]

theorem serves_forM {A : α → Pool → Prop} {f : α → Taking Unit} {l : List α}
    (h : ∀ x ∈ l, Serves (A x) (f x)) : Serves (fun pool => ∃ x ∈ l, A x pool) (l.forM f) := by
  induction l with
  | nil => exact ⟨fun s _ => ⟨s, rfl, rfl⟩, fun _ _ hA => by simp at hA⟩
  | cons x l ih =>
    have hx := h x List.mem_cons_self
    have hl := ih fun y hy => h y (List.mem_cons_of_mem x hy)
    constructor
    · intro s hA
      simp only [List.mem_cons, exists_eq_or_imp, not_or] at hA
      obtain ⟨t, ht, hpool⟩ := hx.idle s hA.1
      obtain ⟨u, hu, hpool'⟩ := hl.idle t (by rw [hpool]; exact hA.2)
      exact ⟨u, run_bind_ok.2 ⟨(), t, ht, hu⟩, hpool'.trans hpool⟩
    · intro s u hA hrun
      obtain ⟨_, t, hfirst, hrest⟩ := run_bind_ok.1 ((forM_cons f x l).symm ▸ hrun)
      by_cases hAx : A x s.pool
      · exact (hl.total_le hrest).trans_lt (hx.progress s t hAx hfirst)
      · obtain ⟨t', ht', hpool⟩ := hx.idle s hAx
        rw [hfirst] at ht'
        cases ht'
        simp only [List.mem_cons, exists_eq_or_imp, hAx, false_or] at hA
        rw [← hpool] at hA ⊢
        exact hl.progress t u hA hrest

theorem total_mapM_takeDisk (h : (nodelist.mapM takeDisk).run s = .ok newec s') :
    s'.pool.total ≤ s.pool.total ∧ (nodelist ≠ [] → s'.pool.total < s.pool.total) := by
  induction nodelist generalizing s newec with
  | nil =>
    cases h
    simp
  | cons node nodelist ih =>
    rw [List.mapM_cons] at h
    obtain ⟨disk, t, hfirst, h⟩ := run_bind_ok.1 h
    obtain ⟨disks, u, hrest, h⟩ := run_bind_ok.1 h
    cases h
    have hlt := takeDisk_ok hfirst
    have hle := (ih hrest).1
    exact ⟨by omega, fun _ => by omega⟩

theorem serves_reuse (eccount : ℕ) (nodelist : List Node) :
    Serves (fun pool => nodelist ≠ [] ∧ Served pool nodelist) (reuse eccount nodelist) := by
  constructor
  · intro s hA
    simp only [reuse, EStateM.run_bind, EStateM.run_get]
    split_ifs with hlength hall
    · exact ⟨s, rfl, rfl⟩
    · -- an empty list of nodes makes an array without disks
      have hnil : nodelist = [] := by
        by_contra hne
        exact hA ⟨hne, Nat.not_lt.1 hlength, hall⟩
      subst hnil
      exact ⟨_, rfl, rfl⟩
    · exact ⟨s, rfl, rfl⟩
  · rintro s s' ⟨hne, hlength, hall⟩ hrun
    simp only [reuse, EStateM.run_bind, EStateM.run_get] at hrun
    rw [if_neg (Nat.not_lt.2 hlength), if_pos hall] at hrun
    obtain ⟨newec, t, htake, hadd⟩ := run_bind_ok.1 hrun
    cases hadd
    exact (total_mapM_takeDisk htake).2 hne

/-- Some array with a disk can be made on the nodes of an existing one. -/
def Reusable (ecnodeinfos : NodeLists) (pool : Pool) : Prop :=
  ∃ ec ∈ ecnodeinfos, ∃ nodelist ∈ ec.2, nodelist ≠ [] ∧ Served pool nodelist

theorem serves_reusePass (ecnodeinfos : NodeLists) :
    Serves (Reusable ecnodeinfos) (reusePass ecnodeinfos) :=
  serves_forM fun ec _ => serves_forM fun nodelist _ => serves_reuse ec.1 nodelist

theorem not_ends_of_stuck (hs : Continues nmlist s) (hstuck : ¬Reusable ecnodeinfos s.pool) :
    ¬Terminates (Continues nmlist) (reusePass ecnodeinfos) s := by
  apply not_ends_of_invariant (I := fun t : Stock => t.pool = s.pool) rfl
  intro t ht
  have hidle := (serves_reusePass ecnodeinfos).idle t (by rwa [ht])
  obtain ⟨u, hu, hpool⟩ := hidle
  refine ⟨?_, u, hu, hpool.trans ht⟩
  rw [Continues] at hs ⊢
  rwa [ht]

/-- The loop comes to its end exactly when each pass that it begins makes an array. -/
theorem reuse_ends_iff (nmlist : List Combination) (ecnodeinfos : NodeLists) (s : Stock) :
    Terminates (Continues nmlist) (reusePass ecnodeinfos) s ↔
      ∀ t, Rounds (Continues nmlist) (reusePass ecnodeinfos) s t → Continues nmlist t →
        Reusable ecnodeinfos t.pool := by
  constructor
  · intro hends t ht hcontinues
    by_contra hstuck
    exact not_ends_of_stuck hcontinues hstuck (ht.ends_iff.1 hends)
  · intro h
    apply ends_of_measure fun t => t.pool.total
    intro t t' ht hcontinues hrun
    exact (serves_reusePass ecnodeinfos).progress t t' (h t ht hcontinues) hrun

def scattered : Stock where
  pool := List.toAList [⟨['1'], [⟨['1'], ['a']⟩]⟩, ⟨['2'], [⟨['2'], ['a']⟩]⟩, ⟨['4'], [⟨['4'], ['a']⟩]⟩]
  created := ∅
  extended := ∅

theorem scattered_never_ends : ¬Terminates (Continues [⟨2, 1, 2⟩])
    (reusePass [(3, [[['1'], ['2'], ['3']], [['2'], ['3'], ['4']]])]) scattered := by
  apply not_ends_of_stuck (by decide)
  rintro ⟨ec, hec, nodelist, hnodelist, -, -, hall⟩
  have hnode : ['3'] ∈ nodelist := by
    rw [List.mem_singleton.1 hec] at hnodelist
    simp only [List.mem_cons, List.not_mem_nil, or_false] at hnodelist
    rcases hnodelist with rfl | rfl <;> simp
  exact absurd (hall ['3'] hnode) (by decide)

end MyScripts.CreateConfig
