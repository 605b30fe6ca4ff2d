import MyScripts.Library.FileTree

/-!
# Renaming every entry with a bad name

The entries with a bad name are listed first and then moved to their new names,
what is in a directory before the directory. The pass leaves no bad name and
loses no entry if and only if every new name is good and no two entries of one
directory end with one name.
-/
namespace MyScripts.Library.RenamePass
open FileTree FileTree.Path

variable {ν φ : Type*} {bad : ν → Bool} {r : ν → ν} {s₀ s : Entries ν φ}
variable {D R : List (Path ν)} {p q src d : Path ν} {n m : ν} {N : ℕ}

def isBad (bad : ν → Bool) (p : Path ν) : Bool := p.name?.any bad

def target (r : ν → ν) : Path ν → Path ν
  | root => root
  | child p n => child p (r n)

def sources (bad : ν → Bool) (s : Entries ν φ) : List (Path ν) := (paths s).filter (isBad bad)

def Complete (bad : ν → Bool) (s : Entries ν φ) : Prop := ∀ p ∈ paths s, isBad bad p = false

def Separate (r : ν → ν) (s : Entries ν φ) : Prop :=
  ∀ p n m, child p n ∈ paths s → child p m ∈ paths s → r n = r m → n = m

def Present (R : List (Path ν)) (s : Entries ν φ) : Prop :=
  ∀ p ∈ R, ∀ a, Under a p → a = root ∨ a ∈ paths s

def Lost (bad : ν → Bool) (N : ℕ) (R : List (Path ν)) (s : Entries ν φ) : Prop :=
  s.length < N ∨ (Present R s ∧ ∃ q ∈ paths s, isBad bad q = true ∧ q ∉ R)

theorem Present.tail (h : Present (p :: R) s) : Present R s :=
  fun q hq => h q (List.mem_cons_of_mem p hq)

theorem Present.not_mem (h : Present R s) (hd : d ∉ paths s) (hroot : d ≠ root) (hq : Under d q) :
    q ∉ R := by
  intro hR
  rcases h q hR d hq with h | h
  · exact hroot h
  · exact hd h

theorem ne_root_of_isBad (h : isBad bad p = true) : p ≠ root := by
  rintro rfl
  simp [isBad, name?] at h

theorem target_ne_root (h : src ≠ root) : target r src ≠ root := by
  cases src with
  | root => exact absurd rfl h
  | child p n => simp [target]

theorem mem_sources : p ∈ sources bad s ↔ p ∈ paths s ∧ isBad bad p = true := List.mem_filter

variable [DecidableEq ν]

def pass (r : ν → ν) (s : Entries ν φ) (R : List (Path ν)) : Entries ν φ :=
  R.foldl (fun s p => mv p (target r p) s) s

def renamePass (bad : ν → Bool) (r : ν → ν) (s : Entries ν φ) : Entries ν φ :=
  pass r s (sources bad s).reverse

def renamed (r : ν → ν) (D : List (Path ν)) : Path ν → Path ν
  | root => root
  | child p n => child (renamed r D p) (if child p n ∈ D then r n else n)

theorem Present.moved (h : Present R s) (hd : d ∉ paths s) (hsrc : ∀ p ∈ R, ¬Under src p) :
    Present R (move src d s) := by
  intro p hp a ha
  rcases h p hp a ha with hroot | hmem
  · exact Or.inl hroot
  · right
    have hkept := mem_paths_move src hd hmem
    rwa [rebase_of_not_under fun hunder => hsrc p hp (hunder.trans ha)] at hkept

theorem mv_moves (r : ν → ν) (s : Entries ν φ) (h : isBad bad src = true) :
    mv src (target r src) s = s ∨ ∃ d, mv src (target r src) s = move src d s ∧ d ≠ root ∧
      (d = target r src ∨ isBad bad d = true) := by
  rcases mv_cases src (target r src) s with hsame | ⟨d, hmove, rfl | ⟨p, n, rfl, rfl⟩⟩
  · exact Or.inl hsame
  · exact Or.inr ⟨_, hmove, target_ne_root (ne_root_of_isBad h), Or.inl rfl⟩
  · exact Or.inr ⟨_, hmove, by simp, Or.inr h⟩

theorem lost_step (h : Lost bad N (src :: R) s) (hN : s.length ≤ N) (hbad : isBad bad src = true)
    (hsrc : ∀ p ∈ R, ¬Under src p) : Lost bad N R (mv src (target r src) s) := by
  rcases h with hlen | ⟨hpresent, q, hq, hbadq, hR⟩
  · left
    rcases mv_cases src (target r src) s with hsame | ⟨d, hmove, -⟩
    · rwa [hsame]
    · rw [hmove]
      exact Nat.lt_of_le_of_lt (length_move_le src d s) hlen
  · rw [List.mem_cons, not_or] at hR
    rcases mv_moves r s hbad with hsame | ⟨d, hmove, hroot, -⟩
    · rw [hsame]
      exact Or.inr ⟨hpresent.tail, q, hq, hbadq, hR.2⟩
    · rw [hmove]
      by_cases hd : d ∈ paths s
      · exact Or.inl (Nat.lt_of_lt_of_le (length_move_lt hd) hN)
      · have hname : isBad bad (rebase src d q) = true := by
          rwa [isBad, name_rebase d hR.1, ← isBad]
        refine Or.inr ⟨hpresent.tail.moved hd hsrc, _, mem_paths_move src hd hq, hname, ?_⟩
        by_cases hunder : Under src q
        · exact hpresent.tail.not_mem hd hroot (under_rebase d hunder)
        · rw [rebase_of_not_under hunder]
          exact hR.2

theorem step_cases (hpresent : Present (src :: R) s) (hbad : isBad bad src = true)
    (hsrc : ∀ p ∈ R, ¬Under src p) :
    Lost bad s.length R (mv src (target r src) s) ∨
      (target r src ∉ paths s ∧ isBad bad (target r src) = false) := by
  have hmem : src ∈ paths s :=
    (hpresent src (List.mem_cons_self ..) src (Under.refl src)).resolve_left (ne_root_of_isBad hbad)
  rcases mv_moves r s hbad with hsame | ⟨d, hmove, hroot, hd⟩
  · left
    rw [hsame]
    exact Or.inr ⟨hpresent.tail, src, hmem, hbad, fun h => hsrc src h (Under.refl src)⟩
  · by_cases hfree : d ∈ paths s
    · left
      rw [hmove]
      exact Or.inl (length_move_lt hfree)
    · have hnew := mem_paths_move src hfree hmem
      rw [rebase_self] at hnew
      have hR := hpresent.tail.not_mem hfree hroot (Under.refl d)
      cases hname : isBad bad d with
      | true =>
        left
        rw [hmove]
        exact Or.inr ⟨hpresent.tail.moved hfree hsrc, d, hnew, hname, hR⟩
      | false =>
        have htarget : d = target r src := hd.resolve_right (by simp [hname])
        subst htarget
        exact Or.inr ⟨hfree, hname⟩

theorem lost_pass (h : Lost bad N R s) (hN : s.length ≤ N) (hbad : ∀ p ∈ R, isBad bad p = true)
    (horder : R.Pairwise fun p q => ¬Under p q) : Lost bad N [] (pass r s R) := by
  induction R generalizing s with
  | nil => exact h
  | cons src R ih =>
    obtain ⟨hsrc, horder⟩ := List.pairwise_cons.1 horder
    exact ih (lost_step h hN (hbad src (List.mem_cons_self ..)) hsrc)
      (Nat.le_trans (length_mv_le ..) hN) (fun p hp => hbad p (List.mem_cons_of_mem src hp)) horder

/-- The entries of `s₀`, those in `D` under their new names. -/
structure Done (r : ν → ν) (s₀ : Entries ν φ) (D : List (Path ν)) (s : Entries ν φ) : Prop where
  entries : s = s₀.map fun e => (renamed r D e.1, e.2)
  injective : ∀ p q, (p = root ∨ p ∈ paths s₀) → (q = root ∨ q ∈ paths s₀) →
    renamed r D p = renamed r D q → p = q

theorem renamed_of_not_under (h : ∀ d ∈ D, ¬Under d p) : renamed r D p = p := by
  induction p with
  | root => rfl
  | child p n ih =>
    have hself : child p n ∉ D := fun hmem => h _ hmem (Under.refl _)
    rw [renamed, if_neg hself, ih fun d hd hp => h d hd (Or.inr hp)]

theorem Done.mem_paths (h : Done r s₀ D s) : q ∈ paths s ↔ ∃ p ∈ paths s₀, renamed r D p = q := by
  rw [h.entries, paths, paths, List.map_map]
  simp

theorem Done.lookup_eq (h : Done r s₀ D s) (hp : p = root ∨ p ∈ paths s₀)
    (hD : ∀ d ∈ D, ¬Under d p) : lookup s p = lookup s₀ p := by
  have hself : renamed r D p = p := renamed_of_not_under hD
  have hsame : ∀ e ∈ s₀, decide (renamed r D e.1 = p) = decide (e.1 = p) := by
    intro e he
    rw [decide_eq_decide]
    refine ⟨fun heq => ?_, fun heq => by rw [heq, hself]⟩
    exact h.injective e.1 p (Or.inr (List.mem_map.2 ⟨e, he, rfl⟩)) hp (heq.trans hself.symm)
  rw [FileTree.lookup, FileTree.lookup, h.entries, List.find?_map, Option.map_map]
  simp only [Function.comp_def]
  rw [List.find?_congr hsame]

theorem Done.present (hs : Listed s₀) (h : Done r s₀ D s) (hR : ∀ p ∈ R, p ∈ paths s₀)
    (hD : ∀ d ∈ D, ∀ p ∈ R, ¬Under d p) : Present R s := by
  intro p hp a ha
  rcases hs.ancestor (Or.inr (hR p hp)) ha with hroot | hmem
  · exact Or.inl hroot
  · right
    rw [h.mem_paths]
    exact ⟨a, hmem, renamed_of_not_under fun d hd hda => hD d hd p hp (hda.trans ha)⟩

theorem Done.rebased (hs : Listed s₀) (h : Done r s₀ D s) (hsrc : src ∈ paths s₀)
    (hD : ∀ d ∈ D, ¬Under d src) (hp : p = root ∨ p ∈ paths s₀) :
    rebase src (target r src) (renamed r D p) = renamed r (src :: D) p := by
  have hself : renamed r D src = src := renamed_of_not_under hD
  induction p with
  | root =>
    have hroot : root ≠ src := fun heq => hs.below (heq ▸ hsrc)
    rw [renamed, renamed, Path.rebase, if_neg hroot]
  | child p n ih =>
    have hchild := hp.resolve_left (by simp)
    by_cases heq : child p n = src
    · have hparent : ∀ d ∈ src :: D, ¬Under d p := by
        intro d hd hunder
        rcases List.mem_cons.1 hd with rfl | hd
        · exact not_under_parent p n (heq ▸ hunder)
        · exact hD d hd (heq ▸ Or.inr hunder)
      rw [heq, hself, rebase_self, ← heq, target, renamed, heq, if_pos (List.mem_cons_self ..),
        renamed_of_not_under hparent]
    · have hne : renamed r D (child p n) ≠ src := by
        intro hbad
        exact heq (h.injective _ _ hp (Or.inr hsrc) (hbad.trans hself.symm))
      rw [renamed] at hne
      rw [renamed, renamed, Path.rebase, if_neg hne, ih (hs.parent hchild)]
      simp [List.mem_cons, heq]

theorem Done.name_ne (h : Done r s₀ D s) (hD : ∀ d ∈ D, ¬Under d (child p n))
    (hfree : child p (r n) ∉ paths s) (hm : child p m ∈ paths s₀) :
    (if child p m ∈ D then r m else m) ≠ r n := by
  intro hname
  apply hfree
  rw [h.mem_paths]
  refine ⟨child p m, hm, ?_⟩
  rw [renamed, hname, renamed_of_not_under fun d hd hunder => hD d hd (Or.inr hunder)]

theorem Done.moved (hs : Listed s₀) (h : Done r s₀ D s) (hsrc : src ∈ paths s₀)
    (hD : ∀ d ∈ D, ¬Under d src) (hfree : target r src ∉ paths s) :
    Done r s₀ (src :: D) (move src (target r src) s) where
  entries := by
    rw [move_of_not_mem hfree, h.entries, List.map_map, List.map_inj_left]
    intro e he
    have hmem : e.1 ∈ paths s₀ := List.mem_map.2 ⟨e, he, rfl⟩
    simp only [Function.comp_apply, h.rebased hs hsrc hD (Or.inr hmem)]
  injective := by
    intro p
    induction p with
    | root =>
      intro q _ _ heq
      cases q with
      | root => rfl
      | child q m => simp [renamed] at heq
    | child p n ih =>
      intro q hp hq heq
      cases q with
      | root => simp [renamed] at heq
      | child q m =>
        obtain ⟨hparent, hname⟩ := Path.child.inj heq
        have hn := hp.resolve_left (by simp)
        have hm := hq.resolve_left (by simp)
        obtain rfl : p = q := ih q (hs.parent hn) (hs.parent hm) hparent
        by_cases hpn : child p n = src
        · by_cases hpm : child p m = src
          · rw [hpn, hpm]
          · subst hpn
            have hne := h.name_ne hD hfree hm
            simp only [List.mem_cons, hpm, true_or, false_or, if_true] at hname
            exact absurd hname.symm hne
        · by_cases hpm : child p m = src
          · subst hpm
            have hne := h.name_ne hD hfree hn
            simp only [List.mem_cons, hpn, true_or, false_or, if_true] at hname
            exact absurd hname hne
          · simp only [List.mem_cons, hpn, hpm, false_or] at hname
            apply h.injective _ _ hp hq
            rw [renamed, renamed, hname]

theorem Done.step (hs : Listed s₀) (h : Done r s₀ D s) (hsrc : src ∈ paths s₀)
    (hD : ∀ d ∈ D, ¬Under d src) (hbad : isBad bad src = true)
    (hfree : target r src ∉ paths s) (hgood : isBad bad (target r src) = false) :
    Done r s₀ (src :: D) (mv src (target r src) s) := by
  have hmoved := h.moved hs hsrc hD hfree
  cases src with
  | root => exact absurd rfl (ne_root_of_isBad hbad)
  | child p n =>
    have hname : n ≠ r n := by
      intro heq
      rw [target, ← heq, hbad] at hgood
      cases hgood
    have hmem : child p n ∈ paths s := h.mem_paths.2 ⟨_, hsrc, renamed_of_not_under hD⟩
    have hparent : lookup s p = some .dir := by
      rw [h.lookup_eq (hs.parent hsrc) fun d hd hp => hD d hd (Or.inr hp), hs.parents p n hsrc]
    rwa [target, mv_fresh hname hmem hparent hfree]

theorem pass_cases (hs : Listed s₀) (h : Done r s₀ D s) (hR : ∀ p ∈ R, p ∈ paths s₀)
    (hbad : ∀ p ∈ R, isBad bad p = true) (horder : R.Pairwise fun p q => ¬Under p q)
    (hD : ∀ d ∈ D, ∀ p ∈ R, ¬Under d p) :
    Lost bad s₀.length [] (pass r s R) ∨
      (Done r s₀ (R.reverse ++ D) (pass r s R) ∧ ∀ p ∈ R, isBad bad (target r p) = false) := by
  induction R generalizing D s with
  | nil => exact Or.inr ⟨h, by simp⟩
  | cons src R ih =>
    have hlen : s.length = s₀.length := by rw [h.entries, List.length_map]
    have hDsrc : ∀ d ∈ D, ¬Under d src := fun d hd => hD d hd src (List.mem_cons_self ..)
    have hpresent := h.present hs hR hD
    rw [List.forall_mem_cons] at hR hbad
    rw [List.pairwise_cons] at horder
    rcases step_cases (r := r) hpresent hbad.1 horder.1 with hlost | ⟨hfree, hgood⟩
    · have hle := length_mv_le src (target r src) s
      rw [hlen] at hlost hle
      have hend := lost_pass (r := r) hlost hle hbad.2 horder.2
      exact Or.inl hend
    · have hdone := h.step hs hR.1 hDsrc hbad.1 hfree hgood
      have hrest : ∀ d ∈ src :: D, ∀ p ∈ R, ¬Under d p := by
        rw [List.forall_mem_cons]
        exact ⟨horder.1, fun d hd p hp => hD d hd p (List.mem_cons_of_mem src hp)⟩
      rcases ih hdone hR.2 hbad.2 horder.2 hrest with hlost | ⟨hend, hgoods⟩
      · exact Or.inl hlost
      · right
        rw [List.reverse_cons, List.append_assoc, List.singleton_append, List.forall_mem_cons]
        exact ⟨hend, hgood, hgoods⟩

def Renameable (bad : ν → Bool) (r : ν → ν) (s : Entries ν φ) : Prop :=
  (∀ p n, child p n ∈ paths s → bad n = true → bad (r n) = false) ∧ Separate r s

/-- Where no two names become one, every new name is free when its turn comes. -/
theorem Done.free (hs : Listed s₀) (h : Done r s₀ D s) (hsrc : src ∈ paths s₀)
    (hD : ∀ d ∈ D, ¬Under d src) (hbad : isBad bad src = true) (hok : Renameable bad r s₀)
    (hkeep : ∀ n, bad n = false → r n = n) : target r src ∉ paths s := by
  cases src with
  | root => exact absurd rfl (ne_root_of_isBad hbad)
  | child p n =>
    rw [target, h.mem_paths]
    rintro ⟨q, hq, heq⟩
    cases q with
    | root => simp [renamed] at heq
    | child q m =>
      have hself : renamed r D p = p := renamed_of_not_under fun d hd hp => hD d hd (Or.inr hp)
      obtain ⟨hparent, hname⟩ := Path.child.inj heq
      obtain rfl : q = p :=
        h.injective q p (hs.parent hq) (hs.parent hsrc) (hparent.trans hself.symm)
      by_cases hm : child q m ∈ D
      · rw [if_pos hm] at hname
        have hnm : m = n := hok.2 q m n hq hsrc hname
        exact hD _ hm (hnm ▸ Under.refl _)
      · rw [if_neg hm] at hname
        have hgood : bad m = false := hname ▸ hok.1 q n hsrc hbad
        have hnm : m = n := hok.2 q m n hq hsrc ((hkeep m hgood).trans hname)
        rw [hnm] at hgood
        exact Bool.noConfusion (hgood.symm.trans hbad)

theorem pass_done (hs : Listed s₀) (h : Done r s₀ D s) (hR : ∀ p ∈ R, p ∈ paths s₀)
    (hbad : ∀ p ∈ R, isBad bad p = true) (horder : R.Pairwise fun p q => ¬Under p q)
    (hD : ∀ d ∈ D, ∀ p ∈ R, ¬Under d p) (hok : Renameable bad r s₀)
    (hkeep : ∀ n, bad n = false → r n = n) : Done r s₀ (R.reverse ++ D) (pass r s R) := by
  induction R generalizing D s with
  | nil => exact h
  | cons src R ih =>
    have hDsrc : ∀ d ∈ D, ¬Under d src := fun d hd => hD d hd src (List.mem_cons_self ..)
    rw [List.forall_mem_cons] at hR hbad
    rw [List.pairwise_cons] at horder
    have hfree := h.free hs hR.1 hDsrc hbad.1 hok hkeep
    have hgood : isBad bad (target r src) = false := by
      cases src with
      | root => rfl
      | child p n => exact hok.1 p n hR.1 hbad.1
    have hrest : ∀ d ∈ src :: D, ∀ p ∈ R, ¬Under d p := by
      rw [List.forall_mem_cons]
      exact ⟨horder.1, fun d hd p hp => hD d hd p (List.mem_cons_of_mem src hp)⟩
    rw [List.reverse_cons, List.append_assoc, List.singleton_append]
    exact ih (h.step hs hR.1 hDsrc hbad.1 hfree hgood) hR.2 hbad.2 horder.2 hrest

theorem sources_order (bad : ν → Bool) (hs : Listed s) :
    (sources bad s).reverse.Pairwise fun p q => ¬Under p q := by
  rw [List.pairwise_reverse]
  exact (List.pairwise_map.2 hs.order).filter (isBad bad)

theorem done_nil (r : ν → ν) (s : Entries ν φ) : Done r s [] s where
  entries := by
    have hself : ∀ p : Path ν, renamed r [] p = p := fun p =>
      renamed_of_not_under fun d hd => absurd hd List.not_mem_nil
    simp [hself]
  injective := by
    have hself : ∀ p : Path ν, renamed r [] p = p := fun p =>
      renamed_of_not_under fun d hd => absurd hd List.not_mem_nil
    intro p q _ _ heq
    rwa [hself, hself] at heq

theorem renamed_sources (hkeep : ∀ n, bad n = false → r n = n) (hp : child p n ∈ paths s) :
    renamed r (sources bad s) (child p n) = child (renamed r (sources bad s) p) (r n) := by
  rw [renamed]
  split_ifs with hmem
  · rfl
  · rw [mem_sources, not_and, Bool.not_eq_true] at hmem
    rw [hkeep n (hmem hp)]

theorem renamePass_iff (hs : Listed s) (hkeep : ∀ n, bad n = false → r n = n) :
    Complete bad (renamePass bad r s) ∧ (renamePass bad r s).length = s.length ↔
      Renameable bad r s := by
  have hR : ∀ p ∈ (sources bad s).reverse, p ∈ paths s ∧ isBad bad p = true := by
    intro p hp
    exact mem_sources.1 (List.mem_reverse.1 hp)
  have horder := sources_order bad hs
  constructor
  · rintro ⟨hcomplete, hlength⟩
    rcases pass_cases hs (done_nil r s) (fun p hp => (hR p hp).1) (fun p hp => (hR p hp).2) horder
      (by simp) with hlost | ⟨hdone, hgoods⟩
    · rcases hlost with hlt | ⟨-, q, hq, hbad, -⟩
      · exact absurd hlength (Nat.ne_of_lt hlt)
      · exact Bool.noConfusion ((hcomplete q hq).symm.trans hbad)
    · rw [List.reverse_reverse, List.append_nil] at hdone
      refine ⟨fun p n hp hbad => ?_, fun p n m hn hm heq => ?_⟩
      · exact hgoods (child p n) (List.mem_reverse.2 (mem_sources.2 ⟨hp, hbad⟩))
      · have hsame := hdone.injective _ _ (Or.inr hn) (Or.inr hm)
          (by rw [renamed_sources hkeep hn, renamed_sources hkeep hm, heq])
        exact (Path.child.inj hsame).2
  · intro hok
    have hdone := pass_done hs (done_nil r s) (fun p hp => (hR p hp).1) (fun p hp => (hR p hp).2)
      horder (by simp) hok hkeep
    rw [List.reverse_reverse, List.append_nil] at hdone
    refine ⟨fun q hq => ?_, ?_⟩
    · obtain ⟨p, hp, rfl⟩ := hdone.mem_paths.1 hq
      cases p with
      | root => exact absurd hp hs.below
      | child p n =>
        rw [renamed_sources hkeep hp]
        cases hn : bad n with
        | true => exact hok.1 p n hp hn
        | false => exact (congrArg bad (hkeep n hn)).trans hn
    · rw [renamePass, hdone.entries, List.length_map]

end MyScripts.Library.RenamePass
