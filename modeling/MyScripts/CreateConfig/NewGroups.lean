import MyScripts.CreateConfig.Schemes

/-!
# Schemes of new groups

`combnm` accepts a scheme as soon as fewer nodes are left than the smallest
combination needs; it does not ask whether the scheme needs more nodes than
there are.
-/
namespace MyScripts.CreateConfig
open Library.SumOfProducts Library.Exceptions

variable {ι : Type} {g : Globals} {ts : List (List ℕ)} {a i : ℕ}

theorem run_evaluate (hts : ts ≠ []) (h : ∀ fs ∈ ts, fs ≠ []) :
    (evaluate (text ts)).run g = .ok (value ts) g := by
  rw [evaluate, eval_text hts h]
  rfl

@[simp]
theorem run_item_zero {α : Type} (x : α) (l : List α) : (item (x :: l) 0).run g = .ok x g := rfl

theorem spec_item {σ α : Type} {I : σ → Prop} (l : List α) (i : ℕ) :
    Spec I (item l i : EStateM PyError σ α) fun _ => True := by
  rw [item]
  split
  · exact Spec.pure trivial
  · exact Spec.throw _

theorem extend_text (h : ∀ fs ∈ ts, fs ≠ []) : extend (text ts) a i = text (ts ++ [[a, i]]) := by
  have hproduct : product [a, i] = Library.Decimal.printNat a ++ '*' :: Library.Decimal.printNat i := by
    simp [product]
  rw [extend]
  split_ifs with hnil
  · rw [(text_eq_nil h).1 hnil, ← hproduct]
    simp [text]
  · have hts : ts ≠ [] := fun hts => hnil ((text_eq_nil h).2 hts)
    rw [text_concat hts, hproduct, List.append_assoc, List.cons_append]

theorem concat_ne_nil (h : ∀ fs ∈ ts, fs ≠ []) : ∀ fs ∈ ts ++ [[a, i]], fs ≠ [] := by
  simpa [or_imp, forall_and] using h

theorem extend_ne_nil (c : List Char) : extend c a i ≠ [] := by
  rw [extend]
  split_ifs
  · simp
  · simp

theorem run_evaluate_extend (h : ∀ fs ∈ ts, fs ≠ []) :
    (evaluate (extend (text ts) a i)).run g = .ok (value ts + a * i) g := by
  rw [extend_text h, run_evaluate (by simp) (concat_ne_nil h), value_append]
  simp

def Globals.add (g : Globals) (l : List Scheme) : Globals :=
  { g with schemelist := g.schemelist ++ l }

@[simp]
theorem add_nil : g.add [] = g := by
  simp [Globals.add]

@[simp]
theorem add_add (l l' : List Scheme) : (g.add l).add l' = g.add (l ++ l') := by
  simp [Globals.add]

@[simp]
theorem run_append (s : Scheme) : (append s).run g = .ok () (g.add [s]) := rfl

theorem run_loop_add {body : ι → Py (Flow Unit)} {out : ι → List Scheme} {is : List ι}
    (h : ∀ i ∈ is, ∀ g, (body i).run g = .ok (.next ()) (g.add (out i))) :
    (loop (fun _ => body) () is).run g = .ok (.next ()) (g.add (is.flatMap out)) := by
  induction is generalizing g with
  | nil => simp
  | cons i is ih =>
    have hfirst := h i List.mem_cons_self g
    rw [loop_cons_next hfirst, ih fun j hj => h j (List.mem_cons_of_mem i hj)]
    simp

variable {minnm nn s b t disknum : ℕ} {as bs tl v : List ℕ} {l : List (ℕ × ℕ)}

/-- The numbers of groups in the schemes that begin with `s` nodes in use, for the sizes and the
largest numbers of groups of the combinations that are left. -/
def newGroups (minnm nn : ℕ) : List (ℕ × ℕ) → ℕ → List (List ℕ)
  | [], _ => []
  | (t, b) :: l, s =>
    if 0 < s + t * b ∧ nn < s + t * b + minnm then [[b]]
    else (downTo b).flatMap fun i => (newGroups minnm nn l (s + t * i)).map (i :: ·)

def terms (tl v : List ℕ) : List (List ℕ) := List.zipWith (fun t i => [t, i]) tl v

def newGroupSchemes (minnm nn : ℕ) (ts : List (List ℕ)) (as bs : List ℕ) : List Scheme :=
  (newGroups minnm nn (as.zip bs) (value ts)).map fun v => (0, text (ts ++ terms as v))

theorem mem_downTo {b : ℕ} : i ∈ downTo b ↔ i ≤ b := by
  rw [downTo, List.mem_reverse, List.mem_range]
  omega

theorem downTo_succ (b : ℕ) : ∃ l, downTo b = b :: l := by
  have hsucc : ((b : ℤ) + 1).toNat = b + 1 := by omega
  exact ⟨(List.range b).reverse, by simp [downTo, hsucc, List.range_succ]⟩

theorem accepted_mono (hi : i ≤ b) (h : 0 < s + t * i ∧ nn < s + t * i + minnm) :
    0 < s + t * b ∧ nn < s + t * b + minnm := by
  have hle := Nat.mul_le_mul_left t hi
  omega

theorem combnmRound_found (h : ∀ fs ∈ ts, fs ≠ []) (rest : List Char → Py Unit)
    (haccept : 0 < value ts + a * i ∧ nn < value ts + a * i + minnm) :
    (combnmRound minnm nn rest a (text ts) i).run g =
      .ok .done (g.add [(0, text (ts ++ [[a, i]]))]) := by
  have hcond : extend (text ts) a i ≠ [] ∧ 0 < value ts + a * i ∧
      (nn : ℤ) - ↑(value ts + a * i) < minnm :=
    ⟨extend_ne_nil _, haccept.1, by omega⟩
  simp only [combnmRound, EStateM.run_bind, run_evaluate_extend h]
  rw [if_pos hcond, EStateM.run_bind, run_append, extend_text h]
  rfl

theorem combnmRound_next (h : ∀ fs ∈ ts, fs ≠ []) {rest : List Char → Py Unit} {out : List Scheme}
    (hrefuse : ¬(0 < value ts + a * i ∧ nn < value ts + a * i + minnm))
    (hrest : (rest (text (ts ++ [[a, i]]))).run g = .ok () (g.add out)) :
    (combnmRound minnm nn rest a (text ts) i).run g = .ok (.next ()) (g.add out) := by
  have hcond : ¬(extend (text ts) a i ≠ [] ∧ 0 < value ts + a * i ∧
      (nn : ℤ) - ↑(value ts + a * i) < minnm) :=
    fun hcond => hrefuse ⟨hcond.2.1, by omega⟩
  rw [← extend_text h] at hrest
  simp only [combnmRound, EStateM.run_bind, run_evaluate_extend h]
  rw [if_neg hcond, EStateM.run_bind, hrest]
  rfl

theorem combnm_run (h : ∀ fs ∈ ts, fs ≠ []) (hlength : as.length = bs.length) :
    (combnm minnm nn 1 as bs (text ts)).run g =
      .ok () (g.add (newGroupSchemes minnm nn ts as bs)) := by
  induction as generalizing bs ts g with
  | nil => simp [combnm, newGroupSchemes, newGroups]
  | cons a as ih =>
    obtain ⟨b, bs, rfl⟩ := List.exists_cons_of_length_eq_add_one hlength.symm
    have hrest : ∀ i g, (combnm minnm nn 1 as bs (text (ts ++ [[a, i]]))).run g =
        .ok () (g.add (newGroupSchemes minnm nn (ts ++ [[a, i]]) as bs)) :=
      fun i g => ih (concat_ne_nil h) (by simpa using hlength)
    rw [combnm, newGroupSchemes, List.zip_cons_cons, newGroups]
    simp only [EStateM.run_bind, run_item_zero, List.tail_cons, if_neg (by decide : ¬1 = 2)]
    by_cases haccept : 0 < value ts + a * b ∧ nn < value ts + a * b + minnm
    · obtain ⟨l, hl⟩ := downTo_succ b
      have hround := combnmRound_found (g := g) h (combnm minnm nn 1 as bs) haccept
      rw [hl, loop_cons_done hround, if_pos haccept]
      simp [terms]
    · have hround : ∀ i ∈ downTo b, ∀ g,
          (combnmRound minnm nn (combnm minnm nn 1 as bs) a (text ts) i).run g =
            .ok (.next ()) (g.add (newGroupSchemes minnm nn (ts ++ [[a, i]]) as bs)) := by
        intro i hi g
        refine combnmRound_next h (fun hi' => ?_) (hrest i g)
        exact haccept (accepted_mono (mem_downTo.1 hi) hi')
      rw [run_loop_add hround, if_neg haccept]
      simp [newGroupSchemes, terms, List.map_flatMap, value_append, Function.comp_def]

theorem combnm_run_nil (hlength : as.length = bs.length) :
    (combnm minnm nn 1 as bs []).run g = .ok () (g.add (newGroupSchemes minnm nn [] as bs)) :=
  combnm_run (List.forall_mem_nil _) hlength

def used (tl v : List ℕ) : ℕ := (List.zipWith (· * ·) tl v).sum

@[simp]
theorem used_cons : used (t :: tl) (i :: v) = t * i + used tl v := by
  simp [used]

theorem value_terms (tl v : List ℕ) : value (terms tl v) = used tl v := by
  simp [value, terms, used, List.map_zipWith]

def Fits (minnm nn : ℕ) (total : ℕ) : Prop := 0 < total ∧ total ≤ nn ∧ nn < total + minnm

def tg (nn disknum : ℕ) (tl : List ℕ) : List ℕ := tl.map fun t => nn * disknum / t

/-- With one group of the first size in use, the next size that fits uses too many nodes. -/
theorem exists_overcommitted (hpos : ∀ t ∈ tl, 0 < t) (hs : nn < 2 * s) (hleft : s + minnm ≤ nn)
    (hfit : ∃ t ∈ tl, t ≤ nn) :
    ∃ v ∈ newGroups minnm nn (tl.zip (tg nn 1 tl)) s, nn < s + used tl v := by
  induction tl with
  | nil => simp at hfit
  | cons t tl ih =>
    have ht := hpos t List.mem_cons_self
    rw [tg, List.map_cons, List.zip_cons_cons, newGroups, Nat.mul_one]
    by_cases hle : t ≤ nn
    · have hmod := Nat.mod_lt nn ht
      have hdiv := Nat.div_add_mod nn t
      have hpos : 1 ≤ nn / t := (Nat.one_le_div_iff ht).2 hle
      have hmul := Nat.mul_le_mul_left t hpos
      rw [if_pos (by omega)]
      refine ⟨[nn / t], List.mem_singleton_self _, ?_⟩
      simp only [used, List.zipWith_cons_cons, List.zipWith_nil_right, List.sum_singleton]
      omega
    · have hzero : nn / t = 0 := Nat.div_eq_of_lt (Nat.lt_of_not_le hle)
      rw [hzero, Nat.mul_zero, if_neg (by omega)]
      have hfit' : ∃ t ∈ tl, t ≤ nn := by simpa [hle] using hfit
      obtain ⟨v, hv, hmore⟩ := ih (fun t ht => hpos t (List.mem_cons_of_mem _ ht)) hfit'
      refine ⟨0 :: v, ?_, by simpa using hmore⟩
      simpa [downTo, tg] using hv

theorem newGroups_skip (h : nn * disknum < t) :
    newGroups minnm nn ((t :: tl).zip (tg nn disknum (t :: tl))) 0 =
      (newGroups minnm nn (tl.zip (tg nn disknum tl)) 0).map (0 :: ·) := by
  have hzero : nn * disknum / t = 0 := Nat.div_eq_of_lt h
  simp [tg, newGroups, hzero, downTo]

/-- Nothing is created, or the sizes are in nodes and the first one that fits leaves too few. -/
def Exact (minnm nn disknum : ℕ) (tl : List ℕ) : Prop :=
  (∀ t ∈ tl, nn * disknum < t) ∨ (disknum = 1 ∧ ∃ t ∈ tl.find? (· ≤ nn), nn % t < minnm)

theorem exact_cons_of_lt (hdisknum : 1 ≤ disknum) (h : nn * disknum < t) :
    Exact minnm nn disknum (t :: tl) ↔ Exact minnm nn disknum tl := by
  have hle := Nat.le_mul_of_pos_right nn hdisknum
  have hfind : ¬t ≤ nn := by omega
  simp [Exact, h, hfind]

theorem exact_cons_of_le (h : t ≤ nn * disknum) :
    Exact minnm nn disknum (t :: tl) ↔ disknum = 1 ∧ nn % t < minnm := by
  constructor
  · rintro (hall | ⟨rfl, x, hx, hmod⟩)
    · have ht := hall t List.mem_cons_self
      omega
    · rw [Nat.mul_one] at h
      simp only [List.find?_cons, h, decide_true, Option.mem_def, Option.some.injEq] at hx
      exact ⟨rfl, hx ▸ hmod⟩
  · rintro ⟨rfl, hmod⟩
    rw [Nat.mul_one] at h
    exact .inr ⟨rfl, t, by simp [h], hmod⟩

theorem fits_iff_of_one (hpos : ∀ x ∈ t :: tl, 0 < x) (hle : t ≤ nn)
    (hmin : minnm ≤ nn → minnm ∈ t :: tl) :
    (∀ v ∈ newGroups minnm nn ((t :: tl).zip (tg nn 1 (t :: tl))) 0,
      Fits minnm nn (used (t :: tl) v)) ↔ nn % t < minnm := by
  have ht := hpos t List.mem_cons_self
  have hmod := Nat.mod_lt nn ht
  have hdiv := Nat.div_add_mod nn t
  have hmul := Nat.mul_le_mul_left t ((Nat.one_le_div_iff ht).2 hle)
  rw [tg, List.map_cons, ← tg, List.zip_cons_cons, newGroups]
  simp only [Nat.mul_one, Nat.zero_add] at hmul ⊢
  by_cases hexact : nn % t < minnm
  · rw [if_pos (by omega)]
    simp [used, Fits, hexact]
    omega
  · -- the largest number of groups is refused, and a later combination fits
    have hmem : minnm ∈ tl := by
      rcases List.mem_cons.1 (hmin (by omega)) with rfl | hmem
      · omega
      · exact hmem
    have hhalf : nn < 2 * (t * (nn / t)) := by omega
    have hleft : t * (nn / t) + minnm ≤ nn := by omega
    obtain ⟨v, hv, hmore⟩ := exists_overcommitted
      (fun x hx => hpos x (List.mem_cons_of_mem t hx)) hhalf hleft ⟨minnm, hmem, by omega⟩
    rw [if_neg (by omega)]
    refine iff_of_false (fun hall => ?_) hexact
    have hfits := hall (nn / t :: v) (List.mem_flatMap.2
      ⟨nn / t, mem_downTo.2 (Nat.le_refl _), List.mem_map_of_mem hv⟩)
    rw [used_cons] at hfits
    exact Nat.not_le.2 hmore hfits.2.1

theorem not_fits_of_two (ht : 0 < t) (hle : t ≤ nn * disknum) (htwo : 2 ≤ disknum) :
    ¬∀ v ∈ newGroups minnm nn ((t :: tl).zip (tg nn disknum (t :: tl))) 0,
      Fits minnm nn (used (t :: tl) v) := by
  have hmod := Nat.mod_lt (nn * disknum) ht
  have hdiv := Nat.div_add_mod (nn * disknum) t
  have hmul := Nat.mul_le_mul_left t ((Nat.one_le_div_iff ht).2 hle)
  have hmore : nn * 2 ≤ nn * disknum := Nat.mul_le_mul_left nn htwo
  rw [tg, List.map_cons, ← tg, List.zip_cons_cons, newGroups, if_pos (by omega)]
  intro hall
  have hfits := (hall [nn * disknum / t] (List.mem_singleton_self _)).2.1
  simp only [used, List.zipWith_cons_cons, List.zipWith_nil_right, List.sum_singleton] at hfits
  omega

theorem newGroups_fits_iff (hpos : ∀ t ∈ tl, 0 < t) (hdisknum : 1 ≤ disknum)
    (hmin : minnm ≤ nn → minnm ∈ tl) :
    (∀ v ∈ newGroups minnm nn (tl.zip (tg nn disknum tl)) 0, Fits minnm nn (used tl v)) ↔
      Exact minnm nn disknum tl := by
  induction tl with
  | nil => simp [newGroups, Exact]
  | cons t tl ih =>
    by_cases hlt : nn * disknum < t
    · have hle := Nat.le_mul_of_pos_right nn hdisknum
      have hmin' : minnm ≤ nn → minnm ∈ tl := by
        intro hnn
        rcases List.mem_cons.1 (hmin hnn) with rfl | hmem
        · omega
        · exact hmem
      have hpos' : ∀ t ∈ tl, 0 < t := fun x hx => hpos x (List.mem_cons_of_mem t hx)
      rw [exact_cons_of_lt hdisknum hlt, newGroups_skip hlt, ← ih hpos' hmin']
      simp
    · have hle := Nat.le_of_not_lt hlt
      rw [exact_cons_of_le hle]
      by_cases hone : disknum = 1
      · subst hone
        rw [Nat.mul_one] at hle
        rw [fits_iff_of_one hpos hle hmin, and_iff_right rfl]
      · refine iff_of_false (not_fits_of_two (hpos t List.mem_cons_self) hle ?_) fun h => hone h.1
        omega

def Sound (minnm nn : ℕ) (tl : List ℕ) (s : Scheme) : Prop :=
  ∃ v, s = (0, text (terms tl v)) ∧ Fits minnm nn (used tl v)

theorem terms_ne_nil (tl v : List ℕ) : ∀ fs ∈ terms tl v, fs ≠ [] := by
  induction tl generalizing v with
  | nil => simp [terms]
  | cons t tl ih =>
    cases v with
    | nil => simp [terms]
    | cons i v => simpa [terms] using ih v

theorem eval_terms (tl v : List ℕ) : used tl v = ((eval (text (terms tl v))).getD 0) := by
  by_cases hnil : terms tl v = []
  · rw [← value_terms, hnil]
    rfl
  · rw [eval_text hnil (terms_ne_nil tl v), value_terms, Option.getD_some]

theorem sound_terms : Sound minnm nn tl (0, text (terms tl v)) ↔ Fits minnm nn (used tl v) := by
  constructor
  · rintro ⟨w, hw, hfits⟩
    rw [eval_terms, (Prod.mk.inj hw).2, ← eval_terms]
    exact hfits
  · intro hfits
    exact ⟨v, rfl, hfits⟩

theorem tglist_run (hpos : ∀ t ∈ tl, 0 < t) :
    (tglist nn disknum tl).run g = .ok (tg nn disknum tl) g := by
  induction tl with
  | nil => rfl
  | cons t tl ih =>
    have hrest := ih fun x hx => hpos x (List.mem_cons_of_mem t hx)
    rw [tglist] at hrest
    rw [tglist, List.mapM_cons, if_neg (hpos t List.mem_cons_self).ne', pure_bind,
      EStateM.run_bind, hrest]
    rfl

theorem tglist_run_zero (h : 0 ∈ tl) :
    (tglist nn disknum tl).run g = .error .zeroDivisionError g := by
  induction tl with
  | nil => simp at h
  | cons t tl ih =>
    rw [tglist, List.mapM_cons]
    by_cases ht : t = 0
    · rw [if_pos ht]
      rfl
    · have hrest := ih (by simpa [Ne.symm ht] using h)
      rw [tglist] at hrest
      rw [if_neg ht, pure_bind, EStateM.run_bind, hrest]

theorem tglist_ok {tgs : List ℕ} (h : (tglist nn disknum tl).run g = .ok tgs g) :
    (∀ t ∈ tl, 0 < t) ∧ tgs = tg nn disknum tl := by
  have hpos : ∀ t ∈ tl, 0 < t := by
    intro t ht
    by_contra hzero
    obtain rfl : t = 0 := Nat.eq_zero_of_not_pos hzero
    rw [tglist_run_zero ht] at h
    cases h
  rw [tglist_run hpos] at h
  cases h
  exact ⟨hpos, rfl⟩

theorem minimum_ok (h : (minimum tl).run g = .ok minnm g) : tl.min? = some minnm := by
  rw [minimum] at h
  split at h
  · cases h
    assumption
  · cases h

/-- `combnm` always comes to its end, but only exactly these plans are sound. -/
theorem combnm_sound_iff {tgs : List ℕ} (hdisknum : 1 ≤ disknum)
    (htglist : (tglist nn disknum tl).run globals = .ok tgs globals)
    (hminimum : (minimum tl).run globals = .ok minnm globals) :
    ∃ g, (combnm minnm nn 1 tl tgs []).run globals = .ok () g ∧
      ((∀ s ∈ g.schemelist, Sound minnm nn tl s) ↔ Exact minnm nn disknum tl) := by
  obtain ⟨hpos, rfl⟩ := tglist_ok htglist
  have hmin := minimum_ok hminimum
  have hmem : minnm ∈ tl := List.min?_mem hmin
  refine ⟨_, combnm_run_nil (by simp [tg]), ?_⟩
  rw [← newGroups_fits_iff hpos hdisknum fun _ => hmem]
  simp [newGroupSchemes, Globals.add, globals, sound_terms]

theorem combnm_sound_iff_fiveThree : ∃ g, (combnm 3 7 1 [5, 3] [1, 2] []).run globals = .ok () g ∧
    ∀ s ∈ g.schemelist, Sound 3 7 [5, 3] s := by
  obtain ⟨g, hrun, hiff⟩ : ∃ g, (combnm 3 7 1 [5, 3] [1, 2] []).run globals = .ok () g ∧
      ((∀ s ∈ g.schemelist, Sound 3 7 [5, 3] s) ↔ Exact 3 7 1 [5, 3]) :=
    combnm_sound_iff (by decide) rfl rfl
  exact ⟨g, hrun, hiff.2 (Or.inr ⟨rfl, 5, rfl, by decide⟩)⟩

/-- Seven nodes with a disk each, for combinations of five, four and two nodes: the first plan
needs nine. -/
theorem not_sound_nine : (tglist 7 1 [5, 4, 2]).run globals = .ok [1, 1, 3] globals ∧
    (minimum [5, 4, 2]).run globals = .ok 2 globals ∧
    ∃ g, (combnm 2 7 1 [5, 4, 2] [1, 1, 3] []).run globals = .ok () g ∧
      (0, "5*1+4*1".toList) ∈ g.schemelist ∧ ¬Sound 2 7 [5, 4, 2] (0, "5*1+4*1".toList) := by
  have htext : "5*1+4*1".toList = text (terms [5, 4, 2] [1, 1]) := by decide
  refine ⟨rfl, rfl, _, combnm_run_nil rfl, ?_, ?_⟩
  · have hfirst : [1, 1] ∈ newGroups 2 7 [(5, 1), (4, 1), (2, 3)] 0 := by decide
    rw [htext]
    simp only [newGroupSchemes, Globals.add, globals, List.nil_append]
    exact List.mem_map_of_mem hfirst
  · rw [htext, sound_terms]
    simp [Fits, used]

end MyScripts.CreateConfig
