import MyScripts.CreateConfig.DiskDemand
import MyScripts.CreateConfig.GapExpansion
import MyScripts.CreateConfig.MoveSearch

/-!
# Extensions that come to their end

The expansion of new groups always raises, and so does a number of new groups
above zero in `combnmnm`. An extension comes to its end when there are too few
new nodes for a group, a move is found or nothing can be, and the pool serves
all arrays that gain disks.
-/
namespace MyScripts.CreateConfig
open Library.SumOfProducts Library.Exceptions

variable {d pre as : List Combination} {a : Combination} {g : Globals} {s : Stock} {pool : Pool}
  {b tl bs v : List ℕ} {nn disknum minnm t i j k : ℕ} {l : List (ℕ × ℕ)} {L : Layout}
  {eccount : Option ℕ} {ecbrickinfos : Arrays}

theorem range_succ_cons (n : ℕ) : List.range (n + 1) = 0 :: List.range' 1 n := by
  rw [List.range_eq_range', List.range'_succ]

theorem text_zeros_zero (d : List Combination) : text (zeros d 0) = [] := by
  simp [zeros, terms, text]

theorem combnmnm_found (hmove : firstMove d nn = some (a, j)) (hd : d ≠ []) (hb : b ≠ [])
    (hg : g.itemchange = .list []) :
    (combnmnm d nn 1 d b []).run g = .ok () (g.add [moveScheme nn (zeros d 1) a j]) := by
  obtain ⟨a₀, as, hcons⟩ := List.exists_cons_of_ne_nil hd
  obtain ⟨b0, b, rfl⟩ := List.exists_cons_of_ne_nil hb
  have hround : ∀ rest, (combnmnmRound d nn rest a₀ [] 0).run g =
      .ok .done (g.add [moveScheme nn (zeros d 1) a j]) := by
    intro rest
    have hzeros := combnmnmRound_zeros nn (hcons.trans (List.nil_append _).symm) rest hg
    rw [List.length_nil, text_zeros_zero, hmove] at hzeros
    exact hzeros
  have hunfold : combnmnm d nn 1 d (b0 :: b) [] = combnmnm d nn 1 (a₀ :: as) (b0 :: b) [] := by
    rw [hcons]
  rw [hunfold, combnmnm]
  simp only [EStateM.run_bind, run_item_zero, if_neg (by decide : ¬1 = 2), range_succ_cons]
  rw [loop_cons_done (hround _)]
  rfl

theorem combnmnm_none (hmove : firstMove d nn = none) (hd : d = pre ++ as)
    (hlength : b.length = as.length) (hg : g.itemchange = .list []) :
    (combnmnm d nn 1 as b (text (zeros d pre.length))).run g =
      if ∀ x ∈ b, x = 0 then .ok () g else .error .attributeError g := by
  induction as generalizing pre b with
  | nil =>
    obtain rfl := List.length_eq_zero_iff.1 hlength
    simp [combnmnm, EStateM.run_pure]
  | cons a as ih =>
    obtain ⟨b0, b, rfl⟩ := List.exists_cons_of_length_eq_add_one hlength
    have hd' : d = (pre ++ [a]) ++ as := by simpa using hd
    have hrest := ih hd' (by simpa using hlength)
    rw [List.length_append, List.length_singleton] at hrest
    have hround := combnmnmRound_zeros nn hd (combnmnm d nn 1 as b) hg
    rw [hmove] at hround
    rw [combnmnm]
    simp only [EStateM.run_bind, run_item_zero, if_neg (by decide : ¬1 = 2), range_succ_cons,
      List.tail_cons]
    simp only [EStateM.run_bind, hrest] at hround
    by_cases hall : ∀ x ∈ b, x = 0
    · rw [if_pos hall] at hround
      rw [loop_cons_next hround]
      cases b0 with
      | zero => simpa using hall
      | succ n =>
        have hgain := combnmnmRound_gain nn 0 hd (combnmnm d nn 1 as b) hg
        rw [List.range'_succ, loop_cons_error hgain]
        simp
    · rw [if_neg hall] at hround
      rw [loop_cons_error hround, if_neg (by simpa using fun _ => hall)]

theorem newGroups_ne_nil (hmem : (t, i) ∈ l) (haccept : 0 < k + t * i ∧ nn < k + t * i + minnm) :
    newGroups minnm nn l k ≠ [] := by
  induction l with
  | nil => simp at hmem
  | cons p l ih =>
    obtain ⟨t', i'⟩ := p
    rw [newGroups]
    split_ifs with hfound
    · simp
    · rcases List.mem_cons.1 hmem with hhead | htail
      · cases hhead
        exact absurd haccept hfound
      · -- no group of this combination
        obtain ⟨v, hv⟩ := List.exists_mem_of_ne_nil _ (ih htail)
        have hzero : 0 :: v ∈ (newGroups minnm nn l (k + t' * 0)).map (0 :: ·) :=
          List.mem_map_of_mem (by simpa using hv)
        exact List.ne_nil_of_mem (List.mem_flatMap.2 ⟨0, mem_downTo.2 (Nat.zero_le _), hzero⟩)

theorem newGroups_positive (h : v ∈ newGroups minnm nn (tl.zip bs) k) : 0 < k + used tl v := by
  induction tl generalizing bs k v with
  | nil => simp [newGroups] at h
  | cons t tl ih =>
    cases bs with
    | nil => simp [newGroups] at h
    | cons b bs =>
      rw [List.zip_cons_cons, newGroups] at h
      split_ifs at h with hfound
      · obtain rfl := List.mem_singleton.1 h
        simpa [used] using hfound.1
      · obtain ⟨i, -, hi⟩ := List.mem_flatMap.1 h
        obtain ⟨w, hw, rfl⟩ := List.mem_map.1 hi
        have hpositive := ih hw
        rw [used_cons]
        omega

theorem used_of_grown (h : grown d v = []) : used (tlist d) v = 0 := by
  rw [grown, List.map_eq_nil_iff] at h
  induction d generalizing v with
  | nil => simp [used, tlist]
  | cons nm d ih =>
    cases v with
    | nil => simp [used]
    | cons i v =>
      rw [List.zip_cons_cons, List.filter_cons] at h
      split_ifs at h with hi
      have hzero : i = 0 := by simpa using hi
      have hrest := ih h
      rw [tlist] at hrest
      rw [tlist, List.map_cons, used_cons, hzero, hrest, Nat.mul_zero]

theorem expandNew_error (hv : 0 < used (tlist d) v) :
    ∃ e s', (expandNew d (text (terms (tlist d) v))).run s = .error e s' := by
  have hterms : terms (tlist d) v ≠ [] := by
    intro hnil
    rw [← value_terms, hnil] at hv
    exact absurd hv (by simp)
  have htext : text (terms (tlist d) v) ≠ [] :=
    fun h => hterms ((text_eq_nil (terms_ne_nil _ _)).1 h)
  obtain ⟨nm, items, hitems⟩ := List.exists_cons_of_ne_nil fun h => hv.ne' (used_of_grown h)
  refine ⟨.typeError, s, ?_⟩
  simp only [expandNew, if_neg htext, EStateM.run_bind, splitOn_text hterms, newItems_run, hitems]
  rfl

theorem disknum_pos (hpool : Stocked pool) (hkeys : pool.keys ≠ []) : 0 < pool.disknum := by
  have hentries : pool.entries.map (fun e => e.2.length) ≠ [] := by
    intro h
    exact hkeys (by rw [AList.keys, List.keys, List.map_eq_nil_iff.1 h, List.map_nil])
  obtain ⟨x, hx⟩ := Option.isSome_iff_exists.1 (List.isSome_min?_of_ne_nil hentries)
  obtain ⟨e, he, hlength⟩ := List.mem_map.1 (List.min?_mem hx)
  rw [Pool.disknum, hx, Option.getD_some, ← hlength, List.length_pos_iff]
  intro hnil
  obtain ⟨node, ds⟩ := e
  cases hnil
  exact hpool node (AList.mem_lookup_iff.2 he)

def pairDemands (d : List Combination) (v : List ℕ) : List ℕ :=
  (gained d v).flatMap fun x => List.replicate x.2 (gapMove d x).gap.toNat

def gapDemands (d : List Combination) (nn : ℕ) : List ℕ :=
  (gapCounts nn (gaplist d) (counts d) none).flatMap (pairDemands d)

def moveDemands (d : List Combination) (nn : ℕ) : List ℕ :=
  (firstMove d nn).elim [] fun (_, j) => List.replicate j (nn / j)

theorem Layout.length_sources (L : Layout) {nm : Combination} (hnm : nm ∈ L.nmlist) {move : Move}
    (hmove : move.n + move.m = nm.n + nm.m) :
    (sources L.ecbrickinfos move (sortedArrays L.ecbrickinfos)).length = nm.count := by
  rw [L.counted nm hnm, sources, hmove]
  exact ((List.perm_insertionSort _ _).filter _).length_eq

theorem demands_expandGap (L : Layout)
    (hv : v ∈ gapCounts nn (gaplist L.nmlist) (counts L.nmlist) none) :
    Demands (expandGap L.nmlist L.ecbrickinfos (text (terms ((gaplist L.nmlist).map (·.gap)) v)))
      (pairDemands L.nmlist v) fun _ => True := by
  obtain ⟨hlength, hbound⟩ := gapCounts_bounded hv
  have hne := gapCounts_ne_nil hv
  have hgaplist : gaplist L.nmlist ≠ [] := by
    intro hnil
    rw [hnil] at hlength
    exact hne (List.length_eq_zero_iff.1 (Nat.le_zero.1 hlength))
  have hmoves : Demands (((gained L.nmlist v).map (gapMove L.nmlist)).forM
      (extendArrays L.ecbrickinfos)) (((gained L.nmlist v).map (gapMove L.nmlist)).flatMap
        fun move => List.replicate move.count move.gap.toNat) fun _ => True := by
    apply Demands.forM
    intro move hmove
    obtain ⟨x, hx, rfl⟩ := List.mem_map.1 hmove
    obtain ⟨hgap, -⟩ := mem_gaplist_of_gained hx
    have hpos := L.gap_pos (x := x) hgap
    apply demands_extendArrays (by omega)
    rw [L.length_sources (combination_mem (gaplist_range hgap).1) rfl]
    exact hbound x (List.mem_filter.1 hx).1
  have hitems : ∀ s, (gapItems L.nmlist
      ((text (terms ((gaplist L.nmlist).map (·.gap)) v)).splitOn '+')).run s =
        .ok ((gained L.nmlist v).map (gapMove L.nmlist)) s := fun s => gapItems_run hne hgaplist
  rw [List.flatMap_map] at hmoves
  exact Demands.of_run_bind hitems hmoves

theorem grown_zeros (d : List Combination) (k : ℕ) : grown d (List.replicate k 0) = [] := by
  rw [grown, List.map_eq_nil_iff, List.filter_eq_nil_iff]
  intro x hx
  have hzero := List.eq_of_mem_replicate (List.of_mem_zip hx).2
  simp [hzero]

theorem moveItem_run (n m j g : ℕ) :
    (moveItem ((product [n, m, j, g]).splitOn '*')).run s = .ok ⟨n, m, n + g, m, j⟩ s := by
  have hint : ∀ n, (int (Library.Decimal.printNat n)).run s = .ok n s := by
    intro n
    simp [int, readNat_printNat, EStateM.run_pure]
  have hitem : ∀ i n', ([n, m, j, g].map Library.Decimal.printNat)[i]? = some n' →
      (item ([n, m, j, g].map Library.Decimal.printNat) i).run s = .ok n' s :=
    fun i n' h => run_item h
  rw [splitOn_product (by simp)]
  simp only [moveItem, EStateM.run_bind, hitem 0 _ rfl, hitem 1 _ rfl, hitem 2 _ rfl, hitem 3 _ rfl,
    hint]
  rfl

theorem demands_expandMove (eccount : Option ℕ) (L : Layout)
    (hmove : firstMove L.nmlist nn = some (a, j)) :
    Demands (expandMove eccount L.nmlist L.ecbrickinfos (moveScheme nn (zeros L.nmlist 1) a j).2)
      (List.replicate j (nn / j)) fun _ => True := by
  obtain ⟨ha, -, hj, -⟩ := of_firstMove hmove
  have htext : text (zeros L.nmlist 1 ++ [[a.n, a.m, j, nn / j]]) ≠ [] := by
    intro h
    rw [text_eq_nil] at h
    · simp at h
    · simpa [or_imp, forall_and] using (twoFactors_zeros L.nmlist 1).ne_nil
  have hsplit : (text (zeros L.nmlist 1 ++ [[a.n, a.m, j, nn / j]])).splitOn '+' =
      (zeros L.nmlist 1 ++ [[a.n, a.m, j, nn / j]]).map product := splitOn_text (by simp)
  have hdrop : ((zeros L.nmlist 1 ++ [[a.n, a.m, j, nn / j]]).map product).dropLast =
      (terms (tlist L.nmlist) [0]).map product := by
    rw [List.map_append, List.map_singleton, List.dropLast_concat]
    rfl
  have hnew : ∀ s, (newItems L.nmlist ((terms (tlist L.nmlist) [0]).map product)).run s =
      .ok [] s := by
    intro s
    rw [newItems_run]
    exact congrArg (EStateM.Result.ok · s) (grown_zeros L.nmlist 1)
  have hlast : ∀ s : Stock, (item ((zeros L.nmlist 1 ++ [[a.n, a.m, j, nn / j]]).map product)
      (((zeros L.nmlist 1 ++ [[a.n, a.m, j, nn / j]]).map product).length - 1)).run s =
        .ok (product [a.n, a.m, j, nn / j]) s := fun s => run_item (by simp)
  have hitem : ∀ s, (moveItem ((product [a.n, a.m, j, nn / j]).splitOn '*')).run s =
      .ok ⟨a.n, a.m, a.n + nn / j, a.m, j⟩ s := fun s => moveItem_run _ _ _ _
  have hextend : Demands (extendArrays L.ecbrickinfos ⟨a.n, a.m, a.n + nn / j, a.m, j⟩)
      (List.replicate j (nn / j)) fun _ => True := by
    apply demands_extendArrays
    · simp only [Move.gap]
      omega
    · rw [L.length_sources ha rfl]
      exact hj
  rw [moveScheme, expandMove, if_neg htext]
  simp only [hsplit, hdrop]
  apply Demands.of_run_bind hnew
  apply Demands.of_run_bind hlast
  apply Demands.of_run_bind hitem
  exact hextend

theorem gapSchemes_short (h : ¬1 < d.length) (ts : List (List ℕ)) :
    gapSchemes nn ts (gaplist d) (counts d) = [] := by
  have hpairs : pairs d.length = [] := by
    rw [List.eq_nil_iff_forall_not_mem]
    rintro ⟨o, p⟩ hmem
    have hlt := mem_pairs.1 hmem
    omega
  rw [gaplist_eq, hpairs, List.map_nil, gapSchemes, gapCounts, List.map_nil]

theorem planGaps_run (d : List Combination) (nn : ℕ) :
    (planGaps d nn).run g = .ok () (g.add (gapSchemes nn [] (gaplist d) (counts d))) := by
  rw [planGaps]
  split_ifs with h
  · exact combnmgap_run_all d nn
  · rw [gapSchemes_short h, add_nil]
    rfl

def groupSchemes (d : List Combination) (nn disknum minnm : ℕ) : List Scheme :=
  if minnm ≤ nn then newGroupSchemes minnm nn [] (tlist d) (tg nn disknum (tlist d)) else []

theorem planGroups_run (d : List Combination) (nn disknum minnm : ℕ) :
    (planGroups d nn minnm (tg nn disknum (tlist d))).run g =
      .ok () (g.add (groupSchemes d nn disknum minnm)) := by
  rw [planGroups, groupSchemes]
  split_ifs
  · exact combnm_run_nil (by simp [tg])
  · rw [add_nil]
    rfl

def planStart (d : List Combination) (nn disknum minnm : ℕ) : Globals :=
  globals.add (groupSchemes d nn disknum minnm ++ gapSchemes nn [] (gaplist d) (counts d))

theorem plan_run (hpos : ∀ t ∈ tlist d, 0 < t) (hmin : (tlist d).min? = some minnm) :
    (plan d nn disknum).run globals =
      (combnmnm d nn 1 d (tg nn disknum (tlist d)) []).run (planStart d nn disknum minnm) := by
  have hminimum : (minimum (tlist d)).run globals = .ok minnm globals := by
    rw [minimum, hmin]
    rfl
  simp only [plan, EStateM.run_bind, tglist_run hpos, hminimum, planGroups_run, planGaps_run,
    add_add]
  rfl

theorem tg_eq_zero_iff (hpos : ∀ t ∈ tl, 0 < t) :
    (∀ x ∈ tg nn disknum tl, x = 0) ↔ ∀ t ∈ tl, nn * disknum < t := by
  simp only [tg, List.forall_mem_map]
  refine forall₂_congr fun t ht => ?_
  rw [Nat.div_eq_zero_iff]
  have ht := hpos t ht
  omega

theorem plan_outcome (hd : d ≠ []) (hpos : ∀ t ∈ tlist d, 0 < t)
    (hmin : (tlist d).min? = some minnm) :
    (plan d nn disknum).run globals =
      match firstMove d nn with
      | some (a, j) =>
        .ok () ((planStart d nn disknum minnm).add [moveScheme nn (zeros d 1) a j])
      | none =>
        if ∀ t ∈ tlist d, nn * disknum < t then .ok () (planStart d nn disknum minnm)
        else .error .attributeError (planStart d nn disknum minnm) := by
  have hstart : (planStart d nn disknum minnm).itemchange = .list [] := rfl
  have hlength : (tg nn disknum (tlist d)).length = d.length := by simp [tg, tlist]
  rw [plan_run hpos hmin]
  cases hmove : firstMove d nn with
  | some move =>
    have htg : tg nn disknum (tlist d) ≠ [] := by
      rw [← List.length_pos_iff, hlength, List.length_pos_iff]
      exact hd
    exact combnmnm_found hmove hd htg hstart
  | none =>
    have hnone := combnmnm_none hmove (List.nil_append d).symm hlength hstart
    rw [List.length_nil, text_zeros_zero] at hnone
    rw [hnone]
    simp only [tg_eq_zero_iff hpos]

def CanMove (d : List Combination) (nn : ℕ) : Prop :=
  ∃ a ∈ d, ∃ j, 1 ≤ j ∧ j ≤ a.count ∧ Movable d nn a j

theorem firstMove_eq_none (hnn : 0 < nn) (hd : d ≠ []) : firstMove d nn = none ↔ ¬CanMove d nn := by
  have hlength := List.length_pos_of_ne_nil hd
  rw [firstMove, if_pos ⟨hnn, hlength⟩, findMove, List.findSome?_eq_none_iff]
  simp only [Option.map_eq_none_iff, findGroups, List.findSome?_eq_none_iff, CanMove, not_exists,
    not_and, List.mem_reverse, List.mem_range'_1, ite_eq_right_iff, reduceCtorEq, imp_false]
  constructor
  · intro h a ha j hj hcount
    exact h a ha j ⟨hj, by omega⟩
  · intro h a ha j hj
    exact h a ha j hj.1 (by omega)

/-- When an extension comes to its end. -/
structure Expandable (L : Layout) (pool : Pool) : Prop where
  few : ∀ t ∈ tlist L.nmlist, pool.keys.length < t
  move : CanMove L.nmlist pool.keys.length ∨
    ∀ t ∈ tlist L.nmlist, pool.keys.length * pool.disknum < t
  enough : Enough (gapDemands L.nmlist pool.keys.length ++ moveDemands L.nmlist pool.keys.length) pool

theorem demands_gapSchemes (eccount : Option ℕ) (L : Layout) (nn : ℕ) :
    Demands ((gapSchemes nn [] (gaplist L.nmlist) (counts L.nmlist)).forM
      (expand eccount L.nmlist L.ecbrickinfos)) (gapDemands L.nmlist nn) fun _ => True := by
  rw [gapSchemes, forM_map, gapDemands]
  exact Demands.forM fun v hv => demands_expandGap L hv

variable {e : PyError}

theorem planned_ok (hplan : (plan d nn disknum).run globals = .ok () g) :
    (planned d nn disknum).run s = .ok g.schemelist s := by
  rw [planned, hplan]
  rfl

theorem planned_error (hplan : (plan d nn disknum).run globals = .error e g) :
    (planned d nn disknum).run s = .error e s := by
  rw [planned, hplan]
  rfl

theorem extendService_ok
    (hplan : (plan d s.pool.keys.length s.pool.disknum).run globals = .ok () g) :
    (extendService eccount d ecbrickinfos).run s =
      (g.schemelist.forM (expand eccount d ecbrickinfos)).run s := by
  simp only [extendService, EStateM.run_bind, EStateM.run_get, planned_ok hplan]

theorem extendService_error
    (hplan : (plan d s.pool.keys.length s.pool.disknum).run globals = .error e g) :
    (extendService eccount d ecbrickinfos).run s = .error e s := by
  simp only [extendService, EStateM.run_bind, EStateM.run_get, planned_error hplan]

theorem Layout.sizes_pos (L : Layout) : ∀ t ∈ tlist L.nmlist, 0 < t := by
  intro t ht
  obtain ⟨nm, hnm, rfl⟩ := List.mem_map.1 ht
  exact (L.positive nm hnm).1

theorem Layout.nmlist_ne_nil (L : Layout) (harrays : L.ecbrickinfos.keys ≠ []) :
    L.nmlist ≠ [] := by
  obtain ⟨ecnum, hecnum⟩ := List.exists_mem_of_ne_nil _ harrays
  obtain ⟨nm, hnm, -⟩ := L.covered ecnum hecnum
  exact List.ne_nil_of_mem hnm

theorem exists_min (hd : d ≠ []) : ∃ minnm, (tlist d).min? = some minnm :=
  Option.isSome_iff_exists.1 (List.isSome_min?_of_ne_nil (by simpa [tlist] using hd))

theorem groupSchemes_nil (hfew : ∀ t ∈ tlist d, nn < t) (hmin : (tlist d).min? = some minnm) :
    groupSchemes d nn disknum minnm = [] :=
  if_neg (Nat.not_le.2 (hfew minnm (List.min?_mem hmin)))

theorem exists_newGroups (hpos : 0 < minnm) (hmem : minnm ∈ tl) (hnn : minnm ≤ nn)
    (hdisknum : 0 < disknum) : newGroups minnm nn (tl.zip (tg nn disknum tl)) 0 ≠ [] := by
  have hzip : (minnm, nn * disknum / minnm) ∈ tl.zip (tg nn disknum tl) := by
    have hmap : (tl.map id).zip (tl.map fun t => nn * disknum / t) = _ := List.zip_map'
    rw [List.map_id] at hmap
    rw [tg, hmap]
    exact List.mem_map_of_mem hmem
  have hle := Nat.le_mul_of_pos_right nn hdisknum
  have hmod := Nat.mod_lt (nn * disknum) hpos
  have hdiv := Nat.div_add_mod (nn * disknum) minnm
  exact newGroups_ne_nil hzip (by omega)

theorem forM_error (eccount : Option ℕ) (ht : t ∈ tlist L.nmlist)
    (hle : t ≤ s.pool.keys.length) (hs : Stocked s.pool)
    (hmin : (tlist L.nmlist).min? = some minnm) (rest : List Scheme) :
    ∃ e s', ((groupSchemes L.nmlist s.pool.keys.length s.pool.disknum minnm ++ rest).forM
      (expand eccount L.nmlist L.ecbrickinfos)).run s = .error e s' := by
  have hmem := List.min?_mem hmin
  have hminle : minnm ≤ t := (List.min?_eq_some_iff.1 hmin).2 t ht
  have hpos := L.sizes_pos minnm hmem
  have hkeys : s.pool.keys ≠ [] := by
    rw [← List.length_pos_iff]
    omega
  obtain ⟨v, vs, hv⟩ := List.exists_cons_of_ne_nil
    (exists_newGroups hpos hmem (hminle.trans hle) (disknum_pos hs hkeys))
  have hused : 0 < used (tlist L.nmlist) v := by
    have hpositive := newGroups_positive (hv ▸ List.mem_cons_self :
      v ∈ newGroups minnm s.pool.keys.length ((tlist L.nmlist).zip
        (tg s.pool.keys.length s.pool.disknum (tlist L.nmlist))) 0)
    omega
  obtain ⟨e, s', herror⟩ := expandNew_error (s := s) hused
  refine ⟨e, s', ?_⟩
  rw [groupSchemes, if_pos (hminle.trans hle), newGroupSchemes, value_nil, hv, List.map_cons,
    List.cons_append, forM_cons, EStateM.run_bind]
  have hexpand : (expand eccount L.nmlist L.ecbrickinfos
      (0, text ([] ++ terms (tlist L.nmlist) v))).run s = .error e s' := herror
  rw [hexpand]

theorem Demands.ok_iff {m : Taking Unit} {counts : List ℕ} {R : Unit → Prop}
    (h : Demands m counts R) (hs : Stocked s.pool) :
    (∃ s', m.run s = .ok () s') ↔ Enough counts s.pool := by
  constructor
  · rintro ⟨s', hok⟩
    by_contra hshort
    obtain ⟨e, t, herror⟩ := h.error s hs hshort
    rw [hok] at herror
    cases herror
  · intro henough
    obtain ⟨_, s', hok, -⟩ := h.ok s hs henough
    exact ⟨s', hok⟩

theorem planStart_schemelist (d : List Combination) (nn disknum minnm : ℕ) :
    (planStart d nn disknum minnm).schemelist =
      groupSchemes d nn disknum minnm ++ gapSchemes nn [] (gaplist d) (counts d) :=
  List.nil_append _

theorem not_ok_of_many (hs : Stocked s.pool) (ht : t ∈ tlist L.nmlist)
    (hle : t ≤ s.pool.keys.length) (s' : Stock) :
    (extendService eccount L.nmlist L.ecbrickinfos).run s ≠ .ok () s' := by
  have hd : L.nmlist ≠ [] := by
    rintro hnil
    simp [hnil, tlist] at ht
  obtain ⟨minnm, hmin⟩ := exists_min hd
  obtain ⟨g, rest, hplan, hg⟩ | ⟨e, g, hplan⟩ :
      (∃ g rest, (plan L.nmlist s.pool.keys.length s.pool.disknum).run globals = .ok () g ∧
        g.schemelist =
          groupSchemes L.nmlist s.pool.keys.length s.pool.disknum minnm ++ rest) ∨
      ∃ e g, (plan L.nmlist s.pool.keys.length s.pool.disknum).run globals = .error e g := by
    rw [plan_outcome hd L.sizes_pos hmin]
    cases firstMove L.nmlist s.pool.keys.length with
    | some move =>
      refine .inl ⟨_, gapSchemes s.pool.keys.length [] (gaplist L.nmlist) (counts L.nmlist) ++
        [moveScheme s.pool.keys.length (zeros L.nmlist 1) move.1 move.2], rfl, ?_⟩
      rw [Globals.add, planStart_schemelist, List.append_assoc]
    | none =>
      split_ifs
      · exact .inl ⟨_, _, rfl, planStart_schemelist _ _ _ _⟩
      · exact .inr ⟨_, _, rfl⟩
  · obtain ⟨e, t, herror⟩ := forM_error eccount ht hle hs hmin rest
    rw [extendService_ok hplan, hg, herror]
    simp
  · rw [extendService_error hplan]
    simp

theorem moveDemands_some (hmove : firstMove d nn = some (a, j)) :
    moveDemands d nn = List.replicate j (nn / j) := by
  rw [moveDemands, hmove]
  rfl

theorem moveDemands_none (hmove : firstMove d nn = none) : moveDemands d nn = [] := by
  rw [moveDemands, hmove]
  rfl

theorem canMove_of_firstMove (hmove : firstMove d nn = some (a, j)) : CanMove d nn := by
  obtain ⟨ha, hj, hcount, hmovable⟩ := of_firstMove hmove
  exact ⟨a, ha, j, hj, hcount, hmovable⟩

section Few

variable (hd : L.nmlist ≠ []) (hfew : ∀ t ∈ tlist L.nmlist, s.pool.keys.length < t)
include hd hfew

theorem planStart_few : ∃ minnm, (tlist L.nmlist).min? = some minnm ∧
    (planStart L.nmlist s.pool.keys.length s.pool.disknum minnm).schemelist =
      gapSchemes s.pool.keys.length [] (gaplist L.nmlist) (counts L.nmlist) := by
  obtain ⟨minnm, hmin⟩ := exists_min hd
  refine ⟨minnm, hmin, ?_⟩
  rw [planStart_schemelist, groupSchemes_nil hfew hmin, List.nil_append]

theorem ok_iff_of_some (hs : Stocked s.pool)
    (hmove : firstMove L.nmlist s.pool.keys.length = some (a, j)) :
    (∃ s', (extendService eccount L.nmlist L.ecbrickinfos).run s = .ok () s') ↔
      Enough (gapDemands L.nmlist s.pool.keys.length ++ moveDemands L.nmlist s.pool.keys.length)
        s.pool := by
  obtain ⟨minnm, hmin, hstart⟩ := planStart_few hd hfew
  have hplan : (plan L.nmlist s.pool.keys.length s.pool.disknum).run globals = _ :=
    plan_outcome hd L.sizes_pos hmin
  rw [hmove] at hplan
  have hgaps := demands_gapSchemes eccount L s.pool.keys.length
  have hlast := (demands_expandMove eccount L hmove).bind_unit
  rw [extendService_ok hplan, Globals.add, hstart, forM_append, moveDemands_some hmove]
  exact (hgaps.bind fun _ _ => hlast).ok_iff hs

theorem ok_iff_of_none (hs : Stocked s.pool)
    (hmove : firstMove L.nmlist s.pool.keys.length = none)
    (hsmall : ∀ t ∈ tlist L.nmlist, s.pool.keys.length * s.pool.disknum < t) :
    (∃ s', (extendService eccount L.nmlist L.ecbrickinfos).run s = .ok () s') ↔
      Enough (gapDemands L.nmlist s.pool.keys.length ++ moveDemands L.nmlist s.pool.keys.length)
        s.pool := by
  obtain ⟨minnm, hmin, hstart⟩ := planStart_few hd hfew
  have hplan : (plan L.nmlist s.pool.keys.length s.pool.disknum).run globals = _ :=
    plan_outcome hd L.sizes_pos hmin
  rw [hmove] at hplan
  dsimp only at hplan
  rw [if_pos hsmall] at hplan
  rw [extendService_ok hplan, hstart, moveDemands_none hmove, List.append_nil]
  exact (demands_gapSchemes eccount L _).ok_iff hs

end Few

theorem not_ok_of_none (hd : L.nmlist ≠ [])
    (hmove : firstMove L.nmlist s.pool.keys.length = none)
    (hsmall : ¬∀ t ∈ tlist L.nmlist, s.pool.keys.length * s.pool.disknum < t) (s' : Stock) :
    (extendService eccount L.nmlist L.ecbrickinfos).run s ≠ .ok () s' := by
  obtain ⟨minnm, hmin⟩ := exists_min hd
  have hplan : (plan L.nmlist s.pool.keys.length s.pool.disknum).run globals = _ :=
    plan_outcome hd L.sizes_pos hmin
  rw [hmove] at hplan
  dsimp only at hplan
  rw [if_neg hsmall] at hplan
  rw [extendService_error hplan]
  simp

theorem not_canMove (hd : L.nmlist ≠ []) (hmove : firstMove L.nmlist s.pool.keys.length = none)
    (hsmall : ¬∀ t ∈ tlist L.nmlist, s.pool.keys.length * s.pool.disknum < t) :
    ¬CanMove L.nmlist s.pool.keys.length := by
  have hnn : 0 < s.pool.keys.length := by
    by_contra hzero
    apply hsmall
    intro t ht
    rw [Nat.eq_zero_of_not_pos hzero, Nat.zero_mul]
    exact L.sizes_pos t ht
  exact (firstMove_eq_none hnn hd).1 hmove

/-- The planning calls and the expansions come to their end exactly under this condition. -/
theorem extendService_ok_iff (L : Layout) (harrays : L.ecbrickinfos.keys ≠ [])
    (eccount : Option ℕ) (s : Stock) (hs : Stocked s.pool) :
    (∃ s', (extendService eccount L.nmlist L.ecbrickinfos).run s = .ok () s') ↔
      Expandable L s.pool := by
  have hd := L.nmlist_ne_nil harrays
  by_cases hfew : ∀ t ∈ tlist L.nmlist, s.pool.keys.length < t
  · cases hmove : firstMove L.nmlist s.pool.keys.length with
    | some move =>
      have hcanMove := canMove_of_firstMove hmove
      rw [ok_iff_of_some hd hfew hs hmove]
      exact ⟨fun henough => ⟨hfew, .inl hcanMove, henough⟩, fun h => h.enough⟩
    | none =>
      by_cases hsmall : ∀ t ∈ tlist L.nmlist, s.pool.keys.length * s.pool.disknum < t
      · rw [ok_iff_of_none hd hfew hs hmove hsmall]
        exact ⟨fun henough => ⟨hfew, .inr hsmall, henough⟩, fun h => h.enough⟩
      · refine iff_of_false ?_ fun h => ?_
        · rintro ⟨s', hok⟩
          exact not_ok_of_none hd hmove hsmall s' hok
        · exact h.move.elim (not_canMove hd hmove hsmall) hsmall
  · have hmany : ∃ t ∈ tlist L.nmlist, t ≤ s.pool.keys.length := by
      simpa only [not_forall, Nat.not_lt, exists_prop] using hfew
    obtain ⟨t, ht, hle⟩ := hmany
    refine iff_of_false ?_ fun h => hfew h.few
    rintro ⟨s', hok⟩
    exact not_ok_of_many hs ht hle s' hok

def oneArray : Layout where
  m := 1
  nmlist := [⟨2, 1, 1⟩]
  ecbrickinfos := List.toAList [⟨['0'], [0, 1, 2]⟩]
  common := by decide
  nodup := by decide
  counted := by decide
  covered := by decide
  positive := by decide

def twoNodes : Stock where
  pool := List.toAList [⟨['5'], [⟨['5'], ['a']⟩]⟩, ⟨['6'], [⟨['6'], ['a']⟩]⟩]
  created := ∅
  extended := ∅

theorem stocked_of_entries (h : ∀ e ∈ pool.entries, e.2 ≠ []) : Stocked pool :=
  fun _ hlookup => h _ (AList.mem_lookup_iff.1 hlookup) rfl

theorem extendService_ok_iff_twoNodes :
    (∃ s', (extendService none oneArray.nmlist oneArray.ecbrickinfos).run twoNodes = .ok () s') ↔
      Expandable oneArray twoNodes.pool :=
  extendService_ok_iff oneArray (by decide) none twoNodes (stocked_of_entries (by decide))

theorem threeNodes_raises :
    ∃ s', (extendService none oneArray.nmlist oneArray.ecbrickinfos).run threeNodes =
      .error .typeError s' :=
  ⟨_, rfl⟩

end MyScripts.CreateConfig
