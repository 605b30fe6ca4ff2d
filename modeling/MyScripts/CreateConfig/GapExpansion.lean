import MyScripts.CreateConfig.SchemeItems

/-!
# Arrays that gain disks

The expansion of a gap scheme walks through the arrays from the first one for
each of its pairs, and takes those that have the length of the pair's source.
Two pairs with one source give disks to the same arrays.
-/
namespace MyScripts.CreateConfig
open Library.SumOfProducts Library.Exceptions

variable {d : List Combination} {p : Gap} {x y : Gap × ℕ} {nn i : ℕ} {v : List ℕ} {s s' : Stock}
  {key ecnum c : List Char}

structure Layout where
  m : ℕ
  nmlist : List Combination
  ecbrickinfos : Arrays
  common : ∀ nm ∈ nmlist, nm.m = m
  nodup : (nmlist.map (·.n)).Nodup
  counted : ∀ nm ∈ nmlist,
    nm.count = (ecbrickinfos.keys.filter fun ecnum => ecbrickinfos.size ecnum = nm.n + nm.m).length
  covered : ∀ ecnum ∈ ecbrickinfos, ∃ nm ∈ nmlist, ecbrickinfos.size ecnum = nm.n + nm.m
  positive : ∀ nm ∈ nmlist, 0 < nm.n + nm.m ∧ 0 < nm.count

variable {I : Stock → Prop} {ecbrickinfos : Arrays} {move : Move} {moves : List Move}
  {newec : List Disk} {key' ecnum' : List Char}

def assigned (s : Stock) (key ecnum : List Char) : List Disk :=
  (((s.extended.lookup key).getD ∅).lookup ecnum).getD []

def Gained (s : Stock) (key ecnum : List Char) : Prop := assigned s key ecnum ≠ []

theorem assigned_extend : assigned (s.extend key ecnum newec) key' ecnum' =
    if key' = key ∧ ecnum' = ecnum then newec else assigned s key' ecnum' := by
  rw [assigned, Stock.extend]
  by_cases hkey : key' = key
  · subst hkey
    rw [AList.lookup_insert, Option.getD_some]
    by_cases hecnum : ecnum' = ecnum
    · subst hecnum
      simp
    · simp [hecnum, AList.lookup_insert_ne hecnum, assigned]
  · simp [hkey, AList.lookup_insert_ne hkey, assigned]

theorem Gained.extend (h : Gained s key' ecnum') (hnewec : newec ≠ []) :
    Gained (s.extend key ecnum newec) key' ecnum' := by
  rw [Gained, assigned_extend]
  split_ifs
  · exact hnewec
  · exact h

theorem gained_extend (hnewec : newec ≠ []) : Gained (s.extend key ecnum newec) key ecnum := by
  simpa [Gained, assigned_extend] using hnewec

def OnSections (I : Stock → Prop) : Prop := ∀ s s', s'.extended = s.extended → I s → I s'

theorem spec_takeDisk (hI : OnSections I) (node : Node) : Spec I (takeDisk node) fun _ => True := by
  refine Spec.bind Spec.get fun s hs => ?_
  split
  · exact Spec.throw _
  · exact Spec.throw _
  · exact Spec.bind (Spec.set (hI s _ (by rfl) hs)) fun _ _ => Spec.pure trivial

theorem spec_takeAt (hI : OnSections I) (nodes : List Node × List Disk) (k : ℕ) :
    Spec I (takeAt nodes k) fun _ => True :=
  Spec.bind (spec_item _ _) fun node _ => Spec.bind (spec_takeDisk hI node) fun _ _ =>
    Spec.bind Spec.get fun _ _ => Spec.pure trivial

theorem length_takeAt {ks : List ℕ} {nodes nodes' : List Node × List Disk}
    (h : (ks.foldlM takeAt nodes).run s = .ok nodes' s') :
    nodes'.2.length = nodes.2.length + ks.length := by
  induction ks generalizing nodes s with
  | nil =>
    cases h
    rfl
  | cons k ks ih =>
    rw [List.foldlM_cons] at h
    obtain ⟨nodes₁, t, hfirst, hrest⟩ := run_bind_ok.1 h
    obtain ⟨node, _, -, hfirst⟩ := run_bind_ok.1 hfirst
    obtain ⟨disk, _, -, hfirst⟩ := run_bind_ok.1 hfirst
    obtain ⟨_, _, -, hfirst⟩ := run_bind_ok.1 hfirst
    cases hfirst
    rw [ih hrest]
    simp only [List.length_append, List.length_cons, List.length_nil]
    omega

theorem length_takeDisks {count : ℤ} (h : (takeDisks count).run s = .ok newec s') :
    newec.length = count.toNat := by
  obtain ⟨_, _, -, h⟩ := run_bind_ok.1 h
  obtain ⟨_, _, hfold, h⟩ := run_bind_ok.1 h
  cases h
  simpa [downTo] using length_takeAt hfold

theorem spec_takeDisks (hI : OnSections I) (count : ℤ) :
    Spec I (takeDisks count) fun newec => newec.length = count.toNat := by
  refine Spec.of_ok (R := fun _ => True) ?_ fun s newec s' => length_takeDisks
  refine Spec.bind Spec.get fun _ _ =>
    Spec.bind (Spec.foldlM (J := fun _ => True) trivial ?_) fun _ _ => Spec.pure trivial
  exact fun nodes _ k _ => spec_takeAt hI nodes k

theorem spec_extendArray (hI : OnSections I) (hextend : ∀ s ecnum newec,
      ecbrickinfos.size ecnum = move.n + move.m → newec.length = move.gap.toNat → I s →
        I (s.extend (eckey move) ecnum newec)) (i : ℕ) (ecnum : List Char) :
    Spec I (extendArray ecbrickinfos move i ecnum) fun _ => True := by
  refine Spec.ite (fun _ => Spec.pure trivial) fun _ => Spec.ite (fun hsize => ?_) fun _ =>
    Spec.pure trivial
  refine Spec.bind (spec_takeDisks hI move.gap) fun newec hlength => ?_
  exact Spec.bind (Spec.modify fun s hs => hextend s ecnum newec hsize hlength hs) fun _ _ =>
    Spec.pure trivial

theorem spec_extendArraysLoop (hI : OnSections I) (hextend : ∀ s ecnum newec,
      ecbrickinfos.size ecnum = move.n + move.m → newec.length = move.gap.toNat → I s →
        I (s.extend (eckey move) ecnum newec)) (i : ℕ) (ecnums : List (List Char)) :
    Spec I (loop (extendArray ecbrickinfos move) i ecnums) fun _ => True := by
  have hloop : Spec I (loop (extendArray ecbrickinfos move) i ecnums) fun r =>
      ∀ i', r = .next i' → True :=
    Spec.loop (J := fun _ => True) trivial fun i _ ecnum _ =>
      Spec.of_ok (spec_extendArray hI hextend i ecnum) fun _ _ _ _ _ _ => trivial
  exact Spec.of_ok hloop fun _ _ _ _ => trivial

theorem spec_extendArrays (hI : OnSections I) (hextend : ∀ s ecnum newec,
      ecbrickinfos.size ecnum = move.n + move.m → newec.length = move.gap.toNat → I s →
        I (s.extend (eckey move) ecnum newec)) :
    Spec I (extendArrays ecbrickinfos move) fun _ => True :=
  Spec.bind (spec_extendArraysLoop hI hextend 0 _) fun _ _ => Spec.pure trivial

theorem ne_nil_of_gap (hgap : 0 < move.gap) (hlength : newec.length = move.gap.toNat) :
    newec ≠ [] := by
  rintro rfl
  rw [List.length_nil] at hlength
  omega

theorem onSections_gained (key ecnum : List Char) : OnSections fun s => Gained s key ecnum := by
  intro s s' hextended h
  rw [Gained, assigned] at h ⊢
  rwa [hextended]

theorem spec_gainedLoop (hgap : 0 < move.gap) (ecnums : List (List Char)) (i : ℕ) :
    Spec (fun s => Gained s key ecnum) (loop (extendArray ecbrickinfos move) i ecnums)
      fun _ => True :=
  spec_extendArraysLoop (onSections_gained key ecnum)
    (fun _ _ _ _ hlength hs => hs.extend (ne_nil_of_gap hgap hlength)) i ecnums

theorem spec_gained (hgap : 0 < move.gap) :
    Spec (fun s => Gained s key ecnum) (extendArrays ecbrickinfos move) fun _ => True :=
  Spec.bind (spec_gainedLoop hgap _ 0) fun _ _ => Spec.pure trivial

theorem extendArrays_gains (hgap : 0 < move.gap) (hcount : 0 < move.count)
    (hfirst : (sortedArrays ecbrickinfos).find?
      (fun ecnum => ecbrickinfos.size ecnum = move.n + move.m) = some ecnum)
    (hrun : (extendArrays ecbrickinfos move).run s = .ok () s') :
    Gained s' (eckey move) ecnum := by
  obtain ⟨r, t, hloop, hrun⟩ := run_bind_ok.1 hrun
  cases hrun
  obtain ⟨hsize, pre, post, hsplit, hpre⟩ := List.find?_eq_some_iff_append.1 hfirst
  rw [hsplit] at hloop
  clear hsplit hfirst
  induction pre with
  | nil =>
    have hround : extendArray ecbrickinfos move 0 ecnum = do
        let newec ← takeDisks move.gap
        modify fun s => s.extend (eckey move) ecnum newec
        return .next 1 := by
      rw [extendArray, if_neg hcount.ne, if_pos (by simpa using hsize)]
    rw [List.nil_append, loop] at hloop
    obtain ⟨r₁, s₁, hfirst, hrest⟩ := run_bind_ok.1 hloop
    rw [hround] at hfirst
    obtain ⟨newec, s₂, htake, hfirst⟩ := run_bind_ok.1 hfirst
    cases hfirst
    have hgained : Gained (s₂.extend (eckey move) ecnum newec) (eckey move) ecnum :=
      gained_extend (ne_nil_of_gap hgap (length_takeDisks htake))
    exact ((spec_gainedLoop hgap post 1).ok _ r s' hgained hrest).1
  | cons x pre ih =>
    have hx : ecbrickinfos.size x ≠ move.n + move.m := by simpa using hpre x List.mem_cons_self
    have hskip : (extendArray ecbrickinfos move 0 x).run s = .ok (.next 0) s := by
      rw [extendArray, if_neg hcount.ne, if_neg hx]
      rfl
    rw [List.cons_append, loop_cons_next hskip] at hloop
    exact ih hloop fun y hy => hpre y (List.mem_cons_of_mem x hy)

variable {L : Layout} {j : ℕ} {w : List ℕ} {move' : Move}

theorem eckey_injective (h : eckey move = eckey move') : move = move' := by
  have hsplit : ∀ move : Move, (eckey move).splitOn ',' =
      [move.n, move.m, move.tn, move.tm, move.count].map Library.Decimal.printNat := by
    intro move
    apply List.splitOn_intercalate
    · simp [Library.Decimal.not_mem_printNat (by decide : ','.isDigit = false)]
    · exact List.cons_ne_nil _ _
  have hlist := hsplit move
  rw [h, hsplit move'] at hlist
  have hparts := Library.Decimal.printNat_injective.list_map hlist
  cases move
  cases move'
  simp_all

theorem zip_eq_of_terms {ps : List Gap} (h : terms (ps.map (·.gap)) v = terms (ps.map (·.gap)) w) :
    ps.zip v = ps.zip w := by
  induction ps generalizing v w with
  | nil => rfl
  | cons p ps ih =>
    cases v with
    | nil => cases w <;> simp_all [terms]
    | cons i v =>
      cases w with
      | nil => simp [terms] at h
      | cons j w =>
        simp only [terms, List.map_cons, List.zipWith_cons_cons, List.cons.injEq, true_and,
          and_true] at h
        rw [List.zip_cons_cons, List.zip_cons_cons, h.1, ih h.2]

theorem combination_mem (hi : i < d.length) : combination d i ∈ d := by
  simp [combination, hi]

theorem Layout.combination_injOn (L : Layout) (hi : i < L.nmlist.length) (hj : j < L.nmlist.length)
    (h : (combination L.nmlist i).n = (combination L.nmlist j).n) : i = j := by
  have hnodup := L.nodup
  rw [List.nodup_iff_injective_getElem] at hnodup
  have hindex := @hnodup ⟨i, by simpa using hi⟩ ⟨j, by simpa using hj⟩
    (by simpa [combination, hi, hj] using h)
  simpa using hindex

theorem Layout.gap_pos (L : Layout) (hp : x.1 ∈ gaplist L.nmlist) :
    0 < (gapMove L.nmlist x).gap := by
  obtain ⟨hsource, htarget⟩ := gaplist_range hp
  have hm := L.common _ (combination_mem hsource)
  have hm' := L.common _ (combination_mem htarget)
  have hn : (combination L.nmlist x.1.source).n < (combination L.nmlist x.1.target).n := by
    obtain ⟨⟨o, p⟩, hq, hx⟩ := List.mem_map.1 (gaplist_eq L.nmlist ▸ hp)
    obtain ⟨hop, hp⟩ := mem_pairs.1 hq
    have hne : ¬(combination L.nmlist o).n = (combination L.nmlist p).n :=
      fun h => hop.ne (L.combination_injOn (hop.trans hp) hp h)
    have hnOf : ∀ i, nOf L.nmlist i = (combination L.nmlist i).n := fun _ => rfl
    rw [← hx, toGap]
    simp only [hnOf]
    split_ifs with hgap
    · dsimp only
      omega
    · dsimp only
      omega
  simp only [Move.gap, gapMove]
  omega

theorem Layout.exists_first (L : Layout) (hp : x.1 ∈ gaplist L.nmlist)
    (hcount : 0 < counts L.nmlist x.1.source) :
    ∃ ecnum, (sortedArrays L.ecbrickinfos).find? (fun ecnum => L.ecbrickinfos.size ecnum =
      (gapMove L.nmlist x).n + (gapMove L.nmlist x).m) = some ecnum := by
  have hmem := combination_mem (gaplist_range hp).1
  have hcounted := L.counted _ hmem
  rw [counts, ← combination, hcounted, List.length_pos_iff_exists_mem] at hcount
  obtain ⟨ecnum, hecnum⟩ := hcount
  rw [List.mem_filter] at hecnum
  rw [← Option.isSome_iff_exists, List.find?_isSome]
  exact ⟨ecnum, (List.perm_insertionSort _ _).mem_iff.2 hecnum.1, hecnum.2⟩

/-- No array has disks in two sections. -/
def Once (s : Stock) : Prop :=
  ∀ ecnum key key', Gained s key ecnum → Gained s key' ecnum → key = key'

def SourcesDiffer (d : List Combination) (c : List Char) : Prop :=
  ∃ v, c = text (terms ((gaplist d).map (·.gap)) v) ∧
    (gained d v).Pairwise fun x y => x.1.source ≠ y.1.source

theorem sourcesDiffer_text : SourcesDiffer d (text (terms ((gaplist d).map (·.gap)) v)) ↔
    (gained d v).Pairwise fun x y => x.1.source ≠ y.1.source := by
  constructor
  · rintro ⟨w, hw, hdiffer⟩
    have hterms := text_injective (terms_ne_nil _ v) (terms_ne_nil _ w) hw
    rwa [gained, zip_eq_of_terms hterms]
  · intro hdiffer
    exact ⟨v, rfl, hdiffer⟩

def Sectioned (L : Layout) (v : List ℕ) (s : Stock) : Prop :=
  ∀ key ecnum, Gained s key ecnum → ∃ x ∈ gained L.nmlist v,
    key = eckey (gapMove L.nmlist x) ∧
      L.ecbrickinfos.size ecnum = (gapMove L.nmlist x).n + (gapMove L.nmlist x).m

theorem spec_sectioned (L : Layout) (v : List ℕ) :
    Spec (Sectioned L v)
      (((gained L.nmlist v).map (gapMove L.nmlist)).forM (extendArrays L.ecbrickinfos))
      fun _ => True := by
  refine Spec.forM fun move hmove => spec_extendArrays ?_ ?_
  · intro s s' hextended hs key ecnum hgained
    exact hs key ecnum (onSections_gained key ecnum s' s hextended.symm hgained)
  · intro s ecnum newec hsize _ hs key' ecnum' hgained
    obtain ⟨x, hx, rfl⟩ := List.mem_map.1 hmove
    rw [Gained, assigned_extend] at hgained
    split_ifs at hgained with hsame
    · exact ⟨x, hx, hsame.1, by rw [hsame.2, hsize]⟩
    · exact hs key' ecnum' hgained

theorem Sectioned.once (h : Sectioned L v s)
    (hdiffer : (gained L.nmlist v).Pairwise fun x y => x.1.source ≠ y.1.source) : Once s := by
  intro ecnum key key' hkey hkey'
  obtain ⟨x, hx, rfl, hsize⟩ := h key ecnum hkey
  obtain ⟨y, hy, rfl, hsize'⟩ := h key' ecnum hkey'
  obtain ⟨hsource, -⟩ := gaplist_range (mem_gaplist_of_gained hx).1
  obtain ⟨hsource', -⟩ := gaplist_range (mem_gaplist_of_gained hy).1
  have hm := L.common _ (combination_mem hsource)
  have hm' := L.common _ (combination_mem hsource')
  have hsame : x.1.source = y.1.source := by
    apply L.combination_injOn hsource hsource'
    simp only [gapMove] at hsize hsize'
    omega
  have hsymm : Std.Symm fun x y : Gap × ℕ => x.1.source ≠ y.1.source := ⟨fun _ _ => Ne.symm⟩
  have hxy : x = y := by
    by_contra hne
    exact hdiffer.forall hx hy hne hsame
  rw [hxy]

theorem forM_gains {moves : List Move} (hmem : move ∈ moves) (hgaps : ∀ move ∈ moves, 0 < move.gap)
    (hcount : 0 < move.count)
    (hfirst : (sortedArrays ecbrickinfos).find?
      (fun ecnum => ecbrickinfos.size ecnum = move.n + move.m) = some ecnum)
    (hrun : (moves.forM (extendArrays ecbrickinfos)).run s = .ok () s') :
    Gained s' (eckey move) ecnum := by
  induction moves generalizing s with
  | nil => simp at hmem
  | cons move₀ moves ih =>
    obtain ⟨_, t, hhead, htail⟩ := run_bind_ok.1 hrun
    have hgaps' : ∀ move ∈ moves, 0 < move.gap :=
      fun move h => hgaps move (List.mem_cons_of_mem _ h)
    rcases List.mem_cons.1 hmem with rfl | hmem
    · have hgained := extendArrays_gains (hgaps move List.mem_cons_self) hcount hfirst hhead
      exact ((Spec.forM fun move h => spec_gained (hgaps' move h)).ok _ _ _ hgained htail).1
    · exact ih hmem hgaps' htail

theorem pairwise_zip {α β : Type} {R : α → α → Prop} {l : List α} (h : l.Pairwise R) (l' : List β) :
    (l.zip l').Pairwise fun x y => R x.1 y.1 := by
  induction l generalizing l' with
  | nil => simp
  | cons a l ih =>
    cases l' with
    | nil => simp
    | cons b l' =>
      rw [List.pairwise_cons] at h
      rw [List.zip_cons_cons, List.pairwise_cons]
      exact ⟨fun x hx => h.1 x.1 (List.of_mem_zip hx).1, ih h.2 l'⟩

theorem gained_nodup (d : List Combination) (v : List ℕ) :
    (gained d v).Pairwise fun x y => x.1 ≠ y.1 := by
  have hgaplist : (gaplist d).Nodup := by
    rw [gaplist_eq]
    exact (pairs_nodup d.length).map_on fun q hq q' hq' h =>
      toGap_injOn hq hq' (by rw [h]) (by rw [h])
  exact (pairwise_zip hgaplist v).filter _

theorem differ_of_once (hbound : ∀ x ∈ (gaplist L.nmlist).zip v, x.2 ≤ counts L.nmlist x.1.source)
    (hrun : (((gained L.nmlist v).map (gapMove L.nmlist)).forM
      (extendArrays L.ecbrickinfos)).run s = .ok () s') (honce : Once s') :
    (gained L.nmlist v).Pairwise fun x y => x.1.source ≠ y.1.source := by
  have hgaps : ∀ move ∈ (gained L.nmlist v).map (gapMove L.nmlist), 0 < move.gap := by
    rintro _ hmove
    obtain ⟨x, hx, rfl⟩ := List.mem_map.1 hmove
    exact L.gap_pos (mem_gaplist_of_gained hx).1
  refine (gained_nodup L.nmlist v).imp_of_mem fun {x y} hx hy hne hsource => hne ?_
  -- the same array is the first one for both pairs
  obtain ⟨hgap, hpos⟩ := mem_gaplist_of_gained hx
  obtain ⟨hgap', hpos'⟩ := mem_gaplist_of_gained hy
  obtain ⟨ecnum, hfirst⟩ := L.exists_first hgap (hpos.trans_le (hbound x (List.mem_filter.1 hx).1))
  have hlength : (gapMove L.nmlist x).n + (gapMove L.nmlist x).m =
      (gapMove L.nmlist y).n + (gapMove L.nmlist y).m := by
    simp only [gapMove, hsource]
  have hfirst' := hfirst
  rw [hlength] at hfirst'
  have hkey := honce ecnum _ _
    (forM_gains (List.mem_map_of_mem hx) hgaps hpos hfirst hrun)
    (forM_gains (List.mem_map_of_mem hy) hgaps hpos' hfirst' hrun)
  have htarget : x.1.target = y.1.target := by
    apply L.combination_injOn (gaplist_range hgap).2 (gaplist_range hgap').2
    exact congrArg Move.tn (eckey_injective hkey)
  obtain ⟨q, hq, hqx⟩ := List.mem_map.1 (gaplist_eq L.nmlist ▸ hgap)
  obtain ⟨q', hq', hqy⟩ := List.mem_map.1 (gaplist_eq L.nmlist ▸ hgap')
  rw [← hqx, ← hqy] at hsource htarget ⊢
  rw [toGap_injOn hq hq' hsource htarget]

/-- An expansion gives disks to an array twice exactly when two of its pairs have one source. -/
theorem expandGap_once_iff (L : Layout) {g : Globals}
    (hrun : (combnmgap L.nmlist (gaplist L.nmlist) nn ((gaplist L.nmlist).map (·.gap))
      (aglist L.nmlist) []).run globals = .ok () g)
    (hc : (1, c) ∈ g.schemelist) (s : Stock) :
    (∀ e s', (expandGap L.nmlist L.ecbrickinfos c).run { s with extended := ∅ } = .error e s' →
      SourcesDiffer L.nmlist c → Once s') ∧
    ∀ s', (expandGap L.nmlist L.ecbrickinfos c).run { s with extended := ∅ } = .ok () s' →
      (Once s' ↔ SourcesDiffer L.nmlist c) := by
  obtain ⟨v, rfl, hv, hlength, hbound⟩ := exists_of_mem_gap hrun hc
  have hgaplist : gaplist L.nmlist ≠ [] := by
    intro hnil
    rw [hnil] at hlength
    exact hv (List.length_eq_zero_iff.1 (Nat.le_zero.1 hlength))
  have hexpand : ∀ t : Stock, (expandGap L.nmlist L.ecbrickinfos
      (text (terms ((gaplist L.nmlist).map (·.gap)) v))).run t =
      (((gained L.nmlist v).map (gapMove L.nmlist)).forM (extendArrays L.ecbrickinfos)).run t := by
    intro t
    rw [expandGap, EStateM.run_bind, gapItems_run hv hgaplist]
  have hstart : Sectioned L v { s with extended := ∅ } := by
    intro key ecnum hgained
    simp [Gained, assigned] at hgained
  rw [sourcesDiffer_text]
  simp only [hexpand]
  constructor
  · intro e s' herror hpairwise
    exact ((spec_sectioned L v).error _ e s' hstart herror).once hpairwise
  · intro s' hok
    refine ⟨differ_of_once hbound hok, fun hpairwise => ?_⟩
    exact ((spec_sectioned L v).ok _ () s' hstart hok).1.once hpairwise

def threeSizes : Layout where
  m := 1
  nmlist := [⟨2, 1, 2⟩, ⟨3, 1, 1⟩, ⟨4, 1, 1⟩]
  ecbrickinfos := List.toAList [⟨['0'], [0, 1, 2]⟩, ⟨['1'], [3, 4, 5]⟩, ⟨['2'], [6, 7, 8, 9]⟩,
    ⟨['3'], [10, 11, 12, 13, 14]⟩]
  common := by decide
  nodup := by decide
  counted := by decide
  covered := by decide
  positive := by decide

def threeNodes : Stock where
  pool := List.toAList [⟨['5'], [⟨['5'], ['a']⟩]⟩, ⟨['6'], [⟨['6'], ['a']⟩]⟩, ⟨['7'], [⟨['7'], ['a']⟩]⟩]
  created := ∅
  extended := ∅

theorem mem_threeSizes : (1, "1*1+2*1".toList) ∈ (globals.add (gapSchemes 3 []
    (gaplist threeSizes.nmlist) (counts threeSizes.nmlist))).schemelist := by
  decide

theorem run_threeSizes : ∃ s',
    (((gained threeSizes.nmlist [1, 1]).map (gapMove threeSizes.nmlist)).forM
      (extendArrays threeSizes.ecbrickinfos)).run threeNodes = .ok () s' ∧
    (expandGap threeSizes.nmlist threeSizes.ecbrickinfos "1*1+2*1".toList).run threeNodes =
      .ok () s' := by
  have htext : "1*1+2*1".toList = text (terms ((gaplist threeSizes.nmlist).map (·.gap)) [1, 1]) := by
    decide
  rw [htext, expandGap, EStateM.run_bind, gapItems_run (by decide) (by decide)]
  exact ⟨_, rfl, rfl⟩

theorem expandGap_once_iff_threeSizes : ∃ s',
    (expandGap threeSizes.nmlist threeSizes.ecbrickinfos "1*1+2*1".toList).run threeNodes =
      .ok () s' ∧ (Once s' ↔ SourcesDiffer threeSizes.nmlist "1*1+2*1".toList) := by
  obtain ⟨s', -, hs'⟩ := run_threeSizes
  exact ⟨s', hs', (expandGap_once_iff threeSizes (combnmgap_run_all _ 3) mem_threeSizes
    threeNodes).2 s' hs'⟩

theorem expanded_twice :
    (∃ g, (combnmgap threeSizes.nmlist (gaplist threeSizes.nmlist) 3
        ((gaplist threeSizes.nmlist).map (·.gap)) (aglist threeSizes.nmlist) []).run globals =
          .ok () g ∧ (1, "1*1+2*1".toList) ∈ g.schemelist) ∧
      ∃ s', (expandGap threeSizes.nmlist threeSizes.ecbrickinfos "1*1+2*1".toList).run threeNodes =
        .ok () s' ∧ ¬Once s' := by
  obtain ⟨s', hmoves, hs'⟩ := run_threeSizes
  refine ⟨⟨_, combnmgap_run_all _ 3, mem_threeSizes⟩, s', hs', fun honce => ?_⟩
  exact absurd (differ_of_once (by decide) hmoves honce) (by decide)

end MyScripts.CreateConfig
