import MyScripts.CreateConfig.NewGroups

/-!
# Schemes of gaps between combinations

`combnmgap` tests the total of a prefix when it enters the next level, and there
is no level behind the last pair of combinations. A solution that needs groups
of the last pair is never found.
-/
namespace MyScripts.CreateConfig
open Library.SumOfProducts Library.Exceptions

variable {g : Globals} {d : List Combination} {ts : List (List ℕ)} {nn s i r x tindex aindex : ℕ}
  {left : ℕ → ℕ} {p : Gap} {ps : List Gap} {q : ℕ × ℕ} {pre qs : List (ℕ × ℕ)} {v : List ℕ}

def toGap (d : List Combination) : ℕ × ℕ → Gap
  | (i, j) =>
    let gap := nOf d i - nOf d j
    if 0 < gap then ⟨j, i, gap.toNat⟩ else ⟨i, j, gap.natAbs⟩

theorem gaplist_eq (d : List Combination) : gaplist d = (pairs d.length).map (toGap d) := rfl

def take (left : ℕ → ℕ) (x i : ℕ) : ℕ → ℕ := Function.update left x (left x - i)

def bounds (left : ℕ → ℕ) (ps : List Gap) : List ℤ := ps.map fun p => (left p.source : ℤ)

theorem subtract_run (b b' : List ℤ) (v : ℤ) :
    (subtract (b ++ v :: b') b.length i).run g = .ok (b ++ (v - i) :: b') g := by
  simp only [subtract, item, List.getElem?_append_right (Nat.le_refl _), Nat.sub_self,
    List.getElem?_cons_zero, EStateM.run_bind]
  simp [EStateM.run_pure]

theorem reduceStep_ge (b1 : List ℤ) : reduceStep d tindex aindex i b1 (q, tindex + r) =
    if (toGap d q).source = aindex then subtract b1 (r + 1) i else pure b1 := by
  obtain ⟨o, p⟩ := q
  rw [reduceStep, if_pos (Nat.le_add_right _ _), Nat.add_sub_cancel_left]
  by_cases hgap : 0 < nOf d o - nOf d p
  · simp only [toGap, if_pos hgap]
  · simp only [toGap, if_neg hgap]

theorem reduce_skip (b : List ℤ) (h : r + pre.length ≤ tindex) :
    ((pre.zipIdx r).foldlM (reduceStep d tindex aindex i) b).run g = .ok b g := by
  induction pre generalizing r with
  | nil => rfl
  | cons q pre ih =>
    rw [List.length_cons] at h
    have hskip : reduceStep d tindex aindex i b (q, r) = pure b := if_neg (by omega)
    rw [List.zipIdx_cons, List.foldlM_cons, hskip, pure_bind]
    exact ih (by omega)

theorem reduce_later (b : List ℤ) (hi : i ≤ left aindex) (hb : b.length = r + 1) :
    ((qs.zipIdx (tindex + r)).foldlM (reduceStep d tindex aindex i)
      (b ++ bounds left (qs.map (toGap d)))).run g =
      .ok (b ++ bounds (take left aindex i) (qs.map (toGap d))) g := by
  induction qs generalizing b r with
  | nil => rfl
  | cons q qs ih =>
    have hstep : (reduceStep d tindex aindex i
        (b ++ bounds left ((q :: qs).map (toGap d))) (q, tindex + r)).run g =
        .ok (b ++ (take left aindex i (toGap d q).source : ℤ) ::
          bounds left (qs.map (toGap d))) g := by
      rw [reduceStep_ge]
      by_cases hsource : (toGap d q).source = aindex
      · have hsubtract := subtract_run (g := g) (i := i) b (bounds left (qs.map (toGap d)))
          (left aindex)
        rw [← Int.ofNat_sub hi] at hsubtract
        rw [if_pos hsource, ← hb]
        simpa [bounds, take, hsource] using hsubtract
      · rw [if_neg hsource]
        simp [bounds, take, hsource]
    have hrest := ih (b ++ [(take left aindex i (toGap d q).source : ℤ)])
      (by simp [hb] : _ = r + 1 + 1)
    rw [List.zipIdx_cons, List.foldlM_cons, EStateM.run_bind, hstep]
    simpa [bounds, Nat.add_assoc] using hrest

theorem reduce_run (hpairs : pairs d.length = pre ++ q :: qs) (b0 : ℤ) (hi : i ≤ left aindex) :
    (reduce d (pre.length + 1) aindex i (b0 :: bounds left (qs.map (toGap d)))).run g =
      .ok (b0 :: bounds (take left aindex i) (qs.map (toGap d))) g := by
  rw [reduce]
  split_ifs with hzero
  · have hsplit : pairs d.length = (pre ++ [q]) ++ qs := by simpa using hpairs
    rw [hsplit, List.zipIdx_append, List.foldlM_append, EStateM.run_bind, reduce_skip _ (by simp)]
    simpa using reduce_later (r := 0) [b0] hi rfl
  · obtain rfl : i = 0 := Nat.eq_zero_of_not_pos hzero
    simp [bounds, take, EStateM.run_pure]

/-- The numbers of groups of the pairs `ps` in the schemes behind a prefix that needs `total`
nodes. -/
def gapCounts (nn : ℕ) : List Gap → (ℕ → ℕ) → (total : Option ℕ) → List (List ℕ)
  | [], _, _ => []
  | p :: ps, left, total =>
    if total = some nn then [[]]
    else (downTo (left p.source)).flatMap fun i =>
      (gapCounts nn ps (take left p.source i) (some (total.getD 0 + p.gap * i))).map (i :: ·)

def total (ts : List (List ℕ)) : Option ℕ := if ts = [] then none else some (value ts)

def gapSchemes (nn : ℕ) (ts : List (List ℕ)) (ps : List Gap) (left : ℕ → ℕ) : List Scheme :=
  (gapCounts nn ps left (total ts)).map fun v => (1, text (ts ++ terms (ps.map (·.gap)) v))

theorem total_concat (ts : List (List ℕ)) (a i : ℕ) :
    total (ts ++ [[a, i]]) = some ((total ts).getD 0 + a * i) := by
  by_cases hts : ts = []
  · simp [total, hts]
  · simp [total, hts, value_append]

theorem run_evaluateNonempty (h : ∀ fs ∈ ts, fs ≠ []) :
    (evaluateNonempty (text ts)).run g = .ok (total ts) g := by
  rw [evaluateNonempty, total]
  by_cases hts : ts = []
  · simp [hts, text, EStateM.run_pure]
  · have htext : text ts ≠ [] := fun htext => hts ((text_eq_nil h).1 htext)
    rw [if_neg htext, if_neg hts, map_eq_pure_bind, EStateM.run_bind, run_evaluate hts h]
    rfl

theorem length_splitOn_extend (h : ∀ fs ∈ ts, fs ≠ []) (a i : ℕ) :
    ((extend (text ts) a i).splitOn '+').length = ts.length + 1 := by
  rw [extend_text h, splitOn_text (by simp)]
  simp

theorem combnmgapRound_found {rest : List ℤ → List Char → Py Unit} {b : List ℤ} {a : ℕ}
    (h : ∀ fs ∈ ts, fs ≠ []) (hfound : total ts = some nn) :
    (combnmgapRound d (gaplist d) nn rest a b (text ts) i).run g =
      .ok .done (g.add [(1, text ts)]) := by
  simp only [combnmgapRound, EStateM.run_bind, run_evaluateNonempty h, if_pos hfound]
  rfl

theorem combnmgapRound_next {rest : List ℤ → List Char → Py Unit} {out : List Scheme}
    (h : ∀ fs ∈ ts, fs ≠ []) (hpairs : pairs d.length = pre ++ q :: qs)
    (hlength : ts.length = pre.length) (hi : i ≤ left (toGap d q).source)
    (hmore : total ts ≠ some nn)
    (hrest : (rest (bounds (take left (toGap d q).source i) (qs.map (toGap d)))
      (text (ts ++ [[(toGap d q).gap, i]]))).run g = .ok () (g.add out)) :
    (combnmgapRound d (gaplist d) nn rest (toGap d q).gap
      (bounds left ((q :: qs).map (toGap d))) (text ts) i).run g = .ok (.next ()) (g.add out) := by
  have hitem : (item (gaplist d) (ts.length + 1 - 1)).run g = .ok (toGap d q) g := by
    simp [item, gaplist_eq, hpairs, hlength, EStateM.run_pure]
  have hb1 := reduce_run (g := g) hpairs (left (toGap d q).source) hi
  rw [← hlength] at hb1
  rw [← extend_text h] at hrest
  simp only [combnmgapRound, EStateM.run_bind, run_evaluateNonempty h, if_neg hmore,
    length_splitOn_extend h, hitem]
  simp only [bounds, List.map_cons, List.map_map] at hb1 hrest ⊢
  simp only [hb1, List.tail_cons, hrest]
  rfl

theorem combnmgap_run (h : ∀ fs ∈ ts, fs ≠ []) (hpairs : pairs d.length = pre ++ qs)
    (hlength : ts.length = pre.length) :
    (combnmgap d (gaplist d) nn ((qs.map (toGap d)).map (·.gap)) (bounds left (qs.map (toGap d)))
      (text ts)).run g = .ok () (g.add (gapSchemes nn ts (qs.map (toGap d)) left)) := by
  induction qs generalizing pre ts left g with
  | nil => simp [combnmgap, gapSchemes, gapCounts, EStateM.run_pure]
  | cons q qs ih =>
    have hitem : (item (bounds left ((q :: qs).map (toGap d))) 0).run g =
        .ok (left (toGap d q).source : ℤ) g := rfl
    rw [List.map_cons, List.map_cons, combnmgap, gapSchemes, gapCounts, ← List.map_cons]
    simp only [EStateM.run_bind, hitem]
    by_cases hfound : total ts = some nn
    · obtain ⟨l, hl⟩ := downTo_succ (left (toGap d q).source)
      rw [hl, loop_cons_done (combnmgapRound_found h hfound), if_pos hfound]
      simp [terms]
    · have hround : ∀ i ∈ downTo (left (toGap d q).source), ∀ g,
          (combnmgapRound d (gaplist d) nn
            (combnmgap d (gaplist d) nn ((qs.map (toGap d)).map (·.gap))) (toGap d q).gap
            (bounds left ((q :: qs).map (toGap d))) (text ts) i).run g = .ok (.next ())
            (g.add (gapSchemes nn (ts ++ [[(toGap d q).gap, i]]) (qs.map (toGap d))
              (take left (toGap d q).source i))) := by
        intro i hi g
        refine combnmgapRound_next h hpairs hlength (mem_downTo.1 hi) hfound ?_
        have hpairs' : pairs d.length = (pre ++ [q]) ++ qs := by simpa using hpairs
        exact ih (concat_ne_nil h) hpairs' (by simpa using hlength)
      rw [run_loop_add hround, if_neg hfound]
      simp [gapSchemes, terms, List.map_flatMap, total_concat, Function.comp_def]

def Available : List Gap → (ℕ → ℕ) → List ℕ → Prop
  | [], _, [] => True
  | p :: ps, left, i :: v => i ≤ left p.source ∧ Available ps (take left p.source i) v
  | _, _, _ => False

theorem available_cons : Available (p :: ps) left v ↔
    ∃ i w, v = i :: w ∧ i ≤ left p.source ∧ Available ps (take left p.source i) w := by
  cases v <;> simp [Available]

theorem available_zero (ps : List Gap) (left : ℕ → ℕ) :
    Available ps left (List.replicate ps.length 0) := by
  induction ps generalizing left with
  | nil => trivial
  | cons p ps ih => exact ⟨Nat.zero_le _, ih _⟩

theorem used_zero (as : List ℕ) (n : ℕ) : used as (List.replicate n 0) = 0 := by
  induction n generalizing as with
  | zero => simp [used]
  | succ n ih =>
    cases as with
    | nil => simp [used]
    | cons a as => simpa [List.replicate_succ] using ih as

/-- Numbers of groups for `ps` that need `nn` nodes with the `s` before them, none of the last pair. -/
def Reached (nn : ℕ) (ps : List Gap) (left : ℕ → ℕ) (s : ℕ) (v : List ℕ) : Prop :=
  Available ps left v ∧ s + used (ps.map (·.gap)) v = nn ∧ v.getLast? = some 0

theorem reached_cons {w : List ℕ} (hw : w ≠ []) : Reached nn (p :: ps) left s (i :: w) ↔
    i ≤ left p.source ∧ Reached nn ps (take left p.source i) (s + p.gap * i) w := by
  simp [Reached, Available, List.getLast?_cons_of_ne_nil hw, and_assoc, Nat.add_assoc]

theorem reached_zero (h : ps ≠ []) (left : ℕ → ℕ) :
    Reached nn ps left nn (List.replicate ps.length 0) := by
  have hlength : ps.length ≠ 0 := by simpa using h
  exact ⟨available_zero ps left, by rw [used_zero, Nat.add_zero],
    by simp [List.getLast?_replicate, hlength]⟩

theorem exists_gapCounts_cons {total : Option ℕ} (h : total ≠ some nn) :
    (∃ v, v ∈ gapCounts nn (p :: ps) left total) ↔
      ∃ i, i ≤ left p.source ∧
        ∃ v, v ∈ gapCounts nn ps (take left p.source i) (some (total.getD 0 + p.gap * i)) := by
  simp [gapCounts, h, mem_downTo]

theorem exists_gapCounts_some :
    (∃ v, v ∈ gapCounts nn ps left (some s)) ↔ ∃ v, Reached nn ps left s v := by
  induction ps generalizing left s with
  | nil =>
    refine iff_of_false (by simp [gapCounts]) ?_
    rintro ⟨v, hv, -, hlast⟩
    cases v with
    | nil => simp at hlast
    | cons i v => exact hv
  | cons p ps ih =>
    by_cases hs : s = nn
    · -- the pairs that are left need no groups
      subst hs
      refine iff_of_true ⟨[], by simp [gapCounts]⟩ ⟨_, reached_zero (List.cons_ne_nil p ps) left⟩
    · rw [exists_gapCounts_cons (by simpa using hs)]
      simp only [ih, Option.getD_some]
      constructor
      · rintro ⟨i, hi, w, hw⟩
        have hne : w ≠ [] := by
          rintro rfl
          simpa using hw.2.2
        exact ⟨i :: w, (reached_cons hne).2 ⟨hi, hw⟩⟩
      · rintro ⟨v, hv⟩
        obtain ⟨i, w, rfl, hi, hw⟩ := available_cons.1 hv.1
        have hne : w ≠ [] := by
          -- a last pair without groups needs no nodes
          rintro rfl
          have hlast : i = 0 := by simpa using hv.2.2
          have htotal := hv.2.1
          rw [List.map_cons, used_cons, hlast] at htotal
          exact hs (by simpa [used] using htotal)
        exact ⟨i, hi, w, ((reached_cons hne).1 hv).2⟩

theorem exists_gapCounts_none :
    (∃ v, v ∈ gapCounts nn ps left none) ↔ 2 ≤ ps.length ∧ ∃ v, Reached nn ps left 0 v := by
  cases ps with
  | nil => simp [gapCounts]
  | cons p ps =>
    rw [exists_gapCounts_cons (by simp)]
    simp only [exists_gapCounts_some, Option.getD_none]
    constructor
    · rintro ⟨i, hi, w, hw⟩
      have hne : w ≠ [] := by
        rintro rfl
        simpa using hw.2.2
      have hps : ps ≠ [] := by
        rintro rfl
        cases w with
        | nil => exact hne rfl
        | cons i w => exact hw.1
      have hlength := List.length_pos_of_ne_nil hps
      exact ⟨by rw [List.length_cons]; omega, i :: w, (reached_cons hne).2 ⟨hi, hw⟩⟩
    · rintro ⟨hlength, v, hv⟩
      obtain ⟨i, w, rfl, hi, hw⟩ := available_cons.1 hv.1
      have hne : w ≠ [] := by
        rintro rfl
        cases ps with
        | nil => simp at hlength
        | cons p ps => exact hw
      exact ⟨i, hi, w, ((reached_cons hne).1 hv).2⟩

theorem two_le_length_pairs (n : ℕ) : 2 ≤ (pairs n).length ↔ 3 ≤ n := by
  match n with
  | 0 => decide
  | 1 => decide
  | 2 => decide
  | n + 3 =>
    refine iff_of_true ?_ (Nat.le_add_left 3 n)
    simp only [pairs, List.range_succ_eq_map, List.flatMap_cons, List.length_append,
      List.length_map, List.length_range']
    omega

def counts (d : List Combination) (x : ℕ) : ℕ := (d.getD x ⟨0, 0, 0⟩).count

theorem combnmgap_run_all (d : List Combination) (nn : ℕ) :
    (combnmgap d (gaplist d) nn ((gaplist d).map (·.gap)) (aglist d) []).run g =
      .ok () (g.add (gapSchemes nn [] (gaplist d) (counts d))) :=
  @combnmgap_run g d [] nn (counts d) [] (pairs d.length) (List.forall_mem_nil _) rfl rfl

def Solution (d : List Combination) (nn : ℕ) (v : List ℕ) : Prop :=
  Available (gaplist d) (counts d) v ∧ used ((gaplist d).map (·.gap)) v = nn

theorem reached_iff_solution : Reached nn (gaplist d) (counts d) 0 v ↔
    Solution d nn v ∧ v.getLast? = some 0 := by
  rw [Reached, Nat.zero_add, Solution, and_assoc]

/-- A scheme is found exactly when some solution has no groups of the last of several pairs. -/
theorem combnmgap_complete_iff (d : List Combination) (nn : ℕ) :
    ∃ g, (combnmgap d (gaplist d) nn ((gaplist d).map (·.gap)) (aglist d) []).run globals =
        .ok () g ∧
      (((∃ v, Solution d nn v) → ∃ c, (1, c) ∈ g.schemelist) ↔
        ((∃ v, Solution d nn v) →
          3 ≤ d.length ∧ ∃ v, Solution d nn v ∧ v.getLast? = some 0)) := by
  refine ⟨_, combnmgap_run_all d nn, ?_⟩
  have hfound : (∃ c, (1, c) ∈
        (globals.add (gapSchemes nn [] (gaplist d) (counts d))).schemelist) ↔
      ∃ v, v ∈ gapCounts nn (gaplist d) (counts d) none := by
    simp [gapSchemes, Globals.add, globals, total]
  have hlength : 2 ≤ (gaplist d).length ↔ 3 ≤ d.length := by
    rw [gaplist_eq, List.length_map, two_le_length_pairs]
  simp only [hfound, exists_gapCounts_none, hlength, reached_iff_solution]

/-- One group of two nodes could become one of four, but the only pair of combinations is the last
one. -/
theorem no_scheme_for_two : Solution [⟨2, 1, 1⟩, ⟨4, 1, 1⟩] 2 [1] ∧
    (combnmgap [⟨2, 1, 1⟩, ⟨4, 1, 1⟩] (gaplist [⟨2, 1, 1⟩, ⟨4, 1, 1⟩]) 2
      ((gaplist [⟨2, 1, 1⟩, ⟨4, 1, 1⟩]).map (·.gap)) (aglist [⟨2, 1, 1⟩, ⟨4, 1, 1⟩]) []).run
        globals = .ok () globals := by
  have havailable : Available (gaplist [⟨2, 1, 1⟩, ⟨4, 1, 1⟩])
      (counts [⟨2, 1, 1⟩, ⟨4, 1, 1⟩]) [1] := ⟨by decide, trivial⟩
  exact ⟨⟨havailable, by decide⟩, rfl⟩

end MyScripts.CreateConfig
