import MyScripts.ErasureCode.Patterns

/-!
# A decode matrix that fails

`ec_method_decode_matrix_init` leaves its loops when a pattern of one fragment
fails. The search hands a failure to callers that ignore it: from two fragments
on the enumeration goes on, and ends with the result of the single fragments.
-/
namespace MyScripts.ErasureCode.DecodeList
open Library.Combinations

variable {new : Call → ℤ} {m k errorCount : ℕ} {s t : List ℕ} {i n r todo : ℕ}
  {calls : List Call}

/-- The first call that fails is the last one, and its error is returned. -/
def Stops (new : Call → ℤ) (t : Init) : Prop :=
  ∀ pre c post, t.calls = pre ++ c :: post → new c < 0 → post = [] ∧ t.err < 0

theorem calls_ftwLoop (s : Search) : s.calls <+: (ftwLoop new k errorCount todo i s).calls := by
  induction todo generalizing i s with
  | zero => exact List.prefix_refl _
  | succ todo ih =>
    have hadd : s.calls <+: (s.mark k i).addCall.calls := List.prefix_append _ _
    have hinner : s.calls <+: _ := ih (i := i + 1) (s.mark k i)
    rw [ftwLoop]
    split_ifs
    · exact hadd
    · exact hadd.trans (ih ((s.mark k i).addCall.unmark k i))
    · exact ih ((s.mark k i).unmark k i)
    · exact hinner.trans (ih ((ftwLoop new k errorCount todo (i + 1) (s.mark k i)).unmark k i))

theorem calls_ecMethodDecodeMatrixFtw (s : Search) :
    s.calls <+: (ecMethodDecodeMatrixFtw new m k errorCount n s).calls :=
  calls_ftwLoop s

theorem calls_forLoop {t t' : Init}
    (h : forLoop new m k errorCount todo n t = .ok t') : t.calls <+: t'.calls := by
  induction todo generalizing n t with
  | zero => simp_all [forLoop]
  | succ todo ih =>
    rw [forLoop] at h
    split_ifs at h
    · exact (List.prefix_append _ _).trans (ih h)
    · exact ih h
    · have hftw : t.calls <+: _ :=
        @calls_ecMethodDecodeMatrixFtw new m k errorCount n ((Search.clear m t.calls).mark k n)
      exact hftw.trans (ih h)

theorem ftwLoop_fails (hs : ∀ j ∈ s, j < i) (hsi : s.length ≤ i) (hi : i + todo = m)
    (hr : errorCount = s.length + (r + 1)) (hfail : ∃ c ∈ callsOf m k
      ((combinations (r + 1) (List.range' i todo)).map (s ++ ·)), new c < 0) :
    ∃ c ∈ (ftwLoop new k errorCount todo i (Search.at m k s calls)).calls, new c < 0 := by
  induction todo generalizing i s r calls with
  | zero => simp [combinations, callsOf] at hfail
  | succ todo ih =>
    have his : i ∉ s := fun hmem => Nat.lt_irrefl i (hs i hmem)
    have hs' : ∀ j ∈ s, j < i + 1 := fun j hj => Nat.lt_succ_of_lt (hs j hj)
    rw [combinations_split, callsOf_append] at hfail
    simp only [List.mem_append, or_and_right, exists_or] at hfail
    have hrest : ∀ calls, (∃ c ∈ callsOf m k
        ((combinations (r + 1) (List.range' (i + 1) todo)).map (s ++ ·)), new c < 0) →
        ∃ c ∈ (ftwLoop new k errorCount todo (i + 1) (Search.at m k s calls)).calls, new c < 0 :=
      fun calls hfail => ih hs' (by omega) (by omega) hr hfail
    rw [ftwLoop, mark_at (by omega)]
    cases r with
    | zero =>
      have hcount : (s ++ [i]).length = errorCount := by simp [hr]
      rw [at_count, at_nsrcerrs, if_pos hcount, call_at, addCall_at, unmark_at (by omega) his,
        unmark_at (by omega) his]
      simp only [combinations_zero, List.map_singleton, List.append_nil, callsOf_singleton] at hfail
      by_cases hsource : sourceErrors k (s ++ [i]) = 0
      · rw [if_neg (not_not.2 hsource)]
        exact hrest _ (by simpa [hsource] using hfail)
      · rw [if_pos hsource]
        by_cases hnew : new (callOf m k (s ++ [i])) < 0
        · rw [if_pos hnew]
          exact ⟨_, by simp [Search.at], hnew⟩
        · rw [if_neg hnew]
          exact hrest _ (by simpa [hsource, hnew] using hfail)
    | succ r =>
      have hcount : (s ++ [i]).length ≠ errorCount := by simp [hr]
      have hinner := lt_of_mem_concat hs
      have hlength : (s ++ [i]).length = s.length + 1 := List.length_append
      rw [at_count, if_neg hcount]
      by_cases hfirst : ∃ c ∈ callsOf m k
          ((combinations (r + 1) (List.range' (i + 1) todo)).map (s ++ [i] ++ ·)), new c < 0
      · -- the failure is ignored, and its call stays
        obtain ⟨c, hc, hnew⟩ :=
          @ih (s ++ [i]) (i + 1) r calls hinner (by omega) (by omega) (by omega) hfirst
        exact ⟨c, (calls_ftwLoop _).subset hc, hnew⟩
      · have hfine : ∀ c ∈ callsOf m k
            ((combinations (r + 1) (List.range' (i + 1) todo)).map (s ++ [i] ++ ·)), ¬new c < 0 :=
          fun c hc hnew => hfirst ⟨c, hc, hnew⟩
        rw [ftwLoop_at hinner (by omega) (by omega) (by omega) hfine, unmark_at (by omega) his]
        exact hrest _ (hfail.resolve_left hfirst)

theorem mark_clear (hn : n < m) :
    (Search.clear m calls).mark k n = Search.at m k [n] calls := by
  rw [← at_nil (k := k), mark_at (by rw [List.length_nil]; omega)]
  rfl

theorem forLoop_one_fails (hn : n + todo = m) (t : Init)
    (hfail : ∃ c ∈ callsOf m k (combinations 1 (List.range' n todo)), new c < 0) :
    ∃ pre c, forLoop new m k 1 todo n t = .error ⟨new c, t.calls ++ pre ++ [c]⟩ ∧ new c < 0 ∧
      ∀ d ∈ pre, ¬new d < 0 := by
  induction todo generalizing n t with
  | zero => simp [combinations, callsOf] at hfail
  | succ todo ih =>
    have hcount : (Search.at m k [n] t.calls).count = 1 := rfl
    rw [List.range'_succ, combinations, combinations_zero, List.map_singleton, callsOf_append,
      callsOf_singleton] at hfail
    rw [forLoop, mark_clear (by omega), if_pos hcount, at_nsrcerrs, call_at, addCall_at]
    by_cases hsource : sourceErrors k [n] = 0
    · rw [if_neg (not_not.2 hsource)]
      exact ih (by omega) _ (by simpa [hsource] using hfail)
    · rw [if_pos hsource]
      by_cases hnew : new (callOf m k [n]) < 0
      · rw [if_pos hnew]
        exact ⟨[], callOf m k [n], by simp [Search.at], hnew, by simp⟩
      · rw [if_neg hnew]
        obtain ⟨pre, c, hloop, hc, hpre⟩ := ih (n := n + 1) (by omega)
          ⟨new (callOf m k [n]), ((Search.at m k [n] (t.calls ++ [callOf m k [n]])).unmark k n).calls⟩
          (by simpa [hsource, hnew] using hfail)
        refine ⟨callOf m k [n] :: pre, c, ?_, hc, List.forall_mem_cons.2 ⟨hnew, hpre⟩⟩
        rw [hloop]
        simp [Search.at, Search.unmark]

theorem forLoop_one_err {t t' : Init} (hn : n + todo = m)
    (h : forLoop new m k 1 todo n t = .ok t') (hstart : 0 ≤ t.err ∨ n < k ∧ 0 < todo) :
    0 ≤ t'.err := by
  induction todo generalizing n t with
  | zero => simp_all [forLoop]
  | succ todo ih =>
    have hcount : (Search.at m k [n] t.calls).count = 1 := rfl
    rw [forLoop, mark_clear (by omega), if_pos hcount, at_nsrcerrs, call_at, addCall_at] at h
    by_cases hnk : n < k
    · have hsource : sourceErrors k [n] ≠ 0 := by simp [sourceErrors, hnk]
      rw [if_pos hsource] at h
      by_cases hnew : new (callOf m k [n]) < 0
      · simp [hnew] at h
      · rw [if_neg hnew] at h
        exact ih (by omega) h (Or.inl (not_lt.1 hnew))
    · have hsource : sourceErrors k [n] = 0 := by simp [sourceErrors, hnk]
      rw [if_neg (not_not.2 hsource)] at h
      exact ih (by omega) h (Or.inl (hstart.resolve_right fun hstart => hnk hstart.1))

theorem forLoop_search (hn : n + todo = m) (t : Init) :
    ∃ t', forLoop new m k (r + 2) todo n t = .ok t' ∧ t'.err = t.err ∧
      ((∃ c ∈ callsOf m k (combinations (r + 2) (List.range' n todo)), new c < 0) →
        ∃ c ∈ t'.calls, new c < 0) := by
  induction todo generalizing n t with
  | zero => exact ⟨t, rfl, rfl, by simp [combinations, callsOf]⟩
  | succ todo ih =>
    have hcount : (Search.at m k [n] t.calls).count ≠ r + 2 := by simp
    have htodo : m - (n + 1) = todo := by omega
    obtain ⟨t', hloop, herr, hcalls⟩ := ih (n := n + 1) (by omega) ⟨t.err,
      ((ecMethodDecodeMatrixFtw new m k (r + 2) n (Search.at m k [n] t.calls)).unmark k n).calls⟩
    refine ⟨t', ?_, herr, ?_⟩
    · rw [forLoop, mark_clear (by omega), if_neg hcount, hloop]
    · rw [List.range'_succ, combinations, callsOf_append]
      rintro ⟨c, hc, hnew⟩
      rcases List.mem_append.1 hc with hc | hc
      · have hlength : r + 2 = [n].length + (r + 1) := by
          rw [List.length_singleton]
          omega
        obtain ⟨d, hd, hdnew⟩ := ftwLoop_fails (by simp) (by simp) (by omega) hlength ⟨c, hc, hnew⟩
        rw [ecMethodDecodeMatrixFtw, htodo] at hloop
        exact ⟨d, (calls_forLoop hloop).subset hd, hdnew⟩
      · exact hcalls ⟨c, hc, hnew⟩

theorem whileLoop_search (t : Init) :
    ∃ t', whileLoop new m k todo (r + 2) t = .ok t' ∧ t'.err = t.err ∧ t.calls <+: t'.calls ∧
      ((∃ c ∈ callsOf m k ((List.range' (r + 2) todo).flatMap (combinations · (List.range m))),
        new c < 0) → ∃ c ∈ t'.calls, new c < 0) := by
  induction todo generalizing r t with
  | zero => exact ⟨t, rfl, rfl, List.prefix_refl _, by simp [callsOf]⟩
  | succ todo ih =>
    obtain ⟨t₁, hfor, herr₁, hcalls₁⟩ :=
      forLoop_search (k := k) (r := r) (Nat.zero_add m) t
    obtain ⟨t₂, hwhile, herr₂, hprefix, hcalls₂⟩ := ih (r := r + 1) t₁
    refine ⟨t₂, ?_, herr₂.trans herr₁, (calls_forLoop hfor).trans hprefix, ?_⟩
    · rw [whileLoop, hfor]
      exact hwhile
    · rw [List.range'_succ, List.flatMap_cons, callsOf_append]
      rintro ⟨c, hc, hnew⟩
      rcases List.mem_append.1 hc with hc | hc
      · rw [List.range_eq_range'] at hc
        obtain ⟨d, hd, hdnew⟩ := hcalls₁ ⟨c, hc, hnew⟩
        exact ⟨d, hprefix.subset hd, hdnew⟩
      · exact hcalls₂ ⟨c, hc, hnew⟩

theorem mem_callsOf_one (hkm : k < m) (hm : m ≤ 2 ^ 8) {c : Call} :
    c ∈ callsOf m k (combinations 1 (List.range m)) ↔ ∃ i < k, pattern m k {i} = c := by
  have hcall : ∀ i < k, callOf m k [i] = pattern m k {i} := by
    intro i hi
    rw [← callOf_sort hm (by simp; omega), Finset.sort_singleton]
  simp only [callsOf, List.mem_map, List.mem_filter, mem_combinations]
  constructor
  · rintro ⟨s, ⟨⟨hs, hlength⟩, hsource⟩, rfl⟩
    obtain ⟨i, rfl⟩ := List.length_eq_one_iff.1 hlength
    have hik : i < k := by
      by_contra hik
      simp [sourceErrors, hik] at hsource
    exact ⟨i, hik, (hcall i hik).symm⟩
  · rintro ⟨i, hik, rfl⟩
    refine ⟨[i], ⟨⟨?_, rfl⟩, ?_⟩, hcall i hik⟩
    · rw [List.singleton_sublist, List.mem_range]
      omega
    · simp [sourceErrors, hik]

theorem mem_callsOf (hm : m ≤ 2 ^ 8) {c : Call} :
    c ∈ callsOf m k ((List.range' 1 (m - k)).flatMap (combinations · (List.range m))) ↔
      ∃ S ∈ patterns m k, pattern m k S = c := by
  rw [← Multiset.mem_coe, enumerates_callsOf hm, Multiset.mem_map]
  rfl

theorem stops_last {e : ℤ} {pre : List Call} {c : Call} (he : e < 0) (hpre : ∀ d ∈ pre, ¬new d < 0) :
    Stops new ⟨e, pre ++ [c]⟩ := by
  intro pre' c' post hsplit hnew
  refine ⟨?_, he⟩
  rcases List.eq_nil_or_concat' post with hpost | ⟨p, d, rfl⟩
  · exact hpost
  · have hsplit' : pre ++ [c] = (pre' ++ c' :: p) ++ [d] := by simpa using hsplit
    have hpre' := List.append_inj_left' hsplit' rfl
    exact absurd hnew (hpre c' (by simp [hpre']))

theorem whileLoop_one_fails
    (hone : ∃ c ∈ callsOf m k (combinations 1 (List.range m)), new c < 0) :
    ∃ t, whileLoop new m k (r + 1) 1 ⟨-enomem, []⟩ = .error t ∧ Stops new t := by
  obtain ⟨pre, c, hloop, hc, hpre⟩ :=
    forLoop_one_fails (Nat.zero_add m) ⟨-enomem, []⟩ (List.range_eq_range' ▸ hone)
  refine ⟨⟨new c, pre ++ [c]⟩, ?_, stops_last hc hpre⟩
  rw [whileLoop, hloop]
  rfl

/-- No single fragment fails: all patterns are tried, and the last single one has set `err`. -/
theorem whileLoop_stops_iff (hk : 1 ≤ k) (hkm : k < m) (hbyte : m ≤ 2 ^ 8) (hr : m - k = r + 1)
    (hone : ¬∃ c ∈ callsOf m k (combinations 1 (List.range m)), new c < 0) :
    ∃ t, whileLoop new m k (r + 1) 1 ⟨-enomem, []⟩ = .ok t ∧
      (Stops new t ↔ ∀ S ∈ patterns m k, 0 ≤ new (pattern m k S)) := by
  have hfine : ∀ c ∈ callsOf m k (combinations 1 (List.range' 0 m)), ¬new c < 0 := by
    rw [← List.range_eq_range']
    exact fun c hc hnew => hone ⟨c, hc, hnew⟩
  obtain ⟨t₁, hfor, -⟩ := forLoop_calls (Nat.zero_add m) hfine ⟨-enomem, []⟩
  have herr := forLoop_one_err (Nat.zero_add m) hfor (Or.inr ⟨hk, by omega⟩)
  obtain ⟨t₂, hwhile, herr₂, -, hfail⟩ := @whileLoop_search new m k 0 r t₁
  have hok : whileLoop new m k (r + 1) 1 ⟨-enomem, []⟩ = .ok t₂ := by
    rw [whileLoop, hfor]
    exact hwhile
  refine ⟨t₂, hok, fun hstops S hS => ?_, fun hall => ?_⟩
  · by_contra hneg
    have hmem : pattern m k S ∈ callsOf m k _ := (mem_callsOf hbyte).2 ⟨S, hS, rfl⟩
    rw [hr, List.range'_succ, List.flatMap_cons, callsOf_append, List.mem_append] at hmem
    have hlater := hmem.resolve_left fun hmem => hone ⟨_, hmem, not_le.1 hneg⟩
    obtain ⟨c, hc, hnew⟩ := hfail ⟨_, hlater, not_le.1 hneg⟩
    obtain ⟨pre, post, hsplit⟩ := List.append_of_mem hc
    have hneg : t₂.err < 0 := (hstops pre c post hsplit hnew).2
    omega
  · have hall' : ∀ c ∈ callsOf m k
        ((List.range' 1 (m - k)).flatMap (combinations · (List.range m))), ¬new c < 0 := by
      intro c hc
      obtain ⟨S, hS, rfl⟩ := (mem_callsOf hbyte).1 hc
      exact not_lt.2 (hall S hS)
    obtain ⟨t, hwhile', hcalls⟩ := whileLoop_calls (r := 0) hall' ⟨-enomem, []⟩
    rw [hr, hok] at hwhile'
    cases hwhile'
    intro pre c post hsplit hnew
    refine absurd hnew (hall' c ?_)
    rw [List.nil_append] at hcalls
    rw [← hcalls, hsplit]
    simp

/-- A failure stops the enumeration if and only if it is that of a single fragment. -/
theorem stops_iff (hk : 1 ≤ k) (hkm : k < m) (hm : m < 2 ^ 31) :
    (∀ t, ecMethodDecodeMatrixInit new m k = some t → Stops new t) ↔
      ¬(m ≤ 65 ∨ m = 66 ∧ k = 65) ∨ (∃ i < k, new (pattern m k {i}) < 0) ∨
        ∀ S ∈ patterns m k, 0 ≤ new (pattern m k S) := by
  obtain ⟨r, hr⟩ : ∃ r, m - k = r + 1 := ⟨m - k - 1, by omega⟩
  have hredundancy : ((m : ℤ) - k).toNat = r + 1 := by omega
  rw [← divides_iff hk hkm, ecMethodDecodeMatrixInit, if_neg (by omega),
    ecMethodCombination_eq hk hkm hm, hredundancy, Int.toNat_natCast, Int.toNat_natCast]
  by_cases hdivides : Divides m k
  · have hsmall := (divides_iff hk hkm).1 hdivides
    have hbyte : m ≤ 2 ^ 8 := by omega
    rw [if_pos hdivides, or_iff_right (not_not.2 hdivides), Option.map_some]
    simp only [Option.some.injEq, forall_eq']
    by_cases hone : ∃ c ∈ callsOf m k (combinations 1 (List.range m)), new c < 0
    · obtain ⟨t, hloop, hstops⟩ := whileLoop_one_fails (r := r) hone
      obtain ⟨d, hd, hnew⟩ := hone
      obtain ⟨i, hi, rfl⟩ := (mem_callsOf_one hkm hbyte).1 hd
      rw [hloop]
      exact iff_of_true hstops (Or.inl ⟨i, hi, hnew⟩)
    · obtain ⟨t, hloop, hstops⟩ := whileLoop_stops_iff hk hkm hbyte hr hone
      have hnone : ¬∃ i < k, new (pattern m k {i}) < 0 := by
        rintro ⟨i, hi, hnew⟩
        exact hone ⟨_, (mem_callsOf_one hkm hbyte).2 ⟨i, hi, rfl⟩, hnew⟩
      rw [hloop, or_iff_right hnone]
      exact hstops
  · simp [hdivides]

theorem stops_iff_single : ∃ t,
    ecMethodDecodeMatrixInit (fun c => if c.nerrs = 1 then -5 else 0) 4 2 = some t ∧
      Stops (fun c => if c.nerrs = 1 then -5 else 0) t :=
  ⟨_, rfl, (stops_iff (m := 4) (k := 2) (by decide) (by decide) (by decide)).2
    (Or.inr (Or.inl ⟨1, by decide, by decide⟩)) _ rfl⟩

theorem stops_false_pair : ∃ t,
    ecMethodDecodeMatrixInit (fun c => if c.srcErrList = [0, 1, 0, 0] then -5 else 0) 4 2 = some t ∧
      t.err = 0 ∧ ¬Stops (fun c => if c.srcErrList = [0, 1, 0, 0] then -5 else 0) t := by
  refine ⟨⟨0, [⟨[1, 0, 0, 0], [0, 0, 0, 0], 1, 1⟩, ⟨[0, 1, 0, 0], [1, 0, 0, 0], 1, 1⟩,
    ⟨[1, 1, 0, 0], [0, 1, 0, 0], 2, 2⟩, ⟨[0, 1, 1, 0], [1, 2, 0, 0], 2, 1⟩,
    ⟨[0, 1, 0, 1], [1, 3, 0, 0], 2, 1⟩]⟩, rfl, rfl, ?_⟩
  intro hstops
  have hlast := (hstops [_, _] _ [_, _] rfl (by decide)).1
  cases hlast

end MyScripts.ErasureCode.DecodeList
