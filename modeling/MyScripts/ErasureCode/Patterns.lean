import MyScripts.ErasureCode.Combination
import MyScripts.Library.Combinations
import Mathlib.Data.Finset.Sort

/-!
# The enumeration of the erasure patterns

`ec_method_decode_matrix_init` makes one decode matrix for each set of at most
`m - k` failed fragments with a failed source fragment. The search
`ec_method_decode_matrix_ftw` shares its counter, its two arrays and its two
counts with its recursive calls; each of them leaves these as it found them.
-/
namespace MyScripts.ErasureCode.DecodeList
open Library.Combinations

structure Call where
  srcInErr : List ℕ
  srcErrList : List ℕ
  nerrs : ℕ
  nsrcerrs : ℕ
deriving DecidableEq

structure Search where
  count : ℕ
  srcInErr : List ℕ
  srcErrList : List ℕ
  nerrs : ℕ
  nsrcerrs : ℕ
  calls : List Call

def Search.mark (k i : ℕ) (s : Search) : Search :=
  { s with
    count := s.count + 1
    srcInErr := s.srcInErr.set i 1
    srcErrList := s.srcErrList.set s.nerrs (i % 2 ^ 8)
    nerrs := s.nerrs + 1
    nsrcerrs := if i < k then s.nsrcerrs + 1 else s.nsrcerrs }

def Search.unmark (k i : ℕ) (s : Search) : Search :=
  { s with
    count := s.count - 1
    srcInErr := s.srcInErr.set i 0
    srcErrList := s.srcErrList.set (s.nerrs - 1) 0
    nerrs := s.nerrs - 1
    nsrcerrs := if i < k then s.nsrcerrs - 1 else s.nsrcerrs }

def Search.call (s : Search) : Call := ⟨s.srcInErr, s.srcErrList, s.nerrs, s.nsrcerrs⟩

def Search.addCall (s : Search) : Search := { s with calls := s.calls ++ [s.call] }

variable (new : Call → ℤ) (m k errorCount : ℕ)

/-- The loop of `ec_method_decode_matrix_ftw`, for the indices from `i` to `i + todo`. Its callers
ignore the error it returns. -/
def ftwLoop : (todo i : ℕ) → Search → Search
  | 0, _, s => s
  | todo + 1, i, s =>
    let s := s.mark k i
    if s.count = errorCount then
      if s.nsrcerrs ≠ 0 then
        -- goto out, with the pattern still marked
        if new s.call < 0 then s.addCall
        else ftwLoop todo (i + 1) (s.addCall.unmark k i)
      else ftwLoop todo (i + 1) (s.unmark k i)
    else ftwLoop todo (i + 1) ((ftwLoop todo (i + 1) s).unmark k i)

def ecMethodDecodeMatrixFtw (n : ℕ) (s : Search) : Search :=
  ftwLoop new k errorCount (m - (n + 1)) (n + 1) s

structure Init where
  err : ℤ
  calls : List Call

def Search.clear (calls : List Call) : Search :=
  ⟨0, List.replicate m 0, List.replicate m 0, 0, 0, calls⟩

/-- The `for` loop of `ec_method_decode_matrix_init`; an error is its `goto out`. -/
def forLoop : (todo n : ℕ) → Init → Except Init Init
  | 0, _, t => .ok t
  | todo + 1, n, t =>
    let s := (Search.clear m t.calls).mark k n
    if s.count = errorCount then
      if s.nsrcerrs ≠ 0 then
        if new s.call < 0 then .error ⟨new s.call, s.addCall.calls⟩
        else forLoop todo (n + 1) ⟨new s.call, (s.addCall.unmark k n).calls⟩
      else forLoop todo (n + 1) ⟨t.err, (s.unmark k n).calls⟩
    else
      forLoop todo (n + 1)
        ⟨t.err, ((ecMethodDecodeMatrixFtw new m k errorCount n s).unmark k n).calls⟩

def whileLoop : (todo errorCount : ℕ) → Init → Except Init Init
  | 0, _, t => .ok t
  | todo + 1, errorCount, t => do
    let t ← forLoop new m k errorCount m 0 t
    whileLoop todo (errorCount + 1) t

def enomem : ℤ := 12

/-- `none` is the division by zero in `ec_method_combination`, whose sum is only printed. -/
def ecMethodDecodeMatrixInit (new : Call → ℤ) (m k : ℤ) : Option Init :=
  if m ≤ 0 ∨ k ≤ 0 then some ⟨-einval, []⟩
  else (ecMethodCombination m k).map fun _ : ℤ =>
    match whileLoop new m.toNat k.toNat (m - k).toNat 1 ⟨-enomem, []⟩ with
    | .ok t => t
    | .error t => t

variable {new m k errorCount} {s t : List ℕ} {i n r todo : ℕ} {calls : List Call}

def indicator (m : ℕ) (s : List ℕ) : List ℕ :=
  (List.range m).map fun i => if i ∈ s then 1 else 0

def sourceErrors (k : ℕ) (s : List ℕ) : ℕ := s.countP (· < k)

def callOf (m k : ℕ) (s : List ℕ) : Call :=
  ⟨indicator m s, s.map (· % 2 ^ 8) ++ List.replicate (m - s.length) 0, s.length,
    sourceErrors k s⟩

def Search.at (m k : ℕ) (s : List ℕ) (calls : List Call) : Search :=
  ⟨s.length, (callOf m k s).srcInErr, (callOf m k s).srcErrList, s.length, sourceErrors k s, calls⟩

theorem indicator_set : (indicator m s).set i 1 = indicator m (s ++ [i]) := by
  apply List.ext_getElem
  · simp [indicator]
  · intro j hj _
    rw [List.getElem_set]
    by_cases hij : i = j
    · simp [indicator, hij]
    · simp [indicator, hij, Ne.symm hij]

theorem indicator_unset (his : i ∉ s) : (indicator m (s ++ [i])).set i 0 = indicator m s := by
  apply List.ext_getElem
  · simp [indicator]
  · intro j hj _
    rw [List.getElem_set]
    by_cases hij : i = j
    · rw [hij] at his
      simp [indicator, hij, his]
    · simp [indicator, hij, Ne.symm hij]

theorem set_pad {l : List ℕ} {x y p : ℕ} :
    (l ++ x :: List.replicate p 0).set l.length y = l ++ y :: List.replicate p 0 := by
  rw [List.set_append_right _ _ (Nat.le_refl _), Nat.sub_self, List.set_cons_zero]

theorem replicate_sub (hsm : s.length < m) :
    List.replicate (m - s.length) 0 = 0 :: List.replicate (m - (s.length + 1)) 0 := by
  rw [← List.replicate_succ]
  congr 1
  omega

theorem sourceErrors_append :
    sourceErrors k (s ++ [i]) = if i < k then sourceErrors k s + 1 else sourceErrors k s := by
  rw [sourceErrors, List.countP_append, List.countP_singleton, ← sourceErrors]
  by_cases hik : i < k
  · simp [hik]
  · simp [hik]

theorem mark_at (hsm : s.length < m) :
    (Search.at m k s calls).mark k i = Search.at m k (s ++ [i]) calls := by
  have hlist : (s.map (· % 2 ^ 8) ++ List.replicate (m - s.length) 0).set s.length (i % 2 ^ 8) =
      (s ++ [i]).map (· % 2 ^ 8) ++ List.replicate (m - (s ++ [i]).length) 0 := by
    have hset := @set_pad (s.map (· % 2 ^ 8)) 0 (i % 2 ^ 8) (m - (s.length + 1))
    rw [List.length_map] at hset
    rw [replicate_sub hsm, hset]
    simp
  simp only [Search.mark, Search.at, callOf, hlist, indicator_set, sourceErrors_append,
    List.length_append, List.length_singleton]

theorem unmark_at (hsm : s.length < m) (his : i ∉ s) :
    (Search.at m k (s ++ [i]) calls).unmark k i = Search.at m k s calls := by
  have hlist : ((s ++ [i]).map (· % 2 ^ 8) ++ List.replicate (m - (s ++ [i]).length) 0).set
      s.length 0 = s.map (· % 2 ^ 8) ++ List.replicate (m - s.length) 0 := by
    have hset := @set_pad (s.map (· % 2 ^ 8)) (i % 2 ^ 8) 0 (m - (s.length + 1))
    rw [List.length_map] at hset
    rw [replicate_sub hsm, ← hset]
    simp
  have hcount : (if i < k then sourceErrors k (s ++ [i]) - 1 else sourceErrors k (s ++ [i])) =
      sourceErrors k s := by
    rw [sourceErrors_append]
    split <;> rfl
  simp only [Search.unmark, Search.at, callOf, List.length_append, List.length_singleton,
    Nat.add_sub_cancel, indicator_unset his, hcount]
  simp only [List.length_append, List.length_singleton] at hlist
  rw [hlist]

@[simp]
theorem at_count : (Search.at m k s calls).count = s.length := rfl

@[simp]
theorem at_nsrcerrs : (Search.at m k s calls).nsrcerrs = sourceErrors k s := rfl

theorem at_nil : Search.at m k [] calls = Search.clear m calls := by
  have hindicator : indicator m [] = List.replicate m 0 := by
    simp [indicator, List.map_const']
  simp [Search.at, Search.clear, callOf, hindicator, sourceErrors]

def callsOf (m k : ℕ) (l : List (List ℕ)) : List Call :=
  (l.filter fun s => sourceErrors k s ≠ 0).map (callOf m k)

theorem callsOf_append (l l' : List (List ℕ)) :
    callsOf m k (l ++ l') = callsOf m k l ++ callsOf m k l' := by
  rw [callsOf, List.filter_append, List.map_append]
  rfl

theorem callsOf_singleton (s : List ℕ) :
    callsOf m k [s] = if sourceErrors k s = 0 then [] else [callOf m k s] := by
  split_ifs with hsource
  · simp [callsOf, hsource]
  · simp [callsOf, hsource]

theorem call_at : (Search.at m k s calls).call = callOf m k s := rfl

theorem addCall_at :
    (Search.at m k s calls).addCall = Search.at m k s (calls ++ [callOf m k s]) := rfl

theorem lt_of_mem_concat (hs : ∀ j ∈ s, j < i) : ∀ j ∈ s ++ [i], j < i + 1 := by
  intro j hj
  rcases List.mem_append.1 hj with hj | hj
  · exact Nat.lt_succ_of_lt (hs j hj)
  · rw [List.mem_singleton.1 hj]
    exact Nat.lt_succ_self i

theorem combinations_split (r i todo : ℕ) (s : List ℕ) :
    (combinations (r + 1) (List.range' i (todo + 1))).map (s ++ ·) =
      (combinations r (List.range' (i + 1) todo)).map (s ++ [i] ++ ·) ++
        (combinations (r + 1) (List.range' (i + 1) todo)).map (s ++ ·) := by
  rw [List.range'_succ, combinations, List.map_append, List.map_map]
  simp [Function.comp_def]

theorem ftwLoop_at (hs : ∀ j ∈ s, j < i) (hsi : s.length ≤ i) (hi : i + todo = m)
    (hr : errorCount = s.length + (r + 1)) (hnew : ∀ c ∈ callsOf m k
      ((combinations (r + 1) (List.range' i todo)).map (s ++ ·)), ¬new c < 0) :
    ftwLoop new k errorCount todo i (Search.at m k s calls) =
      Search.at m k s
        (calls ++ callsOf m k ((combinations (r + 1) (List.range' i todo)).map (s ++ ·))) := by
  induction todo generalizing i s r calls with
  | zero => simp [ftwLoop, combinations, callsOf]
  | succ todo ih =>
    have his : i ∉ s := fun hmem => Nat.lt_irrefl i (hs i hmem)
    have hs' : ∀ j ∈ s, j < i + 1 := fun j hj => Nat.lt_succ_of_lt (hs j hj)
    rw [combinations_split, callsOf_append, List.forall_mem_append] at hnew
    have hrest : ∀ calls, ftwLoop new k errorCount todo (i + 1) (Search.at m k s calls) =
        Search.at m k s (calls ++
          callsOf m k ((combinations (r + 1) (List.range' (i + 1) todo)).map (s ++ ·))) :=
      fun calls => ih hs' (by omega) (by omega) hr hnew.2
    rw [ftwLoop, mark_at (by omega), combinations_split, callsOf_append, ← List.append_assoc]
    cases r with
    | zero =>
      -- the pattern is complete
      have hcount : (s ++ [i]).length = errorCount := by simp [hr]
      rw [at_count, at_nsrcerrs, if_pos hcount, combinations_zero, List.map_singleton,
        List.append_nil, callsOf_singleton]
      by_cases hsource : sourceErrors k (s ++ [i]) = 0
      · rw [if_neg (not_not.2 hsource), unmark_at (by omega) his, hrest, if_pos hsource,
          List.append_nil]
      · have hok : ¬new (Search.at m k (s ++ [i]) calls).call < 0 := by
          apply hnew.1
          simp [combinations_zero, callsOf_singleton, hsource, call_at]
        rw [if_pos hsource, if_neg hok, addCall_at, unmark_at (by omega) his, hrest, if_neg hsource]
    | succ r =>
      have hcount : (s ++ [i]).length ≠ errorCount := by simp [hr]
      have hlength : (s ++ [i]).length = s.length + 1 := List.length_append
      have hinner := @ih (s ++ [i]) (i + 1) r calls (lt_of_mem_concat hs) (by omega) (by omega)
        (by omega) hnew.1
      rw [at_count, if_neg hcount, hinner, unmark_at (by omega) his, hrest]

theorem forLoop_calls (hn : n + todo = m)
    (hnew : ∀ c ∈ callsOf m k (combinations (r + 1) (List.range' n todo)), ¬new c < 0) (t : Init) :
    ∃ t', forLoop new m k (r + 1) todo n t = .ok t' ∧
      t'.calls = t.calls ++ callsOf m k (combinations (r + 1) (List.range' n todo)) := by
  induction todo generalizing n t with
  | zero => exact ⟨t, rfl, by simp [combinations, callsOf]⟩
  | succ todo ih =>
    have hmark : (Search.clear m t.calls).mark k n = Search.at m k [n] t.calls := by
      rw [← at_nil (k := k), mark_at (by rw [List.length_nil]; omega)]
      rfl
    have hunmark : ∀ calls, (Search.at m k [n] calls).unmark k n = Search.at m k [] calls :=
      fun calls => unmark_at (by rw [List.length_nil]; omega) List.not_mem_nil
    rw [List.range'_succ, combinations, callsOf_append, List.forall_mem_append] at hnew
    rw [forLoop, hmark, List.range'_succ, combinations, callsOf_append, ← List.append_assoc]
    cases r with
    | zero =>
      have hcount : [n].length = 0 + 1 := rfl
      rw [at_count, at_nsrcerrs, if_pos hcount, combinations_zero, List.map_singleton,
        callsOf_singleton]
      by_cases hsource : sourceErrors k [n] = 0
      · rw [if_neg (not_not.2 hsource), hunmark, if_pos hsource, List.append_nil]
        exact ih (by omega) hnew.2 _
      · have hok : ¬new (Search.at m k [n] t.calls).call < 0 := by
          apply hnew.1
          simp [combinations_zero, callsOf_singleton, hsource, call_at]
        rw [if_pos hsource, if_neg hok, addCall_at, hunmark, if_neg hsource]
        exact ih (by omega) hnew.2 _
    | succ r =>
      have hcount : [n].length ≠ r + 1 + 1 := by simp
      have hinner : ∀ j ∈ [n], j < n + 1 := by simp
      have htodo : m - (n + 1) = todo := by omega
      rw [at_count, if_neg hcount, ecMethodDecodeMatrixFtw, htodo, ftwLoop_at (r := r) hinner (by simp)
        (by omega) (by rw [List.length_singleton]; omega) hnew.1, hunmark]
      exact ih (by omega) hnew.2 _

theorem whileLoop_calls (hnew : ∀ c ∈ callsOf m k
      ((List.range' (r + 1) todo).flatMap (combinations · (List.range m))), ¬new c < 0) (t : Init) :
    ∃ t', whileLoop new m k todo (r + 1) t = .ok t' ∧ t'.calls = t.calls ++
      callsOf m k ((List.range' (r + 1) todo).flatMap (combinations · (List.range m))) := by
  induction todo generalizing r t with
  | zero => exact ⟨t, rfl, by simp [callsOf]⟩
  | succ todo ih =>
    rw [List.range'_succ, List.flatMap_cons, callsOf_append, List.forall_mem_append,
      List.range_eq_range'] at hnew
    obtain ⟨t₁, hfor, hcalls₁⟩ := forLoop_calls (k := k) (r := r) (Nat.zero_add m) hnew.1 t
    obtain ⟨t₂, hwhile, hcalls₂⟩ := ih (r := r + 1) (List.range_eq_range' ▸ hnew.2) t₁
    refine ⟨t₂, ?_, ?_⟩
    · rw [whileLoop, hfor]
      exact hwhile
    · rw [hcalls₂, hcalls₁, List.range'_succ, List.flatMap_cons, callsOf_append,
        List.range_eq_range', List.append_assoc]

def patterns (m k : ℕ) : Finset (Finset ℕ) :=
  (Finset.range m).powerset.filter fun S => 1 ≤ S.card ∧ S.card ≤ m - k ∧ ∃ i ∈ S, i < k

def pattern (m k : ℕ) (S : Finset ℕ) : Call where
  srcInErr := (List.range m).map fun i => if i ∈ S then 1 else 0
  srcErrList := S.sort ++ List.replicate (m - S.card) 0
  nerrs := S.card
  nsrcerrs := (S.filter (· < k)).card

def Enumerates (m k : ℕ) (calls : List Call) : Prop :=
  (calls : Multiset Call) = (patterns m k).val.map (pattern m k)

theorem sourceErrors_sort (S : Finset ℕ) : sourceErrors k S.sort = (S.filter (· < k)).card := by
  have hperm : sourceErrors k S.sort = S.val.countP (· < k) := by
    rw [← Finset.sort_eq S (· ≤ ·), Multiset.coe_countP]
    rfl
  rw [hperm, Finset.card_def, Finset.filter_val, Multiset.countP_eq_card_filter]

theorem callOf_sort {S : Finset ℕ} (hm : m ≤ 2 ^ 8) (hS : S ⊆ Finset.range m) :
    callOf m k S.sort = pattern m k S := by
  have hbytes : S.sort.map (· % 2 ^ 8) = S.sort.map id := by
    apply List.map_congr_left
    intro i hi
    have hlt := Finset.mem_range.1 (hS ((Finset.mem_sort (· ≤ ·)).1 hi))
    exact Nat.mod_eq_of_lt (by omega)
  have hindicator : indicator m S.sort = (List.range m).map fun i => if i ∈ S then 1 else 0 := by
    simp [indicator]
  rw [callOf, pattern, hbytes, List.map_id, hindicator, Finset.length_sort, sourceErrors_sort]

theorem sort_sublist {S : Finset ℕ} (hS : S ⊆ Finset.range m) : S.sort.Sublist (List.range m) := by
  apply List.sublist_of_subperm_of_sortedLE
  · apply List.subperm_of_subset (Finset.sort_nodup S (· ≤ ·))
    intro i hi
    exact List.mem_range.2 (Finset.mem_range.1 (hS ((Finset.mem_sort (· ≤ ·)).1 hi)))
  · exact (Finset.pairwise_sort S (· ≤ ·)).sortedLE
  · exact (List.sortedLT_range m).sortedLE

theorem sort_toFinset_of_sublist (hs : s.Sublist (List.range m)) : s.toFinset.sort = s :=
  (List.toFinset_sort (· ≤ ·) (hs.nodup List.nodup_range)).2
    (((List.sortedLT_range m).sortedLE.pairwise).sublist hs)

theorem mem_patterns_sort {S : Finset ℕ} (hS : S ∈ patterns m k) :
    S.sort ∈ (List.range' 1 (m - k)).flatMap (combinations · (List.range m)) ∧
      sourceErrors k S.sort ≠ 0 := by
  obtain ⟨hsub, hone, hcard, i, hi, hik⟩ := Finset.mem_filter.1 hS
  constructor
  · refine List.mem_flatMap.2 ⟨S.card, List.mem_range'_1.2 ⟨hone, by omega⟩, ?_⟩
    exact mem_combinations.2 ⟨sort_sublist (Finset.mem_powerset.1 hsub), Finset.length_sort _⟩
  · rw [sourceErrors_sort]
    exact Finset.card_ne_zero_of_mem (Finset.mem_filter.2 ⟨hi, hik⟩)

theorem toFinset_mem_patterns
    (hs : s ∈ (List.range' 1 (m - k)).flatMap (combinations · (List.range m)))
    (hsource : sourceErrors k s ≠ 0) : s.toFinset ∈ patterns m k ∧ s.toFinset.sort = s := by
  obtain ⟨r, hr, hs⟩ := List.mem_flatMap.1 hs
  obtain ⟨hsub, hlength⟩ := mem_combinations.1 hs
  have hrange := List.mem_range'_1.1 hr
  have hsort := sort_toFinset_of_sublist hsub
  have hcard : s.toFinset.card = s.length := by rw [← Finset.length_sort (· ≤ ·), hsort]
  obtain ⟨i, hi, hik⟩ := List.countP_pos_iff.1 (Nat.pos_of_ne_zero hsource)
  refine ⟨Finset.mem_filter.2 ⟨?_, by omega, by omega, i, List.mem_toFinset.2 hi, by simpa using hik⟩,
    hsort⟩
  rw [Finset.mem_powerset]
  intro j hj
  exact Finset.mem_range.2 (List.mem_range.1 (hsub.subset (List.mem_toFinset.1 hj)))

theorem nodup_sizes (m r : ℕ) :
    ((List.range' 1 r).flatMap (combinations · (List.range m))).Nodup := by
  apply List.nodup_flatMap.2
  constructor
  · intro n _
    exact nodup_combinations n List.nodup_range
  · apply (List.nodup_range' (s := 1) (n := r)).imp
    intro n n' hne s hs hs'
    exact hne ((mem_combinations.1 hs).2.symm.trans (mem_combinations.1 hs').2)

theorem enumerates_callsOf (hm : m ≤ 2 ^ 8) :
    Enumerates m k
      (callsOf m k ((List.range' 1 (m - k)).flatMap (combinations · (List.range m)))) := by
  have hsorted : (((List.range' 1 (m - k)).flatMap (combinations · (List.range m))).filter
      (fun s => sourceErrors k s ≠ 0) : Multiset (List ℕ)) =
      (patterns m k).val.map (·.sort) := by
    apply (Multiset.Nodup.ext _ _).2
    · intro s
      rw [Multiset.mem_coe, List.mem_filter, Multiset.mem_map]
      constructor
      · rintro ⟨hs, hsource⟩
        exact ⟨s.toFinset, toFinset_mem_patterns hs (by simpa using hsource)⟩
      · rintro ⟨S, hS, rfl⟩
        obtain ⟨hs, hsource⟩ := mem_patterns_sort (Finset.mem_def.2 hS)
        exact ⟨hs, by simpa using hsource⟩
    · exact Multiset.coe_nodup.2 ((nodup_sizes m (m - k)).filter _)
    · apply Multiset.Nodup.map _ (patterns m k).nodup
      intro S S' heq
      simp only at heq
      rw [← Finset.sort_toFinset S (· ≤ ·), heq, Finset.sort_toFinset]
  rw [Enumerates, callsOf, ← Multiset.map_coe, hsorted, Multiset.map_map]
  apply Multiset.map_congr rfl
  intro S hS
  exact callOf_sort hm (Finset.mem_powerset.1 (Finset.mem_filter.1 hS).1)

/-- The search makes one call for each pattern, and no other, if and only if the number of the
patterns is computed without a division by zero. -/
theorem enumerates_iff (hnew : ∀ c, new c = 0) (hk : 1 ≤ k) (hkm : k < m) (hm : m < 2 ^ 31) :
    (∃ t, ecMethodDecodeMatrixInit new m k = some t ∧ Enumerates m k t.calls) ↔
      m ≤ 65 ∨ m = 66 ∧ k = 65 := by
  have hredundancy : ((m : ℤ) - k).toNat = m - k := by omega
  obtain ⟨t, hwhile, hcalls⟩ : ∃ t, whileLoop new m k (m - k) (0 + 1) ⟨-enomem, []⟩ = .ok t ∧ _ :=
    whileLoop_calls (fun c _ => by simp [hnew c]) _
  rw [← divides_iff hk hkm, ecMethodDecodeMatrixInit, if_neg (by omega),
    ecMethodCombination_eq hk hkm hm, hredundancy, Int.toNat_natCast, Int.toNat_natCast, hwhile]
  by_cases hdivides : Divides m k
  · have hsmall := (divides_iff hk hkm).1 hdivides
    rw [if_pos hdivides]
    refine ⟨fun _ => hdivides, fun _ => ⟨t, rfl, ?_⟩⟩
    rw [hcalls, List.nil_append]
    exact enumerates_callsOf (by omega)
  · rw [if_neg hdivides]
    simp [hdivides]

theorem enumerates_iff_twenty : ∃ t, ecMethodDecodeMatrixInit (fun _ => 0) 20 16 = some t ∧
    Enumerates 20 16 t.calls :=
  (enumerates_iff (fun _ => rfl) (by decide) (by decide) (by decide)).2 (Or.inl (by decide))

theorem enumerates_wrong : ecMethodDecodeMatrixInit (fun _ => 0) 66 64 = none ∧
    ¬Enumerates 66 64 [] := by
  constructor
  · decide +kernel
  · intro h
    have hempty : (patterns 66 64).val = 0 := Multiset.map_eq_zero.1 h.symm
    have hmem : {0} ∈ patterns 66 64 := by decide +kernel
    rw [Finset.mem_def, hempty] at hmem
    exact Multiset.notMem_zero _ hmem

end MyScripts.ErasureCode.DecodeList
