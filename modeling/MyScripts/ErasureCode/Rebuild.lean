import MyScripts.ErasureCode.Fragments
import Mathlib.Data.List.GetD

/-!
# Rebuilding the data

The decoder takes the first `k` rows that are left, inverts the matrix they
make and rebuilds the erased chunks of each stripe from the chunks of these rows.
-/
namespace MyScripts.ErasureCode
open Library.Chunks

variable {m k n : ℕ} {srcInErr : ℕ → Bool}

def rowsLeft (srcInErr : ℕ → Bool) (m r : ℕ) : List ℕ :=
  (List.range' r (m - r)).filter fun i => !srcInErr i

theorem rowsLeft_of_lt {r : ℕ} (h : r < m) : rowsLeft srcInErr m r =
    if srcInErr r then rowsLeft srcInErr m (r + 1) else r :: rowsLeft srcInErr m (r + 1) := by
  have hm : m - r = m - (r + 1) + 1 := by omega
  rw [rowsLeft, rowsLeft, hm, List.range'_succ]
  cases hr : srcInErr r with
  | true => rw [List.filter_cons_of_neg (by rw [hr]; decide), if_pos rfl]
  | false => rw [List.filter_cons_of_pos (by rw [hr]; rfl), if_neg (by decide)]

theorem nextRow_eq (srcInErr : ℕ → Bool) (m r : ℕ) : rowsLeft srcInErr m r =
    (nextRow srcInErr m r).elim [] fun r => r :: rowsLeft srcInErr m (r + 1) := by
  fun_induction nextRow srcInErr m r with
  | case1 r hr herr ih => rw [rowsLeft_of_lt hr, if_pos herr, ih]
  | case2 r hr herr => rw [rowsLeft_of_lt hr, if_neg herr, Option.elim_some]
  | case3 r hr =>
    rw [rowsLeft, Nat.sub_eq_zero_of_le (Nat.le_of_not_lt hr)]
    rfl

theorem decodeRows_eq {todo r : ℕ} (h : todo ≤ (rowsLeft srcInErr m r).length) :
    decodeRows srcInErr m todo r = some ((rowsLeft srcInErr m r).take todo) := by
  induction todo generalizing r with
  | zero => rw [decodeRows, List.take_zero]
  | succ todo ih =>
    have hnext := nextRow_eq srcInErr m r
    cases hr : nextRow srcInErr m r with
    | none =>
      rw [hr, Option.elim_none] at hnext
      rw [hnext] at h
      exact absurd h (Nat.not_succ_le_zero todo)
    | some q =>
      rw [hr, Option.elim_some] at hnext
      rw [hnext, List.length_cons] at h
      rw [decodeRows, hr, Option.bind_some, ih (Nat.le_of_succ_le_succ h), hnext,
        List.take_succ_cons, Option.map_some]

structure Chosen (srcInErr : ℕ → Bool) (m k : ℕ) (rows : List ℕ) : Prop where
  length : rows.length = k
  lt : ∀ r ∈ rows, r < m
  left : ∀ r ∈ rows, srcInErr r = false
  ascending : rows.Pairwise (· < ·)
  data : ∀ i < k, srcInErr i = false → i ∈ rows

theorem length_rowsLeft (e : Erasure m k) :
    (rowsLeft e.srcInErr m 0).length + e.srcErrList.length = m := by
  have herr : ((List.range m).filter fun i => e.srcInErr i).Perm e.srcErrList := by
    apply (List.perm_ext_iff_of_nodup (List.nodup_range.filter _)
      (e.ascending.imp Nat.ne_of_lt)).2
    intro i
    rw [List.mem_filter, List.mem_range, e.flags]
  have hsplit := (List.range m).length_eq_length_filter_add fun i => e.srcInErr i
  rw [List.length_range, herr.length_eq] at hsplit
  rw [rowsLeft, Nat.sub_zero, ← List.range_eq_range']
  omega

theorem mem_rowsLeft {r i : ℕ} (h : i ∈ rowsLeft srcInErr m r) : i < m ∧ srcInErr i = false := by
  obtain ⟨hi, herr⟩ := List.mem_filter.1 h
  have hrange := List.mem_range'_1.1 hi
  refine ⟨by omega, ?_⟩
  simpa using herr

theorem mem_take_rowsLeft {i : ℕ} (hi : i < k) (hm : i < m) (herr : srcInErr i = false) :
    i ∈ (rowsLeft srcInErr m 0).take k := by
  have hsplit : List.range' 0 (m - 0) =
      List.range' 0 i ++ i :: List.range' (i + 1) (m - (i + 1)) := by
    rw [← List.range'_succ, Nat.sub_zero]
    have happend := @List.range'_append_1 0 i (m - (i + 1) + 1)
    rw [Nat.zero_add] at happend
    rw [happend]
    congr 1
    omega
  have hbefore : ((List.range' 0 i).filter fun j => !srcInErr j).length ≤ i := by
    apply (List.length_filter_le _ _).trans
    rw [List.length_range']
  rw [rowsLeft, hsplit, List.filter_append, List.filter_cons_of_pos (by rw [herr]; rfl),
    List.take_append, List.mem_append]
  right
  have hpos : 0 < k - ((List.range' 0 i).filter fun j => !srcInErr j).length := by omega
  obtain ⟨t, ht⟩ := Nat.exists_eq_succ_of_ne_zero (Nat.pos_iff_ne_zero.1 hpos)
  rw [ht, List.take_succ_cons]
  exact List.mem_cons_self

theorem Erasure.chosen (e : Erasure m k) (hkm : k ≤ m) :
    ∃ rows, decodeRows e.srcInErr m k 0 = some rows ∧ Chosen e.srcInErr m k rows := by
  have hcount := length_rowsLeft e
  have hfew := e.few
  have hk : k ≤ (rowsLeft e.srcInErr m 0).length := by omega
  refine ⟨_, decodeRows_eq hk, ?_, ?_, ?_, ?_, ?_⟩
  · exact List.length_take_of_le hk
  · exact fun r hr => (mem_rowsLeft (List.mem_of_mem_take hr)).1
  · exact fun r hr => (mem_rowsLeft (List.mem_of_mem_take hr)).2
  · exact ((List.pairwise_lt_range' ..).filter _).take
  · exact fun i hi herr => mem_take_rowsLeft hi (Nat.lt_of_lt_of_le hi hkm) herr

theorem Chosen.not_mem_errs {rows : List ℕ} (e : Erasure m k) (h : Chosen e.srcInErr m k rows)
    {r : ℕ} (hr : r ∈ rows) : r ∉ e.srcErrList := by
  intro hmem
  have herr := ((e.flags r).1 hmem).2
  rw [h.left r hr] at herr
  exact Bool.false_ne_true herr

variable {F : Type*} {p : InPtr F}

theorem copyRows_eq {out : ℕ → List F} (h : ∀ i < k, (p i).bind memcpy = some (out i)) :
    copyRows p k = some ((List.range k).flatMap out) := by
  rw [copyRows, mapM_eq_some fun i hi => h i (List.mem_range.1 hi), Option.map_some,
    List.flatMap_def]

theorem rebuild_eq (lib : Isal F) (d : ℕ → F) (k : ℕ) (errs : List ℕ) (src : ℕ → List F)
    (p : InPtr F) (r : ℕ) : rebuild lib d k errs src p r =
      if r ∈ errs then some
        (lib.vectDotProd chunkSize k (fun j => lib.vectMulInit (d (k * r + j))) src)
      else p r :=
  foldl_update _ p errs r

theorem memcpy_chunk {c : List F} (hc : c.length = chunkSize) : memcpy c = some c := by
  rw [memcpy, if_pos (Nat.le_of_eq hc.symm), ← hc, List.take_length]

variable {data : List F} {s : ℕ}

theorem decodeLoop_stripe {stripe : InPtr F → Option (List F × InPtr F)} (hk : 0 < k)
    (hs : s < n) : decodeLoop stripe (chunkSize * n) k (s * (k * chunkSize)) p =
      (stripe p).bind fun r =>
        (decodeLoop stripe (chunkSize * n) k ((s + 1) * (k * chunkSize)) r.2).map (r.1 ++ ·) := by
  have hsize : chunkSize * n * k = n * (k * chunkSize) := by
    rw [Nat.mul_comm chunkSize n, Nat.mul_assoc, Nat.mul_comm chunkSize k]
  have hmore : s * (k * chunkSize) < chunkSize * n * k := by
    rw [hsize]
    exact Nat.mul_lt_mul_of_pos_right hs (Nat.mul_pos hk chunkSize_pos)
  have hnext : s * (k * chunkSize) + k * chunkSize = (s + 1) * (k * chunkSize) :=
    (Nat.succ_mul s _).symm
  rw [decodeLoop, if_pos hmore, hnext]

theorem decodeLoop_end (stripe : InPtr F → Option (List F × InPtr F)) :
    decodeLoop stripe (chunkSize * n) k (n * (k * chunkSize)) p = some [] := by
  have hsize : chunkSize * n * k = n * (k * chunkSize) := by
    rw [Nat.mul_comm chunkSize n, Nat.mul_assoc, Nat.mul_comm chunkSize k]
  rw [decodeLoop, if_neg (by rw [hsize]; exact Nat.lt_irrefl _)]

theorem decodeLoop_eq {stripe : InPtr F → Option (List F × InPtr F)} {I : ℕ → InPtr F → Prop}
    {out : ℕ → List F} (hk : 0 < k)
    (hstep : ∀ s p, s < n → I s p → ∃ q, stripe p = some (out s, q) ∧ I (s + 1) q)
    {t : ℕ} (ht : s + t = n) (hp : I s p) :
    decodeLoop stripe (chunkSize * n) k (s * (k * chunkSize)) p =
      some ((List.range' s t).flatMap out) := by
  induction t generalizing s p with
  | zero =>
    have hs : s = n := by omega
    rw [hs, decodeLoop_end]
    rfl
  | succ t ih =>
    obtain ⟨q, hq, hI⟩ := hstep s p (by omega) hp
    rw [decodeLoop_stripe hk (by omega), hq, Option.bind_some, ih (by omega) hI, Option.map_some,
      List.range'_succ, List.flatMap_cons]

theorem Striped.flatMap_stripes (h : Striped data k n) :
    ((List.range n).flatMap fun s => (List.range k).flatMap fun i =>
      chunk chunkSize data (s * k + i)) = data := by
  rw [← flatMap_range_mul, flatMap_chunk h.length]

variable {rows : List ℕ}

def rowAt (rows : List ℕ) (i : ℕ) : ℕ := rows.getD i 0

theorem rowAt_mem {i : ℕ} (hi : i < rows.length) : rowAt rows i ∈ rows := by
  rw [rowAt, List.getD_eq_getElem _ _ hi]
  exact List.getElem_mem hi

theorem getD_map_rowAt (f : ℕ → List F) {i : ℕ} (hi : i < rows.length) :
    (rows.map f).getD i [] = f (rowAt rows i) := by
  rw [List.getD_eq_getElem _ _ (by rwa [List.length_map]), List.getElem_map, rowAt,
    List.getD_eq_getElem _ _ hi]

theorem Chosen.strictMono (h : Chosen srcInErr m k rows) :
    StrictMono fun i : Fin k => rowAt rows i := by
  intro i j hij
  have hj : j.1 < rows.length := h.length.symm ▸ j.2
  have hi : i.1 < rows.length := h.length.symm ▸ i.2
  show rowAt rows i < rowAt rows j
  rw [rowAt, rowAt, List.getD_eq_getElem _ _ hi, List.getD_eq_getElem _ _ hj]
  exact List.pairwise_iff_getElem.1 h.ascending i j hi hj hij

variable [Field F] {lib : Isal F}

theorem genDecodeMatrix_eq (hlib : lib.Lawful m k) (hm : m ≤ 256)
    (hrows : decodeRows srcInErr m k 0 = some rows) (h : Chosen srcInErr m k rows) :
    ∃ d, genDecodeMatrix lib (lib.genCauchy1Matrix m k) srcInErr m k = some (rows, d) ∧
      rowMatrix d k (fun i => i) *
        rowMatrix (lib.genCauchy1Matrix m k) k (fun i => rowAt rows i) = 1 := by
  have hindex : rows.map (· % 256) = rows := by
    have hmod : rows.map (· % 256) = rows.map id := by
      apply List.map_congr_left
      intro r hr
      exact Nat.mod_eq_of_lt (Nat.lt_of_lt_of_le (h.lt r hr) hm)
    rw [hmod, List.map_id]
  have hinput : rowMatrix (fun x => lib.genCauchy1Matrix m k (k * rows.getD (x / k) 0 + x % k)) k
      (fun i => i) = rowMatrix (lib.genCauchy1Matrix m k) k fun i => rowAt rows i := by
    funext i j
    have hk : 0 < k := Nat.lt_of_le_of_lt (Nat.zero_le _) j.2
    rw [rowMatrix, rowMatrix, rowAt, Nat.mul_add_div hk, Nat.div_eq_of_lt j.2, Nat.add_zero,
      Nat.mul_add_mod, Nat.mod_eq_of_lt j.2]
  have hunit := hlib.rows (fun i => rowAt rows i) h.strictMono
    fun i => h.lt _ (rowAt_mem (h.length.symm ▸ i.2))
  obtain ⟨inv, hinv, hmul⟩ := hlib.inverse _ (hinput ▸ hunit)
  refine ⟨fun x => if x < k * k then inv x else 0, ?_, ?_⟩
  · rw [genDecodeMatrix, hrows, Option.bind_some, hinv, Option.map_some, hindex]
  · have hset : rowMatrix (fun x => if x < k * k then inv x else 0) k (fun i => i) =
        rowMatrix inv k fun i => i := by
      funext i j
      have hlt : k * i + j < k * k := by
        calc k * i + j < k * i + k := Nat.add_lt_add_left j.2 _
          _ = k * (i + 1) := (Nat.mul_succ k i).symm
          _ ≤ k * k := Nat.mul_le_mul_left k i.2
      exact if_pos hlt
    rw [hset, ← hinput, hmul]

theorem dotRow_inverse (h : Striped data k n) {a d : ℕ → F}
    (hmul : rowMatrix d k (fun i => i) * rowMatrix a k (fun i => rowAt rows i) = 1)
    {r s : ℕ} (hr : r < k) (hs : s < n) :
    dotRow k (fun j => d (k * r + j)) (fun j => codeRow a k data (rowAt rows j) s) =
      chunk chunkSize data (s * k + r) := by
  apply chunk_ext (length_dotRow _ _) (h.chunk_length hs hr)
  intro b hb
  let x : Fin k → F := fun c => (chunk chunkSize data (s * k + c)).getD b 0
  have hcode : ∀ j : Fin k, (codeRow a k data (rowAt rows j) s).getD b 0 =
      (rowMatrix a k (fun i => rowAt rows i)).mulVec x j := by
    intro j
    rw [codeRow, dotRow_getD _ _ hb, Finset.sum_range]
    rfl
  calc (dotRow k (fun j => d (k * r + j)) fun j => codeRow a k data (rowAt rows j) s).getD b 0
      = ∑ j : Fin k, d (k * r + j) * (codeRow a k data (rowAt rows j) s).getD b 0 := by
        rw [dotRow_getD _ _ hb, Finset.sum_range]
    _ = ((rowMatrix d k fun i => i).mulVec
          ((rowMatrix a k fun i => rowAt rows i).mulVec x)) ⟨r, hr⟩ := by
        apply Finset.sum_congr rfl
        intro j _
        rw [hcode]
        rfl
    _ = (chunk chunkSize data (s * k + r)).getD b 0 := by
        rw [Matrix.mulVec_mulVec, hmul, Matrix.one_mulVec]

def AtStripe (a : ℕ → F) (k n : ℕ) (data : List F) (rows : List ℕ) (s : ℕ) (p : InPtr F) : Prop :=
  ∀ r ∈ rows, p r = some ((List.range' s (n - s)).flatMap (codeRow a k data r))

variable {a : ℕ → F}

theorem length_codeRow (r s : ℕ) : (codeRow a k data r s).length = chunkSize := length_dotRow _ _

theorem fragment_succ (hs : s < n) (r : ℕ) :
    (List.range' s (n - s)).flatMap (codeRow a k data r) =
      codeRow a k data r s ++ (List.range' (s + 1) (n - (s + 1))).flatMap (codeRow a k data r) := by
  have hn : n - s = n - (s + 1) + 1 := by omega
  rw [hn, List.range'_succ, List.flatMap_cons]

theorem AtStripe.memcpy (h : AtStripe a k n data rows s p) (hs : s < n) {r : ℕ} (hr : r ∈ rows) :
    (p r).bind memcpy = some (codeRow a k data r s) := by
  rw [h r hr, Option.bind_some, fragment_succ hs, ErasureCode.memcpy,
    List.take_left' (length_codeRow r s), if_pos]
  rw [List.length_append, length_codeRow]
  exact Nat.le_add_right _ _

theorem AtStripe.advance (h : AtStripe a k n data rows s p) (hs : s < n) (hrows : rows.Nodup) :
    AtStripe a k n data rows (s + 1) (advance rows p) := by
  intro r hr
  rw [ErasureCode.advance, foldl_update_self _ _ hrows, if_pos hr, h r hr, Option.map_some,
    fragment_succ hs, List.drop_left' (length_codeRow r s)]

theorem copyStripe_eq (h : Striped data k n) (hlib : lib.Lawful m k)
    (hp : AtStripe (lib.genCauchy1Matrix m k) k n data (List.range k) s p) (hs : s < n) :
    ∃ q, copyStripe k p =
        some ((List.range k).flatMap fun i => chunk chunkSize data (s * k + i), q) ∧
      AtStripe (lib.genCauchy1Matrix m k) k n data (List.range k) (s + 1) q := by
  have hcopy : ∀ i < k, (p i).bind memcpy = some (chunk chunkSize data (s * k + i)) := by
    intro i hi
    rw [hp.memcpy hs (List.mem_range.2 hi), codeRow_data h hlib hi hs]
  refine ⟨advance (List.range k) p, ?_, hp.advance hs List.nodup_range⟩
  rw [copyStripe, copyRows_eq hcopy, Option.map_some]

theorem rebuildStripe_eq (h : Striped data k n) (hlib : lib.Lawful m k) (e : Erasure m k)
    (hkm : k ≤ m) (hrows : Chosen e.srcInErr m k rows) {d : ℕ → F}
    (hmul : rowMatrix d k (fun i => i) *
      rowMatrix (lib.genCauchy1Matrix m k) k (fun i => rowAt rows i) = 1)
    (hp : AtStripe (lib.genCauchy1Matrix m k) k n data rows s p) (hs : s < n) :
    ∃ q, rebuildStripe lib d k rows e.srcErrList p =
        some ((List.range k).flatMap fun i => chunk chunkSize data (s * k + i), q) ∧
      AtStripe (lib.genCauchy1Matrix m k) k n data rows (s + 1) q := by
  have hsrc : (rows.mapM fun r => (p r).bind memcpy) =
      some (rows.map fun r => codeRow (lib.genCauchy1Matrix m k) k data r s) :=
    mapM_eq_some fun r hr => hp.memcpy hs hr
  have hget : ∀ j < k, (rows.map fun r => codeRow (lib.genCauchy1Matrix m k) k data r s).getD j [] =
      codeRow (lib.genCauchy1Matrix m k) k data (rowAt rows j) s :=
    fun j hj => getD_map_rowAt _ (hrows.length.symm ▸ hj)
  have hdot : ∀ r < k, lib.vectDotProd chunkSize k (fun j => lib.vectMulInit (d (k * r + j)))
      (fun j => (rows.map fun r => codeRow (lib.genCauchy1Matrix m k) k data r s).getD j []) =
        chunk chunkSize data (s * k + r) := by
    intro r hr
    rw [hlib.dotProd (fun j => d (k * r + j)), dotRow_congr hget]
    · exact dotRow_inverse h hmul hr hs
    · intro j hj
      rw [hget j hj, length_codeRow]
  have hcopy : ∀ i < k, ((rebuild lib d k e.srcErrList (fun j => (rows.map fun r =>
      codeRow (lib.genCauchy1Matrix m k) k data r s).getD j []) p) i).bind memcpy =
        some (chunk chunkSize data (s * k + i)) := by
    intro i hi
    rw [rebuild_eq]
    split_ifs with hmem
    · rw [hdot i hi, Option.bind_some, memcpy_chunk (h.chunk_length hs hi)]
    · have hleft : e.srcInErr i = false := by
        cases herr : e.srcInErr i with
        | false => rfl
        | true => exact absurd ((e.flags i).2 ⟨Nat.lt_of_lt_of_le hi hkm, herr⟩) hmem
      rw [hp.memcpy hs (hrows.data i hi hleft), codeRow_data h hlib hi hs]
  have hstripe : AtStripe (lib.genCauchy1Matrix m k) k n data rows s
      (rebuild lib d k e.srcErrList (fun j => (rows.map fun r =>
        codeRow (lib.genCauchy1Matrix m k) k data r s).getD j []) p) := by
    intro r hr
    rw [rebuild_eq, if_neg (hrows.not_mem_errs e hr)]
    exact hp r hr
  refine ⟨_, ?_, hstripe.advance hs (hrows.ascending.imp Nat.ne_of_lt)⟩
  simp only [rebuildStripe, hsrc, Option.bind_some, copyRows_eq hcopy, Option.map_some]

theorem Erasure.data_left (e : Erasure m k) (hkm : k ≤ m) (h : e.nsrcerrs = 0) {r : ℕ}
    (hr : r < k) : e.srcInErr r = false := by
  cases herr : e.srcInErr r with
  | false => rfl
  | true =>
    have hmem := (e.flags r).2 ⟨Nat.lt_of_lt_of_le hr hkm, herr⟩
    rw [e.nsrcerrs_eq] at h
    have hfilter : r ∈ e.srcErrList.filter fun i => i < k :=
      List.mem_filter.2 ⟨hmem, decide_eq_true hr⟩
    rw [List.eq_nil_of_length_eq_zero h] at hfilter
    cases hfilter

/-- The decoder gives the data back from pointers to the fragments that are left. -/
theorem decode_eq (h : Striped data k n) (hlib : lib.Lawful m k) (hm : m ≤ 256) (hkm : k ≤ m)
    (e : Erasure m k) (hp : ∀ r < m, e.srcInErr r = false →
      p r = some ((List.range n).flatMap (codeRow (lib.genCauchy1Matrix m k) k data r))) :
    decode lib (lib.genCauchy1Matrix m k) (chunkSize * n) m k e p = some data := by
  have hall : ((List.range' 0 n).flatMap fun s => (List.range k).flatMap fun i =>
      chunk chunkSize data (s * k + i)) = data := by
    rw [← List.range_eq_range', h.flatMap_stripes]
  rw [decode]
  split_ifs with hnone
  · have hstart : AtStripe (lib.genCauchy1Matrix m k) k n data (List.range k) 0 p := by
      intro r hr
      have hrk := List.mem_range.1 hr
      rw [hp r (Nat.lt_of_lt_of_le hrk hkm) (e.data_left hkm hnone hrk), List.range_eq_range',
        Nat.sub_zero]
    have hloop := decodeLoop_eq
      (I := fun s => AtStripe (lib.genCauchy1Matrix m k) k n data (List.range k) s) h.pos
      (fun s p hs hI => copyStripe_eq h hlib hI hs) (Nat.zero_add n) hstart
    rw [Nat.zero_mul] at hloop
    rw [hloop, hall]
  · obtain ⟨rows, hdecode, hrows⟩ := e.chosen hkm
    obtain ⟨d, hd, hmul⟩ := genDecodeMatrix_eq hlib hm hdecode hrows
    have hstart : AtStripe (lib.genCauchy1Matrix m k) k n data rows 0 p := by
      intro r hr
      rw [hp r (hrows.lt r hr) (hrows.left r hr), List.range_eq_range', Nat.sub_zero]
    have hloop := decodeLoop_eq
      (I := fun s => AtStripe (lib.genCauchy1Matrix m k) k n data rows s) h.pos
      (fun s p hs hI => rebuildStripe_eq h hlib e hkm hrows hmul hI hs) (Nat.zero_add n) hstart
    rw [Nat.zero_mul] at hloop
    rw [hd, Option.bind_some]
    dsimp only
    rw [hloop, hall]

end MyScripts.ErasureCode
