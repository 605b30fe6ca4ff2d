import MyScripts.ErasureCode.Rebuild
import Mathlib.FieldTheory.Finite.GaloisField

/-!
# The decode matrix

`gf_gen_decode_matrix` of `decode_list.c` inverts the first `k` rows that are
left. Where they make a singular matrix it tries other parity rows in the place
of the last one, after it has put back the bytes that the failed inversion
destroyed: the first `MMAX * KMAX` of them.
-/
namespace MyScripts.ErasureCode.DecodeList
open scoped Matrix

/-- `gf_invert_matrix`: the inverse, `none` for a negative value, and what is left of its input. -/
abbrev InvertMatrix (F : Type*) := (inMat : ℕ → F) → (n : ℕ) → Option (ℕ → F) × (ℕ → F)

def maxMatrix : ℕ := 15

def noInvertMatrix : ℤ := -2

structure Decode (F : Type*) where
  decodeIndex : List ℕ
  decodeMatrix : ℕ → F

variable {F : Type*} {m k : ℕ}

def skipLoop (srcErrList : List ℕ) (last : ℕ) : (todo i incr : ℕ) → ℕ
  | 0, _, incr => incr
  | todo + 1, i, incr =>
    skipLoop srcErrList last todo (i + 1)
      (if srcErrList.getD i 0 = last + incr then incr + 1 else incr)

theorem le_skipLoop (errs : List ℕ) (last todo i incr : ℕ) :
    incr ≤ skipLoop errs last todo i incr := by
  induction todo generalizing i incr with
  | zero => exact Nat.le_refl incr
  | succ todo ih =>
    have hstep : incr ≤ if errs.getD i 0 = last + incr then incr + 1 else incr := by
      split <;> omega
    exact hstep.trans (ih _ _)

/-- `while (gf_invert_matrix(b, invert_matrix, k) < 0)`, with `decode_index[k - 1] = last`. The
inner `none` is `NO_INVERT_MATRIX`; `none` is a copy beyond the `m * k` bytes of both arrays. -/
def retryLoop (invertMatrix : InvertMatrix F) (encodeMatrix : ℕ → F) (e : Erasure m k)
    (backup b : ℕ → F) (last incr : ℕ) : Option (Option (ℕ × (ℕ → F))) :=
  match invertMatrix b k with
  | (some inv, _) => some (some (last, inv))
  | (none, b) =>
    if e.srcErrList.length = m - k then some none
    else if m * k < maxMatrix then none
    else
      let b := fun x => if x < maxMatrix then backup x else b x
      let incr' := skipLoop e.srcErrList last (e.srcErrList.length - e.nsrcerrs - e.nsrcerrs)
        e.nsrcerrs (incr + 1)
      if m ≤ last + incr' then some none
      else
        let row := fun x => encodeMatrix (k * (last + incr') + (x - k * (k - 1)))
        retryLoop invertMatrix encodeMatrix e backup
          (fun x => if k * (k - 1) ≤ x ∧ x < k * k then row x else b x) (last + incr') incr'
termination_by m - last
decreasing_by
  have hle := le_skipLoop e.srcErrList last (e.srcErrList.length - e.nsrcerrs - e.nsrcerrs)
    e.nsrcerrs (incr + 1)
  omega

section Generate
variable [Field F]

def decodeMatrix (inv encodeMatrix : ℕ → F) (e : Erasure m k) (x : ℕ) : F :=
  let err := e.srcErrList.getD (x / k) 0
  if x / k < e.nsrcerrs then inv (k * err + x % k)
  else if x / k < e.srcErrList.length then
    ∑ j ∈ Finset.range k, inv (j * k + x % k) * encodeMatrix (k * err + j)
  else 0

/-- `none` is an overflow of `int` or a copy beyond an array, an error is what the function
returns when it fails. -/
def gfGenDecodeMatrix (invertMatrix : InvertMatrix F) (encodeMatrix : ℕ → F) (e : Erasure m k) :
    Option (Except ℤ (Decode F)) :=
  if 2 ^ 31 ≤ m * k then none
  else
    (decodeRows e.srcInErr m k 0).bind fun rows =>
      let b := fun x => if x < k * k then encodeMatrix (k * rowAt rows (x / k) + x % k) else 0
      (retryLoop invertMatrix encodeMatrix e b b (rowAt rows (k - 1)) 0).map fun
        | none => .error noInvertMatrix
        | some (last, inv) => .ok ⟨rows.set (k - 1) last, decodeMatrix inv encodeMatrix e⟩

/-- What the code relies on: an inverse is one, and there is one for every regular matrix. -/
structure Inverts (invertMatrix : InvertMatrix F) : Prop where
  inverse : ∀ a n inv, (invertMatrix a n).1 = some inv →
    rowMatrix inv n (fun i => i) * rowMatrix a n (fun i => i) = 1
  regular : ∀ a n, IsUnit (rowMatrix a n fun i => i) → (invertMatrix a n).1 ≠ none

def Systematic (a : ℕ → F) (k : ℕ) : Prop :=
  ∀ i < k, ∀ j < k, a (k * i + j) = if i = j then 1 else 0

def fragment (a : ℕ → F) (k : ℕ) (data : ℕ → F) (i : ℕ) : F :=
  ∑ j ∈ Finset.range k, a (k * i + j) * data j

structure Decode.Right (d : Decode F) (a : ℕ → F) (e : Erasure m k) : Prop where
  length : d.decodeIndex.length = k
  nodup : d.decodeIndex.Nodup
  left : ∀ i ∈ d.decodeIndex, i < m ∧ e.srcInErr i = false
  decode : ∀ data : ℕ → F, ∀ p < e.srcErrList.length,
    ∑ j ∈ Finset.range k,
        d.decodeMatrix (k * p + j) * fragment a k data (d.decodeIndex.getD j 0) =
      fragment a k data (e.srcErrList.getD p 0)

/-- The function ends without an error of the memory, and what it returns with 0 is right. -/
def Correct (a : ℕ → F) (e : Erasure m k) (r : Option (Except ℤ (Decode F))) : Prop :=
  ∃ r', r = some r' ∧ ∀ d, r' = .ok d → d.Right a e

end Generate

def skipped (e : Erasure m k) : List ℕ :=
  (e.srcErrList.drop e.nsrcerrs).take (e.srcErrList.length - e.nsrcerrs - e.nsrcerrs)

def nextTried (e : Erasure m k) (last incr : ℕ) : Option ℕ :=
  (List.range m).find? fun x => last + incr < x && !(skipped e).contains x

theorem nextTried_spec {e : Erasure m k} {last incr x : ℕ} (h : nextTried e last incr = some x) :
    last + incr < x ∧ x < m := by
  obtain ⟨hx, hmem, _⟩ := List.find?_range_eq_some.1 h
  simp only [Bool.and_eq_true, decide_eq_true_eq] at hx
  exact ⟨hx.1, List.mem_range.1 hmem⟩

def triedFrom (e : Erasure m k) (last incr : ℕ) : List ℕ :=
  match _h : nextTried e last incr with
  | none => []
  | some x => x :: triedFrom e x (x - last)
termination_by m - last
decreasing_by
  have hspec := nextTried_spec ‹_›
  omega

theorem triedFrom_eq (e : Erasure m k) (last incr : ℕ) : triedFrom e last incr =
    (nextTried e last incr).elim [] fun x => x :: triedFrom e x (x - last) := by
  rw [triedFrom]
  split <;> simp [*]

def firstRows (e : Erasure m k) : List ℕ := (rowsLeft e.srcInErr m 0).take k

def lastRow (e : Erasure m k) : ℕ := rowAt (firstRows e) (k - 1)

variable [Field F]

def rowsWith (a : ℕ → F) (e : Erasure m k) (x : ℕ) : Matrix (Fin k) (Fin k) F :=
  rowMatrix a k fun i => rowAt ((firstRows e).set (k - 1) x) i

def Regular (a : ℕ → F) (e : Erasure m k) (x : ℕ) : Prop := IsUnit (rowsWith a e x)

open Classical in
/-- The first rows that are left are regular, or there is no other choice of rows; or the matrix is
put back, and of the rows that are tried the first regular one is not erased. -/
def Recovers (a : ℕ → F) (e : Erasure m k) : Prop :=
  m * k < 2 ^ 31 ∧
    (Regular a e (lastRow e) ∨ e.srcErrList.length = m - k ∨
      maxMatrix ≤ m * k ∧ (k ≤ 4 ∨ triedFrom e (lastRow e) 0 = []) ∧
        ∀ x, (lastRow e :: triedFrom e (lastRow e) 0).find? (Regular a e ·) = some x →
          e.srcInErr x = false)

variable {last incr todo i : ℕ} {errs : List ℕ}

theorem skipLoop_spec (herrs : errs.Pairwise (· < ·)) (hi : i + todo ≤ errs.length) :
    last + skipLoop errs last todo i incr ∉ (errs.drop i).take todo ∧
      ∀ z, last + incr ≤ z → z < last + skipLoop errs last todo i incr →
        z ∈ (errs.drop i).take todo := by
  induction todo generalizing i incr with
  | zero =>
    refine ⟨by simp, fun z hz hlt => ?_⟩
    rw [skipLoop] at hlt
    omega
  | succ todo ih =>
    have hlt : i < errs.length := by omega
    have hdrop : (errs.drop i).take (todo + 1) = errs[i] :: (errs.drop (i + 1)).take todo := by
      rw [List.drop_eq_getElem_cons hlt, List.take_succ_cons]
    have hlarger : ∀ z ∈ (errs.drop (i + 1)).take todo, errs[i] < z := by
      intro z hz
      have hpairwise := herrs.drop (i := i)
      rw [List.drop_eq_getElem_cons hlt] at hpairwise
      exact (List.pairwise_cons.1 hpairwise).1 z (List.mem_of_mem_take hz)
    rw [skipLoop, List.getD_eq_getElem _ _ hlt, hdrop]
    by_cases herr : errs[i] = last + incr
    · rw [if_pos herr]
      obtain ⟨hnot, hall⟩ := @ih (incr + 1) (i + 1) (by omega)
      have hle := le_skipLoop errs last todo (i + 1) (incr + 1)
      refine ⟨fun hmem => ?_, fun z hz hzlt => ?_⟩
      · rcases List.mem_cons.1 hmem with heq | hmem
        · omega
        · exact hnot hmem
      · rcases Nat.eq_or_lt_of_le hz with heq | hlt
        · rw [← heq, ← herr]
          exact List.mem_cons_self
        · exact List.mem_cons_of_mem _ (hall z (by omega) hzlt)
    · rw [if_neg herr]
      obtain ⟨hnot, hall⟩ := @ih incr (i + 1) (by omega)
      have hle := le_skipLoop errs last todo (i + 1) incr
      refine ⟨fun hmem => ?_, fun z hz hzlt => List.mem_cons_of_mem _ (hall z hz hzlt)⟩
      rcases List.mem_cons.1 hmem with heq | hmem
      · -- the loop passed the rows below `errs[i]`, though all that it skips are above
        have hbelow := hlarger _ (hall (last + incr) (Nat.le_refl _) (by omega))
        omega
      · exact hnot hmem

theorem nsrcerrs_le (e : Erasure m k) : e.nsrcerrs ≤ e.srcErrList.length := by
  rw [e.nsrcerrs_eq]
  exact List.length_filter_le _ _

theorem nextTried_eq (e : Erasure m k) {y : ℕ}
    (hy : last + skipLoop e.srcErrList last (e.srcErrList.length - e.nsrcerrs - e.nsrcerrs)
      e.nsrcerrs (incr + 1) = y) :
    nextTried e last incr = if m ≤ y then none else some y := by
  have hle := nsrcerrs_le e
  obtain ⟨hnot, hall⟩ := @skipLoop_spec last (incr + 1)
    (e.srcErrList.length - e.nsrcerrs - e.nsrcerrs) e.nsrcerrs e.srcErrList e.ascending (by omega)
  have hlower := le_skipLoop e.srcErrList last (e.srcErrList.length - e.nsrcerrs - e.nsrcerrs)
    e.nsrcerrs (incr + 1)
  rw [hy] at hnot hall
  have hbefore : ∀ z < y, (last + incr < z && !(skipped e).contains z) = false := by
    intro z hz
    by_cases hlast : last + incr < z
    · have hmem : z ∈ skipped e := hall z (by omega) hz
      simp [hmem]
    · simp [hlast]
  have hat : (last + incr < y && !(skipped e).contains y) = true := by
    have hmem : y ∉ skipped e := hnot
    have hlast : last + incr < y := by omega
    simp [hmem, hlast]
  by_cases hm : m ≤ y
  · rw [if_pos hm, nextTried, List.find?_range_eq_none]
    intro z hz
    rw [hbefore z (Nat.lt_of_lt_of_le hz hm)]
    rfl
  · rw [if_neg hm, nextTried, List.find?_range_eq_some]
    refine ⟨hat, List.mem_range.2 (Nat.lt_of_not_le hm), fun z hz => ?_⟩
    rw [hbefore z hz]
    rfl

theorem length_firstRows (e : Erasure m k) (hkm : k ≤ m) : (firstRows e).length = k := by
  have hcount := length_rowsLeft e
  have hfew := e.few
  exact List.length_take_of_le (by omega)

theorem decodeRows_firstRows (e : Erasure m k) (hkm : k ≤ m) :
    decodeRows e.srcInErr m k 0 = some (firstRows e) := by
  have hcount := length_rowsLeft e
  have hfew := e.few
  exact decodeRows_eq (by omega)

theorem firstRows_chosen (e : Erasure m k) (hkm : k ≤ m) :
    Chosen e.srcInErr m k (firstRows e) := by
  obtain ⟨rows, hrows, hchosen⟩ := e.chosen hkm
  rw [decodeRows_firstRows e hkm] at hrows
  rwa [Option.some.inj hrows]

theorem rowAt_set_self {rows : List ℕ} {p x : ℕ} (hp : p < rows.length) :
    rowAt (rows.set p x) p = x := by
  rw [rowAt, List.getD_eq_getElem _ _ (by rwa [List.length_set]), List.getElem_set_self]

theorem rowAt_set_ne {rows : List ℕ} {p q x : ℕ} (hq : q < rows.length) (hne : p ≠ q) :
    rowAt (rows.set p x) q = rowAt rows q := by
  rw [rowAt, rowAt, List.getD_eq_getElem _ _ (by rwa [List.length_set]),
    List.getElem_set_ne hne, List.getD_eq_getElem _ _ hq]

variable {a b backup : ℕ → F} {invertMatrix : InvertMatrix F} {e : Erasure m k}

def Outcome (a : ℕ → F) (e : Erasure m k) (r : Option (Option (ℕ × (ℕ → F)))) :
    (found : Option ℕ) → Prop
  | none => r = some none
  | some x => ∃ inv, r = some (some (x, inv)) ∧
      rowMatrix inv k (fun i => i) * rowsWith a e x = 1

theorem Inverts.none_iff (hinv : Inverts invertMatrix) :
    (invertMatrix b k).1 = none ↔ ¬IsUnit (rowMatrix b k fun i => i) := by
  constructor
  · intro h hunit
    exact hinv.regular b k hunit h
  · intro h
    by_contra hsome
    obtain ⟨inv, hsome⟩ := Option.ne_none_iff_exists'.1 hsome
    exact h (IsUnit.of_mul_eq_one_right _ (hinv.inverse b k inv hsome))

omit [Field F] in
/-- Up to `k = 4` the backup covers all rows but the last one, which is written anew. -/
theorem rowMatrix_restored (hk : 1 ≤ k) (hk4 : k ≤ 4) (hkm : k ≤ m)
    (hbackup : ∀ x < k * k, backup x = a (k * rowAt (firstRows e) (x / k) + x % k)) (y : ℕ) :
    rowMatrix (fun x => if k * (k - 1) ≤ x ∧ x < k * k then a (k * y + (x - k * (k - 1)))
      else if x < maxMatrix then backup x else b x) k (fun i => i) = rowsWith a e y := by
  have hlength := length_firstRows e hkm
  have hsquare : k * (k - 1) + k = k * k := by
    rw [← Nat.mul_succ]
    congr 1
    omega
  funext i j
  have hj := j.2
  rw [rowsWith, rowMatrix, rowMatrix]
  by_cases hi : i.1 = k - 1
  · rw [hi, if_pos ⟨Nat.le_add_right _ _, by omega⟩, Nat.add_sub_cancel_left,
      rowAt_set_self (by omega)]
  · have hrow : k * i.1 + k ≤ k * (k - 1) := by
      rw [← Nat.mul_succ]
      exact Nat.mul_le_mul_left k (by omega)
    have hsize : k * (k - 1) ≤ 4 * 3 := Nat.mul_le_mul hk4 (by omega)
    have hmax : k * i.1 + j.1 < maxMatrix := by
      unfold maxMatrix
      omega
    rw [if_neg (by omega), if_pos hmax, hbackup _ (by omega), rowAt_set_ne (by omega) (Ne.symm hi),
      Nat.mul_add_div (by omega), Nat.div_eq_of_lt hj, Nat.add_zero, Nat.mul_add_mod,
      Nat.mod_eq_of_lt hj]

open Classical in
theorem retryLoop_outcome (hinv : Inverts invertMatrix) (hk : 1 ≤ k) (hk4 : k ≤ 4) (hkm : k ≤ m)
    (hsize : maxMatrix ≤ m * k) (hmore : e.srcErrList.length ≠ m - k)
    (hbackup : ∀ x < k * k, backup x = a (k * rowAt (firstRows e) (x / k) + x % k))
    (hb : rowMatrix b k (fun i => i) = rowsWith a e last) :
    Outcome a e (retryLoop invertMatrix a e backup b last incr)
      ((last :: triedFrom e last incr).find? (Regular a e ·)) := by
  fun_induction retryLoop invertMatrix a e backup b last incr with
  | case1 b last incr inv _ heq =>
    have hsome : (invertMatrix b k).1 = some inv := by rw [heq]
    have hmul := hinv.inverse b k inv hsome
    have hregular : Regular a e last := by
      rw [hb] at hmul
      exact IsUnit.of_mul_eq_one_right _ hmul
    rw [List.find?_cons_of_pos (by simpa using hregular)]
    exact ⟨inv, rfl, by rw [← hb, hmul]⟩
  | case2 _ _ _ _ _ hno => exact absurd hno hmore
  | case3 _ _ _ _ _ _ hno => exact absurd hno (Nat.not_lt_of_le hsize)
  | case4 b last incr b' heq _ _ _ hend =>
    have hsingular : ¬Regular a e last := by
      rw [Regular, ← hb]
      exact hinv.none_iff.1 (by rw [heq])
    rw [List.find?_cons_of_neg (by simpa using hsingular), triedFrom_eq, nextTried_eq e rfl,
      if_pos hend]
    rfl
  | case5 b last incr b' heq _ _ _ incr' hend row ih =>
    have hsingular : ¬Regular a e last := by
      rw [Regular, ← hb]
      exact hinv.none_iff.1 (by rw [heq])
    rw [List.find?_cons_of_neg (by simpa using hsingular), triedFrom_eq, nextTried_eq e rfl,
      if_neg hend, Option.elim_some, Nat.add_sub_cancel_left]
    exact ih (rowMatrix_restored hk hk4 hkm hbackup _)

variable {inv : ℕ → F} {p j : ℕ} {rows : List ℕ}

theorem lt_of_ascending {l : List ℕ} (h : l.Pairwise (· < ·))
    (hp : p < (l.filter fun i => i < k).length) : l.getD p 0 < k := by
  induction l generalizing p with
  | nil => exact absurd hp (Nat.not_lt_zero p)
  | cons x l ih =>
    obtain ⟨hx, hl⟩ := List.pairwise_cons.1 h
    by_cases hxk : x < k
    · rw [List.filter_cons_of_pos (by simpa using hxk)] at hp
      cases p with
      | zero => exact hxk
      | succ p => exact ih hl (Nat.lt_of_succ_lt_succ hp)
    · have hnone : l.filter (fun i => i < k) = [] := by
        apply List.filter_eq_nil_iff.2
        intro i hi
        have hlt := hx i hi
        simpa using Nat.le_of_lt (Nat.lt_of_le_of_lt (Nat.le_of_not_lt hxk) hlt)
      rw [List.filter_cons_of_neg (by simpa using hxk), hnone] at hp
      exact absurd hp (Nat.not_lt_zero p)

theorem source_lt (e : Erasure m k) (hp : p < e.nsrcerrs) : e.srcErrList.getD p 0 < k :=
  lt_of_ascending e.ascending (by rwa [e.nsrcerrs_eq] at hp)

theorem decodeMatrix_eq (ha : Systematic a k) (hp : p < e.srcErrList.length) (hj : j < k) :
    decodeMatrix inv a e (k * p + j) =
      ∑ c ∈ Finset.range k, a (k * e.srcErrList.getD p 0 + c) * inv (k * c + j) := by
  have hdiv : (k * p + j) / k = p := by
    rw [Nat.mul_add_div (by omega), Nat.div_eq_of_lt hj, Nat.add_zero]
  have hmod : (k * p + j) % k = j := by rw [Nat.mul_add_mod, Nat.mod_eq_of_lt hj]
  simp only [decodeMatrix, hdiv, hmod]
  by_cases hsource : p < e.nsrcerrs
  · have hlt := source_lt e hsource
    have hone : ∀ c ∈ Finset.range k, a (k * e.srcErrList.getD p 0 + c) * inv (k * c + j) =
        if e.srcErrList.getD p 0 = c then inv (k * c + j) else 0 := by
      intro c hc
      rw [ha _ hlt c (Finset.mem_range.1 hc), ite_mul, one_mul, zero_mul]
    rw [if_pos hsource, Finset.sum_congr rfl hone, Finset.sum_ite_eq,
      if_pos (Finset.mem_range.2 hlt)]
  · rw [if_neg hsource, if_pos hp]
    apply Finset.sum_congr rfl
    intro c _
    rw [mul_comm, Nat.mul_comm c k]

theorem decode_row (ha : Systematic a k)
    (hmul : rowMatrix inv k (fun i => i) * rowMatrix a k (fun i => rowAt rows i) = 1)
    (data : ℕ → F) (hp : p < e.srcErrList.length) :
    ∑ j ∈ Finset.range k, decodeMatrix inv a e (k * p + j) * fragment a k data (rows.getD j 0) =
      fragment a k data (e.srcErrList.getD p 0) := by
  let w : Fin k → F := fun c => a (k * e.srcErrList.getD p 0 + c)
  let x : Fin k → F := fun c => data c
  have hrow : ∀ j : Fin k, decodeMatrix inv a e (k * p + j) =
      (w ᵥ* rowMatrix inv k fun i => i) j := by
    intro j
    rw [decodeMatrix_eq ha hp j.2, Finset.sum_range]
    rfl
  have hfragment : ∀ j : Fin k, fragment a k data (rows.getD j 0) =
      (rowMatrix a k (fun i => rowAt rows i) *ᵥ x) j := by
    intro j
    rw [fragment, Finset.sum_range]
    rfl
  calc ∑ j ∈ Finset.range k, decodeMatrix inv a e (k * p + j) * fragment a k data (rows.getD j 0)
      = (w ᵥ* rowMatrix inv k fun i => i) ⬝ᵥ (rowMatrix a k (fun i => rowAt rows i) *ᵥ x) := by
        rw [Finset.sum_range]
        exact Finset.sum_congr rfl fun j _ => by rw [hrow, hfragment]
    _ = w ⬝ᵥ x := by
        rw [Matrix.dotProduct_mulVec, Matrix.vecMul_vecMul, hmul, Matrix.vecMul_one]
    _ = fragment a k data (e.srcErrList.getD p 0) := by
        rw [fragment, Finset.sum_range]
        rfl

theorem mem_set_firstRows (hk : 1 ≤ k) (hkm : k ≤ m) (x : ℕ) :
    x ∈ (firstRows e).set (k - 1) x := by
  have hlength := length_firstRows e hkm
  exact List.mem_set (by omega) x

omit [Field F] in
theorem ascending_set (hk : 1 ≤ k) (hkm : k ≤ m) {x : ℕ} (hx : lastRow e ≤ x) :
    ((firstRows e).set (k - 1) x).Pairwise (· < ·) := by
  have hlength := length_firstRows e hkm
  have hlast : lastRow e = (firstRows e)[k - 1] := List.getD_eq_getElem _ _ (by omega)
  apply List.pairwise_iff_getElem.2
  intro i j hi hj hij
  rw [List.length_set] at hi hj
  have hlt := List.pairwise_iff_getElem.1 (firstRows_chosen e hkm).ascending i j hi hj hij
  rw [List.getElem_set_ne (by omega)]
  by_cases hjk : k - 1 = j
  · subst hjk
    rw [List.getElem_set_self]
    omega
  · rwa [List.getElem_set_ne hjk]

omit [Field F] in
theorem mem_triedFrom {x : ℕ} (h : x ∈ triedFrom e last incr) : last < x ∧ x < m := by
  fun_induction triedFrom e last incr with
  | case1 => exact absurd h List.not_mem_nil
  | case2 last incr y hy ih =>
    have hspec := nextTried_spec hy
    rcases List.mem_cons.1 h with rfl | h
    · exact ⟨by omega, hspec.2⟩
    · have hrest := ih h
      exact ⟨by omega, hrest.2⟩

theorem right_of_inverse (ha : Systematic a k) (hk : 1 ≤ k) (hkm : k ≤ m) {x : ℕ}
    (hmul : rowMatrix inv k (fun i => i) * rowsWith a e x = 1) (hx : lastRow e ≤ x) (hm : x < m)
    (hleft : e.srcInErr x = false) :
    Decode.Right ⟨(firstRows e).set (k - 1) x, decodeMatrix inv a e⟩ a e where
  length := by rw [List.length_set, length_firstRows e hkm]
  nodup := (ascending_set hk hkm hx).imp Nat.ne_of_lt
  left := by
    intro i hi
    rcases List.mem_or_eq_of_mem_set hi with hi | rfl
    · exact ⟨(firstRows_chosen e hkm).lt i hi, (firstRows_chosen e hkm).left i hi⟩
    · exact ⟨hm, hleft⟩
  decode := fun data p hp => decode_row ha hmul data hp

def firstMatrix (a : ℕ → F) (e : Erasure m k) (x : ℕ) : F :=
  if x < k * k then a (k * rowAt (firstRows e) (x / k) + x % k) else 0

theorem rowMatrix_first (hk : 1 ≤ k) (hkm : k ≤ m) :
    rowMatrix (firstMatrix a e) k (fun i => i) = rowsWith a e (lastRow e) := by
  have hlength := length_firstRows e hkm
  have hset : (firstRows e).set (k - 1) (lastRow e) = firstRows e := by
    rw [lastRow, rowAt, List.getD_eq_getElem _ _ (by omega), List.set_getElem_self]
  funext i j
  have hlt : k * i + j < k * k := by
    calc k * i + j < k * i + k := Nat.add_lt_add_left j.2 _
      _ = k * (i + 1) := (Nat.mul_succ k i).symm
      _ ≤ k * k := Nat.mul_le_mul_left k i.2
  rw [rowsWith, hset, rowMatrix, rowMatrix, firstMatrix, if_pos hlt, Nat.mul_add_div hk,
    Nat.div_eq_of_lt j.2, Nat.add_zero, Nat.mul_add_mod, Nat.mod_eq_of_lt j.2]

def finish (a : ℕ → F) (e : Erasure m k) : Option (ℕ × (ℕ → F)) → Except ℤ (Decode F)
  | none => .error noInvertMatrix
  | some (last, inv) => .ok ⟨(firstRows e).set (k - 1) last, decodeMatrix inv a e⟩

theorem gfGenDecodeMatrix_eq (hkm : k ≤ m) (hsize : m * k < 2 ^ 31) :
    gfGenDecodeMatrix invertMatrix a e =
      (retryLoop invertMatrix a e (firstMatrix a e) (firstMatrix a e) (lastRow e) 0).map
        (finish a e) := by
  rw [gfGenDecodeMatrix, if_neg (by omega), decodeRows_firstRows e hkm]
  rfl

theorem not_correct_none : ¬Correct a e none := by
  rintro ⟨_, hr, _⟩
  cases hr

theorem correct_iff_of_outcome (hk : 1 ≤ k) (hkm : k ≤ m) (ha : Systematic a k)
    {r : Option (Option (ℕ × (ℕ → F)))} {found : Option ℕ} (h : Outcome a e r found)
    (hfound : ∀ x, found = some x → lastRow e ≤ x ∧ x < m) :
    Correct a e (r.map (finish a e)) ↔ ∀ x, found = some x → e.srcInErr x = false := by
  cases found with
  | none =>
    obtain rfl : r = some none := h
    constructor
    · intro _ x hx
      cases hx
    · intro _
      refine ⟨_, rfl, fun d hd => ?_⟩
      cases hd
  | some x =>
    obtain ⟨inv, rfl, hmul⟩ := h
    obtain ⟨hlast, hm⟩ := hfound x rfl
    constructor
    · rintro ⟨_, hr, hright⟩ y hy
      obtain rfl := Option.some.inj hy
      exact ((hright _ (Option.some.inj hr).symm).left _ (mem_set_firstRows hk hkm x)).2
    · intro hleft
      refine ⟨_, rfl, fun d hd => ?_⟩
      obtain rfl := Except.ok.inj hd
      exact right_of_inverse ha hk hkm hmul hlast hm (hleft x rfl)

section Loop
variable (backup : ℕ → F) (incr : ℕ)
variable (hinv : Inverts invertMatrix) (hb : rowMatrix b k (fun i => i) = rowsWith a e last)
include hinv hb

theorem retryLoop_regular (h : Regular a e last) :
    Outcome a e (retryLoop invertMatrix a e backup b last incr) (some last) := by
  cases hcall : invertMatrix b k with
  | mk result left =>
    cases result with
    | none =>
      have hnone : (invertMatrix b k).1 = none := by rw [hcall]
      rw [hinv.none_iff, hb] at hnone
      exact absurd h hnone
    | some inv =>
      have hmul := hinv.inverse b k inv (by rw [hcall])
      rw [retryLoop, hcall]
      exact ⟨inv, rfl, by rw [← hb, hmul]⟩

theorem retryLoop_singular (h : ¬Regular a e last) :
    (e.srcErrList.length = m - k → retryLoop invertMatrix a e backup b last incr = some none) ∧
      (e.srcErrList.length ≠ m - k → m * k < maxMatrix →
        retryLoop invertMatrix a e backup b last incr = none) ∧
      (e.srcErrList.length ≠ m - k → maxMatrix ≤ m * k → triedFrom e last incr = [] →
        retryLoop invertMatrix a e backup b last incr = some none) := by
  have hnone : (invertMatrix b k).1 = none := by
    rw [hinv.none_iff, hb]
    exact h
  cases hcall : invertMatrix b k with
  | mk result left =>
    rw [hcall] at hnone
    obtain rfl : result = none := hnone
    rw [retryLoop, hcall]
    dsimp only
    refine ⟨fun hall => if_pos hall, fun hmore hsize => ?_, fun hmore hsize hend => ?_⟩
    · rw [if_neg hmore, if_pos hsize]
    · rw [triedFrom_eq, nextTried_eq e rfl] at hend
      rw [if_neg hmore, if_neg (Nat.not_lt_of_le hsize)]
      by_contra hnext
      rw [if_neg fun hle => hnext (if_pos hle)] at hend
      exact List.cons_ne_nil _ _ hend

end Loop

open Classical in
theorem tried_range (hk : 1 ≤ k) (hkm : k ≤ m) {x : ℕ}
    (h : (lastRow e :: triedFrom e (lastRow e) 0).find? (Regular a e ·) = some x) :
    lastRow e ≤ x ∧ x < m := by
  have hlength := length_firstRows e hkm
  rcases List.mem_cons.1 (List.mem_of_find?_eq_some h) with rfl | hmem
  · exact ⟨Nat.le_refl _, (firstRows_chosen e hkm).lt _ (rowAt_mem (by omega))⟩
  · exact ⟨Nat.le_of_lt (mem_triedFrom hmem).1, (mem_triedFrom hmem).2⟩

open Classical in
theorem correct_of_regular (hk : 1 ≤ k) (hkm : k ≤ m) (hinv : Inverts invertMatrix)
    (ha : Systematic a k) (hsize : m * k < 2 ^ 31) (h : Regular a e (lastRow e)) :
    Correct a e (gfGenDecodeMatrix invertMatrix a e) := by
  have hlength := length_firstRows e hkm
  have hmem : rowAt (firstRows e) (k - 1) ∈ firstRows e := rowAt_mem (by omega)
  have hchosen := firstRows_chosen e hkm
  rw [gfGenDecodeMatrix_eq hkm hsize]
  apply (correct_iff_of_outcome hk hkm ha
    (retryLoop_regular (firstMatrix a e) 0 hinv (rowMatrix_first hk hkm) h) ?_).2
  · intro x hx
    rw [← Option.some.inj hx]
    exact hchosen.left _ hmem
  · intro x hx
    rw [← Option.some.inj hx]
    exact ⟨Nat.le_refl _, hchosen.lt _ hmem⟩

open Classical in
theorem correct_iff_of_le_four (hk : 1 ≤ k) (hkm : k ≤ m) (hinv : Inverts invertMatrix)
    (ha : Systematic a k) (hsize : m * k < 2 ^ 31) (hmax : maxMatrix ≤ m * k) (hk4 : k ≤ 4)
    (hmore : e.srcErrList.length ≠ m - k) :
    Correct a e (gfGenDecodeMatrix invertMatrix a e) ↔
      ∀ x, (lastRow e :: triedFrom e (lastRow e) 0).find? (Regular a e ·) = some x →
        e.srcInErr x = false := by
  have hbackup : ∀ x < k * k,
      firstMatrix a e x = a (k * rowAt (firstRows e) (x / k) + x % k) := fun x hx => if_pos hx
  rw [gfGenDecodeMatrix_eq hkm hsize]
  exact correct_iff_of_outcome hk hkm ha
    (retryLoop_outcome hinv hk hk4 hkm hmax hmore hbackup (rowMatrix_first hk hkm))
    fun x hx => tried_range hk hkm hx

/-- The code is right where its condition holds; and up to `k = 4`, where what a failed inversion
leaves in memory does not matter, only there. -/
theorem gfGenDecodeMatrix_correct (hk : 1 ≤ k) (hkm : k < m) (hinv : Inverts invertMatrix)
    (ha : Systematic a k) (e : Erasure m k) :
    (Recovers a e → Correct a e (gfGenDecodeMatrix invertMatrix a e)) ∧
      (k ≤ 4 → Correct a e (gfGenDecodeMatrix invertMatrix a e) → Recovers a e) := by
  have hkm' := Nat.le_of_lt hkm
  have hnone : Outcome a e (some none) none := rfl
  constructor
  · rintro ⟨hsize, hrecovers⟩
    by_cases hregular : Regular a e (lastRow e)
    · exact correct_of_regular hk hkm' hinv ha hsize hregular
    obtain ⟨hall, _, hend⟩ := retryLoop_singular (firstMatrix a e) 0 hinv
      (rowMatrix_first hk hkm') hregular
    have hfails := (correct_iff_of_outcome hk hkm' ha hnone (by simp)).2 (by simp)
    by_cases hmore : e.srcErrList.length = m - k
    · rwa [gfGenDecodeMatrix_eq hkm' hsize, hall hmore]
    · rcases hrecovers with h | h | ⟨hmax, hk4 | hempty, hleft⟩
      · exact absurd h hregular
      · exact absurd h hmore
      · exact (correct_iff_of_le_four hk hkm' hinv ha hsize hmax hk4 hmore).2 hleft
      · rwa [gfGenDecodeMatrix_eq hkm' hsize, hend hmore hmax hempty]
  · intro hk4 hcorrect
    have hsize : m * k < 2 ^ 31 := by
      by_contra hlarge
      rw [gfGenDecodeMatrix, if_pos (Nat.le_of_not_lt hlarge)] at hcorrect
      exact not_correct_none hcorrect
    refine ⟨hsize, ?_⟩
    by_cases hregular : Regular a e (lastRow e)
    · exact Or.inl hregular
    by_cases hmore : e.srcErrList.length = m - k
    · exact Or.inr (Or.inl hmore)
    obtain ⟨_, hshort, _⟩ := retryLoop_singular (firstMatrix a e) 0 hinv
      (rowMatrix_first hk hkm') hregular
    have hmax : maxMatrix ≤ m * k := by
      by_contra hless
      rw [gfGenDecodeMatrix_eq hkm' hsize, hshort hmore (Nat.lt_of_not_le hless)] at hcorrect
      exact not_correct_none hcorrect
    exact Or.inr (Or.inr ⟨hmax, Or.inl hk4,
      (correct_iff_of_le_four hk hkm' hinv ha hsize hmax hk4 hmore).1 hcorrect⟩)

def erasedSource (r : Fin 3) : Erasure 6 3 where
  srcInErr := fun i => i = r
  srcErrList := [r]
  nsrcerrs := 1
  ascending := List.pairwise_singleton _ _
  flags := by
    intro i
    rw [List.mem_singleton, decide_eq_true_eq]
    omega
  nsrcerrs_eq := by simp
  few := by simp

def erasedParity : Erasure 6 3 where
  srcInErr := fun i => i = 0 || i = 4
  srcErrList := [0, 4]
  nsrcerrs := 1
  ascending := by decide
  flags := by
    intro i
    simp only [List.mem_cons, List.not_mem_nil, or_false, Bool.or_eq_true, decide_eq_true_eq]
    omega
  nsrcerrs_eq := by decide
  few := by decide

def generator (x y z : F) : ℕ → F := fun i => [1, 0, 0, 0, 1, 0, 0, 0, 1, x, y, z, 1, 0, 0].getD i 0

theorem generator_systematic (x y z : F) : Systematic (generator x y z) 3 := by
  intro i hi j hj
  interval_cases i <;> interval_cases j <;> rfl

theorem regular_generator {e : Erasure 6 3} {x y z : F} (hrows : firstRows e = [1, 2, 3]) :
    (Regular (generator x y z) e 3 ↔ x ≠ 0) ∧ Regular (generator x y z) e 4 := by
  constructor
  · rw [Regular, Matrix.isUnit_iff_isUnit_det, Matrix.det_fin_three]
    simp [rowsWith, rowMatrix, hrows, rowAt, generator]
  · rw [Regular, Matrix.isUnit_iff_isUnit_det, Matrix.det_fin_three]
    simp [rowsWith, rowMatrix, hrows, rowAt, generator]

open Classical in
noncomputable def invertRegular (F : Type*) [Field F] : InvertMatrix F := fun a n =>
  if IsUnit (rowMatrix a n fun i => i) then
    (some fun x => if h : x / n < n ∧ x % n < n then
        (rowMatrix a n fun i => i)⁻¹ ⟨x / n, h.1⟩ ⟨x % n, h.2⟩ else 0,
      fun x => if x / n = x % n then 1 else 0)
  else (none, a)

theorem invertRegular_inverts (F : Type*) [Field F] : Inverts (invertRegular F) where
  inverse := by
    intro a n inv hinv
    unfold invertRegular at hinv
    split at hinv
    · rename_i hunit
      obtain rfl := Option.some.inj hinv
      have hinverse : (rowMatrix (fun x => if h : x / n < n ∧ x % n < n then
          (rowMatrix a n fun i => i)⁻¹ ⟨x / n, h.1⟩ ⟨x % n, h.2⟩ else 0) n fun i => i) =
          (rowMatrix a n fun i => i)⁻¹ := by
        funext i j
        have hn : 0 < n := Nat.lt_of_le_of_lt (Nat.zero_le _) j.2
        have hdiv : (n * i.1 + j.1) / n = i.1 := by
          rw [Nat.mul_add_div hn, Nat.div_eq_of_lt j.2, Nat.add_zero]
        have hmod : (n * i.1 + j.1) % n = j.1 := by rw [Nat.mul_add_mod, Nat.mod_eq_of_lt j.2]
        simp [rowMatrix, hdiv, hmod]
      rw [hinverse]
      exact Matrix.nonsing_inv_mul _ ((Matrix.isUnit_iff_isUnit_det _).1 hunit)
    · cases hinv
  regular := by
    intro a n hunit
    rw [invertRegular, if_pos hunit]
    exact Option.some_ne_none _

theorem gfGenDecodeMatrix_correct_erasedSource :
    ¬Regular (generator 0 1 0 : ℕ → GaloisField 2 8) (erasedSource 0) (lastRow (erasedSource 0)) ∧
      Correct (generator 0 1 0) (erasedSource 0)
        (gfGenDecodeMatrix (invertRegular (GaloisField 2 8)) (generator 0 1 0) (erasedSource 0)) := by
  have hlast : lastRow (erasedSource 0) = 3 := by decide
  have hnext : nextTried (erasedSource 0) 3 0 = some 4 := by decide
  have hregular := @regular_generator (GaloisField 2 8) _ (erasedSource 0) 0 1 0 (by decide)
  have hsingular : ¬Regular (generator 0 1 0 : ℕ → GaloisField 2 8) (erasedSource 0) 3 :=
    fun h => hregular.1.1 h rfl
  refine ⟨by rwa [hlast], (gfGenDecodeMatrix_correct (by decide) (by decide)
    (invertRegular_inverts _) (generator_systematic 0 1 0) (erasedSource 0)).1
      ⟨by decide, Or.inr (Or.inr ⟨by decide, Or.inl (by decide), fun x hx => ?_⟩)⟩⟩
  rw [hlast, triedFrom_eq, hnext, Option.elim_some, List.find?_cons_of_neg (by simpa using hsingular),
    List.find?_cons_of_pos (by simpa using hregular.2), Option.some.injEq] at hx
  subst hx
  decide

/-- The row that replaces a singular one is itself erased. -/
theorem gfGenDecodeMatrix_wrong : ¬Correct (generator 0 1 0) erasedParity
    (gfGenDecodeMatrix (invertRegular (GaloisField 2 8)) (generator 0 1 0) erasedParity) := by
  intro hcorrect
  have hnext : nextTried erasedParity 3 0 = some 4 := by decide
  have hleft := (correct_iff_of_le_four (by decide) (by decide) (invertRegular_inverts _)
    (generator_systematic 0 1 0) (by decide) (by decide) (by decide) (by decide)).1 hcorrect 4
  have hlast : lastRow erasedParity = 3 := by decide
  rw [hlast, triedFrom_eq, hnext, Option.elim_some, List.find?_cons_of_neg, List.find?_cons_of_pos]
    at hleft
  · exact absurd (hleft rfl) (by decide)
  · simpa using (regular_generator (by decide)).2
  · simpa using fun h => (regular_generator (by decide)).1.1 h rfl

end MyScripts.ErasureCode.DecodeList
