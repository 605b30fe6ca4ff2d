import MyScripts.Library.Decimal
import Mathlib.Algebra.BigOperators.Intervals
import Mathlib.Data.Nat.Choose.Sum

/-!
# The number of erasure patterns

`ec_method_combination` adds up binomial coefficients as quotients of
factorials, which its loops compute in 64 bits. From 21 on a factorial does not
fit, and from 66 on it is a multiple of `2 ^ 64`, so that its remainder is 0.
-/
namespace MyScripts.ErasureCode.DecodeList
open Nat (factorial)

def toUInt64 (z : ℤ) : ℕ := (z % 2 ^ 64).toNat

def toInt64 (z : ℤ) : ℤ := (z + 2 ^ 63) % 2 ^ 64 - 2 ^ 63

def sub64 (a b : ℕ) : ℕ := (a + (2 ^ 64 - b)) % 2 ^ 64

def mulLoop : (j p : ℕ) → ℕ
  | 0, p => p
  | j + 1, p => mulLoop j (p * (j + 1) % 2 ^ 64)

def sumLoop (m n1 : ℕ) : (todo i sum : ℕ) → Option ℕ
  | 0, _, sum => some sum
  | todo + 1, i, sum =>
    let m1 := mulLoop i 1
    let n1_m1 := mulLoop (sub64 m i) 1
    if m1 * n1_m1 % 2 ^ 64 = 0 then none
    else sumLoop m n1 todo (i + 1) ((sum + n1 / (m1 * n1_m1 % 2 ^ 64)) % 2 ^ 64)

def einval : ℤ := 22

def ecMethodCombination (m k : ℤ) : Option ℤ :=
  if m ≤ 0 ∨ k ≤ 0 then some (-einval)
  else
    (sumLoop (toUInt64 m) (mulLoop (toUInt64 m) 1) (toUInt64 (m - k)) 1 0).map
      fun sum : ℕ => toInt64 sum

variable {m k r i todo sum : ℕ}

theorem mulLoop_eq (j : ℕ) {p : ℕ} (hp : p < 2 ^ 64) :
    mulLoop j p = p * factorial j % 2 ^ 64 := by
  induction j generalizing p with
  | zero => rw [mulLoop, Nat.factorial_zero, Nat.mul_one, Nat.mod_eq_of_lt hp]
  | succ j ih =>
    rw [mulLoop, ih (Nat.mod_lt _ (by decide)), Nat.mod_mul_mod, Nat.factorial_succ, Nat.mul_assoc]

theorem sub64_eq (hm : m < 2 ^ 64) (hi : i ≤ m) : sub64 m i = m - i := by
  unfold sub64
  omega

def denominator (m i : ℕ) : ℕ := factorial i * factorial (m - i) % 2 ^ 64

def quotient (m i : ℕ) : ℕ := factorial m % 2 ^ 64 / denominator m i

theorem mulLoop_mul_mulLoop (hm : m < 2 ^ 64) (hi : i ≤ m) :
    mulLoop i 1 * mulLoop (sub64 m i) 1 % 2 ^ 64 = denominator m i := by
  rw [sub64_eq hm hi, mulLoop_eq _ (by decide), mulLoop_eq _ (by decide), Nat.one_mul, Nat.one_mul,
    ← Nat.mul_mod, denominator]

theorem sumLoop_eq (hm : m < 2 ^ 64) (htodo : i + todo ≤ m + 1) (hsum : sum < 2 ^ 64) :
    sumLoop m (factorial m % 2 ^ 64) todo i sum =
      if ∀ j ∈ List.range' i todo, denominator m j ≠ 0 then
        some ((sum + ((List.range' i todo).map (quotient m)).sum) % 2 ^ 64)
      else none := by
  induction todo generalizing i sum with
  | zero =>
    rw [List.range'_zero, if_pos (by simp), List.map_nil, List.sum_nil, Nat.add_zero,
      Nat.mod_eq_of_lt hsum]
    rfl
  | succ todo ih =>
    have hrest := @ih (i + 1) ((sum + quotient m i) % 2 ^ 64) (by omega) (Nat.mod_lt _ (by decide))
    rw [sumLoop, mulLoop_mul_mulLoop hm (by omega), ← quotient]
    simp only [List.range'_succ, List.forall_mem_cons, List.map_cons, List.sum_cons]
    by_cases hzero : denominator m i = 0
    · rw [if_pos hzero, if_neg (fun h => h.1 hzero)]
    · rw [if_neg hzero, hrest]
      simp only [ne_eq, hzero, not_false_eq_true, true_and, Nat.mod_add_mod, Nat.add_assoc]

def Divides (m k : ℕ) : Prop := ∀ i ∈ List.range' 1 (m - k), denominator m i ≠ 0

instance (m k : ℕ) : Decidable (Divides m k) := by
  unfold Divides
  infer_instance

theorem ecMethodCombination_eq (hk : 1 ≤ k) (hkm : k < m) (hm : m < 2 ^ 31) :
    ecMethodCombination m k =
      if Divides m k then some (toInt64 (((List.range' 1 (m - k)).map (quotient m)).sum % 2 ^ 64 : ℕ))
      else none := by
  have hm64 : toUInt64 m = m := by
    unfold toUInt64
    omega
  have hmk64 : toUInt64 (m - k) = m - k := by
    unfold toUInt64
    omega
  have hfactorial : mulLoop m 1 = factorial m % 2 ^ 64 := by
    rw [mulLoop_eq m (by decide), Nat.one_mul]
  rw [ecMethodCombination, if_neg (by omega), hm64, hmk64, hfactorial,
    sumLoop_eq (by omega) (by omega) (by decide), Nat.zero_add]
  by_cases h : Divides m k
  · have hall : ∀ j ∈ List.range' 1 (m - k), denominator m j ≠ 0 := h
    rw [if_pos hall, if_pos h]
    rfl
  · have hall : ¬∀ j ∈ List.range' 1 (m - k), denominator m j ≠ 0 := h
    rw [if_neg hall, if_neg h]
    rfl

theorem denominator_eq_zero (h : 2 ^ 64 ∣ factorial (m - i)) : denominator m i = 0 :=
  Nat.mod_eq_zero_of_dvd (h.mul_left _)

theorem denominator_ne_zero (hm : m ≤ 65) (hi : i ≤ m) : denominator m i ≠ 0 := by
  intro h
  have hdvd : 2 ^ 64 ∣ factorial 65 :=
    ((Nat.dvd_of_mod_eq_zero h).trans (Nat.factorial_mul_factorial_dvd_factorial hi)).trans
      (Nat.factorial_dvd_factorial hm)
  exact absurd hdvd (by decide +kernel)

theorem divides_iff (hk : 1 ≤ k) (hkm : k < m) : Divides m k ↔ m ≤ 65 ∨ m = 66 ∧ k = 65 := by
  constructor
  · intro h
    by_contra hlarge
    rcases Nat.lt_or_ge m 67 with hm | hm
    · obtain rfl : m = 66 := by omega
      have htwo : 2 ∈ List.range' 1 (66 - k) := List.mem_range'_1.2 ⟨by decide, by omega⟩
      exact h 2 htwo (by decide +kernel)
    · have hone : 1 ∈ List.range' 1 (m - k) := List.mem_range'_1.2 ⟨by decide, by omega⟩
      have hdvd : 2 ^ 64 ∣ factorial 66 := by decide +kernel
      have hle : 66 ≤ m - 1 := by omega
      exact h 1 hone (denominator_eq_zero (hdvd.trans (Nat.factorial_dvd_factorial hle)))
  · rintro (hm | ⟨rfl, rfl⟩)
    · intro i hi
      have hrange := List.mem_range'_1.1 hi
      exact denominator_ne_zero hm (by omega)
    · decide +kernel

theorem quotient_eq (hm : m ≤ 20) (hi : i ≤ m) : quotient m i = m.choose i := by
  have hlt : factorial m < 2 ^ 64 :=
    Nat.lt_of_le_of_lt (Nat.factorial_le hm) (by decide +kernel)
  have hle : factorial i * factorial (m - i) ≤ factorial m :=
    Nat.le_of_dvd (Nat.factorial_pos m) (Nat.factorial_mul_factorial_dvd_factorial hi)
  rw [quotient, denominator, Nat.mod_eq_of_lt hlt, Nat.mod_eq_of_lt (Nat.lt_of_le_of_lt hle hlt),
    Nat.choose_eq_factorial_div_factorial hi]

theorem sum_range' (f : ℕ → ℕ) (r : ℕ) :
    ((List.range' 1 r).map f).sum = ∑ i ∈ Finset.Icc 1 r, f i := by
  induction r with
  | zero => rfl
  | succ r ih =>
    rw [List.range'_concat, List.map_append, List.sum_append, ih,
      Finset.sum_Icc_succ_top (Nat.succ_pos r)]
    simp [Nat.add_comm]

def patternCount (m k : ℕ) : ℕ := ∑ i ∈ Finset.Icc 1 (m - k), m.choose i

theorem patternCount_lt (h : m ≤ 20) : patternCount m k < 2 ^ 63 := by
  have hsubset : Finset.Icc 1 (m - k) ⊆ Finset.range (m + 1) := by
    intro i hi
    have hmem := Finset.mem_Icc.1 hi
    exact Finset.mem_range.2 (by omega)
  calc patternCount m k ≤ ∑ i ∈ Finset.range (m + 1), m.choose i :=
        Finset.sum_le_sum_of_subset hsubset
    _ = 2 ^ m := Nat.sum_range_choose m
    _ ≤ 2 ^ 20 := Nat.pow_le_pow_right (by decide) h
    _ < 2 ^ 63 := by decide

theorem toInt64_eq {n : ℕ} (h : n < 2 ^ 63) : toInt64 n = n := by
  unfold toInt64
  omega

theorem eq_of_toInt64_eq {n p : ℕ} (hn : n < 2 ^ 64) (h : toInt64 n = p) : n = p := by
  unfold toInt64 at h
  omega

/-- The partial sums from `i` on differ from the exact ones, but for `m = 60` and one size. -/
def differ (m : ℕ) : (todo i sum exact : ℕ) → Bool
  | 0, _, _, _ => true
  | todo + 1, i, sum, exact =>
    let sum := (sum + quotient m i) % 2 ^ 64
    let exact := exact + factorial m / (factorial i * factorial (m - i))
    (sum != exact || (m == 60 && i == 1)) && differ m todo (i + 1) sum exact

theorem sum_ne_of_differ {exact : ℕ} (h : differ m todo i sum exact = true)
    (htodo : i + todo ≤ m + 1) (hr : r < todo) :
    (sum + ((List.range' i (r + 1)).map (quotient m)).sum) % 2 ^ 64 ≠
        exact + ((List.range' i (r + 1)).map m.choose).sum ∨ m = 60 ∧ i + r = 1 := by
  induction todo generalizing i sum exact r with
  | zero => exact absurd hr (Nat.not_lt_zero r)
  | succ todo ih =>
    rw [differ, Bool.and_eq_true, Bool.or_eq_true] at h
    obtain ⟨hhead, htail⟩ := h
    rw [← Nat.choose_eq_factorial_div_factorial (by omega)] at hhead htail
    cases r with
    | zero =>
      rcases hhead with hne | heq
      · exact Or.inl (by simpa using hne)
      · exact Or.inr (by simpa using heq)
    | succ r =>
      have hrest := ih htail (by omega) (Nat.lt_of_succ_lt_succ hr)
      rw [List.range'_succ, List.map_cons, List.sum_cons, List.map_cons, List.sum_cons,
        ← Nat.add_assoc, ← Nat.add_assoc, ← Nat.mod_add_mod]
      rwa [Nat.add_right_comm i 1 r] at hrest

theorem differ_large : ∀ m ∈ List.range' 21 46, differ m (m - 1) 1 0 0 = true := by
  decide +kernel

theorem sum_eq_sixty : ((List.range' 1 1).map (quotient 60)).sum % 2 ^ 64 = patternCount 60 59 := by
  decide +kernel

/-- The function divides by no zero and returns the number of patterns if and only if `m` is at
most 20, or the wrong quotient of 60 factorial happens to be the right one. -/
theorem combination_iff (hk : 1 ≤ k) (hkm : k < m) (hm : m < 2 ^ 31) :
    ecMethodCombination m k = some (patternCount m k : ℤ) ↔ m ≤ 20 ∨ m = 60 ∧ k = 59 := by
  have hcount : patternCount m k = ((List.range' 1 (m - k)).map m.choose).sum :=
    (sum_range' m.choose (m - k)).symm
  rw [ecMethodCombination_eq hk hkm hm]
  constructor
  · intro h
    obtain ⟨hdivides, h⟩ := Option.ite_none_right_eq_some.1 h
    have hsmall := (divides_iff hk hkm).1 hdivides
    have heq := eq_of_toInt64_eq (Nat.mod_lt _ (by decide)) (Option.some.inj h)
    by_contra hno
    obtain ⟨r, hr⟩ : ∃ r, m - k = r + 1 := ⟨m - k - 1, by omega⟩
    have hmem : m ∈ List.range' 21 46 := List.mem_range'_1.2 ⟨by omega, by omega⟩
    have hdiffer := @sum_ne_of_differ m r 1 (m - 1) 0 0 (differ_large m hmem) (by omega) (by omega)
    rw [Nat.zero_add, Nat.zero_add, ← hr] at hdiffer
    rcases hdiffer with hne | ⟨hsixty, hone⟩
    · exact hne (heq.trans hcount)
    · exact hno (Or.inr ⟨hsixty, by omega⟩)
  · rintro (hle | ⟨rfl, rfl⟩)
    · have hexact : (List.range' 1 (m - k)).map (quotient m) =
          (List.range' 1 (m - k)).map m.choose := by
        apply List.map_congr_left
        intro i hi
        have hrange := List.mem_range'_1.1 hi
        exact quotient_eq hle (by omega)
      have hlt := patternCount_lt (k := k) hle
      rw [if_pos ((divides_iff hk hkm).2 (Or.inl (by omega))), hexact, ← hcount,
        Nat.mod_eq_of_lt (by omega), toInt64_eq hlt]
    · have hlt : patternCount 60 59 < 2 ^ 63 := by decide +kernel
      rw [if_pos ((divides_iff hk hkm).2 (Or.inl (by decide))), sum_eq_sixty, toInt64_eq hlt]

theorem combination_iff_twenty : ecMethodCombination 20 16 = some (patternCount 20 16 : ℤ) ∧
    patternCount 20 16 = 6195 :=
  ⟨(combination_iff (by decide) (by decide) (by decide)).2 (Or.inl (by decide)), by decide +kernel⟩

theorem combination_wrong : ecMethodCombination 21 20 = some 5 ∧ patternCount 21 20 = 21 ∧
    ecMethodCombination 66 64 = none :=
  ⟨by decide +kernel, by decide +kernel, by decide +kernel⟩

end MyScripts.ErasureCode.DecodeList
