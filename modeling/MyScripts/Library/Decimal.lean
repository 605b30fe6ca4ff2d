import Mathlib.Algebra.Group.Int.Defs
import Mathlib.Algebra.Group.Nat.Defs
import Mathlib.Data.List.Basic

/-!
# Decimal numbers in text

Printing a number as `%d`, `%u` or `%ld` and reading it back as `atoi` and the
`%ld` of `sscanf` do: leading white space, a sign, the longest run of digits.
-/
namespace MyScripts.Library.Decimal

def printNat (n : ℕ) : List Char := Nat.toDigits 10 n

def printInt : ℤ → List Char
  | .ofNat n => printNat n
  | .negSucc n => '-' :: printNat (n + 1)

theorem printNat_digits (n : ℕ) : ∀ c ∈ printNat n, c.isDigit = true :=
  fun _ hc => Nat.isDigit_of_mem_toDigits (by decide : 0 < 10) (by decide) hc

theorem printNat_ne_nil (n : ℕ) : printNat n ≠ [] := Nat.toDigits_ne_nil

theorem length_printNat_le_iff {n k : ℕ} (hk : 0 < k) : (printNat n).length ≤ k ↔ n < 10 ^ k :=
  Nat.length_toDigits_le_iff (by decide) hk

theorem length_printNat_le {n k : ℕ} (hk : 0 < k) (h : n < 10 ^ k) : (printNat n).length ≤ k :=
  (length_printNat_le_iff hk).2 h

theorem ofDigitChars_lt {ds : List Char} (hd : ∀ c ∈ ds, c.isDigit = true) :
    Nat.ofDigitChars 10 ds 0 < 10 ^ ds.length := by
  induction ds with
  | nil => simp
  | cons c ds ih =>
    have hc : c.toNat - '0'.toNat < 10 := by
      have hdigit := hd c (List.mem_cons_self ..)
      simp only [Char.isDigit, Bool.and_eq_true, decide_eq_true_eq, UInt32.le_iff_toNat_le] at hdigit
      have hle : c.toNat ≤ 57 := hdigit.2
      have hzero : '0'.toNat = 48 := rfl
      omega
    have hrest := ih fun c hc => hd c (List.mem_cons_of_mem _ hc)
    have hmul := Nat.mul_le_mul_left (10 ^ ds.length) (Nat.le_of_lt_succ hc)
    rw [Nat.ofDigitChars_cons, Nat.ofDigitChars_eq_ofDigitChars_zero, List.length_cons, Nat.pow_succ,
      Nat.mul_zero, Nat.zero_add]
    omega

theorem printNat_injective : Function.Injective printNat := by
  intro a b h
  have hread := Nat.ofDigitChars_ten_toDigits (n := a)
  rwa [← printNat, h, printNat, Nat.ofDigitChars_ten_toDigits, eq_comm] at hread

theorem head_printNat {n : ℕ} (h : (printNat n).head? = some '0') : n = 0 := by
  induction n using Nat.strongRecOn with
  | ind n ih =>
    by_cases hn : n < 10
    · rw [printNat, Nat.toDigits_of_lt_base hn] at h
      simpa using h
    · have hle : 10 ≤ n := Nat.le_of_not_lt hn
      rw [printNat, Nat.toDigits_of_base_le (by decide) hle,
        List.head?_append_of_ne_nil _ Nat.toDigits_ne_nil] at h
      have hzero := ih (n / 10) (by omega) h
      omega

theorem ofDigitChars_tail_lt {n : ℕ} {d : Char} {ds : List Char} (h : printNat n = d :: ds)
    (hds : ds ≠ []) : Nat.ofDigitChars 10 ds 0 < n := by
  have hlt := ofDigitChars_lt fun c hc => printNat_digits n c (h ▸ List.mem_cons_of_mem d hc)
  have hlen : ¬(printNat n).length ≤ ds.length := by simp [h]
  rw [length_printNat_le_iff (List.length_pos_of_ne_nil hds), Nat.not_lt] at hlen
  exact Nat.lt_of_lt_of_le hlt hlen

def Ends (rest : List Char) : Prop := ∀ c ∈ rest.head?, c.isDigit = false

theorem ends_nil : Ends [] := fun _ h => absurd h (by simp)

theorem ends_cons {c : Char} {rest : List Char} (h : c.isDigit = false) : Ends (c :: rest) := by
  intro d hd
  cases hd
  exact h

theorem takeWhile_digits {ds rest : List Char} (hd : ∀ c ∈ ds, c.isDigit = true) (hr : Ends rest) :
    (ds ++ rest).takeWhile Char.isDigit = ds := by
  induction ds with
  | nil =>
    cases rest with
    | nil => rfl
    | cons c rest => simp [hr c rfl]
  | cons d ds ih =>
    have hds := ih fun c hc => hd c (List.mem_cons_of_mem d hc)
    rw [List.cons_append, List.takeWhile_cons_of_pos (hd d (List.mem_cons_self ..)), hds]

def scanNat (s : List Char) : Option ℕ :=
  if s.takeWhile Char.isDigit = [] then none
  else some (Nat.ofDigitChars 10 (s.takeWhile Char.isDigit) 0)

theorem scanNat_digits {ds rest : List Char} (hd : ∀ c ∈ ds, c.isDigit = true) (hne : ds ≠ [])
    (hr : Ends rest) : scanNat (ds ++ rest) = some (Nat.ofDigitChars 10 ds 0) := by
  rw [scanNat, takeWhile_digits hd hr, if_neg hne]

theorem scanNat_printNat (n : ℕ) {rest : List Char} (hr : Ends rest) :
    scanNat (printNat n ++ rest) = some n := by
  rw [scanNat_digits (printNat_digits n) (printNat_ne_nil n) hr, printNat,
    Nat.ofDigitChars_ten_toDigits]

theorem length_takeWhile_digits_le (s : List Char) {rest : List Char} (hr : Ends rest) :
    ((s ++ rest).takeWhile Char.isDigit).length ≤ s.length := by
  induction s with
  | nil =>
    cases rest with
    | nil => simp
    | cons c rest => simp [hr c rfl]
  | cons c s ih =>
    rw [List.cons_append]
    by_cases hc : c.isDigit = true
    · rw [List.takeWhile_cons_of_pos hc]
      exact Nat.succ_le_succ ih
    · rw [List.takeWhile_cons_of_neg hc]
      exact Nat.zero_le _

theorem scanNat_lt {s : List Char} {n : ℕ} (h : scanNat s = some n) :
    n < 10 ^ (s.takeWhile Char.isDigit).length := by
  unfold scanNat at h
  split_ifs at h
  cases h
  exact ofDigitChars_lt fun c hc => (List.all_eq_true.1 List.all_takeWhile) c hc

def isSpace (c : Char) : Bool :=
  c = ' ' || c = '\t' || c = '\n' || c = '\x0b' || c = '\x0c' || c = '\r'

def scanInt (s : List Char) : Option ℤ :=
  match s.dropWhile isSpace with
  | '-' :: t => (scanNat t).map fun n => -(n : ℤ)
  | '+' :: t => (scanNat t).map fun n => (n : ℤ)
  | t => (scanNat t).map fun n => (n : ℤ)

theorem isSpace_of_isDigit {c : Char} (h : c.isDigit = true) : isSpace c = false := by
  by_contra hs
  simp only [isSpace, Bool.or_eq_true, decide_eq_true_eq, Bool.not_eq_false] at hs
  rcases hs with ((((rfl | rfl) | rfl) | rfl) | rfl) | rfl <;> exact absurd h (by decide)

theorem scanInt_of_digit {c : Char} {t : List Char} (h : c.isDigit = true) :
    scanInt (c :: t) = (scanNat (c :: t)).map fun n => (n : ℤ) := by
  have hdrop : (c :: t).dropWhile isSpace = c :: t :=
    List.dropWhile_cons_of_neg (by simp [isSpace_of_isDigit h])
  unfold scanInt
  rw [hdrop]
  split
  · exact absurd h (by simp_all)
  · exact absurd h (by simp_all)
  · rfl

theorem scanInt_neg (t : List Char) :
    scanInt ('-' :: t) = (scanNat t).map fun n => -(n : ℤ) := rfl

theorem scanInt_digits {ds rest : List Char} (hd : ∀ c ∈ ds, c.isDigit = true) (hne : ds ≠ [])
    (hr : Ends rest) : scanInt (ds ++ rest) = some ((Nat.ofDigitChars 10 ds 0 : ℕ) : ℤ) := by
  have hscan := scanNat_digits hd hne hr
  obtain ⟨c, t, rfl⟩ := List.exists_cons_of_ne_nil hne
  rw [List.cons_append] at hscan ⊢
  rw [scanInt_of_digit (hd c (List.mem_cons_self ..)), hscan]
  rfl

theorem scanInt_printNat (n : ℕ) {rest : List Char} (hr : Ends rest) :
    scanInt (printNat n ++ rest) = some (n : ℤ) := by
  rw [scanInt_digits (printNat_digits n) (printNat_ne_nil n) hr, printNat,
    Nat.ofDigitChars_ten_toDigits]

theorem scanInt_printInt (z : ℤ) {rest : List Char} (hr : Ends rest) :
    scanInt (printInt z ++ rest) = some z := by
  cases z with
  | ofNat n => exact scanInt_printNat n hr
  | negSucc n =>
    rw [printInt, List.cons_append, scanInt_neg, scanNat_printNat _ hr]
    rfl

def InInt32 (z : ℤ) : Prop := -2 ^ 31 ≤ z ∧ z < 2 ^ 31

instance (z : ℤ) : Decidable (InInt32 z) := by
  unfold InInt32
  infer_instance

theorem length_printInt_le {z : ℤ} (h : InInt32 z) : (printInt z).length ≤ 11 := by
  obtain ⟨h₁, h₂⟩ := h
  cases z with
  | ofNat n =>
    have hn : n < 10 ^ 10 := by
      rw [Int.ofNat_eq_natCast] at h₂
      omega
    exact Nat.le_succ_of_le (length_printNat_le (by decide) hn)
  | negSucc n =>
    have hn : n + 1 < 10 ^ 10 := by omega
    exact Nat.succ_le_succ (length_printNat_le (by decide) hn)

def toInt32 (z : ℤ) : ℤ := (z + 2 ^ 31) % 2 ^ 32 - 2 ^ 31

theorem toInt32_eq {z : ℤ} (h : InInt32 z) : toInt32 z = z := by
  obtain ⟨h₁, h₂⟩ := h
  unfold toInt32
  omega

theorem toInt32_range (z : ℤ) : InInt32 (toInt32 z) := by
  unfold InInt32 toInt32
  omega

/-- `strtol` clamps to a 64-bit `long`. -/
def clampLong (z : ℤ) : ℤ := max (-2 ^ 63) (min z (2 ^ 63 - 1))

theorem clampLong_eq {z : ℤ} (h₁ : -2 ^ 63 ≤ z) (h₂ : z < 2 ^ 63) : clampLong z = z := by
  unfold clampLong
  omega

def atoi (s : List Char) : ℤ := toInt32 (clampLong ((scanInt s).getD 0))

theorem atoi_printInt {z : ℤ} (h : InInt32 z) {rest : List Char} (hr : Ends rest) :
    atoi (printInt z ++ rest) = z := by
  have h' := h
  obtain ⟨h₁, h₂⟩ := h'
  rw [atoi, scanInt_printInt z hr, Option.getD_some, clampLong_eq (by omega) (by omega),
    toInt32_eq h]

theorem not_mem_printNat {c : Char} (h : c.isDigit = false) (n : ℕ) : c ∉ printNat n := by
  intro hc
  rw [printNat_digits n c hc] at h
  exact Bool.noConfusion h

theorem not_mem_printInt {c : Char} (h : c.isDigit = false) (hm : c ≠ '-') (z : ℤ) :
    c ∉ printInt z := by
  cases z with
  | ofNat n => exact not_mem_printNat h n
  | negSucc n =>
    rw [printInt, List.mem_cons, not_or]
    exact ⟨hm, not_mem_printNat h (n + 1)⟩

end MyScripts.Library.Decimal
