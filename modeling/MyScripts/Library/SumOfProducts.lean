import MyScripts.Library.Chunks
import MyScripts.Library.Decimal
import Mathlib.Algebra.BigOperators.Group.List.Basic
import Mathlib.Algebra.GroupWithZero.Nat

/-!
# Sums of products in text

An expression such as `3*2+4*0`, as the list of its terms and each term as the
list of its factors: writing it, taking it apart again, and its value.
-/
namespace MyScripts.Library.SumOfProducts
open Chunks Decimal

variable {ts us : List (List ℕ)} {fs : List ℕ} {n : ℕ} {s : List Char}

def product (fs : List ℕ) : List Char := ['*'].intercalate (fs.map printNat)

def text (ts : List (List ℕ)) : List Char := ['+'].intercalate (ts.map product)

def value (ts : List (List ℕ)) : ℕ := (ts.map List.prod).sum

def readNat (s : List Char) : Option ℕ :=
  if s ≠ [] ∧ s.all Char.isDigit then some (Nat.ofDigitChars 10 s 0) else none

def literal (s : List Char) : Option ℕ :=
  if s.head? = some '0' ∧ s ≠ ['0'] then none else readNat s

def parse (s : List Char) : Option (List (List ℕ)) :=
  (s.splitOn '+').mapM fun t => (t.splitOn '*').mapM literal

/-- `none` for what is not a sum of products of numbers. -/
def eval (s : List Char) : Option ℕ := (parse s).map value

theorem readNat_printNat (n : ℕ) : readNat (printNat n) = some n := by
  rw [readNat, if_pos ⟨printNat_ne_nil n, List.all_eq_true.2 (printNat_digits n)⟩, printNat,
    Nat.ofDigitChars_ten_toDigits]

theorem literal_printNat (n : ℕ) : literal (printNat n) = some n := by
  rw [literal, if_neg, readNat_printNat]
  rintro ⟨hhead, hne⟩
  rw [head_printNat hhead] at hne
  exact hne (Nat.toDigits_zero 10)

theorem star_not_mem (n : ℕ) : '*' ∉ printNat n := not_mem_printNat (by decide) n

theorem product_cons (hfs : fs ≠ []) (n : ℕ) : product (n :: fs) = printNat n ++ '*' :: product fs := by
  simp [product, List.intercalate_cons_of_ne_nil, hfs]

theorem not_mem_product {c : Char} (hc : c.isDigit = false) (hstar : c ≠ '*') (fs : List ℕ) :
    c ∉ product fs := by
  induction fs with
  | nil => simp [product]
  | cons n fs ih =>
    by_cases hfs : fs = []
    · simpa [hfs, product] using not_mem_printNat hc n
    · rw [product_cons hfs]
      simp [not_mem_printNat hc, hstar, ih]

theorem product_ne_nil (hfs : fs ≠ []) : product fs ≠ [] := by
  obtain ⟨n, fs, rfl⟩ := List.exists_cons_of_ne_nil hfs
  by_cases hfs : fs = []
  · simpa [hfs, product] using printNat_ne_nil n
  · rw [product_cons hfs]
    simp

theorem splitOn_product (hfs : fs ≠ []) : (product fs).splitOn '*' = fs.map printNat := by
  apply List.splitOn_intercalate
  · simp [star_not_mem]
  · simpa using hfs

theorem splitOn_text (hts : ts ≠ []) : (text ts).splitOn '+' = ts.map product := by
  apply List.splitOn_intercalate
  · simp [not_mem_product]
  · simpa using hts

theorem text_concat (hts : ts ≠ []) (fs : List ℕ) :
    text (ts ++ [fs]) = text ts ++ '+' :: product fs := by
  induction ts with
  | nil => exact absurd rfl hts
  | cons t ts ih =>
    by_cases hnil : ts = []
    · simp [hnil, text]
    · have hrest := ih hnil
      simp only [text, List.map_cons, List.map_append, List.cons_append, List.map_nil] at hrest ⊢
      rw [List.intercalate_cons_of_ne_nil (by simp), hrest,
        List.intercalate_cons_of_ne_nil (by simpa using hnil)]
      simp

theorem text_eq_nil (h : ∀ fs ∈ ts, fs ≠ []) : text ts = [] ↔ ts = [] := by
  constructor
  · intro htext
    by_contra hts
    have hsplit := splitOn_text hts
    rw [htext, List.splitOn_nil] at hsplit
    obtain ⟨t, ts, rfl⟩ := List.exists_cons_of_ne_nil hts
    rw [List.map_cons, List.cons.injEq] at hsplit
    exact product_ne_nil (h t List.mem_cons_self) hsplit.1.symm
  · rintro rfl
    rfl

theorem parse_text (hts : ts ≠ []) (h : ∀ fs ∈ ts, fs ≠ []) : parse (text ts) = some ts := by
  have hterm : ∀ fs ∈ ts, ((product fs).splitOn '*').mapM literal = some (id fs) := by
    intro fs hfs
    rw [splitOn_product (h fs hfs), mapM_map_eq_some (h := id) fun n _ => literal_printNat n,
      List.map_id, id]
  have hterms := mapM_map_eq_some (f := fun t : List Char => (t.splitOn '*').mapM literal) hterm
  rw [parse, splitOn_text hts, hterms, List.map_id]

theorem text_injective {ts us : List (List ℕ)} (hts : ∀ fs ∈ ts, fs ≠ [])
    (hus : ∀ fs ∈ us, fs ≠ []) (h : text ts = text us) : ts = us := by
  by_cases hnil : ts = []
  · have hus' : us = [] := by rw [← text_eq_nil hus, ← h, hnil, text_eq_nil (by simp)]
    rw [hnil, hus']
  · have hus' : us ≠ [] := by rwa [Ne, ← text_eq_nil hus, ← h, text_eq_nil hts]
    have hparse := parse_text hnil hts
    rw [h, parse_text hus' hus] at hparse
    exact (Option.some.inj hparse).symm

theorem eval_text (hts : ts ≠ []) (h : ∀ fs ∈ ts, fs ≠ []) : eval (text ts) = some (value ts) := by
  rw [eval, parse_text hts h, Option.map_some]

theorem value_append : value (ts ++ us) = value ts + value us := by
  simp [value]

@[simp]
theorem value_nil : value [] = 0 := rfl

@[simp]
theorem value_singleton : value [fs] = fs.prod := by
  simp [value]

end MyScripts.Library.SumOfProducts
