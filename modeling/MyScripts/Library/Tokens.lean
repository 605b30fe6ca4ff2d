import Mathlib.Data.List.TakeWhile

/-!
# Tokens and lines of a text

`strtok` with one delimiter, the text after the first '=', and the lines
`getline` returns, with the facts by which a printed line is taken apart again.
-/
namespace MyScripts.Library.Tokens

variable {d c : Char} {s w rest : List Char}

def strtok (d : Char) (s : List Char) : Option (List Char × List Char) :=
  match s.dropWhile (· == d) with
  | [] => none
  | c :: t => some ((c :: t).takeWhile (· != d), ((c :: t).dropWhile (· != d)).drop 1)

theorem takeWhile_ne (hw : d ∉ w) : (w ++ d :: rest).takeWhile (· != d) = w := by
  induction w with
  | nil => simp
  | cons c w ih =>
    rw [List.mem_cons, not_or] at hw
    rw [List.cons_append, List.takeWhile_cons_of_pos (by simpa using Ne.symm hw.1), ih hw.2]

theorem dropWhile_ne (hw : d ∉ w) : (w ++ d :: rest).dropWhile (· != d) = d :: rest := by
  induction w with
  | nil => simp
  | cons c w ih =>
    rw [List.mem_cons, not_or] at hw
    rw [List.cons_append, List.dropWhile_cons_of_pos (by simpa using Ne.symm hw.1), ih hw.2]

theorem strtok_append (hne : w ≠ []) (hw : d ∉ w) :
    strtok d (w ++ d :: rest) = some (w, rest) := by
  obtain ⟨c, t, rfl⟩ := List.exists_cons_of_ne_nil hne
  have hc : (c == d) = false := by
    rw [List.mem_cons, not_or] at hw
    simpa using Ne.symm hw.1
  have hdrop : (c :: t ++ d :: rest).dropWhile (· == d) = c :: t ++ d :: rest :=
    List.dropWhile_cons_of_neg (by simp [hc])
  rw [strtok, hdrop, List.cons_append]
  simp only
  rw [← List.cons_append, takeWhile_ne hw, dropWhile_ne hw, List.drop_one, List.tail_cons]

theorem strtok_last (hne : w ≠ []) (hw : d ∉ w) : strtok d w = some (w, []) := by
  obtain ⟨c, t, rfl⟩ := List.exists_cons_of_ne_nil hne
  have hall : ∀ x ∈ c :: t, (x != d) = true := by
    intro x hx
    simpa using fun h : x = d => hw (h ▸ hx)
  have hdrop : (c :: t).dropWhile (· == d) = c :: t :=
    List.dropWhile_cons_of_neg (by simpa using hall c (List.mem_cons_self ..))
  rw [strtok, hdrop]
  simp only
  rw [List.takeWhile_eq_self_iff.2 hall, List.dropWhile_eq_nil_iff.2 hall, List.drop_nil]

def after (c : Char) : List Char → Option (List Char)
  | [] => none
  | x :: t => if x = c then some t else after c t

theorem after_append (hw : c ∉ w) : after c (w ++ c :: rest) = some rest := by
  induction w with
  | nil => simp [after]
  | cons x w ih =>
    rw [List.mem_cons, not_or] at hw
    rw [List.cons_append, after, if_neg (Ne.symm hw.1), ih hw.2]

def lines : List Char → List (List Char)
  | [] => []
  | c :: s =>
    if c = '\n' then [c] :: lines s
    else
      match lines s with
      | [] => [[c]]
      | l :: ls => (c :: l) :: ls

theorem lines_append (hw : '\n' ∉ w) : lines (w ++ '\n' :: rest) = (w ++ ['\n']) :: lines rest := by
  induction w with
  | nil => simp [lines]
  | cons c w ih =>
    rw [List.mem_cons, not_or] at hw
    rw [List.cons_append, lines, if_neg (Ne.symm hw.1), ih hw.2, List.cons_append]

theorem lines_flatten (s : List Char) : (lines s).flatten = s := by
  induction s with
  | nil => rfl
  | cons c s ih =>
    rw [lines]
    split_ifs with hc
    · rw [List.flatten_cons, ih, List.singleton_append]
    · split
      · next h => rw [← ih, h]; rfl
      · next l ls h => rw [← ih, h]; rfl

theorem lines_eq_nil : lines s = [] ↔ s = [] := by
  refine ⟨fun h => ?_, fun h => by rw [h]; rfl⟩
  rw [← lines_flatten s, h, List.flatten_nil]

def IsLine (l : List Char) : Prop := ∃ w, '\n' ∉ w ∧ l = w ++ ['\n']

theorem isLine_newline : IsLine ['\n'] := ⟨[], List.not_mem_nil, rfl⟩

theorem isLine_append (hw : '\n' ∉ w) (hl : IsLine s) : IsLine (w ++ s) := by
  obtain ⟨v, hv, rfl⟩ := hl
  refine ⟨w ++ v, ?_, (List.append_assoc ..).symm⟩
  rw [List.mem_append, not_or]
  exact ⟨hw, hv⟩

theorem lines_flatten_append {ls : List (List Char)} (h : ∀ l ∈ ls, IsLine l) (more : List Char) :
    lines (ls.flatten ++ more) = ls ++ lines more := by
  induction ls with
  | nil => rfl
  | cons l ls ih =>
    obtain ⟨w, hw, rfl⟩ := h l (List.mem_cons_self ..)
    rw [List.flatten_cons, List.append_assoc, List.append_assoc, List.singleton_append,
      lines_append hw, ih fun x hx => h x (List.mem_cons_of_mem _ hx), List.cons_append]

end MyScripts.Library.Tokens
