import Mathlib.Algebra.Group.Nat.Defs
import Mathlib.Data.List.Basic
import Mathlib.Tactic.SplitIfs

/-!
# Red-black trees and the way down to a node

A tree with a color and an item at each node, its items in order, and the
balance of the colors. The nodes above a subtree, the nearest first, are frames:
a node with the direction that was taken at it and its other subtree. `plug`
puts a subtree back below its frames.
-/
namespace MyScripts.Library.RedBlack

inductive Color
  | black
  | red
  deriving DecidableEq, Repr

inductive RbTree (α : Type*)
  | nil
  | node (color : Color) (left : RbTree α) (data : α) (right : RbTree α)

variable {α : Type*} {c : Color} {n m : ℕ} {t : RbTree α}

namespace RbTree

def toList : RbTree α → List α
  | nil => []
  | node _ l a r => l.toList ++ a :: r.toList

def height : RbTree α → ℕ
  | nil => 0
  | node _ l _ r => max l.height r.height + 1

@[simp] theorem toList_nil : (nil : RbTree α).toList = [] := rfl

@[simp] theorem toList_node (c : Color) (l r : RbTree α) (a : α) :
    (node c l a r).toList = l.toList ++ a :: r.toList := rfl

/-- No red node has a red child, and below a node of color `c` each path meets `n` black nodes. -/
inductive Balanced : Color → ℕ → RbTree α → Prop
  | nil : Balanced .black 0 nil
  | red {n : ℕ} {l r : RbTree α} {a : α} :
    Balanced .black n l → Balanced .black n r → Balanced .red n (node .red l a r)
  | black {c c' : Color} {n : ℕ} {l r : RbTree α} {a : α} :
    Balanced c n l → Balanced c' n r → Balanced .black (n + 1) (node .black l a r)

theorem Balanced.two_pow_le (h : Balanced c n t) : 2 ^ n ≤ t.toList.length + 1 := by
  induction h with
  | nil => exact Nat.le_refl 1
  | red hl hr ihl ihr =>
    simp only [toList_node, List.length_append, List.length_cons]
    omega
  | black hl hr ihl ihr =>
    simp only [toList_node, List.length_append, List.length_cons, Nat.pow_succ]
    omega

theorem Balanced.height_le (h : Balanced c n t) :
    t.height ≤ 2 * n + if c = .red then 1 else 0 := by
  induction h with
  | nil => exact Nat.le_refl 0
  | red hl hr ihl ihr =>
    simp only [height, reduceCtorEq, if_false, if_true] at ihl ihr ⊢
    omega
  | @black c c' n l r a hl hr ihl ihr =>
    simp only [height, reduceCtorEq, if_false] at ihl ihr ⊢
    split_ifs at ihl ihr <;> omega

theorem Balanced.height_le_of_length (h : Balanced .black n t)
    (hm : t.toList.length + 1 < 2 ^ (m + 1)) :
    t.height ≤ 2 * m := by
  have hpow := Nat.lt_of_le_of_lt h.two_pow_le hm
  have hn : n < m + 1 := (Nat.pow_lt_pow_iff_right Nat.one_lt_two).1 hpow
  have hheight := h.height_le
  simp only [reduceCtorEq, if_false] at hheight
  omega

end RbTree

structure Frame (α : Type*) where
  color : Color
  data : α
  dir : Bool
  other : RbTree α

namespace Frame

def fill (f : Frame α) (t : RbTree α) : RbTree α :=
  match f.dir with
  | false => .node f.color t f.data f.other
  | true => .node f.color f.other f.data t

def before (f : Frame α) : List α :=
  match f.dir with
  | false => []
  | true => f.other.toList ++ [f.data]

def after (f : Frame α) : List α :=
  match f.dir with
  | false => f.data :: f.other.toList
  | true => []

theorem toList_fill (f : Frame α) (t : RbTree α) :
    (f.fill t).toList = f.before ++ t.toList ++ f.after := by
  obtain ⟨c, a, dir, o⟩ := f
  cases dir with
  | false => rfl
  | true => simp [fill, before, after]

end Frame

variable {f : Frame α} {s : List (Frame α)}

def plug : List (Frame α) → RbTree α → RbTree α
  | [], t => t
  | f :: s, t => plug s (f.fill t)

def before (s : List (Frame α)) : List α := (s.reverse.map Frame.before).flatten

def after (s : List (Frame α)) : List α := (s.map Frame.after).flatten

@[simp] theorem before_nil : before ([] : List (Frame α)) = [] := rfl

@[simp] theorem after_nil : after ([] : List (Frame α)) = [] := rfl

theorem before_cons (f : Frame α) (s : List (Frame α)) :
    before (f :: s) = before s ++ f.before := by
  simp [before]

theorem after_cons (f : Frame α) (s : List (Frame α)) : after (f :: s) = f.after ++ after s := by
  simp [after]

theorem before_append (s s' : List (Frame α)) : before (s ++ s') = before s' ++ before s := by
  simp [before]

theorem after_append (s s' : List (Frame α)) : after (s ++ s') = after s ++ after s' := by
  simp [after]

theorem before_eq_nil (h : ∀ f ∈ s, f.dir = false) : before s = [] := by
  rw [before, List.flatten_eq_nil_iff]
  intro l hl
  obtain ⟨f, hf, rfl⟩ := List.mem_map.1 hl
  rw [Frame.before, h f (List.mem_reverse.1 hf)]

theorem toList_plug (s : List (Frame α)) (t : RbTree α) :
    (plug s t).toList = before s ++ t.toList ++ after s := by
  induction s generalizing t with
  | nil => simp [plug]
  | cons f s ih =>
    rw [plug, ih, f.toList_fill, before_cons, after_cons]
    simp only [List.append_assoc]

/-- A tree of color `c` with `n` black nodes on each path fits below the frames; the root of the
whole tree is black. -/
inductive Fits : List (Frame α) → Color → ℕ → Prop
  | root {n : ℕ} : Fits [] .black n
  | red {f : Frame α} {s : List (Frame α)} {n : ℕ} :
    f.color = .red → RbTree.Balanced .black n f.other → Fits s .red n → Fits (f :: s) .black n
  | black {f : Frame α} {s : List (Frame α)} {c c' : Color} {n : ℕ} :
    f.color = .black → RbTree.Balanced c' n f.other → Fits s .black (n + 1) → Fits (f :: s) c n

theorem Fits.weaken (h : Fits s c n) : Fits s .black n := by
  cases h with
  | root => exact .root
  | red hf ho hs => exact .red hf ho hs
  | black hf ho hs => exact .black hf ho hs

theorem Fits.set_data {p : List (Frame α)} (h : Fits (s ++ f :: p) c n) (a : α) :
    Fits (s ++ { f with data := a } :: p) c n := by
  induction s generalizing c n with
  | nil =>
    cases h with
    | red hf ho hs => exact .red hf ho hs
    | black hf ho hs => exact .black hf ho hs
  | cons g s ih =>
    cases h with
    | red hg ho hs => exact .red hg ho (ih hs)
    | black hg ho hs => exact .black hg ho (ih hs)

theorem balanced_fill_red (hf : f.color = .red) (ho : RbTree.Balanced .black n f.other)
    (ht : RbTree.Balanced .black n t) : RbTree.Balanced .red n (f.fill t) := by
  obtain ⟨c, a, dir, o⟩ := f
  cases hf
  cases dir with
  | false => exact .red ht ho
  | true => exact .red ho ht

theorem balanced_fill_black {c' : Color} (hf : f.color = .black)
    (ho : RbTree.Balanced c' n f.other) (ht : RbTree.Balanced c n t) :
    RbTree.Balanced .black (n + 1) (f.fill t) := by
  obtain ⟨d, a, dir, o⟩ := f
  cases hf
  cases dir with
  | false => exact .black ht ho
  | true => exact .black ho ht

theorem Fits.plug (h : Fits s c n) (ht : RbTree.Balanced c n t) :
    ∃ m, RbTree.Balanced .black m (RedBlack.plug s t) := by
  induction h generalizing t with
  | root => exact ⟨_, ht⟩
  | red hf ho hs ih => exact ih (balanced_fill_red hf ho ht)
  | black hf ho hs ih => exact ih (balanced_fill_black hf ho ht)

end MyScripts.Library.RedBlack
