import Mathlib.Data.List.Find

/-!
# A tree of files as a list of paths, and `mv`

Each file and directory below the root with its path. Moving a directory takes
what is below it along; `mv` puts its source into a target that is a directory,
overwrites a file by a file and an empty directory by a directory, and fails
elsewhere.
-/
namespace MyScripts.Library.FileTree

variable {ν φ : Type*}

inductive Path (ν : Type*)
  | root
  | child (parent : Path ν) (name : ν)
  deriving DecidableEq

inductive Entry (φ : Type*)
  | file (content : φ)
  | dir

abbrev Entries (ν φ : Type*) := List (Path ν × Entry φ)

namespace Path

def names : Path ν → List ν
  | root => []
  | child p n => p.names ++ [n]

theorem foldl_child (p : Path ν) : p.names.foldl child root = p := by
  induction p with
  | root => rfl
  | child p n ih => rw [names, List.foldl_append, ih, List.foldl_cons, List.foldl_nil]

variable {a p q : Path ν} {n m : ν}

/-- The path itself and the directories it is in. -/
def Under (a : Path ν) : Path ν → Prop
  | root => a = root
  | child p n => a = child p n ∨ Under a p

theorem Under.refl (p : Path ν) : Under p p := by
  cases p with
  | root => rfl
  | child p n => exact Or.inl rfl

theorem under_root (p : Path ν) : Under root p := by
  induction p with
  | root => rfl
  | child p n ih => exact Or.inr ih

theorem Under.trans (h : Under a p) (h' : Under p q) : Under a q := by
  induction q with
  | root =>
    rw [Under] at h'
    rwa [h'] at h
  | child q n ih =>
    rcases h' with rfl | h'
    · exact h
    · exact Or.inr (ih h')

theorem under_child (p : Path ν) (n : ν) : Under p (child p n) := Or.inr (Under.refl p)

theorem Under.length_le (h : Under a p) : a.names.length ≤ p.names.length := by
  induction p with
  | root =>
    rw [Under] at h
    exact Nat.le_of_eq (h ▸ rfl)
  | child p n ih =>
    rcases h with rfl | h
    · exact Nat.le_refl _
    · have hp := ih h
      rw [names, List.length_append]
      omega

theorem not_under_parent (p : Path ν) (n : ν) : ¬Under (child p n) p := by
  intro h
  have hlen := h.length_le
  rw [names, List.length_append, List.length_singleton] at hlen
  omega

theorem not_under_sibling (h : n ≠ m) : ¬Under (child p n) (child p m) := by
  rintro (hc | hc)
  · exact h (Path.child.inj hc).2
  · exact not_under_parent p n hc

def name? : Path ν → Option ν
  | root => none
  | child _ n => some n

variable [DecidableEq ν] {src dst : Path ν}

instance decidableUnder (a : Path ν) : (p : Path ν) → Decidable (Under a p)
  | root => inferInstanceAs (Decidable (a = root))
  | child p n =>
    have := decidableUnder a p
    inferInstanceAs (Decidable (a = child p n ∨ Under a p))

def rebase (src dst : Path ν) : Path ν → Path ν
  | root => if root = src then dst else root
  | child p n => if child p n = src then dst else child (rebase src dst p) n

@[simp] theorem rebase_self (src dst : Path ν) : rebase src dst src = dst := by
  cases src <;> simp [rebase]

theorem rebase_of_not_under (h : ¬Under src p) : rebase src dst p = p := by
  induction p with
  | root =>
    rw [Under] at h
    rw [rebase, if_neg (Ne.symm h)]
  | child p n ih =>
    rw [Under, not_or] at h
    rw [rebase, if_neg (Ne.symm h.1), ih h.2]

theorem under_rebase (dst : Path ν) (h : Under src p) : Under dst (rebase src dst p) := by
  induction p with
  | root =>
    rw [Under] at h
    subst h
    rw [rebase_self]
    exact Under.refl dst
  | child p n ih =>
    rcases h with rfl | h
    · rw [rebase_self]
      exact Under.refl dst
    · rw [rebase]
      split_ifs
      · exact Under.refl dst
      · exact Or.inr (ih h)

theorem name_rebase (dst : Path ν) (h : p ≠ src) : (rebase src dst p).name? = p.name? := by
  cases p with
  | root => rw [rebase, if_neg h]
  | child p n => rw [rebase, if_neg h]; rfl

end Path

open FileTree.Path

variable [DecidableEq ν] {s : Entries ν φ} {src dst a p : Path ν} {n m : ν}

def paths (s : Entries ν φ) : List (Path ν) := s.map Prod.fst

def lookup (s : Entries ν φ) (p : Path ν) : Option (Entry φ) :=
  if p = root then some .dir else (s.find? fun e => e.1 = p).map Prod.snd

def isEmpty (s : Entries ν φ) (p : Path ν) : Bool :=
  s.all fun e => e.1 = p ∨ ¬Under p e.1

def move (src dst : Path ν) (s : Entries ν φ) : Entries ν φ :=
  (s.filter fun e => e.1 ≠ dst).map fun e => (rebase src dst e.1, e.2)

def place (src dst : Path ν) (s : Entries ν φ) : Entries ν φ :=
  if Under src dst then s
  else
    match lookup s src, lookup s dst with
    | some _, none =>
      match dst with
      | child p _ => if (lookup s p) matches some .dir then move src dst s else s
      | root => s
    | some (.file _), some (.file _) => move src dst s
    | some .dir, some .dir => if isEmpty s dst then move src dst s else s
    | _, _ => s

def mv (src dst : Path ν) (s : Entries ν φ) : Entries ν φ :=
  match lookup s dst, src with
  | some .dir, child _ n => place src (child dst n) s
  | some .dir, root => s
  | _, _ => place src dst s

theorem lookup_isSome : (lookup s p).isSome ↔ p = root ∨ p ∈ paths s := by
  rw [lookup, paths]
  split_ifs with hp
  · simp [hp]
  · rw [Option.isSome_map, List.find?_isSome]
    simp [hp]

theorem lookup_eq_none (hp : p ≠ root) : lookup s p = none ↔ p ∉ paths s := by
  rw [← Option.not_isSome_iff_eq_none, lookup_isSome]
  simp [hp]

structure Listed (s : Entries ν φ) : Prop where
  order : s.Pairwise fun a b => ¬Under b.1 a.1
  below : root ∉ paths s
  parents : ∀ p n, child p n ∈ paths s → lookup s p = some .dir

theorem Listed.parent (h : Listed s) (hp : child p n ∈ paths s) : p = root ∨ p ∈ paths s := by
  rw [← lookup_isSome, h.parents p n hp]
  rfl

theorem Listed.ancestor (h : Listed s) (hp : p = root ∨ p ∈ paths s) (ha : Under a p) :
    a = root ∨ a ∈ paths s := by
  induction p with
  | root => exact Or.inl ha
  | child p n ih =>
    rcases ha with rfl | ha
    · exact hp
    · exact ih (h.parent (hp.resolve_left (by simp))) ha

theorem lookup_of_mem {e : Entry φ} (horder : s.Pairwise fun a b => ¬Under b.1 a.1)
    (hp : p ≠ root) (he : (p, e) ∈ s) : lookup s p = some e := by
  rw [lookup, if_neg hp]
  induction s with
  | nil => exact absurd he List.not_mem_nil
  | cons x s ih =>
    rw [List.pairwise_cons] at horder
    by_cases hx : x.1 = p
    · have heq : (p, e) = x := by
        rcases List.mem_cons.1 he with heq | hmem
        · exact heq
        · exact absurd (hx ▸ Under.refl _) (horder.1 _ hmem)
      simp [← heq]
    · have hmem : (p, e) ∈ s := (List.mem_cons.1 he).resolve_left fun heq => hx (heq ▸ rfl)
      rw [List.find?_cons_of_neg (by simpa using hx)]
      exact ih horder.2 hmem

theorem length_move_le (src dst : Path ν) (s : Entries ν φ) : (move src dst s).length ≤ s.length := by
  rw [move, List.length_map]
  exact List.length_filter_le _ _

theorem length_move_lt (h : dst ∈ paths s) : (move src dst s).length < s.length := by
  obtain ⟨e, he, hdst⟩ := List.mem_map.1 h
  rw [move, List.length_map, List.length_filter_lt_length_iff_exists]
  exact ⟨e, he, by simp [hdst]⟩

theorem move_of_not_mem (h : dst ∉ paths s) :
    move src dst s = s.map fun e => (rebase src dst e.1, e.2) := by
  have hall : s.filter (fun e => e.1 ≠ dst) = s := by
    rw [List.filter_eq_self]
    intro e he
    simp only [ne_eq, decide_not, Bool.not_eq_true', decide_eq_false_iff_not]
    intro hdst
    exact h (List.mem_map.2 ⟨e, he, hdst⟩)
  rw [move, hall]

theorem mem_paths_move (src : Path ν) (h : dst ∉ paths s) (hp : p ∈ paths s) :
    rebase src dst p ∈ paths (move src dst s) := by
  obtain ⟨e, he, rfl⟩ := List.mem_map.1 hp
  rw [move_of_not_mem h, paths, List.map_map]
  exact List.mem_map.2 ⟨e, he, rfl⟩

theorem place_cases (src dst : Path ν) (s : Entries ν φ) :
    place src dst s = s ∨ place src dst s = move src dst s := by
  unfold place
  split
  · exact Or.inl rfl
  · split <;> (try split) <;> (try split) <;> simp

theorem mv_cases (src dst : Path ν) (s : Entries ν φ) :
    mv src dst s = s ∨ ∃ d, mv src dst s = move src d s ∧
      (d = dst ∨ ∃ p n, src = child p n ∧ d = child dst n) := by
  unfold mv
  split
  · next p n _ =>
    rcases place_cases (child p n) (child dst n) s with h | h
    · exact Or.inl h
    · exact Or.inr ⟨child dst n, h, Or.inr ⟨p, n, rfl, rfl⟩⟩
  · exact Or.inl rfl
  · rcases place_cases _ dst s with h | h
    · exact Or.inl h
    · exact Or.inr ⟨dst, h, Or.inl rfl⟩

theorem length_mv_le (src dst : Path ν) (s : Entries ν φ) : (mv src dst s).length ≤ s.length := by
  rcases mv_cases src dst s with hsame | ⟨d, hmove, -⟩
  · exact Nat.le_of_eq (congrArg List.length hsame)
  · rw [hmove]
    exact length_move_le src d s

theorem mv_root (dst : Path ν) (s : Entries ν φ) : mv root dst s = s := by
  unfold mv
  split
  · next hroot => cases hroot
  · rfl
  · exact if_pos (under_root dst)

theorem mv_fresh (hn : n ≠ m) (hsrc : child p n ∈ paths s) (hp : lookup s p = some .dir)
    (hdst : child p m ∉ paths s) :
    mv (child p n) (child p m) s = move (child p n) (child p m) s := by
  have hnone : lookup s (child p m) = none := (lookup_eq_none (by simp)).2 hdst
  obtain ⟨e, he⟩ := Option.isSome_iff_exists.1 (lookup_isSome.2 (Or.inr hsrc))
  unfold mv
  rw [hnone]
  simp only [place, if_neg (not_under_sibling hn), he, hnone, hp]
  rfl

end MyScripts.Library.FileTree
