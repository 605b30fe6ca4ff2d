import MyScripts.Library.Tokens

/-!
# Directory trees

A directory is a list of named entries, files with a `φ` and directories with a
`δ` and entries of their own. A path is looked up one component at a time.
-/
namespace MyScripts.Library.DirTree
open Tokens

abbrev Name := {s : List Char // '/' ∉ s ∧ s ≠ [] ∧ s ≠ ['.'] ∧ s ≠ ['.', '.']}

inductive Dir (φ δ : Type*)
  | nil
  | leaf (name : Name) (info : φ) (rest : Dir φ δ)
  | sub (name : Name) (info : δ) (children rest : Dir φ δ)

namespace Dir

variable {φ δ : Type*} {d ch rest : Dir φ δ} {nm : Name} {p q : List Char}

def names : Dir φ δ → List Name
  | nil => []
  | leaf nm _ rest => nm :: rest.names
  | sub nm _ _ rest => nm :: rest.names

def Distinct : Dir φ δ → Prop
  | nil => True
  | leaf nm _ rest => nm ∉ rest.names ∧ rest.Distinct
  | sub nm _ ch rest => nm ∉ rest.names ∧ ch.Distinct ∧ rest.Distinct

def first (p : List Char) : List Char := p.takeWhile (· != '/')

def lookup : Dir φ δ → List Char → Option (φ ⊕ δ)
  | nil, _ => none
  | leaf nm f rest, p =>
    if first p = nm.1 then
      match p.dropWhile (· != '/') with
      | [] => some (.inl f)
      | _ :: _ => none
    else rest.lookup p
  | sub nm i ch rest, p =>
    if first p = nm.1 then
      match p.dropWhile (· != '/') with
      | [] => some (.inr i)
      | _ :: q => ch.lookup q
    else rest.lookup p

theorem takeWhile_slash (hp : '/' ∉ p) : first p = p ∧ p.dropWhile (· != '/') = [] := by
  have hall : ∀ x ∈ p, (x != '/') = true := by
    intro x hx
    simpa using fun h : x = '/' => hp (h ▸ hx)
  exact ⟨List.takeWhile_eq_self_iff.2 hall, List.dropWhile_eq_nil_iff.2 hall⟩

@[simp] theorem first_name (nm : Name) : first nm = nm := (takeWhile_slash nm.2.1).1

@[simp] theorem first_child (nm : Name) (q : List Char) : first (nm ++ '/' :: q) = nm :=
  takeWhile_ne nm.2.1

theorem path_cases (p : List Char) : first p = p ∨ ∃ q, p = first p ++ '/' :: q := by
  have hsplit := List.takeWhile_append_dropWhile (p := (· != '/')) (l := p)
  cases hdrop : p.dropWhile (· != '/') with
  | nil =>
    left
    rw [hdrop, List.append_nil] at hsplit
    exact hsplit
  | cons c q =>
    right
    have hne : p.dropWhile (· != '/') ≠ [] := by
      rw [hdrop]
      exact List.cons_ne_nil c q
    have hc : c = '/' := by
      have hhead := List.head_dropWhile_not (· != '/') hne
      simp only [hdrop, List.head_cons] at hhead
      simpa using hhead
    rw [hdrop, hc] at hsplit
    exact ⟨q, hsplit.symm⟩

@[simp] theorem lookup_leaf_name (f : φ) : (leaf nm f rest).lookup nm = some (.inl f) := by
  rw [lookup, if_pos (first_name nm), (takeWhile_slash nm.2.1).2]

@[simp] theorem lookup_leaf_child (f : φ) : (leaf nm f rest).lookup (nm ++ '/' :: q) = none := by
  rw [lookup, if_pos (first_child nm q), dropWhile_ne nm.2.1]

theorem lookup_leaf_of_ne (f : φ) (h : first p ≠ nm) : (leaf nm f rest).lookup p = rest.lookup p :=
  if_neg h

@[simp] theorem lookup_sub_name (i : δ) : (sub nm i ch rest).lookup nm = some (.inr i) := by
  rw [lookup, if_pos (first_name nm), (takeWhile_slash nm.2.1).2]

@[simp] theorem lookup_sub_child (i : δ) :
    (sub nm i ch rest).lookup (nm ++ '/' :: q) = ch.lookup q := by
  rw [lookup, if_pos (first_child nm q), dropWhile_ne nm.2.1]

theorem lookup_sub_of_ne (i : δ) (h : first p ≠ nm) :
    (sub nm i ch rest).lookup p = rest.lookup p := if_neg h

theorem entry_cases (nm : Name) (p : List Char) :
    p = nm ∨ (∃ q, p = nm ++ '/' :: q) ∨ first p ≠ nm := by
  by_cases h : first p = nm
  · rcases path_cases p with hp | ⟨q, hp⟩
    · exact Or.inl (hp.symm.trans h)
    · rw [h] at hp
      exact Or.inr (Or.inl ⟨q, hp⟩)
  · exact Or.inr (Or.inr h)

theorem first_mem_names (h : (d.lookup p).isSome) : ∃ nm ∈ d.names, first p = nm := by
  induction d with
  | nil => cases h
  | leaf nm f rest ih =>
    by_cases hp : first p = nm
    · exact ⟨nm, List.mem_cons_self .., hp⟩
    · rw [lookup_leaf_of_ne f hp] at h
      obtain ⟨nm', hmem, hnm⟩ := ih h
      exact ⟨nm', List.mem_cons_of_mem nm hmem, hnm⟩
  | sub nm i ch rest _ ih =>
    by_cases hp : first p = nm
    · exact ⟨nm, List.mem_cons_self .., hp⟩
    · rw [lookup_sub_of_ne i hp] at h
      obtain ⟨nm', hmem, hnm⟩ := ih h
      exact ⟨nm', List.mem_cons_of_mem nm hmem, hnm⟩

theorem first_ne_of_rest (hnm : nm ∉ rest.names) (h : (rest.lookup p).isSome) : first p ≠ nm := by
  obtain ⟨nm', hmem, hp⟩ := first_mem_names h
  intro heq
  exact hnm (Subtype.ext (heq.symm.trans hp) ▸ hmem)

theorem exists_leaf_iff {P : List Char → Prop} {f : φ} (hnm : nm ∉ rest.names) :
    (∃ p, ((leaf nm f rest).lookup p).isSome ∧ P p) ↔
      P nm ∨ ∃ p, (rest.lookup p).isSome ∧ P p := by
  constructor
  · rintro ⟨p, hp, hP⟩
    rcases entry_cases nm p with rfl | ⟨q, rfl⟩ | hne
    · exact Or.inl hP
    · simp at hp
    · rw [lookup_leaf_of_ne f hne] at hp
      exact Or.inr ⟨p, hp, hP⟩
  · rintro (hP | ⟨p, hp, hP⟩)
    · exact ⟨nm, by rw [lookup_leaf_name]; rfl, hP⟩
    · exact ⟨p, by rwa [lookup_leaf_of_ne f (first_ne_of_rest hnm hp)], hP⟩

theorem exists_sub_iff {P : List Char → Prop} {i : δ} (hnm : nm ∉ rest.names) :
    (∃ p, ((sub nm i ch rest).lookup p).isSome ∧ P p) ↔
      P nm ∨ (∃ q, (ch.lookup q).isSome ∧ P (nm ++ '/' :: q)) ∨
        ∃ p, (rest.lookup p).isSome ∧ P p := by
  constructor
  · rintro ⟨p, hp, hP⟩
    rcases entry_cases nm p with rfl | ⟨q, rfl⟩ | hne
    · exact Or.inl hP
    · rw [lookup_sub_child] at hp
      exact Or.inr (Or.inl ⟨q, hp, hP⟩)
    · rw [lookup_sub_of_ne i hne] at hp
      exact Or.inr (Or.inr ⟨p, hp, hP⟩)
  · rintro (hP | ⟨q, hq, hP⟩ | ⟨p, hp, hP⟩)
    · exact ⟨nm, by rw [lookup_sub_name]; rfl, hP⟩
    · exact ⟨nm ++ '/' :: q, by rwa [lookup_sub_child], hP⟩
    · exact ⟨p, by rwa [lookup_sub_of_ne i (first_ne_of_rest hnm hp)], hP⟩

theorem slash_not_mem_first (p : List Char) : '/' ∉ first p := by
  intro h
  have hne := List.mem_takeWhile_imp h
  simp at hne

theorem first_append_slash (p q : List Char) : first (p ++ '/' :: q) = first p := by
  have hp := slash_not_mem_first p
  rcases path_cases p with heq | ⟨p', heq⟩
  · rw [heq] at hp
    rw [heq]
    exact takeWhile_ne hp
  · have happend : p ++ '/' :: q = first p ++ '/' :: (p' ++ '/' :: q) := by
      calc p ++ '/' :: q = (first p ++ '/' :: p') ++ '/' :: q := by rw [← heq]
        _ = _ := by rw [List.append_assoc, List.cons_append]
    rw [happend]
    exact takeWhile_ne hp

theorem lookup_parent (h : (d.lookup (p ++ '/' :: q)).isSome) :
    ∃ i, d.lookup p = some (.inr i) := by
  induction d generalizing p with
  | nil => cases h
  | leaf nm f rest ih =>
    rcases entry_cases nm p with rfl | ⟨p', rfl⟩ | hp
    · simp at h
    · simp at h
    · rw [lookup_leaf_of_ne f ((first_append_slash p q).trans_ne hp)] at h
      rw [lookup_leaf_of_ne f hp]
      exact ih h
  | sub nm i ch rest ihch ih =>
    rcases entry_cases nm p with rfl | ⟨p', rfl⟩ | hp
    · exact ⟨i, lookup_sub_name i⟩
    · rw [List.append_assoc, List.cons_append, lookup_sub_child] at h
      rw [lookup_sub_child]
      exact ihch h
    · rw [lookup_sub_of_ne i ((first_append_slash p q).trans_ne hp)] at h
      rw [lookup_sub_of_ne i hp]
      exact ih h

theorem exists_length_le (d : Dir φ δ) : ∃ N, ∀ p, (d.lookup p).isSome → p.length ≤ N := by
  induction d with
  | nil => exact ⟨0, fun p hp => by cases hp⟩
  | leaf nm f rest ih =>
    obtain ⟨N, hN⟩ := ih
    refine ⟨max nm.1.length N, fun p hp => ?_⟩
    rcases entry_cases nm p with rfl | ⟨q, rfl⟩ | hne
    · exact le_max_left ..
    · simp at hp
    · rw [lookup_leaf_of_ne f hne] at hp
      exact (hN p hp).trans (le_max_right ..)
  | sub nm i ch rest ihch ih =>
    obtain ⟨M, hM⟩ := ihch
    obtain ⟨N, hN⟩ := ih
    refine ⟨max (nm.1.length + 1 + M) N, fun p hp => ?_⟩
    rcases entry_cases nm p with rfl | ⟨q, rfl⟩ | hne
    · omega
    · rw [lookup_sub_child] at hp
      have hq := hM q hp
      rw [List.length_append, List.length_cons]
      omega
    · rw [lookup_sub_of_ne i hne] at hp
      exact (hN p hp).trans (le_max_right ..)

def Within (t : Dir φ δ) (r : List Char) (d : Dir φ δ) : Prop :=
  ∀ p, (d.lookup p).isSome → t.lookup (r ++ p) = d.lookup p

variable {t : Dir φ δ} {r : List Char}

theorem Within.refl (t : Dir φ δ) : Within t [] t := fun _ _ => rfl

theorem Within.leaf_rest {f : φ} (h : Within t r (leaf nm f rest)) (hnm : nm ∉ rest.names) :
    Within t r rest := by
  intro p hp
  have hpass : (leaf nm f rest).lookup p = rest.lookup p :=
    lookup_leaf_of_ne f (first_ne_of_rest hnm hp)
  rw [h p (by rw [hpass]; exact hp), hpass]

theorem Within.sub_rest {i : δ} (h : Within t r (sub nm i ch rest)) (hnm : nm ∉ rest.names) :
    Within t r rest := by
  intro p hp
  have hpass : (sub nm i ch rest).lookup p = rest.lookup p :=
    lookup_sub_of_ne i (first_ne_of_rest hnm hp)
  rw [h p (by rw [hpass]; exact hp), hpass]

theorem Within.children {i : δ} (h : Within t r (sub nm i ch rest)) :
    Within t (r ++ nm ++ ['/']) ch := by
  intro p hp
  have hbelow : (sub nm i ch rest).lookup (nm ++ '/' :: p) = ch.lookup p := lookup_sub_child i
  rw [List.append_assoc, List.append_assoc, List.singleton_append, h _ (by rw [hbelow]; exact hp),
    hbelow]

end Dir
end MyScripts.Library.DirTree
