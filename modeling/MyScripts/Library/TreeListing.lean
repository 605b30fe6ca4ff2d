import MyScripts.Library.DirTree
import MyScripts.Library.FileTree

/-!
# A directory tree listed

The entries of a directory tree in the order in which `find` prints them: an
entry, then what is in it, then the entries after it.
-/
namespace MyScripts.Library.TreeListing
open FileTree FileTree.Path DirTree DirTree.Dir

variable {φ δ : Type*} {d : Dir φ δ} {a b p q : Path (List Char)} {e : Path (List Char) × Entry φ}

def listing (p : Path (List Char)) : Dir φ δ → Entries (List Char) φ
  | nil => []
  | leaf nm f rest => (child p nm, .file f) :: listing p rest
  | sub nm _ ch rest => (child p nm, .dir) :: (listing (child p nm) ch ++ listing p rest)

theorem under_of_mem (h : e ∈ listing p d) : ∃ nm ∈ d.names, Under (child p nm) e.1 := by
  induction d generalizing p with
  | nil => exact absurd h List.not_mem_nil
  | leaf nm f rest ih =>
    rcases List.mem_cons.1 h with rfl | h
    · exact ⟨nm, List.mem_cons_self .., Under.refl _⟩
    · obtain ⟨nm', hmem, hunder⟩ := ih h
      exact ⟨nm', List.mem_cons_of_mem nm hmem, hunder⟩
  | sub nm i ch rest ihch ihrest =>
    rcases List.mem_cons.1 h with rfl | h
    · exact ⟨nm, List.mem_cons_self .., Under.refl _⟩
    · rcases List.mem_append.1 h with h | h
      · obtain ⟨nm', -, hunder⟩ := ihch h
        exact ⟨nm, List.mem_cons_self .., (under_child (child p nm.1) nm'.1).trans hunder⟩
      · obtain ⟨nm', hmem, hunder⟩ := ihrest h
        exact ⟨nm', List.mem_cons_of_mem nm hmem, hunder⟩

theorem name_eq_of_under {n m : List Char} (hn : Under (child p n) a) (hm : Under (child p m) a) :
    n = m := by
  induction a with
  | root => cases hn
  | child a k ih =>
    rcases hn with hn | hn
    · rcases hm with hm | hm
      · exact (Path.child.inj (hn.trans hm.symm)).2
      · rw [← (Path.child.inj hn).1] at hm
        exact absurd hm (not_under_parent p m)
    · rcases hm with hm | hm
      · rw [← (Path.child.inj hm).1] at hn
        exact absurd hn (not_under_parent p n)
      · exact ih hn hm

theorem not_under_later {nm : Name} {rest : Dir φ δ} (hnm : nm ∉ rest.names)
    (ha : Under (child p nm) a) (he : e ∈ listing p rest) : ¬Under e.1 a := by
  intro hunder
  obtain ⟨nm', hmem, hlater⟩ := under_of_mem he
  have heq := name_eq_of_under ha (hlater.trans hunder)
  exact hnm ((Subtype.ext heq : nm = nm') ▸ hmem)

theorem listing_order (h : d.Distinct) (p : Path (List Char)) :
    (listing p d).Pairwise fun a b => ¬Under b.1 a.1 := by
  induction d generalizing p with
  | nil => exact List.Pairwise.nil
  | leaf nm f rest ih =>
    obtain ⟨hnm, hrest⟩ := h
    rw [listing, List.pairwise_cons]
    exact ⟨fun e he => not_under_later hnm (Under.refl _) he, ih hrest p⟩
  | sub nm i ch rest ihch ihrest =>
    obtain ⟨hnm, hch, hrest⟩ := h
    rw [listing, List.pairwise_cons, List.pairwise_append]
    refine ⟨fun e he => ?_, ihch hch _, ihrest hrest p, fun a ha b hb => ?_⟩
    · rcases List.mem_append.1 he with he | he
      · obtain ⟨nm', -, hbelow⟩ := under_of_mem he
        exact fun hunder => not_under_parent _ _ (hbelow.trans hunder)
      · exact not_under_later hnm (Under.refl _) he
    · obtain ⟨nm', -, hbelow⟩ := under_of_mem ha
      exact not_under_later hnm ((under_child (child p nm.1) nm'.1).trans hbelow) hb

theorem listing_parent {n : List Char} {x : Entry φ} (h : (child q n, x) ∈ listing p d) :
    q = p ∨ (q, .dir) ∈ listing p d := by
  induction d generalizing p with
  | nil => exact absurd h List.not_mem_nil
  | leaf nm f rest ih =>
    rcases List.mem_cons.1 h with h | h
    · exact Or.inl (Path.child.inj (Prod.mk.inj h).1).1
    · exact (ih h).imp_right (List.mem_cons_of_mem _)
  | sub nm i ch rest ihch ihrest =>
    rcases List.mem_cons.1 h with h | h
    · exact Or.inl (Path.child.inj (Prod.mk.inj h).1).1
    · rcases List.mem_append.1 h with h | h
      · right
        rcases ihch h with rfl | h
        · exact List.mem_cons_self ..
        · exact List.mem_cons_of_mem _ (List.mem_append_left _ h)
      · exact (ihrest h).imp_right fun h => List.mem_cons_of_mem _ (List.mem_append_right _ h)

theorem listed (h : d.Distinct) : Listed (listing root d) := by
  have hbelow : root ∉ paths (listing root d) := by
    intro hroot
    obtain ⟨e, he, heq⟩ := List.mem_map.1 hroot
    obtain ⟨nm, -, hunder⟩ := under_of_mem he
    rw [heq] at hunder
    cases hunder
  have horder := listing_order h root
  refine ⟨horder, hbelow, fun p n hp => ?_⟩
  obtain ⟨⟨q, x⟩, he, rfl⟩ := List.mem_map.1 hp
  rcases listing_parent he with rfl | hdir
  · exact if_pos rfl
  · refine lookup_of_mem horder ?_ hdir
    rintro rfl
    exact hbelow (List.mem_map.2 ⟨_, hdir, rfl⟩)

end MyScripts.Library.TreeListing
