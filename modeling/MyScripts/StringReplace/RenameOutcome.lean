import MyScripts.StringReplace.FileNames

/-!
# What the renaming leaves

Only the last occurrence in a name is replaced, and `mv` does not ask whether
the new name is taken. The trees that come out whole and without the word are
those in which one replacement for each name is enough and keeps the names of a
directory apart.
-/
namespace MyScripts.StringReplace
open Library.LastOccurrence Library.FileTree Library.FileTree.Path Library.RenamePass
open Library.TreeListing Library.DirTree

variable {φ : Type*}

def NoneLeft (old : Word) (s : Entries Text φ) : Prop :=
  ∀ p n, child p n ∈ paths s → ¬old.text <:+: n

/-- No name has the word any more, and there are as many entries as before. -/
def RenamesAll (root : Root) (old new : Word) (t : Tree φ) : Prop :=
  NoneLeft old (fileNameReplace root old new t.entries) ∧
    (fileNameReplace root old new t.entries).length = t.entries.length

/-- In no name is the word left, and in no directory do two names become one, when each name has its
last occurrence of the word replaced. -/
def OneReplacementEnough (old new : Word) (t : Tree φ) : Prop :=
  (∀ p n, child p n ∈ paths t.entries → ¬old.text <:+: replaceLast old.text new.text n) ∧
    ∀ p n m, child p n ∈ paths t.entries → child p m ∈ paths t.entries →
      replaceLast old.text new.text n = replaceLast old.text new.text m → n = m

theorem complete_iff (old : Word) (s : Entries Text φ) :
    Complete (hasWord old) s ↔ NoneLeft old s := by
  refine ⟨fun h p n hp => of_decide_eq_false (h _ hp), fun h p hp => ?_⟩
  cases p with
  | root => rfl
  | child p n => exact decide_eq_false (h p n hp)

theorem renameable_iff (old new : Word) (t : Tree φ) :
    Renameable (hasWord old) (replaceLast old.text new.text) t.entries ↔
      OneReplacementEnough old new t := by
  refine and_congr_left fun _ => ⟨fun h p n hp => ?_, fun h p n hp _ => decide_eq_false (h p n hp)⟩
  by_cases hold : old.text <:+: n
  · exact of_decide_eq_false (h p n hp (decide_eq_true hold))
  · rwa [replaceLast_of_not hold]

theorem renamesAll_iff (root : Root) (old new : Word) (t : Tree φ) :
    RenamesAll root old new t ↔ OneReplacementEnough old new t := by
  have hkeep : ∀ n, hasWord old n = false → replaceLast old.text new.text n = n :=
    fun n hn => replaceLast_of_not (of_decide_eq_false hn)
  rw [RenamesAll, fileNameReplace_eq, ← complete_iff, ← renameable_iff]
  exact renamePass_iff (listed t.distinct) hkeep

def gluster : Word where
  text := ['g', 'l', 'u', 's', 't', 'e', 'r']
  plain := by decide
  literal := by decide

def digiocean : Word where
  text := ['d', 'i', 'g', 'i', 'o', 'c', 'e', 'a', 'n']
  plain := by decide
  literal := by decide

def sourceRoot : Root where
  parent := ['/', 'h', 'a', 'v', 'e', '-', 'c', 'h', 'a', 'n', 'g', 'e', 'd']
  name := ['s', 'r', 'c']
  parent_plain := by decide
  plain := by decide

def twiceTree : Tree Unit where
  dir := .leaf ⟨gluster.text ++ gluster.text, by decide⟩ () .nil
  distinct := ⟨List.not_mem_nil, trivial⟩
  plain := by
    intro p n hp
    simp only [listing, paths, List.map_cons, List.map_nil, List.mem_singleton,
      Path.child.injEq] at hp
    rw [hp.2]
    decide

theorem not_renamesAll_twice :
    ¬∀ (root : Root) (old new : Word) (t : Tree Unit), RenamesAll root old new t := by
  intro h
  have hleft := (h sourceRoot gluster digiocean twiceTree).1 .root
    (gluster.text ++ digiocean.text)
  revert hleft
  decide +kernel

end MyScripts.StringReplace
