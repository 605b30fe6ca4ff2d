import MyScripts.Library.LastOccurrence
import MyScripts.Library.RenamePass
import MyScripts.Library.TreeListing

/-!
# The renaming of files

`file_name_replace` of `cl_string_replace.sh`: `find` lists every path with the
word in its name, `tac` turns the list round, `sed` writes a `mv` for each line
and `sh` runs them. Whole paths go through the pipe as text, and `tac` waits for
the end of the list, so that nothing has moved when `find` is done.
-/
namespace MyScripts.StringReplace
open Library.LastOccurrence Library.FileTree Library.FileTree.Path Library.RenamePass
open Library.TreeListing Library.DirTree

variable {φ : Type*}

abbrev Text := List Char

/-- What has a meaning to `sh` inside a word, to `sed` in a replacement, or in a path. -/
def special : List Char :=
  [' ', '\t', '\n', '|', '&', ';', '<', '>', '(', ')', '$', '\x60', '\\', '\x22', '\x27', '*', '?',
    '[', ']', '\x7b', '\x7d', '/']

def Plain (n : Text) : Prop := n ≠ [] ∧ n.all (· ∉ special)

instance (n : Text) : Decidable (Plain n) :=
  inferInstanceAs (Decidable (n ≠ [] ∧ n.all (· ∉ special)))

/-- `$2` and `$3`; a dot or a caret would mean more than itself in the pattern. -/
structure Word where
  text : Text
  plain : Plain text
  literal : '.' ∉ text ∧ '^' ∉ text

structure Root where
  parent : Text
  name : Text
  parent_plain : parent.all fun c => c = '/' ∨ c ∉ special
  plain : Plain name

def Root.text (root : Root) : Text := root.parent ++ '/' :: root.name

structure Tree (φ : Type*) where
  dir : Dir φ Unit
  distinct : dir.Distinct
  plain : ∀ p n, child p n ∈ paths (listing .root dir) → Plain n

def Tree.entries (t : Tree φ) : Entries Text φ := listing .root t.dir

def pathText (root : Root) : Path Text → Text
  | .root => root.text
  | child p n => pathText root p ++ '/' :: n

def baseName (root : Root) : Path Text → Text
  | .root => root.name
  | child _ n => n

def find (root : Root) (old : Word) (s : Entries Text φ) : List Text :=
  ((.root :: paths s).filter fun p => old.text <:+: baseName root p).map (pathText root)

/-- `s/\(.*\)\($2\)\(.*\)/mv \1\2\3 \1$3\3/`; the first group takes all it can. -/
def sedLine (old new : Word) (line : Text) : Text :=
  match lastSplit old.text line with
  | some (a, b) => ['m', 'v'] ++ ' ' :: (a ++ old.text ++ b) ++ ' ' :: (a ++ new.text ++ b)
  | none => line

def readPath (root : Root) (t : Text) : Option (Path Text) :=
  if root.text <+: t then
    match t.drop root.text.length with
    | [] => some .root
    | c :: rest => if c = '/' then some ((rest.splitOn '/').foldl child .root) else none
  else none

/-- A line run by `sh`. A directory that moves away from `$1` takes along what is below it. -/
def runLine (root : Root) (s : Entries Text φ) (line : Text) : Entries Text φ :=
  match line.splitOn ' ' with
  | [cmd, src, dst] =>
    if cmd = ['m', 'v'] then
      match readPath root src, readPath root dst with
      | some p, some q => mv p q s
      | _, _ => s
    else s
  | _ => s

def fileNameReplace (root : Root) (old new : Word) (s : Entries Text φ) : Entries Text φ :=
  ((find root old s).reverse.map (sedLine old new)).foldl (runLine root) s

variable {root : Root} {old new : Word} {s : Entries Text φ} {p : Path Text} {n : Text}

def PlainPath (p : Path Text) : Prop := ∀ n ∈ p.names, Plain n

theorem plainPath_child : PlainPath (child p n) ↔ PlainPath p ∧ Plain n := by
  simp [PlainPath, names, or_imp, forall_and]

theorem plain_iff : Plain n ↔ n ≠ [] ∧ ∀ c ∈ n, c ∉ special := by
  simp [Plain]

theorem Plain.not_mem {c : Char} (h : Plain n) (hc : c ∈ special) : c ∉ n :=
  fun hn => (plain_iff.1 h).2 c hn hc

def below : Path Text → Text
  | .root => []
  | child p n => below p ++ '/' :: n

theorem pathText_eq (root : Root) (p : Path Text) : pathText root p = root.text ++ below p := by
  induction p with
  | root => simp [pathText, below]
  | child p n ih => rw [pathText, below, ih, List.append_assoc]

theorem below_child (hp : PlainPath (child p n)) :
    ∃ rest, below (child p n) = '/' :: rest ∧ rest.splitOn '/' = (child p n).names := by
  induction p generalizing n with
  | root =>
    have hn := (plainPath_child.1 hp).2.not_mem (c := '/') (by decide)
    exact ⟨n, rfl, List.splitOn_eq_singleton hn⟩
  | child p m ih =>
    obtain ⟨hparent, hn⟩ := plainPath_child.1 hp
    obtain ⟨rest, hbelow, hsplit⟩ := ih hparent
    refine ⟨rest ++ '/' :: n, by rw [below, hbelow, List.cons_append], ?_⟩
    rw [List.splitOn_append_cons_self, hsplit,
      List.splitOn_eq_singleton (hn.not_mem (c := '/') (by decide))]
    rfl

theorem readPath_pathText (root : Root) (hp : PlainPath p) :
    readPath root (pathText root p) = some p := by
  rw [readPath, pathText_eq, if_pos (List.prefix_append ..), List.drop_left]
  cases p with
  | root => rfl
  | child p n =>
    obtain ⟨rest, hbelow, hsplit⟩ := below_child hp
    rw [hbelow]
    simp only [if_true, hsplit, foldl_child]

theorem space_not_mem_sibling (root : Root) (hn : Plain n) : ' ' ∉ root.parent ++ '/' :: n := by
  rw [List.mem_append, List.mem_cons]
  rintro (h | h | h)
  · have hplain := List.all_eq_true.1 root.parent_plain ' ' h
    exact absurd hplain (by decide)
  · exact absurd h (by decide)
  · exact hn.not_mem (by decide) h

theorem space_not_mem (root : Root) (hp : PlainPath p) : ' ' ∉ pathText root p := by
  induction p with
  | root => exact space_not_mem_sibling root root.plain
  | child p n ih =>
    obtain ⟨hparent, hn⟩ := plainPath_child.1 hp
    rw [pathText, List.mem_append, List.mem_cons]
    rintro (h | h | h)
    · exact ih hparent h
    · exact absurd h (by decide)
    · exact hn.not_mem (by decide) h

theorem plain_replaceLast (hn : Plain n) : Plain (replaceLast old.text new.text n) := by
  by_cases hold : old.text <:+: n
  · obtain ⟨a, b, -, hsplit, hnew⟩ := exists_replaceLast new.text hold
    have hword := plain_iff.1 new.plain
    rw [hsplit, plain_iff] at hn
    rw [hnew, plain_iff]
    refine ⟨by simp [hword.1], fun c hc => ?_⟩
    simp only [List.mem_append] at hc hn
    rcases hc with (hc | hc) | hc
    · exact hn.2 c (Or.inl (Or.inl hc))
    · exact hword.2 c hc
    · exact hn.2 c (Or.inr hc)
  · rwa [replaceLast_of_not hold]

theorem splitOn_line {u v : Text} (hu : ' ' ∉ u) (hv : ' ' ∉ v) :
    (['m', 'v'] ++ ' ' :: u ++ ' ' :: v).splitOn ' ' = [['m', 'v'], u, v] := by
  have hline : ['m', 'v'] ++ ' ' :: u ++ ' ' :: v = ['m', 'v'] ++ ' ' :: (u ++ ' ' :: v) := by simp
  rw [hline, List.splitOn_append_cons_self_of_not_mem (by decide),
    List.splitOn_append_cons_self_of_not_mem hu, List.splitOn_eq_singleton hv]

theorem sedLine_eq (new : Word) (u : Text) (hold : old.text <:+: n) :
    sedLine old new (u ++ '/' :: n) =
      ['m', 'v'] ++ ' ' :: (u ++ '/' :: n) ++
        ' ' :: (u ++ '/' :: replaceLast old.text new.text n) := by
  obtain ⟨a, b, hlast, hsplit, hnew⟩ := exists_replaceLast new.text hold
  have hpath := lastSplit_append (u ++ ['/']) hlast
  rw [List.append_assoc, List.singleton_append] at hpath
  rw [sedLine, hpath, hnew]
  simp [hsplit]

theorem runLine_child (hp : PlainPath (child p n)) (hold : old.text <:+: n) :
    runLine root s (sedLine old new (pathText root (child p n))) =
      mv (child p n) (child p (replaceLast old.text new.text n)) s := by
  obtain ⟨hparent, hn⟩ := plainPath_child.1 hp
  have hplain : PlainPath (child p (replaceLast old.text new.text n)) :=
    plainPath_child.2 ⟨hparent, plain_replaceLast hn⟩
  rw [runLine, pathText, sedLine_eq new _ hold, ← pathText, ← pathText,
    splitOn_line (space_not_mem root hp) (space_not_mem root hplain)]
  simp only [if_true, readPath_pathText root hp, readPath_pathText root hplain]

theorem runLine_root (hold : old.text <:+: root.name) :
    runLine root s (sedLine old new root.text) = s := by
  have hread : readPath root root.text = some .root :=
    readPath_pathText root (p := .root) fun n hn => absurd hn List.not_mem_nil
  rw [runLine, Root.text, sedLine_eq new _ hold, splitOn_line
    (space_not_mem_sibling root root.plain) (space_not_mem_sibling root (plain_replaceLast root.plain)),
    ← Root.text]
  simp only [if_true, hread]
  split
  · next hroot _ =>
    cases hroot
    exact mv_root _ s
  · rfl

def hasWord (old : Word) (n : Text) : Bool := old.text <:+: n

theorem Tree.plainPath (t : Tree φ) (hp : p = .root ∨ p ∈ paths t.entries) : PlainPath p := by
  induction p with
  | root => exact fun n hn => absurd hn List.not_mem_nil
  | child p n ih =>
    have hchild := hp.resolve_left (by simp)
    exact plainPath_child.2 ⟨ih ((listed t.distinct).parent hchild), t.plain p n hchild⟩

theorem find_eq (root : Root) (old : Word) (t : Tree φ) :
    find root old t.entries =
      (if old.text <:+: root.name then [root.text] else []) ++
        (sources (hasWord old) t.entries).map (pathText root) := by
  have hname : ∀ p ∈ paths t.entries,
      decide (old.text <:+: baseName root p) = isBad (hasWord old) p := by
    intro p hp
    cases p with
    | root => exact absurd hp (listed t.distinct).below
    | child p n => rfl
  rw [find, List.filter_cons, List.filter_congr hname]
  by_cases hroot : old.text <:+: root.name
  · simp [baseName, hroot, pathText, sources]
  · simp [baseName, hroot, sources]

theorem runLine_source (t : Tree φ) (hp : p ∈ sources (hasWord old) t.entries) :
    runLine root s (sedLine old new (pathText root p)) =
      mv p (target (replaceLast old.text new.text) p) s := by
  obtain ⟨hmem, hbad⟩ := mem_sources.1 hp
  cases p with
  | root => exact absurd rfl (ne_root_of_isBad hbad)
  | child p n => exact runLine_child (t.plainPath (Or.inr hmem)) (of_decide_eq_true hbad)

theorem fileNameReplace_eq (root : Root) (old new : Word) (t : Tree φ) :
    fileNameReplace root old new t.entries =
      renamePass (hasWord old) (replaceLast old.text new.text) t.entries := by
  have hroot : ∀ s : Entries Text φ,
      (((if old.text <:+: root.name then [root.text] else []).reverse.map (sedLine old new)).foldl
        (runLine root) s) = s := by
    intro s
    split_ifs with hold
    · exact runLine_root hold
    · rfl
  rw [fileNameReplace, find_eq, List.reverse_append, List.map_append, List.foldl_append, hroot,
    ← List.map_reverse, List.map_map, List.foldl_map, renamePass, Library.RenamePass.pass]
  apply List.foldl_ext
  intro s p hp
  exact runLine_source t (List.mem_reverse.1 hp)

end MyScripts.StringReplace
