import MyScripts.Shark.FileTableRuns

/-!
# The index read back from a path

`worker_move_list` and `mobile_list` find the node of a path by the number in
its last component. The loop that looks for the last '/' stops at the first
character when there is none, and the copy starts after the place where it
stopped: a path of one component loses its first character.
-/
namespace MyScripts.Shark.FileTable
open Library.Run Library.Decimal Journal

variable {c : Config} {t : Table} {n : NodeRef} {type : FileType}

/-- `for (j = 0; i < size_len; j++) { i++; file[j] = path[i]; }`, up to the '\0' it copies. -/
def copyName (path : List Char) : (todo i : ℕ) → List Char
  | 0, _ => []
  | todo + 1, i => path[i + 1]?.toList ++ copyName path todo (i + 1)

def mobileListIndex (path : List Char) : ℕ :=
  let i := lastSlash path (path.length - 1)
  scanIndex (copyName path (path.length - i) i)

theorem copyName_eq (path : List Char) (todo i : ℕ) (h : path.length ≤ i + todo) :
    copyName path todo i = path.drop (i + 1) := by
  induction todo generalizing i with
  | zero =>
    rw [copyName, List.drop_eq_nil_of_le]
    omega
  | succ todo ih =>
    rw [copyName, ih (i + 1) (by omega)]
    by_cases hi : i + 1 < path.length
    · rw [List.getElem?_eq_getElem hi, List.drop_eq_getElem_cons hi]
      rfl
    · rw [List.getElem?_eq_none (by omega), List.drop_eq_nil_of_le (by omega),
        List.drop_eq_nil_of_le (by omega)]
      rfl

theorem mobileListIndex_eq (path : List Char) : mobileListIndex path = cutStrToInt path := by
  rw [mobileListIndex, cutStrToInt, copyName_eq]
  omega

theorem mobileList_eq (t : Table) (path : List Char) (type : ℤ) (choose : Bool) :
    mobileList c t path type choose = giveBack c t type (mobileListIndex path) choose := by
  rw [mobileList, mobileListIndex_eq]

theorem lastSlash_of_not_mem {path : List Char} (h : '/' ∉ path) (i : ℕ) :
    lastSlash path i = 0 := by
  induction i with
  | zero => rfl
  | succ i ih =>
    rw [lastSlash, if_neg, ih]
    exact fun hi => h (List.mem_of_getElem? hi)

theorem cutStrToInt_print (x : FileName) : cutStrToInt x.print = scanIndex (x.print.drop 1) := by
  rw [cutStrToInt, lastSlash_of_not_mem (slash_not_mem_print x)]

theorem ends_ending (kind : FileType) : Ends (ending kind) := by
  cases kind <;> exact ends_cons (c := '-') (by decide)

theorem scanNat_suffix_lt {s : Suffix} {rest : List Char} (hr : Ends rest) {k : ℕ}
    (h : scanNat (s.1 ++ rest) = some k) : k < 10 ^ 6 := by
  have hlt := scanNat_lt h
  have hlen := length_takeWhile_digits_le s.1 hr
  rw [s.2.1] at hlen
  exact hlt.trans_le (Nat.pow_le_pow_right (by decide) hlen)

theorem scanIndex_tail_ne (x : FileName) (hpos : 0 < x.index) :
    scanIndex (x.print.drop 1) ≠ x.index := by
  obtain ⟨d, ds, hds⟩ := List.exists_cons_of_ne_nil (printNat_ne_nil x.index)
  have hprint : x.print.drop 1 = ds ++ '-' :: (x.suffix ++ ending x.kind) := by
    rw [FileName.print, hds]
    rfl
  have hends : Ends ('-' :: (x.suffix ++ ending x.kind)) := ends_cons (by decide)
  rw [hprint, scanIndex]
  cases hcase : ds with
  | nil =>
    -- the index has one digit, and the '-' after it is read as a sign
    have hten : x.index < 10 ^ 1 := (length_printNat_le_iff (by decide)).1 (by simp [hds, hcase])
    rw [List.nil_append, scanInt_neg]
    cases hscan : scanNat (x.suffix ++ ending x.kind) with
    | none => exact Nat.ne_of_lt hpos
    | some k =>
      have hk := scanNat_suffix_lt (ends_ending x.kind) hscan
      change (if (0 : ℤ) ≤ -(k : ℤ) then (-(k : ℤ)).toNat else (2 ^ 64 + -(k : ℤ)).toNat) ≠ x.index
      split_ifs <;> omega
  | cons e es =>
    have htail := ofDigitChars_tail_lt hds (by simp [hcase])
    have hdigits : ∀ c ∈ ds, c.isDigit = true := fun c hc =>
      printNat_digits x.index c (hds ▸ List.mem_cons_of_mem d hc)
    have hscan : scanInt (ds ++ '-' :: (x.suffix ++ ending x.kind)) =
        some ((Nat.ofDigitChars 10 ds 0 : ℕ) : ℤ) := scanInt_digits hdigits (by simp [hcase]) hends
    rw [← hcase, hscan]
    simp only [Int.natCast_nonneg, if_true, Int.toNat_natCast]
    exact Nat.ne_of_lt htail

structure NamedNodes (t : Table) : Prop where
  allocated : ∀ n x, t.node n = some x → n < t.fresh
  named : ∀ n x, t.node n = some x → 0 < x.fileName.index

theorem TableInv.namedNodes (h : TableInv t) : NamedNodes t := ⟨h.fresh, h.index_pos⟩

/-- The path of `n`, alone or after a mount path that ends in '/', gives the index of `n`. -/
def IndexFound (t : Table) (parse : List Char → ℕ) (n : NodeRef) : Prop :=
  parse (t.getPathForFileNode n) = t.key n ∧
    ∀ mount, parse (mount ++ '/' :: t.getPathForFileNode n) = t.key n

theorem path_of_root (t : Table) {x : FileNode} (hx : t.node n = some x) (hp : x.parent = none) :
    (t.getPathForFileNode n).1 = x.fileName.print := by
  have hanc : t.ancestors t.fresh n = [] := by
    cases t.fresh with
    | zero => rfl
    | succ k => simp [Table.ancestors, Table.parent, hx, hp]
  simp [Table.getPathForFileNode, hanc, Table.addParents, Table.nameOf, hx]

theorem addParents_cons (t : Table) (p : NodeRef) (ps : List NodeRef) (buf : Word) :
    ∃ dir, (t.addParents (p :: ps) buf).1 = dir ++ '/' :: buf.1 := by
  obtain ⟨dirs, heq, -⟩ := addParents_eq t ps ⟨t.nameOf p ++ '/' :: buf, by
    simp only [List.mem_append, List.mem_cons, not_or]
    exact ⟨⟨(t.nameOf_word p).1, by decide, buf.2.1⟩, (t.nameOf_word p).2, by decide, buf.2.2⟩⟩
  refine ⟨dirs ++ t.nameOf p, ?_⟩
  rw [Table.addParents, List.foldl_cons, ← Table.addParents, heq]
  simp

theorem path_of_child {x : FileNode} (h : NamedNodes t) (hx : t.node n = some x)
    (hp : x.parent ≠ none) :
    ∃ dir, (t.getPathForFileNode n).1 = dir ++ '/' :: x.fileName.print := by
  obtain ⟨p, hp⟩ := Option.ne_none_iff_exists'.1 hp
  have hfresh := h.allocated n x hx
  obtain ⟨k, hk⟩ := Nat.exists_eq_succ_of_ne_zero (Nat.ne_of_gt (Nat.zero_lt_of_lt hfresh))
  obtain ⟨dir, hdir⟩ := addParents_cons t p (t.ancestors k p) ⟨t.nameOf n, t.nameOf_word n⟩
  refine ⟨dir, ?_⟩
  rw [Table.getPathForFileNode, hk, Table.ancestors, Table.parent, hx, Option.bind_some, hp, hdir]
  simp [Table.nameOf, hx]

theorem cutStrToInt_mount {x : FileNode} (h : NamedNodes t) (hx : t.node n = some x)
    (mount : List Char) : cutStrToInt (mount ++ '/' :: t.getPathForFileNode n) = t.key n := by
  rw [key_of_node hx]
  by_cases hp : x.parent = none
  · rw [path_of_root t hx hp, cutStrToInt_append]
  · obtain ⟨dir, hdir⟩ := path_of_child h hx hp
    rw [hdir, ← List.cons_append, ← List.append_assoc, cutStrToInt_append]

theorem cutStrToInt_bare {x : FileNode} (h : NamedNodes t) (hx : t.node n = some x) :
    cutStrToInt (t.getPathForFileNode n) = t.key n ↔ x.parent ≠ none := by
  rw [key_of_node hx]
  by_cases hp : x.parent = none
  · rw [path_of_root t hx hp, cutStrToInt_print]
    simp only [hp, ne_eq, not_true_eq_false, iff_false]
    exact scanIndex_tail_ne x.fileName (h.named n x hx)
  · obtain ⟨dir, hdir⟩ := path_of_child h hx hp
    simp [hdir, cutStrToInt_append, hp]

/-- Both parsers give the index of a node back if and only if the node has a parent. -/
theorem indexFound_iff {x : FileNode} (h : NamedNodes t) (hx : t.node n = some x) :
    (IndexFound t cutStrToInt n ∧ IndexFound t mobileListIndex n) ↔ x.parent ≠ none := by
  have hsame : mobileListIndex = cutStrToInt := funext mobileListIndex_eq
  rw [hsame, and_self_iff, IndexFound, cutStrToInt_bare h hx]
  exact and_iff_left fun mount => cutStrToInt_mount h hx mount

theorem indexFound_file : ∃ s x,
    exec (step sampleConfig) State.init (sampleRun NoOpenFileOp.rename.code) = some s ∧
      s.table.node 2 = some x ∧
      IndexFound s.table cutStrToInt 2 ∧ IndexFound s.table mobileListIndex 2 := by
  obtain ⟨s, hs, x, hx, hp⟩ : ∃ s,
      exec (step sampleConfig) State.init (sampleRun NoOpenFileOp.rename.code) = some s ∧
        ∃ x, s.table.node 2 = some x ∧ x.parent ≠ none := ⟨_, rfl, _, rfl, by decide⟩
  exact ⟨s, x, hs, hx, (indexFound_iff (inv_of_exec hs).table.namedNodes hx).2 hp⟩

/-- The first directory is made at the root, and its bare path gives 0. -/
theorem not_indexFound_root : ∃ s,
    exec (step sampleConfig) State.init [.create .dir false sampleCreate] = some s ∧
      s.table.key 0 = 1 ∧ cutStrToInt (s.table.getPathForFileNode 0) = 0 ∧
      ¬IndexFound s.table cutStrToInt 0 :=
  ⟨_, rfl, rfl, by decide, fun h => absurd h.1 (by decide)⟩

end MyScripts.Shark.FileTable
