import MyScripts.Shark.CheckTree

/-!
# The comparison of extended attributes

`xattr_get` walks over the names that `listxattr` wrote one after the other,
each with a NUL behind it, and keeps the values that are not empty, as far as
their first NUL. `check_xattr_get` compares how many names there were, and
`check_xattr_compare` looks for every pair of the validation side on the test
side.
-/
namespace MyScripts.Shark.XattrCompare
open CheckTree

/-- What the two system calls return for a path; `none` is -1. -/
structure Calls where
  listxattr : Option (List Char)
  getxattr : List Char → Option (List Char)

def removeXattrSelinux : List Char := "security.selinux".toList

def cString (s : List Char) : List Char := s.takeWhile (· ≠ '\x00')

def xattrLoop (getxattr : List Char → Option (List Char)) (buf : List Char) (list : List Xattr)
    (tmpSum : ℕ) : Option (List Xattr × ℕ) :=
  if _h : buf = [] then some (list, tmpSum)
  else
    let key := cString buf
    match getxattr key with
    | none => none
    | some val =>
      xattrLoop getxattr (buf.drop (key.length + 1))
        (if val ≠ [] ∧ key ≠ removeXattrSelinux then list ++ [(key, cString val)] else list)
        (tmpSum + 1)
termination_by buf.length
decreasing_by
  have hpos := List.length_pos_of_ne_nil _h
  rw [List.length_drop]
  omega

/-- The list that is filled and `*sum`, which a file without attributes leaves as it was. -/
def xattrGet (c : Calls) (sum : ℕ) : Option (List Xattr × ℕ) :=
  match c.listxattr with
  | none => none
  | some buf => if buf = [] then some ([], sum) else xattrLoop c.getxattr buf [] 0

def checkXattrGet (check disk : Calls) : ℤ × List Xattr × List Xattr :=
  match xattrGet check 0 with
  | none => (-1, [], [])
  | some (checkList, sum1) =>
    match xattrGet disk 0 with
    | none => (-1, checkList, [])
    | some (diskList, sum2) => (CheckTree.checkXattrGet sum1 sum2, checkList, diskList)

structure File where
  entry : Entry
  distinct : (entry.attrs.xattrs.map Prod.fst).Nodup
  terminated : ∀ x ∈ entry.attrs.xattrs, '\x00' ∉ x.1

namespace File

def xattrs (f : File) : List Xattr := f.entry.attrs.xattrs

def getxattr (f : File) (name : List Char) : Option (List Char) :=
  (f.xattrs.find? (·.1 = name)).map Prod.snd

def calls (f : File) : Calls where
  listxattr := some (f.xattrs.flatMap fun x => x.1 ++ ['\x00'])
  getxattr := f.getxattr

/-- The map from names to values, `security.selinux` left out. -/
def attributes (f : File) (name : List Char) : Option (List Char) :=
  if name = removeXattrSelinux then none else f.getxattr name

end File

/-- `check_xattr_get` and then `check_xattr_compare` return 0. -/
def Succeeds (check disk : File) : Prop :=
  (checkXattrGet check.calls disk.calls).1 = 0 ∧
    checkXattrCompare (checkXattrGet check.calls disk.calls).2.1
      (checkXattrGet check.calls disk.calls).2.2 = 0

theorem find?_eq_some_iff {l : List Xattr} (h : (l.map Prod.fst).Nodup) {x : Xattr} :
    l.find? (·.1 = x.1) = some x ↔ x ∈ l := by
  induction l with
  | nil => simp
  | cons y l ih =>
    obtain ⟨hy, hl⟩ := List.nodup_cons.1 h
    by_cases hkey : y.1 = x.1
    · rw [List.find?_cons_of_pos (by simpa using hkey), List.mem_cons, Option.some.injEq]
      have hx : x ∉ l := fun hx => hy (hkey ▸ List.mem_map_of_mem hx)
      simp [hx, eq_comm]
    · have hne : x ≠ y := fun hxy => hkey (congrArg Prod.fst hxy.symm)
      rw [List.find?_cons_of_neg (by simpa using hkey), ih hl, List.mem_cons]
      simp [hne]

namespace File

variable {f : File} {name val : List Char} {x : Xattr}

theorem getxattr_of_mem (h : x ∈ f.xattrs) : f.getxattr x.1 = some x.2 := by
  have hfind : f.xattrs.find? (·.1 = x.1) = some x := (find?_eq_some_iff f.distinct).2 h
  rw [getxattr, hfind, Option.map_some]

theorem getxattr_eq_some : f.getxattr name = some val ↔ (name, val) ∈ f.xattrs := by
  constructor
  · intro h
    obtain ⟨x, hx, rfl⟩ := Option.map_eq_some_iff.1 h
    have hname : x.1 = name := by simpa using List.find?_some hx
    rw [← hname]
    exact List.mem_of_find?_eq_some hx
  · exact fun h => getxattr_of_mem h

theorem attributes_eq_some :
    f.attributes name = some val ↔ (name, val) ∈ f.xattrs ∧ name ≠ removeXattrSelinux := by
  rw [attributes, ← getxattr_eq_some]
  split_ifs with h
  · simp [h]
  · simp [h]

end File

def kept (l : List Xattr) : List Xattr :=
  (l.filter fun x => x.2 ≠ [] ∧ x.1 ≠ removeXattrSelinux).map fun x => (x.1, cString x.2)

theorem kept_cons (x : Xattr) (l : List Xattr) :
    kept (x :: l) =
      (if x.2 ≠ [] ∧ x.1 ≠ removeXattrSelinux then [(x.1, cString x.2)] else []) ++ kept l := by
  by_cases h : x.2 ≠ [] ∧ x.1 ≠ removeXattrSelinux
  · rw [if_pos h, kept, List.filter_cons_of_pos (by simpa using h), List.map_cons,
      List.singleton_append, kept]
  · rw [if_neg h, kept, List.filter_cons_of_neg (by simpa using h), List.nil_append, kept]

theorem mem_kept {l : List Xattr} {x : Xattr} : x ∈ kept l ↔
    x.1 ≠ removeXattrSelinux ∧ ∃ val, (x.1, val) ∈ l ∧ val ≠ [] ∧ cString val = x.2 := by
  simp only [kept, List.mem_map, List.mem_filter, decide_eq_true_eq]
  constructor
  · rintro ⟨y, ⟨hy, hval, hkey⟩, rfl⟩
    exact ⟨hkey, y.2, hy, hval, rfl⟩
  · rintro ⟨hkey, val, hmem, hval, hx⟩
    exact ⟨(x.1, val), ⟨hmem, hval, hkey⟩, Prod.ext rfl hx⟩

theorem nodup_kept {l : List Xattr} (h : (l.map Prod.fst).Nodup) :
    ((kept l).map Prod.fst).Nodup := by
  have hkeys : (kept l).map Prod.fst =
      (l.filter fun x => x.2 ≠ [] ∧ x.1 ≠ removeXattrSelinux).map Prod.fst := by
    rw [kept, List.map_map]
    rfl
  rw [hkeys]
  exact h.sublist (List.filter_sublist.map _)

theorem cString_append {w rest : List Char} (h : '\x00' ∉ w) : cString (w ++ '\x00' :: rest) = w := by
  have hall : ∀ a ∈ w, decide (a ≠ '\x00') = true := by
    intro a ha
    simpa using fun hzero : a = '\x00' => h (hzero ▸ ha)
  rw [cString, List.takeWhile_append_of_pos hall, List.takeWhile_cons_of_neg (by simp),
    List.append_nil]

theorem xattrLoop_eq (f : File) {l : List Xattr} (hl : ∀ x ∈ l, x ∈ f.xattrs) (list : List Xattr)
    (tmpSum : ℕ) :
    xattrLoop f.getxattr (l.flatMap fun x => x.1 ++ ['\x00']) list tmpSum =
      some (list ++ kept l, tmpSum + l.length) := by
  induction l generalizing list tmpSum with
  | nil => simp [xattrLoop, kept]
  | cons x l ih =>
    obtain ⟨hx, hl⟩ := List.forall_mem_cons.1 hl
    have hbuf : (x :: l).flatMap (fun x => x.1 ++ ['\x00']) =
        x.1 ++ '\x00' :: l.flatMap fun x => x.1 ++ ['\x00'] := by
      rw [List.flatMap_cons, List.append_assoc, List.singleton_append]
    have hkey : cString (x.1 ++ '\x00' :: l.flatMap fun x => x.1 ++ ['\x00']) = x.1 :=
      cString_append (f.terminated x hx)
    have hrest : (x.1 ++ '\x00' :: l.flatMap fun x => x.1 ++ ['\x00']).drop (x.1.length + 1) =
        l.flatMap fun x => x.1 ++ ['\x00'] := by
      rw [← List.drop_drop, List.drop_left, List.drop_succ_cons, List.drop_zero]
    rw [hbuf, xattrLoop, dif_neg (by simp)]
    simp only [hkey, File.getxattr_of_mem hx, hrest]
    rw [ih hl, kept_cons, List.length_cons]
    have hsum : tmpSum + 1 + l.length = tmpSum + (l.length + 1) := by omega
    rw [hsum, ← List.append_assoc]
    split_ifs <;> simp

theorem xattrGet_calls (f : File) : xattrGet f.calls 0 = some (CheckTree.xattrGet f.entry) := by
  have hloop := xattrLoop_eq f (fun x hx => hx) [] 0
  rw [List.nil_append, Nat.zero_add] at hloop
  change (if f.xattrs.flatMap (fun x => x.1 ++ ['\x00']) = [] then some ([], 0)
    else xattrLoop f.getxattr (f.xattrs.flatMap fun x => x.1 ++ ['\x00']) [] 0) =
      some (kept f.xattrs, f.xattrs.length)
  split_ifs with hnil
  · rw [hnil] at hloop
    rw [← hloop]
    simp [xattrLoop]
  · exact hloop

theorem succeeds_iff_compare (check disk : File) : Succeeds check disk ↔
    checkXattrCompare (CheckTree.xattrGet check.entry).1 (CheckTree.xattrGet disk.entry).1 = 0 := by
  rw [Succeeds, checkXattrGet, xattrGet_calls, xattrGet_calls]
  exact and_iff_right (checkXattrGet_eq _ _)

theorem mem_kept_attributes {f : File} {x : Xattr} : x ∈ kept f.xattrs ↔
    ∃ val, f.attributes x.1 = some val ∧ val ≠ [] ∧ cString val = x.2 := by
  simp only [mem_kept, File.attributes_eq_some]
  constructor
  · rintro ⟨hkey, val, hmem, h⟩
    exact ⟨val, ⟨hmem, hkey⟩, h⟩
  · rintro ⟨val, ⟨hmem, hkey⟩, h⟩
    exact ⟨hkey, val, hmem, h⟩

def Missing (check : File) (name val : List Char) : Prop :=
  ∀ val', check.attributes name = some val' → val' ≠ [] → cString val' ≠ cString val

theorem succeeds_iff (check disk : File) : Succeeds check disk ↔
    ¬∃ name val, disk.attributes name = some val ∧ val ≠ [] ∧ Missing check name val := by
  have hfind : ∀ x : Xattr, (kept check.xattrs).find? (·.1 = x.1) = some x ↔ x ∈ kept check.xattrs :=
    fun x => find?_eq_some_iff (nodup_kept check.distinct)
  rw [succeeds_iff_compare, checkXattrCompare_eq_zero]
  change (∀ x ∈ kept disk.xattrs, (kept check.xattrs).find? (·.1 = x.1) = some x) ↔ _
  simp only [hfind, mem_kept_attributes, Missing]
  push Not
  constructor
  · intro h name val hval hne
    obtain ⟨val', hval', hne', hcut⟩ := h (name, cString val) ⟨val, hval, hne, rfl⟩
    exact ⟨val', hval', hne', hcut⟩
  · rintro h x ⟨val, hval, hne, hcut⟩
    obtain ⟨val', hval', hne', hcut'⟩ := h x.1 val hval hne
    exact ⟨val', hval', hne', hcut'.trans hcut⟩

theorem succeeds_of_eq {check disk : File} (h : check.attributes = disk.attributes) :
    Succeeds check disk := by
  rw [succeeds_iff]
  rintro ⟨name, val, hval, hne, hmissing⟩
  exact hmissing val (h ▸ hval) hne rfl

/-- Two sums that differ do not make `check_xattr_get` fail, so that only the
attributes of the validation side are looked for, and these not if empty. -/
theorem decidesEquality_iff (check disk : File) :
    (Succeeds check disk ↔ check.attributes = disk.attributes) ↔
      check.attributes = disk.attributes ∨
        ∃ name val, disk.attributes name = some val ∧ val ≠ [] ∧ Missing check name val := by
  have hsucceeds := succeeds_iff check disk
  constructor
  · intro h
    by_cases heq : check.attributes = disk.attributes
    · exact Or.inl heq
    · refine Or.inr ?_
      by_contra hnone
      exact heq (h.1 (hsucceeds.2 hnone))
  · rintro (heq | hmissing)
    · exact iff_of_true (succeeds_of_eq heq) heq
    · have hfails : ¬Succeeds check disk := fun h => hsucceeds.1 h hmissing
      exact iff_of_false hfails fun heq => hfails (succeeds_of_eq heq)

def fileWith (l : List Xattr) (h : (l.map Prod.fst).Nodup) (h' : ∀ x ∈ l, '\x00' ∉ x.1) : File :=
  ⟨⟨.reg, ⟨0, 0, 420, l⟩, []⟩, h, h'⟩

def withUserA : File := fileWith [("user.a".toList, ['1'])] (by decide) (by decide)

def withNone : File := fileWith [] (by decide) (by decide)

theorem decidesEquality_false_extra :
    Succeeds withUserA withNone ∧ withUserA.attributes ≠ withNone.attributes := by
  constructor
  · rw [succeeds_iff]
    rintro ⟨name, val, hval, _⟩
    exact absurd (File.attributes_eq_some.1 hval).1 List.not_mem_nil
  · intro h
    exact absurd (congrFun h "user.a".toList) (by decide)

end MyScripts.Shark.XattrCompare
