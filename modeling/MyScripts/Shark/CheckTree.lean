import MyScripts.Library.DirTree
import MyScripts.Shark.CheckThreads
import MyScripts.Shark.Worker

/-!
# The traversal and the comparisons

The test mount and the validation mount are directory trees. `traversal_mount`
walks the tree under the test mount and queues a pair for an entry whose
counterpart it finds; the check threads compare the two entries of a pair.
The calls on entries that are there succeed, and the paths fit their buffers.
-/
namespace MyScripts.Shark.CheckTree
open Library.DirTree CheckThreads

inductive Kind
  | dir | reg | lnk | fifo | sock | chr | blk
  deriving DecidableEq, Repr

abbrev Xattr := List Char × List Char

structure Attrs where
  uid : ℕ
  gid : ℕ
  perm : ℕ
  xattrs : List Xattr
  deriving DecidableEq

structure Leaf where
  kind : {k : Kind // k ≠ .dir}
  attrs : Attrs
  content : List Char

abbrev Tree := {d : Dir Leaf Attrs // d.Distinct}

structure Entry where
  kind : Kind
  attrs : Attrs
  content : List Char

def entry : Leaf ⊕ Attrs → Entry
  | .inl f => ⟨f.kind, f.attrs, f.content⟩
  | .inr a => ⟨.dir, a, []⟩

def Tree.at (T : Tree) (p : List Char) : Option Entry := (T.1.lookup p).map entry

/-- `copy_str` returns NULL for a path that does not start with '/', and the
traversal uses what it returns. -/
structure Mounts where
  digioceand : Mount
  disk : Mount
  absolute : digioceand.1.head? = some '/'

def lstat (mount : Mount) (T : Tree) (path : List Char) : Option Entry :=
  if mount.1 <+: path then T.at (path.drop mount.1.length) else none

theorem lstat_append (mount : Mount) (T : Tree) (p : List Char) :
    lstat mount T (mount ++ p) = T.at p := by
  rw [lstat, if_pos (List.prefix_append ..), List.drop_left]

def checkStatCompare (buf1 buf2 : Entry) : ℤ :=
  if buf1.attrs.uid ≠ buf2.attrs.uid then -1
  else if buf1.attrs.gid ≠ buf2.attrs.gid then -1
  else if (buf1.kind, buf1.attrs.perm) ≠ (buf2.kind, buf2.attrs.perm) then -1
  else 0

/-- The attributes put into the list, cut at a NUL, and the number of all of them. -/
def xattrGet (e : Entry) : List Xattr × ℕ :=
  ((e.attrs.xattrs.filter fun x => x.2 ≠ [] ∧ x.1 ≠ "security.selinux".toList).map fun x =>
      (x.1, x.2.takeWhile (· ≠ '\x00')),
    e.attrs.xattrs.length)

/-- Two sums that differ leave `ret` as the second `xattr_get` set it. -/
def checkXattrGet (sum1 sum2 : ℕ) : ℤ :=
  let ret : ℤ := 0
  if sum1 ≠ sum2 then ret else 0

def checkXattrCompare (checkList : List Xattr) : List Xattr → ℤ
  | [] => 0
  | src :: diskList =>
    match checkList.find? (·.1 = src.1) with
    | some dst => if dst.2 = src.2 then checkXattrCompare checkList diskList else -1
    | none => -1

abbrev Digest := {l : List (Fin 256) // l.length = 16}

def Digest.zero : Digest := ⟨List.replicate 16 0, rfl⟩

/-- A path that does not start with '/' leaves the sum as it was initialized. -/
def checkFileMd5 (md5 : List Char → Digest) (path : List Char) (e : Entry) : Digest :=
  if path.head? = some '/' then md5 e.content else .zero

def checkStatXattr (check disk : Entry) : ℤ :=
  if checkStatCompare check disk ≠ 0 then -1
  else if checkXattrGet (xattrGet check).2 (xattrGet disk).2 ≠ 0 then -1
  else if checkXattrCompare (xattrGet check).1 (xattrGet disk).1 ≠ 0 then -1
  else 0

def checkOpDirec (check disk : Entry) : ℤ := checkStatXattr check disk

def checkOpSymlink (check disk : Entry) : ℤ := if checkStatCompare check disk ≠ 0 then -1 else 0

def checkOpFile (md5 : List Char → Digest) (w : CheckoutDate) (check disk : Entry) : ℤ :=
  if checkStatXattr check disk ≠ 0 then -1
  else if checkFileMd5 md5 w.diskPath disk ≠ checkFileMd5 md5 w.checkPath check then -1
  else 0

def checkOp (md5 : List Char → Digest) (w : CheckoutDate) (check disk : Entry) : ℤ :=
  match w.type with
  | .direc => checkOpDirec check disk
  | .symlink => checkOpSymlink check disk
  | .file => checkOpFile md5 w check disk

def fn (md5 : List Char → Digest) (m : Mounts) (T V : Tree) (w : CheckoutDate) : ℤ :=
  match lstat m.digioceand T w.checkPath, lstat m.disk V w.diskPath with
  | some check, some disk => checkOp md5 w check disk
  | _, _ => -1

def checks (md5 : List Char → Digest) (m : Mounts) (T V : Tree) : Checks :=
  ⟨fn md5 m T V, [], []⟩

def Unequal (md5 : List Char → Digest) (w : CheckoutDate) (check disk : Entry) : Prop :=
  check.attrs.uid ≠ disk.attrs.uid ∨ check.attrs.gid ≠ disk.attrs.gid ∨ check.kind ≠ disk.kind ∨
    check.attrs.perm ≠ disk.attrs.perm ∨
    (w.type ≠ .symlink ∧ ∃ x ∈ (xattrGet disk).1, (xattrGet check).1.find? (·.1 = x.1) ≠ some x) ∨
    w.type = .file ∧ checkFileMd5 md5 w.diskPath disk ≠ checkFileMd5 md5 w.checkPath check

theorem checkStatCompare_eq_zero {a b : Entry} : checkStatCompare a b = 0 ↔
    a.attrs.uid = b.attrs.uid ∧ a.attrs.gid = b.attrs.gid ∧ a.kind = b.kind ∧
      a.attrs.perm = b.attrs.perm := by
  unfold checkStatCompare
  simp only [ne_eq, Prod.mk.injEq]
  split_ifs <;> simp_all

theorem checkXattrGet_eq (sum1 sum2 : ℕ) : checkXattrGet sum1 sum2 = 0 := ite_self 0

theorem checkXattrCompare_eq_zero {check disk : List Xattr} : checkXattrCompare check disk = 0 ↔
    ∀ x ∈ disk, check.find? (·.1 = x.1) = some x := by
  induction disk with
  | nil => simp [checkXattrCompare]
  | cons x disk ih =>
    rw [checkXattrCompare, List.forall_mem_cons, ← ih]
    cases hfind : check.find? (·.1 = x.1) with
    | none => simp
    | some y =>
      have hkey : y.1 = x.1 := by simpa using List.find?_some hfind
      have hy : some y = some x ↔ y.2 = x.2 := by
        rw [Option.some.injEq, Prod.ext_iff]
        exact ⟨And.right, fun h => ⟨hkey, h⟩⟩
      dsimp only
      rw [hy]
      split_ifs with h
      · simp [h]
      · simp [h]

theorem checkStatXattr_eq_zero {a b : Entry} : checkStatXattr a b = 0 ↔
    checkStatCompare a b = 0 ∧ checkXattrCompare (xattrGet a).1 (xattrGet b).1 = 0 := by
  unfold checkStatXattr
  rw [checkXattrGet_eq]
  split_ifs <;> simp_all

theorem checkOp_values (md5 : List Char → Digest) (w : CheckoutDate) (a b : Entry) :
    checkOp md5 w a b = 0 ∨ checkOp md5 w a b = -1 := by
  unfold checkOp checkOpDirec checkOpSymlink checkOpFile checkStatXattr
  cases w.type <;> dsimp only <;> split_ifs <;> simp

theorem checkOp_eq_zero {md5 : List Char → Digest} {w : CheckoutDate} {a b : Entry} :
    checkOp md5 w a b = 0 ↔ ¬Unequal md5 w a b := by
  have hdirec : checkOpDirec a b = 0 ↔ checkStatCompare a b = 0 ∧
      checkXattrCompare (xattrGet a).1 (xattrGet b).1 = 0 := checkStatXattr_eq_zero
  have hsymlink : checkOpSymlink a b = 0 ↔ checkStatCompare a b = 0 := by
    unfold checkOpSymlink
    split_ifs <;> simp_all
  have hfile : checkOpFile md5 w a b = 0 ↔ (checkStatCompare a b = 0 ∧
      checkXattrCompare (xattrGet a).1 (xattrGet b).1 = 0) ∧
      checkFileMd5 md5 w.diskPath b = checkFileMd5 md5 w.checkPath a := by
    rw [← checkStatXattr_eq_zero]
    unfold checkOpFile
    split_ifs <;> simp_all
  unfold checkOp Unequal
  cases w.type with
  | direc =>
    rw [hdirec, checkStatCompare_eq_zero, checkXattrCompare_eq_zero]
    simp [and_assoc]
  | symlink =>
    rw [hsymlink, checkStatCompare_eq_zero]
    simp
  | file =>
    rw [hfile, checkStatCompare_eq_zero, checkXattrCompare_eq_zero]
    simp [and_assoc]

def copyStr (path : List Char) (n : ℕ) : List Char := path.drop n

def diskBuf (m : Mounts) (digiBuf : List Char) : List Char :=
  m.disk ++ copyStr digiBuf m.digioceand.1.length

def queuePair (m : Mounts) (T V : Tree) (digiBuf : List Char) : Option CheckoutDate :=
  (lstat m.digioceand T digiBuf).bind fun digistat =>
    (lstat m.disk V (diskBuf m digiBuf)).bind fun diskstat =>
      match digistat.kind with
      | .dir => if diskstat.kind = .dir then some ⟨.direc, digiBuf, diskBuf m digiBuf⟩ else none
      -- for files and links the source tests the type of `digistat` once more
      | .reg => some ⟨.file, digiBuf, diskBuf m digiBuf⟩
      | .lnk => some ⟨.symlink, digiBuf, diskBuf m digiBuf⟩
      | .fifo | .sock | .chr | .blk => none

def traversalMount (m : Mounts) (T V : Tree) : Dir Leaf Attrs → List Char → List CheckoutDate
  | .nil, _ => []
  | .leaf name _ rest, path =>
    (queuePair m T V (path ++ '/' :: name)).toList ++ traversalMount m T V rest path
  | .sub name _ children rest, path =>
    match queuePair m T V (path ++ '/' :: name) with
    | some w =>
      w :: (traversalMount m T V children (path ++ '/' :: name) ++ traversalMount m T V rest path)
    | none => traversalMount m T V rest path

/-- The mount path without its last character is where the traversal starts. -/
def checkAll (m : Mounts) (T V : Tree) : List CheckoutDate :=
  traversalMount m T V T.1 m.digioceand.1.dropLast

def pairType : Kind → Kind → Option CheckoutState
  | .dir, .dir => some .direc
  | .reg, _ => some .file
  | .lnk, _ => some .symlink
  | _, _ => none

def pairAt (m : Mounts) (type : CheckoutState) (p : List Char) : CheckoutDate :=
  ⟨type, m.digioceand ++ p, m.disk ++ p⟩

theorem diskBuf_append (m : Mounts) (p : List Char) :
    diskBuf m (m.digioceand ++ p) = m.disk ++ p := by
  rw [diskBuf, copyStr, List.drop_left]

theorem queuePair_append (m : Mounts) (T V : Tree) (p : List Char) :
    queuePair m T V (m.digioceand ++ p) = (T.at p).bind fun a => (V.at p).bind fun b =>
      (pairType a.kind b.kind).map fun type => pairAt m type p := by
  rw [queuePair, lstat_append, diskBuf_append, lstat_append]
  congr 1
  funext a
  congr 1
  funext b
  cases a.kind with
  | dir => cases b.kind <;> rfl
  | _ => rfl

theorem queuePair_eq_some {m : Mounts} {T V : Tree} {p : List Char} {w : CheckoutDate} :
    queuePair m T V (m.digioceand ++ p) = some w ↔ ∃ a b type, T.at p = some a ∧ V.at p = some b ∧
      pairType a.kind b.kind = some type ∧ pairAt m type p = w := by
  simp only [queuePair_append, Option.bind_eq_some_iff, Option.map_eq_some_iff]
  constructor
  · rintro ⟨a, ha, b, hb, type, htype, hw⟩
    exact ⟨a, b, type, ha, hb, htype, hw⟩
  · rintro ⟨a, b, type, ha, hb, htype, hw⟩
    exact ⟨a, ha, b, hb, type, htype, hw⟩

theorem queuePair_parent {m : Mounts} {T V : Tree} {p q : List Char}
    (h : (queuePair m T V (m.digioceand ++ (p ++ '/' :: q))).isSome) :
    queuePair m T V (m.digioceand ++ p) = some (pairAt m .direc p) := by
  obtain ⟨w, hw⟩ := Option.isSome_iff_exists.1 h
  obtain ⟨a, b, type, ha, hb, _⟩ := queuePair_eq_some.1 hw
  have hparent : ∀ (D : Tree) (e : Entry), D.at (p ++ '/' :: q) = some e →
      ∃ i, D.at p = some (entry (.inr i)) := by
    intro D e he
    obtain ⟨x, hx, _⟩ := Option.map_eq_some_iff.1 he
    obtain ⟨i, hi⟩ := Dir.lookup_parent (by rw [hx]; rfl)
    exact ⟨i, by rw [Tree.at, hi]; rfl⟩
  obtain ⟨i, hi⟩ := hparent T a ha
  obtain ⟨j, hj⟩ := hparent V b hb
  exact queuePair_eq_some.2 ⟨_, _, .direc, hi, hj, rfl, rfl⟩

theorem mem_traversalMount {m : Mounts} {T V : Tree} {d : Dir Leaf Attrs} {path r : List Char}
    (hd : d.Distinct) (hin : Dir.Within T.1 r d) (hpath : path ++ ['/'] = m.digioceand ++ r)
    (w : CheckoutDate) :
    w ∈ traversalMount m T V d path ↔
      ∃ p, (d.lookup p).isSome ∧ queuePair m T V (m.digioceand ++ (r ++ p)) = some w := by
  have hbuf : ∀ name : Name, path ++ '/' :: name = m.digioceand ++ (r ++ name) := by
    intro name
    rw [← List.append_assoc, ← hpath, List.append_assoc, List.singleton_append]
  induction d generalizing path r with
  | nil =>
    constructor
    · intro hw
      exact absurd hw List.not_mem_nil
    · rintro ⟨p, hp, _⟩
      cases hp
  | leaf name f rest ih =>
    have hrest : _ ↔ _ := ih hd.2 (hin.leaf_rest hd.1) hpath hbuf
    rw [traversalMount, hbuf, List.mem_append, Option.mem_toList, hrest, Dir.exists_leaf_iff hd.1]
  | sub name i children rest ihch ih =>
    obtain ⟨hname, hch, hrest⟩ := hd
    have hrest : _ ↔ _ := ih hrest (hin.sub_rest hname) hpath hbuf
    have hbelow : ∀ q, r ++ name ++ ['/'] ++ q = r ++ (name ++ '/' :: q) := by
      intro q
      simp
    rw [traversalMount, hbuf, Dir.exists_sub_iff hname, ← hrest]
    cases hq : queuePair m T V (m.digioceand ++ (r ++ name)) with
    | none =>
      -- then nothing below the directory is queued either
      have hnone : ∀ q, queuePair m T V (m.digioceand ++ (r ++ (name ++ '/' :: q))) ≠ some w := by
        intro q hsome
        have hparent := @queuePair_parent m T V (r ++ name) q (by
          rw [List.append_assoc, hsome]; rfl)
        rw [hq] at hparent
        cases hparent
      simp [hnone]
    | some v =>
      have hpath' : m.digioceand ++ (r ++ name) ++ ['/'] = m.digioceand ++ (r ++ name ++ ['/']) := by
        simp
      have hchildren : _ ↔ _ := @ihch (m.digioceand ++ (r ++ name)) (r ++ name ++ ['/']) hch hin.children
        hpath' (fun nm => by simp)
      simp only [hbelow] at hchildren
      rw [List.mem_cons, List.mem_append, hchildren, Option.some.injEq, eq_comm (a := w)]

theorem mem_checkAll {m : Mounts} {T V : Tree} {w : CheckoutDate} :
    w ∈ checkAll m T V ↔ ∃ p a b type, T.at p = some a ∧ V.at p = some b ∧
      pairType a.kind b.kind = some type ∧ pairAt m type p = w := by
  have hroot : m.digioceand.1.dropLast ++ ['/'] = m.digioceand.1 ++ [] := by
    obtain ⟨dir, hdir⟩ := m.digioceand.2
    rw [hdir, List.dropLast_concat, List.append_nil]
  rw [checkAll, mem_traversalMount T.2 (Dir.Within.refl T.1) hroot]
  simp only [List.nil_append, queuePair_eq_some]
  constructor
  · rintro ⟨p, _, h⟩
    exact ⟨p, h⟩
  · rintro ⟨p, a, b, type, ha, h⟩
    obtain ⟨x, hx, _⟩ := Option.map_eq_some_iff.1 ha
    exact ⟨p, by rw [hx]; rfl, a, b, type, ha, h⟩

def Mismatch (md5 : List Char → Digest) (m : Mounts) (T V : Tree) (p : List Char) : Prop :=
  ∃ a b type, T.at p = some a ∧ V.at p = some b ∧ pairType a.kind b.kind = some type ∧
    Unequal md5 (pairAt m type p) a b

theorem exists_bad_iff (md5 : List Char → Digest) (m : Mounts) (T V : Tree) :
    (∃ w ∈ checkAll m T V, Bad (checks md5 m T V) w) ↔ ∃ p, Mismatch md5 m T V p := by
  have hbad : ∀ p a b type, T.at p = some a → V.at p = some b →
      (Bad (checks md5 m T V) (pairAt m type p) ↔ Unequal md5 (pairAt m type p) a b) := by
    intro p a b type ha hb
    have hfn : (checks md5 m T V).fn (pairAt m type p) = checkOp md5 (pairAt m type p) a b := by
      change fn md5 m T V (pairAt m type p) = _
      simp only [fn, pairAt, lstat_append, ha, hb]
    have hvalues := checkOp_values md5 (pairAt m type p) a b
    have hzero := @checkOp_eq_zero md5 (pairAt m type p) a b
    rw [bad_iff (by rwa [hfn]), hfn]
    simp only [checks, List.not_mem_nil, not_false_eq_true, and_true]
    rcases hvalues with h | h
    · rw [h] at hzero ⊢
      simpa using hzero
    · rw [h] at hzero ⊢
      simpa using hzero
  constructor
  · rintro ⟨w, hw, hb⟩
    obtain ⟨p, a, b, type, ha, hv, htype, rfl⟩ := mem_checkAll.1 hw
    exact ⟨p, a, b, type, ha, hv, htype, (hbad p a b type ha hv).1 hb⟩
  · rintro ⟨p, a, b, type, ha, hv, htype, hne⟩
    exact ⟨pairAt m type p, mem_checkAll.2 ⟨p, a, b, type, ha, hv, htype, rfl⟩,
      (hbad p a b type ha hv).2 hne⟩

end MyScripts.Shark.CheckTree
