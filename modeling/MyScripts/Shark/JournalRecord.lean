import MyScripts.Library.Tokens
import MyScripts.Shark.Ops

/-!
# One operation as a line of the journal

`analyze_string_write` prints an operation as its function's name, one
`label=value` token for each argument and a last token that nobody reads;
`cut_string_operation` takes such a line apart again. Each case of the two
switches is a row here: a name with the labels and the fields it prints, a
code with the fields it reads.
-/
namespace MyScripts.Shark.Journal
open Library.Decimal Library.Tokens

structure Row where
  fn : String
  fields : List (String × Field)
  deriving DecidableEq

def setxattrFields : List (String × Field) :=
  [("name", .name), ("value", .value), ("flags", .flags)]

def nameField : List (String × Field) := [("name", .name)]
def newpathField : List (String × Field) := [("newpath", .newpath)]
def chownFields : List (String × Field) := [("owner", .owner), ("group", .group)]
def modeField : List (String × Field) := [("mode", .mode)]
def accessField : List (String × Field) := [("mode", .accessMode)]
def timesFields : List (String × Field) := [("tv_sec", .time0Sec), ("tv_usec", .time0Usec)]

def openedDirRow : OpenedDirOp → Option Row
  | .unknown | .max => none
  | .fsync => some ⟨"fsync", []⟩
  | .fsetxattr => some ⟨"fsetxattr", setxattrFields⟩
  | .fgetxattr => some ⟨"fgetxattr", nameField⟩
  | .fremovexattr => some ⟨"fremovexattr", nameField⟩
  | .readdir => some ⟨"readdir", []⟩
  | .fchown => some ⟨"fchown", chownFields⟩
  | .fchmod => some ⟨"fchmod", modeField⟩
  | .futimes => some ⟨"futimes", timesFields⟩
  | .fstat => some ⟨"fstat", []⟩

def noOpenDirRow : NoOpenDirOp → Option Row
  | .unknown | .max => none
  | .access => some ⟨"access", accessField⟩
  | .rename => some ⟨"rename", newpathField⟩
  | .symlink => some ⟨"symlink", newpathField⟩
  | .setxattr => some ⟨"setxattr", setxattrFields⟩
  | .getxattr => some ⟨"getxattr", nameField⟩
  | .removexattr => some ⟨"removexattr", nameField⟩
  | .chown => some ⟨"chown", chownFields⟩
  | .chmod => some ⟨"chmod", modeField⟩
  | .utimes => some ⟨"utimes", timesFields⟩
  | .rmdir => some ⟨"rmdir", []⟩
  | .stat => some ⟨"stat", []⟩
  | .statfs => some ⟨"statfs", []⟩

def openedFileRow : OpenedFileOp → Option Row
  | .unknown | .max => none
  | .writev => some ⟨"pwritev", [("offset", .offset)]⟩
  | .readv => some ⟨"preadv", [("offset", .offset)]⟩
  | .fallocate =>
    some ⟨"fallocate", [("mode", .fallocateMode), ("offset", .fallocateOffset),
      ("len", .fallocateLen)]⟩
  | .ftruncate => some ⟨"ftruncate", [("length", .length)]⟩
  | .fsync => some ⟨"fsync", []⟩
  | .fsetxattr => some ⟨"fsetxattr", setxattrFields⟩
  | .fgetxattr => some ⟨"fgetxattr", nameField⟩
  | .fremovexattr => some ⟨"fremovexattr", nameField⟩
  | .lk => some ⟨"lk", [("operation", .operation)]⟩
  | .fchown => some ⟨"fchown", chownFields⟩
  | .fchmod => some ⟨"fchmod", modeField⟩
  | .futimes => some ⟨"futimes", timesFields⟩
  | .fstat => some ⟨"fstat", []⟩

def noOpenFileRow : NoOpenFileOp → Option Row
  | .unknown | .max => none
  | .rename => some ⟨"rename", newpathField⟩
  | .symlink => some ⟨"symlink", newpathField⟩
  | .link => some ⟨"link", newpathField⟩
  | .truncate => some ⟨"truncate", [("length", .length)]⟩
  | .setxattr => some ⟨"setxattr", setxattrFields⟩
  | .getxattr => some ⟨"getxattr", nameField⟩
  | .removexattr => some ⟨"removexattr", nameField⟩
  | .access => some ⟨"access", accessField⟩
  | .chown => some ⟨"chown", chownFields⟩
  | .chmod => some ⟨"chmod", modeField⟩
  | .utimes => some ⟨"utimes", timesFields⟩
  | .stat => some ⟨"stat", []⟩
  | .unlink => some ⟨"unlink", []⟩
  | .statfs => some ⟨"statfs", []⟩

def symlinkRow : SymlinkOp → Option Row
  | .unknown | .max => none
  | .readlink => some ⟨"readlink", []⟩
  | .unlink => some ⟨"unlink", []⟩

def row : Op → Option Row
  | .openedDir o => openedDirRow o
  | .noOpenDir o => noOpenDirRow o
  | .openedFile o => openedFileRow o
  | .noOpenFile o => noOpenFileRow o
  | .symlink o => symlinkRow o

structure OpInfo where
  group : ℤ
  list : ℤ
  op : ℤ

def OpInfo.print (i : OpInfo) : List Char :=
  "op_info=(".toList ++ printInt i.group ++ ',' :: (printInt i.list ++ ',' ::
    (printInt i.op ++ ")\n".toList))

def printField (a : Args) (lf : String × Field) : List Char :=
  lf.1.toList ++ '=' :: (lf.2.get a).print

def printFields (a : Args) (tail : List Char) : List (String × Field) → List Char
  | [] => tail
  | lf :: fs => printField a lf ++ ' ' :: printFields a tail fs

def Row.print (r : Row) (a : Args) (i : OpInfo) : List Char :=
  r.fn.toList ++ ' ' :: printFields a i.print r.fields

def sprintf (size : ℕ) (s : List Char) : Option (List Char) :=
  if s.length < size then some s else none

def emitted (cls : ℤ) (i : OpInfo) (op : FileOp) : Option (List Char) :=
  (((OpType.ofCode cls).bind fun t => Op.ofCode t op.op).bind row).map fun r => r.print op.args i

/-- The text `analyze_string_write` puts into the file; `none` when the line
does not fit its buffer. -/
def analyzeStringWrite (cls : ℤ) (i : OpInfo) (op : FileOp) : Option (List Char) :=
  match emitted cls i op with
  | none => some []
  | some line => sprintf 2048 line

/-- One branch of `cut_string_operation`: the name it compares with, the code
it sets and the fields it reads in order. -/
structure CutRow where
  fn : String
  code : ℕ
  fields : List Field
  deriving DecidableEq

def cutSetxattr : List Field := [.name, .value, .flags]
def cutChown : List Field := [.owner, .group]
def cutTimes : List Field := [.time0Sec, .time0Usec]

def cutOpenedDir : List CutRow :=
  [⟨"fsync", OpenedDirOp.fsync.code, []⟩,
    ⟨"fsetxattr", OpenedDirOp.fsetxattr.code, cutSetxattr⟩,
    ⟨"fgetxattr", OpenedDirOp.fgetxattr.code, [.name]⟩,
    ⟨"fremovexattr", OpenedDirOp.fremovexattr.code, [.name]⟩,
    ⟨"readdir", OpenedDirOp.readdir.code, []⟩,
    ⟨"fchown", OpenedDirOp.fchown.code, cutChown⟩,
    ⟨"fchmod", OpenedDirOp.fchmod.code, [.mode]⟩,
    ⟨"futimes", OpenedDirOp.futimes.code, cutTimes⟩,
    ⟨"fstat", OpenedDirOp.fstat.code, []⟩]

-- the second branch sets the file operation's code, not the directory's
def cutNoOpenDir : List CutRow :=
  [⟨"access", NoOpenDirOp.access.code, [.accessMode]⟩,
    ⟨"rename", NoOpenFileOp.rename.code, [.newpath]⟩,
    ⟨"symlink", NoOpenDirOp.symlink.code, [.newpath]⟩,
    ⟨"setxattr", NoOpenDirOp.setxattr.code, cutSetxattr⟩,
    ⟨"getxattr", NoOpenDirOp.getxattr.code, [.name]⟩,
    ⟨"removexattr", NoOpenDirOp.removexattr.code, [.name]⟩,
    ⟨"chown", NoOpenDirOp.chown.code, cutChown⟩,
    ⟨"chmod", NoOpenDirOp.chmod.code, [.mode]⟩,
    ⟨"utimes", NoOpenDirOp.utimes.code, cutTimes⟩,
    ⟨"rmdir", NoOpenDirOp.rmdir.code, []⟩,
    ⟨"stat", NoOpenDirOp.stat.code, []⟩,
    ⟨"statfs", NoOpenDirOp.statfs.code, []⟩]

def cutOpenedFile : List CutRow :=
  [⟨"pwritev", OpenedFileOp.writev.code, [.offset]⟩,
    ⟨"preadv", OpenedFileOp.readv.code, [.offset]⟩,
    ⟨"fallocate", OpenedFileOp.fallocate.code,
      [.fallocateMode, .fallocateOffset, .fallocateLen]⟩,
    ⟨"ftruncate", OpenedFileOp.ftruncate.code, [.length]⟩,
    ⟨"fsync", OpenedFileOp.fsync.code, []⟩,
    ⟨"fsetxattr", OpenedFileOp.fsetxattr.code, cutSetxattr⟩,
    ⟨"fgetxattr", OpenedFileOp.fgetxattr.code, [.name]⟩,
    ⟨"fremovexattr", OpenedFileOp.fremovexattr.code, [.name]⟩,
    ⟨"lk", OpenedFileOp.lk.code, [.operation]⟩,
    ⟨"fchown", OpenedFileOp.fchown.code, cutChown⟩,
    ⟨"fchmod", OpenedFileOp.fchmod.code, [.mode]⟩,
    ⟨"futimes", OpenedFileOp.futimes.code, cutTimes⟩,
    ⟨"fstat", OpenedFileOp.fstat.code, []⟩]

def cutNoOpenFile : List CutRow :=
  [⟨"rename", NoOpenFileOp.rename.code, [.newpath]⟩,
    ⟨"symlink", NoOpenFileOp.symlink.code, [.newpath]⟩,
    ⟨"link", NoOpenFileOp.link.code, [.newpath]⟩,
    ⟨"truncate", NoOpenFileOp.truncate.code, [.length]⟩,
    ⟨"setxattr", NoOpenFileOp.setxattr.code, cutSetxattr⟩,
    ⟨"getxattr", NoOpenFileOp.getxattr.code, [.name]⟩,
    ⟨"removexattr", NoOpenFileOp.removexattr.code, [.name]⟩,
    ⟨"access", NoOpenFileOp.access.code, [.accessMode]⟩,
    ⟨"chown", NoOpenFileOp.chown.code, cutChown⟩,
    ⟨"chmod", NoOpenFileOp.chmod.code, [.mode]⟩,
    ⟨"utimes", NoOpenFileOp.utimes.code, cutTimes⟩,
    ⟨"stat", NoOpenFileOp.stat.code, []⟩,
    ⟨"unlink", NoOpenFileOp.unlink.code, []⟩,
    ⟨"statfs", NoOpenFileOp.statfs.code, []⟩]

def cutSymlink : List CutRow :=
  [⟨"readlink", SymlinkOp.readlink.code, []⟩, ⟨"unlink", SymlinkOp.unlink.code, []⟩]

def cutTable : OpType → List CutRow
  | .openedDir => cutOpenedDir
  | .noOpenDir => cutNoOpenDir
  | .openedFile => cutOpenedFile
  | .noOpenFile => cutNoOpenFile
  | .symlink => cutSymlink

/-- The arguments: the next token, the text after its '=', a field. `none` is a
token or a '=' that is missing, which the source dereferences. -/
def cutFields : List Field → List Char → Args → Option Args
  | [], _, a => some a
  | f :: fs, s, a =>
    (strtok ' ' s).bind fun tmp => (after '=' tmp.1).bind fun p => cutFields fs tmp.2 (f.read p a)

def cutStringOperation (op : FileOp) (line : List Char) (opType : ℤ) : Option FileOp :=
  (strtok ' ' line).bind fun tok =>
    match (OpType.ofCode opType).bind fun t => (cutTable t).find? (·.fn.toList = tok.1) with
    | none => some op
    | some r => (cutFields r.fields tok.2 op.args).map fun a => { op with op := r.code, args := a }

structure Row.Regular (r : Row) : Prop where
  fn_ne : r.fn.toList ≠ []
  fn : ' ' ∉ r.fn.toList
  nodup : (r.fields.map Prod.snd).Nodup
  labels : ∀ lf ∈ r.fields, ' ' ∉ lf.1.toList ∧ '=' ∉ lf.1.toList

instance (r : Row) : Decidable r.Regular :=
  decidable_of_iff ((r.fn.toList ≠ [] ∧ ' ' ∉ r.fn.toList) ∧ (r.fields.map Prod.snd).Nodup ∧
      ∀ lf ∈ r.fields, ' ' ∉ lf.1.toList ∧ '=' ∉ lf.1.toList)
    ⟨fun h => ⟨h.1.1, h.1.2, h.2.1, h.2.2⟩, fun h => ⟨⟨h.1, h.2⟩, h.3, h.4⟩⟩

theorem row_regular {o : Op} {r : Row} (h : row o = some r) : r.Regular := by
  have hall : ∀ r ∈ row o, r.Regular := by
    cases o with
    | openedDir o => cases o <;> decide
    | noOpenDir o => cases o <;> decide
    | openedFile o => cases o <;> decide
    | noOpenFile o => cases o <;> decide
    | symlink o => cases o <;> decide
  exact hall r h

def cutCode : Op → ℕ
  | .noOpenDir .rename => NoOpenFileOp.rename.code
  | o => o.code

theorem cutCode_eq_iff (o : Op) : cutCode o = o.code ↔ o ≠ .noOpenDir .rename := by
  cases o with
  | noOpenDir o => cases o <;> decide
  | _ => simp [cutCode]

theorem find?_cutTable {o : Op} {r : Row} (h : row o = some r) :
    (cutTable o.type).find? (·.fn.toList = r.fn.toList) =
      some ⟨r.fn, cutCode o, r.fields.map Prod.snd⟩ := by
  cases o with
  | openedDir o => cases o <;> cases h <;> decide
  | noOpenDir o => cases o <;> cases h <;> decide
  | openedFile o => cases o <;> cases h <;> decide
  | noOpenFile o => cases o <;> cases h <;> decide
  | symlink o => cases o <;> cases h <;> decide

theorem not_mem_print {v : Value} (h : v.Plain) : ' ' ∉ v.print := by
  cases v with
  | text s => exact h.1
  | int z => exact not_mem_printInt (by decide) (by decide) z

theorem strtok_printField {a : Args} {lf : String × Field} {rest : List Char}
    (hl : ' ' ∉ lf.1.toList) (hv : ' ' ∉ (lf.2.get a).print) :
    strtok ' ' (printField a lf ++ ' ' :: rest) = some (printField a lf, rest) := by
  refine strtok_append (by simp [printField]) ?_
  simp only [printField, List.mem_append, List.mem_cons, not_or]
  exact ⟨hl, by decide, hv⟩

theorem after_printField {a : Args} {lf : String × Field} (hl : '=' ∉ lf.1.toList) :
    after '=' (printField a lf) = some (lf.2.get a).print :=
  after_append hl

def readFields (a : Args) : List (String × Field) → Args → Args
  | [], b => b
  | lf :: fs, b => readFields a fs (lf.2.read (lf.2.get a).print b)

theorem cutFields_printFields (a b : Args) (tail : List Char) {fs : List (String × Field)}
    (hl : ∀ lf ∈ fs, ' ' ∉ lf.1.toList ∧ '=' ∉ lf.1.toList)
    (hv : ∀ lf ∈ fs, ' ' ∉ (lf.2.get a).print) :
    cutFields (fs.map Prod.snd) (printFields a tail fs) b = some (readFields a fs b) := by
  induction fs generalizing b with
  | nil => rfl
  | cons lf fs ih =>
    have hhead := hl lf (List.mem_cons_self ..)
    have hval := hv lf (List.mem_cons_self ..)
    have htail := ih (lf.2.read (lf.2.get a).print b)
      (fun x hx => hl x (List.mem_cons_of_mem lf hx)) (fun x hx => hv x (List.mem_cons_of_mem lf hx))
    simp only [List.map_cons, cutFields, printFields, strtok_printField hhead.1 hval,
      Option.bind_some, after_printField hhead.2, htail, readFields]

theorem get_readFields (a b : Args) {fs : List (String × Field)} (hn : (fs.map Prod.snd).Nodup)
    (hv : ∀ lf ∈ fs, (lf.2.get a).Plain) (g : Field) :
    g.get (readFields a fs b) = if g ∈ fs.map Prod.snd then g.get a else g.get b := by
  induction fs generalizing b with
  | nil => rfl
  | cons lf fs ih =>
    have hval := hv lf (List.mem_cons_self ..)
    rw [List.map_cons, List.nodup_cons] at hn
    rw [readFields, ih _ hn.2 fun x hx => hv x (List.mem_cons_of_mem lf hx), List.map_cons]
    by_cases hg : g = lf.2
    · subst hg
      rw [if_neg hn.1, if_pos (List.mem_cons_self ..), Field.get_read_self _ a b hval]
    · rw [Field.get_read_of_ne hg]
      simp only [List.mem_cons, hg, false_or]

theorem cutStringOperation_print {o : Op} {r : Row} (h : row o = some r) (a : Args) (i : OpInfo)
    (hv : ∀ lf ∈ r.fields, ' ' ∉ (lf.2.get a).print) :
    cutStringOperation FileOp.zero (r.print a i) o.type.code =
      some ⟨cutCode o, 0, readFields a r.fields Args.zero⟩ := by
  have hreg := row_regular h
  have hcut := cutFields_printFields a Args.zero i.print hreg.labels hv
  rw [cutStringOperation, Row.print, strtok_append hreg.fn_ne hreg.fn]
  simp only [Option.bind_some, OpType.ofCode_code, find?_cutTable h]
  change (cutFields _ _ Args.zero).map _ = _
  rw [hcut]
  rfl

theorem exists_cut {o : Op} {r : Row} (h : row o = some r) (a : Args) (i : OpInfo)
    (hv : ∀ g ∈ r.fields.map Prod.snd, (g.get a).Plain) :
    ∃ c, cutStringOperation FileOp.zero (r.print a i) o.type.code = some ⟨cutCode o, 0, c⟩ ∧
      ∀ g : Field, g.get c = if g ∈ r.fields.map Prod.snd then g.get a else g.get Args.zero := by
  have hplain : ∀ lf ∈ r.fields, (lf.2.get a).Plain := fun lf hlf =>
    hv lf.2 (List.mem_map_of_mem hlf)
  exact ⟨_, cutStringOperation_print h a i fun lf hlf => not_mem_print (hplain lf hlf),
    get_readFields a Args.zero (row_regular h).nodup hplain⟩

def argFields : Op → List Field
  | .openedDir .fsetxattr | .noOpenDir .setxattr | .openedFile .fsetxattr | .noOpenFile .setxattr =>
    [.name, .value, .flags]
  | .openedDir .fgetxattr | .openedDir .fremovexattr | .noOpenDir .getxattr
  | .noOpenDir .removexattr | .openedFile .fgetxattr | .openedFile .fremovexattr
  | .noOpenFile .getxattr | .noOpenFile .removexattr => [.name]
  | .noOpenDir .rename | .noOpenDir .symlink | .noOpenFile .rename | .noOpenFile .symlink
  | .noOpenFile .link => [.newpath]
  | .openedDir .fchown | .noOpenDir .chown | .openedFile .fchown | .noOpenFile .chown =>
    [.owner, .group]
  | .openedDir .fchmod | .noOpenDir .chmod | .openedFile .fchmod | .noOpenFile .chmod => [.mode]
  | .openedDir .futimes | .noOpenDir .utimes | .openedFile .futimes | .noOpenFile .utimes =>
    [.time0Sec, .time0Usec, .time1Sec, .time1Usec]
  | .noOpenDir .access | .noOpenFile .access => [.accessMode]
  | .openedFile .writev | .openedFile .readv => [.offset]
  | .openedFile .fallocate => [.fallocateMode, .fallocateOffset, .fallocateLen]
  | .openedFile .ftruncate | .noOpenFile .truncate => [.length]
  | .openedFile .lk => [.operation]
  | _ => []

def SetsTimes (o : Op) : Prop := Field.time1Sec ∈ argFields o

instance (o : Op) : Decidable (SetsTimes o) := by
  unfold SetsTimes
  infer_instance

theorem mem_fields_of_argFields {o : Op} {r : Row} (h : row o = some r) :
    (∀ g ∈ r.fields.map Prod.snd, g ∈ argFields o) ∧
      ∀ g ∈ argFields o, g ∈ r.fields.map Prod.snd ∨
        SetsTimes o ∧ (g = .time1Sec ∨ g = .time1Usec) := by
  cases o with
  | openedDir o => cases o <;> cases h <;> decide
  | noOpenDir o => cases o <;> cases h <;> decide
  | openedFile o => cases o <;> cases h <;> decide
  | noOpenFile o => cases o <;> cases h <;> decide
  | symlink o => cases o <;> cases h <;> decide

theorem time1_mem {o : Op} {r : Row} (h : row o = some r) (ht : SetsTimes o) :
    (Field.time1Sec ∈ argFields o ∧ Field.time1Sec ∉ r.fields.map Prod.snd) ∧
      Field.time1Usec ∈ argFields o ∧ Field.time1Usec ∉ r.fields.map Prod.snd := by
  cases o with
  | openedDir o => cases o <;> cases h <;> revert ht <;> decide
  | noOpenDir o => cases o <;> cases h <;> revert ht <;> decide
  | openedFile o => cases o <;> cases h <;> revert ht <;> decide
  | noOpenFile o => cases o <;> cases h <;> revert ht <;> decide
  | symlink o => cases o <;> cases h <;> revert ht <;> decide

theorem emitted_eq {o : Op} {r : Row} (h : row o = some r) (i : OpInfo) {op : FileOp}
    (hop : op.op = o.code) : emitted o.type.code i op = some (r.print op.args i) := by
  simp only [emitted, OpType.ofCode_code, Option.bind_some, hop, Op.ofCode_code, h, Option.map_some]

def RoundTrips (o : Op) (i : OpInfo) (op : FileOp) : Prop :=
  ∃ line op', analyzeStringWrite o.type.code i op = some line ∧
    cutStringOperation FileOp.zero line o.type.code = some op' ∧ op'.op = op.op ∧
    ∀ g ∈ argFields o, g.get op'.args = g.get op.args

theorem analyzeStringWrite_eq {o : Op} {r : Row} (h : row o = some r) (i : OpInfo) {op : FileOp}
    (hop : op.op = o.code) :
    analyzeStringWrite o.type.code i op = sprintf 2048 (r.print op.args i) := by
  simp only [analyzeStringWrite, emitted_eq h i hop]

theorem get_cut_iff {o : Op} {r : Row} {a c : Args} (h : row o = some r)
    (hget : ∀ g : Field, g.get c = if g ∈ r.fields.map Prod.snd then g.get a else g.get Args.zero) :
    (∀ g ∈ argFields o, g.get c = g.get a) ↔
      (SetsTimes o → a.time1Sec = 0 ∧ a.time1Usec = 0) := by
  constructor
  · intro hall ht
    obtain ⟨⟨hs, hs'⟩, hu, hu'⟩ := time1_mem h ht
    have h₁ := hall _ hs
    have h₂ := hall _ hu
    rw [hget, if_neg hs'] at h₁
    rw [hget, if_neg hu'] at h₂
    exact ⟨(Value.int.inj h₁).symm, (Value.int.inj h₂).symm⟩
  · intro ht g hg
    rw [hget]
    rcases (mem_fields_of_argFields h).2 g hg with hm | ⟨hst, hg'⟩
    · rw [if_pos hm]
    · obtain ⟨hs, hu⟩ := ht hst
      obtain ⟨⟨_, hs'⟩, _, hu'⟩ := time1_mem h hst
      rcases hg' with rfl | rfl
      · rw [if_neg hs']
        exact congrArg Value.int hs.symm
      · rw [if_neg hu']
        exact congrArg Value.int hu.symm

theorem RoundTrips.necessary {o : Op} {r : Row} {i : OpInfo} {op : FileOp}
    (ht : RoundTrips o i op) (hop : op.op = o.code) (hr : row o = some r)
    (hv : ∀ g ∈ argFields o, (g.get op.args).Plain) :
    o ≠ .noOpenDir .rename ∧ (SetsTimes o → op.args.time1Sec = 0 ∧ op.args.time1Usec = 0) ∧
      (r.print op.args i).length < 2048 := by
  obtain ⟨c, hcut, hget⟩ := exists_cut hr op.args i
    fun g hg => hv g ((mem_fields_of_argFields hr).1 g hg)
  obtain ⟨line, op', hw, hc, hcode, hargs⟩ := ht
  rw [analyzeStringWrite_eq hr i hop, sprintf] at hw
  simp only [Option.ite_none_right_eq_some, Option.some.injEq] at hw
  obtain ⟨hlen, rfl⟩ := hw
  rw [hcut, Option.some.injEq] at hc
  subst hc
  exact ⟨(cutCode_eq_iff o).1 (hcode.trans hop), (get_cut_iff hr hget).1 hargs, hlen⟩

/-- An emitted operation with plain arguments survives the journal if and only
if it is not a directory rename, it sets no second time value, and its line
fits the writer's buffer. -/
theorem roundTrips_iff (o : Op) (r : Row) (i : OpInfo) (op : FileOp) (hop : op.op = o.code)
    (hr : row o = some r) (hv : ∀ g ∈ argFields o, (g.get op.args).Plain) :
    RoundTrips o i op ↔ o ≠ .noOpenDir .rename ∧
      (SetsTimes o → op.args.time1Sec = 0 ∧ op.args.time1Usec = 0) ∧
      (r.print op.args i).length < 2048 := by
  refine ⟨fun ht => ht.necessary hop hr hv, fun ⟨hcode, htimes, hlen⟩ => ?_⟩
  obtain ⟨c, hcut, hget⟩ := exists_cut hr op.args i
    fun g hg => hv g ((mem_fields_of_argFields hr).1 g hg)
  refine ⟨_, _, (analyzeStringWrite_eq hr i hop).trans (if_pos hlen), hcut, ?_,
    (get_cut_iff hr hget).2 htimes⟩
  exact ((cutCode_eq_iff o).2 hcode).trans hop.symm

theorem roundTrips_iff_fsetxattr :
    RoundTrips (.openedFile .fsetxattr) ⟨0, 0, 0⟩
      ⟨6, 0, { Args.zero with name := "user.k".toList, value := "v".toList, flags := -2 }⟩ := by
  refine (roundTrips_iff _ _ _ _ rfl rfl ?_).2 ⟨by decide, by decide, by decide⟩
  intro g hg
  simp only [argFields, List.mem_cons, List.not_mem_nil, or_false] at hg
  rcases hg with rfl | rfl | rfl
  · exact ⟨by decide, by decide⟩
  · exact ⟨by decide, by decide⟩
  · exact ⟨by decide, by decide⟩

/-- A directory rename comes back with another code, and `futimes` without its
second time value. -/
theorem roundTrips_false_rename_futimes :
    ¬RoundTrips (.noOpenDir .rename) ⟨0, 0, 0⟩
      ⟨2, 0, { Args.zero with newpath := "/2-a".toList }⟩ ∧
    ¬RoundTrips (.openedFile .futimes) ⟨0, 0, 0⟩ ⟨12, 0, { Args.zero with time1Sec := 1 }⟩ := by
  constructor
  · intro ht
    refine (ht.necessary rfl rfl fun g hg => ?_).1 rfl
    simp only [argFields, List.mem_cons, List.not_mem_nil, or_false] at hg
    subst hg
    exact ⟨by decide, by decide⟩
  · intro ht
    refine absurd ((ht.necessary rfl rfl fun g hg => ?_).2.1 (by decide)).1 (by decide)
    simp only [argFields, List.mem_cons, List.not_mem_nil, or_false] at hg
    rcases hg with rfl | rfl | rfl | rfl <;> exact ⟨by decide, by decide⟩

end MyScripts.Shark.Journal
