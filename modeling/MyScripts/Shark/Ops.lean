import MyScripts.Library.Decimal
import MyScripts.Shark.Worker

/-!
# Operations and their arguments

The operation codes of each class of op list, in the order of the source's
enumerations, and the argument fields of `file_op_t`. The union's layouts that
two operations share are one field here, since no operation uses two layouts.
-/
namespace MyScripts.Shark
open Library.Decimal

inductive OpenedDirOp
  | unknown | fsync | fsetxattr | fgetxattr | fremovexattr | readdir | fchown | fchmod | futimes
  | fstat | max
  deriving DecidableEq, Repr

namespace OpenedDirOp

def code : OpenedDirOp → ℕ
  | unknown => 0 | fsync => 1 | fsetxattr => 2 | fgetxattr => 3 | fremovexattr => 4 | readdir => 5
  | fchown => 6 | fchmod => 7 | futimes => 8 | fstat => 9 | max => 10

def ofCode : ℕ → Option OpenedDirOp
  | 0 => unknown | 1 => fsync | 2 => fsetxattr | 3 => fgetxattr | 4 => fremovexattr | 5 => readdir
  | 6 => fchown | 7 => fchmod | 8 => futimes | 9 => fstat | 10 => max | _ => none

theorem ofCode_code (o : OpenedDirOp) : ofCode o.code = some o := by
  cases o <;> rfl

end OpenedDirOp

inductive NoOpenDirOp
  | unknown | access | rename | symlink | setxattr | getxattr | removexattr | chown | chmod | utimes
  | rmdir | stat | statfs | max
  deriving DecidableEq, Repr

namespace NoOpenDirOp

def code : NoOpenDirOp → ℕ
  | unknown => 0 | access => 1 | rename => 2 | symlink => 3 | setxattr => 4 | getxattr => 5
  | removexattr => 6 | chown => 7 | chmod => 8 | utimes => 9 | rmdir => 10 | stat => 11
  | statfs => 12 | max => 13

def ofCode : ℕ → Option NoOpenDirOp
  | 0 => unknown | 1 => access | 2 => rename | 3 => symlink | 4 => setxattr | 5 => getxattr
  | 6 => removexattr | 7 => chown | 8 => chmod | 9 => utimes | 10 => rmdir | 11 => stat
  | 12 => statfs | 13 => max | _ => none

theorem ofCode_code (o : NoOpenDirOp) : ofCode o.code = some o := by
  cases o <;> rfl

end NoOpenDirOp

inductive OpenedFileOp
  | unknown | writev | readv | fallocate | ftruncate | fsync | fsetxattr | fgetxattr | fremovexattr
  | lk | fchown | fchmod | futimes | fstat | max
  deriving DecidableEq, Repr

namespace OpenedFileOp

def code : OpenedFileOp → ℕ
  | unknown => 0 | writev => 1 | readv => 2 | fallocate => 3 | ftruncate => 4 | fsync => 5
  | fsetxattr => 6 | fgetxattr => 7 | fremovexattr => 8 | lk => 9 | fchown => 10 | fchmod => 11
  | futimes => 12 | fstat => 13 | max => 14

def ofCode : ℕ → Option OpenedFileOp
  | 0 => unknown | 1 => writev | 2 => readv | 3 => fallocate | 4 => ftruncate | 5 => fsync
  | 6 => fsetxattr | 7 => fgetxattr | 8 => fremovexattr | 9 => lk | 10 => fchown | 11 => fchmod
  | 12 => futimes | 13 => fstat | 14 => max | _ => none

theorem ofCode_code (o : OpenedFileOp) : ofCode o.code = some o := by
  cases o <;> rfl

end OpenedFileOp

inductive NoOpenFileOp
  | unknown | rename | symlink | link | truncate | setxattr | getxattr | removexattr | access | chown
  | chmod | utimes | stat | unlink | statfs | max
  deriving DecidableEq, Repr

namespace NoOpenFileOp

def code : NoOpenFileOp → ℕ
  | unknown => 0 | rename => 1 | symlink => 2 | link => 3 | truncate => 4 | setxattr => 5
  | getxattr => 6 | removexattr => 7 | access => 8 | chown => 9 | chmod => 10 | utimes => 11
  | stat => 12 | unlink => 13 | statfs => 14 | max => 15

def ofCode : ℕ → Option NoOpenFileOp
  | 0 => unknown | 1 => rename | 2 => symlink | 3 => link | 4 => truncate | 5 => setxattr
  | 6 => getxattr | 7 => removexattr | 8 => access | 9 => chown | 10 => chmod | 11 => utimes
  | 12 => stat | 13 => unlink | 14 => statfs | 15 => max | _ => none

theorem ofCode_code (o : NoOpenFileOp) : ofCode o.code = some o := by
  cases o <;> rfl

end NoOpenFileOp

inductive SymlinkOp
  | unknown | readlink | unlink | max
  deriving DecidableEq, Repr

namespace SymlinkOp

def code : SymlinkOp → ℕ
  | unknown => 0 | readlink => 1 | unlink => 2 | max => 3

def ofCode : ℕ → Option SymlinkOp
  | 0 => unknown | 1 => readlink | 2 => unlink | 3 => max | _ => none

theorem ofCode_code (o : SymlinkOp) : ofCode o.code = some o := by
  cases o <;> rfl

end SymlinkOp

inductive Op
  | openedDir (o : OpenedDirOp)
  | noOpenDir (o : NoOpenDirOp)
  | openedFile (o : OpenedFileOp)
  | noOpenFile (o : NoOpenFileOp)
  | symlink (o : SymlinkOp)
  deriving DecidableEq, Repr

namespace Op

def type : Op → OpType
  | openedDir _ => .openedDir
  | noOpenDir _ => .noOpenDir
  | openedFile _ => .openedFile
  | noOpenFile _ => .noOpenFile
  | symlink _ => .symlink

def code : Op → ℕ
  | openedDir o => o.code
  | noOpenDir o => o.code
  | openedFile o => o.code
  | noOpenFile o => o.code
  | symlink o => o.code

def ofCode : OpType → ℕ → Option Op
  | .openedDir, n => (OpenedDirOp.ofCode n).map openedDir
  | .noOpenDir, n => (NoOpenDirOp.ofCode n).map noOpenDir
  | .openedFile, n => (OpenedFileOp.ofCode n).map openedFile
  | .noOpenFile, n => (NoOpenFileOp.ofCode n).map noOpenFile
  | .symlink, n => (SymlinkOp.ofCode n).map symlink

theorem ofCode_code (o : Op) : ofCode o.type o.code = some o := by
  cases o with
  | openedDir o => simp [ofCode, type, code, OpenedDirOp.ofCode_code]
  | noOpenDir o => simp [ofCode, type, code, NoOpenDirOp.ofCode_code]
  | openedFile o => simp [ofCode, type, code, OpenedFileOp.ofCode_code]
  | noOpenFile o => simp [ofCode, type, code, NoOpenFileOp.ofCode_code]
  | symlink o => simp [ofCode, type, code, SymlinkOp.ofCode_code]

theorem type_of_ofCode {t : OpType} {n : ℕ} {o : Op} (h : ofCode t n = some o) : o.type = t := by
  cases t <;> obtain ⟨_, _, rfl⟩ := Option.map_eq_some_iff.1 h <;> rfl

end Op

@[ext]
structure Args where
  newpath : List Char
  name : List Char
  value : List Char
  flags : ℤ
  accessMode : ℤ
  operation : ℤ
  offset : ℤ
  length : ℤ
  fallocateMode : ℤ
  fallocateOffset : ℤ
  fallocateLen : ℤ
  owner : ℕ
  group : ℕ
  mode : ℕ
  time0Sec : ℤ
  time0Usec : ℤ
  time1Sec : ℤ
  time1Usec : ℤ
  deriving DecidableEq, Repr

def Args.zero : Args where
  newpath := []
  name := []
  value := []
  flags := 0
  accessMode := 0
  operation := 0
  offset := 0
  length := 0
  fallocateMode := 0
  fallocateOffset := 0
  fallocateLen := 0
  owner := 0
  group := 0
  mode := 0
  time0Sec := 0
  time0Usec := 0
  time1Sec := 0
  time1Usec := 0

structure FileOp where
  op : ℕ
  opIndex : ℤ
  args : Args
  deriving DecidableEq, Repr

def FileOp.zero : FileOp := ⟨0, 0, Args.zero⟩

inductive Field
  | newpath | name | value | flags | accessMode | operation | offset | length | fallocateMode
  | fallocateOffset | fallocateLen | owner | group | mode | time0Sec | time0Usec | time1Sec
  | time1Usec
  deriving DecidableEq, Repr

inductive Value
  | text (s : List Char)
  | int (z : ℤ)
  deriving DecidableEq, Repr

def Value.print : Value → List Char
  | text s => s
  | int z => printInt z

/-- Free of the separators of the journal, or within the range of `int`. -/
def Value.Plain : Value → Prop
  | text s => ' ' ∉ s ∧ '\n' ∉ s
  | int z => InInt32 z

namespace Field

def get : Field → Args → Value
  | newpath, a => .text a.newpath
  | name, a => .text a.name
  | value, a => .text a.value
  | flags, a => .int a.flags
  | accessMode, a => .int a.accessMode
  | operation, a => .int a.operation
  | offset, a => .int a.offset
  | length, a => .int a.length
  | fallocateMode, a => .int a.fallocateMode
  | fallocateOffset, a => .int a.fallocateOffset
  | fallocateLen, a => .int a.fallocateLen
  | owner, a => .int a.owner
  | group, a => .int a.group
  | mode, a => .int a.mode
  | time0Sec, a => .int a.time0Sec
  | time0Usec, a => .int a.time0Usec
  | time1Sec, a => .int a.time1Sec
  | time1Usec, a => .int a.time1Usec

def toUInt32 (z : ℤ) : ℕ := (z % 2 ^ 32).toNat

def read : Field → List Char → Args → Args
  | newpath, p, a => { a with newpath := p }
  | name, p, a => { a with name := p }
  | value, p, a => { a with value := p }
  | flags, p, a => { a with flags := atoi p }
  | accessMode, p, a => { a with accessMode := atoi p }
  | operation, p, a => { a with operation := atoi p }
  | offset, p, a => { a with offset := atoi p }
  | length, p, a => { a with length := atoi p }
  | fallocateMode, p, a => { a with fallocateMode := atoi p }
  | fallocateOffset, p, a => { a with fallocateOffset := atoi p }
  | fallocateLen, p, a => { a with fallocateLen := atoi p }
  | owner, p, a => { a with owner := toUInt32 (atoi p) }
  | group, p, a => { a with group := toUInt32 (atoi p) }
  | mode, p, a => { a with mode := toUInt32 (atoi p) }
  | time0Sec, p, a => { a with time0Sec := atoi p }
  | time0Usec, p, a => { a with time0Usec := atoi p }
  | time1Sec, p, a => { a with time1Sec := atoi p }
  | time1Usec, p, a => { a with time1Usec := atoi p }

theorem get_read_of_ne {f g : Field} (h : g ≠ f) (p : List Char) (a : Args) :
    g.get (f.read p a) = g.get a := by
  cases f <;> cases g <;> first | exact absurd rfl h | rfl

theorem atoi_print {z : ℤ} (h : InInt32 z) : atoi (printInt z) = z := by
  have hz := atoi_printInt h ends_nil
  rwa [List.append_nil] at hz

theorem toUInt32_natCast {n : ℕ} (h : InInt32 n) : toUInt32 n = n := by
  obtain ⟨h₁, h₂⟩ := h
  unfold toUInt32
  omega

theorem get_read_self (f : Field) (a b : Args) (h : (f.get a).Plain) :
    f.get (f.read (f.get a).print b) = f.get a := by
  cases f <;> simp only [get, Value.Plain] at h <;>
    simp only [get, read, Value.print, atoi_print, toUInt32_natCast, h]

end Field
end MyScripts.Shark
