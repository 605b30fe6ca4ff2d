import MyScripts.Library.Imperative
import MyScripts.Shark.FileOps

/-!
# System calls and the functions around them

What the executors do to the mounted file systems, they do through system calls.
The functions `open_*` and `operation_*` make one or a few calls each, and tell
by their result how it went: -1 for a failure, 0 for a success, and 1 where an
attribute was found. `*tmp_errno` is where they leave `errno`.
-/
namespace MyScripts.Shark.Executor
open Library.Imperative FileTable

inductive OpenFlags
  | rdonly
  | rdwr
  | create
  deriving DecidableEq, Repr

inductive XattrFlag
  | create
  | replace
  deriving DecidableEq, Repr

inductive Whence
  | set
  | toEnd
  deriving DecidableEq, Repr

structure Times where
  time0Sec : ℤ
  time0Usec : ℤ
  time1Sec : ℤ
  time1Usec : ℤ
  deriving DecidableEq, Repr

/-- The buffers of `pwritev`, `preadv` and `write` are constants of the source.
`readdirs` stands for the calls of `readdir` up to NULL. No executor calls `rmdir`. -/
inductive SysCall
  | stat (path : List Char)
  | lstat (path : List Char)
  | statvfs (path : List Char)
  | access (path : List Char) (mode : ℤ)
  | openPath (path : List Char) (flags : OpenFlags)
  | mkdir (path : List Char)
  | rmdir (path : List Char)
  | rename (path newpath : List Char)
  | symlink (path newpath : List Char)
  | link (path newpath : List Char)
  | unlink (path : List Char)
  | readlink (path : List Char)
  | truncate (path : List Char) (length : ℤ)
  | getxattr (path key : List Char)
  | setxattr (path key value : List Char) (flag : XattrFlag)
  | removexattr (path key : List Char)
  | chown (path : List Char) (owner group : ℕ)
  | chmod (path : List Char) (mode : ℕ)
  | utimes (path : List Char) (times : Times)
  | opendir (path : List Char)
  | readdirs (dir : ℤ)
  | closedir (dir : ℤ)
  | close (fd : ℤ)
  | fstat (fd : ℤ)
  | fsync (fd : ℤ)
  | pwritev (fd offset : ℤ)
  | preadv (fd offset : ℤ)
  | fallocate (fd mode offset len : ℤ)
  | ftruncate (fd length : ℤ)
  | lseek (fd : ℤ) (whence : Whence)
  | write (fd : ℤ)
  | flock (fd operation : ℤ)
  | fgetxattr (fd : ℤ) (key : List Char)
  | fsetxattr (fd : ℤ) (key value : List Char) (flag : XattrFlag)
  | fremovexattr (fd : ℤ) (key : List Char)
  | fchown (fd : ℤ) (owner group : ℕ)
  | fchmod (fd : ℤ) (mode : ℕ)
  | futimes (fd : ℤ) (times : Times)
  deriving DecidableEq, Repr

namespace SysCall

def isStatus : SysCall → Bool
  | openPath .. | readlink .. | getxattr .. | opendir .. | readdirs .. | pwritev .. | preadv ..
  | lseek .. | write .. | fgetxattr .. => false
  | _ => true

def isMild : SysCall → Bool
  | rename .. | unlink .. | rmdir .. => false
  | _ => true

def isStatvfs : SysCall → Bool
  | statvfs .. => true
  | _ => false

def isPlain (c : SysCall) : Bool := c.isMild && !c.isStatvfs

end SysCall

inductive Kind
  | reg
  | dir
  | lnk
  | other
  deriving DecidableEq, Repr

/-- The result of a call, `errno` after it, and `st_size` and `st_mode` of the buffer. A NULL
result is 0. -/
structure Reply where
  ret : ℤ
  errno : ℤ
  size : ℤ
  kind : Kind
  deriving DecidableEq, Repr

def enoent : ℤ := 2
def enoattr : ℤ := 61

/-- The call failed, and not because the name or the attribute it looks up is not there. -/
def SysCall.isRefused (c : SysCall) (r : Reply) : Bool :=
  r.ret < 0 &&
    match c with
    | stat .. | lstat .. => r.errno ≠ enoent
    | getxattr .. | fgetxattr .. => r.errno ≠ enoattr
    | _ => true

structure System (σ : Type) where
  call : SysCall → σ → Reply × σ
  status : ∀ c s, c.isStatus = true → (call c s).1.ret = 0 ∨ (call c s).1.ret = -1

structure World (σ : Type) where
  sys : σ
  errno : ℤ
  tmpErrno : ℤ
  table : Table
  calls : List SysCall
  refused : ℕ

def xattrKey : List Char := "user.key".toList
def xattrValue : List Char := "value".toList

variable {σ : Type} (sys : System σ)

def call (c : SysCall) : StateM (World σ) Reply := fun w =>
  ((sys.call c w.sys).1,
    { w with
      sys := (sys.call c w.sys).2
      errno := (sys.call c w.sys).1.errno
      calls := w.calls ++ [c]
      refused := w.refused + (c.isRefused (sys.call c w.sys).1).toNat })

def setTmpErrno (e : ℤ) : StateM (World σ) Unit := modify fun w => { w with tmpErrno := e }

def saveErrno : StateM (World σ) Unit := modify fun w => { w with tmpErrno := w.errno }

def error : StateM (World σ) ℤ := do
  saveErrno
  return -1

def openPwrite (fd offset : ℤ) : (sum : ℕ) → StateM (World σ) ℤ
  | 0 => return 0
  | sum + 1 => do
    let r ← call sys (.pwritev fd offset)
    if r.ret = -1 then error else openPwrite fd offset sum

def preadLoop (fd offset : ℤ) : (sum : ℕ) → StateM (World σ) ℤ
  | 0 => return 0
  | sum + 1 => do
    let r ← call sys (.preadv fd offset)
    if r.ret = -1 then error else preadLoop fd offset sum

def openPreadv (fd offset : ℤ) (sum : ℕ) : StateM (World σ) ℤ := do
  let buf ← call sys (.fstat fd)
  if buf.ret ≠ 0 then return -1
  else if buf.size < offset then
    let r ← call sys (.preadv fd 0)
    if r.ret = -1 then error
    else if r.ret = 0 then return 0
    else preadLoop sys fd offset sum
  else preadLoop sys fd offset sum

def checked (c : SysCall) : StateM (World σ) ℤ := do
  let r ← call sys c
  if r.ret = -1 then error else return 0

def checkedZero (c : SysCall) : StateM (World σ) ℤ := do
  let r ← call sys c
  if r.ret ≠ 0 then error else return 0

/-- The length of the op is not passed on. -/
def openFallocate (fd offset _len mode : ℤ) : StateM (World σ) ℤ := do
  let buf ← call sys (.fstat fd)
  if buf.ret = -1 then error else checked sys (.fallocate fd mode offset (512 * 1024))

/-- `if (0 == ret && 0 == file_size) ret = lseek (fd, 0, SEEK_SET);` -/
def rewind (fd fileSize : ℤ) (r : Reply) : StateM (World σ) Reply :=
  if r.ret = 0 ∧ fileSize = 0 then call sys (.lseek fd .set) else pure r

def openFtruncate (fd fileSize : ℤ) : StateM (World σ) ℤ := do
  let buf ← call sys (.fstat fd)
  if buf.ret = -1 then error
  else
    let r ← call sys (.ftruncate fd fileSize)
    if r.ret = -1 then error
    else
      let r ← rewind sys fd fileSize r
      if r.ret = 0 ∧ buf.size < fileSize then
        let _ ← call sys (.lseek fd .toEnd)
        let _ ← call sys (.write fd)
        return 0
      else return 0

def openSync (fd : ℤ) : StateM (World σ) ℤ := checked sys (.fsync fd)

/-- The size is kept in a `size_t`: -1 with an `errno` other than `ENOATTR` is a size above 0. -/
def hasAttribute (c : SysCall) : StateM (World σ) ℤ := do
  setTmpErrno 0
  let r ← call sys c
  saveErrno
  if r.ret = -1 ∧ r.errno = enoattr then return 0
  else if r.ret ≠ 0 then return 1
  else return -1

def openFgetxattr (fd : ℤ) : StateM (World σ) ℤ := hasAttribute sys (.fgetxattr fd xattrKey)

def openFsetxattr (fd : ℤ) : StateM (World σ) ℤ := do
  let ret ← openFgetxattr sys fd
  if ret = 1 then
    let r ← call sys (.fsetxattr fd xattrKey xattrValue .replace)
    saveErrno
    return r.ret
  else if ret = 0 then
    let r ← call sys (.fsetxattr fd xattrKey xattrValue .create)
    saveErrno
    return r.ret
  else
    saveErrno
    return ret

def openFremovexattr (fd : ℤ) : StateM (World σ) ℤ := do
  let ret ← openFgetxattr sys fd
  if ret = 1 then checked sys (.fremovexattr fd xattrKey)
  else if ret = -1 then error
  else return 0

def openFchown (fd : ℤ) (owner group : ℕ) : StateM (World σ) ℤ :=
  checked sys (.fchown fd owner group)

def openFchmod (fd : ℤ) (mode : ℕ) : StateM (World σ) ℤ := checked sys (.fchmod fd mode)

def openFutimes (fd : ℤ) (times : Times) : StateM (World σ) ℤ := checked sys (.futimes fd times)

def openFstat (fd : ℤ) : StateM (World σ) ℤ := checked sys (.fstat fd)

def makeLink (newname : List Char) (probe make : SysCall) : StateM (World σ) ℤ := do
  if newname.head? ≠ some '/' then return -1
  else
    let buf ← call sys probe
    if buf.ret = -1 then
      saveErrno
      if buf.errno = enoent then
        let r ← call sys make
        if r.ret = -1 then error
        else
          setTmpErrno 0
          return 0
      else return 0
    else return 0

def operationSymlink (srcname newname : List Char) : StateM (World σ) ℤ :=
  makeLink sys newname (.lstat newname) (.symlink srcname newname)

def operationLink (srcname newname : List Char) : StateM (World σ) ℤ :=
  makeLink sys newname (.stat newname) (.link srcname newname)

/-- Where the new name cannot be looked up for a reason other than `ENOENT`, the look-up's
result is returned. -/
def operationRename (name newname : List Char) : StateM (World σ) ℤ := do
  if newname.head? ≠ some '/' then return -1
  else
    let buf ← call sys (.stat newname)
    if buf.ret = -1 then
      saveErrno
      if buf.errno = enoent then
        let r ← call sys (.rename name newname)
        if r.ret = -1 then error
        else
          setTmpErrno 0
          return r.ret
      else return buf.ret
    else return buf.ret

def operationTruncate (path : List Char) (fileSize : ℤ) : StateM (World σ) ℤ :=
  checked sys (.truncate path fileSize)

def operationGetxattr (path : List Char) : StateM (World σ) ℤ :=
  hasAttribute sys (.getxattr path xattrKey)

def operationSetxattr (path : List Char) : StateM (World σ) ℤ := do
  let ret ← operationGetxattr sys path
  if ret = 1 then
    let r ← call sys (.setxattr path xattrKey xattrValue .replace)
    return r.ret
  else if ret = 0 then
    let r ← call sys (.setxattr path xattrKey xattrValue .create)
    return r.ret
  else return ret

def operationRemovexattr (path : List Char) : StateM (World σ) ℤ := do
  let ret ← operationGetxattr sys path
  if ret = 0 then return 0
  else if ret = -1 then error
  else checked sys (.removexattr path xattrKey)

def operationAccess (path : List Char) (mode : ℤ) : StateM (World σ) ℤ := do
  let r ← call sys (.access path mode)
  if r.ret = 0 then
    saveErrno
    return r.ret
  else return r.ret

def operationChown (path : List Char) (owner group : ℕ) : StateM (World σ) ℤ :=
  checked sys (.chown path owner group)

def operationChmod (path : List Char) (mode : ℕ) : StateM (World σ) ℤ :=
  checked sys (.chmod path mode)

def operationUtimes (path : List Char) (times : Times) : StateM (World σ) ℤ :=
  checked sys (.utimes path times)

def operationStat (path : List Char) : StateM (World σ) ℤ := checkedZero sys (.stat path)

def operationStatfs (path : List Char) : StateM (World σ) ℤ := checkedZero sys (.statvfs path)

def operationUnlink (path : List Char) : StateM (World σ) ℤ := checkedZero sys (.unlink path)

def operationReadlink (path : List Char) : StateM (World σ) ℤ := checked sys (.readlink path)

/-- Every directory has at least the entries "." and "..". -/
def dircReaddir (path : List Char) : StateM (World σ) ℤ := do
  let dir ← call sys (.opendir path)
  if dir.ret = 0 then error
  else
    let num ← call sys (.readdirs dir.ret)
    let _ ← call sys (.closedir dir.ret)
    if 2 ≤ num.ret then return 0 else error

/-- What the calls of class `Q` and the assignments to `tmp_errno` keep: the functions above
do nothing else to the world. -/
def Allowed (Q : SysCall → Bool) (I : World σ → Prop) : Prop :=
  (∀ c, Q c = true → Keeps I (call sys c)) ∧ ∀ w e, I w → I { w with tmpErrno := e }

abbrev Makes {α : Type} (Q : SysCall → Bool) (P : α → Prop) (m : StateM (World σ) α) : Prop :=
  Confined (Allowed sys Q) P m

def Outcome (r : ℤ) : Prop := r = -1 ∨ r = 0 ∨ r = 1

variable {sys} {Q : SysCall → Bool} {c : SysCall}

theorem makes_call (h : Q c = true) :
    Makes sys Q (fun r => c.isStatus = true → Outcome r.ret) (call sys c) where
  keeps := fun _ hI => hI.1 c h
  gives := by
    intro w hc
    rcases sys.status c w.sys hc with h | h
    · exact Or.inr (Or.inl h)
    · exact Or.inl h

theorem makes_saveErrno : Makes sys Q (fun _ => True) (saveErrno : StateM (World σ) Unit) where
  keeps := fun _ hI w hw => hI.2 w w.errno hw
  gives := fun _ => trivial

theorem makes_setTmpErrno (e : ℤ) :
    Makes sys Q (fun _ => True) (setTmpErrno e : StateM (World σ) Unit) where
  keeps := fun _ hI w hw => hI.2 w e hw
  gives := fun _ => trivial

theorem makes_return {r : ℤ} (h : Outcome r) : Makes sys Q Outcome (pure r) := Confined.pure h

theorem makes_error : Makes sys Q Outcome (error : StateM (World σ) ℤ) :=
  makes_saveErrno.bind fun _ _ => makes_return (Or.inl rfl)

theorem makes_raw (h : Q c = true) (hs : c.isStatus = true) :
    Makes sys Q Outcome (do let r ← call sys c; return r.ret) :=
  (makes_call h).bind fun _ hr => makes_return (hr hs)

theorem makes_raw_save (h : Q c = true) (hs : c.isStatus = true) :
    Makes sys Q Outcome (do let r ← call sys c; saveErrno; return r.ret) :=
  (makes_call h).bind fun _ hr => makes_saveErrno.bind fun _ _ => makes_return (hr hs)

theorem makes_checked (h : Q c = true) : Makes sys Q Outcome (checked sys c) := by
  apply (makes_call h).bind
  intro r _
  apply Confined.ite
  · exact fun _ => makes_error
  · exact fun _ => makes_return (Or.inr (Or.inl rfl))

theorem makes_checkedZero (h : Q c = true) : Makes sys Q Outcome (checkedZero sys c) := by
  apply (makes_call h).bind
  intro r _
  apply Confined.ite
  · exact fun _ => makes_error
  · exact fun _ => makes_return (Or.inr (Or.inl rfl))

theorem makes_hasAttribute (h : Q c = true) : Makes sys Q Outcome (hasAttribute sys c) := by
  apply (makes_setTmpErrno 0).bind
  intro _ _
  apply (makes_call h).bind
  intro r _
  apply makes_saveErrno.bind
  intro _ _
  apply Confined.ite
  · exact fun _ => makes_return (Or.inr (Or.inl rfl))
  · intro _
    apply Confined.ite
    · exact fun _ => makes_return (Or.inr (Or.inr rfl))
    · exact fun _ => makes_return (Or.inl rfl)

theorem makes_openPwrite (fd offset : ℤ) (sum : ℕ) (h : Q (.pwritev fd offset) = true) :
    Makes sys Q Outcome (openPwrite sys fd offset sum) := by
  induction sum with
  | zero => exact makes_return (Or.inr (Or.inl rfl))
  | succ sum ih =>
    apply (makes_call h).bind
    intro r _
    apply Confined.ite
    · exact fun _ => makes_error
    · exact fun _ => ih

theorem makes_preadLoop (fd offset : ℤ) (sum : ℕ) (h : Q (.preadv fd offset) = true) :
    Makes sys Q Outcome (preadLoop sys fd offset sum) := by
  induction sum with
  | zero => exact makes_return (Or.inr (Or.inl rfl))
  | succ sum ih =>
    apply (makes_call h).bind
    intro r _
    apply Confined.ite
    · exact fun _ => makes_error
    · exact fun _ => ih

theorem makes_openPreadv (fd offset : ℤ) (sum : ℕ) :
    Makes sys SysCall.isPlain Outcome (openPreadv sys fd offset sum) := by
  have hloop : Makes sys SysCall.isPlain Outcome (preadLoop sys fd offset sum) :=
    makes_preadLoop fd offset sum rfl
  apply (makes_call rfl).bind
  intro buf _
  apply Confined.ite
  · exact fun _ => makes_return (Or.inl rfl)
  · intro _
    apply Confined.ite
    · intro _
      apply (makes_call rfl).bind
      intro r _
      apply Confined.ite
      · exact fun _ => makes_error
      · intro _
        apply Confined.ite
        · exact fun _ => makes_return (Or.inr (Or.inl rfl))
        · exact fun _ => hloop
    · exact fun _ => hloop

theorem makes_openFallocate (fd offset len mode : ℤ) :
    Makes sys SysCall.isPlain Outcome (openFallocate sys fd offset len mode) := by
  apply (makes_call rfl).bind
  intro buf _
  apply Confined.ite
  · exact fun _ => makes_error
  · exact fun _ => makes_checked rfl

theorem makes_rewind (fd fileSize : ℤ) (r : Reply) :
    Makes sys SysCall.isPlain (fun _ => True) (rewind sys fd fileSize r) := by
  apply Confined.ite
  · exact fun _ => (makes_call rfl).mono fun _ _ => trivial
  · exact fun _ => Confined.pure trivial

theorem makes_openFtruncate (fd fileSize : ℤ) :
    Makes sys SysCall.isPlain Outcome (openFtruncate sys fd fileSize) := by
  have hzero : Makes sys SysCall.isPlain Outcome (pure 0) := makes_return (Or.inr (Or.inl rfl))
  apply (makes_call rfl).bind
  intro buf _
  apply Confined.ite
  · exact fun _ => makes_error
  · intro _
    apply (makes_call rfl).bind
    intro r _
    apply Confined.ite
    · exact fun _ => makes_error
    · intro _
      apply (makes_rewind fd fileSize r).bind
      intro r' _
      apply Confined.ite
      · intro _
        apply (makes_call rfl).bind
        intro _ _
        apply (makes_call rfl).bind
        exact fun _ _ => hzero
      · exact fun _ => hzero

theorem makes_openFgetxattr (fd : ℤ) :
    Makes sys SysCall.isPlain Outcome (openFgetxattr sys fd) := makes_hasAttribute rfl

theorem makes_openFsetxattr (fd : ℤ) :
    Makes sys SysCall.isPlain Outcome (openFsetxattr sys fd) := by
  apply (makes_openFgetxattr fd).bind
  intro ret hret
  apply Confined.ite
  · exact fun _ => makes_raw_save rfl rfl
  · intro _
    apply Confined.ite
    · exact fun _ => makes_raw_save rfl rfl
    · exact fun _ => makes_saveErrno.bind fun _ _ => makes_return hret

theorem makes_openFremovexattr (fd : ℤ) :
    Makes sys SysCall.isPlain Outcome (openFremovexattr sys fd) := by
  apply (makes_openFgetxattr fd).bind
  intro ret _
  apply Confined.ite
  · exact fun _ => makes_checked rfl
  · intro _
    apply Confined.ite
    · exact fun _ => makes_error
    · exact fun _ => makes_return (Or.inr (Or.inl rfl))

theorem makes_makeLink {probe make : SysCall} (newname : List Char) (hprobe : Q probe = true)
    (hmake : Q make = true) : Makes sys Q Outcome (makeLink sys newname probe make) := by
  have hzero : Makes sys Q Outcome (pure 0) := makes_return (Or.inr (Or.inl rfl))
  apply Confined.ite
  · exact fun _ => makes_return (Or.inl rfl)
  · intro _
    apply (makes_call hprobe).bind
    intro buf _
    apply Confined.ite
    · intro _
      apply makes_saveErrno.bind
      intro _ _
      apply Confined.ite
      · intro _
        apply (makes_call hmake).bind
        intro r _
        apply Confined.ite
        · exact fun _ => makes_error
        · exact fun _ => (makes_setTmpErrno 0).bind fun _ _ => hzero
      · exact fun _ => hzero
    · exact fun _ => hzero

theorem makes_operationRename (name newname : List Char) :
    Makes sys (fun c => !c.isStatvfs) Outcome (operationRename sys name newname) := by
  apply Confined.ite
  · exact fun _ => makes_return (Or.inl rfl)
  · intro _
    apply (makes_call rfl).bind
    intro buf hbuf
    apply Confined.ite
    · intro _
      apply makes_saveErrno.bind
      intro _ _
      apply Confined.ite
      · intro _
        apply (makes_call rfl).bind
        intro r hr
        apply Confined.ite
        · exact fun _ => makes_error
        · exact fun _ => (makes_setTmpErrno 0).bind fun _ _ => makes_return (hr rfl)
      · exact fun _ => makes_return (hbuf rfl)
    · exact fun _ => makes_return (hbuf rfl)

theorem makes_operationGetxattr (path : List Char) :
    Makes sys SysCall.isPlain Outcome (operationGetxattr sys path) := makes_hasAttribute rfl

theorem makes_operationSetxattr (path : List Char) :
    Makes sys SysCall.isPlain Outcome (operationSetxattr sys path) := by
  apply (makes_operationGetxattr path).bind
  intro ret hret
  apply Confined.ite
  · exact fun _ => makes_raw rfl rfl
  · intro _
    apply Confined.ite
    · exact fun _ => makes_raw rfl rfl
    · exact fun _ => makes_return hret

theorem makes_operationRemovexattr (path : List Char) :
    Makes sys SysCall.isPlain Outcome (operationRemovexattr sys path) := by
  apply (makes_operationGetxattr path).bind
  intro ret _
  apply Confined.ite
  · exact fun _ => makes_return (Or.inr (Or.inl rfl))
  · intro _
    apply Confined.ite
    · exact fun _ => makes_error
    · exact fun _ => makes_checked rfl

theorem makes_operationAccess (path : List Char) (mode : ℤ) :
    Makes sys SysCall.isPlain Outcome (operationAccess sys path mode) := by
  apply (makes_call rfl).bind
  intro r hr
  apply Confined.ite
  · exact fun _ => makes_saveErrno.bind fun _ _ => makes_return (hr rfl)
  · exact fun _ => makes_return (hr rfl)

theorem makes_dircReaddir (path : List Char) :
    Makes sys SysCall.isPlain Outcome (dircReaddir sys path) := by
  apply (makes_call rfl).bind
  intro dir _
  apply Confined.ite
  · exact fun _ => makes_error
  · intro _
    apply (makes_call rfl).bind
    intro num _
    apply (makes_call rfl).bind
    intro _ _
    apply Confined.ite
    · exact fun _ => makes_return (Or.inr (Or.inl rfl))
    · exact fun _ => makes_error

end MyScripts.Shark.Executor
