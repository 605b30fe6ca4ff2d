import MyScripts.Library.Decimal
import MyScripts.Library.Segments
import Mathlib.Data.List.Infix

/-!
# Monitor data split by pid

Branch "a" of `memory_monitor.sh`: each data file is read once for its third
column, and where two successive pids differ the rows so far go to the file of
the earlier one. Files are lists of lines without their newlines, and the names
`ls` prints are single words.
-/
namespace MyScripts.MemoryMonitor
open MyScripts.Library.Decimal MyScripts.Library.Segments

abbrev Text := List Char

abbrev Folder := Text → Option (List Text)

/-- `sed -n "a,bp"`: line `a` alone where `b` does not come after it. -/
def sedLines (ls : List Text) (a b : ℕ) : List Text := (ls.drop (a - 1)).take (max a b - (a - 1))

def isBlank (c : Char) : Bool := c = ' ' || c = '\t' || c = '\n'

def thirdColumn (l : Text) : Text := (((l.splitOnP isBlank).filter (· ≠ []))[2]?).getD []

def hasPid (l : Text) : Bool := decide (['p', 'i', 'd'] <:+: l)

def pidArray (ls : List Text) : List Text :=
  ((ls.filter fun l => !hasPid l).map thirdColumn).filter (· ≠ [])

/-- An integer constant of bash, in 64 bits and with no check for overflow. `none` is a digit
outside the base; names and expressions are not evaluated. -/
def constant (w : Text) : Option (BitVec 64) :=
  if w.all Char.isDigit ∧ w ≠ [] then
    match w with
    | '0' :: ds =>
      if ds.all (· < '8') then some (BitVec.ofNat 64 (Nat.ofDigitChars 8 ds 0)) else none
    | ds => some (BitVec.ofNat 64 (Nat.ofDigitChars 10 ds 0))
  else none

/-- `(($j != $last_pid))`, false where the arithmetic fails. -/
def pidChanged (j last_pid : Text) : Bool :=
  match constant j, constant last_pid with
  | some a, some b => a ≠ b
  | _, _ => false

structure Analysis where
  analy_data : Folder
  abnormal : List Text
  flag : Bool
  n : ℕ
  data_start_line : ℕ
  line_1 : ℕ
  j : Text
  last_pid : Text

def outputName (pid i : Text) : Text := pid ++ '-' :: i

def warning (i : Text) (n m : ℕ) : Text :=
  "警告：".toList ++ i ++ "数据文件中第".toList ++ printNat n ++ "行的pid和第".toList ++ printNat m ++
    "行的pid发生变化！".toList

def writeRows (i : Text) (ls : List Text) (pid : Text) (last : ℕ) (s : Analysis) : Analysis :=
  { s with
    analy_data := append s.analy_data (outputName pid i)
      (sedLines ls 1 1 ++ sedLines ls s.data_start_line last) }

def changePid (i : Text) (ls : List Text) (s : Analysis) : Analysis :=
  let m := s.n + 1
  let l := s.n + 2
  let report := [warning i s.n m, []] ++ sedLines ls 1 1 ++ sedLines ls m m ++ sedLines ls l l ++
    [[], []]
  { writeRows i ls s.last_pid m s with
    abnormal := s.abnormal ++ report
    flag := true
    data_start_line := l }

def lastRow (i : Text) (ls : List Text) (s : Analysis) : Analysis :=
  if s.line_1 = ls.length then writeRows i ls s.j ls.length s else s

def nextPid (i : Text) (ls : List Text) (s : Analysis) (j : Text) : Analysis :=
  let s := { s with j := j }
  let s := if 0 < s.n ∧ pidChanged j s.last_pid then changePid i ls s else s
  let s := lastRow i ls s
  { s with last_pid := j, n := s.n + 1, line_1 := s.line_1 + 1 }

def copyWhole (i : Text) (ls : List Text) (s : Analysis) : Analysis :=
  if s.flag then s
  else { s with analy_data := fun x => if x = outputName s.j i then some ls else s.analy_data x }

def analyseFile (s : Analysis) (file : Text × List Text) : Analysis :=
  copyWhole file.1 file.2 ((pidArray file.2).foldl (nextPid file.1 file.2)
    { s with flag := false, n := 0, data_start_line := 2, line_1 := 2 })

def isDat (x : Text) : Bool := x.head? ≠ some '.' ∧ ['.', 'd', 'a', 't'] <:+ x

def analyse (files : List (Text × List Text)) (analy_data : Folder) : Analysis :=
  files.foldl analyseFile
    { analy_data := fun x => if isDat x then none else analy_data x
      abnormal := [], flag := false, n := 0, data_start_line := 2, line_1 := 2, j := [],
      last_pid := [] }

end MyScripts.MemoryMonitor
