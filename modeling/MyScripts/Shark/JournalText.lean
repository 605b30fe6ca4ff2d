import MyScripts.Shark.JournalRecord

/-!
# The journal's text

`thread_writev` writes a header line for each op list of a group, the list's
operation lines and a line of stars, and after the last list a line of hashes.
`analyze_string_read` reads one group from a reader's offset, one line ahead of
the list it is building.
-/
namespace MyScripts.Shark.Journal
open Library.Decimal Library.Tokens

abbrev CInt := {z : ℤ // InInt32 z}

def smallInt (n : ℕ) : CInt := ⟨(n % 10 : ℕ), by unfold InInt32; omega⟩

abbrev Word := {s : List Char // ' ' ∉ s ∧ '\n' ∉ s}

structure WordOp extends FileOp where
  newpath_word : ' ' ∉ args.newpath ∧ '\n' ∉ args.newpath
  name_word : ' ' ∉ args.name ∧ '\n' ∉ args.name
  value_word : ' ' ∉ args.value ∧ '\n' ∉ args.value

structure OpList where
  path : Word
  fileType : CInt
  isNew : CInt
  opType : CInt
  opsIndex : CInt
  ops : List WordOp

structure Group where
  lists : List OpList
  opsgroupsIndex : CInt
  nonempty : lists ≠ []

def OpList.needOpen (l : OpList) : ℤ :=
  if l.opType = (OpType.openedDir.code : ℤ) ∨ l.opType = (OpType.openedFile.code : ℤ) then 1 else 0

def headerText (path : List Char) (needOpen fileType isNew opType : ℤ) : List Char :=
  "path=".toList ++ path ++ " need_open=".toList ++ printInt needOpen ++
    " file_type=".toList ++ printInt fileType ++ " is_new=".toList ++ printInt isNew ++
    " op_type=".toList ++ printInt opType ++ ['\n']

def OpList.header (l : OpList) : List Char :=
  headerText l.path l.needOpen l.fileType l.isNew l.opType

def listString (n : ℤ) : List Char :=
  "*************************op_list_num=".toList ++ printInt n ++
    " *************************\n".toList

def groupString (n : ℤ) : List Char :=
  "#########################group_num=".toList ++ printInt n ++
    " #########################\n".toList

def OpList.opLines (l : OpList) (group : ℤ) : List (List Char) :=
  l.ops.filterMap fun op => emitted l.opType ⟨group, l.opsIndex, op.opIndex⟩ op.toFileOp

def OpList.lines (l : OpList) (group : ℤ) : List (List Char) :=
  l.header :: (l.opLines group ++ [listString l.opsIndex])

def Group.lines (g : Group) : List (List Char) :=
  g.lists.flatMap (·.lines g.opsgroupsIndex) ++ [groupString g.opsgroupsIndex]

def Group.text (g : Group) : List Char := g.lines.flatten

def text (gs : List Group) : List Char := gs.flatMap Group.text

def writeOps (cls group list : ℤ) : List WordOp → Option (List Char)
  | [] => some []
  | op :: ops =>
    (analyzeStringWrite cls ⟨group, list, op.opIndex⟩ op.toFileOp).bind fun line =>
      (writeOps cls group list ops).map (line ++ ·)

def writeList (group : ℤ) (l : OpList) : Option (List Char) :=
  (sprintf 4096 l.header).bind fun header =>
    (writeOps l.opType group l.opsIndex l.ops).bind fun ops =>
      (sprintf 128 (listString l.opsIndex)).map fun last => header ++ ops ++ last

def writeLists (group : ℤ) : List OpList → Option (List Char)
  | [] => some []
  | l :: ls => (writeList group l).bind fun s => (writeLists group ls).map (s ++ ·)

def writeGroup (g : Group) : Option (List Char) :=
  (writeLists g.opsgroupsIndex g.lists).bind fun s =>
    (sprintf 128 (groupString g.opsgroupsIndex)).map (s ++ ·)

def writeGroups : List Group → Option (List Char)
  | [] => some []
  | g :: gs => (writeGroup g).bind fun s => (writeGroups gs).map (s ++ ·)

structure JournalOpList where
  path : List Char
  isNeedOpen : ℤ
  fileType : ℤ
  isNew : ℤ
  opType : ℤ
  opsIndex : ℤ
  opListType : Pool
  ops : List FileOp
  deriving DecidableEq, Repr

structure JournalGroup where
  opsgroupsIndex : ℤ
  lists : List JournalOpList
  deriving DecidableEq, Repr

structure Reader where
  offset : ℤ
  groupNum : ℤ
  deriving DecidableEq, Repr

def Reader.init : Reader := ⟨0, 0⟩

def headerSets : List (JournalOpList → ℤ → JournalOpList) :=
  [fun l z => { l with isNeedOpen := z }, fun l z => { l with fileType := z },
    fun l z => { l with isNew := z }, fun l z => { l with opType := z }]

def cutHeader : List (JournalOpList → ℤ → JournalOpList) → List Char → JournalOpList →
    Option JournalOpList
  | [], _, l => some l
  | set :: sets, s, l =>
    match strtok ' ' s with
    | none => some l
    | some tok => (after '=' tok.1).bind fun p => cutHeader sets tok.2 (set l (atoi p))

def readHeader (type : Pool) (opListNum : ℕ) (line : List Char) : Option JournalOpList :=
  (strtok ' ' line).bind fun tok =>
    (after '=' tok.1).bind fun p => cutHeader headerSets tok.2 ⟨p, 0, 0, 0, 0, opListNum, type, []⟩

def stars : List Char := "**********".toList
def hashes : List Char := "##########".toList

/-- The inner loop: the lists finished so far, the list being read, the number
of its operations and the number of the list. The result has the lists of the
group and the characters read; `none` is a null pointer dereferenced. -/
def readOps (type : Pool) (done : List JournalOpList) (cur : JournalOpList) (opNum opListNum : ℕ) :
    List (List Char) → Option (List JournalOpList × ℕ)
  | [] => some (done, 0)
  | line :: rest =>
    if line.take 10 = stars then
      match rest with
      | [] => some (done ++ [cur], line.length)
      | next :: rest =>
        if next.take 10 = hashes then some (done ++ [cur], line.length + next.length)
        else
          (readHeader type (opListNum + 1) next).bind fun cur' =>
            (readOps type (done ++ [cur]) cur' 0 (opListNum + 1) rest).map fun r =>
              (r.1, line.length + (next.length + r.2))
    else
      (cutStringOperation FileOp.zero line cur.opType).bind fun op =>
        (readOps type done { cur with ops := cur.ops ++ [{ op with opIndex := opNum }] }
          (opNum + 1) opListNum rest).map fun r => (r.1, line.length + r.2)

/-- `fseek` to a negative offset fails and leaves the stream at its start. -/
def seek (offset : ℤ) : ℕ := offset.toNat

/-- The outer option is a null pointer dereferenced, the inner one the result.
The offset is an `int`: each line's length is added with wrap-around. -/
def analyzeStringRead (type : Pool) (journal : List Char) (r : Reader) :
    Option (Option JournalGroup × Reader) :=
  match lines (journal.drop (seek r.offset)) with
  | [] => some (none, r)
  | line :: rest =>
    (readHeader type 0 line).bind fun cur =>
      (readOps type [] cur 0 0 rest).map fun k =>
        (some ⟨r.groupNum, k.1⟩, ⟨toInt32 (r.offset + (line.length + k.2)), r.groupNum + 1⟩)

end MyScripts.Shark.Journal
