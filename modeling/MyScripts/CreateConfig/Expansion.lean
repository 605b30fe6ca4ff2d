import MyScripts.CreateConfig.DiskPool
import Mathlib.Data.List.Sort

/-!
# Expansion of the schemes

The script takes free disks of new nodes for each scheme: for the new groups of
a combination, and for the disks that an existing array gains.
-/
namespace MyScripts.CreateConfig
open Library.Decimal Library.SumOfProducts Library.Exceptions

abbrev Arrays := AList fun _ : List Char => List ℕ

/-- `[anm[0],anm[1],bnm[0],bnm[1],count]` -/
structure Move where
  n : ℕ
  m : ℕ
  tn : ℕ
  tm : ℕ
  count : ℕ
  deriving DecidableEq, Repr

def Move.gap (item : Move) : ℤ := (item.tn + item.tm : ℕ) - (item.n + item.m : ℕ)

def eckey (item : Move) : List Char :=
  [','].intercalate ([item.n, item.m, item.tn, item.tm, item.count].map printNat)

def int (s : List Char) : Taking ℕ :=
  match readNat s with
  | some v => pure v
  | none => throw .valueError

def splitDigits : List Char → List Char × List (List Char × List Char)
  | [] => ([], [])
  | c :: s =>
    if c.isDigit then
      match splitDigits s with
      | ([], (ds, t) :: pieces) => ([], (c :: ds, t) :: pieces)
      | (t, pieces) => ([], ([c], t) :: pieces)
    else (c :: (splitDigits s).1, (splitDigits s).2)

def codes (s : List Char) : List ℕ := s.map Char.toNat

def embeddedNumbers (s : List Char) : List (List ℕ) :=
  let (t, pieces) := splitDigits s
  codes t :: pieces.flatMap fun (ds, t) => [[Nat.ofDigitChars 10 ds 0], codes t]

def sortNodes (nodes : List Node) : List Node :=
  nodes.insertionSort fun a b => embeddedNumbers b ≤ embeddedNumbers a

def sortedArrays (ecbrickinfos : Arrays) : List (List Char) :=
  ecbrickinfos.keys.insertionSort fun a b => codes a ≤ codes b

def takeAt : List Node × List Disk → ℕ → Taking (List Node × List Disk)
  | (nodes, newec), k => do
    let node ← item nodes k
    let disk ← takeDisk node
    let nodes' := if node ∈ (← get).pool then nodes else nodes.erase node
    return (nodes', newec ++ [disk])

def takeDisks (count : ℤ) : Taking (List Disk) := do
  let nodes := sortNodes (← get).pool.keys
  let (_, newec) ← (downTo (count - 1)).foldlM takeAt (nodes, [])
  return newec

/-- `eccount` is unbound when the loop over `usednodediskinfos` has not set it. -/
def createArray (eccount : Option ℕ) (tt : ℕ) : Taking Unit := do
  let newec ← takeDisks tt
  match eccount with
  | some eccount => addCreated eccount newec
  | none => throw .nameError

def Stock.extend (s : Stock) (eckey ecnum : List Char) (newec : List Disk) : Stock :=
  { s with
    extended := s.extended.insert eckey (((s.extended.lookup eckey).getD ∅).insert ecnum newec) }

def Arrays.size (ecbrickinfos : Arrays) (ecnum : List Char) : ℕ :=
  ((ecbrickinfos.lookup ecnum).getD []).length

def extendArray (ecbrickinfos : Arrays) (item : Move) (i : ℕ) (ecnum : List Char) :
    Taking (Flow ℕ) := do
  if i = item.count then return .done
  else if ecbrickinfos.size ecnum = item.n + item.m then
    let newec ← takeDisks item.gap
    modify fun s => s.extend (eckey item) ecnum newec
    return .next (i + 1)
  else return .next i

def extendArrays (ecbrickinfos : Arrays) (item : Move) : Taking Unit := do
  let _ ← loop (extendArray ecbrickinfos item) 0 (sortedArrays ecbrickinfos)

def countOf (gscheme : List Char) : Taking ℕ := do int (← item (gscheme.splitOn '*') 1)

def newItem (nmlist : List Combination) (scheme : List Combination) :
    List Char × ℕ → Taking (List Combination)
  | (gscheme, i) => do
    let count ← countOf gscheme
    if 0 < count then
      let nm ← item nmlist i
      return scheme ++ [⟨nm.n, nm.m, count⟩]
    else return scheme

def newItems (nmlist : List Combination) (tschemelist : List (List Char)) :
    Taking (List Combination) :=
  tschemelist.zipIdx.foldlM (newItem nmlist) []

def gapItem (nmlist : List Combination) (scheme : List Move) :
    List Char × ℕ → Taking (List Move)
  | (gscheme, i) => do
    let count ← countOf gscheme
    if 0 < count then
      let gap ← item (gaplist nmlist) i
      let anm ← item nmlist gap.source
      let bnm ← item nmlist gap.target
      return scheme ++ [⟨anm.n, anm.m, bnm.n, bnm.m, count⟩]
    else return scheme

def gapItems (nmlist : List Combination) (tschemelist : List (List Char)) : Taking (List Move) :=
  tschemelist.zipIdx.foldlM (gapItem nmlist) []

/-- The loop runs over a number of groups, not over its range. -/
def expandNew (nmlist : List Combination) (schemestr : List Char) : Taking Unit := do
  let scheme ← if schemestr = [] then pure [] else newItems nmlist (schemestr.splitOn '+')
  scheme.forM fun _ => throw .typeError

def expandGap (nmlist : List Combination) (ecbrickinfos : Arrays) (schemestr : List Char) :
    Taking Unit := do
  let scheme ← gapItems nmlist (schemestr.splitOn '+')
  scheme.forM (extendArrays ecbrickinfos)

def moveItem (tscheme : List (List Char)) : Taking Move := do
  let n ← int (← item tscheme 0)
  let m ← int (← item tscheme 1)
  let gap ← int (← item tscheme 3)
  let count ← int (← item tscheme 2)
  return ⟨n, m, n + gap, m, count⟩

def expandMove (eccount : Option ℕ) (nmlist : List Combination) (ecbrickinfos : Arrays)
    (schemestr : List Char) : Taking Unit := do
  if schemestr = [] then pure ()
  else
    let tschemelist := schemestr.splitOn '+'
    let items ← newItems nmlist tschemelist.dropLast
    let last ← item tschemelist (tschemelist.length - 1)
    let move ← moveItem (last.splitOn '*')
    items.forM fun item => (List.range item.count).forM fun _ =>
      createArray eccount (item.n + item.m)
    extendArrays ecbrickinfos move

def expand (eccount : Option ℕ) (nmlist : List Combination) (ecbrickinfos : Arrays) :
    Scheme → Taking Unit
  | (0, schemestr) => expandNew nmlist schemestr
  | (1, schemestr) => expandGap nmlist ecbrickinfos schemestr
  | (5, schemestr) => expandMove eccount nmlist ecbrickinfos schemestr
  | _ => pure ()

def Pool.disknum (pool : Pool) : ℕ := ((pool.entries.map fun e => e.2.length).min?).getD 0

def planned (nmlist : List Combination) (nn disknum : ℕ) : Taking (List Scheme) :=
  match (plan nmlist nn disknum).run globals with
  | .ok _ g => pure g.schemelist
  | .error e _ => throw e

def extendService (eccount : Option ℕ) (nmlist : List Combination) (ecbrickinfos : Arrays) :
    Taking Unit := do
  let pool := (← get).pool
  let schemelist ← planned nmlist pool.keys.length pool.disknum
  schemelist.forM (expand eccount nmlist ecbrickinfos)

end MyScripts.CreateConfig
