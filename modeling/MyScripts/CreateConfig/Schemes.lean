import MyScripts.Library.Exceptions
import MyScripts.Library.SumOfProducts

/-!
# The schemes of an extension

The script that plans the extension of a service searches for schemes: new
groups of the existing combinations (`combnm`), groups moved from one existing
combination to another (`combnmgap`), and new groups with one combination moved
to a new one (`combnmnm`). A scheme is a number for its kind and a text, such as
`3*2+4*0`, which the searches extend and evaluate again and again.
-/
namespace MyScripts.CreateConfig
open Library.Decimal Library.SumOfProducts Library.Exceptions

def maxn : ℕ := 16

def maxnm : ℕ := 2

inductive PyError
  | attributeError
  | indexError
  | keyError
  | nameError
  | syntaxError
  | typeError
  | valueError
  | zeroDivisionError
  deriving DecidableEq, Repr

structure Combination where
  n : ℕ
  m : ℕ
  count : ℕ
  deriving DecidableEq, Repr

abbrev Scheme := ℕ × List Char

/-- A Python list, or a Python set. -/
inductive Collection
  | list (items : List ℕ)
  | set (items : List ℕ)
  deriving DecidableEq, Repr

def Collection.items : Collection → List ℕ
  | .list items => items
  | .set items => items

structure Globals where
  schemelist : List Scheme
  itemchange : Collection
  deriving DecidableEq, Repr

abbrev Py := EStateM PyError Globals

def append (s : Scheme) : Py Unit := modify fun g => { g with schemelist := g.schemelist ++ [s] }

/-- `itemchange.add(tindex)`, which a list does not have. -/
def addItemchange (tindex : ℕ) : Py Unit := do
  match (← get).itemchange with
  | .list _ => throw .attributeError
  | .set items => modify fun g => { g with itemchange := .set (items.insert tindex) }

def evaluate (s : List Char) : Py ℕ :=
  match eval s with
  | some v => pure v
  | none => throw .syntaxError

/-- `none` for an empty text, which the tests before `eval` take for false. -/
def evaluateNonempty (s : List Char) : Py (Option ℕ) :=
  if s = [] then pure none else some <$> evaluate s

def item {σ α : Type} (l : List α) (i : ℕ) : EStateM PyError σ α :=
  match l[i]? with
  | some x => pure x
  | none => throw .indexError

def extend (c : List Char) (a i : ℕ) : List Char :=
  if c = [] then printNat a ++ '*' :: printNat i else c ++ '+' :: printNat a ++ '*' :: printNat i

def downTo (b : ℤ) : List ℕ := (List.range (b + 1).toNat).reverse

/-- One round of the loop of `combnm`; `rest` is the call for the rest of the combinations. -/
def combnmRound (minnm nn : ℕ) (rest : List Char → Py Unit) (a : ℕ) (c : List Char) (i : ℕ) :
    Py (Flow Unit) := do
  let c1 := extend c a i
  let total ← evaluate c1
  if c1 ≠ [] ∧ 0 < total ∧ (nn : ℤ) - total < minnm then
    append (0, c1)
    return .done
  rest c1
  return .next ()

def combnm (minnm nn flag : ℕ) : List ℕ → List ℕ → List Char → Py Unit
  | [], _, _ => pure ()
  | a :: as, b, c => do
    let b0 ← item b 0
    let rangelist := if flag = 2 then List.range (b0 + 1) else downTo b0
    let _ ← loop (fun _ => combnmRound minnm nn (combnm minnm nn flag as b.tail) a c) () rangelist

/-- Groups of `source` become groups of `target`, which has `gap` nodes more. -/
structure Gap where
  source : ℕ
  target : ℕ
  gap : ℕ
  deriving DecidableEq, Repr

def pairs (n : ℕ) : List (ℕ × ℕ) :=
  (List.range n).flatMap fun o => (List.range' (o + 1) (n - (o + 1))).map (o, ·)

def nOf (d : List Combination) (i : ℕ) : ℤ := (d.getD i ⟨0, 0, 0⟩).n

def gaplist (d : List Combination) : List Gap :=
  (pairs d.length).map fun (i, j) =>
    let gap := nOf d i - nOf d j
    if 0 < gap then ⟨j, i, gap.toNat⟩ else ⟨i, j, gap.natAbs⟩

def aglist (d : List Combination) : List ℤ :=
  (gaplist d).map fun gap => (d.getD gap.source ⟨0, 0, 0⟩).count

def subtract (b1 : List ℤ) (x i : ℕ) : Py (List ℤ) := do
  let v ← item b1 x
  return b1.set x (v - i)

def reduceStep (d : List Combination) (tindex aindex i : ℕ) (b1 : List ℤ) :
    (ℕ × ℕ) × ℕ → Py (List ℤ)
  | ((o, p), gindex) =>
    if tindex ≤ gindex then
      let gap := nOf d o - nOf d p
      if 0 < gap then
        if p = aindex then subtract b1 (gindex - tindex + 1) i else pure b1
      else if o = aindex then subtract b1 (gindex - tindex + 1) i
      else pure b1
    else pure b1

def reduce (d : List Combination) (tindex aindex i : ℕ) (b : List ℤ) : Py (List ℤ) :=
  if 0 < i then (pairs d.length).zipIdx.foldlM (reduceStep d tindex aindex i) b else pure b

def combnmgapRound (d : List Combination) (e : List Gap) (nn : ℕ)
    (rest : List ℤ → List Char → Py Unit) (a : ℕ) (b : List ℤ) (c : List Char) (i : ℕ) :
    Py (Flow Unit) := do
  if (← evaluateNonempty c) = some nn then
    append (1, c)
    return .done
  let c1 := extend c a i
  let tindex := (c1.splitOn '+').length
  let pair ← item e (tindex - 1)
  let b1 ← reduce d tindex pair.source i b
  rest b1.tail c1
  return .next ()

def combnmgap (d : List Combination) (e : List Gap) (nn : ℕ) :
    List ℕ → List ℤ → List Char → Py Unit
  | [], _, _ => pure ()
  | a :: as, b, c => do
    let b0 ← item b 0
    let _ ← loop (fun _ => combnmgapRound d e nn (combnmgap d e nn as) a b c) () (downTo b0)

def digits (s : List Char) : Option (ℕ × List Char) :=
  (scanNat s).map fun v => (v, s.dropWhile Char.isDigit)

def starDigits : List Char → Option (ℕ × List Char)
  | '*' :: s => digits s
  | _ => none

structure Match where
  g1 : ℕ
  g2 : ℕ
  g3 : ℕ
  g4 : ℕ
  rest : List Char
  deriving DecidableEq, Repr

def fourFactors (s : List Char) : Option Match := do
  let (g1, s) ← digits s
  let (g2, s) ← starDigits s
  let (g3, s) ← starDigits s
  let (g4, s) ← starDigits s
  return ⟨g1, g2, g3, g4, s⟩

/-- `\+?(\d+)\*(\d+)\*(\d+)\*(\d+)` at the beginning of the text. -/
def moveTerm : List Char → Option Match
  | '+' :: s => fourFactors s
  | s => fourFactors s

def search : List Char → Option Match
  | [] => none
  | c :: s =>
    match moveTerm (c :: s) with
    | some dm => some dm
    | none => search s

def remove : (skip : ℕ) → List Char → List Char
  | _, [] => []
  | skip + 1, _ :: s => remove skip s
  | 0, c :: s =>
    match moveTerm (c :: s) with
    | some dm => remove (s.length - dm.rest.length) s
    | none => c :: remove 0 s

def combnmnmexit (nn : ℕ) (schemestr : List Char) : Py Bool :=
  match search schemestr with
  | none => pure false
  | some dm => do
    let tschemestr := remove 0 schemestr
    let total ← evaluateNonempty tschemestr
    return total.getD 0 + dm.g3 * dm.g4 = nn

def index (d : List Combination) (a : Combination) : Py ℕ :=
  match d.idxOf? a with
  | some i => pure i
  | none => throw .valueError

def tryMove (nn : ℕ) (a : Combination) (j tg : ℕ) (c1 : List Char) : Py (Flow (List Char)) := do
  let c1 := c1 ++ '+' :: product [a.n, a.m, j, tg]
  if ← combnmnmexit nn c1 then
    append (5, c1)
    return .done
  return .next c1

def moveGroups (d : List Combination) (nn tnn : ℕ) (a : Combination) (c1 : List Char) :
    Py (Flow (List Char)) :=
  loop (fun c1 j =>
    let cg := tnn % j
    let tg := tnn / j
    if cg = 0 ∧ tg + a.n ≤ maxn ∧ (j = a.count ∨ d.length < maxnm) then tryMove nn a j tg c1
    else pure (.next c1)) c1 (List.range' 1 a.count).reverse

def moveItems (d : List Combination) (nn tnn : ℕ) (c1 : List Char) : Py (Flow (List Char)) :=
  loop (fun c1 a => do
    let x ← index d a
    if x ∈ (← get).itemchange.items then return .next c1
    moveGroups d nn tnn a c1) c1 d

def recordGain (tindex i : ℕ) : Py Unit := if 0 < i then addItemchange tindex else pure ()

def moves (d : List Combination) (nn : ℕ) (tnn : ℤ) (c1 : List Char) : Py (Flow (List Char)) := do
  if 0 < tnn ∧ (← get).itemchange.items.length < d.length then moveItems d nn tnn.toNat c1
  else pure (.next c1)

def combnmnmRound (d : List Combination) (nn : ℕ) (rest : List Char → Py Unit) (a : Combination)
    (c : List Char) (i : ℕ) : Py (Flow Unit) := do
  let c1 := extend c (a.n + a.m) i
  let total ← evaluateNonempty c1
  let tindex ← index d a
  recordGain tindex i
  match ← moves d nn (nn - total.getD 0) c1 with
  | .next c1 =>
    rest c1
    return .next ()
  | .done => return .done

def combnmnm (d : List Combination) (nn flag : ℕ) :
    List Combination → List ℕ → List Char → Py Unit
  | [], _, _ => pure ()
  | a :: as, b, c => do
    let b0 ← item b 0
    let rangelist := if flag = 2 then downTo b0 else List.range (b0 + 1)
    let _ ← loop (fun _ => combnmnmRound d nn (combnmnm d nn flag as b.tail) a c) () rangelist

def tlist (d : List Combination) : List ℕ := d.map fun nm => nm.n + nm.m

def tglist (nn disknum : ℕ) (tlist : List ℕ) : Py (List ℕ) :=
  tlist.mapM fun t => if t = 0 then throw .zeroDivisionError else pure (nn * disknum / t)

def minimum (l : List ℕ) : Py ℕ :=
  match l.min? with
  | some x => pure x
  | none => throw .valueError

def planGroups (nmlist : List Combination) (nn minnm : ℕ) (tglist : List ℕ) : Py Unit :=
  if minnm ≤ nn then combnm minnm nn 1 (tlist nmlist) tglist [] else pure ()

def planGaps (nmlist : List Combination) (nn : ℕ) : Py Unit :=
  if 1 < nmlist.length then
    combnmgap nmlist (gaplist nmlist) nn ((gaplist nmlist).map (·.gap)) (aglist nmlist) []
  else pure ()

def plan (nmlist : List Combination) (nn disknum : ℕ) : Py Unit := do
  let tglist ← tglist nn disknum (tlist nmlist)
  let minnm ← minimum (tlist nmlist)
  planGroups nmlist nn minnm tglist
  planGaps nmlist nn
  combnmnm nmlist nn 1 nmlist tglist []

def globals : Globals := ⟨[], .list []⟩

end MyScripts.CreateConfig
