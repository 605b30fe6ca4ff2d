import MyScripts.Library.Chunks
import MyScripts.Library.Decimal
import Mathlib.Algebra.BigOperators.Group.Finset.Basic
import Mathlib.LinearAlgebra.Matrix.NonsingularInverse

/-!
# Encoding and decoding by dot products

`ec_dot_prod_method_encode` writes one fragment, `ec_dot_prod_method_decode`
puts the data together again from the fragments that are left. A byte is an
element of the field, an array is a function of the index or, where its length
matters, a list; `none` is a read outside a buffer, an overflow of `int` or a
call that fails or does not return. Memory is always allocated.
-/
namespace MyScripts.ErasureCode
open Library.Chunks Library.Decimal

/-- What the code calls of isa-l. -/
structure Isal (F : Type*) where
  Tbl : Type
  vectMulInit : F → Tbl
  vectDotProd : (len vlen : ℕ) → (gftbls : ℕ → Tbl) → (src : ℕ → List F) → List F
  invertMatrix : (inMat : ℕ → F) → (n : ℕ) → Option (ℕ → F)
  genCauchy1Matrix : (m k : ℕ) → ℕ → F

def chunkSize : ℕ := 512

/-- `i * EC_DOT_PROD_METHOD_CHUNK_SIZE`, a product of two values of type `int`. -/
def chunkOffset (i : ℕ) : Option ℕ := if i * chunkSize < 2 ^ 31 then some (i * chunkSize) else none

variable {F : Type*}

def memcpy (src : List F) : Option (List F) :=
  if chunkSize ≤ src.length then some (src.take chunkSize) else none

def chunkCount (size : ℕ) : ℤ := toInt32 (size / chunkSize : ℕ)

def copyLoop (input : List F) (k idx : ℕ) : (todo i : ℕ) → Option (List F)
  | 0, _ => some []
  | todo + 1, i =>
    if i % k = idx then
      (chunkOffset i).bind fun offset =>
        (memcpy (input.drop offset)).bind fun out =>
          (copyLoop input k idx todo (i + 1)).map (out ++ ·)
    else copyLoop input k idx todo (i + 1)

def parityOut (lib : Isal F) (encodeMatrix : ℕ → F) (m k idx : ℕ) (dataPtr : ℕ → List F) :
    List F :=
  ((List.range' k (m - k)).filter fun j => j % m = idx).flatMap fun j =>
    lib.vectDotProd chunkSize k (fun r => lib.vectMulInit (encodeMatrix (k * j + r))) dataPtr

/-- `dataPtr` holds the offsets of the first `j` entries of `data_ptr`. The round
that finds the array full counts `i` down and up again. -/
def parityLoop (lib : Isal F) (encodeMatrix : ℕ → F) (input : List F) (m k idx bound i : ℕ)
    (dataPtr : List ℕ) : Option (List F) :=
  if i < bound then
    if dataPtr.length < k then
      (chunkOffset i).bind fun offset =>
        parityLoop lib encodeMatrix input m k idx bound (i + 1) (dataPtr ++ [offset])
    else if dataPtr = [] then none
    else
      (dataPtr.mapM fun offset => memcpy (input.drop offset)).bind fun src =>
        (parityLoop lib encodeMatrix input m k idx bound i []).map
          (parityOut lib encodeMatrix m k idx (fun j => src.getD j []) ++ ·)
  else some []
termination_by (bound - i, dataPtr.length)
decreasing_by
  · exact Prod.Lex.left _ _ (by omega)
  · exact Prod.Lex.right _ (List.length_pos_iff.2 ‹_›)

def encode (lib : Isal F) (encodeMatrix : ℕ → F) (size m k idx : ℕ) (input : List F) :
    Option (List F) :=
  if idx < k then copyLoop input k idx (chunkCount size).toNat 0
  else parityLoop lib encodeMatrix input m k idx (chunkCount size + 1).toNat 0 []

structure Erasure (m k : ℕ) where
  srcInErr : ℕ → Bool
  srcErrList : List ℕ
  nsrcerrs : ℕ
  ascending : srcErrList.Pairwise (· < ·)
  flags : ∀ i, i ∈ srcErrList ↔ i < m ∧ srcInErr i = true
  nsrcerrs_eq : nsrcerrs = (srcErrList.filter fun i => i < k).length
  few : srcErrList.length ≤ m - k

def nextRow (srcInErr : ℕ → Bool) (m r : ℕ) : Option ℕ :=
  if r < m then
    if srcInErr r then nextRow srcInErr m (r + 1) else some r
  else none
termination_by m - r

def decodeRows (srcInErr : ℕ → Bool) (m : ℕ) : (todo r : ℕ) → Option (List ℕ)
  | 0, _ => some []
  | todo + 1, r =>
    (nextRow srcInErr m r).bind fun r => (decodeRows srcInErr m todo (r + 1)).map (r :: ·)

/-- `decode_index` is an array of `uint8_t`; `p_dmatrix` has `m` rows, of which
`gf_invert_matrix` sets the first `k`. -/
def genDecodeMatrix [Zero F] (lib : Isal F) (encodeMatrix : ℕ → F) (srcInErr : ℕ → Bool)
    (m k : ℕ) : Option (List ℕ × (ℕ → F)) :=
  (decodeRows srcInErr m k 0).bind fun rows =>
    (lib.invertMatrix (fun x => encodeMatrix (k * rows.getD (x / k) 0 + x % k)) k).map fun inv =>
      (rows.map (· % 256), fun x => if x < k * k then inv x else 0)

abbrev InPtr (F : Type*) := ℕ → Option (List F)

def copyRows (inPtr : InPtr F) (k : ℕ) : Option (List F) :=
  ((List.range k).mapM fun i => (inPtr i).bind memcpy).map List.flatten

def advance (rows : List ℕ) (inPtr : InPtr F) : InPtr F :=
  rows.foldl (fun p r => Function.update p r ((p r).map (List.drop chunkSize))) inPtr

def copyStripe (k : ℕ) (inPtr : InPtr F) : Option (List F × InPtr F) :=
  (copyRows inPtr k).map fun out => (out, advance (List.range k) inPtr)

def rebuild (lib : Isal F) (decodeMatrix : ℕ → F) (k : ℕ) (srcErrList : List ℕ)
    (dataPtr : ℕ → List F) (inPtr : InPtr F) : InPtr F :=
  srcErrList.foldl (fun p r => Function.update p r (some
    (lib.vectDotProd chunkSize k (fun j => lib.vectMulInit (decodeMatrix (k * r + j))) dataPtr)))
    inPtr

def rebuildStripe (lib : Isal F) (decodeMatrix : ℕ → F) (k : ℕ) (decodeIndex srcErrList : List ℕ)
    (inPtr : InPtr F) : Option (List F × InPtr F) :=
  (decodeIndex.mapM fun r => (inPtr r).bind memcpy).bind fun dataPtr =>
    let inPtr := rebuild lib decodeMatrix k srcErrList (fun j => dataPtr.getD j []) inPtr
    (copyRows inPtr k).map fun out => (out, advance decodeIndex inPtr)

def decodeLoop (stripe : InPtr F → Option (List F × InPtr F)) (size k outSize : ℕ)
    (inPtr : InPtr F) : Option (List F) :=
  if outSize < size * k then
    (stripe inPtr).bind fun (out, inPtr) =>
      (decodeLoop stripe size k (outSize + k * chunkSize) inPtr).map (out ++ ·)
  else some []
termination_by size * k - outSize
decreasing_by
  have hk : 0 < k := Nat.pos_of_ne_zero fun h => by simp [h] at *
  have hstep : 0 < k * chunkSize := Nat.mul_pos hk (by decide)
  omega

def decode [Zero F] (lib : Isal F) (encodeMatrix : ℕ → F) (size m k : ℕ) (e : Erasure m k)
    (input : InPtr F) : Option (List F) :=
  if e.nsrcerrs = 0 then decodeLoop (copyStripe k) size k 0 input
  else
    (genDecodeMatrix lib encodeMatrix e.srcInErr m k).bind fun (decodeIndex, decodeMatrix) =>
      decodeLoop (rebuildStripe lib decodeMatrix k decodeIndex e.srcErrList) size k 0 input

def roundTrip [Zero F] (lib : Isal F) (m k : ℕ) (e : Erasure m k) (data : List F) :
    Option (List F) :=
  let encodeMatrix := lib.genCauchy1Matrix m k
  ((List.range m).mapM fun idx => encode lib encodeMatrix data.length m k idx data).bind
    fun fragments =>
      decode lib encodeMatrix (data.length / k) m k e fun i =>
        if e.srcInErr i then none else fragments[i]?

end MyScripts.ErasureCode
