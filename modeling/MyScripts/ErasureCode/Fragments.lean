import MyScripts.ErasureCode.DotProd

/-!
# The fragments

A fragment is the list of the dot products of its row with the stripes of the
data. The two loops of the encoder are followed to their end, as long as `int`
holds the offsets.
-/
namespace MyScripts.ErasureCode
open Library.Chunks Library.Decimal

variable {F : Type*} {lib : Isal F} {m k n : ℕ} {data : List F}

theorem chunkSize_pos : 0 < chunkSize := by decide

theorem memcpy_drop {i : ℕ} (h : chunkSize * (i + 1) ≤ data.length) :
    memcpy (data.drop (i * chunkSize)) = some (chunk chunkSize data i) := by
  rw [Nat.mul_succ] at h
  rw [memcpy, if_pos, chunk, Nat.mul_comm]
  rw [List.length_drop, Nat.mul_comm]
  omega

theorem chunkOffset_eq {i : ℕ} (h : i * chunkSize < 2 ^ 31) :
    chunkOffset i = some (i * chunkSize) := if_pos h

theorem copyLoop_eq {idx todo i : ℕ} (hlen : chunkSize * (i + todo) ≤ data.length)
    (hsize : data.length < 2 ^ 31) :
    copyLoop data k idx todo i =
      some ((List.range' i todo).flatMap fun i =>
        if i % k = idx then chunk chunkSize data i else []) := by
  induction todo generalizing i with
  | zero => rfl
  | succ todo ih =>
    have hnext : copyLoop data k idx todo (i + 1) = _ := ih (by rwa [Nat.add_right_comm])
    have hchunk : chunkSize * (i + 1) ≤ data.length :=
      (Nat.mul_le_mul_left chunkSize (by omega)).trans hlen
    have hoffset : i * chunkSize < 2 ^ 31 := by
      rw [Nat.mul_comm]
      exact Nat.lt_of_le_of_lt ((Nat.mul_le_mul_left chunkSize (Nat.le_succ i)).trans hchunk) hsize
    rw [copyLoop, List.range'_succ, List.flatMap_cons]
    split_ifs with hi
    · rw [chunkOffset_eq hoffset, Option.bind_some, memcpy_drop hchunk, Option.bind_some, hnext,
        Option.map_some]
    · rw [hnext, List.nil_append]

structure Striped (data : List F) (k n : ℕ) : Prop where
  pos : 0 < k
  length : data.length = chunkSize * (n * k)

theorem Striped.chunk_length (h : Striped data k n) {s c : ℕ} (hs : s < n) (hc : c < k) :
    (chunk chunkSize data (s * k + c)).length = chunkSize := by
  apply length_chunk
  rw [h.length]
  apply Nat.mul_le_mul_left
  calc s * k + c + 1 ≤ s * k + k := by omega
    _ = (s + 1) * k := (Nat.succ_mul s k).symm
    _ ≤ n * k := Nat.mul_le_mul_right k hs

theorem Striped.chunkCount_eq (h : Striped data k n) (hsize : data.length < 2 ^ 31) :
    chunkCount data.length = (n * k : ℕ) := by
  rw [chunkCount, h.length, Nat.mul_div_cancel_left _ chunkSize_pos]
  apply toInt32_eq
  have hle : n * k ≤ data.length := by
    rw [h.length]
    exact Nat.le_mul_of_pos_left _ chunkSize_pos
  constructor <;> omega

theorem encode_data (h : Striped data k n) (hsize : data.length < 2 ^ 31) {idx : ℕ}
    (hidx : idx < k) {a : ℕ → F} :
    encode lib a data.length m k idx data =
      some ((List.range n).flatMap fun s => chunk chunkSize data (s * k + idx)) := by
  have hloop : chunkSize * (0 + n * k) ≤ data.length := by rw [h.length, Nat.zero_add]
  rw [encode, if_pos hidx, h.chunkCount_eq hsize, Int.toNat_natCast, copyLoop_eq hloop hsize,
    ← List.range_eq_range', flatMap_range_mul]
  congr 1
  apply List.flatMap_congr
  intro s _
  rw [← flatMap_range_eq (fun c => chunk chunkSize data (s * k + c)) hidx]
  apply List.flatMap_congr
  intro c hc
  rw [Nat.mul_comm s k, Nat.mul_add_mod, Nat.mod_eq_of_lt (List.mem_range.1 hc)]

variable {a : ℕ → F} {idx : ℕ}

theorem parityRow_eq (hk : k ≤ idx) (hm : idx < m) :
    ((List.range' k (m - k)).filter fun j => j % m = idx) = [idx] := by
  apply List.perm_singleton.1
  apply (List.perm_ext_iff_of_nodup ((List.nodup_range' ..).filter _) (List.nodup_singleton idx)).2
  intro j
  simp only [List.mem_filter, List.mem_range'_1, decide_eq_true_eq, List.mem_singleton]
  constructor
  · rintro ⟨hj, hmod⟩
    rwa [Nat.mod_eq_of_lt (by omega)] at hmod
  · rintro rfl
    exact ⟨by omega, Nat.mod_eq_of_lt hm⟩

theorem parityLoop_fill {bound t i : ℕ} {ptrs : List ℕ} (hptrs : ptrs.length + t = k)
    (hbound : i + t ≤ bound) (hsize : (i + t) * chunkSize ≤ 2 ^ 31) :
    parityLoop lib a data m k idx bound i ptrs =
      parityLoop lib a data m k idx bound (i + t)
        (ptrs ++ (List.range' i t).map (· * chunkSize)) := by
  induction t generalizing i ptrs with
  | zero => rw [List.range'_zero, List.map_nil, List.append_nil, Nat.add_zero]
  | succ t ih =>
    have hoffset : i * chunkSize < 2 ^ 31 :=
      Nat.lt_of_lt_of_le (Nat.mul_lt_mul_of_pos_right (by omega) chunkSize_pos) hsize
    have hi : i + 1 + t = i + (t + 1) := by omega
    have hlength : (ptrs ++ [i * chunkSize]).length + t = k := by
      rw [List.length_append, List.length_singleton]
      omega
    rw [parityLoop, if_pos (by omega), if_pos (by omega), chunkOffset_eq hoffset, Option.bind_some,
      ih hlength (by omega) (hi ▸ hsize), hi, List.range'_succ, List.map_cons, List.append_assoc,
      List.singleton_append]

/-- One more pointer is computed after the last stripe and never read. -/
theorem Striped.parityLoop_end (h : Striped data k n) (hsize : data.length < 2 ^ 31) :
    parityLoop lib a data m k idx (n * k + 1) (n * k) [] = some [] := by
  have hoffset : n * k * chunkSize < 2 ^ 31 := by
    rwa [Nat.mul_comm, ← h.length]
  have hempty : ([] : List ℕ).length < k := by
    rw [List.length_nil]
    exact h.pos
  rw [parityLoop, if_pos (by omega), if_pos hempty, chunkOffset_eq hoffset, Option.bind_some,
    parityLoop, if_neg (by omega)]

variable [Field F]

def rowMatrix (a : ℕ → F) (k : ℕ) (rows : Fin k → ℕ) : Matrix (Fin k) (Fin k) F :=
  fun i j => a (k * rows i + j)

def dotRow (k : ℕ) (c : ℕ → F) (src : ℕ → List F) : List F :=
  (List.range chunkSize).map fun b => ∑ j ∈ Finset.range k, c j * (src j).getD b 0

/-- What the code relies on: the dot product, the inverse of an invertible
matrix, and a generator matrix that begins with the identity and of which any
`k` rows are invertible. -/
structure Isal.Lawful (lib : Isal F) (m k : ℕ) : Prop where
  dotProd : ∀ (c : ℕ → F) (src : ℕ → List F), (∀ j < k, chunkSize ≤ (src j).length) →
    lib.vectDotProd chunkSize k (fun j => lib.vectMulInit (c j)) src = dotRow k c src
  inverse : ∀ a : ℕ → F, IsUnit (rowMatrix a k fun i => i) →
    ∃ inv, lib.invertMatrix a k = some inv ∧
      rowMatrix inv k (fun i => i) * rowMatrix a k (fun i => i) = 1
  identity : ∀ i < k, ∀ j < k, lib.genCauchy1Matrix m k (k * i + j) = if i = j then 1 else 0
  rows : ∀ f : Fin k → ℕ, StrictMono f → (∀ i, f i < m) →
    IsUnit (rowMatrix (lib.genCauchy1Matrix m k) k f)

def codeRow (a : ℕ → F) (k : ℕ) (data : List F) (r s : ℕ) : List F :=
  dotRow k (fun c => a (k * r + c)) fun c => chunk chunkSize data (s * k + c)

theorem length_dotRow (c : ℕ → F) (src : ℕ → List F) : (dotRow k c src).length = chunkSize := by
  rw [dotRow, List.length_map, List.length_range]

theorem dotRow_getD (c : ℕ → F) (src : ℕ → List F) {b : ℕ} (hb : b < chunkSize) :
    (dotRow k c src).getD b 0 = ∑ j ∈ Finset.range k, c j * (src j).getD b 0 := by
  rw [dotRow, List.getD_eq_getElem?_getD, List.getElem?_map, List.getElem?_range hb,
    Option.map_some, Option.getD_some]

theorem chunk_ext {x y : List F} (hx : x.length = chunkSize) (hy : y.length = chunkSize)
    (h : ∀ b < chunkSize, x.getD b 0 = y.getD b 0) : x = y := by
  apply List.ext_getElem (hx.trans hy.symm)
  intro b hbx hby
  have hb := h b (hx ▸ hbx)
  rwa [List.getD_eq_getElem?_getD, List.getD_eq_getElem?_getD, List.getElem?_eq_getElem hbx,
    List.getElem?_eq_getElem hby, Option.getD_some, Option.getD_some] at hb

theorem dotRow_single {c : ℕ → F} {i : ℕ} (hi : i < k) (hc : ∀ j < k, c j = if i = j then 1 else 0)
    {src : ℕ → List F} (hsrc : (src i).length = chunkSize) : dotRow k c src = src i := by
  apply chunk_ext (length_dotRow c src) hsrc
  intro b hb
  rw [dotRow_getD c src hb, Finset.sum_eq_single i]
  · rw [hc i hi, if_pos rfl, one_mul]
  · intro j hj hne
    rw [hc j (Finset.mem_range.1 hj), if_neg (Ne.symm hne), zero_mul]
  · intro hnot
    exact absurd (Finset.mem_range.2 hi) hnot

theorem dotRow_congr {c : ℕ → F} {src src' : ℕ → List F} (h : ∀ j < k, src j = src' j) :
    dotRow k c src = dotRow k c src' := by
  rw [dotRow, dotRow]
  apply List.map_congr_left
  intro b _
  apply Finset.sum_congr rfl
  intro j hj
  rw [h j (Finset.mem_range.1 hj)]

variable {a : ℕ → F} {idx : ℕ}

theorem parityOut_eq (hlib : lib.Lawful m k) (hk : k ≤ idx) (hm : idx < m) {src : ℕ → List F}
    (hsrc : ∀ j < k, chunkSize ≤ (src j).length) :
    parityOut lib a m k idx src = dotRow k (fun r => a (k * idx + r)) src := by
  rw [parityOut, parityRow_eq hk hm, List.flatMap_singleton]
  exact hlib.dotProd _ src hsrc

theorem Striped.parityLoop_stripe (h : Striped data k n) (hsize : data.length < 2 ^ 31)
    (hlib : lib.Lawful m k) (hk : k ≤ idx) (hm : idx < m) {s : ℕ} (hs : s < n) :
    parityLoop lib a data m k idx (n * k + 1) (s * k) [] =
      (parityLoop lib a data m k idx (n * k + 1) ((s + 1) * k) []).map
        (codeRow a k data idx s ++ ·) := by
  have hle : s * k + k ≤ n * k := by
    rw [← Nat.succ_mul]
    exact Nat.mul_le_mul_right k hs
  have hoffset : (s * k + k) * chunkSize ≤ 2 ^ 31 := by
    rw [Nat.mul_comm]
    apply (Nat.mul_le_mul_left chunkSize hle).trans
    rw [← h.length]
    exact Nat.le_of_lt hsize
  have hread : ((List.range' (s * k) k).map (· * chunkSize)).mapM
      (fun offset => memcpy (data.drop offset)) =
        some ((List.range' (s * k) k).map (chunk chunkSize data)) := by
    apply mapM_map_eq_some
    intro i hi
    apply memcpy_drop
    rw [h.length]
    apply Nat.mul_le_mul_left
    have hlt := (List.mem_range'_1.1 hi).2
    omega
  have hget : ∀ j < k, ((List.range' (s * k) k).map (chunk chunkSize data)).getD j [] =
      chunk chunkSize data (s * k + j) := by
    intro j hj
    rw [List.getD_eq_getElem?_getD, List.getElem?_map, List.getElem?_range' hj, Option.map_some,
      Option.getD_some, Nat.one_mul]
  have hout : parityOut lib a m k idx
      (fun j => ((List.range' (s * k) k).map (chunk chunkSize data)).getD j []) =
        codeRow a k data idx s := by
    rw [parityOut_eq hlib hk hm, codeRow]
    · exact dotRow_congr hget
    · intro j hj
      rw [hget j hj, h.chunk_length hs hj]
  rw [parityLoop_fill (by rw [List.length_nil, Nat.zero_add]) (by omega) hoffset, List.nil_append,
    parityLoop, if_pos (by omega), if_neg (by simp), if_neg (by simp [Nat.pos_iff_ne_zero.1 h.pos]),
    hread, Option.bind_some, hout, Nat.succ_mul]

theorem Striped.parityLoop_from (h : Striped data k n) (hsize : data.length < 2 ^ 31)
    (hlib : lib.Lawful m k) (hk : k ≤ idx) (hm : idx < m) {s t : ℕ} (hs : s + t = n) :
    parityLoop lib a data m k idx (n * k + 1) (s * k) [] =
      some ((List.range' s t).flatMap (codeRow a k data idx)) := by
  induction t generalizing s with
  | zero =>
    have hend : s = n := by omega
    rw [hend, h.parityLoop_end hsize]
    rfl
  | succ t ih =>
    rw [h.parityLoop_stripe hsize hlib hk hm (by omega), ih (by omega), Option.map_some,
      List.range'_succ, List.flatMap_cons]

theorem encode_parity (h : Striped data k n) (hsize : data.length < 2 ^ 31)
    (hlib : lib.Lawful m k) (hk : k ≤ idx) (hm : idx < m) :
    encode lib a data.length m k idx data =
      some ((List.range n).flatMap (codeRow a k data idx)) := by
  have hstart := h.parityLoop_from (a := a) hsize hlib hk hm (Nat.zero_add n)
  rw [Nat.zero_mul] at hstart
  rw [encode, if_neg (Nat.not_lt.2 hk), h.chunkCount_eq hsize, List.range_eq_range', ← hstart]
  rfl

theorem codeRow_data (h : Striped data k n) (hlib : lib.Lawful m k) (hidx : idx < k) {s : ℕ}
    (hs : s < n) :
    codeRow (lib.genCauchy1Matrix m k) k data idx s = chunk chunkSize data (s * k + idx) := by
  rw [codeRow, dotRow_single hidx (hlib.identity idx hidx) (h.chunk_length hs hidx)]

theorem encode_eq (h : Striped data k n) (hsize : data.length < 2 ^ 31) (hlib : lib.Lawful m k)
    (hm : idx < m) :
    encode lib (lib.genCauchy1Matrix m k) data.length m k idx data =
      some ((List.range n).flatMap (codeRow (lib.genCauchy1Matrix m k) k data idx)) := by
  by_cases hidx : idx < k
  · rw [encode_data h hsize hidx]
    apply congrArg some
    apply List.flatMap_congr
    intro s hs
    rw [codeRow_data h hlib hidx (List.mem_range.1 hs)]
  · exact encode_parity h hsize hlib (Nat.le_of_not_lt hidx) hm

end MyScripts.ErasureCode
