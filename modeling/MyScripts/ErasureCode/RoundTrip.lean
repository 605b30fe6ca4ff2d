import MyScripts.ErasureCode.Rebuild
import Mathlib.FieldTheory.Finite.GaloisField

/-!
# The round trip

As long as `int` holds the offsets of the chunks, the decoder gives the data
back. From `2 ^ 31` bytes on an offset of the encoder overflows, or its count
does and the fragments end before the decoder has read all stripes.
-/
namespace MyScripts.ErasureCode
open Library.Chunks Library.Decimal

variable {F : Type*} {lib : Isal F} {m k n : ℕ} {data out : List F}

theorem memcpy_length {src : List F} (h : memcpy src = some out) :
    chunkSize ≤ src.length ∧ out.length = chunkSize := by
  rw [memcpy] at h
  split_ifs at h with hlen
  obtain rfl := Option.some.inj h
  exact ⟨hlen, List.length_take_of_le hlen⟩

theorem length_copyLoop_le {idx todo i : ℕ} (h : copyLoop data k idx todo i = some out) :
    out.length ≤ chunkSize * todo := by
  induction todo generalizing i out with
  | zero =>
    rw [copyLoop] at h
    simp [← Option.some.inj h]
  | succ todo ih =>
    rw [copyLoop] at h
    rw [Nat.mul_succ]
    split_ifs at h with hi
    · obtain ⟨offset, -, h⟩ := Option.bind_eq_some_iff.1 h
      obtain ⟨c, hc, h⟩ := Option.bind_eq_some_iff.1 h
      obtain ⟨rest, hrest, rfl⟩ := Option.map_eq_some_iff.1 h
      have hlen := (memcpy_length hc).2
      have hle := ih hrest
      rw [List.length_append]
      omega
    · have hle := ih h
      omega

variable {a : ℕ → F} {idx bound i : ℕ} {ptrs : List ℕ}

theorem parityLoop_offset (h : parityLoop lib a data m k idx bound i ptrs = some out) {j : ℕ}
    (hi : i ≤ j) (hj : j < bound) : j * chunkSize < 2 ^ 31 := by
  fun_induction parityLoop lib a data m k idx bound i ptrs generalizing out with
  | case1 i ptrs hbound hfull ih =>
    obtain ⟨offset, hoffset, h⟩ := Option.bind_eq_some_iff.1 h
    rcases Nat.eq_or_lt_of_le hi with heq | hlt
    · rw [← heq]
      rw [chunkOffset] at hoffset
      split_ifs at hoffset with hsize
      exact hsize
    · exact ih offset h hlt
  | case2 => cases h
  | case3 i ptrs hbound hfull hptrs ih =>
    obtain ⟨src, -, h⟩ := Option.bind_eq_some_iff.1 h
    obtain ⟨rest, hrest, -⟩ := Option.map_eq_some_iff.1 h
    exact ih hrest hi
  | case4 i ptrs hbound => exact absurd (Nat.lt_of_le_of_lt hi hj) hbound

variable {p q : InPtr F} {r : ℕ}

def Reads (stripe : InPtr F → Option (List F × InPtr F)) (r : ℕ) : Prop :=
  ∀ p out q, stripe p = some (out, q) →
    ∃ src, p r = some src ∧ chunkSize ≤ src.length ∧ q r = some (src.drop chunkSize)

theorem Reads.decodeLoop {stripe : InPtr F → Option (List F × InPtr F)} (hstripe : Reads stripe r)
    (hk : 0 < k) {s t : ℕ} (ht : s + t = n) (hpos : 0 < t)
    (h : decodeLoop stripe (chunkSize * n) k (s * (k * chunkSize)) p = some out) :
    ∃ src, p r = some src ∧ chunkSize * t ≤ src.length := by
  induction t generalizing s p out with
  | zero => exact absurd hpos (Nat.lt_irrefl 0)
  | succ t ih =>
    rw [decodeLoop_stripe hk (by omega)] at h
    obtain ⟨⟨c, q⟩, hq, h⟩ := Option.bind_eq_some_iff.1 h
    obtain ⟨rest, hrest, -⟩ := Option.map_eq_some_iff.1 h
    obtain ⟨src, hp, hlen, hqr⟩ := hstripe p c q hq
    refine ⟨src, hp, ?_⟩
    rcases Nat.eq_zero_or_pos t with ht0 | htpos
    · rw [ht0, Nat.zero_add, Nat.mul_one]
      exact hlen
    · obtain ⟨src', hsrc', hle⟩ := ih (by omega) htpos hrest
      obtain rfl := Option.some.inj (hqr.symm.trans hsrc')
      rw [List.length_drop] at hle
      rw [Nat.mul_succ]
      omega

theorem memcpy_of_mapM {rows : List ℕ} {src : List (List F)}
    (h : (rows.mapM fun r => (p r).bind memcpy) = some src) (hr : r ∈ rows) :
    ∃ src, p r = some src ∧ chunkSize ≤ src.length := by
  have hmem : (p r).bind memcpy ∈ rows.map fun r => (p r).bind memcpy := List.mem_map_of_mem hr
  rw [of_mapM_eq_some h] at hmem
  obtain ⟨c, -, hc⟩ := List.mem_map.1 hmem
  obtain ⟨src, hsrc, hread⟩ := Option.bind_eq_some_iff.1 hc.symm
  exact ⟨src, hsrc, (memcpy_length hread).1⟩

theorem advance_eq {rows : List ℕ} (hrows : rows.Nodup) (hr : r ∈ rows) {src : List F}
    (hp : p r = some src) : advance rows p r = some (src.drop chunkSize) := by
  rw [advance, foldl_update_self _ _ hrows, if_pos hr, hp, Option.map_some]

theorem reads_copyStripe (hr : r < k) : Reads (F := F) (copyStripe k) r := by
  intro p out q h
  obtain ⟨c, hc, hq⟩ := Option.map_eq_some_iff.1 h
  obtain ⟨src, hsrc, -⟩ := Option.map_eq_some_iff.1 hc
  obtain ⟨src, hp, hlen⟩ := memcpy_of_mapM hsrc (List.mem_range.2 hr)
  refine ⟨src, hp, hlen, ?_⟩
  rw [← (Prod.mk.inj hq).2]
  exact advance_eq List.nodup_range (List.mem_range.2 hr) hp

theorem reads_rebuildStripe {d : ℕ → F} {rows errs : List ℕ} (hrows : rows.Nodup) (hr : r ∈ rows)
    (herr : r ∉ errs) : Reads (rebuildStripe lib d k rows errs) r := by
  intro p out q h
  obtain ⟨src, hsrc, h⟩ := Option.bind_eq_some_iff.1 h
  obtain ⟨c, -, hq⟩ := Option.map_eq_some_iff.1 h
  obtain ⟨src, hp, hlen⟩ := memcpy_of_mapM hsrc hr
  refine ⟨src, hp, hlen, ?_⟩
  rw [← (Prod.mk.inj hq).2]
  apply advance_eq hrows hr
  rw [rebuild_eq, if_neg herr]
  exact hp

theorem Striped.fragmentSize (h : Striped data k n) : data.length / k = chunkSize * n := by
  rw [h.length, ← Nat.mul_assoc, Nat.mul_div_cancel _ h.pos]

theorem chunkCount_of_le (hsize : 2 ^ 31 ≤ data.length) (h : data.length = chunkSize * n) :
    2 ^ 22 < (chunkCount data.length + 1).toNat ∨
      (chunkCount data.length + 1).toNat ≤ 2 ^ 22 ∧ 2 ^ 31 ≤ n := by
  have hn : data.length / chunkSize = n := by
    rw [h, Nat.mul_div_cancel_left _ chunkSize_pos]
  rw [chunkCount, hn]
  rw [h, chunkSize] at hsize
  rcases Nat.lt_or_ge n (2 ^ 31) with hlt | hge
  · left
    rw [toInt32_eq ⟨by omega, by omega⟩]
    omega
  · rcases Nat.lt_or_ge (2 ^ 22) (toInt32 n + 1).toNat with hhigh | hlow
    · exact Or.inl hhigh
    · exact Or.inr ⟨hlow, hge⟩

variable [Field F]

theorem length_parityOut (hlib : lib.Lawful m k) (hk : k ≤ idx) (hm : idx < m)
    (hptrs : k ≤ ptrs.length) {src : List (List F)}
    (hsrc : (ptrs.mapM fun offset => memcpy (data.drop offset)) = some src) :
    (parityOut lib a m k idx fun j => src.getD j []).length = chunkSize := by
  have hmap := of_mapM_eq_some hsrc
  have hlength : ptrs.length = src.length := by
    simpa using congrArg List.length hmap
  rw [parityOut_eq hlib hk hm, length_dotRow]
  intro j hj
  have hj' : j < src.length := by omega
  rw [List.getD_eq_getElem _ _ hj']
  have hmem : some src[j] ∈ ptrs.map fun offset => memcpy (data.drop offset) := by
    rw [hmap]
    exact List.mem_map_of_mem (List.getElem_mem hj')
  obtain ⟨offset, -, hoffset⟩ := List.mem_map.1 hmem
  exact Nat.le_of_eq (memcpy_length hoffset).2.symm

theorem length_parityLoop_le (hlib : lib.Lawful m k) (hk : k ≤ idx) (hm : idx < m)
    (h : parityLoop lib a data m k idx bound i ptrs = some out) :
    out.length ≤ chunkSize * (bound - i + ptrs.length) := by
  fun_induction parityLoop lib a data m k idx bound i ptrs generalizing out with
  | case1 i ptrs hbound hfull ih =>
    obtain ⟨offset, -, h⟩ := Option.bind_eq_some_iff.1 h
    have hle := ih offset h
    rw [List.length_append, List.length_singleton] at hle
    have hround : bound - (i + 1) + (ptrs.length + 1) = bound - i + ptrs.length := by omega
    rwa [hround] at hle
  | case2 => cases h
  | case3 i ptrs hbound hfull hptrs ih =>
    obtain ⟨src, hsrc, h⟩ := Option.bind_eq_some_iff.1 h
    obtain ⟨rest, hrest, rfl⟩ := Option.map_eq_some_iff.1 h
    have hle := ih hrest
    have hpos := List.length_pos_iff.2 hptrs
    rw [List.length_append, length_parityOut hlib hk hm (Nat.le_of_not_lt hfull) hsrc]
    calc chunkSize + rest.length ≤ chunkSize + chunkSize * (bound - i + ([] : List ℕ).length) :=
          Nat.add_le_add_left hle _
      _ = chunkSize * (bound - i + 1) := by
          rw [List.length_nil, Nat.add_zero, Nat.mul_succ, Nat.add_comm]
      _ ≤ chunkSize * (bound - i + ptrs.length) := Nat.mul_le_mul_left _ (by omega)
  | case4 i ptrs hbound => simp [← Option.some.inj h]

theorem length_encode_le (hlib : lib.Lawful m k) (hm : idx < m) {size : ℕ}
    (h : encode lib a size m k idx data = some out) :
    out.length ≤ chunkSize * (chunkCount size + 1).toNat := by
  rw [encode] at h
  split_ifs at h with hidx
  · apply (length_copyLoop_le h).trans
    exact Nat.mul_le_mul_left _ (by omega)
  · have hle := length_parityLoop_le hlib (Nat.le_of_not_lt hidx) hm h
    rwa [List.length_nil, Nat.add_zero, Nat.sub_zero] at hle

theorem length_of_decode (hlib : lib.Lawful m k) (hm : m ≤ 256) (hk : 0 < k) (hkm : k ≤ m)
    (e : Erasure m k) (hn : 0 < n)
    (h : decode lib (lib.genCauchy1Matrix m k) (chunkSize * n) m k e p = some out) :
    ∃ r < m, ∃ src, p r = some src ∧ chunkSize * n ≤ src.length := by
  have hstart : 0 * (k * chunkSize) = 0 := Nat.zero_mul _
  rw [decode] at h
  split_ifs at h with hnone
  · rw [← hstart] at h
    exact ⟨0, by omega, (reads_copyStripe hk).decodeLoop hk (Nat.zero_add n) hn h⟩
  · obtain ⟨rows, hdecode, hrows⟩ := e.chosen hkm
    obtain ⟨d, hd, -⟩ := genDecodeMatrix_eq hlib hm hdecode hrows
    have hfirst := rowAt_mem (hrows.length.symm ▸ hk)
    rw [hd, Option.bind_some] at h
    dsimp only at h
    rw [← hstart] at h
    refine ⟨_, hrows.lt _ hfirst, ?_⟩
    exact (reads_rebuildStripe (hrows.ascending.imp Nat.ne_of_lt) hfirst
      (hrows.not_mem_errs e hfirst)).decodeLoop hk (Nat.zero_add n) hn h

theorem Striped.roundTrip_eq (h : Striped data k n) (hlib : lib.Lawful m k) (hm : m ≤ 256)
    (hkm : k ≤ m) (e : Erasure m k) (hsize : data.length < 2 ^ 31) :
    roundTrip lib m k e data = some data := by
  have hencode : ((List.range m).mapM fun idx =>
      encode lib (lib.genCauchy1Matrix m k) data.length m k idx data) =
        some ((List.range m).map fun idx =>
          (List.range n).flatMap (codeRow (lib.genCauchy1Matrix m k) k data idx)) :=
    mapM_eq_some fun idx hidx => encode_eq h hsize hlib (List.mem_range.1 hidx)
  simp only [roundTrip, hencode, Option.bind_some, h.fragmentSize]
  apply decode_eq h hlib hm hkm
  intro r hr herr
  rw [herr, if_neg Bool.false_ne_true, List.getElem?_map, List.getElem?_range hr, Option.map_some]

theorem Striped.roundTrip_ne (h : Striped data k n) (hlib : lib.Lawful m k) (hm : m ≤ 256)
    (hkm : k < m) (e : Erasure m k) (hsize : 2 ^ 31 ≤ data.length) :
    roundTrip lib m k e data ≠ some out := by
  intro hrun
  obtain ⟨fragments, hencode, hdecode⟩ := Option.bind_eq_some_iff.1 hrun
  have hfragments := of_mapM_eq_some hencode
  have hfragment : ∀ idx < m, ∀ c, fragments[idx]? = some c →
      encode lib (lib.genCauchy1Matrix m k) data.length m k idx data = some c := by
    intro idx hidx c hc
    have hget := congrArg (fun l => l[idx]?) hfragments
    simpa [hidx, hc] using hget
  rcases chunkCount_of_le hsize h.length with hhigh | ⟨hlow, hmany⟩
  · have hlength : k < fragments.length := by
      have hmap := congrArg List.length hfragments
      simp only [List.length_map, List.length_range] at hmap
      omega
    have hparity := hfragment k hkm _ (List.getElem?_eq_getElem hlength)
    rw [encode, if_neg (Nat.lt_irrefl k)] at hparity
    have hoffset := parityLoop_offset hparity (Nat.zero_le _) hhigh
    rw [chunkSize] at hoffset
    omega
  · rw [h.fragmentSize] at hdecode
    have hn : 2 ^ 22 < n := by
      by_contra hfew
      have hk : k ≤ 255 := by omega
      have hprod : n * k ≤ 2 ^ 22 * 255 := Nat.mul_le_mul (by omega) hk
      omega
    obtain ⟨r, hr, src, hsrc, hle⟩ :=
      length_of_decode hlib hm h.pos (Nat.le_of_lt hkm) e (by omega) hdecode
    have hget : fragments[r]? = some src := by
      split_ifs at hsrc
      exact hsrc
    have hshort := length_encode_le hlib hr (hfragment r hr src hget)
    have hfew : n ≤ (chunkCount data.length + 1).toNat :=
      Nat.le_of_mul_le_mul_left (hle.trans hshort) chunkSize_pos
    exact Nat.not_lt.2 (hfew.trans hlow) hn

/-- The round trip gives the data back exactly when `int` holds the offset of
every byte. -/
theorem roundTrip_iff (hk : 1 ≤ k) (hkm : k < m) (hm : m ≤ 256) (hlib : lib.Lawful m k)
    (hlen : data.length = 512 * k * n) (e : Erasure m k) :
    roundTrip lib m k e data = some data ↔ data.length < 2 ^ 31 := by
  have h : Striped data k n := by
    refine ⟨hk, ?_⟩
    rw [chunkSize, hlen, Nat.mul_assoc, Nat.mul_comm k n]
  constructor
  · intro hrun
    by_contra hlarge
    exact h.roundTrip_ne hlib hm hkm e (Nat.le_of_not_lt hlarge) hrun
  · exact h.roundTrip_eq hlib hm (Nat.le_of_lt hkm) e

def singleRow (F : Type) [Field F] : Isal F where
  Tbl := F
  vectMulInit := id
  vectDotProd len vlen gftbls src :=
    (List.range len).map fun b => ∑ j ∈ Finset.range vlen, gftbls j * (src j).getD b 0
  invertMatrix inMat _ := some fun _ => (inMat 0)⁻¹
  genCauchy1Matrix _ _ _ := 1

theorem singleRow_lawful (F : Type) [Field F] : (singleRow F).Lawful 2 1 where
  dotProd _ _ _ := by simp [singleRow, dotRow]
  inverse a ha := by
    have hunit : a 0 ≠ 0 := by
      simpa [Matrix.isUnit_iff_isUnit_det, rowMatrix] using ha
    refine ⟨_, rfl, ?_⟩
    funext i j
    rw [Subsingleton.elim i j]
    simp [Matrix.mul_apply, rowMatrix, inv_mul_cancel₀ hunit]
  identity i hi j hj := by
    have heq : i = j := by omega
    rw [if_pos heq]
    rfl
  rows f _ _ := by
    simp [Matrix.isUnit_iff_isUnit_det, rowMatrix, singleRow]

def firstErased : Erasure 2 1 where
  srcInErr i := i = 0
  srcErrList := [0]
  nsrcerrs := 1
  ascending := List.pairwise_singleton _ 0
  flags i := by
    rw [List.mem_singleton, decide_eq_true_eq]
    omega
  nsrcerrs_eq := rfl
  few := Nat.le_refl 1

theorem roundTrip_iff_firstErased :
    roundTrip (singleRow (GaloisField 2 8)) 2 1 firstErased (List.replicate 512 1) =
      some (List.replicate 512 1) := by
  apply (roundTrip_iff (n := 1) (by omega) (by omega) (by omega) (singleRow_lawful _) ?_ _).2
  · rw [List.length_replicate]
    omega
  · rw [List.length_replicate]

/-- In a buffer of `2 ^ 32` bytes the offset of the second half overflows. -/
theorem roundTrip_false_largeBuffer :
    roundTrip (singleRow (GaloisField 2 8)) 2 1 firstErased (List.replicate (2 ^ 32) 1) ≠
      some (List.replicate (2 ^ 32) 1) := by
  have hstriped : Striped (List.replicate (2 ^ 32) (1 : GaloisField 2 8)) 1 (2 ^ 23) := by
    refine ⟨Nat.one_pos, ?_⟩
    rw [List.length_replicate, chunkSize]
    omega
  apply hstriped.roundTrip_ne (singleRow_lawful _) (by omega) (by omega)
  rw [List.length_replicate]
  omega

end MyScripts.ErasureCode
