import MyScripts.ErasureCode.Rebuild

/-!
# The array accesses of the decoder

`ec_dot_prod_method_decode` has five arrays, of `nerrs`, `k`, `m`, `m` and
`m * k * 32` elements. Listed here is every index it uses, in the order of the
code, also on the paths that end with a failed allocation or a singular matrix.
-/
namespace MyScripts.ErasureCode.DecodeBounds

inductive ArrayName
  | tempBuff
  | dataPtr
  | inPtr
  | decodeIndex
  | decodeTbls
  deriving DecidableEq, Repr

abbrev Access := ArrayName × ℕ

def capacity (m k nerrs : ℕ) : ArrayName → ℕ
  | .tempBuff => nerrs
  | .dataPtr => k
  | .inPtr => m
  | .decodeIndex => m
  | .decodeTbls => m * k * 32

/-- Which of the allocations succeed, and whether the matrix can be inverted. -/
structure Outcome where
  buff : ℕ → Bool
  tables : Bool
  matrix : Bool

def setUp (m : ℕ) : List Access := (List.range m).flatMap fun i => [(.inPtr, i), (.tempBuff, i)]

def copyRound (k : ℕ) : List Access := (List.range k).flatMap fun i => [(.inPtr, i), (.inPtr, i)]

/-- `gf_vect_mul_init` writes 32 bytes for each source, `gf_vect_dot_prod` reads them. -/
def rebuildRow (k i r : ℕ) : List Access :=
  ((List.range k).flatMap fun j => (List.range 32).map fun b => (.decodeTbls, j * 32 + b)) ++
    (List.range (k * 32)).map (.decodeTbls, ·) ++ (List.range k).map (.dataPtr, ·) ++
    [(.tempBuff, i), (.inPtr, r), (.tempBuff, i)]

def rebuildRound (k : ℕ) (decodeIndex srcErrList : List ℕ) : List Access :=
  ((List.range k).flatMap fun i =>
      [(.dataPtr, i), (.decodeIndex, i), (.inPtr, decodeIndex.getD i 0)]) ++
    (srcErrList.zipIdx.flatMap fun (r, i) => rebuildRow k i r) ++
    (List.range k).map (.inPtr, ·) ++
    (List.range k).flatMap fun i => [(.decodeIndex, i), (.inPtr, decodeIndex.getD i 0)]

def release (nerrs : ℕ) : List Access := (List.range nerrs).map (.tempBuff, ·)

variable {m k : ℕ}

def rebuild (o : Outcome) (n : ℕ) (e : Erasure m k) : List Access :=
  match decodeRows e.srcInErr m k 0 with
  | none => []
  | some rows =>
    (List.range k).map (.decodeIndex, ·) ++
      if o.matrix then
        (List.replicate n (rebuildRound k (rows.map (· % 256)) e.srcErrList)).flatten
      else []

def body (o : Outcome) (n : ℕ) (e : Erasure m k) : List Access :=
  if e.nsrcerrs = 0 then (List.replicate n (copyRound k)).flatten
  else
    let buffers := (List.range e.srcErrList.length).takeWhile o.buff
    buffers.map (.tempBuff, ·) ++
      if buffers.length < e.srcErrList.length ∨ o.tables = false then [] else rebuild o n e

def accesses (o : Outcome) (n : ℕ) (e : Erasure m k) : List Access :=
  setUp m ++ body o n e ++ release e.srcErrList.length

def InBounds (o : Outcome) (n : ℕ) (e : Erasure m k) : Prop :=
  ∀ a ∈ accesses o n e, a.2 < capacity m k e.srcErrList.length a.1

variable {o : Outcome} {n : ℕ} {e : Erasure m k} {a : Access} {rows : List ℕ}

theorem copyRound_bound (hkm : k ≤ m) {nerrs : ℕ} (ha : a ∈ copyRound k) :
    a.2 < capacity m k nerrs a.1 := by
  simp only [copyRound, List.mem_flatMap, List.mem_range, List.mem_cons, List.not_mem_nil,
    or_false, or_self] at ha
  obtain ⟨i, hi, rfl⟩ := ha
  simp only [capacity]
  omega

theorem rebuildRow_bound {nerrs i r : ℕ} (hi : i < nerrs) (hr : r < m)
    (ha : a ∈ rebuildRow k i r) : a.2 < capacity m k nerrs a.1 := by
  have htbls : ∀ x < k * 32, x < capacity m k nerrs .decodeTbls := by
    intro x hx
    have hm : k ≤ m * k := Nat.le_mul_of_pos_left k (by omega)
    exact Nat.lt_of_lt_of_le hx (Nat.mul_le_mul_right 32 hm)
  simp only [rebuildRow, List.mem_append, List.mem_flatMap, List.mem_map, List.mem_range,
    List.mem_cons, List.not_mem_nil, or_false] at ha
  rcases ha with ((⟨j, hj, b, hb, rfl⟩ | ⟨x, hx, rfl⟩) | ⟨j, hj, rfl⟩) | rfl | rfl | rfl
  · exact htbls _ (by omega)
  · exact htbls x hx
  · exact hj
  · exact hi
  · exact hr
  · exact hi

theorem rebuildRound_bound (hkm : k ≤ m) (hrows : ∀ i < k, rows.getD i 0 < m)
    (ha : a ∈ rebuildRound k rows e.srcErrList) : a.2 < capacity m k e.srcErrList.length a.1 := by
  simp only [rebuildRound, List.mem_append, List.mem_flatMap, List.mem_map, List.mem_range,
    List.mem_cons, List.not_mem_nil, or_false, Prod.exists] at ha
  rcases ha with ((⟨i, hi, rfl | rfl | rfl⟩ | ⟨r, i, hri, ha⟩) | ⟨i, hi, rfl⟩) | ⟨i, hi, rfl | rfl⟩
  · exact hi
  · exact Nat.lt_of_lt_of_le hi hkm
  · exact hrows i hi
  · have hget := List.mem_zipIdx' hri
    have hmem : r ∈ e.srcErrList := hget.2 ▸ List.getElem_mem hget.1
    exact rebuildRow_bound hget.1 ((e.flags r).1 hmem).1 ha
  · exact Nat.lt_of_lt_of_le hi hkm
  · exact Nat.lt_of_lt_of_le hi hkm
  · exact hrows i hi

theorem rebuild_bound (hkm : k ≤ m) (ha : a ∈ rebuild o n e) :
    a.2 < capacity m k e.srcErrList.length a.1 := by
  obtain ⟨rows, hdecode, hrows⟩ := e.chosen hkm
  rw [rebuild, hdecode] at ha
  rcases List.mem_append.1 ha with ha | ha
  · obtain ⟨i, hi, rfl⟩ := List.mem_map.1 ha
    exact Nat.lt_of_lt_of_le (List.mem_range.1 hi) hkm
  · split_ifs at ha
    · obtain ⟨l, hl, ha⟩ := List.mem_flatten.1 ha
      rw [List.eq_of_mem_replicate hl] at ha
      refine rebuildRound_bound hkm ?_ ha
      intro i hi
      have hi' : i < rows.length := hrows.length.symm ▸ hi
      have hrow := hrows.lt _ (List.getElem_mem hi')
      simp only [List.getD_eq_getElem?_getD, List.getElem?_map, List.getElem?_eq_getElem hi',
        Option.map_some, Option.getD_some]
      exact Nat.lt_of_le_of_lt (Nat.mod_le _ _) hrow
    · cases ha

theorem body_bound (hkm : k ≤ m) (ha : a ∈ body o n e) :
    a.2 < capacity m k e.srcErrList.length a.1 := by
  rw [body] at ha
  split_ifs at ha
  · obtain ⟨l, hl, ha⟩ := List.mem_flatten.1 ha
    rw [List.eq_of_mem_replicate hl] at ha
    exact copyRound_bound hkm ha
  · rcases List.mem_append.1 ha with ha | ha
    · obtain ⟨i, hi, rfl⟩ := List.mem_map.1 ha
      exact List.mem_range.1 ((List.takeWhile_sublist o.buff).subset hi)
    · split_ifs at ha
      · cases ha
      · exact rebuild_bound hkm ha

theorem beyond_iff (hkm : k ≤ m) :
    a ∈ accesses o n e ∧ capacity m k e.srcErrList.length a.1 ≤ a.2 ↔
      ∃ i, e.srcErrList.length ≤ i ∧ i < m ∧ a = (.tempBuff, i) := by
  simp only [accesses, setUp, List.mem_append, List.mem_flatMap, List.mem_range, List.mem_cons,
    List.not_mem_nil, or_false]
  constructor
  · rintro ⟨(⟨i, hi, rfl | rfl⟩ | ha) | ha, hcapacity⟩
    · exact absurd hi (Nat.not_lt.2 hcapacity)
    · exact ⟨i, hcapacity, hi, rfl⟩
    · exact absurd (body_bound hkm ha) (Nat.not_lt.2 hcapacity)
    · obtain ⟨i, hi, rfl⟩ := List.mem_map.1 ha
      exact absurd (List.mem_range.1 hi) (Nat.not_lt.2 hcapacity)
  · rintro ⟨i, hcapacity, hi, rfl⟩
    exact ⟨Or.inl (Or.inl ⟨i, hi, Or.inr rfl⟩), hcapacity⟩

/-- `temp_buff` has fewer elements than there are fragments. -/
theorem not_inBounds (hk : 1 ≤ k) (hkm : k < m) : ¬InBounds o n e := by
  intro h
  have hfew := e.few
  obtain ⟨ha, hcapacity⟩ := (beyond_iff (o := o) (n := n) (e := e) (Nat.le_of_lt hkm)).2
    ⟨e.srcErrList.length, Nat.le_refl _, by omega, rfl⟩
  exact absurd (h _ ha) (Nat.not_lt.2 hcapacity)

theorem zero_ascending : [0].Pairwise fun i j : ℕ => i < j := List.pairwise_singleton _ _

def oneErased : Erasure 3 2 where
  srcInErr := fun i => i == 0
  srcErrList := [0]
  nsrcerrs := 1
  ascending := zero_ascending
  flags := by simp
  nsrcerrs_eq := by decide
  few := by decide

theorem oneErased_beyond :
    (.tempBuff, 2) ∈ accesses ⟨fun _ => true, true, true⟩ 1 oneErased ∧
      ¬2 < capacity 3 2 oneErased.srcErrList.length .tempBuff :=
  ⟨by simp [accesses, setUp], by decide⟩

theorem not_inBounds_oneErased : ¬InBounds ⟨fun _ => true, true, true⟩ 1 oneErased :=
  not_inBounds (by decide) (by decide)

end MyScripts.ErasureCode.DecodeBounds
