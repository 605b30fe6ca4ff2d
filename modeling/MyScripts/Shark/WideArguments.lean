import MyScripts.Shark.JournalRecord

/-!
# Arguments of 64 bits

`analyze_string_write` prints offsets, lengths and seconds with `%ld`, but
`cut_string_operation` reads every number with `atoi`, which gives an `int`.
-/
namespace MyScripts.Shark.Journal
open Library.Decimal Library.Tokens

def InInt64 (z : ℤ) : Prop := -2 ^ 63 ≤ z ∧ z < 2 ^ 63

instance (z : ℤ) : Decidable (InInt64 z) := by
  unfold InInt64
  infer_instance

def wideFields : List Field :=
  [.offset, .length, .fallocateOffset, .fallocateLen, .time0Sec, .time1Sec]

def numberFields : List Field :=
  [.offset, .length, .fallocateMode, .fallocateOffset, .fallocateLen, .time0Sec, .time0Usec]

structure Sized (a : Args) : Prop where
  offset : InInt64 a.offset
  length : InInt64 a.length
  fallocateMode : InInt32 a.fallocateMode
  fallocateOffset : InInt64 a.fallocateOffset
  fallocateLen : InInt64 a.fallocateLen
  time0Sec : InInt64 a.time0Sec
  time0Usec : InInt64 a.time0Usec
  time1Sec : InInt64 a.time1Sec

structure OpInfo.Sized (i : OpInfo) : Prop where
  group : InInt32 i.group
  list : InInt32 i.list
  op : InInt32 i.op

def Survives (o : Op) (i : OpInfo) (op : FileOp) (g : Field) : Prop :=
  ∃ line op', analyzeStringWrite o.type.code i op = some line ∧
    cutStringOperation FileOp.zero line o.type.code = some op' ∧ g.get op'.args = g.get op.args

variable {o : Op} {r : Row} {a b : Args} {i : OpInfo} {g : Field}

theorem inInt64_of_inInt32 {z : ℤ} (h : InInt32 z) : InInt64 z := by
  obtain ⟨hlower, hupper⟩ := h
  constructor <;> omega

theorem atoi_printInt_wide {z : ℤ} (h : InInt64 z) : atoi (printInt z) = toInt32 z := by
  have hscan := scanInt_printInt z ends_nil
  rw [List.append_nil] at hscan
  rw [atoi, hscan, Option.getD_some, clampLong_eq h.1 h.2]

theorem toInt32_eq_iff {z : ℤ} : toInt32 z = z ↔ InInt32 z := by
  refine ⟨fun h => ?_, toInt32_eq⟩
  rw [← h]
  exact toInt32_range z

theorem get_read_self_congr (p : List Char) (a b : Args) : g.get (g.read p a) = g.get (g.read p b) := by
  cases g <;> rfl

theorem get_readFields_of_not_mem {fs : List (String × Field)} (h : g ∉ fs.map Prod.snd) :
    g.get (readFields a fs b) = g.get b := by
  induction fs generalizing b with
  | nil => rfl
  | cons lf fs ih =>
    rw [List.map_cons, List.mem_cons, not_or] at h
    rw [readFields, ih h.2, Field.get_read_of_ne h.1]

theorem get_readFields_of_mem {fs : List (String × Field)} (hn : (fs.map Prod.snd).Nodup)
    (h : g ∈ fs.map Prod.snd) :
    g.get (readFields a fs b) = g.get (g.read (g.get a).print Args.zero) := by
  induction fs generalizing b with
  | nil => exact absurd h List.not_mem_nil
  | cons lf fs ih =>
    rw [List.map_cons, List.nodup_cons] at hn
    rw [readFields]
    rcases List.mem_cons.1 h with rfl | h
    · rw [get_readFields_of_not_mem hn.1]
      exact get_read_self_congr _ _ _
    · exact ih hn.2 h

/-- Such an operation prints only numbers, and at most three of them; each wide argument is one
but the second time value. -/
structure Row.Narrow (r : Row) (g : Field) : Prop where
  fn : r.fn.toList.length ≤ 10
  fields : r.fields.length ≤ 3
  labels : ∀ lf ∈ r.fields, lf.1.toList.length ≤ 10
  numbers : ∀ lf ∈ r.fields, lf.2 ∈ numberFields
  mem_iff : g ∈ r.fields.map Prod.snd ↔ g ≠ .time1Sec

instance (r : Row) (g : Field) : Decidable (r.Narrow g) :=
  decidable_of_iff (r.fn.toList.length ≤ 10 ∧ r.fields.length ≤ 3 ∧
      (∀ lf ∈ r.fields, lf.1.toList.length ≤ 10) ∧ (∀ lf ∈ r.fields, lf.2 ∈ numberFields) ∧
      (g ∈ r.fields.map Prod.snd ↔ g ≠ .time1Sec))
    ⟨fun h => ⟨h.1, h.2.1, h.2.2.1, h.2.2.2.1, h.2.2.2.2⟩, fun h => ⟨h.1, h.2, h.3, h.4, h.5⟩⟩

theorem exists_narrow (hg : g ∈ argFields o) (hwide : g ∈ wideFields) :
    ∃ r, row o = some r ∧ r.Narrow g := by
  have hall : ∀ g ∈ argFields o, g ∈ wideFields → ∃ r ∈ row o, r.Narrow g := by
    cases o with
    | openedDir o => cases o <;> decide
    | noOpenDir o => cases o <;> decide
    | openedFile o => cases o <;> decide
    | noOpenFile o => cases o <;> decide
    | symlink o => cases o <;> decide
  exact hall g hg hwide

theorem Sized.get_number (h : Sized a) (hg : g ∈ numberFields) :
    ∃ z, g.get a = .int z ∧ InInt64 z := by
  simp only [numberFields, List.mem_cons, List.not_mem_nil, or_false] at hg
  rcases hg with rfl | rfl | rfl | rfl | rfl | rfl | rfl
  · exact ⟨_, rfl, h.offset⟩
  · exact ⟨_, rfl, h.length⟩
  · exact ⟨_, rfl, inInt64_of_inInt32 h.fallocateMode⟩
  · exact ⟨_, rfl, h.fallocateOffset⟩
  · exact ⟨_, rfl, h.fallocateLen⟩
  · exact ⟨_, rfl, h.time0Sec⟩
  · exact ⟨_, rfl, h.time0Usec⟩

theorem get_read_wide {z : ℤ} (hwide : g ∈ wideFields) (hz : InInt64 z) :
    g.get (g.read (printInt z) Args.zero) = .int (toInt32 z) := by
  rw [← atoi_printInt_wide hz]
  simp only [wideFields, List.mem_cons, List.not_mem_nil, or_false] at hwide
  rcases hwide with rfl | rfl | rfl | rfl | rfl | rfl <;> rfl

theorem length_printInt_wide {z : ℤ} (h : InInt64 z) : (printInt z).length ≤ 20 := by
  obtain ⟨hlower, hupper⟩ := h
  have hdigits : ∀ n : ℕ, n ≤ 2 ^ 63 → (printNat n).length ≤ 19 := by
    intro n hn
    exact length_printNat_le (by decide) (Nat.lt_of_le_of_lt hn (by decide))
  cases z with
  | ofNat n =>
    rw [Int.ofNat_eq_natCast] at hupper
    exact Nat.le_succ_of_le (hdigits n (by omega))
  | negSucc n =>
    rw [Int.negSucc_eq] at hlower
    exact Nat.succ_le_succ (hdigits (n + 1) (by omega))

theorem length_info (h : i.Sized) : i.print.length ≤ 46 := by
  have hgroup := length_printInt_le h.group
  have hlist := length_printInt_le h.list
  have hop := length_printInt_le h.op
  have hopen : "op_info=(".toList.length = 9 := by decide
  have hclose : ")\n".toList.length = 2 := by decide
  unfold OpInfo.print
  simp only [List.length_append, List.length_cons, hopen, hclose]
  omega

theorem length_printFields {tail : List Char} {fs : List (String × Field)} (ha : Sized a)
    (hlabels : ∀ lf ∈ fs, lf.1.toList.length ≤ 10) (hnumbers : ∀ lf ∈ fs, lf.2 ∈ numberFields) :
    (printFields a tail fs).length ≤ 32 * fs.length + tail.length := by
  induction fs with
  | nil =>
    rw [printFields]
    omega
  | cons lf fs ih =>
    have hrest := ih (fun x hx => hlabels x (List.mem_cons_of_mem lf hx))
      fun x hx => hnumbers x (List.mem_cons_of_mem lf hx)
    have hlabel := hlabels lf List.mem_cons_self
    obtain ⟨z, hz, hrange⟩ := ha.get_number (hnumbers lf List.mem_cons_self)
    have hlength := length_printInt_wide hrange
    rw [printFields, printField, hz, Value.print]
    simp only [List.length_append, List.length_cons]
    omega

theorem length_print (ha : Sized a) (hi : i.Sized) (hr : r.Narrow g) :
    (r.print a i).length < 2048 := by
  have hfn := hr.fn
  have hcount := hr.fields
  have hinfo := length_info hi
  have hfields := @length_printFields a i.print r.fields ha hr.labels hr.numbers
  rw [Row.print]
  simp only [List.length_append, List.length_cons]
  omega

theorem survives_iff_get {op : FileOp} (hop : op.op = o.code) (hi : i.Sized) (ha : Sized op.args)
    (hrow : row o = some r) (hr : r.Narrow g) :
    Survives o i op g ↔ g.get (readFields op.args r.fields Args.zero) = g.get op.args := by
  have hplain : ∀ lf ∈ r.fields, ' ' ∉ (lf.2.get op.args).print := by
    intro lf hlf
    obtain ⟨z, hz, -⟩ := ha.get_number (hr.numbers lf hlf)
    rw [hz]
    exact not_mem_printInt (by decide) (by decide) z
  have hwrite := (analyzeStringWrite_eq hrow i hop).trans (if_pos (length_print ha hi hr))
  have hcut := cutStringOperation_print hrow op.args i hplain
  constructor
  · rintro ⟨line, op', hline, hop', hget⟩
    obtain rfl := Option.some.inj (hwrite.symm.trans hline)
    obtain rfl := Option.some.inj (hcut.symm.trans hop')
    exact hget
  · intro hget
    exact ⟨_, _, hwrite, hcut, hget⟩

/-- An offset, a length or a time survives the journal if and only if it fits an `int`, and the
second time value, which is not written, if and only if it is 0. -/
theorem survives_iff (i : OpInfo) (op : FileOp) (hop : op.op = o.code) (hi : i.Sized)
    (ha : Sized op.args) (hg : g ∈ argFields o) (hwide : g ∈ wideFields) :
    Survives o i op g ↔
      if g = .time1Sec then op.args.time1Sec = 0 else (g.get op.args).Plain := by
  obtain ⟨r, hrow, hr⟩ := exists_narrow hg hwide
  rw [survives_iff_get hop hi ha hrow hr]
  by_cases htime : g = .time1Sec
  · have hnot : g ∉ r.fields.map Prod.snd := fun hmem => hr.mem_iff.1 hmem htime
    rw [if_pos htime, get_readFields_of_not_mem hnot, htime]
    exact ⟨fun h => (Value.int.inj h).symm, fun h => congrArg Value.int h.symm⟩
  · have hmem := hr.mem_iff.2 htime
    obtain ⟨lf, hlf, rfl⟩ := List.mem_map.1 hmem
    obtain ⟨z, hz, hrange⟩ := ha.get_number (hr.numbers lf hlf)
    rw [if_neg htime, get_readFields_of_mem (row_regular hrow).nodup hmem, hz, Value.print,
      get_read_wide hwide hrange, Value.Plain, ← toInt32_eq_iff]
    exact ⟨Value.int.inj, congrArg Value.int⟩

def truncateOp (length : ℤ) : FileOp :=
  ⟨NoOpenFileOp.truncate.code, 0, { Args.zero with length := length }⟩

theorem survives_iff_largestInt :
    Survives (.noOpenFile .truncate) ⟨0, 0, 0⟩ (truncateOp (2 ^ 31 - 1)) .length := by
  apply (survives_iff ⟨0, 0, 0⟩ (truncateOp (2 ^ 31 - 1)) rfl ⟨by decide, by decide, by decide⟩
    ⟨by decide, by decide, by decide, by decide, by decide, by decide, by decide, by decide⟩
    (by decide) (by decide)).2
  exact ⟨by decide, by decide⟩

/-- A file of 4 GiB is truncated to nothing when the journal is replayed. -/
theorem survives_false_truncate :
    ¬Survives (.noOpenFile .truncate) ⟨0, 0, 0⟩ (truncateOp (2 ^ 32)) .length := by
  intro h
  have hget := (survives_iff_get rfl ⟨by decide, by decide, by decide⟩
    ⟨by decide, by decide, by decide, by decide, by decide, by decide, by decide, by decide⟩
    (rfl : row (.noOpenFile .truncate) = some ⟨"truncate", [("length", .length)]⟩)
    (by decide)).1 h
  exact absurd hget (by decide)

end MyScripts.Shark.Journal
