import MyScripts.Shark.JournalText

/-!
# Groups read back from the journal

Every line of the journal ends in its only newline, so the lines the reader
sees are the lines that were written. A header is cut into the fields it was
printed from, no operation line starts like a line of stars, and the two lines
after the last operation of a list say whether the group goes on. What is left
are the writer's buffers and the reader's offset, an `int`.
-/
namespace MyScripts.Shark.Journal
open Library.Decimal Library.Tokens

structure Row.Lined (r : Row) : Prop where
  fn : '\n' ∉ r.fn.toList ∧ '*' ∉ r.fn.toList.head?
  labels : ∀ lf ∈ r.fields, '\n' ∉ lf.1.toList

instance (r : Row) : Decidable r.Lined :=
  decidable_of_iff (('\n' ∉ r.fn.toList ∧ '*' ∉ r.fn.toList.head?) ∧
      ∀ lf ∈ r.fields, '\n' ∉ lf.1.toList) ⟨fun h => ⟨h.1, h.2⟩, fun h => ⟨h.1, h.2⟩⟩

theorem row_lined {o : Op} {r : Row} (h : row o = some r) : r.Lined := by
  have hall : ∀ r ∈ row o, r.Lined := by
    cases o with
    | openedDir o => cases o <;> decide
    | noOpenDir o => cases o <;> decide
    | openedFile o => cases o <;> decide
    | noOpenFile o => cases o <;> decide
    | symlink o => cases o <;> decide
  exact hall r h

theorem WordOp.get_print (op : WordOp) (f : Field) :
    ' ' ∉ (f.get op.args).print ∧ '\n' ∉ (f.get op.args).print := by
  have hint : ∀ z : ℤ, ' ' ∉ (Value.int z).print ∧ '\n' ∉ (Value.int z).print := fun z =>
    ⟨not_mem_printInt (by decide) (by decide) z, not_mem_printInt (by decide) (by decide) z⟩
  cases f with
  | newpath => exact op.newpath_word
  | name => exact op.name_word
  | value => exact op.value_word
  | _ => exact hint _

theorem newline_not_mem_printInt (z : ℤ) : '\n' ∉ printInt z :=
  not_mem_printInt (by decide) (by decide) z

theorem isLine_number {w s : List Char} (hw : '\n' ∉ w) (z : ℤ) (hs : IsLine s) :
    IsLine (w ++ printInt z ++ s) := by
  refine isLine_append ?_ hs
  rw [List.mem_append, not_or]
  exact ⟨hw, newline_not_mem_printInt z⟩

theorem isLine_info (i : OpInfo) : IsLine i.print := by
  refine isLine_number (w := "op_info=(".toList) (by decide) i.group ?_
  refine isLine_number (w := [',']) (by decide) i.list ?_
  exact isLine_number (w := [',']) (by decide) i.op ⟨[')'], by decide, rfl⟩

theorem isLine_print {o : Op} {r : Row} (h : row o = some r) (op : WordOp) (i : OpInfo) :
    IsLine (r.print op.args i) := by
  have hfields : ∀ fs ⊆ r.fields, IsLine (printFields op.args i.print fs) := by
    intro fs
    induction fs with
    | nil => exact fun _ => isLine_info i
    | cons lf fs ih =>
      intro hsub
      have hlabel := (row_lined h).labels lf (hsub (List.mem_cons_self ..))
      have hline := isLine_append (w := printField op.args lf ++ [' ']) ?_
        (ih fun x hx => hsub (List.mem_cons_of_mem lf hx))
      · rwa [List.append_assoc] at hline
      · simp only [printField, List.mem_append, List.mem_cons, List.not_mem_nil, or_false, not_or]
        exact ⟨⟨hlabel, by decide, (op.get_print lf.2).2⟩, by decide⟩
  have hline := isLine_append (w := r.fn.toList ++ [' ']) ?_ (hfields r.fields (List.Subset.refl _))
  · rwa [List.append_assoc] at hline
  · rw [List.mem_append, not_or]
    exact ⟨(row_lined h).fn.1, by decide⟩

theorem mem_opLines {l : OpList} {group : ℤ} {line : List Char} (h : line ∈ l.opLines group) :
    ∃ o r, ∃ op ∈ l.ops, row o = some r ∧ (l.opType : ℤ) = o.type.code ∧
      line = r.print op.args ⟨group, l.opsIndex, op.opIndex⟩ := by
  rw [OpList.opLines, List.mem_filterMap] at h
  obtain ⟨op, hop, he⟩ := h
  obtain ⟨r, hr, rfl⟩ := Option.map_eq_some_iff.1 he
  obtain ⟨o, ho, hrow⟩ := Option.bind_eq_some_iff.1 hr
  obtain ⟨t, ht, hcode⟩ := Option.bind_eq_some_iff.1 ho
  refine ⟨o, r, op, hop, hrow, ?_, rfl⟩
  rw [OpType.eq_code_of_ofCode ht, Op.type_of_ofCode hcode]

theorem headerText_eq (path : List Char) (n f i o : ℤ) :
    headerText path n f i o = "path=".toList ++ path ++ ' ' :: ("need_open=".toList ++ printInt n ++
      ' ' :: ("file_type=".toList ++ printInt f ++ ' ' :: ("is_new=".toList ++ printInt i ++
        ' ' :: ("op_type=".toList ++ printInt o ++ ['\n'])))) := by
  have hn : " need_open=".toList = ' ' :: "need_open=".toList := by decide
  have hf : " file_type=".toList = ' ' :: "file_type=".toList := by decide
  have hi : " is_new=".toList = ' ' :: "is_new=".toList := by decide
  have ho : " op_type=".toList = ' ' :: "op_type=".toList := by decide
  calc headerText path n f i o
      = "path=".toList ++ path ++ " need_open=".toList ++ printInt n ++ " file_type=".toList ++
          printInt f ++ " is_new=".toList ++ printInt i ++ " op_type=".toList ++ printInt o ++
          ['\n'] := rfl
    _ = _ := by simp only [hn, hf, hi, ho, List.append_assoc, List.cons_append]

theorem isLine_header (l : OpList) : IsLine l.header := by
  rw [OpList.header, headerText_eq]
  refine isLine_append (w := "path=".toList ++ l.path) ?_ ?_
  · rw [List.mem_append, not_or]
    exact ⟨by decide, l.path.2.2⟩
  refine isLine_number (w := ' ' :: "need_open=".toList) (by decide) l.needOpen ?_
  refine isLine_number (w := ' ' :: "file_type=".toList) (by decide) l.fileType ?_
  refine isLine_number (w := ' ' :: "is_new=".toList) (by decide) l.isNew ?_
  exact isLine_number (w := ' ' :: "op_type=".toList) (by decide) l.opType isLine_newline

theorem isLine_listString (n : ℤ) : IsLine (listString n) := by
  refine isLine_number (w := "*************************op_list_num=".toList) (by decide) n ?_
  exact ⟨" *************************".toList, by decide, by decide⟩

theorem isLine_groupString (n : ℤ) : IsLine (groupString n) := by
  refine isLine_number (w := "#########################group_num=".toList) (by decide) n ?_
  exact ⟨" #########################".toList, by decide, by decide⟩

theorem isLine_of_mem_opLines {l : OpList} {group : ℤ} {line : List Char}
    (h : line ∈ l.opLines group) : IsLine line := by
  obtain ⟨o, r, op, _, hrow, _, rfl⟩ := mem_opLines h
  exact isLine_print hrow op _

theorem isLine_of_mem_lines (g : Group) : ∀ line ∈ g.lines, IsLine line := by
  intro line hline
  simp only [Group.lines, List.mem_append, List.mem_flatMap, OpList.lines, List.mem_cons,
    List.not_mem_nil, or_false] at hline
  rcases hline with ⟨l, _, rfl | hop | rfl⟩ | rfl
  · exact isLine_header l
  · exact isLine_of_mem_opLines hop
  · exact isLine_listString _
  · exact isLine_groupString _

theorem cutHeader_number {set : JournalOpList → ℤ → JournalOpList}
    {sets : List (JournalOpList → ℤ → JournalOpList)} {w : List Char} {z : ℤ} (rest : List Char)
    (l : JournalOpList) (hw : ' ' ∉ w ∧ '=' ∉ w) (hz : InInt32 z) :
    cutHeader (set :: sets) (w ++ '=' :: printInt z ++ ' ' :: rest) l =
      cutHeader sets rest (set l z) := by
  have hne : w ++ '=' :: printInt z ≠ [] := by simp
  have hspace : ' ' ∉ w ++ '=' :: printInt z := by
    simp only [List.mem_append, List.mem_cons, not_or]
    exact ⟨hw.1, by decide, not_mem_printInt (by decide) (by decide) z⟩
  have hz' := atoi_printInt hz ends_nil
  rw [List.append_nil] at hz'
  simp only [cutHeader, strtok_append hne hspace, after_append hw.2, Option.bind_some, hz']

theorem cutHeader_last {set : JournalOpList → ℤ → JournalOpList} {w : List Char} {z : ℤ}
    (l : JournalOpList) (hw : ' ' ∉ w ∧ '=' ∉ w) (hz : InInt32 z) :
    cutHeader [set] (w ++ '=' :: printInt z ++ ['\n']) l = some (set l z) := by
  have hspace : ' ' ∉ w ++ '=' :: printInt z ++ ['\n'] := by
    simp only [List.mem_append, List.mem_cons, List.not_mem_nil, or_false, not_or]
    exact ⟨⟨hw.1, by decide, not_mem_printInt (by decide) (by decide) z⟩, by decide⟩
  have hafter : after '=' (w ++ '=' :: printInt z ++ ['\n']) = some (printInt z ++ ['\n']) := by
    rw [List.append_assoc, List.cons_append, after_append hw.2]
  have hends : Ends ['\n'] := ends_cons (by decide)
  have hz' := atoi_printInt hz hends
  simp only [cutHeader, strtok_last (by simp) hspace, hafter, Option.bind_some, hz']

def OpList.opened (l : OpList) (type : Pool) (k : ℕ) : JournalOpList :=
  ⟨l.path, l.needOpen, l.fileType, l.isNew, l.opType, k, type, []⟩

theorem readHeader_header (type : Pool) (k : ℕ) (l : OpList) :
    readHeader type k l.header = some (l.opened type k) := by
  have hpath : ' ' ∉ "path=".toList ++ l.path := by
    rw [List.mem_append, not_or]
    exact ⟨by decide, l.path.2.1⟩
  have hafter : after '=' ("path=".toList ++ l.path) = some ↑l.path :=
    after_append (w := "path".toList) (by decide)
  have hopen : InInt32 l.needOpen := by
    unfold OpList.needOpen
    split_ifs <;> decide
  rw [OpList.header, headerText_eq, readHeader, strtok_append (by simp) hpath]
  simp only [Option.bind_some, hafter, headerSets]
  refine (cutHeader_number (w := "need_open".toList) _ _ (by decide) hopen).trans ?_
  refine (cutHeader_number (w := "file_type".toList) _ _ (by decide) l.fileType.2).trans ?_
  refine (cutHeader_number (w := "is_new".toList) _ _ (by decide) l.isNew.2).trans ?_
  exact cutHeader_last (w := "op_type".toList) _ (by decide) l.opType.2

theorem take_append_append {a b c : List Char} {n : ℕ} (h : n ≤ a.length) :
    (a ++ b ++ c).take n = a.take n := by
  rw [List.append_assoc, List.take_append_of_le_length h]

theorem take_listString (n : ℤ) : (listString n).take 10 = stars :=
  (take_append_append (a := "*************************op_list_num=".toList) (by decide)).trans
    (by decide)

theorem take_groupString (n : ℤ) : (groupString n).take 10 = hashes :=
  (take_append_append (a := "#########################group_num=".toList) (by decide)).trans
    (by decide)

theorem take_header_ne (l : OpList) : l.header.take 10 ≠ hashes := by
  intro h
  have hhead := congrArg List.head? h
  rw [OpList.header, headerText_eq] at hhead
  exact absurd hhead (show some 'p' ≠ some '#' by decide)

theorem opLine_cut {l : OpList} {group : ℤ} {line : List Char} (h : line ∈ l.opLines group) :
    line.take 10 ≠ stars ∧ (cutStringOperation FileOp.zero line l.opType).isSome := by
  obtain ⟨o, r, op, _, hrow, hclass, rfl⟩ := mem_opLines h
  constructor
  · obtain ⟨c, t, hct⟩ := List.exists_cons_of_ne_nil (row_regular hrow).fn_ne
    have hstar := (row_lined hrow).fn.2
    intro htake
    have hhead := congrArg List.head? htake
    rw [Row.print, hct] at hhead
    rw [hct] at hstar
    exact hstar hhead
  · rw [hclass, cutStringOperation_print hrow _ _ fun lf _ => (op.get_print lf.2).1]
    rfl

def cutOp (opType : ℤ) (k : ℕ) (line : List Char) : FileOp :=
  { (cutStringOperation FileOp.zero line opType).getD FileOp.zero with opIndex := k }

/-- What the reader should return for a list at position `k` of its group. -/
def OpList.readBack (l : OpList) (type : Pool) (group : ℤ) (k : ℕ) : JournalOpList :=
  { l.opened type k with ops := (l.opLines group).mapIdx (cutOp l.opType) }

def Group.readBack (g : Group) (type : Pool) (k : ℤ) : JournalGroup :=
  ⟨k, g.lists.mapIdx fun i l => l.readBack type g.opsgroupsIndex i⟩

theorem readOps_op {type : Pool} {done : List JournalOpList} {cur : JournalOpList} {n k : ℕ}
    {line : List Char} {op : FileOp} (rest : List (List Char)) (hl : line.take 10 ≠ stars)
    (hop : cutStringOperation FileOp.zero line cur.opType = some op) :
    readOps type done cur n k (line :: rest) =
      (readOps type done { cur with ops := cur.ops ++ [{ op with opIndex := n }] } (n + 1) k
        rest).map fun r => (r.1, line.length + r.2) := by
  rw [readOps.eq_def]
  simp only [if_neg hl, hop, Option.bind_some]

theorem readOps_lastList {type : Pool} {done : List JournalOpList} {cur : JournalOpList} {n k : ℕ}
    {line next : List Char} (rest : List (List Char)) (hl : line.take 10 = stars)
    (hn : next.take 10 = hashes) :
    readOps type done cur n k (line :: next :: rest) =
      some (done ++ [cur], line.length + next.length) := by
  rw [readOps.eq_def]
  simp only [if_pos hl, if_pos hn]

theorem readOps_nextList {type : Pool} {done : List JournalOpList} {cur cur' : JournalOpList}
    {n k : ℕ} {line next : List Char} (rest : List (List Char)) (hl : line.take 10 = stars)
    (hn : next.take 10 ≠ hashes) (hcur : readHeader type (k + 1) next = some cur') :
    readOps type done cur n k (line :: next :: rest) =
      (readOps type (done ++ [cur]) cur' 0 (k + 1) rest).map fun r =>
        (r.1, line.length + (next.length + r.2)) := by
  rw [readOps.eq_def]
  simp only [if_pos hl, if_neg hn, hcur, Option.bind_some]

theorem readOps_opLines {type : Pool} {done : List JournalOpList} {cur : JournalOpList} {n k : ℕ}
    {ls : List (List Char)} (rest : List (List Char))
    (h : ∀ line ∈ ls, line.take 10 ≠ stars ∧
      (cutStringOperation FileOp.zero line cur.opType).isSome) :
    readOps type done cur n k (ls ++ rest) =
      (readOps type done
        { cur with ops := cur.ops ++ ls.mapIdx fun i => cutOp cur.opType (n + i) }
        (n + ls.length) k rest).map fun r => (r.1, ls.flatten.length + r.2) := by
  induction ls generalizing cur n with
  | nil => simp
  | cons line ls ih =>
    obtain ⟨hstars, hcut⟩ := h line (List.mem_cons_self ..)
    obtain ⟨op, hop⟩ := Option.isSome_iff_exists.1 hcut
    have hcutOp : { op with opIndex := (n : ℤ) } = cutOp cur.opType (n + 0) line := by
      rw [cutOp, hop]
      rfl
    have hshift : ∀ i, n + 1 + i = n + (i + 1) := fun i => by omega
    have htail := @ih { cur with ops := cur.ops ++ [{ op with opIndex := n }] } (n + 1)
      fun x hx => h x (List.mem_cons_of_mem line hx)
    rw [List.cons_append, readOps_op _ hstars hop, htail, hcutOp, Option.map_map, List.mapIdx_cons]
    simp only [List.append_assoc, List.singleton_append, List.length_cons, List.flatten_cons,
      List.length_append, hshift, Nat.add_assoc, Function.comp_def]

theorem readOps_lists {type : Pool} {group n : ℤ} (more : List (List Char)) (l : OpList)
    (ls : List OpList) (done : List JournalOpList) (k : ℕ) :
    readOps type done (l.opened type k) 0 k
        (l.opLines group ++ listString l.opsIndex ::
          (ls.flatMap (·.lines group) ++ groupString n :: more)) =
      some (done ++ (l :: ls).mapIdx fun i l => l.readBack type group (k + i),
        (l.opLines group ++ listString l.opsIndex ::
          (ls.flatMap (·.lines group) ++ [groupString n])).flatten.length) := by
  induction ls generalizing l done k with
  | nil =>
    have hops := @readOps_opLines type done (l.opened type k) 0 k (l.opLines group)
      (listString l.opsIndex :: groupString n :: more) fun line hline => opLine_cut hline
    simp only [Nat.zero_add] at hops
    rw [List.flatMap_nil, List.nil_append, hops,
      readOps_lastList _ (take_listString _) (take_groupString _)]
    simp [OpList.readBack, OpList.opened]
  | cons l' ls ih =>
    have hops := @readOps_opLines type done (l.opened type k) 0 k (l.opLines group)
      (listString l.opsIndex :: ((l' :: ls).flatMap (·.lines group) ++ groupString n :: more))
      fun line hline => opLine_cut hline
    simp only [Nat.zero_add] at hops
    have hnext : (l' :: ls).flatMap (·.lines group) ++ groupString n :: more =
        l'.header :: (l'.opLines group ++ listString l'.opsIndex ::
          (ls.flatMap (·.lines group) ++ groupString n :: more)) := by
      simp [OpList.lines]
    rw [hops, hnext, readOps_nextList _ (take_listString _) (take_header_ne _)
      (readHeader_header type (k + 1) l'), ih]
    have hshift : ∀ i : ℕ, (k : ℤ) + 1 + (i + 1) = k + (i + 1 + 1) := fun i => by omega
    simp [OpList.readBack, OpList.opened, OpList.lines, hshift]

/-- A read from the end of `before` gives the group there, whatever the offset is then. -/
theorem analyzeStringRead_next (type : Pool) (g : Group) {before more : List Char} {r : Reader}
    (ho : r.offset = before.length) :
    analyzeStringRead type (before ++ (g.text ++ more)) r =
      some (some (g.readBack type r.groupNum),
        ⟨toInt32 (before ++ g.text).length, r.groupNum + 1⟩) := by
  obtain ⟨l, ls, hls⟩ := List.exists_cons_of_ne_nil g.nonempty
  have hdrop : (before ++ (g.text ++ more)).drop (seek r.offset) = g.text ++ more := by
    rw [seek, ho, Int.toNat_natCast, List.drop_left]
  have hlines : lines (g.text ++ more) = l.header :: (l.opLines g.opsgroupsIndex ++
      listString l.opsIndex :: (ls.flatMap (·.lines g.opsgroupsIndex) ++
        groupString g.opsgroupsIndex :: lines more)) := by
    rw [Group.text, lines_flatten_append (isLine_of_mem_lines g), Group.lines, hls]
    simp [OpList.lines]
  have hread := @readOps_lists type g.opsgroupsIndex g.opsgroupsIndex (lines more) l ls [] 0
  have htext : l.header.length + (l.opLines g.opsgroupsIndex ++ listString l.opsIndex ::
      (ls.flatMap (·.lines g.opsgroupsIndex) ++ [groupString g.opsgroupsIndex])).flatten.length =
      g.text.length := by
    rw [Group.text, Group.lines, hls]
    simp [OpList.lines]
  have hoffset : r.offset + (g.text.length : ℕ) = (before ++ g.text).length := by
    rw [ho, List.length_append]
    push_cast
    rfl
  rw [analyzeStringRead, hdrop, hlines]
  simp only [readHeader_header, Option.bind_some, hread, Option.map_some, ← hoffset, ← htext]
  simp [Group.readBack, hls]

theorem analyzeStringRead_group (type : Pool) (g : Group) {before more : List Char} {r : Reader}
    (ho : r.offset = before.length) (hlen : (before ++ g.text).length < 2 ^ 31) :
    analyzeStringRead type (before ++ (g.text ++ more)) r =
      some (some (g.readBack type r.groupNum), ⟨(before ++ g.text).length, r.groupNum + 1⟩) := by
  rw [analyzeStringRead_next type g ho, toInt32_eq ⟨by omega, by omega⟩]

theorem analyzeStringRead_end (type : Pool) {journal : List Char} {r : Reader}
    (ho : r.offset = journal.length) : analyzeStringRead type journal r = some (none, r) := by
  have hdrop : journal.drop (seek r.offset) = [] := by
    rw [seek, ho, Int.toNat_natCast, List.drop_length]
  rw [analyzeStringRead, hdrop]
  rfl

def OpList.Fits (l : OpList) (group : ℤ) : Prop :=
  l.header.length < 4096 ∧ ∀ line ∈ l.opLines group, line.length < 2048

def Group.Fits (g : Group) : Prop := ∀ l ∈ g.lists, l.Fits g.opsgroupsIndex

theorem sprintf_eq_some {size : ℕ} {s t : List Char} :
    sprintf size s = some t ↔ s.length < size ∧ t = s := by
  rw [sprintf, Option.ite_none_right_eq_some, Option.some.injEq, eq_comm (a := s)]

theorem analyzeStringWrite_eq_some {cls : ℤ} {i : OpInfo} {op : FileOp} {s : List Char} :
    analyzeStringWrite cls i op = some s ↔
      (∀ line ∈ emitted cls i op, line.length < 2048) ∧ s = (emitted cls i op).getD [] := by
  rw [analyzeStringWrite]
  cases emitted cls i op with
  | none => simp [eq_comm]
  | some line => simp [sprintf_eq_some]

theorem writeOps_eq_some {cls group list : ℤ} {ops : List WordOp} {s : List Char} :
    writeOps cls group list ops = some s ↔
      (∀ line ∈ ops.filterMap fun op => emitted cls ⟨group, list, op.opIndex⟩ op.toFileOp,
        line.length < 2048) ∧
      s = (ops.filterMap fun op => emitted cls ⟨group, list, op.opIndex⟩ op.toFileOp).flatten := by
  induction ops generalizing s with
  | nil => simp [writeOps, eq_comm]
  | cons op ops ih =>
    simp only [writeOps, Option.bind_eq_some_iff, Option.map_eq_some_iff,
      analyzeStringWrite_eq_some, ih, List.filterMap_cons]
    cases emitted cls ⟨group, list, op.opIndex⟩ op.toFileOp with
    | none => simp [eq_comm]
    | some line =>
      constructor
      · rintro ⟨_, ⟨hl, rfl⟩, _, ⟨hs, rfl⟩, rfl⟩
        exact ⟨List.forall_mem_cons.2 ⟨hl _ rfl, hs⟩, rfl⟩
      · rintro ⟨h, rfl⟩
        obtain ⟨hl, hs⟩ := List.forall_mem_cons.1 h
        exact ⟨_, ⟨fun _ he => Option.some.inj he ▸ hl, rfl⟩, _, ⟨hs, rfl⟩, rfl⟩

theorem length_listString (n : ℤ) : (listString n).length = 37 + (printInt n).length + 27 := by
  change ("*************************op_list_num=".toList ++ printInt n ++
    " *************************\n".toList).length = _
  simp only [List.length_append]
  rfl

theorem length_groupString (n : ℤ) : (groupString n).length = 35 + (printInt n).length + 27 := by
  change ("#########################group_num=".toList ++ printInt n ++
    " #########################\n".toList).length = _
  simp only [List.length_append]
  rfl

theorem writeList_eq_some {group : ℤ} {l : OpList} {s : List Char} :
    writeList group l = some s ↔ l.Fits group ∧ s = (l.lines group).flatten := by
  have hlast : sprintf 128 (listString l.opsIndex) = some (listString l.opsIndex) := by
    have hn := length_printInt_le l.opsIndex.2
    rw [sprintf, if_pos (by rw [length_listString]; omega)]
  have hlines : (l.lines group).flatten =
      l.header ++ (l.opLines group).flatten ++ listString l.opsIndex := by
    simp [OpList.lines]
  simp only [writeList, hlast, Option.bind_eq_some_iff, Option.map_eq_some_iff, sprintf_eq_some,
    writeOps_eq_some, hlines]
  constructor
  · rintro ⟨_, ⟨hheader, rfl⟩, _, ⟨hops, rfl⟩, _, ⟨⟩, rfl⟩
    exact ⟨⟨hheader, hops⟩, rfl⟩
  · rintro ⟨⟨hheader, hops⟩, rfl⟩
    exact ⟨_, ⟨hheader, rfl⟩, _, ⟨hops, rfl⟩, _, rfl, rfl⟩

theorem writeLists_eq_some {group : ℤ} {ls : List OpList} {s : List Char} :
    writeLists group ls = some s ↔
      (∀ l ∈ ls, l.Fits group) ∧ s = (ls.flatMap (·.lines group)).flatten := by
  induction ls generalizing s with
  | nil => simp [writeLists, eq_comm]
  | cons l ls ih =>
    simp only [writeLists, Option.bind_eq_some_iff, Option.map_eq_some_iff, writeList_eq_some, ih,
      List.forall_mem_cons, List.flatMap_cons, List.flatten_append]
    constructor
    · rintro ⟨_, ⟨hl, rfl⟩, _, ⟨hls, rfl⟩, rfl⟩
      exact ⟨⟨hl, hls⟩, rfl⟩
    · rintro ⟨⟨hl, hls⟩, rfl⟩
      exact ⟨_, ⟨hl, rfl⟩, _, ⟨hls, rfl⟩, rfl⟩

theorem writeGroup_eq_some {g : Group} {s : List Char} :
    writeGroup g = some s ↔ g.Fits ∧ s = g.text := by
  have hlast : sprintf 128 (groupString g.opsgroupsIndex) = some (groupString g.opsgroupsIndex) := by
    have hn := length_printInt_le g.opsgroupsIndex.2
    rw [sprintf, if_pos (by rw [length_groupString]; omega)]
  have htext : g.text = (g.lists.flatMap (·.lines g.opsgroupsIndex)).flatten ++
      groupString g.opsgroupsIndex := by
    simp [Group.text, Group.lines]
  simp only [writeGroup, hlast, Option.bind_eq_some_iff, Option.map_some, writeLists_eq_some, htext]
  constructor
  · rintro ⟨_, ⟨hg, rfl⟩, h⟩
    exact ⟨hg, (Option.some.inj h).symm⟩
  · rintro ⟨hg, rfl⟩
    exact ⟨_, ⟨hg, rfl⟩, rfl⟩

theorem writeGroups_eq_some {gs : List Group} {s : List Char} :
    writeGroups gs = some s ↔ (∀ g ∈ gs, g.Fits) ∧ s = text gs := by
  induction gs generalizing s with
  | nil => simp [writeGroups, text, eq_comm]
  | cons g gs ih =>
    simp only [writeGroups, Option.bind_eq_some_iff, Option.map_eq_some_iff, writeGroup_eq_some, ih,
      List.forall_mem_cons, text, List.flatMap_cons]
    constructor
    · rintro ⟨_, ⟨hg, rfl⟩, _, ⟨hgs, rfl⟩, rfl⟩
      exact ⟨⟨hg, hgs⟩, rfl⟩
    · rintro ⟨⟨hg, hgs⟩, rfl⟩
      exact ⟨_, ⟨hg, rfl⟩, _, ⟨hgs, rfl⟩, rfl⟩

def reads (type : Pool) (journal : List Char) :
    ℕ → Reader → Option (List (Option JournalGroup) × Reader)
  | 0, r => some ([], r)
  | n + 1, r =>
    (analyzeStringRead type journal r).bind fun x =>
      (reads type journal n x.2).map fun y => (x.1 :: y.1, y.2)

def FramingRoundTrip (type : Pool) (gs : List Group) : Prop :=
  ∃ journal r, writeGroups gs = some journal ∧
    reads type journal gs.length Reader.init =
      some (gs.mapIdx fun k g => some (g.readBack type k), r) ∧
    ∃ r', analyzeStringRead type journal r = some (none, r')

theorem reads_text (type : Pool) {gs : List Group} {before : List Char} {k : ℕ} {r : Reader}
    (ho : r.offset = before.length) (hk : r.groupNum = k)
    (hlen : (before ++ text gs).length < 2 ^ 31) :
    reads type (before ++ text gs) gs.length r =
      some (gs.mapIdx fun i g => some (g.readBack type ((k + i : ℕ) : ℤ)),
        ⟨(before ++ text gs).length, (k + gs.length : ℕ)⟩) := by
  induction gs generalizing before k r with
  | nil =>
    obtain ⟨o, n⟩ := r
    simp_all [reads, text]
  | cons g gs ih =>
    have htext : text (g :: gs) = g.text ++ text gs := rfl
    rw [htext] at hlen ⊢
    have hlen' : (before ++ g.text).length < 2 ^ 31 := by
      rw [← List.append_assoc, List.length_append] at hlen
      omega
    have htail := @ih (before ++ g.text) (k + 1) ⟨(before ++ g.text).length, r.groupNum + 1⟩ rfl
      (by rw [hk]; rfl) (by rwa [List.append_assoc])
    have hshift : ∀ i, k + 1 + i = k + (i + 1) := fun i => by omega
    rw [List.length_cons, reads, analyzeStringRead_group type g ho hlen', Option.bind_some,
      ← List.append_assoc, htail, Option.map_some, List.mapIdx_cons, hk]
    simp only [hshift, Nat.add_zero]

theorem analyzeStringRead_offset {type : Pool} {journal : List Char} {r r' : Reader}
    {x : Option JournalGroup} (h : analyzeStringRead type journal r = some (x, r'))
    (hr : InInt32 r.offset) : InInt32 r'.offset := by
  rw [analyzeStringRead] at h
  split at h
  · cases h
    exact hr
  · obtain ⟨cur, _, h⟩ := Option.bind_eq_some_iff.1 h
    obtain ⟨k, _, h⟩ := Option.map_eq_some_iff.1 h
    cases h
    exact toInt32_range _

theorem length_le_of_null {type : Pool} {journal : List Char} {r r' : Reader}
    (h : analyzeStringRead type journal r = some (none, r')) :
    journal.length ≤ seek r.offset ∧ r' = r := by
  rw [analyzeStringRead] at h
  split at h
  next hnil =>
    cases h
    exact ⟨List.drop_eq_nil_iff.1 (lines_eq_nil.1 hnil), rfl⟩
  next =>
    obtain ⟨cur, _, h⟩ := Option.bind_eq_some_iff.1 h
    obtain ⟨k, _, h⟩ := Option.map_eq_some_iff.1 h
    cases h

theorem reads_offset {type : Pool} {journal : List Char} {n : ℕ} {r r' : Reader}
    {xs : List (Option JournalGroup)} (h : reads type journal n r = some (xs, r'))
    (hr : InInt32 r.offset) : InInt32 r'.offset := by
  induction n generalizing r xs with
  | zero =>
    cases h
    exact hr
  | succ n ih =>
    obtain ⟨x, hx, h⟩ := Option.bind_eq_some_iff.1 h
    obtain ⟨y, hy, h⟩ := Option.map_eq_some_iff.1 h
    cases h
    exact ih hy (analyzeStringRead_offset hx hr)

theorem FramingRoundTrip.necessary {type : Pool} {gs : List Group} (h : FramingRoundTrip type gs) :
    (∀ g ∈ gs, g.Fits) ∧ (text gs).length < 2 ^ 31 := by
  obtain ⟨journal, r, hw, hr, r', hnull⟩ := h
  obtain ⟨hfits, rfl⟩ := writeGroups_eq_some.1 hw
  obtain ⟨hlen, _⟩ := length_le_of_null hnull
  obtain ⟨_, hlt⟩ := reads_offset hr (by decide)
  rw [seek] at hlen
  exact ⟨hfits, by omega⟩

/-- The journal is read back group by group if and only if every line fits the
buffer it is printed in and the offset of its end is within the range of `int`. -/
theorem framingRoundTrip_iff (type : Pool) (gs : List Group) :
    FramingRoundTrip type gs ↔ (∀ g ∈ gs, g.Fits) ∧ (text gs).length < 2 ^ 31 := by
  refine ⟨FramingRoundTrip.necessary, fun ⟨hfits, hlen⟩ => ?_⟩
  have hread := @reads_text type gs [] 0 Reader.init rfl rfl hlen
  simp only [Nat.zero_add, List.nil_append] at hread
  exact ⟨text gs, _, writeGroups_eq_some.2 ⟨hfits, rfl⟩, hread, _, analyzeStringRead_end type rfl⟩

theorem Group.le_length_text (g : Group) : 128 ≤ g.text.length := by
  obtain ⟨l, ls, hls⟩ := List.exists_cons_of_ne_nil g.nonempty
  have hpos : ∀ z : ℤ, 1 ≤ (printInt z).length := by
    intro z
    cases z with
    | ofNat n => exact List.length_pos_iff.2 (printNat_ne_nil n)
    | negSucc n => exact Nat.le_add_left ..
  have hlist := hpos l.opsIndex
  have hgroup := hpos g.opsgroupsIndex
  rw [Group.text, Group.lines, hls]
  simp only [OpList.lines, List.flatMap_cons, List.flatten_append, List.flatten_cons,
    List.flatten_nil, List.length_append, length_listString, length_groupString, List.length_nil]
  omega

theorem le_length_text (gs : List Group) : 128 * gs.length ≤ (text gs).length := by
  induction gs with
  | nil => exact Nat.zero_le _
  | cons g gs ih =>
    have hg := g.le_length_text
    have htext : (text (g :: gs)).length = g.text.length + (text gs).length := List.length_append
    rw [htext, List.length_cons]
    omega

theorem separators_not_mem_a : ' ' ∉ ['/', 'a'] ∧ '\n' ∉ ['/', 'a'] := by decide

def emptyList : OpList where
  path := ⟨['/', 'a'], separators_not_mem_a⟩
  fileType := smallInt 3
  isNew := smallInt 1
  opType := smallInt 2
  opsIndex := smallInt 0
  ops := []

theorem emptyLists_ne_nil : [emptyList] ≠ [] := List.cons_ne_nil _ _

def emptyGroup (i : Fin (2 ^ 24)) : Group where
  lists := [emptyList]
  opsgroupsIndex := ⟨i, by unfold InInt32; omega⟩
  nonempty := emptyLists_ne_nil

/-- `2 ^ 24` groups are more text than the offset can count. -/
theorem framingRoundTrip_false_manyGroups :
    ¬FramingRoundTrip .disk (List.ofFn emptyGroup) := by
  intro h
  have hlen := le_length_text (List.ofFn emptyGroup)
  have hlt := h.necessary.2
  rw [List.length_ofFn] at hlen
  omega

end MyScripts.Shark.Journal
