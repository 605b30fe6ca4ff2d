import MyScripts.Shark.FaithfulExecution
import MyScripts.Shark.NodeRelease

/-!
# A list of an unopened file that fails half-way

`operation_file` leaves the position of the last success in `perform_op_index`,
and the worker keeps it in an unsigned field. `worker_move_list` compares it with
the position of each op that has a node and decides by it what becomes of the
node. The ops look their nodes up by number, so the first op that gives a node's
number decides.
-/
namespace MyScripts.Shark.Executor
open Library.Imperative Library.Run FileTable Journal

section Moves

variable {c : Config} {w : Worker} {t : Table} {n : NodeRef} {type : FileType} {i k q : ℕ}
  {hasNode : ℕ → Bool} {ops : List FileOp}

def firstLookup (hasNode : ℕ → Bool) (ops : List FileOp) (i : ℕ) : Option ℕ :=
  ops.findIdx? fun op => hasNode op.op && decide (cutStrToInt op.args.newpath = i)

theorem firstLookup_cons (op : FileOp) : firstLookup hasNode (op :: ops) i =
    if hasNode op.op = true ∧ cutStrToInt op.args.newpath = i then some 0
    else (firstLookup hasNode ops i).map (· + 1) := by
  simp only [firstLookup, List.findIdx?_cons, Bool.and_eq_true, decide_eq_true_eq]

theorem moveOps_found (h : CalmInv c t) (hcode : FileType.ofCode w.fileType = some type)
    (htype : type ≠ .dir) (hn : t.rbt false type i = some n)
    (hq : firstLookup hasNode ops i = some q) :
    n ∉ (moveOps c w hasNode k ops t).busy ∧
      if k + q ≤ w.opIndex then (moveOps c w hasNode k ops t).rbt true type i = some n
      else (moveOps c w hasNode k ops t).freed n = true := by
  induction ops generalizing t k q with
  | nil => cases hq
  | cons op ops ih =>
    rw [firstLookup_cons] at hq
    rw [moveOps]
    by_cases hop : hasNode op.op = true
    · rw [if_pos hop]
      have hnext := calmInv_rule.back w.fileType (cutStrToInt op.args.newpath)
        (decide (k ≤ w.opIndex)) h
      by_cases hi : cutStrToInt op.args.newpath = i
      · rw [if_pos ⟨hop, hi⟩] at hq
        obtain rfl := Option.some.inj hq
        rw [hi] at hnext ⊢
        have hout := h.use.table.not_busy_giveBack (c := c) hcode hn (decide (k ≤ w.opIndex))
        have hrest : Rests n _ (moveOps c w hasNode (k + 1) ops _) := rests_moveOps c w hout
        refine ⟨hrest.out, ?_⟩
        rw [hrest.idle, hrest.freed, Nat.add_zero]
        split_ifs with hk
        · rw [decide_eq_true hk]
          exact h.use.table.idle_giveBack hcode hn
        · rw [decide_eq_false hk]
          exact h.freed_giveBack hcode htype hn
      · rw [if_neg (fun hboth => hi hboth.2)] at hq
        obtain ⟨q', hq', rfl⟩ := Option.map_eq_some_iff.1 hq
        have hbusy := (busy_giveBack c t w.fileType (cutStrToInt op.args.newpath)
          (decide (k ≤ w.opIndex)) type i n).2 ⟨hn, fun hkey => hi hkey.2.symm⟩
        have hlast := ih hnext (k := k + 1) hbusy hq'
        rwa [Nat.add_assoc, Nat.add_comm 1 q'] at hlast
    · rw [if_neg hop]
      rw [if_neg (fun hboth => hop hboth.1)] at hq
      obtain ⟨q', hq', rfl⟩ := Option.map_eq_some_iff.1 hq
      have hlast := ih h (k := k + 1) hn hq'
      rwa [Nat.add_assoc, Nat.add_comm 1 q'] at hlast

theorem moveOps_not_found (hn : t.rbt false type i = some n)
    (hq : firstLookup hasNode ops i = none) :
    (moveOps c w hasNode k ops t).rbt false type i = some n := by
  rw [busy_moveOps]
  refine ⟨hn, ?_⟩
  rintro ⟨-, hmem⟩
  obtain ⟨op, hop, hi⟩ := List.mem_map.1 hmem
  have hnone := List.findIdx?_eq_none_iff.1 hq op (List.mem_of_mem_filter hop)
  simp only [(List.mem_filter.1 hop).2, hi, decide_true, Bool.and_self] at hnone
  cases hnone

end Moves

section Position

variable {σ : Type} {sys : System σ} {c : Config} {mount : Mount} {path : List Char}
  {ops : List FileOp} {w : World σ} {f : ℕ}

/-- `operation_file` runs over the ops, and the first that fails is at position `f`. -/
structure FirstFailing (sys : System σ) (c : Config) (mount : Mount) (path : List Char)
    (ops : List FileOp) (w : World σ) (f : ℕ) : Prop where
  stat : (sys.call (.stat path) w.sys).1.ret = 0
  kind : (sys.call (.stat path) w.sys).1.kind = .reg
  ops : FailsFirst Progress.Failed (opStep (operationFileBranch sys c mount) true) ops
    (.start 0 path) (call sys (.stat path) w).2 f

instance : Decidable (FirstFailing sys c mount path ops w f) :=
  decidable_of_iff (((sys.call (.stat path) w.sys).1.ret = 0 ∧
      (sys.call (.stat path) w.sys).1.kind = .reg) ∧ f < ops.length ∧
      Succeeds Progress.Failed (opStep (operationFileBranch sys c mount) true) (ops.take f)
        (.start 0 path) (call sys (.stat path) w).2 ∧
      ¬Succeeds Progress.Failed (opStep (operationFileBranch sys c mount) true) (ops.take (f + 1))
        (.start 0 path) (call sys (.stat path) w).2)
    ⟨fun h => ⟨h.1.1, h.1.2, h.2.1, h.2.2.1, h.2.2.2⟩,
      fun h => ⟨⟨h.stat, h.kind⟩, h.ops.lt, h.ops.before, h.ops.at_self⟩⟩

theorem FirstFailing.performOpIndex (h : FirstFailing sys c mount path ops w f) :
    (operationFile sys c mount path ops w).1.performOpIndex = (f : ℤ) - 1 := by
  have hcount := count_of_failsFirst (keepsCount_operationFile c mount) (Int.lt_irrefl 0) h.ops
  rw [operationFile_of_check h.stat h.kind, finish_performOpIndex, runOps, hcount, Progress.start]
  exact Int.add_comm (-1) f

theorem toUInt32_pred {f q : ℕ} (hf : f ≤ 2 ^ 32) (hq : q < 2 ^ 32) :
    q ≤ Field.toUInt32 ((f : ℤ) - 1) ↔ f = 0 ∨ q < f := by
  unfold Field.toUInt32
  omega

end Position

variable {c : Config} {t : Table} {mount : Mount} {l : JournalOpList} {n : NodeRef} {p f : ℕ}
  {r : Execution}

def Destination (t : Table) (mount : Mount) (l : JournalOpList) (p : ℕ) (n : NodeRef) : Prop :=
  ∃ op, l.ops[p]? = some op ∧
    (op.op = NoOpenFileOp.rename.code ∨ op.op = NoOpenFileOp.link.code) ∧
    NodeAt t .file n op.args.newpath ∧ t.key n ≠ cutStrToInt (mount ++ l.path)

/-- Idle where the op is before the first that failed, destroyed where it is not. -/
def Settled (t : Table) (p f : ℕ) (n : NodeRef) : Prop :=
  if p < f then ∃ i, t.rbt true .file i = some n else t.freed n = true

theorem settled_congr {u : Table} (h : Rests n t u) : Settled u p f n ↔ Settled t p f n := by
  unfold Settled
  rw [h.freed]
  simp only [h.idle]

theorem not_settled_of_busy {type : FileType} {i : ℕ} (h : TableInv t)
    (hn : t.rbt false type i = some n) : ¬Settled t p f n := by
  unfold Settled
  split_ifs
  · rintro ⟨j, hidle⟩
    exact h.not_busy hidle ⟨type, i, hn⟩
  · exact h.not_freed hn

theorem settled_of_idle {i : ℕ} (h : TableInv t) (hn : t.rbt true .file i = some n) :
    Settled t p f n ↔ p < f := by
  unfold Settled
  split_ifs with hp
  · exact iff_of_true ⟨i, hn⟩ hp
  · exact iff_of_false (h.not_freed hn) hp

theorem settled_of_freed (h : TableInv t) (hn : t.freed n = true) :
    Settled t p f n ↔ ¬p < f := by
  unfold Settled
  split_ifs with hp
  · exact iff_of_false (fun ⟨i, hi⟩ => h.not_freed hi hn) (not_not.2 hp)
  · exact iff_of_true hn hp

theorem workerMoveList_noOpenFile (hop : l.opType = OpType.noOpenFile.code) :
    workerMoveList c (workerOf mount l r) t =
      giveBack c (moveOps c (workerOf mount l r) fileOpHasNode 0 l.ops t) l.fileType
        (cutStrToInt (mount ++ l.path)) (r.ret = 0) := by
  unfold workerMoveList
  exact if_pos hop

theorem rbt_of_busy (h : TableInv t) (hn : HasNode t n type) (hbusy : n ∈ t.busy) :
    t.rbt false type (t.key n) = some n := by
  obtain ⟨x, hx, rfl⟩ := hn
  obtain ⟨ty, i, hi⟩ := hbusy
  obtain ⟨y, hy, rfl, rfl, -⟩ := h.stored false ty i n hi
  rw [hx] at hy
  cases hy
  rwa [key_of_node hx]

theorem settled_of_busy (h : CalmInv c t) (hop : l.opType = OpType.noOpenFile.code)
    (hfile : l.fileType = FileType.file.code) (hlen : l.ops.length ≤ 2 ^ 32)
    (hindex : r.performOpIndex = (f : ℤ) - 1) (hf : f < l.ops.length)
    (hbusy : t.rbt false .file (t.key n) = some n)
    (hown : t.key n ≠ cutStrToInt (mount ++ l.path)) :
    Settled (workerMoveList c (workerOf mount l r) t) p f n ↔
      0 < f ∧ ∃ q, firstLookup fileOpHasNode l.ops (t.key n) = some q ∧ (q < f ↔ p < f) := by
  have hcode : FileType.ofCode l.fileType = some .file := by
    rw [hfile]
    rfl
  have hmoved : CalmInv c (moveOps c (workerOf mount l r) fileOpHasNode 0 l.ops t) :=
    calmInv_rule.moveOps h 0 l.ops
  rw [workerMoveList_noOpenFile hop]
  cases hq : firstLookup fileOpHasNode l.ops (t.key n) with
  | none =>
    have hstill : (moveOps c (workerOf mount l r) fileOpHasNode 0 l.ops t).rbt false .file
      (t.key n) = some n := moveOps_not_found hbusy hq
    have hlast := (busy_giveBack c _ l.fileType (cutStrToInt (mount ++ l.path)) (r.ret = 0) .file
      (t.key n) n).2 ⟨hstill, fun hkey => hown hkey.2⟩
    have hinv := (calmInv_rule.back l.fileType (cutStrToInt (mount ++ l.path)) (r.ret = 0)
      hmoved).use.table
    apply iff_of_false (not_settled_of_busy hinv hlast)
    rintro ⟨-, q, hnone, -⟩
    cases hnone
  | some q =>
    obtain ⟨hout, hfound⟩ := moveOps_found (k := 0) (w := workerOf mount l r) h hcode (by decide)
      hbusy hq
    have hrest := rests_giveBack c l.fileType (cutStrToInt (mount ++ l.path)) (r.ret = 0) hout
    have hlt : q < l.ops.length := (List.findIdx?_eq_some_iff_getElem.1 hq).1
    have hcompare := toUInt32_pred (f := f) (q := q) (by omega) (by omega)
    rw [← hindex] at hcompare
    rw [settled_congr hrest]
    simp only [Option.some.injEq, exists_eq_left']
    split_ifs at hfound with hle
    · rw [settled_of_idle hmoved.use.table hfound]
      rw [Nat.zero_add, workerOf, operMalloc, hcompare] at hle
      omega
    · rw [settled_of_freed hmoved.use.table hfound]
      rw [Nat.zero_add, workerOf, operMalloc, hcompare] at hle
      omega

/-- A list whose first failing op is at position `f` is released as it was executed, op by op, if
and only if some op succeeded and no destination was looked up first by an op on the other side of
`f`; a destination that is not busy any more has to be where it belongs already. -/
theorem settled_iff {s : FileTable.State} {es : List FileTable.Event} {σ : Type} {sys : System σ}
    {w : World σ}
    (hrun : exec (FileTable.step c) FileTable.State.init es = some s)
    (hop : l.opType = OpType.noOpenFile.code) (hfile : l.fileType = FileType.file.code)
    (hlen : l.ops.length ≤ 2 ^ 32)
    (hfirst : FirstFailing sys c mount (mount ++ l.path) l.ops w f) :
    (∀ p n, Destination s.table mount l p n → Settled (workerMoveList c (workerOf mount l
      (operationFile sys c mount (mount ++ l.path) l.ops w).1) s.table) p f n) ↔
      ∀ p n, Destination s.table mount l p n →
        (n ∈ s.table.busy → 0 < f ∧ ∃ q,
          firstLookup fileOpHasNode l.ops (s.table.key n) = some q ∧ (q < f ↔ p < f)) ∧
        (n ∉ s.table.busy → Settled s.table p f n) := by
  have h := calmInv_of_exec hrun
  apply forall_congr'
  intro p
  apply forall_congr'
  intro n
  apply imp_congr_right
  rintro ⟨-, -, -, ⟨x, -, hx, htype, -⟩, hown⟩
  by_cases hbusy : n ∈ s.table.busy
  · have hn := rbt_of_busy h.use.table ⟨x, hx, htype⟩ hbusy
    rw [settled_of_busy h hop hfile hlen hfirst.performOpIndex hfirst.ops.lt hn hown]
    simp only [hbusy, not_true_eq_false, false_implies, and_true, true_implies]
  · rw [settled_congr (rests_workerMoveList c _ hbusy)]
    simp only [hbusy, not_false_eq_true, false_implies, true_and, true_implies]

def exhausting : System ℕ where
  call := fun _ s =>
    match s with
    | 0 => (⟨-1, 5, 0, .reg⟩, 0)
    | s + 1 => (⟨0, 0, 0, .reg⟩, s)
  status := by
    intro c s _
    cases s with
    | zero => exact Or.inr rfl
    | succ s => exact Or.inl rfl

def renameConfig : Config := ⟨1, 1, 1, 1, 2, 1⟩

def rootMount : Mount := ⟨['/'], [], rfl⟩

def releaseAfter (t : Table) (l : JournalOpList) (w : World ℕ) : Table :=
  workerMoveList renameConfig (workerOf rootMount l
    (operationFile exhausting renameConfig rootMount (rootMount ++ l.path) l.ops w).1) t

theorem settled_second_fails : ∃ s L,
    exec (FileTable.step renameConfig) FileTable.State.init (sampleRun NoOpenFileOp.rename.code) =
      some s ∧
      L ∈ s.lists ∧
      let l := L.opList.readBack .disk 0 0
      Destination s.table rootMount l 0 3 ∧ Destination s.table rootMount l 1 4 ∧
        ∀ p n, Destination s.table rootMount l p n →
          Settled (releaseAfter s.table l (freshWorld 2)) p 1 n := by
  obtain ⟨s, L, hs, hL, hop, hfile, hlen, hfirst, hzero, hone, hlook, hbusy⟩ : ∃ s L,
      exec (FileTable.step renameConfig) FileTable.State.init
        (sampleRun NoOpenFileOp.rename.code) = some s ∧ L ∈ s.lists ∧
      let l := L.opList.readBack .disk 0 0
      l.opType = OpType.noOpenFile.code ∧ l.fileType = FileType.file.code ∧
      l.ops.length ≤ 2 ^ 32 ∧
      FirstFailing exhausting renameConfig rootMount (rootMount ++ l.path) l.ops
        (freshWorld 2) 1 ∧
      Destination s.table rootMount l 0 3 ∧ Destination s.table rootMount l 1 4 ∧
      (∀ p : Fin l.ops.length, '/' ∈ l.ops[p].args.newpath ∧
        firstLookup fileOpHasNode l.ops (cutStrToInt l.ops[p].args.newpath) = some p.1) ∧
      ∀ op ∈ l.ops, (s.table.rbt false .file (cutStrToInt op.args.newpath)).isSome = true := by
    refine ⟨_, _, rfl, List.mem_cons_self .., rfl, rfl, by decide, by decide, ?_, ?_, by decide,
      by decide⟩
    · exact ⟨_, rfl, Or.inl rfl, ⟨_, _, rfl, rfl, rfl, Or.inr ⟨"1-aB3xYz-dir".toList, rfl⟩⟩,
        by decide⟩
    · exact ⟨_, rfl, Or.inl rfl, ⟨_, _, rfl, rfl, rfl, Or.inr ⟨"1-aB3xYz-dir".toList, rfl⟩⟩,
        by decide⟩
  refine ⟨s, L, hs, hL, hzero, hone, (settled_iff hs hop hfile hlen hfirst).2 ?_⟩
  rintro p n ⟨op, hp, -, hat, -⟩
  obtain ⟨hlt, rfl⟩ := List.getElem?_eq_some_iff.1 hp
  obtain ⟨hslash, hfound⟩ := hlook ⟨p, hlt⟩
  obtain ⟨x, hx, hxtype, hindex⟩ := hat.cutStrToInt hslash
  have hinv := (calmInv_of_exec hs).use.table
  have hn : n ∈ s.table.busy := by
    obtain ⟨m, hm⟩ := Option.isSome_iff_exists.1 (hbusy _ (List.getElem_mem hlt))
    obtain ⟨y, hy, hytype, hyindex, -⟩ := hinv.stored false .file _ m hm
    rw [hinv.unique n m x y hx hy (hxtype.trans hytype.symm) (hindex.symm.trans hyindex.symm)]
    exact ⟨_, _, hm⟩
  constructor
  · intro _
    rw [key_of_node hx, ← hindex]
    exact ⟨Nat.one_pos, p, hfound, Iff.rfl⟩
  · exact absurd hn

/-- The first op fails: its destination is idle all the same. -/
theorem not_settled_first_fails : ∃ s L,
    exec (FileTable.step renameConfig) FileTable.State.init (sampleRun NoOpenFileOp.rename.code) =
      some s ∧
      L ∈ s.lists ∧
      let l := L.opList.readBack .disk 0 0
      FirstFailing exhausting renameConfig rootMount (rootMount ++ l.path) l.ops
        (freshWorld 1) 0 ∧
      Destination s.table rootMount l 0 3 ∧
      ¬Settled (releaseAfter s.table l (freshWorld 1)) 0 0 3 := by
  obtain ⟨s, L, hs, hL, hfirst, hdest, hfreed⟩ : ∃ s L,
      exec (FileTable.step renameConfig) FileTable.State.init
        (sampleRun NoOpenFileOp.rename.code) = some s ∧ L ∈ s.lists ∧
      let l := L.opList.readBack .disk 0 0
      FirstFailing exhausting renameConfig rootMount (rootMount ++ l.path) l.ops
        (freshWorld 1) 0 ∧
      Destination s.table rootMount l 0 3 ∧
      (releaseAfter s.table l (freshWorld 1)).freed 3 = false := by
    refine ⟨_, _, rfl, List.mem_cons_self .., by decide, ?_, by decide +kernel⟩
    exact ⟨_, rfl, Or.inl rfl, ⟨_, _, rfl, rfl, rfl, Or.inr ⟨"1-aB3xYz-dir".toList, rfl⟩⟩,
      by decide⟩
  refine ⟨s, L, hs, hL, hfirst, hdest, ?_⟩
  rw [Settled, if_neg (Nat.not_lt_zero 0), hfreed]
  exact Bool.false_ne_true

end MyScripts.Shark.Executor
