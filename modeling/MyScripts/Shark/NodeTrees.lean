import MyScripts.Shark.AccessRuns
import MyScripts.Shark.NodeDestruction
import MyScripts.Shark.RbRuns

/-!
# The node table on its six trees

`file_delete_form_rbt` and `file_insert_to_rbt` work on trees whose items are
compared by the numbers in front of their names. The tables of the other modules
map an index to the node that the tree has for it. Here the trees are those of
`rb.c`, and every interleaving of accesses goes the same way on both.
-/
namespace MyScripts.Shark.FileTable
open Library.Run Library.Decimal Library.KeyedList Rb

structure NodeTable where
  node : NodeRef → Option FileNode
  fresh : NodeRef
  rbtree : Bool → FileType → RbTable NodeRef
  cnt : FileType → ℕ

namespace NodeTable

def init : NodeTable where
  node := fun _ => none
  fresh := 0
  rbtree := fun _ _ => rbCreate
  cnt := fun _ => 0

def fileName (t : NodeTable) (n : NodeRef) : List Char :=
  ((t.node n).map (·.fileName.print)).getD []

def fileNodeCompare (t : NodeTable) (name1 : List Char) (node2 : NodeRef) : Ordering :=
  compare (scanIndex name1) (scanIndex (t.fileName node2))

def setTree (t : NodeTable) (idle : Bool) (type : FileType) (tree : RbTable NodeRef) : NodeTable :=
  { t with rbtree := fun b ty => if b = idle ∧ ty = type then tree else t.rbtree b ty }

def forFind (index : ℕ) : List Char := printNat index ++ "-forfind-filetype".toList

def fileDeleteFormRbt (t : NodeTable) (type : FileType) (index : ℕ) (formIdle : Bool) :
    Option (Option NodeRef × NodeTable) :=
  (rbDelete (t.fileNodeCompare (forFind index)) (t.rbtree formIdle type)).map
    fun (fileNode, tree) => (fileNode, t.setTree formIdle type tree)

def fileInsertToRbt (t : NodeTable) (type : FileType) (fileNode : NodeRef) (toIdle malloc : Bool) :
    Option (ℤ × NodeTable) :=
  (rbInsert (t.fileNodeCompare (t.fileName fileNode)) (t.rbtree toIdle type) fileNode malloc).map
    fun (tmp, tree) => (if tmp = none then 0 else -1, t.setTree toIdle type tree)

def key (t : NodeTable) (n : NodeRef) : ℕ := scanIndex (t.fileName n)

def view (t : NodeTable) : Table where
  node := t.node
  fresh := t.fresh
  rbt := fun idle type => (t.rbtree idle type).find t.key
  cnt := t.cnt

def withNodes (t : NodeTable) (u : Table) : NodeTable :=
  { t with node := u.node, fresh := u.fresh, cnt := u.cnt }

end NodeTable

structure SharedTrees where
  table : NodeTable
  creation : Option Creation

def SharedTrees.init : SharedTrees := ⟨NodeTable.init, none⟩

def NodeTable.drawParent (t : NodeTable) (type : FileType) (currIndex r : ℕ) :
    Option (NodeTable × Creation) :=
  if parIndex t.view r = 0 then some (t, .placed type currIndex none)
  else
    (t.fileDeleteFormRbt .dir (parIndex t.view r) true).map fun
      | (none, t) => (t, .drawing type currIndex)
      | (some par, t) =>
        if t.view.checkPathDepth par then (t, .placed type currIndex (some par))
        else (t, .drawing type currIndex)

/-- The accesses of `access`, each with the outcome of the `malloc` of `rb_probe`. Who may make
an access is not asked here. -/
def treeAccess (s : SharedTrees) : Access × Bool → Option SharedTrees
  | (.getIdleIndex type, _) =>
    match s.creation with
    | none =>
      let (currIndex, u) := s.table.view.getIdleIndex type
      some ⟨s.table.withNodes u, some (.drawing type currIndex)⟩
    | some _ => none
  | (.drawParent r, _) =>
    match s.creation with
    | some (.drawing type currIndex) =>
      (s.table.drawParent type currIndex r).map fun (t, creation) => ⟨t, some creation⟩
    | _ => none
  | (.alloc suffix, _) =>
    match s.creation with
    | some (.placed type currIndex par) =>
      let (n, u) := s.table.view.alloc
        ⟨par, constructionFileName (currIndex + 1) type suffix, type, 0, false⟩
      some ⟨s.table.withNodes u, some (.made type n)⟩
    | _ => none
  | (.freeNew, _) =>
    match s.creation with
    | some (.made _ n) => some ⟨s.table.withNodes (s.table.view.free n), none⟩
    | _ => none
  | (.finish, _) =>
    match s.creation with
    | some (.placed ..) | some (.made ..) => some ⟨s.table, none⟩
    | _ => none
  | (.delete type index fromIdle, _) =>
    (s.table.fileDeleteFormRbt type index fromIdle).map fun (_, t) => { s with table := t }
  | (.insert type n toIdle, malloc) =>
    (s.table.fileInsertToRbt type n toIdle malloc).map fun (_, t) => { s with table := t }
  | (.addUsecnt d n, _) =>
    some { s with table := s.table.withNodes (s.table.view.addUsecnt d n) }
  | (.destory _ n, _) =>
    some { s with table := s.table.withNodes (s.table.view.fileNodeDestory n) }

/-- An insertion without memory is answered as one that succeeds, and does nothing. -/
def performs : Access × Bool → Bool
  | (.insert .., malloc) => malloc
  | _ => true

def performed (es : List (Access × Bool)) : List Access := (es.filter performs).map Prod.fst

variable {t : NodeTable} {u v : Table} {n m : NodeRef} {type : FileType} {i k : ℕ}

theorem scanIndex_forFind (i : ℕ) : scanIndex (NodeTable.forFind i) = i := by
  have hends : Ends "-forfind-filetype".toList := ends_cons (by decide)
  rw [scanIndex, NodeTable.forFind, scanInt_printNat i hends]
  exact if_pos (Int.natCast_nonneg _)

theorem NodeTable.key_eq (h : t.node = u.node) : t.key = u.key := by
  funext n
  rw [NodeTable.key, NodeTable.fileName, Table.key, h]
  cases u.node n with
  | none => rfl
  | some x => exact scanIndex_print x.fileName

/-- The nodes are the same, and each tree stands for the map. -/
structure Implements (k : ℕ) (t : NodeTable) (u : Table) : Prop where
  node : t.node = u.node
  fresh : t.fresh = u.fresh
  cnt : t.cnt = u.cnt
  trees : ∀ idle type, Stands u.key k (u.rbt idle type) (t.rbtree idle type)

theorem Implements.view (h : Implements k t u) : t.view = u := by
  obtain ⟨node, fresh, rbt, cnt⟩ := u
  have hrbt : (fun idle type => (t.rbtree idle type).find t.key) = rbt := by
    funext idle type
    rw [NodeTable.key_eq h.node]
    exact (h.trees idle type).find
  rw [NodeTable.view, hrbt, h.node, h.fresh, h.cnt]

theorem Implements.setTree {tree : RbTable NodeRef} {idle : Bool} (h : Implements k t u)
    (hv : v.node = u.node ∧ v.fresh = u.fresh ∧ v.cnt = u.cnt)
    (htree : Stands u.key k (v.rbt idle type) tree)
    (hrest : ∀ b ty, ¬(b = idle ∧ ty = type) → v.rbt b ty = u.rbt b ty) :
    Implements k (t.setTree idle type tree) v where
  node := h.node.trans hv.1.symm
  fresh := h.fresh.trans hv.2.1.symm
  cnt := h.cnt.trans hv.2.2.symm
  trees := by
    have hkey : v.key = u.key := by
      funext n
      rw [Table.key, hv.1]
      rfl
    intro b ty
    rw [hkey, NodeTable.setTree]
    dsimp only
    split_ifs with heq
    · obtain ⟨rfl, rfl⟩ := heq
      exact htree
    · rw [hrest b ty heq]
      exact h.trees b ty

theorem Implements.weaken (h : Implements (k + 1) t u) : Implements k t u :=
  ⟨h.node, h.fresh, h.cnt, fun idle type => (h.trees idle type).weaken (Nat.le_succ k)⟩

theorem Implements.fileDeleteFormRbt (h : Implements k t u) (type : FileType) (i : ℕ)
    (idle : Bool) :
    ∃ t', t.fileDeleteFormRbt type i idle = some (u.rbt idle type i, t') ∧
      Implements k t' (u.setRbt idle type i none) := by
  obtain ⟨tree, htree, hstands⟩ := (h.trees idle type).rbDelete i
  have hcmp : t.fileNodeCompare (NodeTable.forFind i) = compareKey u.key i := by
    rw [← NodeTable.key_eq h.node]
    funext n
    rw [NodeTable.fileNodeCompare, scanIndex_forFind]
    rfl
  refine ⟨t.setTree idle type tree, by rw [NodeTable.fileDeleteFormRbt, hcmp, htree]; rfl,
    h.setTree ⟨rfl, rfl, rfl⟩ ?_ ?_⟩
  · convert hstands using 1
    funext j
    simp [Table.setRbt, Function.update_apply]
  · intro b ty hne
    funext j
    exact if_neg fun hb => hne ⟨hb.1, hb.2.1⟩

theorem Implements.fileInsertToRbt (h : Implements (k + 1) t u) (type : FileType) (n : NodeRef)
    (idle malloc : Bool) :
    ∃ ret t', t.fileInsertToRbt type n idle malloc = some (ret, t') ∧
      (ret = 0 ↔ ∀ m, u.rbt idle type (u.key n) = some m → m = n) ∧
      Implements k t' (if malloc then u.fileInsertToRbt type n idle else u) := by
  obtain ⟨tree, htree, hstands⟩ := (h.trees idle type).rbInsert n malloc
  have hcmp : t.fileNodeCompare (t.fileName n) = compareKey u.key (u.key n) := by
    rw [← NodeTable.key_eq h.node]
    rfl
  refine ⟨_, t.setTree idle type tree, by rw [NodeTable.fileInsertToRbt, hcmp, htree]; rfl, ?_, ?_⟩
  · rw [mapCall]
    cases u.rbt idle type (u.key n) with
    | none => simp
    | some m => simp
  · cases hm : u.rbt idle type (u.key n) with
    | some m =>
      have hsame : u.fileInsertToRbt type n idle = u := by rw [Table.fileInsertToRbt, hm]
      rw [mapCall, hm] at hstands
      rw [hsame, ite_self]
      exact h.weaken.setTree ⟨rfl, rfl, rfl⟩ hstands fun _ _ _ => rfl
    | none =>
      rw [mapCall, hm] at hstands
      cases malloc with
      | false => exact h.weaken.setTree ⟨rfl, rfl, rfl⟩ hstands fun _ _ _ => rfl
      | true =>
        have hput : u.fileInsertToRbt type n idle = u.setRbt idle type (u.key n) (some n) := by
          rw [Table.fileInsertToRbt, hm]
        rw [if_pos rfl, hput]
        refine h.weaken.setTree ⟨rfl, rfl, rfl⟩ ?_ ?_
        · convert hstands using 1
          funext j
          simp [Table.setRbt, Function.update_apply]
        · intro b ty hne
          funext j
          exact if_neg fun hb => hne ⟨hb.1, hb.2.1⟩

theorem Implements.withNodes (h : Implements k t u) (hrbt : v.rbt = u.rbt)
    (hkey : ∀ idle type i m, u.rbt idle type i = some m → v.key m = u.key m) :
    Implements k (t.withNodes v) v where
  node := rfl
  fresh := rfl
  cnt := rfl
  trees := by
    intro idle type
    rw [hrbt]
    exact (h.trees idle type).congr_key fun m hm =>
      hkey idle type (u.key m) m ((h.trees idle type).mem_items.1 hm)

theorem Implements.quiet (h : Implements k t u) (hq : SamePlaces u v) (hrbt : v.rbt = u.rbt) :
    Implements k (t.withNodes v) v :=
  h.withNodes hrbt fun _ _ _ m _ => congrFun hq.key m

theorem Implements.drawParent (h : Implements k t u) (type : FileType) (i r : ℕ) :
    ∃ t', t.drawParent type i r = some (t', (FileTable.drawParent u type i r).2) ∧
      Implements k t' (FileTable.drawParent u type i r).1 := by
  rw [NodeTable.drawParent, FileTable.drawParent, h.view]
  split_ifs with hroot
  · exact ⟨t, rfl, h⟩
  · obtain ⟨t', ht', himp⟩ := h.fileDeleteFormRbt .dir (parIndex u r) true
    rw [ht', Table.fileDeleteFormRbt]
    cases u.rbt true .dir (parIndex u r) with
    | none => exact ⟨t', rfl, himp⟩
    | some par =>
      simp only [Option.map_some, himp.view]
      split_ifs
      · exact ⟨t', rfl, himp⟩
      · exact ⟨t', rfl, himp⟩

structure Simulates (k : ℕ) (s : Shared) (s' : SharedTrees) : Prop where
  inv : SharedInv s
  table : Implements k s'.table s.table
  creation : s'.creation = s.creation

def performing (s : Shared) (e : Access × Bool) : Option Shared :=
  if performs e then access s e.1 else some s

/-- Every access that may be made goes the same way on the trees. -/
theorem Simulates.treeAccess {s s₁ : Shared} {s' : SharedTrees} {e : Access × Bool}
    (h : Simulates (k + 1) s s') (he : performing s e = some s₁) :
    ∃ s₁', FileTable.treeAccess s' e = some s₁' ∧ Simulates k s₁ s₁' := by
  obtain ⟨a, malloc⟩ := e
  obtain ⟨u, _⟩ := s
  obtain ⟨t, creation⟩ := s'
  obtain ⟨hinv, htable, hcreation⟩ := h
  dsimp only at htable hcreation
  subst hcreation
  have hsmaller := htable.weaken
  by_cases hp : performs (a, malloc)
  · rw [performing, if_pos hp] at he
    have hinv' := (hinv.access he).1
    cases a with
    | getIdleIndex type =>
      cases creation with
      | some creation => cases he
      | none =>
        obtain rfl := Option.some.inj he
        simp only [FileTable.treeAccess, htable.view]
        exact ⟨_, rfl, hinv', hsmaller.quiet (.of_eq rfl) rfl, rfl⟩
    | drawParent r =>
      match creation, he with
      | some (.drawing type i), he =>
        obtain rfl := Option.some.inj he
        obtain ⟨t', ht', himp⟩ := hsmaller.drawParent type i r
        simp only [FileTable.treeAccess, ht']
        exact ⟨_, rfl, hinv', himp, rfl⟩
    | alloc suffix =>
      match creation, he with
      | some (.placed type i par), he =>
        obtain rfl := Option.some.inj he
        simp only [FileTable.treeAccess, htable.view]
        refine ⟨_, rfl, hinv', hsmaller.withNodes rfl fun idle ty j m hm => ?_, rfl⟩
        obtain ⟨x, hx, -⟩ := hinv.table.stored idle ty j m hm
        rw [key_of_node hx, key_of_node (hinv.table.alloc_of_node hx)]
    | freeNew =>
      match creation, he with
      | some (.made type n), he =>
        obtain ⟨-, he⟩ := Option.ite_none_right_eq_some.1 he
        obtain rfl := Option.some.inj he
        simp only [FileTable.treeAccess, htable.view]
        exact ⟨_, rfl, hinv', hsmaller.quiet (quiet_free u n).places (rbt_free u n), rfl⟩
    | finish =>
      match creation, he with
      | some (.placed ..), he | some (.made ..), he =>
        obtain rfl := Option.some.inj he
        exact ⟨_, rfl, hinv', hsmaller, rfl⟩
    | delete type index fromIdle =>
      obtain rfl := Option.some.inj he
      obtain ⟨t', ht', himp⟩ := hsmaller.fileDeleteFormRbt type index fromIdle
      simp only [FileTable.treeAccess, ht']
      exact ⟨_, rfl, hinv', himp, rfl⟩
    | insert type n toIdle =>
      obtain ⟨-, he⟩ := Option.ite_none_right_eq_some.1 he
      obtain rfl := Option.some.inj he
      obtain rfl : malloc = true := hp
      obtain ⟨ret, t', ht', -, himp⟩ := htable.fileInsertToRbt type n toIdle true
      rw [if_pos rfl] at himp
      simp only [FileTable.treeAccess, ht']
      exact ⟨_, rfl, hinv', himp, rfl⟩
    | addUsecnt d n =>
      obtain rfl := Option.some.inj he
      simp only [FileTable.treeAccess, htable.view]
      exact ⟨_, rfl, hinv',
        hsmaller.quiet (samePlaces_addUsecnt u d n) (rbt_addUsecnt u d n), rfl⟩
    | destory type n =>
      obtain ⟨-, he⟩ := Option.ite_none_right_eq_some.1 he
      obtain rfl := Option.some.inj he
      simp only [FileTable.treeAccess, htable.view]
      exact ⟨_, rfl, hinv', hsmaller.quiet (quiet_destroy u n).places (rbt_destroy u n), rfl⟩
  · rw [performing, if_neg hp] at he
    obtain rfl := Option.some.inj he
    -- the only access that is not performed is an insertion
    cases a with
    | insert type n toIdle =>
      obtain ⟨ret, t', ht', -, himp⟩ := htable.fileInsertToRbt type n toIdle malloc
      rw [show malloc = false from Bool.eq_false_of_not_eq_true hp, if_neg nofun] at himp
      simp only [FileTable.treeAccess, ht']
      exact ⟨_, rfl, hinv, himp, rfl⟩
    | _ => exact absurd rfl hp

theorem simulates_init (h : k + 1 < 2 ^ 64) : Simulates k Shared.init SharedTrees.init where
  inv := sharedInv_init
  table := ⟨rfl, rfl, rfl, fun _ _ => stands_rbCreate _ h⟩
  creation := rfl

theorem exec_performing (s : Shared) (es : List (Access × Bool)) :
    exec performing s es = exec access s (performed es) := by
  induction es generalizing s with
  | nil => rfl
  | cons e es ih =>
    rw [exec_cons, performing]
    by_cases hp : performs e
    · rw [if_pos hp, performed, List.filter_cons_of_pos hp, List.map_cons, exec_cons]
      exact congrArg _ (funext ih)
    · rw [if_neg hp, performed, List.filter_cons_of_neg hp]
      exact ih s

theorem exec_simulates {es : List (Access × Bool)} {s : Shared} (hlen : es.length + 1 < 2 ^ 64)
    (h : exec access Shared.init (performed es) = some s) :
    ∃ s', exec treeAccess SharedTrees.init es = some s' ∧ Simulates 0 s s' := by
  rw [← exec_performing] at h
  exact simulation_exec (fun _ _ _ _ _ hs he => hs.treeAccess he) (simulates_init hlen) h

/-- In every interleaving of accesses the six trees hold what the table says, ordered by the
indices and counted, and no access to them reads a null pointer or goes too deep. -/
theorem trees_refine {es : List (Access × Bool)} {s : Shared} (hlen : es.length + 1 < 2 ^ 64)
    (h : exec access Shared.init (performed es) = some s) :
    ∃ s', exec treeAccess SharedTrees.init es = some s' ∧ s'.creation = s.creation ∧
      s'.table.view = s.table ∧ ∀ idle type,
        Sorted s.table.key (s'.table.rbtree idle type).items ∧
        (s'.table.rbtree idle type).count.toNat = (s'.table.rbtree idle type).items.length ∧
        ∀ n, n ∈ (s'.table.rbtree idle type).items ↔
          s.table.rbt idle type (s.table.key n) = some n := by
  obtain ⟨s', hs', hsim⟩ := exec_simulates hlen h
  refine ⟨s', hs', hsim.creation, hsim.table.view, fun idle type => ?_⟩
  have hstands := hsim.table.trees idle type
  exact ⟨hstands.valid.sorted, hstands.valid.count, fun n => hstands.mem_items⟩

def sampleAccesses : List (Access × Bool) :=
  [(.getIdleIndex .file, true), (.drawParent 0, true), (.alloc sampleCreate.suffix, true),
    (.insert .file 0 true, true), (.finish, true), (.delete .file 1 true, true),
    (.insert .file 0 false, false)]

theorem trees_refine_file : ∃ s s', exec access Shared.init (performed sampleAccesses) = some s ∧
    exec treeAccess SharedTrees.init sampleAccesses = some s' ∧ s'.creation = s.creation ∧
      s'.table.view = s.table ∧ ∀ idle type,
        Sorted s.table.key (s'.table.rbtree idle type).items ∧
        (s'.table.rbtree idle type).count.toNat = (s'.table.rbtree idle type).items.length ∧
        ∀ n, n ∈ (s'.table.rbtree idle type).items ↔
          s.table.rbt idle type (s.table.key n) = some n := by
  obtain ⟨s, hs⟩ : ∃ s, exec access Shared.init (performed sampleAccesses) = some s := ⟨_, rfl⟩
  obtain ⟨s', hs'⟩ := trees_refine (by decide : sampleAccesses.length + 1 < 2 ^ 64) hs
  exact ⟨s, s', hs, hs'⟩

def destroyOrder : List (Bool × FileType) :=
  [(true, .file), (false, .file), (true, .dir), (false, .dir), (true, .symlink), (false, .symlink)]

namespace NodeTable

def destroyed (t : NodeTable) : List NodeRef :=
  destroyOrder.flatMap fun tree => rbDestroy (t.rbtree tree.1 tree.2).root

end NodeTable

def FileNode.destory (x : FileNode) : FileNode :=
  if x.fileType = .dir then x else { x with freed := true }

end MyScripts.Shark.FileTable
