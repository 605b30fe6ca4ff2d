import MyScripts.Shark.NodeRelease

/-!
# The tables under interleaved accesses

One thread creates nodes. The workers move and release others at the same time,
and everybody holds the lock of a tree for one access only, so the tables go
through some interleaving of such accesses. In each state the parents are
directories that are not freed, and a directory has a larger index than its
parent.
-/
namespace MyScripts.Shark.FileTable
open Library.Run

variable {t u : Table} {n m p : NodeRef} {type : FileType} {i : ℕ}

/-- How far `file_node_create` has come. -/
inductive Creation
  | drawing (type : FileType) (currIndex : ℕ)
  | placed (type : FileType) (currIndex : ℕ) (par : Option NodeRef)
  | made (type : FileType) (n : NodeRef)

structure Shared where
  table : Table
  creation : Option Creation

def Shared.init : Shared := ⟨Table.init, none⟩

inductive Access
  | getIdleIndex (type : FileType)
  | drawParent (random : ℕ)
  | alloc (suffix : Suffix)
  | freeNew
  | finish
  | delete (type : FileType) (index : ℕ) (fromIdle : Bool)
  | insert (type : FileType) (n : NodeRef) (toIdle : Bool)
  | addUsecnt (d : ℤ) (n : NodeRef)
  | destory (type : FileType) (n : NodeRef)

instance decidableLoose (t : Table) (type : FileType) (n : NodeRef) : Decidable (Loose t type n) :=
  match hx : t.node n with
  | none => isFalse fun ⟨_, hn, _⟩ => Option.some_ne_none _ (hn.symm.trans hx)
  | some x =>
    decidable_of_iff (x.fileType = type ∧ x.freed = false ∧
      ∀ idle, t.rbt idle type x.fileName.index = none)
      ⟨fun h => ⟨x, hx, h⟩, fun ⟨_, hn, h⟩ => Option.some.inj (hn.symm.trans hx) ▸ h⟩

def drawParent (t : Table) (type : FileType) (currIndex r : ℕ) : Table × Creation :=
  if parIndex t r = 0 then (t, .placed type currIndex none)
  else
    match t.fileDeleteFormRbt .dir (parIndex t r) true with
    | (none, t) => (t, .drawing type currIndex)
    | (some par, t) =>
      if t.checkPathDepth par then (t, .placed type currIndex (some par))
      else (t, .drawing type currIndex)

/-- The first five are made by the thread that creates nodes. A node is put into a tree
or released by who took it out of one, or made it. -/
def access (s : Shared) : Access → Option Shared
  | .getIdleIndex type =>
    match s.creation with
    | none =>
      let (currIndex, t) := s.table.getIdleIndex type
      some ⟨t, some (.drawing type currIndex)⟩
    | some _ => none
  | .drawParent r =>
    match s.creation with
    | some (.drawing type currIndex) =>
      let (t, creation) := drawParent s.table type currIndex r
      some ⟨t, some creation⟩
    | _ => none
  | .alloc suffix =>
    match s.creation with
    | some (.placed type currIndex par) =>
      let (n, t) := s.table.alloc
        ⟨par, constructionFileName (currIndex + 1) type suffix, type, 0, false⟩
      some ⟨t, some (.made type n)⟩
    | _ => none
  | .freeNew =>
    match s.creation with
    | some (.made type n) => if Loose s.table type n then some ⟨s.table.free n, none⟩ else none
    | _ => none
  | .finish =>
    match s.creation with
    | some (.placed ..) | some (.made ..) => some ⟨s.table, none⟩
    | _ => none
  | .delete type index fromIdle =>
    some { s with table := (s.table.fileDeleteFormRbt type index fromIdle).2 }
  | .insert type n toIdle =>
    if Loose s.table type n then some { s with table := s.table.fileInsertToRbt type n toIdle }
    else none
  | .addUsecnt d n => some { s with table := s.table.addUsecnt d n }
  | .destory type n =>
    if Loose s.table type n then some { s with table := s.table.fileNodeDestory n } else none

def LiveDir (t : Table) (p : NodeRef) : Prop := HasNode t p .dir ∧ t.freed p = false

/-- The index was the last one given out, and no node has a larger one yet. -/
def Newest (t : Table) (type : FileType) (i : ℕ) : Prop :=
  i + 1 = t.cnt type ∧ ∀ m, HasNode t m type → t.key m ≤ i

def CreationInv (t : Table) : Creation → Prop
  | .drawing type i => Newest t type i
  | .placed type i par => Newest t type i ∧ ∀ p, par = some p → LiveDir t p
  | .made _ n => ∀ m, t.parent m ≠ some n

structure SharedInv (s : Shared) : Prop where
  table : TableInv s.table
  tree : TreeInv s.table
  live : ∀ n p, s.table.parent n = some p → LiveDir s.table p
  creation : ∀ creation, s.creation = some creation → CreationInv s.table creation

structure KeepsForest (t u : Table) : Prop where
  inv : TableInv u
  places : SamePlaces t u
  cnt : u.cnt = t.cnt
  live : ∀ p, LiveDir t p → LiveDir u p

theorem LiveDir.congr (h : LiveDir t p) (hs : SamePlaces t u) (hfreed : u.freed p = t.freed p) :
    LiveDir u p :=
  ⟨hs.hasNode.2 h.1, hfreed.trans h.2⟩

theorem KeepsForest.newest (h : KeepsForest t u) (hn : Newest t type i) : Newest u type i := by
  refine ⟨by rw [h.cnt, hn.1], fun m hm => ?_⟩
  rw [h.places.key]
  exact hn.2 m (h.places.hasNode.1 hm)

theorem KeepsForest.creation (h : KeepsForest t u) {creation : Creation}
    (hc : CreationInv t creation) : CreationInv u creation := by
  cases creation with
  | drawing type i => exact h.newest hc
  | placed type i par => exact ⟨h.newest hc.1, fun p hp => h.live p (hc.2 p hp)⟩
  | made type n =>
    intro m
    rw [h.places.parent]
    exact hc m

theorem SharedInv.keeps {s : Shared} (h : SharedInv s) (hk : KeepsForest s.table u) :
    SharedInv { s with table := u } where
  table := hk.inv
  tree := h.tree.congr hk.places
  live := by
    intro n p hp
    rw [hk.places.parent] at hp
    exact hk.live p (h.live n p hp)
  creation := fun creation hc => hk.creation (h.creation creation hc)

theorem keepsForest_delete (h : TableInv t) (type : FileType) (index : ℕ) (fromIdle : Bool) :
    KeepsForest t (t.fileDeleteFormRbt type index fromIdle).2 where
  inv := (h.take fromIdle type index).inv
  places := .of_eq rfl
  cnt := rfl
  live := fun _ hp => hp.congr (.of_eq rfl) rfl

theorem keepsForest_insert (h : TableInv t) (hl : Loose t type n) (toIdle : Bool) :
    KeepsForest t (t.fileInsertToRbt type n toIdle) where
  inv := (hl.put h toIdle).1
  places := .of_eq (node_insert ..)
  cnt := by
    unfold Table.fileInsertToRbt
    split
    · rfl
    · rfl
  live := by
    intro p hp
    have hnode := node_insert t type n toIdle
    apply hp.congr (.of_eq hnode)
    rw [Table.freed, hnode]
    rfl

theorem keepsForest_addUsecnt (h : TableInv t) (d : ℤ) (n : NodeRef) :
    KeepsForest t (t.addUsecnt d n) where
  inv := (h.addUsecnt d n).inv
  places := samePlaces_addUsecnt t d n
  cnt := by
    unfold Table.addUsecnt
    split
    · rfl
    · rfl
  live := fun p hp => hp.congr (samePlaces_addUsecnt t d n) (freed_addUsecnt t d n p)

theorem keepsForest_destory (h : TableInv t) (hl : Loose t type n) :
    KeepsForest t (t.fileNodeDestory n) := by
  have hplaces := (quiet_destroy t n).places
  rcases fileNodeDestory_cases t n with heq | ⟨heq, x, hx, htype, _⟩
  · rw [heq]
    exact ⟨h, .of_eq rfl, rfl, fun _ hp => hp⟩
  · refine ⟨heq ▸ hl.free h, hplaces, ?_, ?_⟩
    · rw [heq]
      unfold Table.free
      split
      · rfl
      · rfl
    · intro p hp
      have hne : p ≠ n := by
        rintro rfl
        obtain ⟨⟨y, hy, hty⟩, _⟩ := hp
        rw [hx] at hy
        cases hy
        exact htype hty
      exact hp.congr hplaces (freed_destroy_of_ne t hne)

variable {s s' : Shared}

theorem SharedInv.getIdleIndex (h : SharedInv ⟨t, none⟩) (type : FileType) :
    SharedInv ⟨(t.getIdleIndex type).2, some (.drawing type (t.getIdleIndex type).1)⟩ where
  table := (h.table.getIdleIndex type).inv
  tree := h.tree.congr (.of_eq rfl)
  live := h.live
  creation := by
    intro creation hc
    obtain rfl := Option.some.inj hc
    have hcnt : (t.getIdleIndex type).2.cnt type = t.cnt type + 1 := Function.update_self ..
    refine ⟨hcnt.symm, ?_⟩
    rintro m ⟨x, hx, rfl⟩
    rw [key_of_node hx]
    exact h.table.index_le m x hx

theorem drawParent_cases (t : Table) (type : FileType) (i r : ℕ) :
    drawParent t type i r = (t, .placed type i none) ∨ ∃ k,
      drawParent t type i r = (t.setRbt true .dir k none, .drawing type i) ∨
        ∃ p, t.rbt true .dir k = some p ∧
          drawParent t type i r = (t.setRbt true .dir k none, .placed type i (some p)) := by
  unfold drawParent
  split_ifs
  · exact Or.inl rfl
  · refine Or.inr ⟨parIndex t r, ?_⟩
    simp only [Table.fileDeleteFormRbt]
    cases hp : t.rbt true .dir (parIndex t r) with
    | none => exact Or.inl rfl
    | some p =>
      dsimp only
      split_ifs
      · exact Or.inr ⟨p, rfl, rfl⟩
      · exact Or.inl rfl

theorem TableInv.liveDir (h : TableInv t) {idle : Bool} (hp : t.rbt idle .dir i = some p) :
    LiveDir t p := by
  obtain ⟨x, hx, htype, -, hfreed⟩ := h.stored idle .dir i p hp
  refine ⟨⟨x, hx, htype⟩, ?_⟩
  rw [Table.freed, hx]
  exact hfreed

theorem SharedInv.drawParent (h : SharedInv ⟨t, some (.drawing type i)⟩) (r : ℕ) :
    SharedInv ⟨(drawParent t type i r).1, some (drawParent t type i r).2⟩ := by
  have hnewest : Newest t type i := h.creation _ rfl
  rcases drawParent_cases t type i r with heq | ⟨k, heq | ⟨p, hp, heq⟩⟩
  · rw [heq]
    refine ⟨h.table, h.tree, h.live, fun creation hc => ?_⟩
    obtain rfl := Option.some.inj hc
    exact ⟨hnewest, fun p hp => by cases hp⟩
  · rw [heq]
    exact h.keeps (keepsForest_delete h.table .dir k true)
  · have hkeeps := keepsForest_delete h.table .dir k true
    have hdeleted := h.keeps hkeeps
    rw [heq]
    refine ⟨hdeleted.table, hdeleted.tree, hdeleted.live, fun creation hc => ?_⟩
    obtain rfl := Option.some.inj hc
    refine ⟨hkeeps.newest hnewest, fun q hq => ?_⟩
    obtain rfl := Option.some.inj hq
    exact hkeeps.live p (h.table.liveDir hp)

theorem LiveDir.lt_fresh (hp : LiveDir t p) (h : TableInv t) : p < t.fresh := by
  obtain ⟨x, hx, -⟩ := hp.1
  exact h.fresh p x hx

theorem LiveDir.alloc (hp : LiveDir t p) (h : TableInv t) (x : FileNode) :
    LiveDir (t.alloc x).2 p := by
  obtain ⟨y, hy, htype⟩ := hp.1
  have hfreed := hp.2
  rw [Table.freed, hy] at hfreed
  refine ⟨⟨y, h.alloc_of_node hy, htype⟩, ?_⟩
  rw [Table.freed, h.alloc_of_node hy]
  exact hfreed

theorem SharedInv.alloc {par : Option NodeRef} (h : SharedInv ⟨t, some (.placed type i par)⟩)
    (suffix : Suffix) :
    SharedInv ⟨(t.alloc ⟨par, constructionFileName (i + 1) type suffix, type, 0, false⟩).2,
      some (.made type t.fresh)⟩ := by
  obtain ⟨⟨hcnt, hindex⟩, hpar⟩ : Newest t type i ∧ ∀ p, par = some p → LiveDir t p :=
    h.creation _ rfl
  generalize hx : (⟨par, constructionFileName (i + 1) type suffix, type, 0, false⟩ : FileNode) = x
  have hparent : ∀ p, x.parent = some p → LiveDir t p := by
    rw [← hx]
    exact hpar
  have hbelow : ∀ m p, (t.alloc x).2.parent m = some p → LiveDir t p := by
    intro m p hp
    rw [parent_alloc] at hp
    split_ifs at hp
    · exact hparent p hp
    · exact h.live m p hp
  have hinv : TableInv (t.alloc x).2 := by
    rw [← hx]
    apply (h.table.alloc (Nat.succ_pos i) hcnt.le rfl _).inv
    rintro m y hy rfl
    have hle := hindex m ⟨y, hy, rfl⟩
    rw [key_of_node hy] at hle
    exact Nat.lt_succ_of_le hle
  have htree : TreeInv (t.alloc x).2 := by
    apply h.tree.alloc h.table
    intro p hp
    refine ⟨(hparent p hp).1, fun hdir => ?_⟩
    rw [← hx] at hdir ⊢
    obtain rfl : type = .dir := hdir
    exact Nat.lt_succ_of_le (hindex p (hparent p hp).1)
  refine ⟨hinv, htree, fun m p hp => (hbelow m p hp).alloc h.table x, fun creation hc => ?_⟩
  obtain rfl := Option.some.inj hc
  intro m hm
  exact Nat.lt_irrefl _ ((hbelow m t.fresh hm).lt_fresh h.table)

theorem SharedInv.freeNew (h : SharedInv ⟨t, some (.made type n)⟩) (hl : Loose t type n) :
    SharedInv ⟨t.free n, none⟩ where
  table := hl.free h.table
  tree := h.tree.congr (quiet_free t n).places
  live := by
    intro m p hp
    have hplaces := (quiet_free t n).places
    rw [hplaces.parent] at hp
    have hne : p ≠ n := by
      rintro rfl
      exact h.creation _ rfl m hp
    exact (h.live m p hp).congr hplaces (freed_free_of_ne t hne)
  creation := fun _ hc => by cases hc

theorem SharedInv.finish (h : SharedInv s) : SharedInv ⟨s.table, none⟩ where
  table := h.table
  tree := h.tree
  live := h.live
  creation := fun _ hc => by cases hc

theorem sharedInv_init : SharedInv Shared.init where
  table := tableInv_init
  tree := (@useInv_init sampleConfig).tree
  live := fun _ _ h => by cases h
  creation := fun _ h => by cases h

theorem SamePlaces.extends (h : SamePlaces t u) : Extends t u := by
  constructor
  intro n x hx
  have hplace := h.node n
  rw [hx] at hplace
  obtain ⟨y, hy, hxy⟩ := Option.map_eq_some_iff.1 hplace
  obtain ⟨hparent, hname, htype⟩ : y.parent = x.parent ∧ y.fileName = x.fileName ∧
      y.fileType = x.fileType := by simpa [FileNode.place] using hxy
  exact ⟨y, hy, hparent, hname, htype⟩

theorem SharedInv.keeps_extends (h : SharedInv s) (hk : KeepsForest s.table u) :
    SharedInv { s with table := u } ∧ Extends s.table u :=
  ⟨h.keeps hk, hk.places.extends⟩

theorem extends_drawParent (t : Table) (type : FileType) (i r : ℕ) :
    Extends t (drawParent t type i r).1 := by
  rcases drawParent_cases t type i r with heq | ⟨k, heq | ⟨p, -, heq⟩⟩
  · rw [heq]
    exact .of_eq rfl
  · rw [heq]
    exact .of_eq rfl
  · rw [heq]
    exact .of_eq rfl

theorem SharedInv.access {a : Access} (h : SharedInv s) (ha : access s a = some s') :
    SharedInv s' ∧ Extends s.table s'.table := by
  obtain ⟨t, creation⟩ := s
  cases a with
  | getIdleIndex type =>
    cases creation with
    | none =>
      obtain rfl := Option.some.inj ha
      exact ⟨h.getIdleIndex type, .of_eq rfl⟩
    | some creation => cases ha
  | drawParent r =>
    match creation, ha with
    | some (.drawing type i), ha =>
      obtain rfl := Option.some.inj ha
      exact ⟨h.drawParent r, extends_drawParent ..⟩
  | alloc suffix =>
    match creation, ha with
    | some (.placed type i par), ha =>
      obtain rfl := Option.some.inj ha
      exact ⟨h.alloc suffix, ⟨fun m y hy => ⟨y, h.table.alloc_of_node hy, rfl, rfl, rfl⟩⟩⟩
  | freeNew =>
    match creation, ha with
    | some (.made type n), ha =>
      obtain ⟨hl, ha⟩ := Option.ite_none_right_eq_some.1 ha
      obtain rfl := Option.some.inj ha
      exact ⟨h.freeNew hl, extends_free t n⟩
  | finish =>
    match creation, ha with
    | some (.placed ..), ha | some (.made ..), ha =>
      obtain rfl := Option.some.inj ha
      exact ⟨h.finish, .of_eq rfl⟩
  | delete type index fromIdle =>
    obtain rfl := Option.some.inj ha
    exact h.keeps_extends (keepsForest_delete h.table type index fromIdle)
  | insert type n toIdle =>
    obtain ⟨hl, ha⟩ := Option.ite_none_right_eq_some.1 ha
    obtain rfl := Option.some.inj ha
    exact h.keeps_extends (keepsForest_insert h.table hl toIdle)
  | addUsecnt d n =>
    obtain rfl := Option.some.inj ha
    exact h.keeps_extends (keepsForest_addUsecnt h.table d n)
  | destory type n =>
    obtain ⟨hl, ha⟩ := Option.ite_none_right_eq_some.1 ha
    obtain rfl := Option.some.inj ha
    exact h.keeps_extends (keepsForest_destory h.table hl)

theorem SharedInv.exec {as : List Access} (h : SharedInv s)
    (hrun : exec FileTable.access s as = some s') :
    SharedInv s' ∧ Extends s.table s'.table := by
  apply invariant_exec (I := fun s' => SharedInv s' ∧ Extends s.table s'.table) _ _ hrun
  · rintro v a w ⟨hv, hext⟩ ha
    obtain ⟨hw, hext'⟩ := hv.access ha
    exact ⟨hw, hext.trans hext'⟩
  · exact ⟨h, .of_eq rfl⟩

theorem sharedInv_of_exec {as : List Access} (hrun : exec access Shared.init as = some s) :
    SharedInv s :=
  (sharedInv_init.exec hrun).1

end MyScripts.Shark.FileTable
