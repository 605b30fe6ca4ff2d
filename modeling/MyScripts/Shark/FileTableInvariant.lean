import MyScripts.Shark.FileOps
import Mathlib.Data.Set.Basic

/-!
# The node table over whole runs

A node that a function holds between taking it from one tree and putting it
into another is in no tree. Every function is a sequence of takes, puts,
allocations, frees and changes of use counts; each of them keeps the invariant,
and keeps out of the trees the nodes that somebody else holds.
-/
namespace MyScripts.Shark.FileTable
open Library.Run Journal

variable {c : Config} {t u v : Table} {n m : NodeRef} {type : FileType} {S : Set NodeRef}

structure TableInv (t : Table) : Prop where
  fresh : ∀ n x, t.node n = some x → n < t.fresh
  index_pos : ∀ n x, t.node n = some x → 0 < x.fileName.index
  index_le : ∀ n x, t.node n = some x → x.fileName.index ≤ t.cnt x.fileType
  unique : ∀ n m x y, t.node n = some x → t.node m = some y → x.fileType = y.fileType →
    x.fileName.index = y.fileName.index → n = m
  stored : ∀ idle type i n, t.rbt idle type i = some n →
    ∃ x, t.node n = some x ∧ x.fileType = type ∧ x.fileName.index = i ∧ x.freed = false
  apart : ∀ type i, t.rbt true type i = none ∨ t.rbt false type i = none

def Loose (t : Table) (type : FileType) (n : NodeRef) : Prop :=
  ∃ x, t.node n = some x ∧ x.fileType = type ∧ x.freed = false ∧
    ∀ idle, t.rbt idle type x.fileName.index = none

structure Extends (t u : Table) : Prop where
  node : ∀ n x, t.node n = some x → ∃ y, u.node n = some y ∧ y.parent = x.parent ∧
    y.fileName = x.fileName ∧ y.fileType = x.fileType

theorem Extends.of_eq (h : u.node = t.node) : Extends t u := by
  constructor
  intro n x hx
  exact ⟨x, by rw [h, hx], rfl, rfl, rfl⟩

theorem Extends.trans (h : Extends t u) (h' : Extends u v) : Extends t v := by
  constructor
  intro n x hx
  obtain ⟨y, hy, hp, hn, ht⟩ := h.node n x hx
  obtain ⟨z, hz, hp', hn', ht'⟩ := h'.node n y hy
  exact ⟨z, hz, hp'.trans hp, hn'.trans hn, ht'.trans ht⟩

/-- The nodes that are in no tree stay out, but for those in `S`. -/
structure Keeps (S : Set NodeRef) (t u : Table) : Prop where
  node : Extends t u
  loose : ∀ type n, n ∉ S → Loose t type n → Loose u type n

theorem Keeps.refl : Keeps S t t where
  node := .of_eq rfl
  loose := fun _ _ _ h => h

theorem Keeps.trans (h : Keeps S t u) (h' : Keeps S u v) : Keeps S t v where
  node := h.node.trans h'.node
  loose := fun type n hS hn => h'.loose type n hS (h.loose type n hS hn)

theorem Keeps.but (h : Keeps ∅ t u) : Keeps S t u where
  node := h.node
  loose := fun type n _ hn => h.loose type n (Set.notMem_empty n) hn

theorem Loose.type_eq {type' : FileType} (h : Loose t type n) (h' : Loose t type' n) :
    type = type' := by
  obtain ⟨x, hx, rfl, _⟩ := h
  obtain ⟨y, hy, rfl, _⟩ := h'
  rw [hx] at hy
  cases hy
  rfl

theorem tableInv_init : TableInv Table.init where
  fresh := fun _ _ h => by cases h
  index_pos := fun _ _ h => by cases h
  index_le := fun _ _ h => by cases h
  unique := fun _ _ _ _ h => by cases h
  stored := fun _ _ _ _ h => by cases h
  apart := fun _ _ => Or.inl rfl

structure Safe (t u : Table) : Prop where
  inv : TableInv u
  keeps : Keeps ∅ t u

theorem TableInv.safe (h : TableInv t) : Safe t t := ⟨h, Keeps.refl⟩

theorem Safe.trans (h : Safe t u) (h' : Safe u v) : Safe t v := ⟨h'.inv, h.keeps.trans h'.keeps⟩

/-- From `t` to `u` the node `n` was taken from a tree or allocated, and is now held. -/
structure Takes (t u : Table) (type : FileType) (n : NodeRef) : Prop extends Safe t u where
  held : Loose u type n
  before : ¬Loose t type n

theorem rbt_setRbt (t : Table) (idle : Bool) (type : FileType) (i : ℕ) (v : Option NodeRef)
    (b : Bool) (ty : FileType) (j : ℕ) :
    ((b = idle ∧ ty = type ∧ j = i) ∧ (t.setRbt idle type i v).rbt b ty j = v) ∨
      (¬(b = idle ∧ ty = type ∧ j = i) ∧ (t.setRbt idle type i v).rbt b ty j = t.rbt b ty j) := by
  by_cases h : b = idle ∧ ty = type ∧ j = i
  · exact Or.inl ⟨h, if_pos h⟩
  · exact Or.inr ⟨h, if_neg h⟩

theorem rbt_of_take {idle : Bool} {i : ℕ} {b : Bool} {ty : FileType} {j : ℕ}
    (h : (t.setRbt idle type i none).rbt b ty j = some n) : t.rbt b ty j = some n := by
  rcases rbt_setRbt t idle type i none b ty j with ⟨_, h'⟩ | ⟨_, h'⟩
  · rw [h'] at h
    cases h
  · rwa [h'] at h

theorem take_of_none {idle : Bool} {i : ℕ} {b : Bool} {ty : FileType} {j : ℕ}
    (h : t.rbt b ty j = none) : (t.setRbt idle type i none).rbt b ty j = none := by
  rcases rbt_setRbt t idle type i none b ty j with ⟨_, h'⟩ | ⟨_, h'⟩
  · exact h'
  · rw [h', h]

theorem TableInv.take (h : TableInv t) (idle : Bool) (type : FileType) (i : ℕ) :
    Safe t (t.setRbt idle type i none) where
  inv :=
    { fresh := h.fresh
      index_pos := h.index_pos
      index_le := h.index_le
      unique := h.unique
      stored := fun b ty j n hn => h.stored b ty j n (rbt_of_take hn)
      apart := fun ty j => (h.apart ty j).imp take_of_none take_of_none }
  keeps :=
    { node := .of_eq rfl
      loose := fun _ _ _ ⟨x, hx, ht, hf, hnone⟩ => ⟨x, hx, ht, hf, fun b => take_of_none (hnone b)⟩ }

theorem TableInv.not_loose {idle : Bool} {i : ℕ} {type' : FileType} (h : TableInv t)
    (hn : t.rbt idle type i = some n) : ¬Loose t type' n := by
  rintro ⟨y, hy, rfl, _, hnone⟩
  obtain ⟨x, hx, rfl, rfl, _⟩ := h.stored idle type i n hn
  rw [hx] at hy
  cases hy
  rw [hnone idle] at hn
  cases hn

theorem TableInv.takes {idle : Bool} {i : ℕ} (h : TableInv t) (hn : t.rbt idle type i = some n) :
    Takes t (t.setRbt idle type i none) type n where
  toSafe := h.take idle type i
  held := by
    obtain ⟨x, hx, ht, hi, hf⟩ := h.stored idle type i n hn
    refine ⟨x, hx, ht, hf, fun b => ?_⟩
    rw [hi]
    rcases rbt_setRbt t idle type i none b type i with ⟨_, h'⟩ | ⟨hne, h'⟩
    · exact h'
    · rw [h']
      -- the other tree of the type
      have hb : b = !idle := by cases b <;> cases idle <;> simp_all
      have hapart := h.apart type i
      subst hb
      cases idle <;> simp_all
  before := h.not_loose hn

theorem key_of_node {x : FileNode} (hx : t.node n = some x) : t.key n = x.fileName.index := by
  simp [Table.key, hx]

theorem insert_of_none {idle : Bool} {x : FileNode} (hx : t.node n = some x)
    (hnone : t.rbt idle type x.fileName.index = none) :
    t.fileInsertToRbt type n idle = t.setRbt idle type x.fileName.index (some n) := by
  rw [Table.fileInsertToRbt, key_of_node hx, hnone]

theorem Loose.put (hl : Loose t type n) (h : TableInv t) (idle : Bool) :
    TableInv (t.fileInsertToRbt type n idle) ∧ Keeps {n} t (t.fileInsertToRbt type n idle) := by
  obtain ⟨x, hx, ht, hf, hnone⟩ := hl
  rw [insert_of_none hx (hnone idle)]
  refine ⟨⟨h.fresh, h.index_pos, h.index_le, h.unique, ?_, ?_⟩,
    .of_eq rfl, ?_⟩
  · intro b ty j m hm
    rcases rbt_setRbt t idle type x.fileName.index (some n) b ty j with ⟨⟨_, rfl, rfl⟩, h'⟩ | ⟨_, h'⟩
    · rw [h'] at hm
      cases hm
      exact ⟨x, hx, ht, rfl, hf⟩
    · rw [h'] at hm
      exact h.stored b ty j m hm
  · intro ty j
    have hother : ∀ b, b ≠ idle ∨ ¬(ty = type ∧ j = x.fileName.index) →
        (t.setRbt idle type x.fileName.index (some n)).rbt b ty j = t.rbt b ty j := by
      intro b hb
      rcases rbt_setRbt t idle type x.fileName.index (some n) b ty j with ⟨hcase, _⟩ | ⟨_, h'⟩
      · exact absurd hcase.2 (hb.resolve_left (absurd hcase.1))
      · exact h'
    by_cases hkey : ty = type ∧ j = x.fileName.index
    · -- the tree that `n` is not put into
      obtain ⟨rfl, rfl⟩ := hkey
      cases idle with
      | true => exact Or.inr (by rw [hother false (Or.inl (by decide)), hnone])
      | false => exact Or.inl (by rw [hother true (Or.inl (by decide)), hnone])
    · rw [hother true (Or.inr hkey), hother false (Or.inr hkey)]
      exact h.apart ty j
  · rintro ty m hm ⟨y, hy, rfl, hfy, hnoney⟩
    refine ⟨y, hy, rfl, hfy, fun b => ?_⟩
    rcases rbt_setRbt t idle type x.fileName.index (some n) b y.fileType y.fileName.index with
      ⟨⟨_, hty, hj⟩, _⟩ | ⟨_, h'⟩
    · exact absurd (h.unique m n y x hy hx (hty.trans ht.symm) hj) hm
    · rw [h', hnoney]

theorem extends_setNode {x y : FileNode} (hx : t.node n = some x) (hp : y.parent = x.parent)
    (hn : y.fileName = x.fileName) (ht : y.fileType = x.fileType) : Extends t (t.setNode n y) := by
  constructor
  intro m z hz
  by_cases hm : m = n
  · subst hm
    rw [hx] at hz
    cases hz
    exact ⟨y, Function.update_self .., hp, hn, ht⟩
  · exact ⟨z, (Function.update_of_ne hm ..).trans hz, rfl, rfl, rfl⟩

theorem node_of_setNode {x y z : FileNode} (hx : t.node n = some x)
    (hn : y.fileName = x.fileName) (ht : y.fileType = x.fileType)
    (hz : (t.setNode n y).node m = some z) :
    ∃ z', t.node m = some z' ∧ z.fileName = z'.fileName ∧ z.fileType = z'.fileType := by
  by_cases hm : m = n
  · subst hm
    simp only [Table.setNode, Function.update_self, Option.some.injEq] at hz
    subst hz
    exact ⟨x, hx, hn, ht⟩
  · simp only [Table.setNode, Function.update_of_ne hm] at hz
    exact ⟨z, hz, rfl, rfl⟩

theorem setNode_of_node {x y z : FileNode} (hx : t.node n = some x)
    (hn : y.fileName = x.fileName) (ht : y.fileType = x.fileType) (hz : t.node m = some z) :
    ∃ z', (t.setNode n y).node m = some z' ∧ z'.fileName = z.fileName ∧
      z'.fileType = z.fileType ∧ (m ≠ n ∨ y.freed = x.freed → z'.freed = z.freed) := by
  by_cases hm : m = n
  · subst hm
    rw [hx] at hz
    cases hz
    exact ⟨y, Function.update_self .., hn, ht, fun h => h.resolve_left (absurd rfl)⟩
  · exact ⟨z, (Function.update_of_ne hm ..).trans hz, rfl, rfl, fun _ => rfl⟩

theorem TableInv.setNode {x y : FileNode} (h : TableInv t) (hx : t.node n = some x)
    (hn : y.fileName = x.fileName) (ht : y.fileType = x.fileType)
    (hf : y.freed = x.freed ∨ Loose t x.fileType n) : TableInv (t.setNode n y) where
  fresh := by
    intro m z hz
    obtain ⟨z', hz', _⟩ := node_of_setNode hx hn ht hz
    exact h.fresh m z' hz'
  index_pos := by
    intro m z hz
    obtain ⟨z', hz', hname, _⟩ := node_of_setNode hx hn ht hz
    rw [hname]
    exact h.index_pos m z' hz'
  index_le := by
    intro m z hz
    obtain ⟨z', hz', hname, htype⟩ := node_of_setNode hx hn ht hz
    rw [hname, htype]
    exact h.index_le m z' hz'
  unique := by
    intro m k z w hz hw htype hindex
    obtain ⟨z', hz', hzn, hzt⟩ := node_of_setNode hx hn ht hz
    obtain ⟨w', hw', hwn, hwt⟩ := node_of_setNode hx hn ht hw
    rw [hzt, hwt] at htype
    rw [hzn, hwn] at hindex
    exact h.unique m k z' w' hz' hw' htype hindex
  stored := by
    intro b ty j m hm
    obtain ⟨z, hz, hzt, hzi, hzf⟩ := h.stored b ty j m hm
    obtain ⟨z', hz', hn', ht', hf'⟩ := setNode_of_node hx hn ht hz
    have hsame : m ≠ n ∨ y.freed = x.freed := by
      by_cases hmn : m = n
      · subst hmn
        exact Or.inr (hf.resolve_right (h.not_loose hm))
      · exact Or.inl hmn
    exact ⟨z', hz', ht'.trans hzt, by rw [hn', hzi], (hf' hsame).trans hzf⟩
  apart := h.apart

theorem keeps_setNode {x y : FileNode} (hx : t.node n = some x) (hp : y.parent = x.parent)
    (hn : y.fileName = x.fileName) (ht : y.fileType = x.fileType)
    (hf : n ∉ S → y.freed = x.freed) : Keeps S t (t.setNode n y) where
  node := extends_setNode hx hp hn ht
  loose := by
    rintro ty m hm ⟨z, hz, rfl, hzf, hnone⟩
    obtain ⟨z', hz', hn', ht', hf'⟩ := setNode_of_node hx hn ht hz
    have hsame : m ≠ n ∨ y.freed = x.freed := by
      by_cases hmn : m = n
      · subst hmn
        exact Or.inr (hf hm)
      · exact Or.inl hmn
    exact ⟨z', hz', ht', (hf' hsame).trans hzf, fun b => by rw [hn']; exact hnone b⟩

theorem TableInv.addUsecnt (h : TableInv t) (d : ℤ) (n : NodeRef) : Safe t (t.addUsecnt d n) := by
  unfold Table.addUsecnt
  split
  · exact h.safe
  · next x hx =>
    exact ⟨h.setNode hx rfl rfl (Or.inl rfl), keeps_setNode hx rfl rfl rfl fun _ => rfl⟩

theorem TableInv.usecntUpdate (h : TableInv t) (initial : ℕ) (n : NodeRef) (isAdd : Bool) :
    Safe t (t.fileNodeUsecntUpdate initial n isAdd) := by
  unfold Table.fileNodeUsecntUpdate
  generalize t.usecntPath initial n = ps
  induction ps generalizing t with
  | nil => exact h.safe
  | cons p ps ih =>
    have hadd := h.addUsecnt (if isAdd then 1 else -1) p
    exact hadd.trans (ih hadd.inv)

theorem TableInv.getIdleIndex (h : TableInv t) (type : FileType) : Safe t (t.getIdleIndex type).2 where
  inv :=
    { fresh := h.fresh
      index_pos := h.index_pos
      index_le := fun n x hx => by
        have hle := h.index_le n x hx
        simp only [Table.getIdleIndex, Function.update_apply]
        split_ifs with ht
        · rw [ht] at hle
          exact Nat.le_succ_of_le hle
        · exact hle
      unique := h.unique
      stored := h.stored
      apart := h.apart }
  keeps := ⟨.of_eq rfl, fun _ _ _ hl => hl⟩

theorem TableInv.alloc_of_node {x y : FileNode} (h : TableInv t) (hy : t.node m = some y) :
    (t.alloc x).2.node m = some y := by
  have hm := h.fresh m y hy
  exact (Function.update_of_ne (Nat.ne_of_lt hm) ..).trans hy

theorem node_of_alloc {x y : FileNode} (hy : (t.alloc x).2.node m = some y) :
    m = t.fresh ∧ y = x ∨ t.node m = some y := by
  by_cases hm : m = t.fresh
  · subst hm
    have hnew : (t.alloc x).2.node t.fresh = some x := Function.update_self ..
    rw [hnew] at hy
    cases hy
    exact Or.inl ⟨rfl, rfl⟩
  · exact Or.inr ((Function.update_of_ne hm ..).symm.trans hy)

theorem TableInv.allocated {x : FileNode} (h : TableInv t) (hpos : 0 < x.fileName.index)
    (hle : x.fileName.index ≤ t.cnt x.fileType)
    (hlt : ∀ m y, t.node m = some y → y.fileType = x.fileType →
      y.fileName.index < x.fileName.index) : TableInv (t.alloc x).2 where
  fresh := by
    intro m y hy
    rcases node_of_alloc hy with ⟨rfl, _⟩ | hy
    · exact Nat.lt_succ_self _
    · exact Nat.lt_succ_of_lt (h.fresh m y hy)
  index_pos := by
    intro m y hy
    rcases node_of_alloc hy with ⟨_, rfl⟩ | hy
    · exact hpos
    · exact h.index_pos m y hy
  index_le := by
    intro m y hy
    rcases node_of_alloc hy with ⟨_, rfl⟩ | hy
    · exact hle
    · exact h.index_le m y hy
  unique := by
    intro m k y z hy hz htype hindex
    rcases node_of_alloc hy with ⟨rfl, hyx⟩ | hy' <;> rcases node_of_alloc hz with ⟨rfl, hzx⟩ | hz'
    · rfl
    · rw [hyx] at htype hindex
      have hl := hlt k z hz' htype.symm
      omega
    · rw [hzx] at htype hindex
      have hl := hlt m y hy' htype
      omega
    · exact h.unique m k y z hy' hz' htype hindex
  stored := by
    intro b ty j m hm
    obtain ⟨y, hy, rest⟩ := h.stored b ty j m hm
    exact ⟨y, h.alloc_of_node hy, rest⟩
  apart := h.apart

theorem TableInv.alloc {x : FileNode} (h : TableInv t) (hpos : 0 < x.fileName.index)
    (hle : x.fileName.index ≤ t.cnt x.fileType) (hf : x.freed = false)
    (hlt : ∀ m y, t.node m = some y → y.fileType = x.fileType →
      y.fileName.index < x.fileName.index) :
    Takes t (t.alloc x).2 x.fileType (t.alloc x).1 where
  inv := h.allocated hpos hle hlt
  keeps :=
    { node := ⟨fun m y hy => ⟨y, h.alloc_of_node hy, rfl, rfl, rfl⟩⟩
      loose := by
        rintro ty m _ ⟨y, hy, rest⟩
        exact ⟨y, h.alloc_of_node hy, rest⟩ }
  held := by
    refine ⟨x, Function.update_self .., rfl, hf, fun b => ?_⟩
    -- a tree that had the new index would have a node with it
    cases hb : t.rbt b x.fileType x.fileName.index with
    | none => exact hb
    | some m =>
      obtain ⟨y, hy, ht, hi, _⟩ := h.stored b _ _ m hb
      have hl := hlt m y hy ht
      omega
  before := by
    rintro ⟨y, hy, _⟩
    exact absurd (h.fresh _ y hy) (Nat.lt_irrefl _)

theorem Takes.keeps_of (h : Takes t u type n) (hk : Keeps {n} t v) : Keeps ∅ t v where
  node := hk.node
  loose := by
    intro ty m _ hm
    apply hk.loose ty m _ hm
    rintro rfl
    have hty := (h.keeps.loose ty m (Set.notMem_empty m) hm).type_eq h.held
    exact h.before (hty ▸ hm)

theorem Takes.put (h : Takes t u type n) (hs : Safe u v) (idle : Bool) :
    Safe t (v.fileInsertToRbt type n idle) := by
  obtain ⟨hinv, hkeeps⟩ := (hs.keeps.loose type n (Set.notMem_empty n) h.held).put hs.inv idle
  exact ⟨hinv, h.keeps_of ((h.keeps.trans hs.keeps).but.trans hkeeps)⟩

theorem Takes.after (h : Takes u v type n) (hs : Safe t u) : Takes t v type n where
  toSafe := hs.trans h.toSafe
  held := h.held
  before := fun hn => h.before (hs.keeps.loose type n (Set.notMem_empty n) hn)

theorem Loose.free (hl : Loose t type n) (h : TableInv t) : TableInv (t.free n) := by
  obtain ⟨x, hx, rfl, hrest⟩ := hl
  rw [Table.free, hx]
  exact h.setNode hx rfl rfl (Or.inr ⟨x, hx, rfl, hrest⟩)

theorem Takes.free (h : Takes t u type n) (hs : Safe u v) : Safe t (v.free n) := by
  have hloose := hs.keeps.loose type n (Set.notMem_empty n) h.held
  have hkeeps : Keeps {n} v (v.free n) := by
    unfold Table.free
    split
    · exact Keeps.refl
    · next x hx => exact keeps_setNode hx rfl rfl rfl fun hn => absurd rfl hn
  exact ⟨hloose.free hs.inv, h.keeps_of ((h.keeps.trans hs.keeps).but.trans hkeeps)⟩

theorem fileNodeDestory_cases (t : Table) (n : NodeRef) :
    t.fileNodeDestory n = t ∨
      t.fileNodeDestory n = t.free n ∧
        ∃ x, t.node n = some x ∧ x.fileType ≠ .dir ∧ x.usecnt = 0 := by
  unfold Table.fileNodeDestory
  cases hx : t.node n with
  | none => exact Or.inl rfl
  | some x =>
    dsimp only
    cases htype : x.fileType with
    | dir => exact Or.inl rfl
    | symlink | file =>
      dsimp only
      split_ifs with hcnt
      · exact Or.inl rfl
      · exact Or.inr ⟨rfl, x, rfl, by rw [htype]; decide, not_not.1 hcnt⟩

theorem Takes.destroy (h : Takes t u type n) (hs : Safe u v) : Safe t (v.fileNodeDestory n) := by
  rcases fileNodeDestory_cases v n with heq | ⟨heq, _⟩
  · rw [heq]
    exact h.toSafe.trans hs
  · rw [heq]
    exact h.free hs

theorem selectParent_cases {r : ℕ} {rs : List ℕ} {par : Option NodeRef}
    (hs : selectParent t (r :: rs) = some (par, u)) :
    par = none ∧ u = t ∨ ∃ i,
      t.rbt true .dir i = none ∧ selectParent (t.setRbt true .dir i none) rs = some (par, u) ∨
        ∃ p, t.rbt true .dir i = some p ∧ (par = some p ∧ u = t.setRbt true .dir i none ∨
          selectParent ((t.setRbt true .dir i none).fileInsertToRbt .dir p true) rs =
            some (par, u)) := by
  rw [selectParent] at hs
  generalize (if t.cnt .dir = 0 then 0 else r % t.cnt .dir) = i at hs
  split_ifs at hs with hi
  · cases hs
    exact Or.inl ⟨rfl, rfl⟩
  · refine Or.inr ⟨i, ?_⟩
    simp only [Table.fileDeleteFormRbt] at hs
    cases hq : t.rbt true .dir i with
    | none =>
      rw [hq] at hs
      exact Or.inl ⟨rfl, hs⟩
    | some p =>
      rw [hq] at hs
      dsimp only at hs
      refine Or.inr ⟨p, rfl, ?_⟩
      split_ifs at hs with hdepth
      · cases hs
        exact Or.inl ⟨rfl, rfl⟩
      · exact Or.inr hs

theorem selectIdle_cases {r : ℕ} {rs : List ℕ} (hs : selectIdle t type (r :: rs) = some (n, u)) :
    selectIdle t type rs = some (n, u) ∨ ∃ i,
      t.rbt true type i = none ∧ selectIdle (t.setRbt true type i none) type rs = some (n, u) ∨
        t.rbt true type i = some n ∧ u = t.setRbt true type i none := by
  rw [selectIdle] at hs
  generalize (if t.cnt type = 0 then 0 else if t.cnt type = 1 then 1 else r % t.cnt type) = i at hs
  split_ifs at hs with hi
  · exact Or.inl hs
  · refine Or.inr ⟨i, ?_⟩
    simp only [Table.fileDeleteFormRbt] at hs
    cases hq : t.rbt true type i with
    | none =>
      rw [hq] at hs
      exact Or.inl ⟨rfl, hs⟩
    | some m =>
      rw [hq] at hs
      cases hs
      exact Or.inr ⟨rfl, rfl⟩

theorem createInitial_cases {d : CreateDraws} (hc : createInitial t type n d = some u) :
    u = (if d.onTarget ∧ d.onCompare then t.fileInsertToRbt type n true else t.free n) ∨
      type = .symlink ∧ ∃ old w, selectIdle t .file d.oldFiles = some (old, w) ∧
        u = if d.onTarget ∧ d.onCompare then
            (w.fileInsertToRbt .file old true).fileInsertToRbt .symlink n true
          else w.free n := by
  cases type with
  | dir | file =>
    cases hc
    exact Or.inl rfl
  | symlink =>
    obtain ⟨_, hc⟩ := Option.ite_none_left_eq_some.1 hc
    obtain ⟨⟨old, w⟩, hold, rfl⟩ := Option.map_eq_some_iff.1 hc
    exact Or.inr ⟨rfl, old, w, hold, rfl⟩

/-- The steps the functions take with the idle trees alone. -/
structure IdleRule (R : Table → Table → Prop) : Prop where
  refl : ∀ t, R t t
  trans : ∀ {t u v : Table}, R t u → R u v → R t v
  take : ∀ t type i, R t (t.setRbt true type i none)
  insert : ∀ t type n, R t (t.fileInsertToRbt type n true)

section IdleRule

variable {R : Table → Table → Prop}

theorem IdleRule.selectParent {rs : List ℕ} {par : Option NodeRef} (hR : IdleRule R)
    (hs : selectParent t rs = some (par, u)) : R t u := by
  induction rs generalizing t with
  | nil => cases hs
  | cons r rs ih =>
    rcases selectParent_cases hs with ⟨-, rfl⟩ | ⟨i, ⟨-, hs⟩ | ⟨p, -, ⟨-, rfl⟩ | hs⟩⟩
    · exact hR.refl _
    · exact hR.trans (hR.take t .dir i) (ih hs)
    · exact hR.take t .dir i
    · exact hR.trans (hR.take t .dir i) (hR.trans (hR.insert ..) (ih hs))

theorem IdleRule.selectIdle {rs : List ℕ} (hR : IdleRule R)
    (hs : selectIdle t type rs = some (n, u)) : R t u := by
  induction rs generalizing t with
  | nil => cases hs
  | cons r rs ih =>
    rcases selectIdle_cases hs with hs | ⟨i, ⟨-, hs⟩ | ⟨-, rfl⟩⟩
    · exact ih hs
    · exact hR.trans (hR.take t type i) (ih hs)
    · exact hR.take t type i

theorem IdleRule.createInitial {d : CreateDraws} (hR : IdleRule R) (hfree : ∀ t n, R t (t.free n))
    (hc : createInitial t type n d = some u) : R t u := by
  rcases createInitial_cases hc with rfl | ⟨rfl, old, w, hold, rfl⟩
  · split_ifs
    · exact hR.insert ..
    · exact hfree ..
  · have hselect := hR.selectIdle hold
    split_ifs
    · exact hR.trans hselect (hR.trans (hR.insert ..) (hR.insert ..))
    · exact hR.trans hselect (hfree ..)

theorem IdleRule.putParToIdle (hR : IdleRule R) (t : Table) (par : Option NodeRef) :
    R t (putParToIdle t par) := by
  cases par with
  | none => exact hR.refl t
  | some p => exact hR.insert t .dir p

end IdleRule

theorem sameNodes_idleRule :
    IdleRule fun t u => u.node = t.node ∧ u.cnt = t.cnt ∧ u.fresh = t.fresh where
  refl _ := ⟨rfl, rfl, rfl⟩
  trans h h' := ⟨h'.1.trans h.1, h'.2.1.trans h.2.1, h'.2.2.trans h.2.2⟩
  take _ _ _ := ⟨rfl, rfl, rfl⟩
  insert t type n := by
    unfold Table.fileInsertToRbt
    split <;> exact ⟨rfl, rfl, rfl⟩

theorem TableInv.selectParent {rs : List ℕ} {par : Option NodeRef} (h : TableInv t)
    (hs : selectParent t rs = some (par, u)) :
    Safe t u ∧ (u.node = t.node ∧ u.cnt = t.cnt ∧ u.fresh = t.fresh) ∧
      ∀ p ∈ par, Takes t u .dir p := by
  have hsame := sameNodes_idleRule.selectParent hs
  suffices htakes : Safe t u ∧ ∀ p ∈ par, Takes t u .dir p from ⟨htakes.1, hsame, htakes.2⟩
  clear hsame
  induction rs generalizing t with
  | nil => cases hs
  | cons r rs ih =>
    rcases selectParent_cases hs with ⟨rfl, rfl⟩ | ⟨i, ⟨-, hs⟩ | ⟨p, hp, ⟨rfl, rfl⟩ | hs⟩⟩
    · exact ⟨h.safe, fun p hp => by cases hp⟩
    · have htake := h.take true .dir i
      obtain ⟨hsafe, hpar⟩ := ih htake.inv hs
      exact ⟨htake.trans hsafe, fun p hp => (hpar p hp).after htake⟩
    · have htake := h.takes hp
      refine ⟨htake.toSafe, fun q hq => ?_⟩
      cases hq
      exact htake
    · -- too deep: the directory goes back, and the loop goes on
      have htake := h.takes hp
      have hput := htake.put htake.inv.safe true
      obtain ⟨hsafe, hpar⟩ := ih hput.inv hs
      exact ⟨hput.trans hsafe, fun q hq => (hpar q hq).after hput⟩

theorem TableInv.selectIdle {rs : List ℕ} (h : TableInv t)
    (hs : selectIdle t type rs = some (n, u)) : Takes t u type n := by
  induction rs generalizing t with
  | nil => cases hs
  | cons r rs ih =>
    rcases selectIdle_cases hs with hs | ⟨i, ⟨-, hs⟩ | ⟨hn, rfl⟩⟩
    · exact ih h hs
    · have htake := h.take true type i
      exact (ih htake.inv hs).after htake
    · exact h.takes hn

theorem Takes.putInBusy (h : Takes t u type n) (hs : Safe u v) :
    Safe t (putInBusy c v type n) := by
  have hput := h.put hs false
  exact hput.trans (hput.inv.usecntUpdate c.initialDirCnts n true)

theorem Takes.createInitial {d : CreateDraws} (h : Takes t u type n)
    (hc : createInitial u type n d = some v) : Safe t v := by
  rcases createInitial_cases hc with rfl | ⟨rfl, old, w, hold, rfl⟩
  · split_ifs
    · exact h.put h.inv.safe true
    · exact h.free h.inv.safe
  · have htake := h.inv.selectIdle hold
    split_ifs
    · exact h.put (htake.put htake.inv.safe true) true
    · exact h.free htake.toSafe

theorem Safe.putParToIdle {par : Option NodeRef} (hs : Safe t u)
    (hpar : ∀ p ∈ par, Takes t u .dir p) (h : Safe u v) : Safe t (putParToIdle v par) := by
  cases par with
  | none => exact hs.trans h
  | some p => exact (hpar p rfl).put h true

theorem extends_insert (t : Table) (type : FileType) (n : NodeRef) (idle : Bool) :
    Extends t (t.fileInsertToRbt type n idle) := by
  unfold Table.fileInsertToRbt
  split <;> exact .of_eq rfl

theorem extends_free (t : Table) (n : NodeRef) : Extends t (t.free n) := by
  unfold Table.free
  split
  · exact .of_eq rfl
  · next x hx => exact extends_setNode hx rfl rfl rfl

theorem extends_idleRule : IdleRule Extends where
  refl _ := .of_eq rfl
  trans := Extends.trans
  take _ _ _ := .of_eq rfl
  insert t type n := extends_insert t type n true

def HasNode (t : Table) (n : NodeRef) (type : FileType) : Prop :=
  ∃ x, t.node n = some x ∧ x.fileType = type

theorem HasNode.extends (h : HasNode t n type) (he : Extends t u) : HasNode u n type := by
  obtain ⟨x, hx, ht⟩ := h
  obtain ⟨y, hy, _, _, hty⟩ := he.node n x hx
  exact ⟨y, hy, hty.trans ht⟩

theorem Takes.hasNode (h : Takes t u type n) : HasNode u n type := by
  obtain ⟨x, hx, ht, _⟩ := h.held
  exact ⟨x, hx, ht⟩

theorem Takes.create {forOp : Bool} {d : CreateDraws} (h : Takes t u type n)
    (hv : (if forOp then some (FileTable.putInBusy c u type n) else FileTable.createInitial u type n d)
      = some v) : Safe t v ∧ Extends u v := by
  by_cases hop : forOp = true
  · rw [if_pos hop] at hv
    cases hv
    have hput := (h.held.put h.inv false).1
    have husecnt := hput.usecntUpdate c.initialDirCnts n true
    exact ⟨h.putInBusy h.inv.safe, (extends_insert ..).trans husecnt.keeps.node⟩
  · rw [if_neg hop] at hv
    exact ⟨h.createInitial hv, extends_idleRule.createInitial extends_free hv⟩

theorem TableInv.index_lt_new {rs : List ℕ} {par : Option NodeRef} {y : FileNode} (h : TableInv t)
    (hpar : FileTable.selectParent (t.getIdleIndex type).2 rs = some (par, u)) (hy : u.node m = some y)
    (ht : y.fileType = type) : y.fileName.index < t.cnt type + 1 := by
  obtain ⟨-, ⟨hnode, -, -⟩, -⟩ := (h.getIdleIndex type).inv.selectParent hpar
  have hle := h.index_le m y (by rw [hnode] at hy; exact hy)
  rw [ht] at hle
  omega

theorem TableInv.newNode {rs : List ℕ} {par : Option NodeRef} (h : TableInv t)
    (hpar : FileTable.selectParent (t.getIdleIndex type).2 rs = some (par, u)) (s : Suffix) :
    Takes u (u.alloc ⟨par, constructionFileName (t.cnt type + 1) type s, type, 0, false⟩).2 type
      (u.alloc ⟨par, constructionFileName (t.cnt type + 1) type s, type, 0, false⟩).1 := by
  obtain ⟨hsel, ⟨-, hcnt, -⟩, -⟩ := (h.getIdleIndex type).inv.selectParent hpar
  have hle : t.cnt type + 1 ≤ u.cnt type := by
    rw [hcnt]
    simp only [Table.getIdleIndex, Function.update_self, Nat.le_refl]
  have hlt : ∀ m y, u.node m = some y → y.fileType = type → y.fileName.index < t.cnt type + 1 :=
    fun m y hy ht => h.index_lt_new hpar hy ht
  exact hsel.inv.alloc (Nat.succ_pos _) hle rfl hlt

theorem fileNodeCreate_cases {forOp : Bool} {d : CreateDraws} {r : Option NodeRef}
    (hc : fileNodeCreate c t type forOp d = some (r, u)) :
    ∃ par w x, selectParent (t.getIdleIndex type).2 d.parents = some (par, w) ∧
      x = ⟨par, constructionFileName (t.cnt type + 1) type d.suffix, type, 0, false⟩ ∧
      ((d.calloc = true ∧ ∃ v, (if forOp then some (putInBusy c (w.alloc x).2 type w.fresh)
          else createInitial (w.alloc x).2 type w.fresh d) = some v ∧
          r = some w.fresh ∧ u = putParToIdle v par) ∨
        (d.calloc = false ∧ r = none ∧ u = putParToIdle w par)) := by
  obtain ⟨⟨par, w⟩, hpar, hc⟩ := Option.bind_eq_some_iff.1 hc
  refine ⟨par, w, _, hpar, rfl, ?_⟩
  dsimp only at hc
  by_cases hcalloc : d.calloc = true
  · rw [if_pos hcalloc] at hc
    obtain ⟨v, hv, hr⟩ := Option.map_eq_some_iff.1 hc
    obtain ⟨rfl, rfl⟩ := Prod.mk.inj hr
    exact Or.inl ⟨hcalloc, v, hv, rfl, rfl⟩
  · rw [if_neg hcalloc] at hc
    obtain ⟨rfl, rfl⟩ := Prod.mk.inj (Option.some.inj hc)
    exact Or.inr ⟨Bool.eq_false_of_not_eq_true hcalloc, rfl, rfl⟩

theorem TableInv.fileNodeCreate {forOp : Bool} {d : CreateDraws} {r : Option NodeRef}
    (h : TableInv t) (hc : fileNodeCreate c t type forOp d = some (r, u)) :
    Safe t u ∧ ∀ n ∈ r, HasNode u n type := by
  obtain ⟨par, w, x, hpar, rfl, hcases⟩ := fileNodeCreate_cases hc
  have hindex := h.getIdleIndex type
  obtain ⟨hsel, -, htakes⟩ := hindex.inv.selectParent hpar
  rcases hcases with ⟨-, v, hv, rfl, rfl⟩ | ⟨-, rfl, rfl⟩
  · have htake := h.newNode hpar d.suffix
    have hbody := htake.create hv
    refine ⟨hindex.trans (hsel.putParToIdle htakes hbody.1), ?_⟩
    intro m hm
    cases hm
    exact htake.hasNode.extends (hbody.2.trans (extends_idleRule.putParToIdle ..))
  · exact ⟨hindex.trans (hsel.putParToIdle htakes hsel.inv.safe), fun n hn => by cases hn⟩

end MyScripts.Shark.FileTable
