import MyScripts.Shark.UseCounts

/-!
# Which nodes a selection can draw

The loops that select a node of an idle tree draw an index and look it up until
a node has it. An iteration that fails leaves the table as it was, so a loop
returns what its first successful draw gives. Indices run from 1 to the number
of creations, and the draws from 0 to one less.
-/
namespace MyScripts.Shark.FileTable
open Library.Run Journal

variable {c : Config} {t u v : Table} {n p : NodeRef} {type : FileType} {i : ℕ}

theorem setRbt_eq {idle : Bool} {o : Option NodeRef} (h : (u.setRbt idle type i o).rbt = t.rbt)
    (hn : u.node = t.node) (hf : u.fresh = t.fresh) (hc : u.cnt = t.cnt) :
    u.setRbt idle type i o = t := by
  cases t
  subst hn hf hc h
  rfl

theorem setRbt_of_none {idle : Bool} (h : t.rbt idle type i = none) :
    t.setRbt idle type i none = t := by
  apply setRbt_eq _ rfl rfl rfl
  funext b ty j
  rcases rbt_setRbt t idle type i none b ty j with ⟨⟨rfl, rfl, rfl⟩, h'⟩ | ⟨-, h'⟩
  · rw [h', h]
  · exact h'

theorem rbt_insert_back {idle : Bool} (hn : t.rbt idle type i = some n)
    (hv : v.rbt = (t.setRbt idle type i none).rbt) (hkey : v.key n = i) :
    (v.fileInsertToRbt type n idle).rbt = t.rbt := by
  have hnone : v.rbt idle type (v.key n) = none := by
    rw [hv, hkey]
    exact if_pos ⟨rfl, rfl, rfl⟩
  rw [Table.fileInsertToRbt, hnone, hkey]
  funext b ty j
  rcases rbt_setRbt v idle type i (some n) b ty j with ⟨⟨rfl, rfl, rfl⟩, h'⟩ | ⟨hne, h'⟩
  · rw [h', hn]
  · rw [h', hv]
    exact if_neg hne

theorem TableInv.key_of_rbt {idle : Bool} (h : TableInv t) (hn : t.rbt idle type i = some n) :
    t.key n = i := by
  obtain ⟨x, hx, -, hi, -⟩ := h.stored idle type i n hn
  rw [key_of_node hx, hi]

theorem TableInv.insert_back {idle : Bool} (h : TableInv t) (hn : t.rbt idle type i = some n) :
    (t.setRbt idle type i none).fileInsertToRbt type n idle = t := by
  have hrbt := rbt_insert_back hn (v := t.setRbt idle type i none) rfl (h.key_of_rbt hn)
  have hnone : (t.setRbt idle type i none).rbt idle type i = none := if_pos ⟨rfl, rfl, rfl⟩
  have hkey : (t.setRbt idle type i none).key n = i := h.key_of_rbt hn
  rw [Table.fileInsertToRbt, hkey, hnone] at hrbt ⊢
  exact setRbt_eq hrbt rfl rfl rfl

theorem TableInv.rbt_zero (h : TableInv t) (idle : Bool) (type : FileType) :
    t.rbt idle type 0 = none := by
  cases hn : t.rbt idle type 0 with
  | none => rfl
  | some n =>
    obtain ⟨x, hx, -, hi, -⟩ := h.stored idle type 0 n hn
    have hpos := h.index_pos n x hx
    omega

theorem checkPathDepth_setRbt (t : Table) (idle : Bool) (type : FileType) (i : ℕ)
    (v : Option NodeRef) (p : NodeRef) :
    (t.setRbt idle type i v).checkPathDepth p = t.checkPathDepth p := by
  rw [Table.checkPathDepth, ancestors_eq, Table.checkPathDepth, ancestors_eq]
  rfl

def parIndex (t : Table) (r : ℕ) : ℕ := if t.cnt .dir = 0 then 0 else r % t.cnt .dir

/-- The index that an iteration of a selection loop of `file_oplist_create` looks up. -/
def drawnIndex (t : Table) (type : FileType) (r : ℕ) : ℕ :=
  if t.cnt type = 0 then 0 else if t.cnt type = 1 then 1 else r % t.cnt type

theorem TableInv.selectParent_cons (h : TableInv t) (r : ℕ) (rs : List ℕ) :
    FileTable.selectParent t (r :: rs) =
      if parIndex t r = 0 then some (none, t)
      else
        match t.rbt true .dir (parIndex t r) with
        | none => FileTable.selectParent t rs
        | some p =>
          if t.checkPathDepth p then some (some p, t.setRbt true .dir (parIndex t r) none)
          else FileTable.selectParent t rs := by
  rw [FileTable.selectParent, ← parIndex]
  dsimp only [Table.fileDeleteFormRbt]
  cases hp : t.rbt true .dir (parIndex t r) with
  | none => rw [setRbt_of_none hp]
  | some p =>
    dsimp only
    rw [checkPathDepth_setRbt, h.insert_back hp]

theorem TableInv.selectIdle_cons (h : TableInv t) (type : FileType) (r : ℕ) (rs : List ℕ) :
    FileTable.selectIdle t type (r :: rs) =
      match t.rbt true type (drawnIndex t type r) with
      | none => FileTable.selectIdle t type rs
      | some n => some (n, t.setRbt true type (drawnIndex t type r) none) := by
  rw [FileTable.selectIdle, ← drawnIndex]
  dsimp only [Table.fileDeleteFormRbt]
  cases hn : t.rbt true type (drawnIndex t type r) with
  | none =>
    rw [setRbt_of_none hn]
    exact ite_self _
  | some n =>
    have hne : ¬drawnIndex t type r = 0 := by
      intro hzero
      rw [hzero, h.rbt_zero] at hn
      cases hn
    rw [if_neg fun hskip => hne hskip.2.2]

theorem TableInv.selectParent_eq {rs : List ℕ} {par : Option NodeRef} (h : TableInv t)
    (hs : FileTable.selectParent t rs = some (par, u)) :
    par = none ∧ u = t ∨ ∃ p i, par = some p ∧ t.rbt true .dir i = some p ∧
      t.checkPathDepth p = true ∧ u = t.setRbt true .dir i none := by
  induction rs with
  | nil => cases hs
  | cons r rs ih =>
    rw [h.selectParent_cons] at hs
    split_ifs at hs with hroot
    · obtain ⟨rfl, rfl⟩ := Prod.mk.inj (Option.some.inj hs)
      exact Or.inl ⟨rfl, rfl⟩
    · cases hp : t.rbt true .dir (parIndex t r) with
      | none =>
        rw [hp] at hs
        exact ih hs
      | some p =>
        rw [hp] at hs
        dsimp only at hs
        split_ifs at hs with hdepth
        · obtain ⟨rfl, rfl⟩ := Prod.mk.inj (Option.some.inj hs)
          exact Or.inr ⟨p, parIndex t r, rfl, hp, hdepth, rfl⟩
        · exact ih hs

theorem TableInv.selectIdle_eq {rs : List ℕ} (h : TableInv t)
    (hs : FileTable.selectIdle t type rs = some (n, u)) :
    ∃ r ∈ rs, t.rbt true type (drawnIndex t type r) = some n ∧
      u = t.setRbt true type (drawnIndex t type r) none := by
  induction rs with
  | nil => cases hs
  | cons r rs ih =>
    rw [h.selectIdle_cons] at hs
    cases hn : t.rbt true type (drawnIndex t type r) with
    | none =>
      rw [hn] at hs
      obtain ⟨r', hr', hrest⟩ := ih hs
      exact ⟨r', List.mem_cons_of_mem r hr', hrest⟩
    | some m =>
      rw [hn] at hs
      obtain ⟨rfl, rfl⟩ := Prod.mk.inj (Option.some.inj hs)
      exact ⟨r, List.mem_cons_self .., hn, rfl⟩

theorem selectParent_isSome {rs : List ℕ} {r : ℕ} (h : TableInv t) (hr : r ∈ rs)
    (hroot : parIndex t r = 0) : (selectParent t rs).isSome := by
  induction rs with
  | nil => cases hr
  | cons r' rs ih =>
    rw [h.selectParent_cons]
    rcases List.mem_cons.1 hr with rfl | hr
    · rw [if_pos hroot]
      rfl
    · split_ifs
      · rfl
      · split
        · exact ih hr
        · split_ifs
          · rfl
          · exact ih hr

theorem selectIdle_isSome {rs : List ℕ} {r : ℕ} (h : TableInv t) (hr : r ∈ rs)
    (hn : t.rbt true type (drawnIndex t type r) = some n) : (selectIdle t type rs).isSome := by
  induction rs with
  | nil => cases hr
  | cons r' rs ih =>
    rw [h.selectIdle_cons]
    rcases List.mem_cons.1 hr with rfl | hr
    · rw [hn]
      rfl
    · split
      · exact ih hr
      · rfl

def randMax : ℕ := 2 ^ 31 - 1

/-- Some value of `random` makes the selection loop take `n` at once. -/
def Selectable (t : Table) (type : FileType) (n : NodeRef) : Prop :=
  ∃ r ≤ randMax, ∃ u, selectIdle t type [r] = some (n, u)

def CanSelect (t : Table) (type : FileType) : Prop :=
  ∃ rs : List ℕ, (∀ r ∈ rs, r ≤ randMax) ∧ (selectIdle t type rs).isSome

/-- The draws reach all indices but that of the newest node, unless it is the only one. -/
def Drawable (t : Table) (type : FileType) (i : ℕ) : Prop :=
  t.cnt type = 1 ∨ i < t.cnt type ∧ i ≤ randMax

theorem TableInv.index_range (h : TableInv t) (hn : t.rbt true type i = some n) :
    0 < i ∧ i ≤ t.cnt type := by
  obtain ⟨x, hx, rfl, rfl, -⟩ := h.stored true type i n hn
  exact ⟨h.index_pos n x hx, h.index_le n x hx⟩

theorem drawable_drawnIndex {r : ℕ} (h : TableInv t) (hr : r ≤ randMax)
    (hn : t.rbt true type (drawnIndex t type r) = some n) :
    Drawable t type (drawnIndex t type r) := by
  have hrange := h.index_range hn
  unfold drawnIndex at hrange ⊢
  split_ifs at hrange ⊢ with hzero hone
  · omega
  · exact Or.inl hone
  · exact Or.inr ⟨Nat.mod_lt _ (Nat.pos_of_ne_zero hzero), (Nat.mod_le ..).trans hr⟩

theorem drawnIndex_self (hd : Drawable t type i) (hpos : 0 < i) (hle : i ≤ t.cnt type) :
    ∃ r ≤ randMax, drawnIndex t type r = i := by
  unfold drawnIndex
  rcases hd with hone | ⟨hlt, hmax⟩
  · refine ⟨0, Nat.zero_le _, ?_⟩
    rw [if_neg (by omega), if_pos hone]
    omega
  · refine ⟨i, hmax, ?_⟩
    rw [if_neg (by omega), if_neg (by omega), Nat.mod_eq_of_lt hlt]

theorem TableInv.selectable_iff (h : TableInv t) (hn : t.rbt true type i = some n) :
    Selectable t type n ↔ Drawable t type i := by
  constructor
  · rintro ⟨r, hr, u, hs⟩
    obtain ⟨r', hr', hdrawn, -⟩ := h.selectIdle_eq hs
    obtain rfl := List.mem_singleton.1 hr'
    have hsame : drawnIndex t type r' = i := by rw [← h.key_of_rbt hdrawn, h.key_of_rbt hn]
    exact hsame ▸ drawable_drawnIndex h hr hdrawn
  · intro hd
    obtain ⟨hpos, hle⟩ := h.index_range hn
    obtain ⟨r, hr, rfl⟩ := drawnIndex_self hd hpos hle
    refine ⟨r, hr, t.setRbt true type (drawnIndex t type r) none, ?_⟩
    rw [h.selectIdle_cons, hn]

theorem TableInv.canSelect_iff (h : TableInv t) :
    CanSelect t type ↔ ∃ i n, t.rbt true type i = some n ∧ Drawable t type i := by
  constructor
  · rintro ⟨rs, hrs, hsome⟩
    obtain ⟨⟨n, u⟩, hs⟩ := Option.isSome_iff_exists.1 hsome
    obtain ⟨r, hr, hn, -⟩ := h.selectIdle_eq hs
    exact ⟨_, n, hn, drawable_drawnIndex h (hrs r hr) hn⟩
  · rintro ⟨i, n, hn, hd⟩
    obtain ⟨r, hr, u, hs⟩ := (h.selectable_iff hn).2 hd
    refine ⟨[r], ?_, by rw [hs]; rfl⟩
    intro r' hr'
    rw [List.mem_singleton.1 hr']
    exact hr

/-- In every reachable state an idle node can be selected exactly when its index
can be drawn, and the loop can end exactly when there is such a node. -/
theorem selectable_of_exec {s : State} {es : List Event}
    (hrun : exec (step c) State.init es = some s) (type : FileType) :
    (∀ i n, s.table.rbt true type i = some n →
      (Selectable s.table type n ↔ Drawable s.table type i)) ∧
    (CanSelect s.table type ↔ ∃ i n, s.table.rbt true type i = some n ∧ Drawable s.table type i) :=
  ⟨fun _ _ hn => (inv_of_exec hrun).table.selectable_iff hn, (inv_of_exec hrun).table.canSelect_iff⟩

theorem selectable_of_exec_rename : ∃ s,
    exec (step sampleConfig) State.init (sampleRun NoOpenFileOp.rename.code) = some s ∧
      s.table.rbt true .dir 1 = some 0 ∧ Selectable s.table .dir 0 ∧ CanSelect s.table .dir := by
  obtain ⟨s, hs, hn, hcnt⟩ : ∃ s,
      exec (step sampleConfig) State.init (sampleRun NoOpenFileOp.rename.code) = some s ∧
        s.table.rbt true .dir 1 = some 0 ∧ s.table.cnt .dir = 2 := ⟨_, rfl, rfl, rfl⟩
  have hd : Drawable s.table .dir 1 := Or.inr ⟨by rw [hcnt]; decide, by decide⟩
  obtain ⟨hiff, hcan⟩ := selectable_of_exec hs .dir
  exact ⟨s, hs, hn, (hiff 1 0 hn).2 hd, hcan.2 ⟨1, 0, hn, hd⟩⟩

def dirRun : List Event :=
  [.create .dir false sampleCreate,
    .create .dir false sampleCreate,
    .oplist (smallInt 0)
      { type := smallInt 1
        isNew := smallInt 0
        openKey := smallInt 0
        pick := [1]
        create := sampleCreate
        ops := fun _ => (0, ⟨true, sampleCreate, ⟨[], word_nil⟩, ⟨[], word_nil⟩, 0, 0, 0, 0, 0⟩) }]

/-- The second directory is idle, and no draw ever selects a directory. -/
theorem not_canSelect_newest : ∃ s, exec (step sampleConfig) State.init dirRun = some s ∧
    s.table.rbt true .dir 2 = some 1 ∧ ¬Selectable s.table .dir 1 ∧ ¬CanSelect s.table .dir := by
  obtain ⟨s, hs, hn, hcnt, hone⟩ : ∃ s, exec (step sampleConfig) State.init dirRun = some s ∧
      s.table.rbt true .dir 2 = some 1 ∧ s.table.cnt .dir = 2 ∧ s.table.rbt true .dir 1 = none :=
    ⟨_, rfl, rfl, rfl, rfl⟩
  have hinv := (inv_of_exec hs).table
  have hidle : ∀ i n, s.table.rbt true .dir i = some n → ¬Drawable s.table .dir i := by
    intro i n hi
    obtain ⟨hpos, hle⟩ := hinv.index_range hi
    have hne : i ≠ 1 := by
      rintro rfl
      rw [hone] at hi
      cases hi
    unfold Drawable
    omega
  refine ⟨s, hs, hn, ?_, ?_⟩
  · rw [hinv.selectable_iff hn]
    exact hidle 2 1 hn
  · rw [hinv.canSelect_iff]
    rintro ⟨i, n, hi, hd⟩
    exact hidle i n hi hd

end MyScripts.Shark.FileTable
