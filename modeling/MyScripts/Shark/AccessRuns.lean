import MyScripts.Shark.TreeAccesses

/-!
# Operations are sequences of accesses

The functions that create nodes and op lists and the ones that give nodes back
touch the tables by accesses only, so a run of operations, one after the other,
is one of the interleavings. A node that is put into a tree was taken out of one
before, or is new.
-/
namespace MyScripts.Shark.FileTable
open Library.Run

variable {c : Config} {t u v w : Table} {n p : NodeRef} {type : FileType} {i : ℕ}
  {creation : Option Creation}

theorem leads_delete (t : Table) (creation : Option Creation) (idle : Bool) (type : FileType)
    (i : ℕ) : Leads access ⟨t, creation⟩ ⟨t.setRbt idle type i none, creation⟩ :=
  .single (e := .delete type i idle) rfl

theorem Loose.leads_insert (hl : Loose t type n) (creation : Option Creation) (idle : Bool) :
    Leads access ⟨t, creation⟩ ⟨t.fileInsertToRbt type n idle, creation⟩ :=
  .single (e := .insert type n idle) (if_pos hl)

theorem leads_usecntUpdate (t : Table) (creation : Option Creation) (initial : ℕ) (n : NodeRef)
    (isAdd : Bool) :
    Leads access ⟨t, creation⟩ ⟨t.fileNodeUsecntUpdate initial n isAdd, creation⟩ := by
  unfold Table.fileNodeUsecntUpdate
  generalize t.usecntPath initial n = ps
  induction ps generalizing t with
  | nil => exact .refl _
  | cons p ps ih =>
    have hadd : Leads access ⟨t, creation⟩
        ⟨t.addUsecnt (if isAdd then 1 else -1) p, creation⟩ :=
      .single (e := .addUsecnt _ p) rfl
    exact hadd.trans (ih _)

theorem leads_selectIdle {rs : List ℕ} (hs : selectIdle t type rs = some (n, u))
    (creation : Option Creation) : Leads access ⟨t, creation⟩ ⟨u, creation⟩ := by
  induction rs generalizing t with
  | nil => cases hs
  | cons r rs ih =>
    rcases selectIdle_cases hs with hs | ⟨i, ⟨-, hs⟩ | ⟨-, rfl⟩⟩
    · exact ih hs
    · exact (leads_delete t creation true type i).trans (ih hs)
    · exact leads_delete t creation true type i

theorem Loose.leads_putInBusy (hl : Loose t type n) (creation : Option Creation) :
    Leads access ⟨t, creation⟩ ⟨putInBusy c t type n, creation⟩ :=
  (hl.leads_insert creation false).trans (leads_usecntUpdate ..)

theorem TableInv.leads_giveBack (h : TableInv t) (fileType : ℤ) (index : ℕ) (toIdle : Bool) :
    Leads access ⟨t, creation⟩ ⟨FileTable.giveBack c t fileType index toIdle, creation⟩ := by
  unfold FileTable.giveBack
  cases FileType.ofCode fileType with
  | none => exact .refl _
  | some type =>
    have htake := leads_delete t creation false type index
    dsimp only [Table.fileDeleteFormRbt]
    cases hn : t.rbt false type index with
    | none => exact htake
    | some n =>
      have htakes := h.takes hn
      have husecnt := htakes.inv.usecntUpdate c.initialDirCnts n false
      have hl := husecnt.keeps.loose type n (Set.notMem_empty n) htakes.held
      have hcount := htake.trans (leads_usecntUpdate _ creation c.initialDirCnts n false)
      dsimp only
      split_ifs
      · exact hcount.trans (hl.leads_insert creation true)
      · exact hcount.trans (.single (e := .destory type n) (if_pos hl))

theorem TableInv.leads_selectParent {rs : List ℕ} {par : Option NodeRef} (h : TableInv t)
    (hs : FileTable.selectParent t rs = some (par, u)) (type : FileType) (i : ℕ) :
    Leads access ⟨t, some (.drawing type i)⟩ ⟨u, some (.placed type i par)⟩ := by
  induction rs with
  | nil => cases hs
  | cons r rs ih =>
    have hdraw : Leads access ⟨t, some (.drawing type i)⟩
        ⟨(drawParent t type i r).1, some (drawParent t type i r).2⟩ :=
      .single (e := .drawParent r) rfl
    rw [h.selectParent_cons] at hs
    unfold drawParent at hdraw
    dsimp only [Table.fileDeleteFormRbt] at hdraw
    split_ifs at hs hdraw with hroot
    · obtain ⟨rfl, rfl⟩ := Prod.mk.inj (Option.some.inj hs)
      exact hdraw
    · cases hp : t.rbt true .dir (parIndex t r) with
      | none =>
        rw [hp] at hs hdraw
        dsimp only at hdraw
        rw [setRbt_of_none hp] at hdraw
        exact hdraw.trans (ih hs)
      | some p =>
        rw [hp] at hs hdraw
        dsimp only at hs hdraw
        rw [checkPathDepth_setRbt] at hdraw
        split_ifs at hs hdraw
        · obtain ⟨rfl, rfl⟩ := Prod.mk.inj (Option.some.inj hs)
          exact hdraw
        · -- too deep: the directory is put back
          have hput := (h.takes hp).held.leads_insert (some (.drawing type i)) true
          rw [h.insert_back hp] at hput
          exact (hdraw.trans hput).trans (ih hs)

theorem leads_finish (t : Table) (type : FileType) (n : NodeRef) :
    Leads access ⟨t, some (.made type n)⟩ ⟨t, none⟩ :=
  .single (e := .finish) rfl

theorem Loose.leads_freeNew (hl : Loose t type n) :
    Leads access ⟨t, some (.made type n)⟩ ⟨t.free n, none⟩ :=
  .single (e := .freeNew) (if_pos hl)

theorem Takes.leads_createInitial {d : CreateDraws} (h : Takes t u type n)
    (hc : FileTable.createInitial u type n d = some v) :
    Leads access ⟨u, some (.made type n)⟩ ⟨v, none⟩ := by
  rcases createInitial_cases hc with rfl | ⟨rfl, old, w, hold, rfl⟩
  · split_ifs
    · exact (h.held.leads_insert _ true).trans (leads_finish ..)
    · exact h.held.leads_freeNew
  · have htake := h.inv.selectIdle hold
    have hselect := leads_selectIdle hold (some (.made .symlink n))
    have hl := htake.keeps.loose .symlink n (Set.notMem_empty n) h.held
    have hback := htake.put htake.inv.safe true
    have hl' := hback.keeps.loose .symlink n (Set.notMem_empty n) h.held
    split_ifs
    · have hold' := htake.held.leads_insert (some (.made .symlink n)) true
      have hnew := hl'.leads_insert (some (.made .symlink n)) true
      exact ((hselect.trans hold').trans hnew).trans (leads_finish ..)
    · exact hselect.trans hl.leads_freeNew

theorem Takes.leads_create {forOp : Bool} {d : CreateDraws} (h : Takes t u type n)
    (hv : (if forOp then some (FileTable.putInBusy c u type n)
      else FileTable.createInitial u type n d) = some v) :
    Leads access ⟨u, some (.made type n)⟩ ⟨v, none⟩ := by
  split_ifs at hv
  · obtain rfl := Option.some.inj hv
    exact (h.held.leads_putInBusy _).trans (leads_finish ..)
  · exact h.leads_createInitial hv

theorem leads_putParToIdle {par : Option NodeRef} (hpar : ∀ p ∈ par, Loose t .dir p) :
    Leads access ⟨t, none⟩ ⟨putParToIdle t par, none⟩ := by
  cases par with
  | none => exact .refl _
  | some p => exact (hpar p rfl).leads_insert none true

theorem TableInv.leads_fileNodeCreate {forOp : Bool} {d : CreateDraws} {r : Option NodeRef}
    (h : TableInv t) (hc : FileTable.fileNodeCreate c t type forOp d = some (r, u)) :
    Leads access ⟨t, none⟩ ⟨u, none⟩ := by
  obtain ⟨par, w, x, hpar, rfl, hcases⟩ := fileNodeCreate_cases hc
  have hindex := (h.getIdleIndex type).inv
  obtain ⟨-, -, htakes⟩ := hindex.selectParent hpar
  have hnumber : Leads access ⟨t, none⟩
      ⟨(t.getIdleIndex type).2, some (.drawing type (t.cnt type))⟩ :=
    .single (e := .getIdleIndex type) rfl
  have hdraw := hnumber.trans (hindex.leads_selectParent hpar type (t.cnt type))
  rcases hcases with ⟨-, v, hv, -, rfl⟩ | ⟨-, -, rfl⟩
  · have htake := h.newNode hpar d.suffix
    have hcreated := (htake.create hv).1
    have halloc : Leads access ⟨w, some (.placed type (t.cnt type) par)⟩
        ⟨(w.alloc ⟨par, constructionFileName (t.cnt type + 1) type d.suffix, type, 0, false⟩).2,
          some (.made type w.fresh)⟩ :=
      .single (e := .alloc d.suffix) rfl
    have hput := leads_putParToIdle fun p hp =>
      hcreated.keeps.loose .dir p (Set.notMem_empty p) (htakes p hp).held
    exact ((hdraw.trans halloc).trans (htake.leads_create hv)).trans hput
  · have hfinish : Leads access ⟨w, some (.placed type (t.cnt type) par)⟩ ⟨w, none⟩ :=
      .single (e := .finish) rfl
    have hput := leads_putParToIdle fun p hp => (htakes p hp).held
    exact (hdraw.trans hfinish).trans hput

def Passes (t : Table) : Prop := Leads access Shared.init ⟨t, none⟩

theorem passes_rule : TableRule c Passes where
  table := by
    rintro t ⟨as, has⟩
    exact (sharedInv_of_exec has).table
  create := by
    rintro t u type forOp d r ⟨as, has⟩ hc
    exact Leads.trans ⟨as, has⟩ ((sharedInv_of_exec has).table.leads_fileNodeCreate hc)
  select := by
    intro t u type pick n h hs
    exact h.trans (leads_selectIdle hs none)
  busy := by
    intro t type n h hl
    exact h.trans (hl.leads_putInBusy none)
  back := by
    rintro t fileType index toIdle ⟨as, has⟩
    exact Leads.trans ⟨as, has⟩ ((sharedInv_of_exec has).table.leads_giveBack fileType index toIdle)

theorem passes_of_exec {s : State} {es : List Event}
    (hrun : exec (step c) State.init es = some s) : Passes s.table :=
  passes_rule.exec (.refl _) hrun

end MyScripts.Shark.FileTable
