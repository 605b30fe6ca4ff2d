import MyScripts.Shark.Selection

/-!
# Creations that fail

A creation takes a directory out of the idle tree for the time it lasts, and for
a symbolic link a file as well. The directory goes back on every way out; the
file goes back only when both links were made.
-/
namespace MyScripts.Shark.FileTable
open Library.Run

variable {c : Config} {t u v w : Table} {n p : NodeRef} {type : FileType} {i : ℕ}
  {forOp : Bool} {d : CreateDraws} {r par : Option NodeRef}

/-- `calloc` fails, or a call for an initial node does; there are none for an operation. -/
def CreateFails (forOp : Bool) (d : CreateDraws) : Prop :=
  d.calloc = false ∨ forOp = false ∧ ¬(d.onTarget = true ∧ d.onCompare = true)

/-- The way out on which `old_file` is left in no tree. -/
def LosesOldFile (type : FileType) (forOp : Bool) (d : CreateDraws) : Prop :=
  type = .symlink ∧ forOp = false ∧ d.calloc = true

def Lacks (t w : Table) (par : Option NodeRef) : Prop :=
  par = none ∧ w.rbt = t.rbt ∨ ∃ p i, par = some p ∧ t.rbt true .dir i = some p ∧
    w.rbt = (t.setRbt true .dir i none).rbt

theorem Lacks.congr (h : Lacks t w par) (hv : v.rbt = w.rbt) : Lacks t v par := by
  rcases h with ⟨hp, hw⟩ | ⟨p, i, hp, hi, hw⟩
  · exact Or.inl ⟨hp, hv.trans hw⟩
  · exact Or.inr ⟨p, i, hp, hi, hv.trans hw⟩

theorem Extends.key (h : Extends t u) {x : FileNode} (hx : t.node n = some x) :
    u.key n = t.key n := by
  obtain ⟨y, hy, -, hname, -⟩ := h.node n x hx
  rw [key_of_node hx, key_of_node hy, hname]

theorem Lacks.putParToIdle (h : Lacks t w par) (ht : TableInv t) (he : Extends t w) :
    (putParToIdle w par).rbt = t.rbt := by
  rcases h with ⟨rfl, hw⟩ | ⟨p, i, rfl, hi, hw⟩
  · exact hw
  · obtain ⟨x, hx, -⟩ := ht.stored true .dir i p hi
    apply rbt_insert_back hi hw
    rw [he.key hx, ht.key_of_rbt hi]

theorem TableInv.lacks {rs : List ℕ} (h : TableInv t)
    (hs : FileTable.selectParent (t.getIdleIndex type).2 rs = some (par, w)) : Lacks t w par := by
  rcases (h.getIdleIndex type).inv.selectParent_eq hs with
    ⟨rfl, rfl⟩ | ⟨p, i, rfl, hi, -, rfl⟩
  · exact Or.inl ⟨rfl, rfl⟩
  · exact Or.inr ⟨p, i, rfl, hi, rfl⟩

theorem Lacks.file (h : Lacks t w par) (idle : Bool) (j : ℕ) :
    w.rbt idle .file j = t.rbt idle .file j := by
  rcases h with ⟨-, hw⟩ | ⟨p, i, -, -, hw⟩
  · rw [hw]
  · rw [hw]
    exact if_neg fun hkey => by cases hkey.2.1

theorem putParToIdle_file (t : Table) (par : Option NodeRef) (idle : Bool) (j : ℕ) :
    (putParToIdle t par).rbt idle .file j = t.rbt idle .file j := by
  cases par with
  | none => rfl
  | some p =>
    rw [putParToIdle, Table.fileInsertToRbt]
    cases t.rbt true .dir (t.key p) with
    | some _ => rfl
    | none =>
      apply if_neg
      rintro ⟨-, htype, -⟩
      cases htype

theorem rbt_createInitial_fails (hd : ¬(d.onTarget = true ∧ d.onCompare = true))
    (htype : type ≠ .symlink) (hc : createInitial t type n d = some v) : v = t.free n := by
  cases type with
  | dir => rw [← Option.some.inj hc, if_neg hd]
  | symlink => exact absurd rfl htype
  | file => rw [← Option.some.inj hc, if_neg hd]

theorem TableInv.createInitial_symlink_fails (h : TableInv t)
    (hd : ¬(d.onTarget = true ∧ d.onCompare = true))
    (hc : FileTable.createInitial t .symlink n d = some v) :
    ∃ j old, t.rbt true .file j = some old ∧ v.rbt true .file j = none := by
  obtain ⟨-, hc⟩ := Option.ite_none_left_eq_some.1 hc
  obtain ⟨⟨old, w⟩, hold, rfl⟩ := Option.map_eq_some_iff.1 hc
  obtain ⟨r, -, hj, rfl⟩ := h.selectIdle_eq hold
  refine ⟨drawnIndex t .file r, old, hj, ?_⟩
  dsimp only
  rw [if_neg hd, rbt_free]
  exact if_pos ⟨rfl, rfl, rfl⟩

theorem TableInv.extends_alloc (h : TableInv t) (x : FileNode) : Extends t (t.alloc x).2 :=
  ⟨fun _ y hy => ⟨y, h.alloc_of_node hy, rfl, rfl, rfl⟩⟩

theorem Lacks.freed (h : Lacks t w par) (ht : TableInv t) (hs : Safe t w) (x : FileNode)
    (n : NodeRef) : (FileTable.putParToIdle ((w.alloc x).2.free n) par).rbt = t.rbt := by
  have hext := (hs.inv.extends_alloc x).trans (extends_free (w.alloc x).2 n)
  have hrbt : ((w.alloc x).2.free n).rbt = w.rbt := rbt_free ..
  exact (h.congr hrbt).putParToIdle ht (hs.keeps.node.trans hext)

/-- A creation that fails leaves all trees as they were, except when a symbolic
link cannot be made for an initial node. -/
theorem trees_unchanged_iff (h : TableInv t) (hf : CreateFails forOp d)
    (hc : fileNodeCreate c t type forOp d = some (r, u)) :
    u.rbt = t.rbt ↔ ¬LosesOldFile type forOp d := by
  obtain ⟨par, w, x, hpar, rfl, hcases⟩ := fileNodeCreate_cases hc
  have hlacks := h.lacks hpar
  obtain ⟨hw, -, -⟩ := (h.getIdleIndex type).inv.selectParent hpar
  have hsafe := (h.getIdleIndex type).trans hw
  rcases hcases with ⟨hcalloc, v, hv, -, rfl⟩ | ⟨hcalloc, -, rfl⟩
  · obtain ⟨rfl, hfails⟩ : forOp = false ∧ ¬(d.onTarget = true ∧ d.onCompare = true) :=
      hf.resolve_left (by simp [hcalloc])
    rw [if_neg (by decide)] at hv
    by_cases htype : type = .symlink
    · subst htype
      have hinv := (h.newNode hpar d.suffix).inv
      obtain ⟨j, old, hold, hnone⟩ := hinv.createInitial_symlink_fails hfails hv
      have hlost : (putParToIdle v par).rbt ≠ t.rbt := by
        intro hsame
        rw [← putParToIdle_file v par, hsame, ← hlacks.file] at hnone
        exact absurd (hold.symm.trans hnone) (by simp)
      simp [LosesOldFile, hcalloc, hlost]
    · obtain rfl := rbt_createInitial_fails hfails htype hv
      simp [LosesOldFile, htype, hlacks.freed h hsafe]
  · simp [LosesOldFile, hcalloc, hlacks.putParToIdle h hsafe.keeps.node]

def failingCreate : CreateDraws := { sampleCreate with onCompare := false }

theorem trees_unchanged_dir : ∃ s r u,
    exec (step sampleConfig) State.init (sampleRun NoOpenFileOp.rename.code) = some s ∧
      fileNodeCreate sampleConfig s.table .dir false failingCreate = some (r, u) ∧
      u.rbt = s.table.rbt := by
  obtain ⟨s, r, u, hs, hc⟩ : ∃ s r u,
      exec (step sampleConfig) State.init (sampleRun NoOpenFileOp.rename.code) = some s ∧
        fileNodeCreate sampleConfig s.table .dir false failingCreate = some (r, u) :=
    ⟨_, _, _, rfl, rfl⟩
  have hf : CreateFails false failingCreate := Or.inr ⟨rfl, fun h => absurd h.2 (by decide)⟩
  refine ⟨s, r, u, hs, hc, (trees_unchanged_iff (inv_of_exec hs).table hf hc).2 ?_⟩
  exact fun hlost => by cases hlost.1

theorem file_lost_symlink : ∃ s r u,
    exec (step sampleConfig) State.init [.create .file false sampleCreate] = some s ∧
      CreateFails false failingCreate ∧
      fileNodeCreate sampleConfig s.table .symlink false failingCreate = some (r, u) ∧
      s.table.rbt true .file 1 = some 0 ∧ u.rbt true .file 1 = none ∧ u.rbt ≠ s.table.rbt := by
  obtain ⟨s, r, u, hs, hc, hbefore, hafter⟩ : ∃ s r u,
      exec (step sampleConfig) State.init [.create .file false sampleCreate] = some s ∧
        fileNodeCreate sampleConfig s.table .symlink false failingCreate = some (r, u) ∧
        s.table.rbt true .file 1 = some 0 ∧ u.rbt true .file 1 = none :=
    ⟨_, _, _, rfl, rfl, rfl, rfl⟩
  refine ⟨s, r, u, hs, Or.inr ⟨rfl, fun h => absurd h.2 (by decide)⟩, hc, hbefore, hafter, ?_⟩
  intro hsame
  rw [hsame, hbefore] at hafter
  cases hafter

end MyScripts.Shark.FileTable
