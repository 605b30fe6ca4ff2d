import MyScripts.Library.RandomStream
import MyScripts.Shark.CreateFailure

/-!
# The initial files

`create_original_file` makes directories, then files, then symbolic links. Each
creation draws a parent until it gets the root or an idle directory, and a link
draws an idle file to point to. The loop over parents can always end at the
root; the loop over files has nothing to find when there are none.
-/
namespace MyScripts.Shark.FileTable
open Library.Run Library.RandomStream

variable {c : Config} {t u v w : Table} {n : NodeRef} {type : FileType} {r : Option NodeRef}

def succeeding (suffix : Suffix) (parents oldFiles : List ℕ) : CreateDraws where
  parents := parents
  suffix := suffix
  calloc := true
  onTarget := true
  onCompare := true
  oldFiles := oldFiles

/-- The stream that `random` returns, and the name `mktemp` makes for each node. -/
structure Source where
  random : ℕ → ℕ
  suffix : NodeRef → Suffix

section Stream

variable (c : Config) (source : Source)

/-- `file_node_create (type, 0)` from a position of the stream on. Each of its two
loops takes the draws up to the first on which it ends. -/
def createFrom (fuel : ℕ) (type : FileType) (s : Table × ℕ) : Option (Table × ℕ) :=
  let suffix := source.suffix s.1.fresh
  let parentEnds := fun rs => (selectParent (s.1.getIdleIndex type).2 rs).isSome
  (taken parentEnds source.random fuel s.2).bind fun k =>
    let create := fun rs =>
      fileNodeCreate c s.1 type false (succeeding suffix (draws source.random s.2 k) rs)
    (taken (fun rs => (create rs).isSome) source.random fuel (s.2 + k)).bind fun l =>
      (create (draws source.random (s.2 + k) l)).map fun r => (r.2, s.2 + k + l)

def createMany (fuel : ℕ) (type : FileType) : ℕ → Table × ℕ → Option (Table × ℕ)
  | 0, s => some s
  | count + 1, s => (createFrom c source fuel type s).bind (createMany fuel type count)

def createOriginalFile (fuel ndir nfile nsymlink : ℕ) (s : Table × ℕ) : Option (Table × ℕ) :=
  (createMany c source fuel .dir ndir s).bind fun s =>
    (createMany c source fuel .file nfile s).bind fun s =>
      createMany c source fuel .symlink nsymlink s

end Stream

theorem rbt_insert_mono {idle b : Bool} {ty : FileType} {j : ℕ}
    (h : (t.rbt b ty j).isSome) : ((t.fileInsertToRbt type n idle).rbt b ty j).isSome := by
  unfold Table.fileInsertToRbt
  split
  · exact h
  · rcases rbt_setRbt t idle type (t.key n) (some n) b ty j with ⟨-, h'⟩ | ⟨-, h'⟩
    · rw [h']
      rfl
    · rw [h']
      exact h

theorem rbt_insert_self (t : Table) (type : FileType) (n : NodeRef) (idle : Bool) :
    ((t.fileInsertToRbt type n idle).rbt idle type (t.key n)).isSome := by
  unfold Table.fileInsertToRbt
  split
  · next m hm => simp [hm]
  · simp [Table.setRbt]

theorem TableInv.createInitial_succeeds {suffix : Suffix} {parents oldFiles : List ℕ}
    (h : TableInv t)
    (hc : FileTable.createInitial t type n (succeeding suffix parents oldFiles) = some v) :
    v = t.fileInsertToRbt type n true := by
  cases type with
  | dir => exact (Option.some.inj hc).symm
  | file => exact (Option.some.inj hc).symm
  | symlink =>
    obtain ⟨-, hc⟩ := Option.ite_none_left_eq_some.1 hc
    obtain ⟨⟨old, w⟩, hold, rfl⟩ := Option.map_eq_some_iff.1 hc
    obtain ⟨r, -, hj, rfl⟩ := h.selectIdle_eq hold
    dsimp only
    rw [if_pos ⟨rfl, rfl⟩, h.insert_back hj]

structure FilesIdle (t : Table) : Prop where
  table : TableInv t
  idle : ∀ j, 0 < j → j ≤ t.cnt .file → (t.rbt true .file j).isSome

theorem filesIdle_init : FilesIdle Table.init where
  table := tableInv_init
  idle := fun _ hpos hle => absurd hpos (Nat.not_lt.2 hle)

theorem TableInv.fileNodeCreate_succeeds {suffix : Suffix} {parents oldFiles : List ℕ}
    (h : TableInv t)
    (hc : FileTable.fileNodeCreate c t type false (succeeding suffix parents oldFiles)
      = some (r, u)) :
    ∃ (par : Option NodeRef) (w a : Table) (n : NodeRef), Lacks t w par ∧ a.rbt = w.rbt ∧
      a.key n = t.cnt type + 1 ∧ a.cnt = Function.update t.cnt type (t.cnt type + 1) ∧
      u = FileTable.putParToIdle (a.fileInsertToRbt type n true) par := by
  obtain ⟨par, w, x, hpar, rfl, hcases⟩ := fileNodeCreate_cases hc
  have halloc := (h.newNode hpar suffix).inv
  obtain ⟨-, ⟨-, hcnt, -⟩, -⟩ := (h.getIdleIndex type).inv.selectParent hpar
  rcases hcases with ⟨-, v, hv, -, rfl⟩ | ⟨hcalloc, -⟩
  case inr => cases hcalloc
  obtain rfl := halloc.createInitial_succeeds hv
  refine ⟨par, w, (w.alloc ⟨par, constructionFileName (t.cnt type + 1) type suffix, type, 0,
    false⟩).2, w.fresh, h.lacks hpar, rfl, ?_, hcnt, rfl⟩
  simp [Table.key, Table.alloc, constructionFileName]

theorem FilesIdle.create {suffix : Suffix} {parents oldFiles : List ℕ} (h : FilesIdle t)
    (hc : fileNodeCreate c t type false (succeeding suffix parents oldFiles) = some (r, u)) :
    FilesIdle u ∧ u.cnt .file = t.cnt .file + if type = .file then 1 else 0 := by
  have hinv := (h.table.fileNodeCreate hc).1.inv
  obtain ⟨par, w, a, n, hlacks, hrbt, hkey, hcnt, rfl⟩ := h.table.fileNodeCreate_succeeds hc
  have hsame : ∀ (t : Table) (m : NodeRef), (t.fileInsertToRbt type m true).cnt = t.cnt :=
    fun t m => (sameNodes_idleRule.insert t type m).2.1
  have hcount : (putParToIdle (a.fileInsertToRbt type n true) par).cnt .file =
      t.cnt .file + if type = .file then 1 else 0 := by
    rw [(sameNodes_idleRule.putParToIdle _ par).2.1, hsame, hcnt, Function.update_apply]
    by_cases htype : type = .file
    · subst htype
      simp
    · rw [if_neg (Ne.symm htype), if_neg htype, Nat.add_zero]
  refine ⟨⟨hinv, ?_⟩, hcount⟩
  intro j hpos hle
  rw [hcount] at hle
  rw [putParToIdle_file]
  by_cases hnew : type = .file ∧ j = t.cnt .file + 1
  · obtain ⟨rfl, rfl⟩ := hnew
    rw [← hkey]
    exact rbt_insert_self a .file n true
  · apply rbt_insert_mono
    rw [hrbt, hlacks.file]
    apply h.idle j hpos
    split_ifs at hle with htype
    · exact Nat.le_of_lt_succ (lt_of_le_of_ne hle fun heq => hnew ⟨htype, heq⟩)
    · exact hle

section Returns

variable {source : Source} {fuel fuel' k : ℕ} {s s' : Table × ℕ}

theorem createFrom_mono (h : createFrom c source fuel type s = some s') (hle : fuel ≤ fuel') :
    createFrom c source fuel' type s = some s' := by
  unfold createFrom at h ⊢
  obtain ⟨k, hk, h⟩ := Option.bind_eq_some_iff.1 h
  obtain ⟨l, hl, h⟩ := Option.bind_eq_some_iff.1 h
  apply Option.bind_eq_some_iff.2
  refine ⟨k, taken_mono hk hle, ?_⟩
  apply Option.bind_eq_some_iff.2
  exact ⟨l, taken_mono hl hle, h⟩

theorem createMany_mono (h : createMany c source fuel type k s = some s') (hle : fuel ≤ fuel') :
    createMany c source fuel' type k s = some s' := by
  induction k generalizing s with
  | zero => exact h
  | succ k ih =>
    obtain ⟨u, hu, h⟩ := Option.bind_eq_some_iff.1 h
    apply Option.bind_eq_some_iff.2
    exact ⟨u, createFrom_mono hu hle, ih h⟩

theorem createFrom_eq_some (h : createFrom c source fuel type s = some s') :
    ∃ suffix parents oldFiles r,
      fileNodeCreate c s.1 type false (succeeding suffix parents oldFiles) = some (r, s'.1) := by
  unfold createFrom at h
  obtain ⟨k, -, h⟩ := Option.bind_eq_some_iff.1 h
  obtain ⟨l, -, h⟩ := Option.bind_eq_some_iff.1 h
  obtain ⟨r, hr, rfl⟩ := Option.map_eq_some_iff.1 h
  exact ⟨_, _, _, r.1, hr⟩

theorem TableInv.exists_parent (h : TableInv t) (hfair : Fair source.random) (pos : ℕ) :
    ∃ k, (FileTable.selectParent t (draws source.random pos k)).isSome := by
  by_cases hzero : t.cnt .dir = 0
  · obtain ⟨k, x, hx, -⟩ := hfair.exists_draw Nat.zero_lt_one pos
    exact ⟨k, selectParent_isSome h hx (if_pos hzero)⟩
  · obtain ⟨k, x, hx, hres⟩ := hfair.exists_draw (Nat.pos_of_ne_zero hzero) pos
    exact ⟨k, selectParent_isSome h hx ((if_neg hzero).trans hres)⟩

theorem FilesIdle.exists_file (h : FilesIdle t) (hpos : 0 < t.cnt .file)
    (hfair : Fair source.random) (pos : ℕ) :
    ∃ k, (selectIdle t .file (draws source.random pos k)).isSome := by
  obtain ⟨n, hn⟩ := Option.isSome_iff_exists.1 (h.idle 1 Nat.zero_lt_one hpos)
  have hdrawn : ∃ k, ∃ x ∈ draws source.random pos k, drawnIndex t .file x = 1 := by
    have hdraw : ∀ x, drawnIndex t .file x =
        if t.cnt .file = 1 then 1 else x % t.cnt .file := fun x => if_neg (Nat.ne_of_gt hpos)
    by_cases hone : t.cnt .file = 1
    · obtain ⟨k, x, hx, -⟩ := hfair.exists_draw Nat.zero_lt_one pos
      exact ⟨k, x, hx, (hdraw x).trans (if_pos hone)⟩
    · obtain ⟨k, x, hx, hres⟩ := hfair.exists_draw (by omega : 1 < t.cnt .file) pos
      exact ⟨k, x, hx, ((hdraw x).trans (if_neg hone)).trans hres⟩
  obtain ⟨k, x, hx, hdrawn⟩ := hdrawn
  exact ⟨k, selectIdle_isSome h.table hx (hdrawn ▸ hn)⟩

theorem createInitial_symlink_isSome {d : CreateDraws} (hpos : 0 < t.cnt .file)
    (hs : (selectIdle t .file d.oldFiles).isSome) : (createInitial t .symlink n d).isSome := by
  obtain ⟨x, hx⟩ := Option.isSome_iff_exists.1 hs
  simp [createInitial, Nat.ne_of_gt hpos, hx]

theorem FilesIdle.withNew {par : Option NodeRef} {a : Table} (h : FilesIdle t) (hl : Lacks t w par)
    (ha : TableInv a) (hrbt : a.rbt = w.rbt) (hcnt : a.cnt .file = t.cnt .file) :
    FilesIdle a where
  table := ha
  idle := by
    intro j hpos hle
    rw [hrbt, hl.file]
    exact h.idle j hpos (hcnt ▸ hle)

theorem FilesIdle.exists_oldFiles {parents : List ℕ} {par : Option NodeRef} (h : FilesIdle t)
    (hfair : Fair source.random) (hlink : type = .symlink → 0 < t.cnt .file)
    (hpar : selectParent (t.getIdleIndex type).2 parents = some (par, w)) (suffix : Suffix)
    (pos : ℕ) : ∃ k, (fileNodeCreate c t type false
      (succeeding suffix parents (draws source.random pos k))).isSome := by
  have hnew := (h.table.newNode hpar suffix).inv
  have hlacks := h.table.lacks hpar
  obtain ⟨-, ⟨-, hcnt, -⟩, -⟩ := (h.table.getIdleIndex type).inv.selectParent hpar
  have hcreate : ∀ oldFiles, fileNodeCreate c t type false (succeeding suffix parents oldFiles) =
      (createInitial (w.alloc ⟨par, constructionFileName (t.cnt type + 1) type suffix, type, 0,
        false⟩).2 type w.fresh (succeeding suffix parents oldFiles)).map
          fun t => (some w.fresh, putParToIdle t par) := by
    intro oldFiles
    have hparents : (succeeding suffix parents oldFiles).parents = parents := rfl
    unfold fileNodeCreate
    dsimp only
    rw [hparents, hpar]
    rfl
  simp only [hcreate, Option.isSome_map]
  cases type with
  | dir => exact ⟨0, rfl⟩
  | file => exact ⟨0, rfl⟩
  | symlink =>
    have hfiles : w.cnt .file = t.cnt .file := by simp [hcnt, Table.getIdleIndex]
    have hidle := h.withNew hlacks hnew rfl hfiles
    have hpos : 0 < w.cnt .file := hfiles ▸ hlink rfl
    obtain ⟨k, hk⟩ := hidle.exists_file hpos hfair pos
    exact ⟨k, createInitial_symlink_isSome hpos hk⟩

theorem FilesIdle.createFrom (h : FilesIdle s.1) (hfair : Fair source.random)
    (hlink : type = .symlink → 0 < s.1.cnt .file) :
    ∃ fuel s', createFrom c source fuel type s = some s' := by
  obtain ⟨k₀, hk₀⟩ := (h.table.getIdleIndex type).inv.exists_parent hfair s.2
  obtain ⟨fuel₁, k, hk⟩ : ∃ fuel k, taken
      (fun rs => (selectParent (s.1.getIdleIndex type).2 rs).isSome) source.random fuel s.2 =
        some k := exists_taken hk₀
  obtain ⟨⟨par, w⟩, hpar⟩ := Option.isSome_iff_exists.1 (ends_of_taken hk)
  obtain ⟨l₀, hl₀⟩ := h.exists_oldFiles (c := c) hfair hlink hpar (source.suffix s.1.fresh) (s.2 + k)
  obtain ⟨fuel₂, l, hl⟩ : ∃ fuel l, taken (fun rs => (fileNodeCreate c s.1 type false
      (succeeding (source.suffix s.1.fresh) (draws source.random s.2 k) rs)).isSome)
        source.random fuel (s.2 + k) = some l := exists_taken hl₀
  obtain ⟨r, hr⟩ := Option.isSome_iff_exists.1 (ends_of_taken hl)
  refine ⟨max fuel₁ fuel₂, (r.2, s.2 + k + l), ?_⟩
  apply Option.bind_eq_some_iff.2
  refine ⟨k, taken_mono hk (Nat.le_max_left ..), ?_⟩
  apply Option.bind_eq_some_iff.2
  refine ⟨l, taken_mono hl (Nat.le_max_right ..), ?_⟩
  exact Option.map_eq_some_iff.2 ⟨r, hr, rfl⟩

theorem FilesIdle.of_createFrom (h : FilesIdle s.1)
    (hc : FileTable.createFrom c source fuel type s = some s') :
    FilesIdle s'.1 ∧ s'.1.cnt .file = s.1.cnt .file + if type = .file then 1 else 0 := by
  obtain ⟨suffix, parents, oldFiles, r, hr⟩ := createFrom_eq_some hc
  exact h.create hr

theorem FilesIdle.of_createMany (h : FilesIdle s.1)
    (hc : createMany c source fuel type k s = some s') :
    FilesIdle s'.1 ∧ s'.1.cnt .file = s.1.cnt .file + if type = .file then k else 0 := by
  induction k generalizing s with
  | zero =>
    obtain rfl := Option.some.inj hc
    exact ⟨h, by rw [ite_self, Nat.add_zero]⟩
  | succ k ih =>
    obtain ⟨u, hu, hc⟩ := Option.bind_eq_some_iff.1 hc
    obtain ⟨hidle, hcnt⟩ := h.of_createFrom hu
    obtain ⟨hidle', hcnt'⟩ := ih hidle hc
    refine ⟨hidle', ?_⟩
    rw [hcnt', hcnt]
    split_ifs <;> omega

theorem FilesIdle.createMany (h : FilesIdle s.1) (hfair : Fair source.random) (k : ℕ)
    (hlink : type = .symlink → 0 < k → 0 < s.1.cnt .file) :
    ∃ fuel s', createMany c source fuel type k s = some s' := by
  induction k generalizing s with
  | zero => exact ⟨0, s, rfl⟩
  | succ k ih =>
    obtain ⟨fuel₁, u, hu⟩ := h.createFrom (c := c) hfair fun htype => hlink htype (Nat.succ_pos k)
    obtain ⟨hidle, hcnt⟩ := h.of_createFrom hu
    have hlink' : type = .symlink → 0 < k → 0 < u.1.cnt .file := by
      intro htype _
      rw [hcnt]
      exact Nat.lt_add_right _ (hlink htype (Nat.succ_pos k))
    obtain ⟨fuel₂, s', hs'⟩ := ih hidle hlink'
    refine ⟨max fuel₁ fuel₂, s', ?_⟩
    apply Option.bind_eq_some_iff.2
    exact ⟨u, createFrom_mono hu (Nat.le_max_left ..), createMany_mono hs' (Nat.le_max_right ..)⟩

/-- Without files the loop over targets never ends. -/
theorem createFrom_symlink_none (hzero : s.1.cnt .file = 0) :
    FileTable.createFrom c source fuel .symlink s = none := by
  cases hc : FileTable.createFrom c source fuel .symlink s with
  | none => rfl
  | some s' =>
    obtain ⟨suffix, parents, oldFiles, r, hr⟩ := createFrom_eq_some hc
    obtain ⟨par, w, x, hpar, -, hcases⟩ := fileNodeCreate_cases hr
    obtain ⟨-, hcnt, -⟩ := sameNodes_idleRule.selectParent hpar
    rcases hcases with ⟨-, v, hv, -⟩ | ⟨hcalloc, -⟩
    case inr => cases hcalloc
    obtain ⟨hne, -⟩ := Option.ite_none_left_eq_some.1 hv
    have hfiles : w.cnt .file = s.1.cnt .file := by simp [hcnt, Table.getIdleIndex]
    exact absurd (hfiles.trans hzero) hne

end Returns

/-- `create_original_file` returns if and only if it has no symbolic link to make
or has made a file before. -/
theorem createOriginalFile_returns_iff (source : Source) (hfair : Fair source.random)
    (ndir nfile nsymlink : ℕ) :
    (∃ fuel s, createOriginalFile c source fuel ndir nfile nsymlink (Table.init, 0) = some s) ↔
      nsymlink = 0 ∨ 0 < nfile := by
  constructor
  · rintro ⟨fuel, s, hs⟩
    obtain ⟨s₁, hs₁, hs⟩ := Option.bind_eq_some_iff.1 hs
    obtain ⟨s₂, hs₂, hs⟩ := Option.bind_eq_some_iff.1 hs
    obtain ⟨hidle₁, hcnt₁⟩ := filesIdle_init.of_createMany (s := (Table.init, 0)) hs₁
    obtain ⟨-, hcnt₂⟩ := hidle₁.of_createMany hs₂
    cases nsymlink with
    | zero => exact Or.inl rfl
    | succ k =>
      right
      by_contra hnone
      have hzero : s₂.1.cnt .file = 0 := by
        rw [hcnt₂, hcnt₁, if_pos rfl, if_neg (by decide), Nat.eq_zero_of_not_pos hnone]
        rfl
      rw [createMany, createFrom_symlink_none hzero] at hs
      cases hs
  · intro hcond
    obtain ⟨fuel₁, s₁, hs₁⟩ : ∃ fuel s, createMany c source fuel .dir ndir (Table.init, 0) = some s :=
      filesIdle_init.createMany (s := (Table.init, 0)) hfair ndir fun h => by cases h
    obtain ⟨hidle₁, -⟩ := filesIdle_init.of_createMany (s := (Table.init, 0)) hs₁
    obtain ⟨fuel₂, s₂, hs₂⟩ : ∃ fuel s, createMany c source fuel .file nfile s₁ = some s :=
      hidle₁.createMany hfair nfile fun h => by cases h
    obtain ⟨hidle₂, hcnt₂⟩ := hidle₁.of_createMany hs₂
    have hlink : FileType.symlink = .symlink → 0 < nsymlink → 0 < s₂.1.cnt .file := by
      intro _ hpos
      rw [hcnt₂, if_pos rfl]
      exact Nat.lt_add_left _ (hcond.resolve_left (Nat.ne_of_gt hpos))
    obtain ⟨fuel₃, s₃, hs₃⟩ := hidle₂.createMany (c := c) hfair nsymlink hlink
    refine ⟨max fuel₁ (max fuel₂ fuel₃), s₃, ?_⟩
    apply Option.bind_eq_some_iff.2
    refine ⟨s₁, createMany_mono hs₁ (Nat.le_max_left ..), ?_⟩
    apply Option.bind_eq_some_iff.2
    refine ⟨s₂, createMany_mono hs₂ ?_, createMany_mono hs₃ ?_⟩
    · exact (Nat.le_max_left ..).trans (Nat.le_max_right ..)
    · exact (Nat.le_max_right ..).trans (Nat.le_max_right ..)

def sampleSource : Source := ⟨id, fun _ => sampleCreate.suffix⟩

theorem createOriginalFile_returns_one : ∃ fuel s,
    createOriginalFile sampleConfig sampleSource fuel 2 1 1 (Table.init, 0) = some s :=
  (createOriginalFile_returns_iff sampleSource fair_id 2 1 1).2 (Or.inr (by decide))

theorem createOriginalFile_stuck : Fair sampleSource.random ∧ ∀ fuel,
    createOriginalFile sampleConfig sampleSource fuel 0 0 1 (Table.init, 0) = none := by
  refine ⟨fair_id, fun fuel => ?_⟩
  have hstuck : createFrom sampleConfig sampleSource fuel .symlink (Table.init, 0) = none :=
    createFrom_symlink_none rfl
  simp [createOriginalFile, createMany, hstuck]

end MyScripts.Shark.FileTable
