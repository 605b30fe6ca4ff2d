import MyScripts.CreateConfig.Schemes
import Mathlib.Data.List.AList

/-!
# Free disks

The free disks of the nodes, and the new arrays and extensions that the script
has found for them. A node whose last free disk is taken leaves the pool.
-/
namespace MyScripts.CreateConfig

abbrev Node := List Char

structure Disk where
  nodename : Node
  devname : List Char
  deriving DecidableEq, Repr

/-- `usednodediskinfos` or `nodediskinfos`: the free disks of each node. -/
abbrev Pool := AList fun _ : Node => List Disk

structure Stock where
  pool : Pool
  created : AList fun _ : ℕ => List (List Disk)
  extended : AList fun _ : List Char => AList fun _ : List Char => List Disk

abbrev Taking := EStateM PyError Stock

def takeDisk (node : Node) : Taking Disk := do
  let s ← get
  match s.pool.lookup node with
  | none => throw .keyError
  | some [] => throw .indexError
  | some (disk :: rest) =>
    set { s with pool := if rest = [] then s.pool.erase node else s.pool.replace node rest }
    return disk

def addCreated (eccount : ℕ) (newec : List Disk) : Taking Unit :=
  modify fun s => { s with
    created := s.created.insert eccount ((s.created.lookup eccount).getD [] ++ [newec]) }

variable {node : Node} {s s' : Stock} {pool : Pool} {disk : Disk} {ds ds' rest : List Disk}

def Pool.total (pool : Pool) : ℕ := (pool.entries.map fun e => e.2.length).sum

theorem total_erase (h : pool.lookup node = some ds) :
    Pool.total (pool.erase node) + ds.length = pool.total := by
  obtain ⟨l, hl⟩ := pool
  change l.dlookup node = some ds at h
  change ((l.kerase node).map fun e => e.2.length).sum + ds.length =
    (l.map fun e => e.2.length).sum
  clear hl
  induction l with
  | nil => simp at h
  | cons e l ih =>
    by_cases he : node = e.1
    · obtain ⟨node', ds'⟩ := e
      cases he
      rw [List.dlookup_cons_eq, Option.some.injEq] at h
      simp [h, Nat.add_comm]
    · rw [List.dlookup_cons_ne _ _ he] at h
      rw [List.kerase_cons_ne he, List.map_cons, List.sum_cons, List.map_cons, List.sum_cons,
        ← ih h, Nat.add_assoc]

theorem total_replace (h : pool.lookup node = some ds) :
    Pool.total (pool.replace node ds') = Pool.total (pool.erase node) + ds'.length := by
  obtain ⟨l, hl⟩ := pool
  change l.dlookup node = some ds at h
  change ((l.kreplace node ds').map fun e => e.2.length).sum =
    ((l.kerase node).map fun e => e.2.length).sum + ds'.length
  clear hl
  induction l with
  | nil => simp at h
  | cons e l ih =>
    rw [List.kreplace] at ih ⊢
    by_cases he : node = e.1
    · simp only [List.lookmap_cons, if_pos he, List.kerase_cons_eq he]
      simp [Nat.add_comm]
    · rw [List.dlookup_cons_ne _ _ he] at h
      simp only [List.lookmap_cons, if_neg he, List.kerase_cons_ne he, List.map_cons,
        List.sum_cons, ih h, Nat.add_assoc]

theorem takeDisk_ok (h : (takeDisk node).run s = .ok disk s') :
    s'.pool.total < s.pool.total := by
  simp only [takeDisk, EStateM.run_bind, EStateM.run_get] at h
  split at h
  · cases h
  · cases h
  · rename_i disk rest hlookup
    cases h
    have herase := total_erase hlookup
    have hreplace : Pool.total (s.pool.replace node rest) = _ := total_replace hlookup
    rw [List.length_cons] at herase
    change Pool.total (if rest = [] then s.pool.erase node else s.pool.replace node rest) < _
    split_ifs
    · omega
    · omega

end MyScripts.CreateConfig
