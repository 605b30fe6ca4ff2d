import MyScripts.CreateConfig.SchemeItems

/-!
# Demands on the pool of free disks

An array that gains disks needs as many nodes with free disks as it gains. A
program with a list of such demands comes to its end exactly when the pool, in
the order of the list, has enough nodes for each.
-/
namespace MyScripts.CreateConfig
open Library.Exceptions

variable {α β ι : Type} {node node' : Node} {pool : Pool} {s : Stock} {ds rest : List Disk}
  {disk : Disk} {nodes ns : List Node} {count count' : ℕ} {counts counts' : List ℕ}

def Stocked (pool : Pool) : Prop := ∀ node, pool.lookup node ≠ some []

def popNode (pool : Pool) (node : Node) : Pool :=
  match pool.lookup node with
  | some (_ :: rest) => if rest = [] then pool.erase node else pool.replace node rest
  | _ => pool

theorem lookup_replace_ne (h : node' ≠ node) :
    (pool.replace node ds).lookup node' = pool.lookup node' := by
  obtain ⟨l, hl⟩ := pool
  change (l.kreplace node ds).dlookup node' = l.dlookup node'
  clear hl
  induction l with
  | nil => rfl
  | cons e l ih =>
    rw [List.kreplace] at ih ⊢
    by_cases he : node = e.1
    · have hne : node' ≠ e.1 := he ▸ h
      simp only [List.lookmap_cons, if_pos he]
      rw [List.dlookup_cons_ne _ _ h, List.dlookup_cons_ne _ _ hne]
    · simp only [List.lookmap_cons, if_neg he]
      by_cases he' : node' = e.1
      · obtain ⟨node₀, ds₀⟩ := e
        cases he'
        rw [List.dlookup_cons_eq, List.dlookup_cons_eq]
      · rw [List.dlookup_cons_ne _ _ he', List.dlookup_cons_ne _ _ he', ih]

theorem lookup_replace_self (h : node ∈ pool) : (pool.replace node ds).lookup node = some ds := by
  obtain ⟨l, hl⟩ := pool
  change (l.kreplace node ds).dlookup node = some ds
  change node ∈ l.keys at h
  clear hl
  induction l with
  | nil => simp at h
  | cons e l ih =>
    rw [List.kreplace] at ih ⊢
    by_cases he : node = e.1
    · simp only [List.lookmap_cons, if_pos he]
      rw [List.dlookup_cons_eq]
    · simp only [List.lookmap_cons, if_neg he]
      rw [List.dlookup_cons_ne _ _ he]
      exact ih (by simpa [he] using h)

theorem lookup_popNode_ne (h : node' ≠ node) :
    (popNode pool node).lookup node' = pool.lookup node' := by
  rw [popNode]
  split
  · split_ifs
    · exact AList.lookup_erase_ne h
    · exact lookup_replace_ne h
  · rfl

theorem mem_popNode_ne (h : node' ≠ node) : node' ∈ popNode pool node ↔ node' ∈ pool := by
  rw [← AList.lookup_isSome, lookup_popNode_ne h, AList.lookup_isSome]

theorem Stocked.popNode (h : Stocked pool) (node : Node) : Stocked (popNode pool node) := by
  intro node'
  by_cases hnode : node' = node
  · subst hnode
    rw [CreateConfig.popNode]
    split
    · rename_i hlookup
      split_ifs with hrest
      · simp
      · have hmem : node' ∈ pool := by simp [← AList.lookup_isSome, hlookup]
        rw [lookup_replace_self hmem]
        simpa using hrest
    · exact h node'
  · rw [lookup_popNode_ne hnode]
    exact h node'

theorem takeDisk_run (hstocked : Stocked s.pool) (hnode : node ∈ s.pool) :
    ∃ disk, (takeDisk node).run s = .ok disk { s with pool := popNode s.pool node } := by
  obtain ⟨ds, hds⟩ := Option.isSome_iff_exists.1 (AList.lookup_isSome.2 hnode)
  cases ds with
  | nil => exact absurd hds (hstocked node)
  | cons disk rest =>
    refine ⟨disk, ?_⟩
    simp only [takeDisk, EStateM.run_bind, EStateM.run_get, hds, popNode]
    rfl

def takeFirst (count : ℕ) (pool : Pool) : Pool :=
  ((sortNodes pool.keys).take count).reverse.foldl popNode pool

theorem downTo_succ_sub (n : ℕ) : downTo (((n + 1 : ℕ) : ℤ) - 1) = n :: downTo ((n : ℤ) - 1) := by
  simp [downTo, List.range_succ]

theorem takeAt_run (hnot : node ∉ ns) (hnode : node ∈ s.pool) (hstocked : Stocked s.pool)
    (post : List Node) (newec : List Disk) :
    ∃ post' newec', (takeAt (ns ++ node :: post, newec) ns.length).run s =
      .ok (ns ++ post', newec') { s with pool := popNode s.pool node } := by
  have hitem : (item (ns ++ node :: post) ns.length).run s = .ok node s := run_item (by simp)
  obtain ⟨disk, hdisk⟩ := takeDisk_run hstocked hnode
  have herase : (ns ++ node :: post).erase node = ns ++ post := by
    rw [List.erase_append_right _ hnot, List.erase_cons_head]
  simp only [takeAt, EStateM.run_bind, hitem, hdisk, EStateM.run_get, herase]
  split_ifs
  · exact ⟨node :: post, newec ++ [disk], rfl⟩
  · exact ⟨post, newec ++ [disk], rfl⟩

theorem takeAts_run (hnodup : ns.Nodup) (hmem : ∀ node ∈ ns, node ∈ s.pool)
    (hstocked : Stocked s.pool) (post : List Node) (newec : List Disk) :
    ∃ r, ((downTo ((ns.length : ℤ) - 1)).foldlM takeAt (ns ++ post, newec)).run s =
      .ok r { s with pool := ns.reverse.foldl popNode s.pool } := by
  induction ns using List.reverseRecOn generalizing s post newec with
  | nil => exact ⟨_, rfl⟩
  | append_singleton ns node ih =>
    obtain ⟨hns, -, hdisjoint⟩ := List.nodup_append.1 hnodup
    have hne : ∀ node' ∈ ns, node' ≠ node := fun node' h => hdisjoint _ h _ (by simp)
    have hnot : node ∉ ns := fun h => hne node h rfl
    obtain ⟨post', newec', hfirst⟩ :=
      takeAt_run hnot (hmem node (by simp)) hstocked post newec
    have hmem' : ∀ node' ∈ ns, node' ∈ popNode s.pool node :=
      fun node' h => (mem_popNode_ne (hne node' h)).2 (hmem node' (by simp [h]))
    obtain ⟨r, hr⟩ := ih (s := { s with pool := popNode s.pool node }) hns hmem'
      (hstocked.popNode node) post' newec'
    refine ⟨r, ?_⟩
    rw [List.length_append, List.length_singleton, downTo_succ_sub, List.foldlM_cons,
      EStateM.run_bind, List.append_assoc, List.singleton_append, hfirst]
    simpa using hr

theorem sortNodes_perm (nodes : List Node) : (sortNodes nodes).Perm nodes :=
  List.perm_insertionSort _ _

theorem takeDisks_run (hstocked : Stocked s.pool) (hcount : count ≤ s.pool.keys.length) :
    ∃ newec, (takeDisks count).run s = .ok newec { s with pool := takeFirst count s.pool } := by
  have hperm := sortNodes_perm s.pool.keys
  have hsublist := List.take_sublist count (sortNodes s.pool.keys)
  have hlength : ((sortNodes s.pool.keys).take count).length = count := by
    rw [List.length_take, hperm.length_eq, Nat.min_eq_left hcount]
  obtain ⟨⟨nodes, newec⟩, hr⟩ := takeAts_run
    (hsublist.nodup (hperm.nodup_iff.2 s.pool.keys_nodup))
    (fun node h => hperm.mem_iff.1 (hsublist.subset h)) hstocked
    ((sortNodes s.pool.keys).drop count) []
  rw [hlength, List.take_append_drop] at hr
  refine ⟨newec, ?_⟩
  simp only [takeDisks, EStateM.run_bind, EStateM.run_get, hr, takeFirst]
  rfl

theorem takeDisks_error (hcount : s.pool.keys.length < count) :
    ∃ e s', (takeDisks count).run s = .error e s' := by
  obtain ⟨n, rfl⟩ : ∃ n, count = n + 1 := ⟨count - 1, by omega⟩
  have hlength := (sortNodes_perm s.pool.keys).length_eq
  have hitem : (item (sortNodes s.pool.keys) n).run s = .error .indexError s := by
    rw [item, List.getElem?_eq_none (by omega)]
    rfl
  refine ⟨.indexError, s, ?_⟩
  simp only [takeDisks, EStateM.run_bind, EStateM.run_get, downTo_succ_sub, List.foldlM_cons, takeAt,
    hitem]

def takeAll (counts : List ℕ) (pool : Pool) : Pool :=
  counts.foldl (fun pool count => takeFirst count pool) pool

def Enough : List ℕ → Pool → Prop
  | [], _ => True
  | count :: counts, pool => count ≤ pool.keys.length ∧ Enough counts (takeFirst count pool)

theorem enough_append : Enough (counts ++ counts') pool ↔
    Enough counts pool ∧ Enough counts' (takeAll counts pool) := by
  induction counts generalizing pool with
  | nil => simp [Enough, takeAll]
  | cons count counts ih =>
    simp only [List.cons_append, Enough, ih, and_assoc]
    rfl

theorem Stocked.takeFirst (h : Stocked pool) (count : ℕ) : Stocked (takeFirst count pool) := by
  rw [CreateConfig.takeFirst]
  generalize ((sortNodes pool.keys).take count).reverse = nodes
  induction nodes generalizing pool with
  | nil => exact h
  | cons node nodes ih => exact ih (h.popNode node)

theorem Stocked.takeAll (h : Stocked pool) (counts : List ℕ) : Stocked (takeAll counts pool) := by
  induction counts generalizing pool with
  | nil => exact h
  | cons count counts ih => exact ih (h.takeFirst count)

/-- The program makes these demands, and fails only when one of them is not met. -/
structure Demands (m : Taking α) (counts : List ℕ) (R : α → Prop) : Prop where
  ok : ∀ s, Stocked s.pool → Enough counts s.pool →
    ∃ a s', m.run s = .ok a s' ∧ s'.pool = takeAll counts s.pool ∧ R a
  error : ∀ s, Stocked s.pool → ¬Enough counts s.pool → ∃ e s', m.run s = .error e s'

variable {m : Taking α} {f : α → Taking β} {R : α → Prop} {R' : β → Prop} {a : α}

theorem Demands.pure (h : R a) : Demands (pure a) [] R where
  ok s _ _ := ⟨a, s, rfl, rfl, h⟩
  error _ _ h := absurd trivial h

theorem Demands.modify {f : Stock → Stock} (h : ∀ s, (f s).pool = s.pool) :
    Demands (modify f) [] fun _ => True where
  ok s _ _ := ⟨(), f s, rfl, h s, trivial⟩
  error _ _ h := absurd trivial h

theorem Demands.of_run_bind (h : ∀ s, m.run s = .ok a s) (hf : Demands (f a) counts R') :
    Demands (m >>= f) counts R' where
  ok s hs henough := by
    obtain ⟨b, u, hrun, hrest⟩ := hf.ok s hs henough
    exact ⟨b, u, run_bind_ok.2 ⟨a, s, h s, hrun⟩, hrest⟩
  error s hs hshort := by
    rw [EStateM.run_bind, h s]
    exact hf.error s hs hshort

theorem Demands.bind (hm : Demands m counts R) (hf : ∀ a, R a → Demands (f a) counts' R') :
    Demands (m >>= f) (counts ++ counts') R' where
  ok s hs henough := by
    rw [enough_append] at henough
    obtain ⟨a, t, hrun, hpool, ha⟩ := hm.ok s hs henough.1
    have ht : Stocked t.pool := hpool ▸ hs.takeAll counts
    obtain ⟨b, u, hrest, hpool', hb⟩ := (hf a ha).ok t ht (hpool ▸ henough.2)
    refine ⟨b, u, run_bind_ok.2 ⟨a, t, hrun, hrest⟩, ?_, hb⟩
    rw [hpool', hpool, takeAll, takeAll, takeAll, List.foldl_append]
  error s hs hshort := by
    rw [enough_append, not_and] at hshort
    rw [EStateM.run_bind]
    by_cases henough : Enough counts s.pool
    · obtain ⟨a, t, hrun, hpool, ha⟩ := hm.ok s hs henough
      have ht : Stocked t.pool := hpool ▸ hs.takeAll counts
      rw [hrun]
      exact (hf a ha).error t ht (hpool ▸ hshort henough)
    · obtain ⟨e, t, hrun⟩ := hm.error s hs henough
      rw [hrun]
      exact ⟨e, t, rfl⟩

theorem Demands.bind_unit (hm : Demands m counts R) :
    Demands (m >>= fun _ => Pure.pure ()) counts fun _ => True := by
  have hunit := hm.bind fun _ _ => Demands.pure (R := fun _ => True) (a := ()) trivial
  rwa [List.append_nil] at hunit

theorem Demands.forM {f : ι → Taking Unit} {g : ι → List ℕ} {is : List ι}
    (h : ∀ i ∈ is, Demands (f i) (g i) fun _ => True) :
    Demands (is.forM f) (is.flatMap g) fun _ => True := by
  induction is with
  | nil => exact Demands.pure trivial
  | cons i is ih =>
    exact Demands.bind (h i List.mem_cons_self) fun _ _ =>
      ih fun j hj => h j (List.mem_cons_of_mem i hj)

theorem demands_takeDisks (count : ℕ) : Demands (takeDisks count) [count] fun _ => True where
  ok s hs henough := by
    obtain ⟨newec, hrun⟩ := takeDisks_run hs henough.1
    exact ⟨newec, _, hrun, rfl, trivial⟩
  error s _ hshort := by
    apply takeDisks_error
    by_contra hle
    exact hshort ⟨Nat.not_lt.1 hle, trivial⟩

variable {ecbrickinfos : Arrays} {move : Move} {ecnum : List Char} {i : ℕ}

def sources (ecbrickinfos : Arrays) (move : Move) (ecnums : List (List Char)) : List (List Char) :=
  ecnums.filter fun ecnum => ecbrickinfos.size ecnum = move.n + move.m

theorem demands_extendArray (hgap : move.gap = (count : ℤ)) (hi : i ≠ move.count)
    (hsize : ecbrickinfos.size ecnum = move.n + move.m) :
    Demands (extendArray ecbrickinfos move i ecnum) [count] (· = .next (i + 1)) := by
  rw [extendArray, if_neg hi, if_pos hsize, hgap]
  refine Demands.bind (demands_takeDisks count) fun newec _ => ?_
  have hextend : Demands (modify fun s => s.extend (eckey move) ecnum newec) [] fun _ => True :=
    Demands.modify fun _ => rfl
  exact Demands.bind hextend fun _ _ => Demands.pure (R := (· = Flow.next (i + 1))) rfl

theorem demands_loop (ecbrickinfos : Arrays) (hgap : move.gap = (count : ℤ))
    (hi : i ≤ move.count) (ecnums : List (List Char)) :
    Demands (loop (extendArray ecbrickinfos move) i ecnums)
      (List.replicate (min (move.count - i) (sources ecbrickinfos move ecnums).length) count)
      fun _ => True := by
  induction ecnums generalizing i with
  | nil =>
    have hzero : min (move.count - i) (sources ecbrickinfos move []).length = 0 := Nat.min_zero _
    rw [hzero]
    exact Demands.pure (R := fun _ => True) trivial
  | cons ecnum ecnums ih =>
    rw [loop]
    by_cases hdone : i = move.count
    · have hround : ∀ s, (extendArray ecbrickinfos move i ecnum).run s = .ok .done s := by
        intro s
        rw [extendArray, if_pos hdone]
        rfl
      rw [hdone, Nat.sub_self, Nat.zero_min, ← hdone]
      exact Demands.of_run_bind hround (Demands.pure trivial)
    · by_cases hsize : ecbrickinfos.size ecnum = move.n + move.m
      · have hmin : min (move.count - i) (sources ecbrickinfos move (ecnum :: ecnums)).length =
            min (move.count - (i + 1)) (sources ecbrickinfos move ecnums).length + 1 := by
          simp only [sources, List.filter_cons, hsize, decide_true, if_true, List.length_cons]
          omega
        rw [hmin, List.replicate_succ]
        refine Demands.bind (demands_extendArray hgap hdone hsize) ?_
        rintro _ rfl
        exact ih (by omega)
      · have hround : ∀ s, (extendArray ecbrickinfos move i ecnum).run s = .ok (.next i) s := by
          intro s
          rw [extendArray, if_neg hdone, if_neg hsize]
          rfl
        have hsources : sources ecbrickinfos move (ecnum :: ecnums) =
            sources ecbrickinfos move ecnums := by simp [sources, hsize]
        rw [hsources]
        exact Demands.of_run_bind hround (ih hi)

theorem demands_extendArrays (hgap : move.gap = (count : ℤ))
    (hcount : move.count ≤ (sources ecbrickinfos move (sortedArrays ecbrickinfos)).length) :
    Demands (extendArrays ecbrickinfos move) (List.replicate move.count count) fun _ => True := by
  have hmin : min (move.count - 0)
      (sources ecbrickinfos move (sortedArrays ecbrickinfos)).length = move.count := by omega
  have hloop := demands_loop ecbrickinfos hgap (Nat.zero_le move.count) (sortedArrays ecbrickinfos)
  rw [hmin] at hloop
  exact hloop.bind_unit

end MyScripts.CreateConfig
