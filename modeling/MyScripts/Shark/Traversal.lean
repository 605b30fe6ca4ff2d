import MyScripts.Shark.CheckTree

/-!
# The traversal, call by call

`traversal_mount` reads a directory, makes the two paths of every entry, looks
both up and queues a comparison, and calls itself for a directory. What
`opendir`, `lstat` and the allocations return is a parameter here, and so is the
moment at which the pool is destroyed.
-/
namespace MyScripts.Shark.Traversal
open Library.DirTree CheckThreads CheckTree

/-- A run that does not return: too little fuel, a path that `sprintf` or
`strcat` writes past the end of its buffer, or the use of a null pointer. -/
inductive Fault
  | fuel
  | overflow
  | nullPointer
  deriving DecidableEq, Repr

structure Calls where
  opendir : List Char → Option (List (List Char))
  lstat : List Char → Option Kind
  pathMax : ∀ path, (lstat path).isSome → path.length < 4096
  copyMalloc : List Char → Bool
  checkMalloc : CheckoutDate → Bool
  checkWorkerMalloc : CheckoutDate → Bool
  destroy : ℕ → Bool

abbrev Queue := List CheckoutDate

inductive Flow
  | next
  | done
  deriving DecidableEq, Repr

def copyLoop (path : List Char) : ℕ → ℕ → List Char
  | _, 0 => []
  | n, len + 1 => path.getD n '\x00' :: copyLoop path (n + 1) len

/-- NULL for a path that is not absolute; what `malloc` returns is not tested. -/
def copyStr (c : Calls) (path : List Char) (n : ℕ) : Except Fault (Option (List Char)) :=
  if path.head? ≠ some '/' then .ok none
  else if c.copyMalloc path then .ok (some (copyLoop path n (path.length - n)))
  else .error .nullPointer

def buffer (s : List Char) : Except Fault (List Char) :=
  if s.length < 4096 then .ok s else .error .overflow

def enqueue (c : Calls) (w : CheckoutDate) (queue : Queue) : Option Queue :=
  if c.checkMalloc w ∧ c.checkWorkerMalloc w then some (queue ++ [w]) else none

def visitLeaf (c : Calls) (w : CheckoutDate) (queue : Queue) : Flow × Queue :=
  match c.lstat w.diskPath with
  | none => (.next, queue)
  | some _ => -- it is the type of `digistat` that is tested once more
    match enqueue c w queue with
    | none => (.next, queue)
    | some queue => (if c.destroy queue.length then .done else .next, queue)

def visit (c : Calls) (mount disk : List Char)
    (traverse : List Char → Queue → Except Fault (ℤ × Queue)) (path name : List Char)
    (queue : Queue) : Except Fault (Flow × Queue) :=
  if name = ['.'] ∨ name = ['.', '.'] then .ok (.next, queue)
  else do
    let digiBuf ← buffer (path ++ '/' :: name)
    match c.lstat digiBuf with
    | none => return (.next, queue)
    | some digistat =>
      let some tmp ← copyStr c digiBuf mount.length | throw .nullPointer
      let diskBuf ← buffer (disk ++ tmp)
      match digistat with
      | .dir =>
        if c.lstat diskBuf = some .dir then
          match enqueue c ⟨.direc, digiBuf, diskBuf⟩ queue with
          | none => return (.next, queue)
          | some queue =>
            if c.destroy queue.length then return (.done, queue)
            let (_, queue) ← traverse digiBuf queue
            return (.next, queue)
        else return (.next, queue)
      | .reg => return visitLeaf c ⟨.file, digiBuf, diskBuf⟩ queue
      | .lnk => return visitLeaf c ⟨.symlink, digiBuf, diskBuf⟩ queue
      | .fifo | .sock | .chr | .blk => return (.next, queue)

def entryLoop (body : List Char → Queue → Except Fault (Flow × Queue)) :
    List (List Char) → Queue → Except Fault Queue
  | [], queue => .ok queue
  | name :: entries, queue => do
    match ← body name queue with
    | (.next, queue) => entryLoop body entries queue
    | (.done, queue) => return queue

/-- The fuel bounds the depth of the recursion. -/
def traversalMount (c : Calls) (mount disk : List Char) :
    ℕ → List Char → Queue → Except Fault (ℤ × Queue)
  | 0, _, _ => .error .fuel
  | fuel + 1, path, queue =>
    match c.opendir path with
    | none => .ok (-1, queue)
    | some entries => do
      let queue ← entryLoop (visit c mount disk (traversalMount c mount disk fuel) path)
        entries queue
      return (0, queue)

def checkAll (c : Calls) (mount disk : List Char) (fuel : ℕ) : Except Fault Queue := do
  let (_, queue) ← traversalMount c mount disk fuel mount.dropLast []
  return queue

theorem copyLoop_eq (path : List Char) (n len : ℕ) (h : path.length = n + len) :
    copyLoop path n len = path.drop n := by
  induction len generalizing n with
  | zero => rw [copyLoop, List.drop_of_length_le (by omega)]
  | succ len ih =>
    have hn : n < path.length := by omega
    rw [copyLoop, ih (n + 1) (by omega), List.drop_eq_getElem_cons hn, List.getD_eq_getElem?_getD,
      List.getElem?_eq_getElem hn, Option.getD_some]

theorem copyStr_append {c : Calls} {mount p : List Char} (hroot : mount.head? = some '/')
    (hmalloc : c.copyMalloc (mount ++ p) = true) :
    copyStr c (mount ++ p) mount.length = .ok (some p) := by
  have hhead : (mount ++ p).head? = some '/' := by simp [List.head?_append, hroot]
  have hcopy : copyLoop (mount ++ p) mount.length ((mount ++ p).length - mount.length) = p := by
    rw [copyLoop_eq _ _ _ (by rw [List.length_append]; omega), List.drop_left]
  rw [copyStr, if_neg (by simp [hhead]), if_pos hmalloc, hcopy]

def checkType : Kind → Option CheckoutState
  | .dir => some .direc
  | .reg => some .file
  | .lnk => some .symlink
  | .fifo | .sock | .chr | .blk => none

/-- `readdir` gives each entry of the directory once. -/
def Lists (c : Calls) (path : List Char) (T : Tree) (r : List Char) : Prop :=
  ∃ entries, c.opendir path = some entries ∧ entries.Nodup ∧
    ∀ name, name ∈ entries ∧ ¬(name = ['.'] ∨ name = ['.', '.']) ↔
      '/' ∉ name ∧ (T.at (r ++ name)).isSome

theorem Lists.of_entries {c : Calls} {path r : List Char} {T : Tree} (entries : List (List Char))
    (hopen : c.opendir path = some entries) (hnodup : entries.Nodup)
    (hsome : ∀ name ∈ entries, (name = ['.'] ∨ name = ['.', '.']) ∨
      '/' ∉ name ∧ (T.at (r ++ name)).isSome)
    (hall : ∀ name, '/' ∉ name → (T.at (r ++ name)).isSome →
      name ∈ entries ∧ ¬(name = ['.'] ∨ name = ['.', '.'])) : Lists c path T r :=
  ⟨entries, hopen, hnodup, fun name =>
    ⟨fun h => (hsome name h.1).resolve_left h.2, fun h => hall name h.1 h.2⟩⟩

/-- The calls succeed and show the tree under the test mount, with an entry of
the same type under the validation mount; the pool is not destroyed. -/
structure Shows (c : Calls) (mount disk : List Char) (T : Tree) : Prop where
  root : Lists c mount.dropLast T []
  subdir : ∀ p e, T.at p = some e → e.kind = .dir → Lists c (mount ++ p) T (p ++ ['/'])
  lstat : ∀ p e, T.at p = some e → c.lstat (mount ++ p) = some e.kind
  counterpart : ∀ p e, T.at p = some e → c.lstat (disk ++ p) = some e.kind
  copyMalloc : ∀ path, c.copyMalloc path = true
  checkMalloc : ∀ w, c.checkMalloc w = true
  checkWorkerMalloc : ∀ w, c.checkWorkerMalloc w = true
  alive : ∀ n, c.destroy n = false

def Pairs (mount disk : List Char) (T : Tree) (p : List Char) (w : CheckoutDate) : Prop :=
  ∃ e type, T.at p = some e ∧ checkType e.kind = some type ∧ w = ⟨type, mount ++ p, disk ++ p⟩

variable {c : Calls} {mount disk path name r p q : List Char} {T : Tree} {e : Entry}
  {w w' : CheckoutDate} {queue : Queue} {S S' : List Char → Prop} {l l' : Queue} {k : ℕ}
  {traverse : List Char → Queue → Except Fault (ℤ × Queue)}

theorem Pairs.path_eq (h : Pairs mount disk T p w) (h' : Pairs mount disk T q w) : p = q := by
  obtain ⟨_, _, _, _, rfl⟩ := h
  obtain ⟨_, _, _, _, hw⟩ := h'
  exact List.append_cancel_left (congrArg CheckoutDate.checkPath hw)

theorem Pairs.eq (h : Pairs mount disk T p w) (h' : Pairs mount disk T p w') : w = w' := by
  obtain ⟨e, type, he, htype, rfl⟩ := h
  obtain ⟨e', type', he', htype', rfl⟩ := h'
  obtain rfl := Option.some.inj (he.symm.trans he')
  obtain rfl := Option.some.inj (htype.symm.trans htype')
  rfl

theorem Pairs.isSome (h : Pairs mount disk T p w) : (T.at p).isSome := by
  obtain ⟨e, _, he, _⟩ := h
  rw [he]
  rfl

def Covers (mount disk : List Char) (T : Tree) (S : List Char → Prop) (l : Queue) : Prop :=
  l.Nodup ∧ ∀ w, w ∈ l ↔ ∃ p, S p ∧ Pairs mount disk T p w

theorem Covers.congr (h : Covers mount disk T S l) (hS : ∀ p, (T.at p).isSome → (S p ↔ S' p)) :
    Covers mount disk T S' l := by
  refine ⟨h.1, fun w => (h.2 w).trans (exists_congr fun p => and_congr_left fun hp => ?_)⟩
  exact hS p hp.isSome

theorem covers_nil (h : ∀ p w, S p → ¬Pairs mount disk T p w) : Covers mount disk T S [] := by
  refine ⟨List.nodup_nil, fun w => ⟨fun hw => absurd hw List.not_mem_nil, ?_⟩⟩
  rintro ⟨p, hp, hw⟩
  exact absurd hw (h p w hp)

theorem Covers.cons (h : Covers mount disk T S l) (hw : Pairs mount disk T p w) (hp : ¬S p) :
    Covers mount disk T (fun q => q = p ∨ S q) (w :: l) := by
  constructor
  · refine List.nodup_cons.2 ⟨fun hmem => ?_, h.1⟩
    obtain ⟨q, hq, hwq⟩ := (h.2 w).1 hmem
    exact hp (hw.path_eq hwq ▸ hq)
  · intro v
    rw [List.mem_cons, h.2 v]
    constructor
    · rintro (rfl | ⟨q, hq, hv⟩)
      · exact ⟨p, Or.inl rfl, hw⟩
      · exact ⟨q, Or.inr hq, hv⟩
    · rintro ⟨q, rfl | hq, hv⟩
      · exact Or.inl (hv.eq hw)
      · exact Or.inr ⟨q, hq, hv⟩

theorem Covers.append (h : Covers mount disk T S l) (h' : Covers mount disk T S' l')
    (hdisjoint : ∀ p, S p → ¬S' p) : Covers mount disk T (fun p => S p ∨ S' p) (l ++ l') := by
  constructor
  · refine List.nodup_append.2 ⟨h.1, h'.1, ?_⟩
    rintro w hw _ hw' rfl
    obtain ⟨p, hp, hpw⟩ := (h.2 w).1 hw
    obtain ⟨q, hq, hqw⟩ := (h'.2 w).1 hw'
    exact hdisjoint p hp (hpw.path_eq hqw ▸ hq)
  · intro w
    rw [List.mem_append, h.2 w, h'.2 w, ← exists_or]
    exact exists_congr fun p => or_and_right.symm

theorem first_isSome (h : (T.at (r ++ q)).isSome) : (T.at (r ++ Dir.first q)).isSome := by
  rcases Dir.path_cases q with hq | ⟨q', hq⟩
  · rwa [hq]
  · rw [Tree.at, Option.isSome_map, hq, ← List.append_assoc] at h
    obtain ⟨i, hi⟩ := Dir.lookup_parent h
    rw [Tree.at, hi]
    rfl

theorem kind_eq_dir (he : T.at p = some e) (h : (T.at (p ++ '/' :: q)).isSome) : e.kind = .dir := by
  rw [Tree.at, Option.isSome_map] at h
  obtain ⟨i, hi⟩ := Dir.lookup_parent h
  rw [Tree.at, hi] at he
  rw [← Option.some.inj he]
  rfl

theorem Shows.buffer_mount (h : Shows c mount disk T) (he : T.at p = some e) :
    buffer (mount ++ p) = .ok (mount ++ p) :=
  if_pos (c.pathMax _ (by rw [h.lstat p e he]; rfl))

theorem Shows.buffer_disk (h : Shows c mount disk T) (he : T.at p = some e) :
    buffer (disk ++ p) = .ok (disk ++ p) :=
  if_pos (c.pathMax _ (by rw [h.counterpart p e he]; rfl))

theorem Shows.enqueue (h : Shows c mount disk T) (w : CheckoutDate) (queue : Queue) :
    enqueue c w queue = some (queue ++ [w]) :=
  if_pos ⟨h.checkMalloc w, h.checkWorkerMalloc w⟩

theorem Shows.visitLeaf (h : Shows c mount disk T) (he : T.at p = some e) (type : CheckoutState) :
    visitLeaf c ⟨type, mount ++ p, disk ++ p⟩ queue =
      (.next, queue ++ [⟨type, mount ++ p, disk ++ p⟩]) := by
  simp [Traversal.visitLeaf, h.counterpart p e he, h.enqueue, h.alive]

def pairsOf (mount disk p : List Char) (kind : Kind) : Queue :=
  (checkType kind).toList.map fun type => ⟨type, mount ++ p, disk ++ p⟩

theorem Shows.visit (h : Shows c mount disk T) (hroot : mount.head? = some '/')
    (hpath : path ++ ['/'] = mount ++ r) (hname : ¬(name = ['.'] ∨ name = ['.', '.']))
    (he : T.at (r ++ name) = some e) :
    visit c mount disk traverse path name queue =
      if e.kind = .dir then
        (traverse (mount ++ (r ++ name)) (queue ++ pairsOf mount disk (r ++ name) .dir)).map
          fun x => (.next, x.2)
      else .ok (.next, queue ++ pairsOf mount disk (r ++ name) e.kind) := by
  have hdigi : path ++ '/' :: name = mount ++ (r ++ name) := by
    rw [← List.append_assoc, ← hpath, List.append_assoc, List.singleton_append]
  rw [Traversal.visit, if_neg hname, hdigi, h.buffer_mount he]
  simp only [bind, Except.bind, h.lstat _ e he, copyStr_append hroot (h.copyMalloc _),
    h.buffer_disk he, h.counterpart _ e he, h.enqueue, h.alive, h.visitLeaf he, pairsOf]
  cases e.kind with
  | dir =>
    simp only [if_true, checkType, Option.toList_some, List.map_singleton]
    cases traverse (mount ++ (r ++ name)) _ <;> rfl
  | reg | lnk => rfl
  | fifo | sock | chr | blk => simp [checkType, pure, Except.pure]

def Appends (c : Calls) (mount disk : List Char) (k : ℕ) (path : List Char) (l : Queue) : Prop :=
  ∀ fuel ≥ k, ∀ queue, traversalMount c mount disk fuel path queue = .ok (0, queue ++ l)

def BodyAppends (c : Calls) (mount disk : List Char) (k : ℕ) (path name : List Char) (l : Queue) :
    Prop :=
  ∀ fuel ≥ k, ∀ queue,
    visit c mount disk (traversalMount c mount disk fuel) path name queue = .ok (.next, queue ++ l)

def EntryPaths (r name : List Char) (p : List Char) : Prop := ∃ q, Dir.first q = name ∧ p = r ++ q

def BelowPaths (r : List Char) (p : List Char) : Prop := ∃ q, p = r ++ q

theorem entry_iff (hslash : '/' ∉ name) :
    EntryPaths r name p ↔ p = r ++ name ∨ BelowPaths (r ++ name ++ ['/']) p := by
  constructor
  · rintro ⟨q, rfl, rfl⟩
    rcases Dir.path_cases q with hq | ⟨q', hq⟩
    · exact Or.inl (by rw [hq])
    · refine Or.inr ⟨q', ?_⟩
      simp only [List.append_assoc, List.singleton_append]
      rw [← hq]
  · rintro (rfl | ⟨q, rfl⟩)
    · exact ⟨name, (Dir.takeWhile_slash hslash).1, rfl⟩
    · exact ⟨name ++ '/' :: q, Library.Tokens.takeWhile_ne hslash, by simp⟩

theorem entry_iff_of_leaf (hslash : '/' ∉ name) (he : T.at (r ++ name) = some e)
    (hkind : e.kind ≠ .dir) (hp : (T.at p).isSome) : EntryPaths r name p ↔ p = r ++ name := by
  rw [entry_iff hslash, or_iff_left_iff_imp]
  rintro ⟨q, rfl⟩
  rw [List.append_assoc, List.singleton_append] at hp
  exact absurd (kind_eq_dir he hp) hkind

theorem visit_dots (hname : name = ['.'] ∨ name = ['.', '.']) :
    visit c mount disk traverse path name queue = .ok (.next, queue) := if_pos hname

theorem covers_pairsOf (he : T.at p = some e) :
    Covers mount disk T (fun q => q = p) (pairsOf mount disk p e.kind) := by
  cases htype : checkType e.kind with
  | none =>
    rw [pairsOf, htype]
    refine covers_nil ?_
    rintro _ w rfl ⟨e', type, he', htype', _⟩
    rw [he] at he'
    rw [← Option.some.inj he', htype] at htype'
    cases htype'
  | some type =>
    have hnil : Covers mount disk T (fun _ => False) [] := covers_nil fun _ _ hf => hf.elim
    rw [pairsOf, htype]
    exact (hnil.cons ⟨e, type, he, htype, rfl⟩ id).congr fun q _ => or_iff_left id

theorem Shows.visit_covers (h : Shows c mount disk T) (hroot : mount.head? = some '/')
    (hpath : path ++ ['/'] = mount ++ r) (hname : ¬(name = ['.'] ∨ name = ['.', '.']))
    (hslash : '/' ∉ name) (he : T.at (r ++ name) = some e)
    (hsub : e.kind = .dir → ∃ l, Covers mount disk T (BelowPaths (r ++ name ++ ['/'])) l ∧
      Appends c mount disk k (mount ++ (r ++ name)) l) :
    ∃ l, Covers mount disk T (EntryPaths r name) l ∧ BodyAppends c mount disk k path name l := by
  by_cases hdir : e.kind = .dir
  · obtain ⟨l, hl, happend⟩ := hsub hdir
    have hself : Covers mount disk T (fun q => q = r ++ name) (pairsOf mount disk (r ++ name) .dir) :=
      hdir ▸ covers_pairsOf he
    have habove : ∀ q, q = r ++ name → ¬BelowPaths (r ++ name ++ ['/']) q := by
      rintro _ rfl ⟨q, hq⟩
      have hlength := congrArg List.length hq
      simp at hlength
    refine ⟨_, (hself.append hl habove).congr fun p _ => (entry_iff hslash).symm,
      fun fuel hfuel queue => ?_⟩
    rw [h.visit hroot hpath hname he, if_pos hdir, happend fuel hfuel, ← List.append_assoc]
    rfl
  · refine ⟨_, (covers_pairsOf he).congr fun p hp => (entry_iff_of_leaf hslash he hdir hp).symm,
      fun fuel _ queue => ?_⟩
    rw [h.visit hroot hpath hname he, if_neg hdir]

theorem EntryPaths.name_eq {name' : List Char} (h : EntryPaths r name p)
    (h' : EntryPaths r name' p) : name = name' := by
  obtain ⟨q, rfl, rfl⟩ := h
  obtain ⟨q', rfl, hq⟩ := h'
  rw [List.append_cancel_left hq]

theorem loop_covers {entries : List (List Char)} (hnodup : entries.Nodup)
    (hbody : ∀ name ∈ entries, ∃ l, Covers mount disk T (EntryPaths r name) l ∧
      BodyAppends c mount disk k path name l) :
    ∃ l, Covers mount disk T (fun p => ∃ name ∈ entries, EntryPaths r name p) l ∧
      ∀ fuel ≥ k, ∀ queue,
        entryLoop (visit c mount disk (traversalMount c mount disk fuel) path) entries queue =
          .ok (queue ++ l) := by
  induction entries with
  | nil =>
    refine ⟨[], covers_nil ?_, fun fuel _ queue => by rw [entryLoop, List.append_nil]⟩
    rintro p w ⟨name, hname, _⟩
    exact absurd hname List.not_mem_nil
  | cons name entries ih =>
    obtain ⟨hnew, hnodup⟩ := List.nodup_cons.1 hnodup
    obtain ⟨l, hl, happend⟩ := hbody name List.mem_cons_self
    obtain ⟨l', hl', happend'⟩ := ih hnodup fun name hname => hbody name (List.mem_cons_of_mem _ hname)
    have hdisjoint : ∀ p, EntryPaths r name p → ¬∃ name ∈ entries, EntryPaths r name p := by
      rintro p hp ⟨name', hname', hp'⟩
      exact hnew (hp.name_eq hp' ▸ hname')
    refine ⟨l ++ l', (hl.append hl' hdisjoint).congr fun p _ => ?_, fun fuel hfuel queue => ?_⟩
    · rw [List.exists_mem_cons_iff]
    · rw [entryLoop, happend fuel hfuel queue]
      simp only [bind, Except.bind]
      rw [happend' fuel hfuel, List.append_assoc]

/-- Every entry below the directory is queued once; the fuel counts the levels
that the longest path leaves. -/
theorem Shows.traversal_covers (h : Shows c mount disk T) (hroot : mount.head? = some '/') {N : ℕ}
    (hN : ∀ p, (T.at p).isSome → p.length ≤ N) (k : ℕ) {path r : List Char}
    (hpath : path ++ ['/'] = mount ++ r) (hlists : Lists c path T r) (hlength : r.length ≤ N + 1)
    (hk : N + 1 < k + r.length) :
    ∃ l, Covers mount disk T (BelowPaths r) l ∧ Appends c mount disk k path l := by
  induction k generalizing path r with
  | zero => omega
  | succ k ih =>
    obtain ⟨entries, hopen, hnodup, hmem⟩ := hlists
    have hbody : ∀ name ∈ entries, ∃ l, Covers mount disk T (EntryPaths r name) l ∧
        BodyAppends c mount disk k path name l := by
      intro name hname
      by_cases hdots : name = ['.'] ∨ name = ['.', '.']
      · refine ⟨[], covers_nil ?_, fun fuel _ queue => by rw [visit_dots hdots, List.append_nil]⟩
        rintro _ w ⟨q, rfl, rfl⟩ hw
        exact ((hmem _).2 ⟨Dir.slash_not_mem_first q, first_isSome hw.isSome⟩).2 hdots
      · obtain ⟨hslash, hsome⟩ := (hmem name).1 ⟨hname, hdots⟩
        obtain ⟨e, he⟩ := Option.isSome_iff_exists.1 hsome
        refine h.visit_covers hroot hpath hdots hslash he fun hdir => ?_
        have hle := hN _ hsome
        rw [List.length_append] at hle
        apply ih
        · simp
        · exact h.subdir _ e he hdir
        · simp only [List.length_append, List.length_singleton]
          omega
        · simp only [List.length_append, List.length_singleton]
          omega
    obtain ⟨l, hl, hloop⟩ := loop_covers hnodup hbody
    refine ⟨l, hl.congr fun p hp => ?_, fun fuel hfuel queue => ?_⟩
    · constructor
      · rintro ⟨_, _, q, _, rfl⟩
        exact ⟨q, rfl⟩
      · rintro ⟨q, rfl⟩
        exact ⟨_, ((hmem _).2 ⟨Dir.slash_not_mem_first q, first_isSome hp⟩).1, q, rfl, rfl⟩
    · obtain ⟨fuel, rfl⟩ := Nat.exists_eq_add_of_le' (Nat.one_le_of_lt hfuel)
      rw [traversalMount, hopen]
      simp only [bind, Except.bind, hloop fuel (by omega)]
      rfl

/-- `check_all` queues one comparison for each directory, file and link of the
tree, with the two paths in step, and no other. -/
theorem checkAll_pairs (hroot : mount.head? = some '/') (hslash : mount.getLast? = some '/')
    (h : Shows c mount disk T) :
    ∃ queue, queue.Nodup ∧ (∀ w, w ∈ queue ↔ ∃ p, Pairs mount disk T p w) ∧
      ∃ k, ∀ fuel ≥ k, checkAll c mount disk fuel = .ok queue := by
  obtain ⟨N, hN⟩ := Dir.exists_length_le T.1
  have hN' : ∀ p, (T.at p).isSome → p.length ≤ N := fun p hp =>
    hN p (by rwa [Tree.at, Option.isSome_map] at hp)
  have hdrop : mount.dropLast ++ ['/'] = mount ++ [] := by
    rw [List.append_nil, List.dropLast_append_getLast? _ hslash]
  obtain ⟨l, hl, happend⟩ := h.traversal_covers hroot hN' (N + 2) hdrop h.root (Nat.zero_le _)
    (by simp)
  refine ⟨l, hl.1, fun w => (hl.2 w).trans (exists_congr fun p => ?_), N + 2, fun fuel hfuel => ?_⟩
  · exact and_iff_right ⟨p, rfl⟩
  · rw [checkAll, happend fuel hfuel]
    rfl

def linkName : Name := ⟨['l'], by decide⟩

def dirName : Name := ⟨['d'], by decide⟩

def fileName : Name := ⟨['f'], by decide⟩

theorem lnk_ne_dir : Kind.lnk ≠ .dir := by decide

theorem reg_ne_dir : Kind.reg ≠ .dir := by decide

def smallDir : Dir Leaf Attrs :=
  .leaf linkName ⟨⟨.lnk, lnk_ne_dir⟩, ⟨0, 0, 511, []⟩, []⟩
    (.sub dirName ⟨0, 0, 493, []⟩
      (.leaf fileName ⟨⟨.reg, reg_ne_dir⟩, ⟨0, 0, 420, []⟩, []⟩ .nil) .nil)

theorem smallDir_distinct : smallDir.Distinct :=
  ⟨by decide, by decide, ⟨by decide, trivial⟩, trivial⟩

def smallTree : Tree := ⟨smallDir, smallDir_distinct⟩

def smallCalls : Calls where
  opendir path :=
    if path = "/t".toList then some [['.'], ['d'], ['.', '.'], ['l']]
    else if path = "/t/d".toList then some [['.'], ['.', '.'], ['f']]
    else none
  lstat path :=
    if path = "/t/l".toList ∨ path = "/v/l".toList then some .lnk
    else if path = "/t/d".toList ∨ path = "/v/d".toList then some .dir
    else if path = "/t/d/f".toList ∨ path = "/v/d/f".toList then some .reg
    else none
  pathMax path h := by
    split_ifs at h with hl hd hf
    · rcases hl with rfl | rfl <;> decide
    · rcases hd with rfl | rfl <;> decide
    · rcases hf with rfl | rfl <;> decide
    · cases h
  copyMalloc _ := true
  checkMalloc _ := true
  checkWorkerMalloc _ := true
  destroy _ := false

theorem smallTree_at (h : smallTree.at p = some e) : (p = "l".toList ∧ e.kind = .lnk) ∨
    (p = "d".toList ∧ e.kind = .dir) ∨ (p = "d/f".toList ∧ e.kind = .reg) := by
  obtain ⟨x, hx, rfl⟩ := Option.map_eq_some_iff.1 h
  change smallDir.lookup p = some x at hx
  rw [smallDir] at hx
  rcases Dir.entry_cases linkName p with rfl | ⟨q, rfl⟩ | hl
  · rw [Dir.lookup_leaf_name] at hx
    exact Or.inl ⟨rfl, by rw [← Option.some.inj hx]; rfl⟩
  · simp at hx
  rw [Dir.lookup_leaf_of_ne _ hl] at hx
  rcases Dir.entry_cases dirName p with rfl | ⟨q, rfl⟩ | hd
  · rw [Dir.lookup_sub_name] at hx
    exact Or.inr (Or.inl ⟨rfl, by rw [← Option.some.inj hx]; rfl⟩)
  · rw [Dir.lookup_sub_child] at hx
    rcases Dir.entry_cases fileName q with rfl | ⟨q', rfl⟩ | hf
    · rw [Dir.lookup_leaf_name] at hx
      exact Or.inr (Or.inr ⟨rfl, by rw [← Option.some.inj hx]; rfl⟩)
    · simp at hx
    · rw [Dir.lookup_leaf_of_ne _ hf] at hx
      cases hx
  · rw [Dir.lookup_sub_of_ne _ hd] at hx
    cases hx

theorem smallCalls_shows : Shows smallCalls "/t/".toList "/v/".toList smallTree where
  root := by
    refine .of_entries [['.'], ['d'], ['.', '.'], ['l']] rfl (by decide) (by decide) ?_
    intro name hslash hsome
    obtain ⟨e, he⟩ := Option.isSome_iff_exists.1 hsome
    rcases smallTree_at he with ⟨rfl, _⟩ | ⟨rfl, _⟩ | ⟨rfl, _⟩
    · decide
    · decide
    · exact absurd hslash (by decide)
  subdir p e he hdir := by
    rcases smallTree_at he with ⟨_, hkind⟩ | ⟨rfl, _⟩ | ⟨_, hkind⟩
    · exact absurd (hkind.symm.trans hdir) (by decide)
    · refine .of_entries [['.'], ['.', '.'], ['f']] rfl (by decide) (by decide) ?_
      intro name _ hsome
      obtain ⟨e, he⟩ := Option.isSome_iff_exists.1 hsome
      have hname : name = ['f'] := by
        rcases smallTree_at he with ⟨h, _⟩ | ⟨h, _⟩ | ⟨h, _⟩
        · simp at h
        · simp at h
        · simpa using h
      rw [hname]
      decide
    · exact absurd (hkind.symm.trans hdir) (by decide)
  lstat p e he := by
    rcases smallTree_at he with ⟨rfl, h⟩ | ⟨rfl, h⟩ | ⟨rfl, h⟩ <;> rw [h] <;> rfl
  counterpart p e he := by
    rcases smallTree_at he with ⟨rfl, h⟩ | ⟨rfl, h⟩ | ⟨rfl, h⟩ <;> rw [h] <;> rfl
  copyMalloc _ := rfl
  checkMalloc _ := rfl
  checkWorkerMalloc _ := rfl
  alive _ := rfl

theorem checkAll_pairs_smallTree :
    ∃ queue, queue.Nodup ∧ (∀ w, w ∈ queue ↔ ∃ p, Pairs "/t/".toList "/v/".toList smallTree p w) ∧
      ∃ k, ∀ fuel ≥ k, checkAll smallCalls "/t/".toList "/v/".toList fuel = .ok queue :=
  checkAll_pairs rfl rfl smallCalls_shows

example : checkAll smallCalls "/t/".toList "/v/".toList 3 = .ok
    [⟨.direc, "/t/d".toList, "/v/d".toList⟩, ⟨.file, "/t/d/f".toList, "/v/d/f".toList⟩,
      ⟨.symlink, "/t/l".toList, "/v/l".toList⟩] := by decide +kernel

end MyScripts.Shark.Traversal
