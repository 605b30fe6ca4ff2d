import MyScripts.CreateConfig.GapCounts

/-!
# Schemes with a combination that moves

`combnmnm` looks for the term of a move with a regular expression, which fits
only behind the sums of two factors. A number of new groups above zero makes it
raise, so all its schemes consist of zeros and one move.
-/
namespace MyScripts.CreateConfig
open Library.Decimal Library.SumOfProducts Library.Exceptions

variable {s s' u rest : List Char} {n k i t : ℕ} {dm : Match} {ts : List (List ℕ)}

def stars (s : List Char) : ℕ := (s.takeWhile (· ≠ '+')).count '*'

theorem digits_printNat (n : ℕ) (hr : Ends rest) : digits (printNat n ++ rest) = some (n, rest) := by
  have hdrop : (printNat n ++ rest).dropWhile Char.isDigit = rest := by
    have happend := List.takeWhile_append_dropWhile (p := Char.isDigit) (l := printNat n ++ rest)
    rw [takeWhile_digits (printNat_digits n) hr] at happend
    exact List.append_cancel_left happend
  rw [digits, scanNat_printNat n hr, Option.map_some, hdrop]

theorem starDigits_printNat (n : ℕ) (hr : Ends rest) :
    starDigits ('*' :: printNat n ++ rest) = some (n, rest) :=
  digits_printNat n hr

theorem stars_of_digits (h : digits s = some (n, s')) : stars s' = stars s := by
  obtain ⟨v, -, hv⟩ := Option.map_eq_some_iff.1 h
  obtain rfl : s.dropWhile Char.isDigit = s' := (Prod.mk.inj hv).2
  clear h hv
  induction s with
  | nil => rfl
  | cons c s ih =>
    by_cases hc : c.isDigit = true
    · have hplus : c ≠ '+' := by
        rintro rfl
        exact absurd hc (by decide)
      have hstar : c ≠ '*' := by
        rintro rfl
        exact absurd hc (by decide)
      rw [List.dropWhile_cons_of_pos hc, ih]
      simp [stars, hplus, hstar]
    · rw [List.dropWhile_cons_of_neg hc]

theorem stars_of_starDigits (h : starDigits s = some (n, s')) : stars s = stars s' + 1 := by
  cases s with
  | nil => simp [starDigits] at h
  | cons c s =>
    by_cases hc : c = '*'
    · subst hc
      rw [stars_of_digits h]
      simp [stars]
    · simp [starDigits, hc] at h

theorem three_le_stars (h : fourFactors s = some dm) : 3 ≤ stars s := by
  simp only [fourFactors, Option.bind_eq_bind, Option.bind_eq_some_iff] at h
  obtain ⟨⟨_, s₁⟩, h₁, ⟨_, s₂⟩, h₂, ⟨_, s₃⟩, h₃, ⟨_, s₄⟩, h₄, -⟩ := h
  dsimp only at h₂ h₃ h₄
  have hs₁ := stars_of_digits h₁
  have hs₂ := stars_of_starDigits h₂
  have hs₃ := stars_of_starDigits h₃
  have hs₄ := stars_of_starDigits h₄
  omega

theorem stars_append (hu : '+' ∉ u) : stars (u ++ '+' :: rest) = u.count '*' := by
  have htake : (u ++ '+' :: rest).takeWhile (· ≠ '+') = u := by
    rw [List.takeWhile_append_of_pos]
    · simp
    · intro c hc
      simpa using ne_of_mem_of_not_mem hc hu
  rw [stars, htake]

theorem fourFactors_eq_none (hu : '+' ∉ u) (hcount : u.count '*' < 3) :
    fourFactors (u ++ '+' :: rest) = none := by
  rw [Option.eq_none_iff_forall_ne_some]
  intro dm h
  have hstars := three_le_stars h
  rw [stars_append hu] at hstars
  omega

theorem moveTerm_of_ne {c : Char} (hc : c ≠ '+') : moveTerm (c :: s) = fourFactors (c :: s) := by
  simp [moveTerm, hc]

theorem search_skip (hu : '+' ∉ u) (hcount : u.count '*' < 3) (rest : List Char) :
    search (u ++ '+' :: rest) = search ('+' :: rest) ∧
      remove 0 (u ++ '+' :: rest) = u ++ remove 0 ('+' :: rest) := by
  induction u with
  | nil => simp
  | cons c u ih =>
    have hnone : moveTerm (c :: (u ++ '+' :: rest)) = none := by
      rw [moveTerm_of_ne (fun h => hu (by simp [h]))]
      exact fourFactors_eq_none hu hcount
    have hle : u.count '*' < 3 := Nat.lt_of_le_of_lt List.count_le_count_cons hcount
    obtain ⟨hsearch, hremove⟩ := ih (List.not_mem_of_not_mem_cons hu) hle
    rw [List.cons_append, search, remove, hnone]
    exact ⟨hsearch, by rw [hremove, List.cons_append]⟩

theorem search_plus (hu : '+' ∉ u) (hcount : u.count '*' < 3) (rest : List Char) :
    search ('+' :: (u ++ '+' :: rest)) = search ('+' :: rest) ∧
      remove 0 ('+' :: (u ++ '+' :: rest)) = '+' :: u ++ remove 0 ('+' :: rest) := by
  have hnone : moveTerm ('+' :: (u ++ '+' :: rest)) = none := fourFactors_eq_none hu hcount
  obtain ⟨hsearch, hremove⟩ := search_skip hu hcount rest
  rw [search, remove, hnone, hsearch, hremove]
  exact ⟨rfl, rfl⟩

theorem count_product_lt (n k : ℕ) : (product [n, k]).count '*' < 3 := by
  have hcount : ∀ n, (printNat n).count '*' = 0 := fun n => List.count_eq_zero.2 (star_not_mem n)
  simp [product, hcount]

theorem plus_not_mem (fs : List ℕ) : '+' ∉ product fs := not_mem_product (by decide) (by decide) fs

def TwoFactors (ts : List (List ℕ)) : Prop := ∀ fs ∈ ts, ∃ n k, fs = [n, k]

theorem text_singleton (fs : List ℕ) : text [fs] = product fs := by
  simp [text]

theorem text_cons (hts : ts ≠ []) (fs : List ℕ) :
    text (fs :: ts) = product fs ++ '+' :: text ts := by
  simp [text, List.intercalate_cons_of_ne_nil, hts]

theorem search_text_plus (htwo : TwoFactors ts) (hts : ts ≠ []) (rest : List Char) :
    search ('+' :: (text ts ++ '+' :: rest)) = search ('+' :: rest) ∧
      remove 0 ('+' :: (text ts ++ '+' :: rest)) = '+' :: text ts ++ remove 0 ('+' :: rest) := by
  induction ts with
  | nil => exact absurd rfl hts
  | cons fs ts ih =>
    obtain ⟨n, k, rfl⟩ := htwo _ List.mem_cons_self
    by_cases hnil : ts = []
    · rw [hnil, text_singleton]
      exact search_plus (plus_not_mem _) (count_product_lt n k) rest
    · obtain ⟨hsearch, hremove⟩ := ih (fun fs h => htwo fs (List.mem_cons_of_mem _ h)) hnil
      rw [text_cons hnil, List.append_assoc, List.cons_append]
      obtain ⟨hfirst, hfirst'⟩ := search_plus (plus_not_mem [n, k]) (count_product_lt n k)
        (text ts ++ '+' :: rest)
      rw [hfirst, hfirst', hsearch, hremove]
      simp

theorem search_text (htwo : TwoFactors ts) (hts : ts ≠ []) (rest : List Char) :
    search (text ts ++ '+' :: rest) = search ('+' :: rest) ∧
      remove 0 (text ts ++ '+' :: rest) = text ts ++ remove 0 ('+' :: rest) := by
  obtain ⟨fs, ts, rfl⟩ := List.exists_cons_of_ne_nil hts
  obtain ⟨n, k, rfl⟩ := htwo _ List.mem_cons_self
  by_cases hnil : ts = []
  · rw [hnil, text_singleton]
    exact search_skip (plus_not_mem _) (count_product_lt n k) rest
  · obtain ⟨hsearch, hremove⟩ :=
      search_text_plus (fun fs h => htwo fs (List.mem_cons_of_mem _ h)) hnil rest
    obtain ⟨hfirst, hfirst'⟩ := search_skip (plus_not_mem [n, k]) (count_product_lt n k)
      (text ts ++ '+' :: rest)
    rw [text_cons hnil, List.append_assoc, List.cons_append, hfirst, hfirst', hsearch, hremove]
    simp

theorem fourFactors_product (n m j tg : ℕ) :
    fourFactors (product [n, m, j, tg]) = some ⟨n, m, j, tg, []⟩ := by
  have hstar : ∀ s t, Ends ('*' :: s ++ t) := fun s t => ends_cons (by decide)
  have hproduct : product [n, m, j, tg] =
      printNat n ++ ('*' :: printNat m ++ ('*' :: printNat j ++ ('*' :: printNat tg ++ []))) := by
    simp [product]
  rw [hproduct, fourFactors, digits_printNat n (hstar _ _)]
  simp only [Option.bind_eq_bind, Option.bind_some]
  rw [starDigits_printNat m (hstar _ _)]
  simp only [Option.bind_some]
  rw [starDigits_printNat j (hstar _ _)]
  simp only [Option.bind_some]
  rw [starDigits_printNat tg ends_nil]
  rfl

theorem search_product (n m j tg : ℕ) :
    search ('+' :: product [n, m, j, tg]) = some ⟨n, m, j, tg, []⟩ := by
  rw [search, moveTerm, fourFactors_product]

theorem remove_all (s : List Char) : remove s.length s = [] := by
  induction s with
  | nil => rfl
  | cons c s ih => exact ih

theorem remove_product (n m j tg : ℕ) : remove 0 ('+' :: product [n, m, j, tg]) = [] := by
  rw [remove, moveTerm, fourFactors_product]
  exact remove_all _

variable {g : Globals}

theorem total_eq (ts : List (List ℕ)) : (total ts).getD 0 = value ts := by
  rw [total]
  split_ifs with hts
  · rw [hts]
    rfl
  · rfl

theorem TwoFactors.ne_nil (htwo : TwoFactors ts) : ∀ fs ∈ ts, fs ≠ [] := by
  intro fs hfs
  obtain ⟨n, k, rfl⟩ := htwo fs hfs
  exact List.cons_ne_nil _ _

theorem combnmnmexit_run (htwo : TwoFactors ts) (hts : ts ≠ []) (nn n m j tg : ℕ) :
    (combnmnmexit nn (text ts ++ '+' :: product [n, m, j, tg])).run g =
      .ok (decide (value ts + j * tg = nn)) g := by
  obtain ⟨hsearch, hremove⟩ := search_text htwo hts (product [n, m, j, tg])
  rw [search_product] at hsearch
  rw [remove_product, List.append_nil] at hremove
  simp only [combnmnmexit, hsearch, hremove, EStateM.run_bind, run_evaluateNonempty htwo.ne_nil,
    total_eq]
  rfl

variable {d pre as : List Combination} {a : Combination} {nn flag j : ℕ} {b : List ℕ}
  {rest : List Char → Py Unit}

def Movable (d : List Combination) (nn : ℕ) (a : Combination) (j : ℕ) : Prop :=
  nn % j = 0 ∧ nn / j + a.n ≤ maxn ∧ (j = a.count ∨ d.length < maxnm)

instance : Decidable (Movable d nn a j) :=
  inferInstanceAs (Decidable (nn % j = 0 ∧ nn / j + a.n ≤ maxn ∧ (j = a.count ∨ d.length < maxnm)))

def findGroups (d : List Combination) (nn : ℕ) (a : Combination) : Option ℕ :=
  (List.range' 1 a.count).reverse.findSome? fun j => if Movable d nn a j then some j else none

def findMove (d : List Combination) (nn : ℕ) : Option (Combination × ℕ) :=
  d.findSome? fun a => (findGroups d nn a).map (a, ·)

def moveScheme (nn : ℕ) (ts : List (List ℕ)) (a : Combination) (j : ℕ) : Scheme :=
  (5, text (ts ++ [[a.n, a.m, j, nn / j]]))

theorem tryMove_run (htwo : TwoFactors ts) (hts : ts ≠ []) (hvalue : value ts = 0)
    (hmove : Movable d nn a j) :
    (tryMove nn a j (nn / j) (text ts)).run g = .ok .done (g.add [moveScheme nn ts a j]) := by
  have htotal : value ts + j * (nn / j) = nn := by
    rw [hvalue, Nat.zero_add, Nat.mul_div_cancel' (Nat.dvd_of_mod_eq_zero hmove.1)]
  simp only [tryMove, EStateM.run_bind, combnmnmexit_run htwo hts, htotal, decide_true, if_true]
  rw [moveScheme, text_concat hts]
  rfl

theorem moveGroups_run (htwo : TwoFactors ts) (hts : ts ≠ []) (hvalue : value ts = 0) :
    (moveGroups d nn nn a (text ts)).run g = (findGroups d nn a).elim (.ok (.next (text ts)) g)
      fun j => .ok .done (g.add [moveScheme nn ts a j]) := by
  rw [moveGroups, findGroups]
  apply loop_findSome
  intro j _
  by_cases hmove : Movable d nn a j
  · rw [if_pos hmove]
    exact (congrArg (EStateM.run · g) (if_pos hmove)).trans (tryMove_run htwo hts hvalue hmove)
  · rw [if_neg hmove]
    exact congrArg (EStateM.run · g) (if_neg hmove)

theorem index_run (ha : a ∈ d) : ∃ x, (index d a).run g = .ok x g := by
  cases hx : d.idxOf? a with
  | none => exact absurd ha (by simpa using hx)
  | some x => exact ⟨x, by simp [index, hx, EStateM.run_pure]⟩

theorem moveItems_run (htwo : TwoFactors ts) (hts : ts ≠ []) (hvalue : value ts = 0)
    (hg : g.itemchange = .list []) :
    (moveItems d nn nn (text ts)).run g = (findMove d nn).elim (.ok (.next (text ts)) g)
      fun (a, j) => .ok .done (g.add [moveScheme nn ts a j]) := by
  rw [moveItems, findMove]
  apply loop_findSome
  intro a ha
  obtain ⟨x, hx⟩ := index_run (g := g) ha
  have hitems : g.itemchange.items = [] := by rw [hg, Collection.items]
  simp only [EStateM.run_bind, hx, EStateM.run_get, hitems, List.not_mem_nil, if_false]
  rw [moveGroups_run htwo hts hvalue]
  cases findGroups d nn a with
  | none => rfl
  | some j => rfl

def firstMove (d : List Combination) (nn : ℕ) : Option (Combination × ℕ) :=
  if 0 < nn ∧ 0 < d.length then findMove d nn else none

theorem moves_run (htwo : TwoFactors ts) (hts : ts ≠ []) (hvalue : value ts = 0)
    (hg : g.itemchange = .list []) :
    (moves d nn nn (text ts)).run g = (firstMove d nn).elim (.ok (.next (text ts)) g)
      fun (a, j) => .ok .done (g.add [moveScheme nn ts a j]) := by
  have hitems : g.itemchange.items = [] := by rw [hg, Collection.items]
  simp only [moves, EStateM.run_bind, EStateM.run_get, hitems, List.length_nil, Int.natCast_pos,
    firstMove]
  split_ifs with hpos
  · exact moveItems_run htwo hts hvalue hg
  · rfl

theorem TwoFactors.concat (htwo : TwoFactors ts) (n k : ℕ) : TwoFactors (ts ++ [[n, k]]) := by
  intro fs hfs
  rcases List.mem_append.1 hfs with hfs | hfs
  · exact htwo fs hfs
  · exact ⟨n, k, List.mem_singleton.1 hfs⟩

theorem combnmnmRound_zero (htwo : TwoFactors ts) (hvalue : value ts = 0) (ha : a ∈ d)
    (hg : g.itemchange = .list []) :
    (combnmnmRound d nn rest a (text ts) 0).run g =
      (match firstMove d nn with
        | some (a', j) => do
          append (moveScheme nn (ts ++ [[a.n + a.m, 0]]) a' j)
          return .done
        | none => do
          rest (text (ts ++ [[a.n + a.m, 0]]))
          return .next () : Py (Flow Unit)).run g := by
  obtain ⟨x, hx⟩ := index_run (g := g) ha
  have hzero : value (ts ++ [[a.n + a.m, 0]]) = 0 := by simp [value_append, hvalue]
  have htotal : (total (ts ++ [[a.n + a.m, 0]])).getD 0 = 0 := (total_eq _).trans hzero
  have hrecord : (recordGain x 0).run g = .ok () g := rfl
  have hleft : (nn : ℤ) - (0 : ℕ) = nn := Int.sub_zero _
  simp only [combnmnmRound, extend_text htwo.ne_nil, EStateM.run_bind,
    run_evaluateNonempty (htwo.concat _ _).ne_nil, htotal, hx, hrecord, hleft]
  rw [moves_run (htwo.concat _ _) (by simp) hzero hg]
  cases firstMove d nn with
  | none => rfl
  | some move => rfl

theorem combnmnmRound_succ (htwo : TwoFactors ts) (ha : a ∈ d) (hg : g.itemchange = .list []) :
    (combnmnmRound d nn rest a (text ts) (i + 1)).run g = .error .attributeError g := by
  obtain ⟨x, hx⟩ := index_run (g := g) ha
  have hrecord : (recordGain x (i + 1)).run g = .error .attributeError g := by
    simp only [recordGain, if_pos (Nat.succ_pos i), addItemchange, EStateM.run_bind,
      EStateM.run_get, hg]
    rfl
  simp only [combnmnmRound, extend_text htwo.ne_nil, EStateM.run_bind,
    run_evaluateNonempty (htwo.concat _ _).ne_nil, hx, hrecord]

def zeros (d : List Combination) (k : ℕ) : List (List ℕ) := terms (tlist d) (List.replicate k 0)

theorem twoFactors_terms (tl v : List ℕ) : TwoFactors (terms tl v) := by
  intro fs hfs
  obtain ⟨i, hi⟩ := List.mem_iff_getElem?.1 hfs
  obtain ⟨n, k, -, -, hfs⟩ := List.getElem?_zipWith_eq_some.1 hi
  exact ⟨n, k, hfs.symm⟩

theorem twoFactors_zeros (d : List Combination) (k : ℕ) : TwoFactors (zeros d k) :=
  twoFactors_terms _ _

theorem value_zeros (d : List Combination) (k : ℕ) : value (zeros d k) = 0 := by
  rw [zeros, value_terms, used_zero]

theorem zeros_concat (hd : d = pre ++ a :: as) :
    zeros d pre.length ++ [[a.n + a.m, 0]] = zeros d (pre.length + 1) := by
  have hlength : (tlist pre).length = (List.replicate pre.length 0).length := by simp [tlist]
  have hsplit : ∀ v, terms (tlist d) (List.replicate pre.length 0 ++ v) =
      terms (tlist pre) (List.replicate pre.length 0) ++ terms (tlist (a :: as)) v := by
    intro v
    rw [hd, tlist, List.map_append]
    exact List.zipWith_append hlength
  have hzeros := hsplit []
  rw [List.append_nil] at hzeros
  rw [zeros, zeros, List.replicate_succ', hsplit, hzeros]
  simp [terms, tlist]

theorem combnmnmRound_zeros (nn : ℕ) (hd : d = pre ++ a :: as) (rest : List Char → Py Unit)
    (hg : g.itemchange = .list []) :
    (combnmnmRound d nn rest a (text (zeros d pre.length)) 0).run g =
      (match firstMove d nn with
        | some (a', j) => do
          append (moveScheme nn (zeros d (pre.length + 1)) a' j)
          return .done
        | none => do
          rest (text (zeros d (pre.length + 1)))
          return .next () : Py (Flow Unit)).run g := by
  rw [combnmnmRound_zero (twoFactors_zeros d _) (value_zeros d _) (by simp [hd]) hg,
    zeros_concat hd]

theorem combnmnmRound_gain (nn i : ℕ) (hd : d = pre ++ a :: as) (rest : List Char → Py Unit)
    (hg : g.itemchange = .list []) :
    (combnmnmRound d nn rest a (text (zeros d pre.length)) (i + 1)).run g =
      .error .attributeError g :=
  combnmnmRound_succ (twoFactors_zeros d _) (by simp [hd]) hg

theorem of_findGroups (h : findGroups d nn a = some j) : 1 ≤ j ∧ j ≤ a.count ∧ Movable d nn a j := by
  obtain ⟨j', hj', hmove⟩ := List.exists_of_findSome?_eq_some h
  split_ifs at hmove with hmovable
  cases hmove
  simp only [List.mem_reverse, List.mem_range'_1] at hj'
  exact ⟨hj'.1, by omega, hmovable⟩

theorem of_firstMove (h : firstMove d nn = some (a, j)) :
    a ∈ d ∧ 1 ≤ j ∧ j ≤ a.count ∧ Movable d nn a j := by
  rw [firstMove] at h
  split_ifs at h
  obtain ⟨a', ha', hmove⟩ := List.exists_of_findSome?_eq_some h
  obtain ⟨j', hj', hpair⟩ := Option.map_eq_some_iff.1 hmove
  cases hpair
  exact ⟨ha', of_findGroups hj'⟩

structure SoundMove (d : List Combination) (nn : ℕ) (v : List ℕ) (a : Combination) (j g : ℕ) :
    Prop where
  mem : a ∈ d
  total : used (tlist d) v + j * g = nn
  bounded : g + a.n ≤ maxn
  positive : 1 ≤ j
  available : j ≤ a.count
  unused : ∀ k b, d[k]? = some b → b.n = a.n → b.m = a.m → v.getD k 0 = 0

theorem soundMove_zeros (h : firstMove d nn = some (a, j)) (k : ℕ) :
    SoundMove d nn (List.replicate k 0) a j (nn / j) where
  mem := (of_firstMove h).1
  total := by
    rw [used_zero, Nat.zero_add, Nat.mul_div_cancel'
      (Nat.dvd_of_mod_eq_zero (of_firstMove h).2.2.2.1)]
  bounded := (of_firstMove h).2.2.2.2.1
  positive := (of_firstMove h).2.1
  available := (of_firstMove h).2.2.1
  unused i _ _ _ _ := by
    rw [List.getD_eq_getElem?_getD, List.getElem?_replicate]
    split_ifs <;> rfl

def Moves (d : List Combination) (nn : ℕ) (l : List Scheme) (g : Globals) : Prop :=
  g.itemchange = .list [] ∧ ∃ new, g.schemelist = l ++ new ∧ ∀ s ∈ new, ∃ v a j g,
    SoundMove d nn v a j g ∧ s = (5, text (terms (tlist d) v ++ [[a.n, a.m, j, g]]))

variable {l : List Scheme}

theorem spec_append (h : firstMove d nn = some (a, j)) (k : ℕ) :
    Spec (Moves d nn l) (append (moveScheme nn (zeros d k) a j)) fun _ => True := by
  apply Spec.modify
  rintro g ⟨hg, new, hnew, hsound⟩
  refine ⟨hg, new ++ [moveScheme nn (zeros d k) a j], by simp [hnew], ?_⟩
  intro s hs
  rcases List.mem_append.1 hs with hs | hs
  · exact hsound s hs
  · exact ⟨_, a, j, nn / j, soundMove_zeros h k, List.mem_singleton.1 hs⟩

theorem spec_combnmnm (hd : d = pre ++ as) :
    Spec (Moves d nn l) (combnmnm d nn flag as b (text (zeros d pre.length))) fun _ => True := by
  induction as generalizing pre b with
  | nil => exact Spec.pure trivial
  | cons a as ih =>
    refine Spec.bind (spec_item b 0) fun b0 _ =>
      Spec.bind (Spec.loop_state fun _ i _ => ?_) fun _ _ => Spec.pure trivial
    cases i with
    | zero =>
      refine Spec.congr (fun g hg => combnmnmRound_zeros nn hd _ hg.1) ?_
      cases hmove : firstMove d nn with
      | none =>
        have hd' : d = (pre ++ [a]) ++ as := by simpa using hd
        have hrest := ih (b := b.tail) hd'
        rw [List.length_append, List.length_singleton] at hrest
        exact Spec.bind hrest fun _ _ => Spec.pure trivial
      | some move => exact Spec.bind (spec_append hmove _) fun _ _ => Spec.pure trivial
    | succ i =>
      exact Spec.congr (fun g hg => combnmnmRound_gain nn i hd _ hg.1)
        (Spec.throw PyError.attributeError)

/-- All that `combnmnm` appends is sound, also what it appends before it raises. -/
theorem combnmnm_sound (d : List Combination) (nn flag : ℕ) (b : List ℕ) (l : List Scheme) :
    ∃ new, (final ((combnmnm d nn flag d b []).run ⟨l, .list []⟩)).schemelist = l ++ new ∧
      ∀ s ∈ new, ∃ v a j g, SoundMove d nn v a j g ∧
        s = (5, text (terms (tlist d) v ++ [[a.n, a.m, j, g]])) := by
  have hstart : Moves d nn l ⟨l, .list []⟩ := ⟨rfl, [], by simp, by simp⟩
  have hzeros : zeros d 0 = [] := by simp [zeros, terms]
  have hspec : Spec (Moves d nn l) (combnmnm d nn flag d b (text (zeros d 0))) fun _ => True :=
    spec_combnmnm (List.nil_append d).symm
  rw [hzeros] at hspec
  exact (hspec.final hstart).2

end MyScripts.CreateConfig
