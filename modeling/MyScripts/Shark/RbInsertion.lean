import MyScripts.Library.KeyedList
import MyScripts.Shark.RbTable
import Mathlib.Order.Compare

/-!
# Insertion into a table

The rotations and the colors leave the items in their order, so the item that is
inserted stands between those before and those after the way down to its place.
The loop carries a red node up until its parent is black.
-/
namespace MyScripts.Shark.Rb
open Library.RedBlack Library.KeyedList

variable {α κ : Type*} {cmp : α → Ordering} {t t' u : RbTree α} {s s' : List (Frame α)} {c : Color}
  {n : ℕ}

theorem descend_node (c : Color) (l r : RbTree α) (a : α) {x : RbTree α × List (Frame α)} :
    descend cmp (.node c l a r) s = some x ↔
      cmp a = .eq ∧ (.node c l a r, s) = x ∨
      cmp a = .lt ∧ s.length + 1 < rbMaxHeight ∧ descend cmp l (⟨c, a, false, r⟩ :: s) = some x ∨
      cmp a = .gt ∧ s.length + 1 < rbMaxHeight ∧ descend cmp r (⟨c, a, true, l⟩ :: s) = some x := by
  rw [descend]
  cases cmp a with
  | eq => simp
  | lt => simp [Option.bind_eq_some_iff, push_eq_some, and_assoc]
  | gt => simp [Option.bind_eq_some_iff, push_eq_some, and_assoc]

/-- The rule of the way down: what a step to either side keeps holds where it ends. -/
theorem descend_induction {P : RbTree α → List (Frame α) → Prop}
    (hleft : ∀ c l a r s, cmp a = .lt → P (.node c l a r) s → P l (⟨c, a, false, r⟩ :: s))
    (hright : ∀ c l a r s, cmp a = .gt → P (.node c l a r) s → P r (⟨c, a, true, l⟩ :: s))
    (h : P t s) (hd : descend cmp t s = some (t', s')) : P t' s' := by
  induction t generalizing s with
  | nil =>
    cases hd
    exact h
  | node c l a r ihl ihr =>
    rcases (descend_node c l r a).1 hd with ⟨-, heq⟩ | ⟨hlt, -, hl⟩ | ⟨hgt, -, hr⟩
    · cases heq
      exact h
    · exact ihl (hleft c l a r s hlt h) hl
    · exact ihr (hright c l a r s hgt h) hr

theorem descend_plug (hd : descend cmp t s = some (t', s')) : plug s' t' = plug s t :=
  descend_induction (P := fun t' s' => plug s' t' = plug s t) (fun _ _ _ _ _ _ h => h)
    (fun _ _ _ _ _ _ h => h) rfl hd

theorem descend_end (hd : descend cmp t s = some (t', s')) :
    t' = .nil ∨ ∃ c l a r, t' = .node c l a r ∧ cmp a = .eq := by
  induction t generalizing s with
  | nil =>
    cases hd
    exact Or.inl rfl
  | node c l a r ihl ihr =>
    rcases (descend_node c l r a).1 hd with ⟨heq, hx⟩ | ⟨-, -, hl⟩ | ⟨-, -, hr⟩
    · cases hx
      exact Or.inr ⟨c, l, a, r, rfl, heq⟩
    · exact ihl hl
    · exact ihr hr

theorem descend_exists (cmp : α → Ordering) (h : s.length + t.height < rbMaxHeight) :
    ∃ x, descend cmp t s = some x := by
  induction t generalizing s with
  | nil => exact ⟨_, rfl⟩
  | node c l a r ihl ihr =>
    rw [RbTree.height] at h
    have hpush : s.length + 1 < rbMaxHeight := by omega
    cases ha : cmp a with
    | eq => exact ⟨_, (descend_node c l r a).2 (Or.inl ⟨ha, rfl⟩)⟩
    | lt =>
      obtain ⟨x, hx⟩ := ihl (s := ⟨c, a, false, r⟩ :: s) (by rw [List.length_cons]; omega)
      exact ⟨x, (descend_node c l r a).2 (Or.inr (Or.inl ⟨ha, hpush, hx⟩))⟩
    | gt =>
      obtain ⟨x, hx⟩ := ihr (s := ⟨c, a, true, l⟩ :: s) (by rw [List.length_cons]; omega)
      exact ⟨x, (descend_node c l r a).2 (Or.inr (Or.inr ⟨ha, hpush, hx⟩))⟩

theorem descend_length (hd : descend cmp t s = some (t', s')) :
    s'.length + t'.height ≤ s.length + t.height := by
  refine descend_induction (P := fun t' s' => s'.length + t'.height ≤ s.length + t.height)
    (fun c l a r s' _ h => ?_) (fun c l a r s' _ h => ?_) (Nat.le_refl _) hd
  · rw [RbTree.height] at h
    rw [List.length_cons]
    omega
  · rw [RbTree.height] at h
    rw [List.length_cons]
    omega

theorem descend_fits (ht : RbTree.Balanced c n t) (hs : Fits s c n)
    (hd : descend cmp t s = some (t', s')) :
    ∃ c' n', RbTree.Balanced c' n' t' ∧ Fits s' c' n' := by
  refine descend_induction (P := fun t s => ∃ c n, RbTree.Balanced c n t ∧ Fits s c n) ?_ ?_
    ⟨c, n, ht, hs⟩ hd
  · rintro c l a r s - ⟨c', n, ht, hs⟩
    cases ht with
    | red hl hr => exact ⟨_, _, hl, .red rfl hr hs⟩
    | black hl hr => exact ⟨_, _, hl, .black rfl hr hs⟩
  · rintro c l a r s - ⟨c', n, ht, hs⟩
    cases ht with
    | red hl hr => exact ⟨_, _, hr, .red rfl hl hs⟩
    | black hl hr => exact ⟨_, _, hr, .black rfl hl hs⟩

section Key

variable [LinearOrder κ] {key : α → κ} {k : κ} {a : α}

def compareKey (key : α → κ) (k : κ) (a : α) : Ordering := compare k (key a)

theorem compareKey_eq : compareKey key k a = .eq ↔ key a = k :=
  compare_eq_iff_eq.trans eq_comm

theorem descend_apart (hd : descend (compareKey key k) t s = some (t', s'))
    (hsorted : Sorted key (plug s t).toList) (hs : Apart key k (before s) (after s)) :
    Apart key k (before s') (after s') := by
  refine (descend_induction
    (P := fun t s => Sorted key (plug s t).toList ∧ Apart key k (before s) (after s))
    ?_ ?_ ⟨hsorted, hs⟩ hd).2
  · rintro c l a r s hcmp ⟨hsorted, hb, he⟩
    have ha : k < key a := compare_lt_iff_lt.1 hcmp
    have hr : ∀ b ∈ r.toList, key a < key b := by
      rw [toList_plug, RbTree.toList_node] at hsorted
      have hnode := (List.pairwise_append.1 (List.pairwise_append.1 hsorted).1).2.1
      exact (List.pairwise_cons.1 (List.pairwise_append.1 hnode).2.1).1
    refine ⟨hsorted, ?_, ?_⟩
    · rw [before_cons]
      exact fun b hmem => hb b (by simpa [Frame.before] using hmem)
    · intro b hmem
      rw [after_cons, Frame.after, List.cons_append, List.mem_cons, List.mem_append] at hmem
      rcases hmem with rfl | hmem | hmem
      · exact ha
      · exact ha.trans (hr b hmem)
      · exact he b hmem
  · rintro c l a r s hcmp ⟨hsorted, hb, he⟩
    have ha : key a < k := compare_gt_iff_gt.1 hcmp
    have hl : ∀ b ∈ l.toList, key b < key a := by
      rw [toList_plug, RbTree.toList_node] at hsorted
      have hnode := (List.pairwise_append.1 (List.pairwise_append.1 hsorted).1).2.1
      exact fun b hmem => (List.pairwise_append.1 hnode).2.2 b hmem a List.mem_cons_self
    refine ⟨hsorted, ?_, ?_⟩
    · intro b hmem
      rw [before_cons, Frame.before, List.mem_append, List.mem_append, List.mem_singleton] at hmem
      rcases hmem with hmem | hmem | rfl
      · exact hb b hmem
      · exact (hl b hmem).trans ha
      · exact ha
    · rw [after_cons]
      exact fun b hmem => he b (by simpa [Frame.after] using hmem)

theorem rbFind_eq (h : Sorted key t.toList) (k : κ) :
    rbFind (compareKey key k) t = lookup key t.toList k := by
  induction t with
  | nil => rfl
  | node c l a r ihl ihr =>
    obtain ⟨hl, har, hla⟩ := List.pairwise_append.1 h
    obtain ⟨hsplit, hr⟩ := List.pairwise_cons.1 har
    have hapart : Apart key (key a) l.toList r.toList := Sorted.apart h
    rw [RbTree.toList_node, lookup_insert hapart, rbFind]
    cases hcmp : compareKey key k a with
    | lt =>
      have hk : k < key a := compare_lt_iff_lt.1 hcmp
      have hnone : lookup key r.toList k = none :=
        lookup_eq_none.2 fun b hb => ne_of_gt (hk.trans (hsplit b hb))
      rw [Function.update_of_ne (ne_of_lt hk)]
      simp only [ihl hl, lookup, List.find?_append] at hnone ⊢
      rw [hnone, Option.or_none]
    | gt =>
      have hk : key a < k := compare_gt_iff_gt.1 hcmp
      have hnone : lookup key l.toList k = none :=
        lookup_eq_none.2 fun b hb => ne_of_lt ((hapart.1 b hb).trans hk)
      rw [Function.update_of_ne (ne_of_gt hk)]
      simp only [ihr hr, lookup, List.find?_append] at hnone ⊢
      rw [hnone, Option.none_or]
    | eq =>
      rw [compareKey_eq.1 hcmp, Function.update_self]

end Key

theorem black_of_not_red (h : RbTree.Balanced c n t) (hne : ∀ l a r, t = .node .red l a r → False) :
    RbTree.Balanced .black n t := by
  cases h with
  | nil => exact .nil
  | red hl hr => exact (hne _ _ _ rfl).elim
  | black hl hr => exact .black hl hr

theorem probeRotations_spec {p g : Frame α} (hp : p.color = .red) (ht : RbTree.Balanced .red n t)
    (hpo : RbTree.Balanced .black n p.other) (hgo : RbTree.Balanced .black n g.other) :
    ∃ u, probeRotations p g t = some u ∧ RbTree.Balanced .black (n + 1) u ∧
      u.toList = (g.fill (p.fill t)).toList := by
  obtain ⟨pc, pa, pdir, po⟩ := p
  obtain ⟨gc, ga, gdir, go⟩ := g
  cases hp
  cases ht with
  | red hl hr =>
    cases pdir with
    | false =>
      cases gdir with
      | false => exact ⟨_, rfl, .black (.red hl hr) (.red hpo hgo), by simp [Frame.fill]⟩
      | true => exact ⟨_, rfl, .black (.red hgo hl) (.red hr hpo), by simp [Frame.fill]⟩
    | true =>
      cases gdir with
      | false => exact ⟨_, rfl, .black (.red hpo hl) (.red hr hgo), by simp [Frame.fill]⟩
      | true => exact ⟨_, rfl, .black (.red hgo hpo) (.red hl hr), by simp [Frame.fill]⟩

theorem toList_plug_congr (s : List (Frame α)) (h : t.toList = u.toList) :
    (plug s t).toList = (plug s u).toList := by
  rw [toList_plug, toList_plug, h]

theorem probeLoop_spec (ht : RbTree.Balanced .red n t) (hs : Fits s .black n) :
    ∃ u c m, probeLoop s t = some u ∧ RbTree.Balanced c m u ∧ u.toList = (plug s t).toList := by
  induction s, t using probeLoop.induct generalizing n with
  | case1 p g s t hp l y r hother ih =>
    cases hs with
    | black hblack => rw [hp] at hblack; cases hblack
    | red _ hpo hg =>
      cases hg with
      | @black _ _ _ c' _ hgc hgo hs =>
        rw [hother] at hgo
        cases hgo with
        | red hl hr =>
          have hparent : RbTree.Balanced .black (n + 1) ({ p with color := .black }.fill t) :=
            balanced_fill_black rfl hpo ht
          obtain ⟨u, c, m, hu, hbal, hlist⟩ := ih (balanced_fill_red rfl (.black hl hr) hparent) hs
          refine ⟨u, c, m, ?_, hbal, hlist.trans (toList_plug_congr s ?_)⟩
          · rw [probeLoop, if_pos hp]
            simp only [hother]
            exact hu
          · simp only [Frame.toList_fill, Frame.before, Frame.after, hother, RbTree.toList_node]
  | case2 p g s t hp hother =>
    cases hs with
    | black hblack => rw [hp] at hblack; cases hblack
    | red _ hpo hg =>
      cases hg with
      | black hgc hgo hs =>
        obtain ⟨u, hu, hbal, hlist⟩ := probeRotations_spec hp ht hpo (black_of_not_red hgo hother)
        obtain ⟨m, hm⟩ := hs.plug hbal
        refine ⟨_, _, m, ?_, hm, toList_plug_congr s hlist⟩
        rw [probeLoop, if_pos hp, hu]
        split
        · next l y r heq => exact (hother l y r heq).elim
        · rfl
  | case3 p g s t hp =>
    cases hs with
    | red hred => exact absurd hred hp
    | black hc hpo hg =>
      obtain ⟨m, hm⟩ := hg.plug (balanced_fill_black hc hpo ht)
      exact ⟨_, _, m, by rw [probeLoop, if_neg hp]; rfl, hm, rfl⟩
  | case4 s t hshort =>
    cases hs with
    | root => exact ⟨_, _, _, rfl, ht, rfl⟩
    | red hc hpo hg =>
      cases hg with
      | black => exact (hshort _ _ _ rfl).elim
    | @black f s _ _ _ hc hpo hg =>
      cases s with
      | nil =>
        obtain ⟨m, hm⟩ := hg.plug (balanced_fill_black hc hpo ht)
        exact ⟨_, _, m, rfl, hm, rfl⟩
      | cons g s => exact (hshort _ _ _ rfl).elim

theorem paint_black (h : RbTree.Balanced c n t) (hne : t.toList ≠ []) :
    ∃ u m, paint .black t = some u ∧ RbTree.Balanced .black m u ∧ u.toList = t.toList := by
  cases h with
  | nil => exact absurd rfl hne
  | red hl hr => exact ⟨_, _, rfl, .black hl hr, rfl⟩
  | black hl hr => exact ⟨_, _, rfl, .black hl hr, rfl⟩

section Key

variable [LinearOrder κ] {key : α → κ} {k : κ} {a x : α} {table : RbTable α}

def RbTable.items (table : RbTable α) : List α := table.root.toList

def RbTable.find (table : RbTable α) (key : α → κ) (k : κ) : Option α :=
  rbFind (compareKey key k) table.root

structure Valid (key : α → κ) (table : RbTable α) : Prop where
  sorted : Sorted key table.items
  balanced : ∃ n, RbTree.Balanced .black n table.root
  count : table.count.toNat = table.items.length
  size : table.items.length + 1 < 2 ^ 64

theorem valid_rbCreate (key : α → κ) : Valid key (rbCreate : RbTable α) where
  sorted := List.Pairwise.nil
  balanced := ⟨0, .nil⟩
  count := rfl
  size := show 0 + 1 < 2 ^ 64 by decide

theorem Valid.find_eq (h : Valid key table) : table.find key = lookup key table.items :=
  funext (rbFind_eq h.sorted)

theorem Valid.height_le (h : Valid key table) : table.root.height ≤ 126 := by
  obtain ⟨n, hn⟩ := h.balanced
  exact hn.height_le_of_length (m := 63) h.size

theorem Valid.descend (h : Valid key table) (k : κ) :
    ∃ t s, Rb.descend (compareKey key k) table.root [] = some (t, s) := by
  have hheight := h.height_le
  obtain ⟨⟨t, s⟩, hd⟩ := descend_exists (s := []) (t := table.root) (compareKey key k)
    (by rw [rbMaxHeight, List.length_nil]; omega)
  exact ⟨t, s, hd⟩

theorem descend_items (hd : Rb.descend cmp table.root [] = some (t, s)) :
    table.items = before s ++ t.toList ++ after s := by
  rw [← toList_plug, descend_plug hd]
  rfl

theorem Valid.descend_node {l r : RbTree α} (h : Valid key table)
    (hd : Rb.descend (compareKey key k) table.root [] = some (.node c l a r, s)) :
    table.find key k = some a := by
  have hkey : key a = k := by
    rcases descend_end hd with hnil | ⟨_, _, _, _, hnode, heq⟩
    · cases hnil
    · cases hnode
      exact compareKey_eq.1 heq
  have hmem : a ∈ table.items := by
    rw [descend_items hd]
    simp
  rw [h.find_eq, h.sorted.lookup_eq_some]
  exact ⟨hmem, hkey⟩

theorem Valid.descend_nil (h : Valid key table)
    (hd : Rb.descend (compareKey key k) table.root [] = some (.nil, s)) :
    Apart key k (before s) (after s) ∧ table.items = before s ++ after s := by
  refine ⟨descend_apart hd h.sorted ⟨by simp, by simp⟩, ?_⟩
  rw [descend_items hd, RbTree.toList_nil, List.append_nil]

theorem Valid.rbProbe_of_some (h : Valid key table) (hf : table.find key (key x) = some a)
    (malloc : Bool) :
    rbProbe (compareKey key (key x)) table x malloc = some (some a, table) := by
  obtain ⟨t, s, hd⟩ := h.descend (key x)
  rw [rbProbe, hd]
  cases t with
  | nil =>
    obtain ⟨hapart, hitems⟩ := h.descend_nil hd
    rw [h.find_eq, hitems, hapart.lookup_eq_none] at hf
    cases hf
  | node c l b r =>
    rw [h.descend_node hd] at hf
    cases hf
    rfl

theorem Valid.rbProbe_of_none (h : Valid key table) (hf : table.find key (key x) = none)
    (hsize : table.items.length + 2 < 2 ^ 64) :
    ∃ u, rbProbe (compareKey key (key x)) table x true = some (some x, u) ∧ Valid key u ∧
      u.items.length = table.items.length + 1 ∧
      u.find key = Function.update (table.find key) (key x) (some x) := by
  obtain ⟨t, s, hd⟩ := h.descend (key x)
  cases t with
  | node c l b r =>
    rw [h.descend_node hd] at hf
    cases hf
  | nil =>
    obtain ⟨hapart, hitems⟩ := h.descend_nil hd
    obtain ⟨n, hn⟩ := h.balanced
    obtain ⟨c, m, hbal, hfits⟩ := descend_fits hn .root hd
    cases hbal
    obtain ⟨v, c, m, hloop, hv, hlist⟩ :=
      probeLoop_spec (t := .node .red .nil x .nil) (.red .nil .nil) hfits
    have hlist' : v.toList = before s ++ x :: after s := by rw [hlist, toList_plug]; simp
    obtain ⟨w, m, hpaint, hw, hwlist⟩ := paint_black hv (by rw [hlist']; simp)
    have hlength : w.toList.length = table.items.length + 1 := by
      rw [hwlist, hlist', hitems]
      simp only [List.length_append, List.length_cons]
      omega
    have hvalid : Valid key ⟨w, table.count + 1, table.generation + 1⟩ := by
      refine ⟨?_, ⟨m, hw⟩, ?_, ?_⟩
      · have hsorted := h.sorted
        rw [hitems] at hsorted
        rw [RbTable.items, hwlist, hlist']
        exact hsorted.insert hapart
      · have hcount := h.count
        rw [RbTable.items, hlength, UInt64.toNat_add, hcount]
        exact Nat.mod_eq_of_lt (by simp only [UInt64.toNat_one]; omega)
      · rw [RbTable.items, hlength]
        exact hsize
    refine ⟨⟨w, table.count + 1, table.generation + 1⟩, ?_, hvalid, hlength, ?_⟩
    · rw [rbProbe, hd]
      simp only [Option.bind_eq_bind, Option.bind_some, hloop, hpaint, if_true]
    · rw [hvalid.find_eq, h.find_eq, hitems, RbTable.items, hwlist, hlist', lookup_insert hapart]

end Key

end MyScripts.Shark.Rb
