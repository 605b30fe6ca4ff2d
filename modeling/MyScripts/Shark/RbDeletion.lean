import MyScripts.Shark.RbInsertion

/-!
# Deletion from a table

The successor takes the place of an item with a right subtree, so the node that
is unlinked has one child at most. Where it was black, the loop goes up with the
subtree that is one black node short until it finds a node to make black.
-/
namespace MyScripts.Shark.Rb
open Library.RedBlack Library.KeyedList

variable {α κ : Type*} {cmp : α → Ordering} {t x u : RbTree α} {s s' : List (Frame α)}
  {f : Frame α} {c lost : Color} {a b : α} {n : ℕ}

theorem successor_spec {base : ℕ} {p : List (Frame α)} (ht : RbTree.Balanced c n t)
    (hne : t ≠ .nil) (hs : Fits (s ++ p) c n) (hroom : base + s.length + t.height ≤ rbMaxHeight) :
    ∃ lost b x s' c' n', successor base t s = some (lost, b, x, s') ∧
      plug s' (.node lost .nil b x) = plug s t ∧
      RbTree.Balanced c' n' (.node lost .nil b x) ∧ Fits (s' ++ p) c' n' ∧
      s'.length + x.height + 1 ≤ s.length + t.height ∧
      ((∀ f ∈ s, f.dir = false) → ∀ f ∈ s', f.dir = false) := by
  induction t generalizing s c n with
  | nil => exact absurd rfl hne
  | node d l a r ihl ihr =>
    cases l with
    | nil =>
      refine ⟨d, a, r, s, c, n, by rw [successor], rfl, ht, hs, ?_, id⟩
      rw [RbTree.height, RbTree.height]
      omega
    | node e l' b' r' =>
      rw [RbTree.height] at hroom
      have hpos : 1 ≤ (RbTree.node e l' b' r').height := by
        rw [RbTree.height]
        omega
      obtain ⟨c', n', hl, hfits⟩ : ∃ c' n', RbTree.Balanced c' n' (.node e l' b' r') ∧
          Fits (⟨d, a, false, r⟩ :: (s ++ p)) c' n' := by
        cases ht with
        | red hl hr => exact ⟨_, _, hl, .red rfl hr hs⟩
        | black hl hr => exact ⟨_, _, hl, .black rfl hr hs⟩
      obtain ⟨lost, b, x, s', c', n', hsucc, hplug, hbal, hfits', hlen, hdir⟩ :=
        ihl (s := ⟨d, a, false, r⟩ :: s) hl (by simp) hfits (by rw [List.length_cons]; omega)
      refine ⟨lost, b, x, s', c', n', ?_, hplug, hbal, hfits', ?_, ?_⟩
      · rw [successor, if_pos (by omega)]
        · exact hsucc
        · simp
      · rw [List.length_cons] at hlen
        rw [RbTree.height]
        omega
      · exact fun h => hdir (List.forall_mem_cons.2 ⟨rfl, h⟩)

theorem unlink_spec {l r : RbTree α} (ht : RbTree.Balanced c n (.node c l a r)) (hs : Fits s c n)
    (hroom : s.length + (RbTree.node c l a r).height < rbMaxHeight) :
    ∃ x s' lost c' m, unlink c l a r s = some (x, s', lost) ∧ RbTree.Balanced c' m x ∧
      (lost = .red → c' = .black ∧ Fits s' .black m) ∧
      (lost = .black → Fits s' .black (m + 1)) ∧
      s'.length + x.height < s.length + (RbTree.node c l a r).height ∧
      before s' ++ x.toList ++ after s' = before s ++ l.toList ++ r.toList ++ after s := by
  rw [RbTree.height] at hroom ⊢
  cases r with
  | nil =>
    refine ⟨l, s, c, ?_⟩
    cases ht with
    | red hl hr =>
      refine ⟨_, _, rfl, hl, fun _ => ⟨rfl, hs.weaken⟩, by simp, ?_, by simp⟩
      omega
    | black hl hr =>
      refine ⟨_, _, rfl, hl, by simp, fun _ => hs.weaken, ?_, by simp⟩
      omega
  | node d l' e r' =>
    generalize hr : RbTree.node d l' e r' = r at *
    obtain ⟨c', n', hbal, hfits⟩ : ∃ c' n', RbTree.Balanced c' n' r ∧
        Fits (⟨c, a, true, l⟩ :: s) c' n' := by
      cases ht with
      | red hl hr => exact ⟨_, _, hr, .red rfl hl hs⟩
      | black hl hr => exact ⟨_, _, hr, .black rfl hl hs⟩
    have hpush : push ⟨c, a, true, l⟩ s = some (⟨c, a, true, l⟩ :: s) :=
      push_eq_some.2 ⟨by omega, rfl⟩
    have hroom' : s.length + 1 + ([] : List (Frame α)).length + r.height ≤ rbMaxHeight := by
      rw [List.length_nil]
      omega
    have hfits' : Fits ([] ++ ⟨c, a, true, l⟩ :: s) c' n' := hfits
    obtain ⟨lost, b, x, s', c', n', hsucc, hplug, hbal', hfits', hlen, hdir⟩ :=
      successor_spec hbal (by simp [← hr]) hfits' hroom'
    have hunlink : unlink c l a r s = some (x, s' ++ ⟨c, b, true, l⟩ :: s, lost) := by
      rw [← hr] at hsucc ⊢
      simp only [unlink, hpush, hsucc, Option.bind_eq_bind, Option.bind_some, List.length_cons]
    have hitems : r.toList = b :: x.toList ++ after s' := by
      have hlist := congrArg RbTree.toList hplug
      rw [toList_plug, before_eq_nil (hdir (by simp))] at hlist
      exact hlist.symm
    have hfits'' := hfits'.set_data b
    refine ⟨x, s' ++ ⟨c, b, true, l⟩ :: s, lost, ?_⟩
    have hlength : (s' ++ ⟨c, b, true, l⟩ :: s).length + x.height <
        s.length + (max l.height r.height + 1) := by
      simp only [List.length_append, List.length_cons, List.length_nil] at hlen ⊢
      omega
    have hlist : before (s' ++ ⟨c, b, true, l⟩ :: s) ++ x.toList ++
        after (s' ++ ⟨c, b, true, l⟩ :: s) = before s ++ l.toList ++ r.toList ++ after s := by
      rw [before_append, after_append, before_cons, after_cons, before_eq_nil (hdir (by simp)),
        hitems]
      simp [Frame.before, Frame.after]
    cases hbal' with
    | red hnil hx =>
      cases hnil
      exact ⟨_, _, hunlink, hx, fun _ => ⟨rfl, hfits''.weaken⟩, by simp, hlength, hlist⟩
    | black hnil hx =>
      cases hnil
      exact ⟨_, _, hunlink, hx, by simp, fun _ => hfits''.weaken, hlength, hlist⟩

theorem red_of_not_black (h : RbTree.Balanced c n t) (hb : isBlack t = false) :
    ∃ l a r, t = .node .red l a r ∧ RbTree.Balanced .black n l ∧ RbTree.Balanced .black n r := by
  cases h with
  | nil => cases hb
  | red hl hr => exact ⟨_, _, _, rfl, hl, hr⟩
  | black hl hr => cases hb

theorem balanced_root {l r : RbTree α} {m : ℕ} (c : Color) (hl : RbTree.Balanced .black m l)
    (hr : RbTree.Balanced .black m r) :
    RbTree.Balanced c (m + if c = .black then 1 else 0) (.node c l a r) := by
  cases c with
  | black => exact .black hl hr
  | red => exact .red hl hr

/-- The root of the rotated tree has the color that the frame had. -/
theorem deleteRotations_spec {l r : RbTree α} (hx : RbTree.Balanced .black n x)
    (hother : f.other = .node .black l a r) (ho : RbTree.Balanced .black (n + 1) f.other)
    (hred : ¬(isBlack l ∧ isBlack r)) :
    ∃ u, deleteRotations f x = some u ∧ u.toList = (f.fill x).toList ∧
      RbTree.Balanced f.color (n + 1 + if f.color = .black then 1 else 0) u := by
  obtain ⟨c, b, dir, o⟩ := f
  cases hother
  cases ho with
  | black hl hr =>
    cases dir with
    | false =>
      cases hfar : isBlack r with
      | false =>
        obtain ⟨rl, d, rr, rfl, hrl, hrr⟩ := red_of_not_black hr hfar
        exact ⟨_, rfl, by simp [Frame.fill], balanced_root c (.black hx hl) (.black hrl hrr)⟩
      | true =>
        obtain ⟨ll, d, lr, rfl, hll, hlr⟩ := red_of_not_black hl (by simpa [hfar] using hred)
        refine ⟨.node c (.node .black x b ll) d (.node .black lr a r), ?_, by simp [Frame.fill],
          balanced_root c (.black hx hll) (.black hlr hr)⟩
        simp [deleteRotations, link, hfar, onLink, paint, rotate, Frame.fill]
    | true =>
      cases hfar : isBlack l with
      | false =>
        obtain ⟨ll, d, lr, rfl, hll, hlr⟩ := red_of_not_black hl hfar
        exact ⟨_, rfl, by simp [Frame.fill], balanced_root c (.black hll hlr) (.black hr hx)⟩
      | true =>
        obtain ⟨rl, d, rr, rfl, hrl, hrr⟩ := red_of_not_black hr (by simpa [hfar] using hred)
        refine ⟨.node c (.node .black l a rl) d (.node .black rr b x), ?_, by simp [Frame.fill],
          balanced_root c (.black hl hrl) (.black hrr hx)⟩
        simp [deleteRotations, link, hfar, onLink, paint, rotate, Frame.fill]

/-- `x` is a black node short below a place for `n + 1`, or it is red and can make up for it. -/
def Short (n : ℕ) (x : RbTree α) : Prop :=
  RbTree.Balanced .black n x ∧ isBlack x ∨
    isBlack x = false ∧ ∃ u, paint .black x = some u ∧ RbTree.Balanced .black (n + 1) u

theorem short_of_balanced (h : RbTree.Balanced c n x) : Short n x := by
  cases h with
  | nil => exact Or.inl ⟨.nil, rfl⟩
  | red hl hr => exact Or.inr ⟨rfl, _, rfl, .black hl hr⟩
  | black hl hr => exact Or.inl ⟨.black hl hr, rfl⟩

theorem toList_paint (h : paint c x = some u) : u.toList = x.toList := by
  cases x with
  | nil => cases h
  | node d l a r =>
    cases h
    rfl

theorem deleteLoop_red (hb : isBlack x = false) (hp : paint .black x = some u)
    (hu : RbTree.Balanced .black (n + 1) u) (hs : Fits s .black (n + 1)) :
    ∃ v m, deleteLoop x s = some v ∧ RbTree.Balanced .black m v ∧
      v.toList = (plug s x).toList := by
  obtain ⟨m, hm⟩ := hs.plug hu
  refine ⟨_, m, ?_, hm, toList_plug_congr s (toList_paint hp)⟩
  rw [deleteLoop.eq_def, dif_neg (by simp [hb]), hp]
  rfl

theorem deleteLoop_cons {d : Color} {l r : RbTree α} {f' : Frame α} (hb : isBlack x)
    (hlift : liftSibling f s = some (f', s')) (hother : f'.other = .node d l a r) :
    deleteLoop x (f :: s) =
      if isBlack l ∧ isBlack r then
        deleteLoop ({ f' with other := .node .red l a r }.fill x) s'
      else (deleteRotations f' x).map (plug s') := by
  rw [deleteLoop.eq_def, dif_pos hb]
  simp only
  split
  · next hnone => rw [hlift] at hnone; cases hnone
  · next g p hsome =>
    rw [hlift] at hsome
    cases hsome
    simp only [hother]

theorem black_node (h : RbTree.Balanced .black (n + 1) t) :
    ∃ l a r c c', t = .node .black l a r ∧ RbTree.Balanced c n l ∧ RbTree.Balanced c' n r := by
  cases h with
  | black hl hr => exact ⟨_, _, _, _, _, rfl, hl, hr⟩

theorem balanced_of_isBlack (h : RbTree.Balanced c n t) (hb : isBlack t) :
    RbTree.Balanced .black n t := by
  apply black_of_not_red h
  rintro l a r rfl
  cases hb

theorem toList_fill_other (f : Frame α) {o : RbTree α} (h : o.toList = f.other.toList) :
    ({ f with other := o }.fill x).toList = (f.fill x).toList := by
  simp only [Frame.toList_fill, Frame.before, Frame.after, h]

theorem deleteLoop_red_frame {f' : Frame α} (hx : RbTree.Balanced .black n x) (hb : isBlack x)
    (hlift : liftSibling f s = some (f', s')) (hred : f'.color = .red)
    (ho : RbTree.Balanced .black (n + 1) f'.other) (hs : Fits s' .red (n + 1)) :
    ∃ v m, deleteLoop x (f :: s) = some v ∧ RbTree.Balanced .black m v ∧
      v.toList = (plug s' (f'.fill x)).toList := by
  obtain ⟨l, a, r, cl, cr, hother, hl, hr⟩ := black_node ho
  rw [deleteLoop_cons hb hlift hother]
  split_ifs with hblack
  · have hsibling : RbTree.Balanced .red n (.node .red l a r) :=
      .red (balanced_of_isBlack hl hblack.1) (balanced_of_isBlack hr hblack.2)
    have hpaint : paint .black ({ f' with other := .node .red l a r }.fill x) =
        some ({ f' with color := .black, other := .node .red l a r }.fill x) := by
      obtain ⟨_, _, dir, _⟩ := f'
      cases dir with
      | false => rfl
      | true => rfl
    have hroot : isBlack ({ f' with other := .node .red l a r }.fill x) = false :=
      isBlack_fill _ x hred
    have hbal : RbTree.Balanced .black (n + 1)
        ({ f' with color := .black, other := .node .red l a r }.fill x) :=
      balanced_fill_black rfl hsibling hx
    obtain ⟨v, m, hv, hm, hlist⟩ := deleteLoop_red hroot hpaint hbal hs.weaken
    refine ⟨v, m, hv, hm, hlist.trans (toList_plug_congr s' (toList_fill_other f' ?_))⟩
    rw [hother]
    rfl
  · obtain ⟨u, hu, hlist, hbal⟩ := deleteRotations_spec hx hother ho hblack
    rw [hred] at hbal
    obtain ⟨m, hm⟩ := hs.plug hbal
    exact ⟨_, m, by rw [hu]; rfl, hm, toList_plug_congr s' hlist⟩

theorem liftSibling_red {l r : RbTree α} (hother : f.other = .node .red l a r)
    (hl : RbTree.Balanced .black n l) (hr : RbTree.Balanced .black n r)
    (hs : Fits s .black (n + 1)) (hroom : s.length + 2 < rbMaxHeight) :
    ∃ f' s', liftSibling f s = some (f', s') ∧ f'.color = .red ∧
      RbTree.Balanced .black n f'.other ∧ Fits s' .red n ∧
      (plug s' (f'.fill x)).toList = (plug s (f.fill x)).toList := by
  obtain ⟨c, b, dir, o⟩ := f
  cases hother
  cases dir with
  | false =>
    have hpush : push ⟨.red, b, false, l⟩ (⟨.black, a, false, r⟩ :: s) =
        some (⟨.red, b, false, l⟩ :: ⟨.black, a, false, r⟩ :: s) := push_eq_some.2 ⟨hroom, rfl⟩
    refine ⟨⟨.red, b, false, l⟩, ⟨.black, a, false, r⟩ :: s, ?_, rfl, hl, .black rfl hr hs, ?_⟩
    · simp [liftSibling, link, hpush]
    · exact toList_plug_congr s (by simp [Frame.fill])
  | true =>
    have hpush : push ⟨.red, b, true, r⟩ (⟨.black, a, true, l⟩ :: s) =
        some (⟨.red, b, true, r⟩ :: ⟨.black, a, true, l⟩ :: s) := push_eq_some.2 ⟨hroom, rfl⟩
    refine ⟨⟨.red, b, true, r⟩, ⟨.black, a, true, l⟩ :: s, ?_, rfl, hr, .black rfl hl hs, ?_⟩
    · simp [liftSibling, link, hpush]
    · exact toList_plug_congr s (by simp [Frame.fill])

/-- The loop mends the tree. -/
theorem deleteLoop_spec (hx : Short n x) (hs : Fits s .black (n + 1))
    (hroom : s.length + 1 < rbMaxHeight) :
    ∃ v m, deleteLoop x s = some v ∧ RbTree.Balanced .black m v ∧
      v.toList = (plug s x).toList := by
  induction s generalizing x n with
  | nil =>
    rcases hx with ⟨hx, hb⟩ | ⟨hb, u, hp, hu⟩
    · exact ⟨x, n, by rw [deleteLoop.eq_def, dif_pos hb], hx, rfl⟩
    · exact deleteLoop_red hb hp hu hs
  | cons f s ih =>
    rcases hx with ⟨hx, hb⟩ | ⟨hb, u, hp, hu⟩
    · cases hs with
      | red hred ho hs =>
        obtain ⟨l, a, r, cl, cr, hother, hl, hr⟩ := black_node ho
        have hlift : liftSibling f s = some (f, s) := by rw [liftSibling, hother]
        exact deleteLoop_red_frame hx hb hlift hred ho hs
      | @black _ _ _ c' _ hblack ho hs =>
        cases hsib : isBlack f.other with
        | true =>
          have ho' := balanced_of_isBlack ho hsib
          obtain ⟨l, a, r, cl, cr, hother, hl, hr⟩ := black_node ho'
          have hlift : liftSibling f s = some (f, s) := by rw [liftSibling, hother]
          rw [deleteLoop_cons hb hlift hother]
          split_ifs with hnephews
          · have hbal :
                RbTree.Balanced .black (n + 1) ({ f with other := .node .red l a r }.fill x) :=
              balanced_fill_black hblack (.red (balanced_of_isBlack hl hnephews.1)
                (balanced_of_isBlack hr hnephews.2)) hx
            obtain ⟨v, m, hv, hm, hlist⟩ := ih (short_of_balanced hbal) hs
              (by rw [List.length_cons] at hroom; omega)
            refine ⟨v, m, hv, hm, hlist.trans (toList_plug_congr s (toList_fill_other f ?_))⟩
            rw [hother]
            rfl
          · obtain ⟨u, hu, hlist, hbal⟩ := deleteRotations_spec hx hother ho' hnephews
            rw [hblack] at hbal
            obtain ⟨m, hm⟩ := hs.plug hbal
            exact ⟨_, m, by rw [hu]; rfl, hm, toList_plug_congr s hlist⟩
        | false =>
          obtain ⟨l, w, r, hother, hl, hr⟩ := red_of_not_black ho hsib
          obtain ⟨f', s', hlift, hred, ho', hs', hlist'⟩ :=
            liftSibling_red (x := x) hother hl hr hs (by rw [List.length_cons] at hroom; omega)
          obtain ⟨v, m, hv, hm, hlist⟩ := deleteLoop_red_frame hx hb hlift hred ho' hs'
          exact ⟨v, m, hv, hm, hlist.trans hlist'⟩
    · exact deleteLoop_red hb hp hu hs

section Key

variable [LinearOrder κ] {key : α → κ} {k : κ} {table : RbTable α}

theorem Valid.rbDelete_of_none (h : Valid key table) (hf : table.find key k = none) :
    rbDelete (compareKey key k) table = some (none, table) := by
  obtain ⟨t, s, hd⟩ := h.descend k
  rw [rbDelete, hd]
  cases t with
  | nil => rfl
  | node c l b r =>
    rw [h.descend_node hd] at hf
    cases hf

theorem Valid.rbDelete_of_some (h : Valid key table) (hf : table.find key k = some a) :
    ∃ u, rbDelete (compareKey key k) table = some (some a, u) ∧ Valid key u ∧
      u.items.length + 1 = table.items.length ∧
      u.find key = Function.update (table.find key) k none := by
  obtain ⟨t, s, hd⟩ := h.descend k
  cases t with
  | nil =>
    obtain ⟨hapart, hitems⟩ := h.descend_nil hd
    rw [h.find_eq, hitems, hapart.lookup_eq_none] at hf
    cases hf
  | node c l b r =>
    have hfind := h.descend_node hd
    rw [hfind] at hf
    cases hf
    have hkey : key a = k := by
      rw [h.find_eq] at hfind
      exact (mem_of_lookup hfind).2
    obtain ⟨n, hn⟩ := h.balanced
    have hheight := h.height_le
    have hlength := descend_length hd
    obtain ⟨c', n', hbal, hfits⟩ := descend_fits hn .root hd
    obtain rfl : c' = c := by
      cases hbal with
      | red => rfl
      | black => rfl
    have hroom : s.length + (RbTree.node c' l a r).height < rbMaxHeight := by
      rw [rbMaxHeight]
      simp only [List.length_nil] at hlength
      omega
    obtain ⟨x, s', lost, c'', m, hunlink, hx, hred, hblack, hlen, hitems⟩ :=
      unlink_spec hbal hfits hroom
    obtain ⟨v, m, hv, hvbal, hvlist⟩ : ∃ v m, mend lost x s' = some v ∧
        RbTree.Balanced .black m v ∧ v.toList = (plug s' x).toList := by
      cases lost with
      | red =>
        obtain ⟨rfl, hfits'⟩ := hred rfl
        obtain ⟨m, hm⟩ := hfits'.plug hx
        exact ⟨_, m, rfl, hm, rfl⟩
      | black => exact deleteLoop_spec (short_of_balanced hx) (hblack rfl) (by omega)
    have hold : table.items = (before s ++ l.toList) ++ a :: (r.toList ++ after s) := by
      rw [descend_items hd]
      simp
    have hnew : v.toList = (before s ++ l.toList) ++ (r.toList ++ after s) := by
      rw [hvlist, toList_plug, hitems, List.append_assoc (before s ++ l.toList)]
    have hsorted := h.sorted
    rw [hold] at hsorted
    have hcnt : v.toList.length + 1 = table.items.length := by
      rw [hnew, hold]
      simp only [List.length_append, List.length_cons]
      omega
    have hvalid : Valid key ⟨v, table.count - 1, table.generation + 1⟩ := by
      refine ⟨?_, ⟨m, hvbal⟩, ?_, ?_⟩
      · rw [RbTable.items, hnew]
        exact hsorted.erase
      · have hcount := h.count
        have hle : (1 : UInt64) ≤ table.count := by
          rw [UInt64.le_iff_toNat_le, hcount, UInt64.toNat_one]
          omega
        change (table.count - 1).toNat = v.toList.length
        rw [UInt64.toNat_sub_of_le _ _ hle, hcount, UInt64.toNat_one, ← hcnt, Nat.add_sub_cancel]
      · have hsize := h.size
        change v.toList.length + 1 < 2 ^ 64
        omega
    refine ⟨_, ?_, hvalid, hcnt, ?_⟩
    · rw [rbDelete, hd]
      simp only [Option.bind_eq_bind, Option.bind_some, hunlink, hv]
    · rw [hvalid.find_eq, h.find_eq, RbTable.items, hnew, hold, hsorted.lookup_erase, hkey]

end Key

end MyScripts.Shark.Rb
