import MyScripts.Library.RedBlackTree

/-!
# The table of `rb.c`

`rb_probe` and `rb_delete` go down from the root with the nodes and the
directions in the arrays `pa` and `da`, change the tree at the place they come
to and go up again to mend the colors. The arrays from index 1 on are a list of
frames here, the last one first; index 0 stands for `tree->rb_root`. `none` is a
null pointer that is read or an index outside the arrays.
-/
namespace MyScripts.Shark.Rb
open Library.RedBlack

variable {α : Type*}

def rbMaxHeight : ℕ := 128

structure RbTable (α : Type*) where
  root : RbTree α
  count : UInt64
  generation : UInt64

def rbCreate : RbTable α := ⟨.nil, 0, 0⟩

/-! `cmp a` is the sign of `tree->rb_compare (item, a, tree->rb_param)`. -/

def rbFind (cmp : α → Ordering) : RbTree α → Option α
  | .nil => none
  | .node _ l a r =>
    match cmp a with
    | .lt => rbFind cmp l
    | .gt => rbFind cmp r
    | .eq => some a

def push (f : Frame α) (s : List (Frame α)) : Option (List (Frame α)) :=
  if s.length + 1 < rbMaxHeight then some (f :: s) else none

theorem push_eq_some {f : Frame α} {s s' : List (Frame α)} :
    push f s = some s' ↔ s.length + 1 < rbMaxHeight ∧ f :: s = s' := by
  unfold push
  split_ifs with h
  · simp [h]
  · simp [h]

/-- The way down to a matching item, or to the null pointer where it would be. -/
def descend (cmp : α → Ordering) : RbTree α → List (Frame α) → Option (RbTree α × List (Frame α))
  | .nil, s => some (.nil, s)
  | .node c l a r, s =>
    match cmp a with
    | .eq => some (.node c l a r, s)
    | .lt => (push ⟨c, a, false, r⟩ s).bind fun s => descend cmp l s
    | .gt => (push ⟨c, a, true, l⟩ s).bind fun s => descend cmp r s

def paint (c : Color) : RbTree α → Option (RbTree α)
  | .nil => none
  | .node _ l a r => some (.node c l a r)

def rotate : Bool → RbTree α → Option (RbTree α)
  | false, .node cx (.node cy l y m) x r => some (.node cy l y (.node cx m x r))
  | true, .node cx l x (.node cy m y r) => some (.node cy (.node cx l x m) y r)
  | _, _ => none

/-- The end of the loop, with a red parent `p` and a grandparent `g` whose other child is not. -/
def probeRotations (p g : Frame α) (n : RbTree α) : Option (RbTree α) := do
  let y ← if p.dir = g.dir then some (p.fill n) else rotate p.dir (p.fill n)
  let y ← paint .black y
  rotate g.dir ({ g with color := .red }.fill y)

def probeLoop : List (Frame α) → RbTree α → Option (RbTree α)
  | p :: g :: s, n =>
    if p.color = .red then
      match g.other with
      | .node .red l y r =>
        probeLoop s ({ g with color := .red, other := .node .black l y r }.fill
          ({ p with color := .black }.fill n))
      | _ => (probeRotations p g n).map (plug s)
    else some (plug (p :: g :: s) n)
  | s, n => some (plug s n)

def rbProbe (cmp : α → Ordering) (table : RbTable α) (item : α) (malloc : Bool) :
    Option (Option α × RbTable α) := do
  let (t, s) ← descend cmp table.root []
  match t with
  | .node _ _ a _ => some (some a, table)
  | .nil =>
    if malloc then
      let root ← probeLoop s (.node .red .nil item .nil)
      let root ← paint .black root
      some (some item, ⟨root, table.count + 1, table.generation + 1⟩)
    else some (none, table)

def rbInsert [DecidableEq α] (cmp : α → Ordering) (table : RbTable α) (item : α) (malloc : Bool) :
    Option (Option α × RbTable α) := do
  let (p, table) ← rbProbe cmp table item malloc
  some (if p = none ∨ p = some item then none else p, table)

/-- The node that takes the place of the deleted one, as its color, its item and its right
subtree, with the frames of the nodes between the two. `base` is the index of its place; where
the first node has no left child the source has a branch of its own. -/
def successor (base : ℕ) : RbTree α → List (Frame α) →
    Option (Color × α × RbTree α × List (Frame α))
  | .nil, _ => none
  | .node c .nil a r, s => some (c, a, r, s)
  | .node c l a r, s =>
    if base + s.length + 1 < rbMaxHeight then successor base l (⟨c, a, false, r⟩ :: s) else none

/-- What is at the place of the node that is unlinked, the frames above it, and the color that
the tree has lost. -/
def unlink (c : Color) (l : RbTree α) (a : α) (r : RbTree α) (s : List (Frame α)) :
    Option (RbTree α × List (Frame α) × Color) :=
  match r with
  | .nil => some (l, s, c)
  | r => do
    let place ← push ⟨c, a, true, l⟩ s
    let (lost, b, x, between) ← successor place.length r []
    some (x, between ++ ⟨c, b, true, l⟩ :: s, lost)

def isBlack : RbTree α → Bool
  | .node .red _ _ _ => false
  | _ => true

def link : Bool → RbTree α → RbTree α
  | _, .nil => .nil
  | false, .node _ l _ _ => l
  | true, .node _ _ _ r => r

def onLink (f : RbTree α → Option (RbTree α)) : Bool → RbTree α → Option (RbTree α)
  | _, .nil => none
  | false, .node c l a r => (f l).map fun l => .node c l a r
  | true, .node c l a r => (f r).map fun r => .node c l a r

def liftSibling (f : Frame α) (s : List (Frame α)) : Option (Frame α × List (Frame α)) :=
  match f.other with
  | .nil => none
  | .node .black _ _ _ => some (f, s)
  | .node .red _ w _ =>
    let g : Frame α := ⟨.black, w, f.dir, link (!f.dir) f.other⟩
    let f : Frame α := { f with color := .red, other := link f.dir f.other }
    (push f (g :: s)).map fun _ => (f, g :: s)

def deleteRotations (f : Frame α) (x : RbTree α) : Option (RbTree α) := do
  let w ← if isBlack (link (!f.dir) f.other) then do
      let w ← onLink (paint .black) f.dir f.other
      let w ← paint .red w
      rotate f.dir w
    else some f.other
  let w ← paint f.color w
  let w ← onLink (paint .black) (!f.dir) w
  rotate (!f.dir) ({ f with color := .black, other := w }.fill x)

theorem liftSibling_cases {f f' : Frame α} {s s' : List (Frame α)}
    (h : liftSibling f s = some (f', s')) :
    (∃ l w r, f.other = .node .black l w r) ∧ f' = f ∧ s' = s ∨
      f'.color = .red ∧ ∃ g, s' = g :: s := by
  unfold liftSibling at h
  split at h
  · cases h
  · next l w r hw =>
    cases h
    exact Or.inl ⟨⟨l, w, r, hw⟩, rfl, rfl⟩
  · obtain ⟨_, -, heq⟩ := Option.map_eq_some_iff.1 h
    cases heq
    exact Or.inr ⟨rfl, _, rfl⟩

theorem isBlack_fill (f : Frame α) (t : RbTree α) (h : f.color = .red) :
    isBlack (f.fill t) = false := by
  obtain ⟨c, a, dir, o⟩ := f
  cases h
  cases dir with
  | false => rfl
  | true => rfl

/-- The loop after the deletion; the paths below `x` have lost a black node. -/
def deleteLoop (x : RbTree α) (s : List (Frame α)) : Option (RbTree α) :=
  if _hx : isBlack x then
    match s with
    | [] => some x
    | f :: s =>
      match _hlift : liftSibling f s with
      | none => none
      | some (f, s) =>
        match f.other with
        | .nil => none
        | .node _ l w r =>
          if isBlack l ∧ isBlack r then
            deleteLoop ({ f with other := .node .red l w r }.fill x) s
          else (deleteRotations f x).map (plug s)
  else (paint .black x).map (plug s)
termination_by 2 * s.length + (isBlack x).toNat
decreasing_by
  rcases liftSibling_cases _hlift with ⟨-, -, rfl⟩ | ⟨hred, g, rfl⟩
  · have hle := Bool.toNat_le (isBlack ({ f with other := .node .red l w r }.fill x))
    simp only [List.length_cons]
    omega
  · have hblack : isBlack ({ f with other := .node .red l w r }.fill x) = false :=
      isBlack_fill _ x hred
    rw [hblack, _hx]
    simp only [List.length_cons, Bool.toNat_false, Bool.toNat_true]
    omega

def mend (lost : Color) (x : RbTree α) (s : List (Frame α)) : Option (RbTree α) :=
  if lost = .black then deleteLoop x s else some (plug s x)

def rbDelete (cmp : α → Ordering) (table : RbTable α) : Option (Option α × RbTable α) := do
  let (p, s) ← descend cmp table.root []
  match p with
  | .nil => some (none, table)
  | .node c l a r =>
    let (x, s, lost) ← unlink c l a r s
    let root ← mend lost x s
    some (some a, ⟨root, table.count - 1, table.generation + 1⟩)

def rbDestroy : RbTree α → List α
  | .nil => []
  | .node _ .nil a r => a :: rbDestroy r
  | .node c (.node c' l b m) a r => rbDestroy (.node c' l b (.node c m a r))
termination_by t => (t.toList.length, (link false t).toList.length)
decreasing_by
  · exact Prod.Lex.left _ _ (by simp)
  · have hlt : l.toList.length < (RbTree.node c' l b m).toList.length := by simp
    have hlen : (RbTree.node c' l b (.node c m a r)).toList.length =
        (RbTree.node c (.node c' l b m) a r).toList.length := by simp
    rw [hlen]
    exact Prod.Lex.right _ hlt

end MyScripts.Shark.Rb
