import MyScripts.Library.Forest

/-!
# Loops over the parents of a node

`climb` goes up from a node, `while (par) { ...; par = par->parent; }`, until
there is no parent or the body leaves the loop; the body works on a state, and
the parents are read in it. Where a rank falls from each node to its parent the
loop ends, and it is a fold over the ancestors.
-/
namespace MyScripts.Library.Forest

variable {α σ : Type*} {parent : α → Option α} {rank : α → ℕ} {n : α} {rounds : ℕ}

/-- The body gives `none` to leave the loop; the loop gives `none` if it goes on after the rounds. -/
def climb (parent : σ → α → Option α) (body : σ → α → Option σ) : ℕ → Option α → σ → Option σ
  | _, none, s => some s
  | 0, some _, _ => none
  | rounds + 1, some p, s =>
    match body s p with
    | none => some s
    | some s' => climb parent body rounds (parent s' p) s'

section Rank

variable (hrank : ∀ n p, parent n = some p → rank p < rank n)
include hrank

theorem wellFounded_parent : WellFounded fun p n => parent n = some p :=
  Subrelation.wf (fun {_ _} h => hrank _ _ h) (measure rank).wf

/-- The rule of the loop: while `I` holds the parents are the given ones, and the
body leaves the loop where `q` fails and does `f` elsewhere. -/
theorem climb_eq {parentIn : σ → α → Option α} {body : σ → α → Option σ} {I : σ → Prop}
    {q : α → Bool} {f : σ → α → σ} {s : σ} (hparent : ∀ s, I s → parentIn s = parent)
    (hbody : ∀ s p, I s → body s p = if q p then some (f s p) else none)
    (hkeep : ∀ s p, I s → I (f s p)) (hs : I s) (hn : rank n ≤ rounds) :
    climb parentIn body rounds (parent n) s =
      some (((ancestors parent rounds n).takeWhile q).foldl f s) := by
  induction rounds generalizing n s with
  | zero =>
    cases hp : parent n with
    | none => rfl
    | some p =>
      have hlt := hrank n p hp
      omega
  | succ rounds ih =>
    cases hp : parent n with
    | none => simp [climb, ancestors, hp]
    | some p =>
      have hlt := hrank n p hp
      simp only [climb, ancestors, hp, hbody s p hs]
      cases hq : q p with
      | false => simp [hq]
      | true =>
        have hrest := ih (hkeep s p hs) (Nat.le_of_lt_succ (hlt.trans_le hn))
        rw [List.takeWhile_cons_of_pos hq, List.foldl_cons, ← hrest,
          ← hparent _ (hkeep s p hs)]
        rfl

end Rank

end MyScripts.Library.Forest
