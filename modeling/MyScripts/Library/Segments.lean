import Mathlib.Data.List.SplitBy

/-!
# Segments of a list and the stores they go to

A list is cut into segments and each segment is appended to the store its label
names. Where the entries of a segment carry its label, a store ends with the
entries of its own label, in their order.
-/
namespace MyScripts.Library.Segments

variable {α β κ : Type*} {same : α → α → Bool} {segs : List (List α)} {cur : List α} {x : α}

theorem splitBy_cut (rest : List α) (hcur : cur ≠ []) (hchain : cur.IsChain fun a b => same a b)
    (hcut : ∀ a ∈ cur.getLast?, same a x = false) :
    (cur ++ x :: rest).splitBy same = cur :: (x :: rest).splitBy same := by
  rw [List.splitBy_append_cons rest hcut, List.splitBy_of_isChain hcur hchain,
    List.singleton_append]

theorem key_eq_of_isChain {key : α → κ} {s : List α} (hs : s ≠ [])
    (h : s.IsChain fun a b => key a = key b) : ∀ a ∈ s, key a = key (s.getLast hs) := by
  induction s with
  | nil => exact absurd rfl hs
  | cons a s ih =>
    rcases s with _ | ⟨b, s⟩
    · simp
    · obtain ⟨hab, hrest⟩ := List.isChain_cons_cons.1 h
      have htail := ih (List.cons_ne_nil b s) hrest
      intro c hc
      rw [List.getLast_cons (List.cons_ne_nil b s)]
      rcases List.mem_cons.1 hc with rfl | hc
      · exact hab.trans (htail b (List.mem_cons_self ..))
      · exact htail c hc

theorem key_eq_of_mem_splitBy {key : α → κ} {l s : List α}
    (h : l.IsChain fun a b => same a b → key a = key b) (hs : s ∈ l.splitBy same) :
    ∀ a ∈ s, key a = key (s.getLast (List.ne_nil_of_mem_splitBy hs)) := by
  apply key_eq_of_isChain
  have hsame := List.isChain_of_mem_splitBy hs
  have hinfix := List.infix_of_mem_flatten hs
  rw [List.flatten_splitBy] at hinfix
  have hkey := h.infix hinfix
  rw [List.isChain_iff_getElem] at hsame hkey ⊢
  exact fun k hk => hkey k hk (hsame k hk)

variable [DecidableEq κ]

def append (out : κ → Option (List β)) (k : κ) (l : List β) : κ → Option (List β) :=
  fun x => if x = k then some ((out x).getD [] ++ l) else out x

@[simp] theorem append_self (out : κ → Option (List β)) (k : κ) (l : List β) :
    append out k l k = some ((out k).getD [] ++ l) := if_pos rfl

theorem append_of_ne {out : κ → Option (List β)} {k x : κ} {l : List β} (h : x ≠ k) :
    append out k l x = out x := if_neg h

section Deliver

variable (label : List α → κ) (content : List α → List β)

def deliver (out : κ → Option (List β)) (segs : List (List α)) : κ → Option (List β) :=
  segs.foldl (fun out s => append out (label s) (content s)) out

@[simp] theorem deliver_nil (out : κ → Option (List β)) : deliver label content out [] = out := rfl

@[simp] theorem deliver_cons (out : κ → Option (List β)) (s : List α) :
    deliver label content out (s :: segs) =
      deliver label content (append out (label s) (content s)) segs := rfl

theorem deliver_of_ne {out : κ → Option (List β)} {x : κ} (h : ∀ s ∈ segs, x ≠ label s) :
    deliver label content out segs x = out x := by
  induction segs generalizing out with
  | nil => rfl
  | cons s segs ih =>
    rw [deliver_cons, ih fun t ht => h t (List.mem_cons_of_mem s ht),
      append_of_ne (h s (List.mem_cons_self ..))]

theorem deliver_getD (out : κ → Option (List β)) (x : κ) :
    (deliver label content out segs x).getD [] =
      (out x).getD [] ++ (segs.filter (label · = x)).flatMap content := by
  induction segs generalizing out with
  | nil => simp
  | cons s segs ih =>
    rw [deliver_cons, ih]
    by_cases hs : label s = x
    · subst hs
      simp
    · simp [append_of_ne (Ne.symm hs), hs]

end Deliver

theorem filter_flatten {key : α → κ} {label : List α → κ} (h : ∀ s ∈ segs, ∀ a ∈ s, key a = label s)
    (p : κ) : (segs.filter (label · = p)).flatten = segs.flatten.filter (key · = p) := by
  induction segs with
  | nil => rfl
  | cons s segs ih =>
    have hs : ∀ a ∈ s, key a = label s := h s (List.mem_cons_self ..)
    have hrest := ih fun t ht => h t (List.mem_cons_of_mem s ht)
    rw [List.flatten_cons, List.filter_append, ← hrest]
    by_cases hp : label s = p
    · have hall : s.filter (key · = p) = s := by
        rw [List.filter_eq_self]
        intro a ha
        simp [hs a ha, hp]
      simp [hp, hall]
    · have hnone : s.filter (key · = p) = [] := by
        rw [List.filter_eq_nil_iff]
        intro a ha
        simp [hs a ha, hp]
      simp [hp, hnone]

end MyScripts.Library.Segments
