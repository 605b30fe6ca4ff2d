import Mathlib.Data.List.Nodup
import Mathlib.Logic.Function.Basic
import Mathlib.Order.Lattice

/-!
# Lists ordered by keys

A list whose items have increasing keys is a finite map. An item put between
those with smaller and those with larger keys is added to the map, and one that
is taken out is gone from it.
-/
namespace MyScripts.Library.KeyedList

variable {α κ : Type*} [LinearOrder κ] {key : α → κ} {l b e : List α} {a x : α} {k : κ}

def Sorted (key : α → κ) (l : List α) : Prop := l.Pairwise fun a b => key a < key b

def lookup (key : α → κ) (l : List α) (k : κ) : Option α := l.find? fun a => key a = k

def Apart (key : α → κ) (k : κ) (b e : List α) : Prop :=
  (∀ a ∈ b, key a < k) ∧ ∀ a ∈ e, k < key a

theorem lookup_eq_none : lookup key l k = none ↔ ∀ a ∈ l, key a ≠ k := by
  simp [lookup, List.find?_eq_none]

theorem mem_of_lookup (h : lookup key l k = some a) : a ∈ l ∧ key a = k :=
  ⟨List.mem_of_find?_eq_some h, by simpa using List.find?_some h⟩

theorem Sorted.key_injOn (h : Sorted key l) (ha : a ∈ l) (hx : x ∈ l) (heq : key a = key x) :
    a = x := by
  have hnodup : (l.map key).Nodup := List.pairwise_map.2 (List.Pairwise.imp (fun hlt => ne_of_lt hlt) h)
  exact List.inj_on_of_nodup_map hnodup ha hx heq

theorem Sorted.lookup_eq_some (h : Sorted key l) :
    lookup key l k = some a ↔ a ∈ l ∧ key a = k := by
  refine ⟨mem_of_lookup, fun ⟨ha, hk⟩ => ?_⟩
  cases hx : lookup key l k with
  | none => exact absurd hk (lookup_eq_none.1 hx a ha)
  | some x =>
    obtain ⟨hmem, hkey⟩ := mem_of_lookup hx
    rw [h.key_injOn hmem ha (hkey.trans hk.symm)]

theorem Sorted.insert (h : Sorted key (b ++ e)) (hx : Apart key (key x) b e) :
    Sorted key (b ++ x :: e) := by
  obtain ⟨hb, he, hbe⟩ := List.pairwise_append.1 h
  refine List.pairwise_append.2 ⟨hb, List.pairwise_cons.2 ⟨hx.2, he⟩, fun u hu v hv => ?_⟩
  rcases List.mem_cons.1 hv with rfl | hv
  · exact hx.1 u hu
  · exact hbe u hu v hv

theorem Sorted.erase (h : Sorted key (b ++ x :: e)) : Sorted key (b ++ e) :=
  h.sublist ((List.sublist_cons_self x e).append_left b)

theorem Sorted.apart (h : Sorted key (b ++ x :: e)) : Apart key (key x) b e := by
  obtain ⟨-, he, hbe⟩ := List.pairwise_append.1 h
  exact ⟨fun a ha => hbe a ha x List.mem_cons_self, (List.pairwise_cons.1 he).1⟩

theorem Apart.lookup_eq_none (h : Apart key k b e) : lookup key (b ++ e) k = none := by
  refine KeyedList.lookup_eq_none.2 fun a ha => ?_
  rcases List.mem_append.1 ha with ha | ha
  · exact ne_of_lt (h.1 a ha)
  · exact ne_of_gt (h.2 a ha)

theorem lookup_insert (h : Apart key (key x) b e) :
    lookup key (b ++ x :: e) = Function.update (lookup key (b ++ e)) (key x) (some x) := by
  funext k
  by_cases hk : k = key x
  · subst hk
    have hb : b.find? (fun a => key a = key x) = none :=
      List.find?_eq_none.2 fun a ha => by simpa using ne_of_lt (h.1 a ha)
    rw [Function.update_self, lookup, List.find?_append, hb, Option.none_or,
      List.find?_cons_of_pos (by simp)]
  · rw [Function.update_of_ne hk]
    simp [lookup, List.find?_append, Ne.symm hk]

theorem Sorted.lookup_erase (h : Sorted key (b ++ x :: e)) :
    lookup key (b ++ e) = Function.update (lookup key (b ++ x :: e)) (key x) none := by
  rw [lookup_insert h.apart, Function.update_idem, ← h.apart.lookup_eq_none,
    Function.update_eq_self]

end MyScripts.Library.KeyedList
