import MyScripts.Library.Run
import MyScripts.Shark.RbDeletion
import Mathlib.Data.Nat.Log

/-!
# Runs of calls on a table

A table answers every sequence of `rb_find`, `rb_insert` and `rb_delete` as a
finite map from keys to items does. What `rb_destroy` hands out are the items of
that map, each once and with increasing keys.
-/
namespace MyScripts.Shark.Rb
open Library.RedBlack Library.KeyedList Library.Run

variable {α κ : Type*} [LinearOrder κ] {key : α → κ} {m : κ → Option α} {table : RbTable α} {n : ℕ}

section Calls

variable [DecidableEq α]

inductive Call (α κ : Type*)
  | find (k : κ)
  | insert (item : α) (malloc : Bool)
  | delete (k : κ)

def call (key : α → κ) (table : RbTable α) : Call α κ → Option (Option α × RbTable α)
  | .find k => some (table.find key k, table)
  | .insert item malloc => rbInsert (compareKey key (key item)) table item malloc
  | .delete k => rbDelete (compareKey key k) table

def callStep (key : α → κ) (s : RbTable α × List (Option α)) (c : Call α κ) :
    Option (RbTable α × List (Option α)) :=
  (call key s.1 c).map fun (answer, table) => (table, answer :: s.2)

/-- NULL is the answer to an insertion that succeeds, to one without memory and to that of the
very item that is there. -/
def mapCall (key : α → κ) (m : κ → Option α) : Call α κ → Option α × (κ → Option α)
  | .find k => (m k, m)
  | .insert item malloc =>
    match m (key item) with
    | some a => (if a = item then none else some a, m)
    | none => (none, if malloc then Function.update m (key item) (some item) else m)
  | .delete k => (m k, Function.update m k none)

def mapStep (key : α → κ) (s : (κ → Option α) × List (Option α)) (c : Call α κ) :
    (κ → Option α) × List (Option α) :=
  ((mapCall key s.1 c).2, (mapCall key s.1 c).1 :: s.2)

def mapRun (key : α → κ) (calls : List (Call α κ)) : (κ → Option α) × List (Option α) :=
  calls.foldl (mapStep key) (fun _ => none, [])

end Calls

/-- The table stands for the map, and has room for `n` items more. -/
structure Stands (key : α → κ) (n : ℕ) (m : κ → Option α) (table : RbTable α) : Prop where
  valid : Valid key table
  find : table.find key = m
  room : table.items.length + n + 1 < 2 ^ 64

def Agrees (key : α → κ) (n : ℕ) (s : (κ → Option α) × List (Option α))
    (s' : RbTable α × List (Option α)) : Prop :=
  s'.2 = s.2 ∧ Stands key n s.1 s'.1

theorem Valid.rbProbe_no_memory (h : Valid key table) {x : α}
    (hf : table.find key (key x) = none) :
    rbProbe (compareKey key (key x)) table x false = some (none, table) := by
  obtain ⟨t, s, hd⟩ := h.descend (key x)
  rw [rbProbe, hd]
  cases t with
  | nil => rfl
  | node c l b r =>
    rw [h.descend_node hd] at hf
    cases hf

theorem Stands.weaken {n' : ℕ} (h : Stands key n m table) (hn : n' ≤ n) :
    Stands key n' m table :=
  ⟨h.valid, h.find, by have := h.room; omega⟩

theorem Stands.rbDelete (h : Stands key n m table) (k : κ) :
    ∃ u, Rb.rbDelete (compareKey key k) table = some (m k, u) ∧
      Stands key n (Function.update m k none) u := by
  have hroom := h.room
  cases hm : m k with
  | none =>
    have hf : table.find key k = none := by rw [h.find, hm]
    refine ⟨table, h.valid.rbDelete_of_none hf, h.valid, ?_, hroom⟩
    rw [h.find, ← hm, Function.update_eq_self]
  | some a =>
    have hf : table.find key k = some a := by rw [h.find, hm]
    obtain ⟨u, hu, hvalid, hlen, hfind⟩ := h.valid.rbDelete_of_some hf
    exact ⟨u, hu, hvalid, by rw [hfind, h.find], by omega⟩

theorem Stands.mem_items (h : Stands key n m table) {a : α} :
    a ∈ table.items ↔ m (key a) = some a := by
  rw [← h.find, h.valid.find_eq, h.valid.sorted.lookup_eq_some]
  exact (and_iff_left rfl).symm

theorem Stands.congr_key {key' : α → κ} (h : Stands key n m table)
    (hkey : ∀ a ∈ table.items, key' a = key a) : Stands key' n m table := by
  have hsorted : Sorted key' table.items := by
    refine List.Pairwise.imp_of_mem (fun ha hb hlt => ?_) h.valid.sorted
    rw [hkey _ ha, hkey _ hb]
    exact hlt
  have hvalid : Valid key' table := ⟨hsorted, h.valid.balanced, h.valid.count, h.valid.size⟩
  refine ⟨hvalid, ?_, h.room⟩
  rw [← h.find, hvalid.find_eq, h.valid.find_eq]
  funext k
  refine Option.ext fun a => ?_
  rw [hsorted.lookup_eq_some, h.valid.sorted.lookup_eq_some]
  exact and_congr_right fun ha => by rw [hkey a ha]

theorem stands_rbCreate (key : α → κ) (h : n + 1 < 2 ^ 64) :
    Stands key n (fun _ => none) (rbCreate : RbTable α) :=
  ⟨valid_rbCreate key, rfl, by simpa [RbTable.items, rbCreate] using h⟩

/-- The way down is at most twice as long as that in a perfect tree. -/
theorem Valid.height_le_log (h : Valid key table) :
    table.root.height ≤ 2 * Nat.log 2 (table.count.toNat + 1) := by
  obtain ⟨n, hn⟩ := h.balanced
  rw [h.count]
  exact hn.height_le_of_length (Nat.lt_pow_succ_log_self Nat.one_lt_two _)

section Calls

variable [DecidableEq α]

theorem Stands.rbInsert (h : Stands key (n + 1) m table) (x : α) (malloc : Bool) :
    ∃ u, Rb.rbInsert (compareKey key (key x)) table x malloc =
        some ((mapCall key m (.insert x malloc)).1, u) ∧
      Stands key n (mapCall key m (.insert x malloc)).2 u := by
  rw [Rb.rbInsert, mapCall]
  cases hm : m (key x) with
  | some a =>
    have hf : table.find key (key x) = some a := by rw [h.find, hm]
    refine ⟨table, ?_, h.weaken (Nat.le_succ n)⟩
    simp [h.valid.rbProbe_of_some hf malloc]
  | none =>
    have hf : table.find key (key x) = none := by rw [h.find, hm]
    cases malloc with
    | false =>
      refine ⟨table, ?_, h.weaken (Nat.le_succ n)⟩
      simp [h.valid.rbProbe_no_memory hf]
    | true =>
      have hroom := h.room
      obtain ⟨u, hu, hvalid, hlen, hfind⟩ := h.valid.rbProbe_of_none hf (by omega)
      refine ⟨u, ?_, hvalid, ?_, by omega⟩
      · simp [hu]
      · rw [hfind, h.find]
        rfl

theorem Stands.call (h : Stands key (n + 1) m table) (c : Call α κ) :
    ∃ u, Rb.call key table c = some ((mapCall key m c).1, u) ∧
      Stands key n (mapCall key m c).2 u := by
  cases c with
  | find k => exact ⟨table, by rw [Rb.call, h.find]; rfl, h.weaken (Nat.le_succ n)⟩
  | insert x malloc => exact h.rbInsert x malloc
  | delete k => exact (h.weaken (Nat.le_succ n)).rbDelete k

theorem Agrees.callStep {s : (κ → Option α) × List (Option α)} {s' : RbTable α × List (Option α)}
    (h : Agrees key (n + 1) s s') (c : Call α κ) :
    ∃ t', Rb.callStep key s' c = some t' ∧ Agrees key n (mapStep key s c) t' := by
  obtain ⟨u, hu, hstands⟩ := h.2.call c
  refine ⟨(u, (mapCall key s.1 c).1 :: s'.2), by rw [Rb.callStep, hu]; rfl, ?_, hstands⟩
  rw [h.1]
  rfl

theorem exec_agrees (key : α → κ) (calls : List (Call α κ)) (h : calls.length + 1 < 2 ^ 64) :
    ∃ s, exec (callStep key) (rbCreate, []) calls = some s ∧ Agrees key 0 (mapRun key calls) s := by
  refine simulation_exec (R := Agrees key) ?_ ⟨rfl, stands_rbCreate key h⟩
    (exec_total (mapStep key) (fun _ => none, []) calls)
  rintro n s s' c _ hs ⟨⟩
  exact hs.callStep c

/-- The calls of a run read no null pointer and stay inside the arrays, and the table
answers as a map does. -/
theorem calls_refine (key : α → κ) (calls : List (Call α κ)) (h : calls.length + 1 < 2 ^ 64) :
    ∃ table, exec (callStep key) (rbCreate, []) calls = some (table, (mapRun key calls).2) ∧
      table.find key = (mapRun key calls).1 ∧
      table.root.height ≤ 2 * Nat.log 2 (table.count.toNat + 1) := by
  obtain ⟨⟨table, _⟩, hexec, rfl, hstands⟩ := exec_agrees key calls h
  exact ⟨table, hexec, hstands.find, hstands.valid.height_le_log⟩

theorem calls_refine_five : ∃ table,
    exec (callStep id) (rbCreate, [])
        [.insert 3 true, .insert 1 true, .insert 3 true, .delete 3, .find (1 : ℕ)] =
      some (table, [some 1, some 3, none, none, none]) ∧
      table.find id = (mapRun id
        [.insert 3 true, .insert 1 true, .insert 3 true, .delete 3, .find (1 : ℕ)]).1 ∧
      table.root.height ≤ 2 * Nat.log 2 (table.count.toNat + 1) :=
  calls_refine id [.insert 3 true, .insert 1 true, .insert 3 true, .delete 3, .find (1 : ℕ)]
    (by decide)

end Calls

end MyScripts.Shark.Rb
