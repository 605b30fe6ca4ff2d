import Mathlib.Data.List.Basic

/-!
# Programs that raise exceptions

A program over a state that may raise keeps the state it had reached. `Spec`
says what holds of the state after such a program, whether it raised or not,
and of its value when it did not; `loop` is a `for` loop that carries a variable
and may be left by a `return`. A `while` loop runs with a bound on its rounds,
and `Terminates` when some bound suffices.
-/
namespace MyScripts.Library.Exceptions

variable {ε σ α β ι : Type} {I : σ → Prop} {R : α → Prop} {R' : β → Prop}

inductive Flow (β : Type)
  | next (b : β)
  | done
  deriving DecidableEq, Repr

def loop (body : β → ι → EStateM ε σ (Flow β)) : β → List ι → EStateM ε σ (Flow β)
  | b, [] => pure (.next b)
  | b, i :: is => do
    match ← body b i with
    | .next b => loop body b is
    | .done => pure .done

variable {body : β → ι → EStateM ε σ (Flow β)} {b : β} {i : ι} {is : List ι} {s s' : σ} {e : ε}

theorem run_bind_ok {m : EStateM ε σ α} {f : α → EStateM ε σ β} :
    (m >>= f).run s = .ok b s' ↔ ∃ a t, m.run s = .ok a t ∧ (f a).run t = .ok b s' := by
  rw [EStateM.run_bind]
  cases m.run s with
  | ok a t => simp
  | error e t => simp

@[simp]
theorem loop_nil : (loop body b []).run s = .ok (.next b) s := rfl

theorem loop_cons_next {b' : β} (h : (body b i).run s = .ok (.next b') s') :
    (loop body b (i :: is)).run s = (loop body b' is).run s' := by
  simp [loop, h]

theorem loop_cons_done (h : (body b i).run s = .ok .done s') :
    (loop body b (i :: is)).run s = .ok .done s' := by
  simp [loop, h]

theorem loop_cons_error (h : (body b i).run s = .error e s') :
    (loop body b (i :: is)).run s = .error e s' := by
  simp [loop, h]

theorem forM_cons (f : ι → EStateM ε σ Unit) (i : ι) (is : List ι) :
    (i :: is).forM f = (f i >>= fun _ => is.forM f) := rfl

theorem forM_append (f : ι → EStateM ε σ Unit) (is is' : List ι) :
    (is ++ is').forM f = (is.forM f >>= fun _ => is'.forM f) := by
  induction is with
  | nil => rfl
  | cons i is ih => simp [forM_cons, ih]

theorem forM_map (f : ι → EStateM ε σ Unit) (g : α → ι) (l : List α) :
    (l.map g).forM f = l.forM fun a => f (g a) := by
  induction l with
  | nil => rfl
  | cons a l ih => rw [List.map_cons, forM_cons, forM_cons, ih]

theorem loop_findSome {f : ι → Option α} {k : α → σ}
    (h : ∀ i ∈ is, (body b i).run s =
      (f i).elim (.ok (.next b) s) fun a => .ok .done (k a)) :
    (loop body b is).run s =
      (is.findSome? f).elim (.ok (.next b) s) fun a => .ok .done (k a) := by
  induction is with
  | nil => rfl
  | cons i is ih =>
    have hi := h i List.mem_cons_self
    rw [List.findSome?_cons]
    cases hf : f i with
    | none =>
      rw [hf] at hi
      rw [loop_cons_next hi]
      exact ih fun j hj => h j (List.mem_cons_of_mem i hj)
    | some a =>
      rw [hf] at hi
      exact loop_cons_done hi

def final : EStateM.Result ε σ α → σ
  | .ok _ s => s
  | .error _ s => s

structure Spec (I : σ → Prop) (m : EStateM ε σ α) (R : α → Prop) : Prop where
  ok : ∀ s a s', I s → m.run s = .ok a s' → I s' ∧ R a
  error : ∀ s e s', I s → m.run s = .error e s' → I s'

theorem Spec.final {m : EStateM ε σ α} (h : Spec I m R) (hs : I s) : I (final (m.run s)) := by
  cases hrun : m.run s with
  | ok a s' => exact (h.ok s a s' hs hrun).1
  | error e s' => exact h.error s e s' hs hrun

theorem Spec.pure {a : α} (h : R a) : Spec I (pure a : EStateM ε σ α) R where
  ok := by
    rintro s _ _ hs ⟨⟩
    exact ⟨hs, h⟩
  error := by
    rintro s _ _ hs ⟨⟩

theorem Spec.throw (e : ε) : Spec I (throw e : EStateM ε σ α) R where
  ok := by
    rintro s _ _ hs ⟨⟩
  error := by
    rintro s _ _ hs ⟨⟩
    exact hs

theorem Spec.modify {f : σ → σ} (h : ∀ s, I s → I (f s)) :
    Spec I (modify f : EStateM ε σ Unit) fun _ => True where
  ok := by
    rintro s _ _ hs ⟨⟩
    exact ⟨h s hs, trivial⟩
  error := by
    rintro s _ _ hs ⟨⟩

theorem Spec.get : Spec I (get : EStateM ε σ σ) I where
  ok := by
    rintro s _ _ hs ⟨⟩
    exact ⟨hs, hs⟩
  error := by
    rintro s _ _ hs ⟨⟩

theorem Spec.set (h : I s) : Spec I (set s : EStateM ε σ PUnit) fun _ => True where
  ok := by
    rintro _ _ _ _ ⟨⟩
    exact ⟨h, trivial⟩
  error := by
    rintro _ _ _ _ ⟨⟩

theorem Spec.of_ok {m : EStateM ε σ α} {R' : α → Prop} (h : Spec I m R)
    (hR : ∀ s a s', m.run s = .ok a s' → R' a) : Spec I m R' where
  ok s a s' hs hrun := ⟨(h.ok s a s' hs hrun).1, hR s a s' hrun⟩
  error := h.error

theorem Spec.congr {m n : EStateM ε σ α} (h : ∀ s, I s → m.run s = n.run s) (hn : Spec I n R) :
    Spec I m R where
  ok s a s' hs hrun := hn.ok s a s' hs (h s hs ▸ hrun)
  error s e s' hs hrun := hn.error s e s' hs (h s hs ▸ hrun)

theorem Spec.bind {m : EStateM ε σ α} {f : α → EStateM ε σ β} (hm : Spec I m R)
    (hf : ∀ a, R a → Spec I (f a) R') : Spec I (m >>= f) R' where
  ok := by
    intro s b s' hs h
    rw [EStateM.run_bind] at h
    cases hrun : m.run s with
    | ok a t =>
      obtain ⟨ht, ha⟩ := hm.ok s a t hs hrun
      rw [hrun] at h
      exact (hf a ha).ok t b s' ht h
    | error e t =>
      rw [hrun] at h
      cases h
  error := by
    intro s e s' hs h
    rw [EStateM.run_bind] at h
    cases hrun : m.run s with
    | ok a t =>
      obtain ⟨ht, ha⟩ := hm.ok s a t hs hrun
      rw [hrun] at h
      exact (hf a ha).error t e s' ht h
    | error e t =>
      have ht := hm.error s e t hs hrun
      rw [hrun] at h
      cases h
      exact ht

theorem Spec.ite {c : Prop} [Decidable c] {m n : EStateM ε σ α} (hm : c → Spec I m R)
    (hn : ¬c → Spec I n R) : Spec I (if c then m else n) R := by
  split_ifs with h
  · exact hm h
  · exact hn h

/-- The rule of the loop: what the body keeps, of the state and of its variable while it goes on. -/
theorem Spec.loop {J : β → Prop} (hb : J b) (hbody : ∀ b, J b → ∀ i ∈ is,
      Spec I (body b i) fun r => ∀ b', r = .next b' → J b') :
    Spec I (loop body b is) fun r => ∀ b', r = .next b' → J b' := by
  induction is generalizing b with
  | nil =>
    apply Spec.pure
    rintro _ ⟨⟩
    exact hb
  | cons i is ih =>
    apply Spec.bind (hbody b hb i List.mem_cons_self)
    intro r hr
    cases r with
    | next b' => exact ih (hr b' rfl) fun b hb j hj => hbody b hb j (List.mem_cons_of_mem i hj)
    | done => exact Spec.pure (by simp)

theorem Spec.loop_state (h : ∀ b, ∀ i ∈ is, Spec I (body b i) fun _ => True) :
    Spec I (Exceptions.loop body b is) fun _ => True := by
  have hloop : Spec I (Exceptions.loop body b is) fun r => ∀ b', r = .next b' → True :=
    Spec.loop (J := fun _ => True) trivial fun b _ i hi =>
      Spec.of_ok (h b i hi) fun _ _ _ _ _ _ => trivial
  exact Spec.of_ok hloop fun _ _ _ _ => trivial

theorem Spec.forM {f : ι → EStateM ε σ Unit} (h : ∀ i ∈ is, Spec I (f i) fun _ => True) :
    Spec I (is.forM f) fun _ => True := by
  induction is with
  | nil => exact Spec.pure trivial
  | cons i is ih =>
    exact Spec.bind (h i List.mem_cons_self) fun _ _ =>
      ih fun j hj => h j (List.mem_cons_of_mem i hj)

theorem Spec.foldlM {f : β → ι → EStateM ε σ β} {J : β → Prop} (hb : J b)
    (h : ∀ b, J b → ∀ i ∈ is, Spec I (f b i) J) : Spec I (is.foldlM f b) J := by
  induction is generalizing b with
  | nil => exact Spec.pure hb
  | cons i is ih =>
    rw [List.foldlM_cons]
    exact Spec.bind (h b hb i List.mem_cons_self) fun b hb =>
      ih hb fun b hb j hj => h b hb j (List.mem_cons_of_mem i hj)

variable {c : σ → Prop} [DecidablePred c] {m : EStateM ε σ Unit} {t : σ}

def whileLoop (c : σ → Prop) [DecidablePred c] (m : EStateM ε σ Unit) :
    (fuel : ℕ) → σ → Option (EStateM.Result ε σ Unit)
  | 0, _ => none
  | fuel + 1, s =>
    if c s then
      match m.run s with
      | .ok () s' => whileLoop c m fuel s'
      | .error e s' => some (.error e s')
    else some (.ok () s)

/-- The loop comes to its end or raises, after finitely many rounds. -/
def Terminates (c : σ → Prop) [DecidablePred c] (m : EStateM ε σ Unit) (s : σ) : Prop :=
  ∃ fuel, (whileLoop c m fuel s).isSome

/-- The states in which the condition is tested. -/
inductive Rounds (c : σ → Prop) (m : EStateM ε σ Unit) (s : σ) : σ → Prop
  | start : Rounds c m s s
  | round {t t' : σ} : Rounds c m s t → c t → m.run t = .ok () t' → Rounds c m s t'

theorem ends_of_not (h : ¬c s) : Terminates c m s := ⟨1, by simp [whileLoop, h]⟩

theorem ends_of_error (h : c s) (hm : m.run s = .error e s') : Terminates c m s :=
  ⟨1, by simp [whileLoop, h, hm]⟩

theorem ends_iff_of_round (h : c s) (hm : m.run s = .ok () s') :
    Terminates c m s ↔ Terminates c m s' := by
  constructor
  · rintro ⟨_ | fuel, hfuel⟩
    · simp [whileLoop] at hfuel
    · exact ⟨fuel, by simpa [whileLoop, h, hm] using hfuel⟩
  · rintro ⟨fuel, hfuel⟩
    exact ⟨fuel + 1, by simpa [whileLoop, h, hm] using hfuel⟩

theorem Rounds.ends_iff (h : Rounds c m s t) : Terminates c m s ↔ Terminates c m t := by
  induction h with
  | start => rfl
  | round _ hc hm ih => rw [ih, ends_iff_of_round hc hm]

/-- The rule of termination: a measure that every round decreases. -/
theorem ends_of_measure (μ : σ → ℕ)
    (h : ∀ t t', Rounds c m s t → c t → m.run t = .ok () t' → μ t' < μ t) : Terminates c m s := by
  suffices hends : ∀ n t, Rounds c m s t → μ t = n → Terminates c m t from hends _ s .start rfl
  intro n
  induction n using Nat.strongRecOn with
  | ind n ih =>
    rintro t ht rfl
    by_cases hc : c t
    · cases hm : m.run t with
      | ok _ t' =>
        rw [ends_iff_of_round hc hm]
        exact ih _ (h t t' ht hc hm) t' (ht.round hc hm) rfl
      | error e t' => exact ends_of_error hc hm
    · exact ends_of_not hc

/-- The rule of divergence: an invariant with which the loop goes on. -/
theorem not_ends_of_invariant (hs : I s)
    (h : ∀ t, I t → c t ∧ ∃ t', m.run t = .ok () t' ∧ I t') : ¬Terminates c m s := by
  rintro ⟨fuel, hfuel⟩
  induction fuel generalizing s with
  | zero => simp [whileLoop] at hfuel
  | succ fuel ih =>
    obtain ⟨hc, t', hm, ht'⟩ := h s hs
    exact ih ht' (by simpa [whileLoop, hc, hm] using hfuel)

end MyScripts.Library.Exceptions
