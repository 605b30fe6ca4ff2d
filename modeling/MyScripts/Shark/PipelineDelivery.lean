import MyScripts.Shark.JournalPipeline

/-!
# What the readers are given

Every group that was handed over is printed, in the writer's hands or in the
queue, in this order, and the file lacks only what the writer has not flushed.
A reader holds `read_lock` while it reads, so it sees whole groups, and its
offset is the end of the groups it was given.
-/
namespace MyScripts.Shark.Journal
open Library.Run Library.Decimal

variable {s t : State} {p : Pool} {gs : List Group}

structure WriterInv (s : State) : Prop where
  flow : s.handed = s.written ++ (s.writer.held ++ s.queue)
  index : ∀ (k : ℕ) (g : Group), s.handed[k]? = some g → (g.opsgroupsIndex : ℤ) = toInt32 k
  printed : text s.written = s.file ++ s.writer.pending
  lock : s.writer.Printing → s.readLock = some .writer

theorem WriterPc.held_signal (pc : WriterPc) : pc.signal.held = pc.held := by
  cases pc <;> rfl

theorem WriterPc.pending_signal (pc : WriterPc) : pc.signal.pending = pc.pending := by
  cases pc <;> rfl

theorem WriterPc.printing_signal {pc : WriterPc} (h : pc.signal.Printing) : pc.Printing := by
  cases pc with
  | waiting => obtain ⟨_, _, h⟩ := h; cases h
  | _ => exact h

theorem WriterPc.Choosing.held {pc : WriterPc} (h : pc.Choosing) : pc.held = [] := by
  rcases h with rfl | rfl | rfl <;> rfl

theorem WriterPc.Choosing.pending {pc : WriterPc} (h : pc.Choosing) : pc.pending = [] := by
  rcases h with rfl | rfl | rfl <;> rfl

theorem text_append (gs hs : List Group) : text (gs ++ hs) = text gs ++ text hs :=
  List.flatMap_append

theorem text_snoc (gs : List Group) (g : Group) : text (gs ++ [g]) = text gs ++ g.text := by
  rw [text_append]
  simp only [text, List.flatMap_cons, List.flatMap_nil, List.append_nil]

theorem writerInv_init : WriterInv State.init where
  flow := rfl
  index := fun k g h => absurd h (by simp [State.init])
  printed := rfl
  lock := fun h => by obtain ⟨_, _, h⟩ := h; cases h

theorem WriterInv.handle (h : WriterInv s) (b : GroupBody) : WriterInv (s.handleGroups b) where
  flow := by
    simp only [State.handleGroups, WriterPc.held_signal, h.flow, List.append_assoc]
  index := by
    intro k g hk
    simp only [State.handleGroups, List.getElem?_append] at hk
    split_ifs at hk with hlt
    · exact h.index k g hk
    · simp only [List.getElem?_singleton, Option.ite_none_right_eq_some, Option.some.injEq] at hk
      obtain ⟨hz, rfl⟩ := hk
      have hk' : k = s.handed.length := by omega
      subst hk'
      rfl
  printed := by
    simp only [State.handleGroups, WriterPc.pending_signal, h.printed]
  lock := fun hp => h.lock (WriterPc.printing_signal hp)

theorem WriterInv.goto {pc : WriterPc} (h : WriterInv s) (hheld : pc.held = s.writer.held)
    (hpend : pc.pending = s.writer.pending) (hp : pc.Printing → s.writer.Printing) :
    WriterInv { s with writer := pc } where
  flow := by simp only [hheld, h.flow]
  index := h.index
  printed := by simp only [hpend, h.printed]
  lock := fun hq => h.lock (hp hq)

theorem not_printing {pc : WriterPc} (h : ∀ rest more, pc ≠ .printing rest more) : ¬pc.Printing := by
  rintro ⟨rest, more, hp⟩
  exact h rest more hp

theorem WriterInv.writerMove (h : WriterInv s) (hm : WriterMove s t) : WriterInv t := by
  cases hm with
  | sleep hw hq =>
    exact h.goto (by rw [hw]; rfl) (by rw [hw]; rfl) fun hp =>
      absurd hp (not_printing fun _ _ => WriterPc.noConfusion)
  | take g rest hw hq =>
    refine ⟨?_, h.index, ?_, fun hp => absurd hp (not_printing fun _ _ => WriterPc.noConfusion)⟩
    · have hflow := h.flow
      rw [hw.held, hq] at hflow
      exact hflow
    · have hprinted := h.printed
      rw [hw.pending] at hprinted
      exact hprinted
  | leave hw =>
    have hheld : s.writer.held = [] := by
      rcases hw with ⟨hc, _⟩ | hw
      · exact hc.held
      · rw [hw]; rfl
    have hpend : s.writer.pending = [] := by
      rcases hw with ⟨hc, _⟩ | hw
      · exact hc.pending
      · rw [hw]; rfl
    exact h.goto hheld.symm hpend.symm fun hp => absurd hp (not_printing fun _ _ => WriterPc.noConfusion)
  | print g more hw hl hf =>
    have hflow := h.flow
    have hprinted := h.printed
    rw [hw] at hflow hprinted
    refine ⟨?_, h.index, ?_, fun _ => rfl⟩
    · simpa only [WriterPc.held, List.append_assoc, List.nil_append] using hflow
    · simp only [WriterPc.pending, List.append_nil] at hprinted ⊢
      rw [text_snoc, hprinted]
  | finish rest more hw =>
    have hflow := h.flow
    have hprinted := h.printed
    rw [hw] at hflow hprinted
    refine ⟨hflow, h.index, ?_, fun hp => absurd hp (not_printing fun _ _ => WriterPc.noConfusion)⟩
    simpa only [WriterPc.pending, List.append_nil] using hprinted
  | again hw hd =>
    exact h.goto (by rw [hw]; rfl) (by rw [hw]; rfl) fun hp =>
      absurd hp (not_printing fun _ _ => WriterPc.noConfusion)
  | exit hw hd =>
    exact h.goto (by rw [hw]; rfl) (by rw [hw]; rfl) fun hp =>
      absurd hp (not_printing fun _ _ => WriterPc.noConfusion)

theorem WriterInv.readerMove (h : WriterInv s) (hm : ReaderMove s p t)
    (hlock : ∀ b, s.reader p = .reading b → s.readLock = some (.reader p)) : WriterInv t := by
  have hnot : s.readLock ≠ some .writer → ¬s.writer.Printing := fun hl hp => hl (h.lock hp)
  cases hm with
  | start hr => exact ⟨h.flow, h.index, h.printed, h.lock⟩
  | lock before hr hl =>
    refine ⟨h.flow, h.index, h.printed, fun hp => absurd hp (hnot ?_)⟩
    rw [hl]
    exact nofun
  | crash before hr ha => exact ⟨h.flow, h.index, h.printed, h.lock⟩
  | eof before r hr ha =>
    refine ⟨h.flow, h.index, h.printed, fun hp => absurd hp (hnot ?_)⟩
    rw [hlock before hr]
    exact nofun
  | give before g r hr ha =>
    refine ⟨h.flow, h.index, h.printed, fun hp => absurd hp (hnot ?_)⟩
    rw [hlock before hr]
    exact nofun
  | null before file hr => exact ⟨h.flow, h.index, h.printed, h.lock⟩

def ReadersLock (s : State) : Prop :=
  ∀ p before, s.reader p = .reading before → s.readLock = some (.reader p)

theorem WriterInv.move {e : Event} (h : WriterInv s) (hm : Move s e t) (hlock : ReadersLock s) :
    WriterInv t := by
  cases hm with
  | handle b => exact h.handle b
  | writer t hm => exact h.writerMove hm
  | flush n rest more hw =>
    refine ⟨?_, h.index, ?_, fun _ => h.lock ⟨rest, more, hw⟩⟩
    · have hflow := h.flow
      rw [hw] at hflow
      exact hflow
    · have hprinted := h.printed
      rw [hw] at hprinted
      simpa only [WriterPc.pending, List.append_assoc, List.take_append_drop] using hprinted
  | wake =>
    exact h.goto (WriterPc.held_signal _) (WriterPc.pending_signal _) WriterPc.printing_signal
  | reader q t hm => exact h.readerMove hm (hlock q)
  | flag hd => exact ⟨h.flow, h.index, h.printed, h.lock⟩
  | signal hd =>
    have hgoto := h.goto (WriterPc.held_signal s.writer) (WriterPc.pending_signal _)
      WriterPc.printing_signal
    exact ⟨hgoto.flow, hgoto.index, hgoto.printed, hgoto.lock⟩
  | join hd hw => exact ⟨h.flow, h.index, h.printed, h.lock⟩

/-- What a reader depends on is as it was, but for what the writer has added. -/
structure Frames (s t : State) (p : Pool) : Prop where
  written : s.written <+: t.written
  file : s.file.length ≤ t.file.length
  reader : t.reader p = s.reader p
  vars : t.vars p = s.vars p
  calls : t.calls p = s.calls p
  lock : s.readLock = some (.reader p) → t.readLock = some (.reader p)

theorem WriterMove.frames (hm : WriterMove s t) (hi : WriterInv s) (p : Pool) : Frames s t p := by
  cases hm with
  | print g more hw hl hf =>
    refine ⟨List.prefix_append _ _, Nat.le_refl _, rfl, rfl, rfl, fun hp => ?_⟩
    rw [hl] at hp
    cases hp
  | finish rest more hw =>
    refine ⟨List.prefix_refl _, ?_, rfl, rfl, rfl, fun hp => ?_⟩
    · rw [List.length_append]
      exact Nat.le_add_right _ _
    · rw [hi.lock ⟨rest, more, hw⟩] at hp
      cases hp
  | _ => exact ⟨List.prefix_refl _, Nat.le_refl _, rfl, rfl, rfl, id⟩

theorem ReaderMove.frames {q : Pool} (hm : ReaderMove s q t) (hlock : ReadersLock s) (hne : p ≠ q) :
    Frames s t p := by
  have hother : ∀ before, s.reader q = .reading before → s.readLock ≠ some (.reader p) := by
    intro before hr hl
    rw [hlock q before hr] at hl
    cases hl
    exact hne rfl
  cases hm with
  | start hr =>
    exact ⟨List.prefix_refl _, Nat.le_refl _, Function.update_of_ne hne _ _,
      Function.update_of_ne hne _ _, rfl, id⟩
  | lock before hr hl =>
    refine ⟨List.prefix_refl _, Nat.le_refl _, Function.update_of_ne hne _ _, rfl, rfl,
      fun hp => ?_⟩
    rw [hl] at hp
    cases hp
  | crash before hr ha =>
    exact ⟨List.prefix_refl _, Nat.le_refl _, Function.update_of_ne hne _ _, rfl, rfl, id⟩
  | eof before r hr ha =>
    exact ⟨List.prefix_refl _, Nat.le_refl _, Function.update_of_ne hne _ _, rfl, rfl,
      fun hp => absurd hp (hother before hr)⟩
  | give before g r hr ha =>
    exact ⟨List.prefix_refl _, Nat.le_refl _, Function.update_of_ne hne _ _,
      Function.update_of_ne hne _ _, Function.update_of_ne hne _ _,
      fun hp => absurd hp (hother before hr)⟩
  | null before file hr =>
    exact ⟨List.prefix_refl _, Nat.le_refl _, Function.update_of_ne hne _ _,
      Function.update_of_ne hne _ _, Function.update_of_ne hne _ _, id⟩

theorem Move.frames {e : Event} (hm : Move s e t) (hi : WriterInv s) (hlock : ReadersLock s)
    (he : e ≠ .reader p) : Frames s t p := by
  cases hm with
  | writer t hm => exact hm.frames hi p
  | flush n rest more hw =>
    exact ⟨List.prefix_refl _, (List.prefix_append _ _).length_le, rfl, rfl, rfl, id⟩
  | reader q t hm => exact hm.frames hlock fun hpq => he (congrArg Event.reader hpq.symm)
  | _ => exact ⟨List.prefix_refl _, Nat.le_refl _, rfl, rfl, rfl, id⟩

def State.given (s : State) (p : Pool) : List JournalGroup := (s.calls p).filterMap (·.result)

def Call.NullAtEnd (c : Call) : Prop :=
  c.result = none → c.before.offset = c.file.length ∧ c.after = c.before

def ReaderPc.Counts (n : ℕ) (r : Reader) : ReaderPc → Prop
  | idle => r.groupNum = n
  | opened before | reading before => before = ⟨r.offset, n⟩ ∧ r.groupNum = n + 1
  | eof before file =>
    before = ⟨r.offset, n⟩ ∧ r.groupNum = n + 1 ∧ before.offset = file.length
  | crashed => False

structure ReaderInv (s : State) (p : Pool) (gs : List Group) : Prop where
  read : gs <+: s.written
  given : s.given p = gs.mapIdx fun k g => g.readBack p k
  offset : (s.vars p).offset = (text gs).length
  length_le : (text gs).length ≤ s.file.length
  counts : (s.reader p).Counts gs.length (s.vars p)
  lock : ∀ before, s.reader p = .reading before → s.readLock = some (.reader p)
  null : ∀ c ∈ s.calls p, c.NullAtEnd

theorem readerInv_init (p : Pool) : ReaderInv State.init p [] where
  read := List.nil_prefix
  given := rfl
  offset := rfl
  length_le := Nat.le_refl _
  counts := rfl
  lock := fun before h => by cases h
  null := fun c hc => absurd hc List.not_mem_nil

theorem ReaderInv.frame (h : ReaderInv s p gs) (hf : Frames s t p) : ReaderInv t p gs where
  read := h.read.trans hf.written
  given := by rw [State.given, hf.calls, ← h.given, State.given]
  offset := by rw [hf.vars, h.offset]
  length_le := h.length_le.trans hf.file
  counts := by rw [hf.reader, hf.vars]; exact h.counts
  lock := fun before hb => hf.lock (h.lock before (hf.reader ▸ hb))
  null := by rw [hf.calls]; exact h.null

theorem WriterInv.file_eq (hi : WriterInv s) (hl : s.readLock = some (.reader p)) :
    s.file = text s.written := by
  have hpend : s.writer.pending = [] := by
    cases hw : s.writer with
    | printing rest more =>
      rw [hi.lock ⟨rest, more, hw⟩] at hl
      cases hl
    | _ => rfl
  rw [hi.printed, hpend, List.append_nil]

theorem WriterInv.unread_cases (hi : WriterInv s) (hl : s.readLock = some (.reader p))
    (hread : gs <+: s.written) : s.file = text gs ∨
      ∃ g more, gs ++ [g] <+: s.written ∧ s.file = text gs ++ (g.text ++ text more) := by
  have hfile := hi.file_eq hl
  obtain ⟨more, hmore⟩ := hread
  cases more with
  | nil =>
    left
    rw [hfile, ← hmore, List.append_nil]
  | cons g more =>
    refine Or.inr ⟨g, more, ⟨more, ?_⟩, ?_⟩
    · rw [← hmore, List.append_assoc]
      rfl
    · rw [hfile, ← hmore, text_append]
      rfl

theorem ReaderInv.read_cases (h : ReaderInv s p gs) (hi : WriterInv s) {before : Reader}
    (hr : s.reader p = .reading before) (hlen : s.file.length < 2 ^ 31) :
    (s.file = text gs ∧ analyzeStringRead p s.file ⟨(s.vars p).offset, before.groupNum⟩ =
        some (none, ⟨(s.vars p).offset, before.groupNum⟩)) ∨
      ∃ g, gs ++ [g] <+: s.written ∧ (text (gs ++ [g])).length ≤ s.file.length ∧
        analyzeStringRead p s.file ⟨(s.vars p).offset, before.groupNum⟩ =
          some (some (g.readBack p gs.length), ⟨(text (gs ++ [g])).length, gs.length + 1⟩) := by
  have hcounts := h.counts
  rw [hr] at hcounts
  have hnum : before.groupNum = gs.length := by rw [hcounts.1]
  rcases hi.unread_cases (h.lock before hr) h.read with hend | ⟨g, more, hnext, hfile⟩
  · exact Or.inl ⟨hend, analyzeStringRead_end p (by rw [hend]; exact h.offset)⟩
  · have hsnoc := text_snoc gs g
    have hle : (text (gs ++ [g])).length ≤ s.file.length := by
      rw [hsnoc, hfile, ← List.append_assoc]
      exact (List.prefix_append _ _).length_le
    refine Or.inr ⟨g, hnext, hle, ?_⟩
    have hread := @analyzeStringRead_group p g (text gs) (text more)
      ⟨(s.vars p).offset, before.groupNum⟩ h.offset (by rw [← hsnoc]; omega)
    rw [hfile, hread, hnum, hsnoc]

theorem State.given_ret (s : State) (p : Pool) (c : Call) :
    (s.ret p c).given p = s.given p ++ c.result.toList := by
  simp only [State.given, State.ret, Function.update_self, List.filterMap_append]
  cases h : c.result <;> simp [h]

theorem readerInv_ret {c : Call} (hread : gs <+: s.written)
    (hgiven : s.given p ++ c.result.toList = gs.mapIdx fun k g => g.readBack p k)
    (hafter : c.after = ⟨(text gs).length, gs.length⟩) (hle : (text gs).length ≤ s.file.length)
    (hnull : ∀ c ∈ s.calls p, c.NullAtEnd) (hc : c.NullAtEnd) : ReaderInv (s.ret p c) p gs where
  read := hread
  given := by rw [State.given_ret, hgiven]
  offset := by simp only [State.ret, Function.update_self, hafter]
  length_le := hle
  counts := by simp only [State.ret, Function.update_self, hafter, ReaderPc.Counts]
  lock := by
    simp only [State.ret, Function.update_self]
    exact fun before hb => by cases hb
  null := by
    simp only [State.ret, Function.update_self]
    intro c' hc'
    rcases List.mem_append.1 hc' with hc' | hc'
    · exact hnull c' hc'
    · rw [List.mem_singleton.1 hc']
      exact hc

theorem ReaderInv.readerMove (h : ReaderInv s p gs) (hi : WriterInv s) (hm : ReaderMove s p t)
    (hlen : s.file.length < 2 ^ 31) : ∃ hs, ReaderInv t p hs := by
  cases hm with
  | start hr =>
    have hcounts := h.counts
    rw [hr] at hcounts
    refine ⟨gs, h.read, h.given, ?_, h.length_le, ?_, ?_, h.null⟩
    · simp only [State.setReader, State.setVars, Function.update_self, h.offset]
    · simp only [State.setReader, State.setVars, Function.update_self, ReaderPc.Counts]
      rw [← show (s.vars p).groupNum = gs.length from hcounts]
      exact ⟨rfl, rfl⟩
    · simp only [State.setReader, State.setVars, Function.update_self]
      exact fun before hb => by cases hb
  | lock before hr hl =>
    have hcounts := h.counts
    rw [hr] at hcounts
    refine ⟨gs, h.read, h.given, h.offset, h.length_le, ?_, fun _ _ => rfl, h.null⟩
    simp only [State.setReader, Function.update_self]
    exact hcounts
  | crash before hr ha =>
    rcases h.read_cases hi hr hlen with ⟨_, hread⟩ | ⟨g, _, _, hread⟩
    · rw [hread] at ha
      cases ha
    · rw [hread] at ha
      cases ha
  | eof before r hr ha =>
    have hcounts := h.counts
    rw [hr] at hcounts
    rcases h.read_cases hi hr hlen with ⟨hfile, _⟩ | ⟨g, _, _, hread⟩
    · refine ⟨gs, h.read, h.given, h.offset, h.length_le, ?_, ?_, h.null⟩
      · simp only [State.setReader, Function.update_self, ReaderPc.Counts]
        refine ⟨hcounts.1, hcounts.2, ?_⟩
        rw [hcounts.1, hfile]
        exact h.offset
      · simp only [State.setReader, Function.update_self]
        exact fun before hb => by cases hb
    · rw [hread] at ha
      cases ha
  | give before g r hr ha =>
    have hcounts := h.counts
    rw [hr] at hcounts
    rcases h.read_cases hi hr hlen with ⟨_, hread⟩ | ⟨g', hpre, hle, hread⟩
    · rw [hread] at ha
      cases ha
    · rw [hread] at ha
      cases ha
      have hnum : (s.vars p).groupNum = (gs ++ [g']).length := by
        rw [List.length_append]
        exact hcounts.2
      refine ⟨gs ++ [g'], readerInv_ret hpre ?_ ?_ hle h.null fun hn => by cases hn⟩
      · have hgiven := h.given
        rw [State.given] at hgiven
        simp [State.given, hgiven, List.mapIdx_append]
      · simp only [hnum]
  | null before file hr =>
    have hcounts := h.counts
    rw [hr] at hcounts
    obtain ⟨hbefore, hnum, hend⟩ := hcounts
    have hafter : (⟨(s.vars p).offset, (s.vars p).groupNum - 1⟩ : Reader) =
        ⟨(text gs).length, gs.length⟩ := by
      rw [h.offset, hnum, Int.add_sub_cancel]
    refine ⟨gs, readerInv_ret h.read ?_ hafter h.length_le h.null fun _ => ⟨hend, ?_⟩⟩
    · rw [Option.toList_none, List.append_nil, h.given]
    · rw [hafter, hbefore, h.offset]

def Inv (s : State) : Prop := WriterInv s ∧ ∀ p, ∃ gs, ReaderInv s p gs

theorem inv_init : Inv State.init := ⟨writerInv_init, fun p => ⟨[], readerInv_init p⟩⟩

/-- What holds of each reader holds after a step, if the reader's own moves and the frame of
all others keep it. -/
theorem WriterInv.step_readers {R : State → Pool → Prop} {e : Event} (hi : WriterInv s)
    (hr : ∀ p, R s p)
    (hlock : ∀ p before, R s p → s.reader p = .reading before → s.readLock = some (.reader p))
    (hmove : ∀ p, R s p → ReaderMove s p t → R t p) (hframe : ∀ p, R s p → Frames s t p → R t p)
    (hs : step s e = some t) : WriterInv t ∧ ∀ p, R t p := by
  have hcases := step_cases hs
  have hreaders : ReadersLock s := fun p before hb => hlock p before (hr p) hb
  refine ⟨hi.move hcases hreaders, fun p => ?_⟩
  by_cases he : e = .reader p
  · subst he
    cases hcases with
    | reader _ t hm => exact hmove p (hr p) hm
  · exact hframe p (hr p) (hcases.frames hi hreaders he)

theorem Inv.step {e : Event} (h : Inv s) (hs : step s e = some t) (hlen : s.file.length < 2 ^ 31) :
    Inv t := by
  refine h.1.step_readers (R := fun u p => ∃ gs, ReaderInv u p gs) h.2 ?_ ?_ ?_ hs
  · rintro p before ⟨gs, hgs⟩ hb
    exact hgs.lock before hb
  · rintro p ⟨gs, hgs⟩ hm
    exact hgs.readerMove h.1 hm hlen
  · rintro p ⟨gs, hgs⟩ hf
    exact ⟨gs, hgs.frame hf⟩

theorem Move.file_le {e : Event} (h : Move s e t) : s.file.length ≤ t.file.length := by
  cases h with
  | writer t hm =>
    cases hm with
    | finish rest more hw => exact (List.prefix_append _ _).length_le
    | _ => exact Nat.le_refl _
  | flush n rest more hw => exact (List.prefix_append _ _).length_le
  | reader p t hm => cases hm <;> exact Nat.le_refl _
  | _ => exact Nat.le_refl _

theorem inv_of_exec {es : List Event} (h : exec step State.init es = some s)
    (hlen : s.file.length < 2 ^ 31) : Inv s := by
  refine invariant_exec (I := fun u => u.file.length < 2 ^ 31 → Inv u) ?_ (fun _ => inv_init) h hlen
  intro u e v hu hstep hv
  have hle := (step_cases hstep).file_le
  exact (hu (by omega)).step hstep (by omega)

/-- Each reader was given a first part of the groups handed over, each with
its number, and NULL only at the end of the file. -/
structure Delivers (s : State) : Prop where
  given : ∀ p, ∃ gs, gs <+: s.handed ∧
    (s.given p = gs.map fun g => g.readBack p g.opsgroupsIndex) ∧
    ∀ (k : ℕ) (g : Group), gs[k]? = some g → (g.opsgroupsIndex : ℤ) = k
  null : ∀ p, ∀ c ∈ s.calls p, c.NullAtEnd
  alive : ∀ p, s.reader p ≠ .crashed

/-- In every interleaving, as long as the journal is below `2 ^ 31` characters. -/
theorem delivers_of_exec (es : List Event) (s : State) (h : exec step State.init es = some s)
    (hlen : s.file.length < 2 ^ 31) : Delivers s := by
  obtain ⟨hi, hr⟩ := inv_of_exec h hlen
  refine ⟨fun p => ?_, fun p => ?_, fun p hp => ?_⟩
  · obtain ⟨gs, hgs⟩ := hr p
    have hpre : gs <+: s.handed := by
      rw [hi.flow]
      exact hgs.read.trans (List.prefix_append _ _)
    have hindex : ∀ (k : ℕ) (g : Group), gs[k]? = some g → (g.opsgroupsIndex : ℤ) = k := by
      intro k g hk
      have hlt : k < gs.length := (List.getElem?_eq_some_iff.1 hk).1
      have hsize := le_length_text gs
      have hle := hgs.length_le
      obtain ⟨more, hmore⟩ := hpre
      have hk' : s.handed[k]? = some g := by rw [← hmore, List.getElem?_append_left hlt, hk]
      rw [hi.index k g hk']
      exact toInt32_eq ⟨by omega, by omega⟩
    refine ⟨gs, hpre, ?_, hindex⟩
    rw [hgs.given]
    refine List.ext_getElem? fun k => ?_
    rw [List.getElem?_mapIdx, List.getElem?_map]
    cases hk : gs[k]? with
    | none => rfl
    | some g => rw [Option.map_some, Option.map_some, hindex k g hk]
  · obtain ⟨gs, hgs⟩ := hr p
    exact hgs.null
  · obtain ⟨gs, hgs⟩ := hr p
    have hcounts := hgs.counts
    rw [hp] at hcounts
    exact hcounts

def oneList : GroupBody := ⟨[emptyList], emptyLists_ne_nil⟩

theorem fits_oneList (k : ℕ) : (oneList.group k).Fits := by
  intro l hl
  cases List.mem_singleton.1 hl
  exact ⟨by decide +kernel, fun line hline => absurd hline List.not_mem_nil⟩

theorem step_print {g : Group} {more : Bool} (h : s.writer = .write g more)
    (hl : s.readLock = none) (hd : s.destroy = .running) (hf : g.Fits) :
    step s .writer = some
      { s with
        readLock := some .writer
        writer := .printing g.text more
        written := s.written ++ [g] } := by
  simp only [step, hd, State.threadWritev, h, hl, if_true, writeGroup_eq_some.2 ⟨hf, rfl⟩,
    Option.map_some, reduceCtorEq, if_false]

theorem step_give {before r : Reader} {g : JournalGroup} (h : s.reader p = .reading before)
    (hd : s.destroy = .running)
    (hr : analyzeStringRead p s.file ⟨(s.vars p).offset, before.groupNum⟩ = some (some g, r)) :
    step s (.reader p) = some ({ s with readLock := none }.ret p
      ⟨before, s.file, some g, ⟨r.offset, (s.vars p).groupNum⟩⟩) := by
  simp only [step, hd, State.analyzeStep, h, hr, reduceCtorEq, if_false]

theorem delivers_oneGroup : ∃ s : State, exec step State.init
    [.handle oneList, .writer, .reader .digi, .writer, .reader .disk, .writer, .reader .disk,
      .reader .disk] = some s ∧ s.given .disk = [(oneList.group 0).readBack .disk 0] ∧
    Delivers s := by
  have hread := @analyzeStringRead_group .disk (oneList.group 0) [] [] Reader.init rfl
    (by decide +kernel)
  rw [List.append_nil] at hread
  obtain ⟨s, hrun, hfile, hgiven⟩ : ∃ s : State, exec step State.init
      [.handle oneList, .writer, .reader .digi, .writer, .reader .disk, .writer, .reader .disk,
        .reader .disk] = some s ∧ s.file = (oneList.group 0).text ∧
      s.given .disk = [(oneList.group 0).readBack .disk 0] :=
    ⟨_, exec_cons_eq_some.2 ⟨_, rfl, exec_cons_eq_some.2 ⟨_, rfl, exec_cons_eq_some.2 ⟨_, rfl,
      exec_cons_eq_some.2 ⟨_, step_print rfl rfl rfl (fits_oneList 0), exec_cons_eq_some.2 ⟨_, rfl,
        exec_cons_eq_some.2 ⟨_, rfl, exec_cons_eq_some.2 ⟨_, rfl, exec_cons_eq_some.2
          ⟨_, step_give rfl rfl hread, rfl⟩⟩⟩⟩⟩⟩⟩⟩, rfl, rfl⟩
  exact ⟨s, hrun, hgiven, delivers_of_exec _ s hrun (by rw [hfile]; decide +kernel)⟩

end MyScripts.Shark.Journal
