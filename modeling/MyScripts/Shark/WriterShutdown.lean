import MyScripts.Shark.PipelineDelivery

/-!
# The end of the writer thread

`gjournal_procedure_destroy` sets `thread_shutdown` and signals without
`write_lock`; `thread_writev` tests the flag only between two rounds, and the
queue only at the head of a round. Whether the signal is heard and the queue is
empty at the exit depends on where in its round the writer is.
-/
namespace MyScripts.Shark.Journal
open Library.Run

variable {s t u : State} {p : Pool} {e : Event} {es fs : List Event}

def State.signalled (s : State) : Bool :=
  match s.destroy with
  | .running | .flagged => false
  | .joining | .joined => true

/-- The writer does not look at the queue again before it tests `thread_shutdown`. -/
def WriterPc.Tail : WriterPc → Prop
  | write _ more | printing _ more | relock more => more = false
  | leaving => True
  | _ => False

theorem WriterPc.signal_ne (pc : WriterPc) : pc.signal ≠ waiting := by
  cases pc <;> exact WriterPc.noConfusion

theorem WriterPc.tail_signal (pc : WriterPc) : pc.signal.Tail ↔ pc.Tail := by
  cases pc <;> rfl

theorem WriterPc.signal_exited {pc : WriterPc} (h : pc.signal = exited) : pc = exited := by
  cases pc with
  | exited => rfl
  | _ => cases h

structure Shipped (s : State) : Prop where
  flow : s.handed = s.written ++ (s.writer.held ++ s.queue)
  printed : text s.written = s.file ++ s.writer.pending

theorem shipped_init : Shipped State.init := ⟨rfl, rfl⟩

/-- The two readers leave the writer's side of the pipeline alone. -/
structure SameWriter (s t : State) : Prop where
  handed : t.handed = s.handed
  queue : t.queue = s.queue
  writer : t.writer = s.writer
  written : t.written = s.written
  file : t.file = s.file
  destroy : t.destroy = s.destroy

theorem ReaderMove.sameWriter (h : ReaderMove s p t) : SameWriter s t := by
  cases h <;> exact ⟨rfl, rfl, rfl, rfl, rfl, rfl⟩

theorem Shipped.goto {pc : WriterPc} (h : Shipped s) (hheld : pc.held = s.writer.held)
    (hpend : pc.pending = s.writer.pending) : Shipped { s with writer := pc } where
  flow := by simp only [hheld, h.flow]
  printed := by simp only [hpend, h.printed]

theorem Shipped.writerMove (h : Shipped s) (hm : WriterMove s t) : Shipped t := by
  cases hm with
  | sleep hw hq => exact h.goto (by rw [hw]; rfl) (by rw [hw]; rfl)
  | take g rest hw hq =>
    have hflow := h.flow
    have hprinted := h.printed
    rw [hw.held, hq] at hflow
    rw [hw.pending] at hprinted
    exact ⟨hflow, hprinted⟩
  | leave hw =>
    rcases hw with ⟨hc, _⟩ | hw
    · exact h.goto hc.held.symm hc.pending.symm
    · exact h.goto (by rw [hw]; rfl) (by rw [hw]; rfl)
  | print g more hw hl hf =>
    have hflow := h.flow
    have hprinted := h.printed
    rw [hw] at hflow hprinted
    refine ⟨?_, ?_⟩
    · simpa only [WriterPc.held, List.append_assoc, List.nil_append] using hflow
    · simp only [WriterPc.pending, List.append_nil] at hprinted ⊢
      rw [text_snoc, hprinted]
  | finish rest more hw =>
    have hflow := h.flow
    have hprinted := h.printed
    rw [hw] at hflow hprinted
    exact ⟨hflow, by simpa only [WriterPc.pending, List.append_nil] using hprinted⟩
  | again hw hd => exact h.goto (by rw [hw]; rfl) (by rw [hw]; rfl)
  | exit hw hd => exact h.goto (by rw [hw]; rfl) (by rw [hw]; rfl)

theorem Shipped.move (h : Shipped s) (hm : Move s e t) : Shipped t := by
  have hsignal : Shipped { s with writer := s.writer.signal } :=
    h.goto (WriterPc.held_signal _) (WriterPc.pending_signal _)
  cases hm with
  | handle b =>
    refine ⟨?_, hsignal.printed⟩
    simp only [State.handleGroups, WriterPc.held_signal, h.flow, List.append_assoc]
  | writer t hm => exact h.writerMove hm
  | flush n rest more hw =>
    have hflow := h.flow
    have hprinted := h.printed
    rw [hw] at hflow hprinted
    refine ⟨hflow, ?_⟩
    simpa only [WriterPc.pending, List.append_assoc, List.take_append_drop] using hprinted
  | wake => exact hsignal
  | reader p t hm =>
    have hsame := hm.sameWriter
    refine ⟨?_, ?_⟩
    · rw [hsame.handed, hsame.written, hsame.writer, hsame.queue, h.flow]
    · rw [hsame.written, hsame.file, hsame.writer, h.printed]
  | flag hd => exact ⟨h.flow, h.printed⟩
  | signal hd => exact ⟨hsignal.flow, hsignal.printed⟩
  | join hd hw => exact ⟨h.flow, h.printed⟩

theorem Move.history (h : Move s e t) : s.handed <+: t.handed ∧ s.written <+: t.written := by
  cases h with
  | handle b => exact ⟨List.prefix_append _ _, List.prefix_refl _⟩
  | writer t hm =>
    cases hm with
    | print g more hw hl hf => exact ⟨List.prefix_refl _, List.prefix_append _ _⟩
    | _ => exact ⟨List.prefix_refl _, List.prefix_refl _⟩
  | reader p t hm =>
    have hsame := hm.sameWriter
    rw [hsame.handed, hsame.written]
    exact ⟨List.prefix_refl _, List.prefix_refl _⟩
  | _ => exact ⟨List.prefix_refl _, List.prefix_refl _⟩

theorem exit_cases (hm : WriterMove s t) (h : t.writer = .exited) :
    s.writer = .leaving ∧ s.threadShutdown = true ∧ t = { s with writer := .exited } := by
  cases hm with
  | exit hw hd => exact ⟨hw, hd, rfl⟩
  | _ => cases h

theorem Move.exited (h : Move s e t) (ht : t.writer = .exited) :
    s.writer = .exited ∨ e = .writer := by
  cases h with
  | handle b => exact Or.inl (WriterPc.signal_exited ht)
  | writer t hm => exact Or.inr rfl
  | flush n rest more hw => cases ht
  | wake => exact Or.inl (WriterPc.signal_exited ht)
  | reader p t hm => exact Or.inl (hm.sameWriter.writer ▸ ht)
  | flag hd => exact Or.inl ht
  | signal hd => exact Or.inl (WriterPc.signal_exited ht)
  | join hd hw => exact Or.inl ht

theorem Move.threadShutdown (h : Move s e t) (hd : s.threadShutdown = true) :
    t.threadShutdown = true := by
  cases h with
  | writer t hm => cases hm <;> exact hd
  | reader p t hm => rw [State.threadShutdown, hm.sameWriter.destroy]; exact hd
  | flag hd => rfl
  | signal hd => rfl
  | join hd hw => rfl
  | _ => exact hd

/-- The signal is not sent before the writer waits on an empty queue, and with
the flag set no group is behind a writer in the tail of its round. -/
def Heard (s : State) : Event → Prop
  | .writer => s.signalled = true → s.writer = .top → s.queue ≠ []
  | .handle _ => s.threadShutdown = true → ¬s.writer.Tail
  | .destroy => s.destroy = .running → s.writer.Tail → s.queue = []
  | _ => True

structure ShutdownInv (s : State) : Prop where
  shipped : Shipped s
  awake : s.signalled = true → s.writer ≠ .waiting
  tail : s.threadShutdown = true → s.writer.Tail → s.queue = []
  out : s.writer = .exited → s.threadShutdown = true

theorem shutdownInv_init : ShutdownInv State.init where
  shipped := shipped_init
  awake := Bool.noConfusion
  tail := Bool.noConfusion
  out := WriterPc.noConfusion

theorem ShutdownInv.writerMove (h : ShutdownInv s) (hg : Heard s .writer) (hm : WriterMove s t) :
    (t.signalled = true → t.writer ≠ .waiting) ∧
      (t.threadShutdown = true → t.writer.Tail → t.queue = []) := by
  cases hm with
  | sleep hw hq => exact ⟨fun hs => absurd hq (hg hs hw), fun _ ht => ht.elim⟩
  | take g rest hw hq =>
    refine ⟨fun _ => WriterPc.noConfusion, fun _ ht => ?_⟩
    cases rest with
    | nil => rfl
    | cons g' rest => cases ht
  | leave hw =>
    refine ⟨fun _ => WriterPc.noConfusion, fun hd _ => ?_⟩
    rcases hw with ⟨_, hq⟩ | hw
    · exact hq
    · exact h.tail hd (by rw [hw]; rfl)
  | print g more hw hl hf =>
    exact ⟨fun _ => WriterPc.noConfusion, fun hd ht => h.tail hd (by rw [hw]; exact ht)⟩
  | finish rest more hw =>
    exact ⟨fun _ => WriterPc.noConfusion, fun hd ht => h.tail hd (by rw [hw]; exact ht)⟩
  | again hw hd => exact ⟨fun _ => WriterPc.noConfusion, fun _ ht => ht.elim⟩
  | exit hw hd => exact ⟨fun _ => WriterPc.noConfusion, fun _ ht => ht.elim⟩

theorem ShutdownInv.move_out (h : ShutdownInv s) (hm : Move s e t) (ht : t.writer = .exited) :
    t.threadShutdown = true := by
  rcases hm.exited ht with hs | rfl
  · exact hm.threadShutdown (h.out hs)
  · cases hm with
    | writer t hw =>
      obtain ⟨_, hd, rfl⟩ := exit_cases hw ht
      exact hd

theorem ShutdownInv.step (h : ShutdownInv s) (hg : Heard s e) (hs : step s e = some t) :
    ShutdownInv t := by
  have hmove := step_cases hs
  have hshipped := h.shipped.move hmove
  have hout := h.move_out hmove
  cases hmove with
  | handle b =>
    refine ⟨hshipped, fun _ => WriterPc.signal_ne _, fun hd ht => ?_, hout⟩
    exact absurd ((WriterPc.tail_signal _).1 ht) (hg hd)
  | writer t hm =>
    obtain ⟨hawake, htail⟩ := h.writerMove hg hm
    exact ⟨hshipped, hawake, htail, hout⟩
  | flush n rest more hw =>
    exact ⟨hshipped, fun _ => WriterPc.noConfusion,
      fun hd ht => h.tail hd (by rw [hw]; exact ht), hout⟩
  | wake =>
    exact ⟨hshipped, fun _ => WriterPc.signal_ne _,
      fun hd ht => h.tail hd ((WriterPc.tail_signal _).1 ht), hout⟩
  | reader p t hm =>
    have hsame := hm.sameWriter
    refine ⟨hshipped, fun hd => ?_, fun hd ht => ?_, hout⟩
    · rw [State.signalled, hsame.destroy] at hd
      rw [hsame.writer]
      exact h.awake hd
    · rw [State.threadShutdown, hsame.destroy] at hd
      rw [hsame.writer] at ht
      rw [hsame.queue]
      exact h.tail hd ht
  | flag hd => exact ⟨hshipped, Bool.noConfusion, fun _ ht => hg hd ht, hout⟩
  | signal hd =>
    refine ⟨hshipped, fun _ => WriterPc.signal_ne _, fun _ ht => ?_, hout⟩
    exact h.tail (by rw [State.threadShutdown, hd]; rfl) ((WriterPc.tail_signal _).1 ht)
  | join hd hw =>
    refine ⟨hshipped, fun _ => ?_, fun _ ht => ?_, hout⟩
    · rw [hw]
      exact WriterPc.noConfusion
    · rw [hw] at ht
      exact ht.elim

/-- In every state of the run a writer that is signalled does not wait, it exits
with an empty queue, and then what was handed over before the shutdown is in the file. -/
structure ShutdownKept (es : List Event) : Prop where
  awake : ∀ pre, pre <+: es → ∀ s, exec step State.init pre = some s → s.signalled = true →
    s.writer ≠ .waiting
  drained : ∀ pre, pre ++ [.writer] <+: es → ∀ s t, exec step State.init pre = some s →
    step s .writer = some t → t.writer = .exited → t.queue = []
  written : ∀ pre mid, pre ++ .destroy :: mid <+: es → ∀ s t, exec step State.init pre = some s →
    s.destroy = .running → exec step s (.destroy :: mid) = some t → t.writer = .exited →
    ∃ more, t.file = text (s.handed ++ more)

theorem ShutdownInv.exit (h : ShutdownInv s) (hs : Journal.step s .writer = some t)
    (ht : t.writer = .exited) : t.queue = [] ∧ t.handed = t.written := by
  cases step_cases hs with
  | writer t hm =>
    obtain ⟨hw, hd, rfl⟩ := exit_cases hm ht
    have hqueue := h.tail hd (by rw [hw]; trivial)
    refine ⟨hqueue, ?_⟩
    have hflow := h.shipped.flow
    rw [hw, hqueue] at hflow
    simpa only [WriterPc.held, List.append_nil] using hflow

theorem shutdownInv_of_guarded (hg : Guarded step Heard State.init es)
    (h : exec step State.init es = some s) : ShutdownInv s :=
  invariant_guarded (fun _ _ _ hI hge hs => hI.step hge hs) shutdownInv_init hg h

theorem written_of_guarded (hI : ShutdownInv u) (hrunning : u.writer ≠ .exited)
    (hg : Guarded step Heard u es) (h : exec step u es = some t) (ht : t.writer = .exited) :
    u.handed <+: t.written := by
  refine (invariant_guarded (I := fun s => ShutdownInv s ∧ u.handed <+: s.handed ∧
    (s.writer = .exited → u.handed <+: s.written)) ?_
    ⟨hI, List.prefix_refl _, fun hw => absurd hw hrunning⟩ hg h).2.2 ht
  rintro s e t ⟨hI, hhanded, hwritten⟩ hge hs
  have hmove := step_cases hs
  obtain ⟨hh, hw⟩ := hmove.history
  refine ⟨hI.step hge hs, hhanded.trans hh, fun ht => ?_⟩
  rcases hmove.exited ht with hs' | rfl
  · exact (hwritten hs').trans hw
  · rw [← (hI.exit hs ht).2]
    exact hhanded.trans hh

theorem shutdownKept_of_guarded (hg : Guarded step Heard State.init es) : ShutdownKept es where
  awake := fun pre hp s h => (shutdownInv_of_guarded (hg.of_prefix hp) h).awake
  drained := by
    intro pre hp s t h hs ht
    have hinv := shutdownInv_of_guarded (hg.of_prefix hp).of_append h
    exact (hinv.exit hs ht).1
  written := by
    intro pre mid hp s t h hd hrun ht
    have hguard := hg.of_prefix hp
    have hinv := shutdownInv_of_guarded hguard.of_append h
    have hrunning : s.writer ≠ .exited := by
      intro hw
      have hflag := hinv.out hw
      rw [State.threadShutdown, hd] at hflag
      cases hflag
    obtain ⟨more, hmore⟩ := written_of_guarded hinv hrunning ((guarded_append h).1 hguard).2 hrun ht
    have hend := shutdownInv_of_guarded hguard (exec_trans h hrun)
    have hfile := hend.shipped.printed
    rw [ht, ← hmore] at hfile
    refine ⟨more, ?_⟩
    rw [hfile]
    simp only [WriterPc.pending, List.append_nil]

structure LeftBehind (s : State) : Prop where
  flag : s.threadShutdown = true
  tail : s.writer.Tail
  queued : s.queue ≠ []

theorem LeftBehind.writerMove (h : LeftBehind s) (hm : WriterMove s t) :
    t.queue ≠ [] ∧ (t.writer.Tail ∨ t.writer = .exited) := by
  have htail := h.tail
  cases hm with
  | sleep hw hq => exact absurd hq h.queued
  | take g rest hw hq =>
    rcases hw with hw | hw | hw <;> rw [hw] at htail
    · exact htail.elim
    · exact htail.elim
    · cases htail
  | leave hw => exact ⟨h.queued, Or.inl trivial⟩
  | print g more hw hl hf =>
    rw [hw] at htail
    exact ⟨h.queued, Or.inl htail⟩
  | finish rest more hw =>
    rw [hw] at htail
    exact ⟨h.queued, Or.inl htail⟩
  | again hw hd =>
    rw [h.flag] at hd
    cases hd
  | exit hw hd => exact ⟨h.queued, Or.inr rfl⟩

theorem LeftBehind.step (h : LeftBehind s) (hs : Journal.step s e = some t) :
    LeftBehind t ∨ e = .writer ∧ t.writer = .exited ∧ t.queue ≠ [] := by
  have hmove := step_cases hs
  have hflag := hmove.threadShutdown h.flag
  cases hmove with
  | handle b =>
    refine Or.inl ⟨hflag, (WriterPc.tail_signal _).2 h.tail, ?_⟩
    exact List.append_ne_nil_of_right_ne_nil _ (List.cons_ne_nil _ _)
  | writer t hm =>
    obtain ⟨hqueued, htail | hexit⟩ := h.writerMove hm
    · exact Or.inl ⟨hflag, htail, hqueued⟩
    · exact Or.inr ⟨rfl, hexit, hqueued⟩
  | flush n rest more hw =>
    have htail := h.tail
    rw [hw] at htail
    exact Or.inl ⟨hflag, htail, h.queued⟩
  | wake => exact Or.inl ⟨hflag, (WriterPc.tail_signal _).2 h.tail, h.queued⟩
  | reader p t hm =>
    have hsame := hm.sameWriter
    exact Or.inl ⟨hflag, hsame.writer ▸ h.tail, hsame.queue ▸ h.queued⟩
  | flag hd => exact Or.inl ⟨hflag, h.tail, h.queued⟩
  | signal hd => exact Or.inl ⟨hflag, (WriterPc.tail_signal _).2 h.tail, h.queued⟩
  | join hd hw => exact Or.inl ⟨hflag, h.tail, h.queued⟩

theorem LeftBehind.exits (h : LeftBehind s) (hrun : exec Journal.step s es = some t)
    (ht : t.writer = .exited) : ∃ pre u v, pre ++ [.writer] <+: es ∧
      exec Journal.step s pre = some u ∧ Journal.step u .writer = some v ∧
        v.writer = .exited ∧ v.queue ≠ [] := by
  induction es generalizing s with
  | nil =>
    cases hrun
    have htail := h.tail
    rw [ht] at htail
    exact htail.elim
  | cons e es ih =>
    obtain ⟨u, hu, hrest⟩ := exec_cons_eq_some.1 hrun
    rcases h.step hu with hleft | ⟨rfl, hexit, hqueued⟩
    · obtain ⟨pre, v, w, hpre, hv, hw, hend⟩ := ih hleft hrest
      refine ⟨e :: pre, v, w, ?_, exec_cons_eq_some.2 ⟨u, hu, hv⟩, hw, hend⟩
      exact List.cons_prefix_cons.2 ⟨rfl, hpre⟩
    · exact ⟨[], s, u, List.cons_prefix_cons.2 ⟨rfl, List.nil_prefix⟩, rfl, hu, hexit, hqueued⟩

/-- What a step that is not heard leads to. -/
theorem not_heard (hg : ¬Heard s e) (hs : step s e = some t) :
    t.signalled = true ∧ t.writer = .waiting ∨ LeftBehind t := by
  cases e with
  | writer =>
    simp only [Heard, Classical.not_imp, not_not] at hg
    obtain ⟨hsignal, hw, hq⟩ := hg
    left
    have hwrite : s.threadWritev = some t := (Option.ite_none_left_eq_some.1 hs).2
    simp only [State.threadWritev, hw, hq, List.isEmpty_nil, if_true, Option.some.injEq] at hwrite
    subst hwrite
    exact ⟨hsignal, rfl⟩
  | handle b =>
    simp only [Heard, Classical.not_imp, not_not] at hg
    right
    cases step_cases hs with
    | handle b =>
      refine ⟨hg.1, (WriterPc.tail_signal _).2 hg.2, ?_⟩
      exact List.append_ne_nil_of_right_ne_nil _ (List.cons_ne_nil _ _)
  | destroy =>
    simp only [Heard, Classical.not_imp] at hg
    obtain ⟨hrunning, htail, hq⟩ := hg
    right
    cases step_cases hs with
    | flag hd => exact ⟨rfl, htail, hq⟩
    | signal hd => rw [hrunning] at hd; cases hd
    | join hd hw => rw [hrunning] at hd; cases hd
  | flush n => exact absurd trivial hg
  | wake => exact absurd trivial hg
  | reader p => exact absurd trivial hg

theorem guarded_of_shutdownKept (h : exec step State.init es = some s) (ht : s.writer = .exited)
    (hkept : ShutdownKept es) : Guarded step Heard State.init es := by
  by_contra hg
  obtain ⟨pre, e, post, u, v, rfl, hpre, hnot, hstep, hpost⟩ := exists_of_not_guarded h hg
  have hv : exec step State.init (pre ++ [e]) = some v :=
    exec_trans hpre (exec_cons_eq_some.2 ⟨v, hstep, rfl⟩)
  have hsplit : pre ++ e :: post = pre ++ [e] ++ post := by rw [List.append_assoc]; rfl
  rcases not_heard hnot hstep with ⟨hsignal, hwaiting⟩ | hleft
  · exact hkept.awake (pre ++ [e]) ⟨post, hsplit.symm⟩ v hv hsignal hwaiting
  · obtain ⟨mid, x, y, ⟨rest, hrest⟩, hx, hy, hexit, hqueued⟩ := hleft.exits hpost ht
    refine hqueued (hkept.drained (pre ++ [e] ++ mid) ⟨rest, ?_⟩ x y (exec_trans hv hx) hy hexit)
    rw [hsplit, ← hrest]
    simp only [List.append_assoc]

/-- A run keeps the shutdown if the signal and the flag are heard at every step;
once the writer is out, only then. -/
theorem shutdownKept_iff (es : List Event) (s : State) (h : exec step State.init es = some s) :
    (Guarded step Heard State.init es → ShutdownKept es) ∧
      (s.writer = .exited → (ShutdownKept es ↔ Guarded step Heard State.init es)) :=
  ⟨shutdownKept_of_guarded, fun ht =>
    ⟨guarded_of_shutdownKept h ht, shutdownKept_of_guarded⟩⟩

theorem shutdownKept_iff_onePrinted : ∃ s : State, exec step State.init
    [.writer, .handle oneList, .writer, .writer, .writer, .destroy, .destroy, .writer, .writer] =
      some s ∧ s.writer = .exited ∧ s.written = [oneList.group 0] ∧
    ShutdownKept [.writer, .handle oneList, .writer, .writer, .writer, .destroy, .destroy,
      .writer, .writer] := by
  obtain ⟨s, hrun, hexit, hwritten⟩ : ∃ s : State, exec step State.init
      [.writer, .handle oneList, .writer, .writer, .writer, .destroy, .destroy, .writer,
        .writer] = some s ∧ s.writer = .exited ∧ s.written = [oneList.group 0] :=
    ⟨_, exec_cons_eq_some.2 ⟨_, rfl, exec_cons_eq_some.2 ⟨_, rfl, exec_cons_eq_some.2 ⟨_, rfl,
      exec_cons_eq_some.2 ⟨_, step_print rfl rfl rfl (fits_oneList _), rfl⟩⟩⟩⟩, rfl, rfl⟩
  refine ⟨s, hrun, hexit, hwritten, (shutdownKept_iff _ s hrun).1 ?_⟩
  refine .cons (fun h => Bool.noConfusion h) rfl <| .cons (fun h => Bool.noConfusion h) rfl <|
    .cons (fun h => Bool.noConfusion h) rfl <|
    .cons (fun h => Bool.noConfusion h) (step_print rfl rfl rfl (fits_oneList _)) <|
    .cons (fun h => Bool.noConfusion h) rfl <| .cons (fun _ _ => rfl) rfl <|
    .cons (fun h => DestroyPc.noConfusion h) rfl <| .cons (fun _ h => WriterPc.noConfusion h) rfl <|
    .cons (fun _ h => WriterPc.noConfusion h) rfl trivial

/-- The signal comes before the writer waits; a group is handed over while the
writer prints the last one it saw, and then the flag is set. -/
theorem shutdownKept_false_lateSignal_lateGroup :
    ¬ShutdownKept [.destroy, .destroy, .writer] ∧
      ¬ShutdownKept [.handle oneList, .writer, .writer, .handle oneList, .destroy, .writer,
        .writer, .writer] := by
  refine ⟨fun h => ?_, fun h => ?_⟩
  · exact h.awake _ (List.prefix_refl _) _ rfl rfl rfl
  · have hrun : exec step State.init [.handle oneList, .writer, .writer, .handle oneList, .destroy,
        .writer, .writer] = some _ :=
      exec_cons_eq_some.2 ⟨_, rfl, exec_cons_eq_some.2 ⟨_, rfl,
        exec_cons_eq_some.2 ⟨_, step_print rfl rfl rfl (fits_oneList _), rfl⟩⟩⟩
    have hqueue := h.drained _ (List.prefix_refl _) _ _ hrun rfl rfl
    cases hqueue

end MyScripts.Shark.Journal
