import MyScripts.Shark.PipelineDelivery
import Mathlib.Data.Nat.Find

/-!
# The readers' offsets

`disk_cur_offset` and `cluster_cur_offset` are of type `int`. A reader reads the
groups one after the other and its offset is the end of the last one, up to the
first group that ends at `2 ^ 31` characters or more: from then on no offset is
where the next group begins.
-/
namespace MyScripts.Shark.Journal
open Library.Run Library.Decimal

def boundary (gs : List Group) (k : ℕ) : ℕ := (text (gs.take k)).length

/-- The positions at which the calls of a reader that gave a group began to read. -/
def State.starts (s : State) (p : Pool) : List ℕ :=
  ((s.calls p).filter (·.result.isSome)).map fun c => seek c.before.offset

def State.firstUnread (s : State) (p : Pool) : ℕ :=
  ((List.range s.handed.length).find? fun k => !(s.starts p).contains (boundary s.handed k)).getD
    s.handed.length

/-- The next read begins with the first group that has not been read. -/
def State.OffsetExact (s : State) (p : Pool) : Prop :=
  (s.vars p).offset = boundary s.handed (s.firstUnread p)

variable {s t : State} {p : Pool} {gs hs : List Group} {k l : ℕ}

theorem boundary_length (gs : List Group) : boundary gs gs.length = (text gs).length := by
  rw [boundary, List.take_length]

theorem boundary_congr (h : gs <+: hs) (hk : k ≤ gs.length) : boundary hs k = boundary gs k := by
  obtain ⟨more, rfl⟩ := h
  rw [boundary, List.take_append_of_le_length hk, boundary]

theorem boundary_succ (hk : k < gs.length) :
    boundary gs (k + 1) = boundary gs k + gs[k].text.length := by
  rw [boundary, List.take_succ_eq_append_getElem hk, text_snoc, List.length_append, boundary]

theorem boundary_lt (h : k < l) (hl : l ≤ gs.length) : boundary gs k < boundary gs l := by
  induction l with
  | zero => exact absurd h (Nat.not_lt_zero k)
  | succ l ih =>
    have hstep := boundary_succ (show l < gs.length from hl)
    have hpos := gs[l].le_length_text
    rcases Nat.lt_succ_iff_lt_or_eq.1 h with hlt | rfl
    · have hrest := ih hlt (by omega)
      omega
    · omega

theorem boundary_le (h : k ≤ l) (hl : l ≤ gs.length) : boundary gs k ≤ boundary gs l := by
  rcases Nat.eq_or_lt_of_le h with rfl | hlt
  · exact Nat.le_refl _
  · exact Nat.le_of_lt (boundary_lt hlt hl)

theorem firstUnread_le : s.firstUnread p ≤ s.handed.length := by
  unfold State.firstUnread
  cases hfind : (List.range s.handed.length).find? _ with
  | none => exact Nat.le_refl _
  | some k =>
    have hmem := (List.find?_range_eq_some.1 hfind).2.1
    exact Nat.le_of_lt (List.mem_range.1 hmem)

theorem firstUnread_eq (hk : k ≤ s.handed.length)
    (hread : ∀ i < k, boundary s.handed i ∈ s.starts p)
    (hnot : k < s.handed.length → boundary s.handed k ∉ s.starts p) : s.firstUnread p = k := by
  unfold State.firstUnread
  rcases Nat.eq_or_lt_of_le hk with heq | hlt
  · have hnone : (List.range s.handed.length).find?
        (fun i => !(s.starts p).contains (boundary s.handed i)) = none := by
      apply List.find?_range_eq_none.2
      intro i hi
      simp [hread i (by omega)]
    rw [hnone, Option.getD_none, heq]
  · have hsome : (List.range s.handed.length).find?
        (fun i => !(s.starts p).contains (boundary s.handed i)) = some k := by
      apply List.find?_range_eq_some.2
      refine ⟨by simp [hnot hlt], List.mem_range.2 hlt, fun i hi => ?_⟩
      simp [hread i hi]
    rw [hsome, Option.getD_some]

theorem le_firstUnread (hk : k ≤ s.handed.length)
    (hread : ∀ i < k, boundary s.handed i ∈ s.starts p) : k ≤ s.firstUnread p := by
  unfold State.firstUnread
  cases hfind : (List.range s.handed.length).find? _ with
  | none => exact hk
  | some i =>
    have hi := (List.find?_range_eq_some.1 hfind).1
    by_contra hlt
    have hmem := hread i (Nat.lt_of_not_le hlt)
    simp [hmem] at hi

/-- `gs` are groups that have been read. As long as they end below `2 ^ 31`, the reader has
read nothing else and stands at their end. -/
structure OffsetInv (s : State) (p : Pool) (gs : List Group) : Prop where
  written : gs <+: s.written
  read : ∀ i < gs.length, boundary gs i ∈ s.starts p
  exact : (text gs).length < 2 ^ 31 → (s.vars p).offset = (text gs).length ∧
    ∀ x ∈ s.starts p, x < (text gs).length
  range : InInt32 (s.vars p).offset
  lock : ∀ before, s.reader p = .reading before → s.readLock = some (.reader p)
  before : ∀ before, s.reader p = .opened before ∨ s.reader p = .reading before →
    before.offset = (s.vars p).offset

theorem offsetInv_init (p : Pool) : OffsetInv State.init p [] where
  written := List.nil_prefix
  read := fun i hi => absurd hi (Nat.not_lt_zero i)
  exact := fun _ => ⟨rfl, fun x hx => absurd hx List.not_mem_nil⟩
  range := show InInt32 0 by decide
  lock := fun before h => by cases h
  before := fun before h => by rcases h with h | h <;> cases h

/-- While the groups end below `2 ^ 31` the offset is exact, and afterwards never. -/
theorem OffsetInv.exact_iff (h : OffsetInv s p gs) (hi : WriterInv s) :
    s.OffsetExact p ↔ boundary s.handed (s.firstUnread p) < 2 ^ 31 := by
  have hpre : gs <+: s.handed := by
    rw [hi.flow]
    exact h.written.trans (List.prefix_append _ _)
  have hread : ∀ i < gs.length, boundary s.handed i ∈ s.starts p := by
    intro i hi
    rw [boundary_congr hpre (Nat.le_of_lt hi)]
    exact h.read i hi
  have hend : boundary s.handed gs.length = (text gs).length := by
    rw [boundary_congr hpre (Nat.le_refl _), boundary_length]
  have hrange := h.range.2
  unfold State.OffsetExact
  by_cases hlen : (text gs).length < 2 ^ 31
  · obtain ⟨hoffset, hstarts⟩ := h.exact hlen
    have hunread : s.firstUnread p = gs.length := by
      apply firstUnread_eq hpre.length_le hread
      intro _ hmem
      have hlt := hstarts _ hmem
      omega
    rw [hunread, hend, hoffset]
    exact ⟨fun _ => hlen, fun _ => rfl⟩
  · have hle := le_firstUnread hpre.length_le hread
    have hlarge := boundary_le hle firstUnread_le
    rw [hend] at hlarge
    constructor
    · intro heq
      omega
    · intro hlt
      omega

theorem OffsetInv.frame (h : OffsetInv s p gs) (hf : Frames s t p) : OffsetInv t p gs := by
  have hstarts : t.starts p = s.starts p := by rw [State.starts, hf.calls, State.starts]
  refine ⟨h.written.trans hf.written, ?_, ?_, ?_, ?_, ?_⟩
  · rw [hstarts]
    exact h.read
  · rw [hstarts, hf.vars]
    exact h.exact
  · rw [hf.vars]
    exact h.range
  · rw [hf.reader]
    exact fun before hb => hf.lock (h.lock before hb)
  · rw [hf.reader, hf.vars]
    exact h.before

theorem State.starts_ret (s : State) (p : Pool) (c : Call) : (s.ret p c).starts p =
    s.starts p ++ if c.result.isSome then [seek c.before.offset] else [] := by
  simp only [State.starts, State.ret, Function.update_self, List.filter_append, List.map_append]
  cases hc : c.result <;> simp [hc]

theorem offsetInv_ret {c : Call} (hwritten : gs <+: s.written)
    (hread : ∀ i < gs.length, boundary gs i ∈ (s.ret p c).starts p)
    (hexact : (text gs).length < 2 ^ 31 → c.after.offset = (text gs).length ∧
      ∀ x ∈ (s.ret p c).starts p, x < (text gs).length)
    (hrange : InInt32 c.after.offset) : OffsetInv (s.ret p c) p gs where
  written := hwritten
  read := hread
  exact := by
    simp only [State.ret, Function.update_self]
    exact hexact
  range := by
    simp only [State.ret, Function.update_self]
    exact hrange
  lock := by
    simp only [State.ret, Function.update_self]
    exact fun before hb => by cases hb
  before := by
    simp only [State.ret, Function.update_self]
    exact fun before hb => by rcases hb with hb | hb <;> cases hb

theorem boundary_append_length (gs : List Group) (g : Group) :
    boundary (gs ++ [g]) gs.length = (text gs).length := by
  rw [boundary_congr (List.prefix_append _ _) (Nat.le_refl _), boundary_length]

theorem OffsetInv.read_next (h : OffsetInv s p gs) (hi : WriterInv s) {before r : Reader}
    {g : JournalGroup} (hr : s.reader p = .reading before)
    (hoffset : (s.vars p).offset = (text gs).length)
    (ha : analyzeStringRead p s.file ⟨(s.vars p).offset, before.groupNum⟩ = some (some g, r)) :
    ∃ g', gs ++ [g'] <+: s.written ∧ r.offset = toInt32 (text (gs ++ [g'])).length := by
  rcases hi.unread_cases (h.lock before hr) h.written with hend | ⟨g', more, hnext, hfile⟩
  · rw [analyzeStringRead_end p (by rw [hend]; exact hoffset)] at ha
    cases ha
  · have hread := @analyzeStringRead_next p g' (text gs) (text more)
      ⟨(s.vars p).offset, before.groupNum⟩ hoffset
    rw [hfile, hread] at ha
    cases ha
    exact ⟨g', hnext, by rw [text_snoc]⟩

theorem OffsetInv.give (h : OffsetInv s p gs) (hi : WriterInv s) {before r : Reader}
    {g : JournalGroup} (hr : s.reader p = .reading before)
    (ha : analyzeStringRead p s.file ⟨(s.vars p).offset, before.groupNum⟩ = some (some g, r)) :
    ∃ hs, OffsetInv ({ s with readLock := none }.ret p
      ⟨before, s.file, some g, ⟨r.offset, (s.vars p).groupNum⟩⟩) p hs := by
  have hrange := analyzeStringRead_offset ha h.range
  have hstarts := State.starts_ret { s with readLock := none } p
    ⟨before, s.file, some g, ⟨r.offset, (s.vars p).groupNum⟩⟩
  have hmem : ∀ x ∈ s.starts p, x ∈ ({ s with readLock := none }.ret p
      ⟨before, s.file, some g, ⟨r.offset, (s.vars p).groupNum⟩⟩ : State).starts p := by
    intro x hx
    rw [hstarts]
    exact List.mem_append_left _ hx
  by_cases hlen : (text gs).length < 2 ^ 31
  · obtain ⟨hoffset, hless⟩ := h.exact hlen
    have hseek : seek before.offset = (text gs).length := by
      rw [h.before before (Or.inr hr), hoffset, seek, Int.toNat_natCast]
    obtain ⟨g', hnext, hafter⟩ := h.read_next hi hr hoffset ha
    have hlonger : (text gs).length < (text (gs ++ [g'])).length := by
      have hpos := g'.le_length_text
      rw [text_snoc, List.length_append]
      omega
    refine ⟨gs ++ [g'], offsetInv_ret hnext ?_ ?_ hrange⟩
    · intro i hi'
      rw [List.length_append, List.length_singleton] at hi'
      rcases Nat.lt_succ_iff_lt_or_eq.1 hi' with hlt | rfl
      · rw [boundary_congr (List.prefix_append _ _) (Nat.le_of_lt hlt)]
        exact hmem _ (h.read i hlt)
      · rw [hstarts, boundary_append_length]
        simp [hseek]
    · intro hlen'
      refine ⟨hafter.trans (toInt32_eq ⟨by omega, by omega⟩), fun x hx => ?_⟩
      rw [hstarts] at hx
      rcases List.mem_append.1 hx with hx | hx
      · exact (hless x hx).trans hlonger
      · have hnew : x = (text gs).length := by simpa [hseek] using hx
        omega
  · refine ⟨gs, offsetInv_ret h.written (fun i hi' => hmem _ (h.read i hi')) ?_ hrange⟩
    exact fun hlen' => absurd hlen' hlen

theorem OffsetInv.readerMove (h : OffsetInv s p gs) (hi : WriterInv s) (hm : ReaderMove s p t) :
    ∃ hs, OffsetInv t p hs := by
  cases hm with
  | start hr =>
    refine ⟨gs, h.written, h.read, ?_, ?_, ?_, ?_⟩
    · simp only [State.setReader, State.setVars, Function.update_self]
      exact h.exact
    · simp only [State.setReader, State.setVars, Function.update_self]
      exact h.range
    · simp only [State.setReader, State.setVars, Function.update_self]
      exact fun before hb => by cases hb
    · simp only [State.setReader, State.setVars, Function.update_self]
      rintro before (hb | hb)
      · cases hb
        rfl
      · cases hb
  | lock before hr hl =>
    refine ⟨gs, h.written, h.read, h.exact, h.range, fun _ _ => rfl, ?_⟩
    simp only [State.setReader, Function.update_self]
    rintro b (hb | hb)
    · cases hb
    · cases hb
      exact h.before before (Or.inl hr)
  | crash before hr ha =>
    refine ⟨gs, h.written, h.read, h.exact, h.range, ?_, ?_⟩
    · simp only [State.setReader, Function.update_self]
      exact fun before hb => by cases hb
    · simp only [State.setReader, Function.update_self]
      exact fun before hb => by rcases hb with hb | hb <;> cases hb
  | eof before r hr ha =>
    refine ⟨gs, h.written, h.read, h.exact, h.range, ?_, ?_⟩
    · simp only [State.setReader, Function.update_self]
      exact fun before hb => by cases hb
    · simp only [State.setReader, Function.update_self]
      exact fun before hb => by rcases hb with hb | hb <;> cases hb
  | give before g r hr ha => exact h.give hi hr ha
  | null before file hr =>
    have hstarts := s.starts_ret p ⟨before, file, none, ⟨(s.vars p).offset, (s.vars p).groupNum - 1⟩⟩
    simp only [Option.isSome_none, Bool.false_eq_true, if_false, List.append_nil] at hstarts
    refine ⟨gs, offsetInv_ret h.written ?_ ?_ h.range⟩
    · rw [hstarts]
      exact h.read
    · rw [hstarts]
      exact h.exact

theorem offsetInv_of_exec {es : List Event} (h : exec step State.init es = some s) :
    WriterInv s ∧ ∀ p, ∃ gs, OffsetInv s p gs := by
  refine invariant_exec (I := fun u => WriterInv u ∧ ∀ p, ∃ gs, OffsetInv u p gs) ?_
    ⟨writerInv_init, fun p => ⟨[], offsetInv_init p⟩⟩ h
  rintro u e v ⟨hi, hr⟩ hstep
  refine hi.step_readers (R := fun u p => ∃ gs, OffsetInv u p gs) hr ?_ ?_ ?_ hstep
  · rintro p before ⟨gs, hgs⟩ hb
    exact hgs.lock before hb
  · rintro p ⟨gs, hgs⟩ hm
    exact hgs.readerMove hi hm
  · rintro p ⟨gs, hgs⟩ hf
    exact ⟨gs, hgs.frame hf⟩

/-- In every state of every run a reader's offset is the position of the first group it has not
read if and only if this position is below `2 ^ 31`. -/
theorem offsetExact_iff (es : List Event) (s : State) (h : exec step State.init es = some s)
    (p : Pool) : s.OffsetExact p ↔ boundary s.handed (s.firstUnread p) < 2 ^ 31 := by
  obtain ⟨hi, hr⟩ := offsetInv_of_exec h
  obtain ⟨gs, hgs⟩ := hr p
  exact hgs.exact_iff hi

def quiet (gs : List Group) (vars : Pool → Reader) (calls : Pool → List Call) : State where
  handed := gs
  queue := []
  writer := .top
  written := gs
  file := text gs
  readLock := none
  destroy := .running
  vars := vars
  reader := fun _ => .idle
  calls := calls

variable {vars : Pool → Reader} {calls : Pool → List Call}

theorem exec_write : exec step (quiet gs vars calls)
    [.handle oneList, .writer, .writer, .writer, .writer, .writer] =
      some (quiet (gs ++ [oneList.group gs.length]) vars calls) := by
  have htext := text_snoc gs (oneList.group gs.length)
  have hquiet : quiet (gs ++ [oneList.group gs.length]) vars calls =
      { quiet (gs ++ [oneList.group gs.length]) vars calls with
        file := text gs ++ (oneList.group gs.length).text } := by
    simp only [quiet, htext]
  rw [hquiet]
  exact exec_cons_eq_some.2 ⟨_, rfl, exec_cons_eq_some.2 ⟨_, rfl, exec_cons_eq_some.2
    ⟨_, step_print rfl rfl rfl (fits_oneList gs.length), exec_cons_eq_some.2 ⟨_, rfl,
      exec_cons_eq_some.2 ⟨_, rfl, exec_cons_eq_some.2 ⟨_, rfl, rfl⟩⟩⟩⟩⟩⟩

/-- The disk reader past its open of the journal. -/
def quietOpened (gs : List Group) (vars : Pool → Reader) (calls : Pool → List Call) : State :=
  { quiet gs vars calls with
    vars := Function.update vars .disk ⟨(vars .disk).offset, (vars .disk).groupNum + 1⟩
    reader := Function.update (fun _ => .idle) .disk (.opened (vars .disk)) }

def quietReading (gs : List Group) (vars : Pool → Reader) (calls : Pool → List Call) : State :=
  { quietOpened gs vars calls with
    readLock := some (.reader .disk)
    reader := Function.update (quietOpened gs vars calls).reader .disk (.reading (vars .disk)) }

theorem exec_read {g : JournalGroup} {r : Reader}
    (h : analyzeStringRead .disk (text gs) (vars .disk) = some (some g, r)) :
    exec step (quiet gs vars calls) [.reader .disk, .reader .disk, .reader .disk] =
      some (quiet gs (Function.update vars .disk ⟨r.offset, (vars .disk).groupNum + 1⟩)
        (Function.update calls .disk (calls .disk ++
          [⟨vars .disk, text gs, some g, ⟨r.offset, (vars .disk).groupNum + 1⟩⟩]))) := by
  have hopened : step (quiet gs vars calls) (.reader .disk) = some (quietOpened gs vars calls) :=
    rfl
  have hreading : step (quietOpened gs vars calls) (.reader .disk) =
      some (quietReading gs vars calls) := rfl
  have hgive := @step_give (quietReading gs vars calls) .disk (vars .disk) r g rfl rfl h
  refine exec_cons_eq_some.2 ⟨_, hopened, exec_cons_eq_some.2 ⟨_, hreading,
    exec_cons_eq_some.2 ⟨_, hgive, congrArg some ?_⟩⟩⟩
  simp [quietOpened, quietReading, State.ret, quiet]

def round : List Event :=
  [.handle oneList, .writer, .writer, .writer, .writer, .writer] ++
    [.reader .disk, .reader .disk, .reader .disk]

def rounds (n : ℕ) : List Event := (List.replicate n round).flatten

def groups (n : ℕ) : List Group := (List.range n).map oneList.group

theorem groups_succ (n : ℕ) : groups (n + 1) = groups n ++ [oneList.group n] := by
  rw [groups, List.range_succ, List.map_append]
  rfl

theorem length_groups (n : ℕ) : (groups n).length = n := by
  rw [groups, List.length_map, List.length_range]

theorem exec_round (hoffset : (vars .disk).offset = (text gs).length) :
    ∃ vars' calls', exec step (quiet gs vars calls) round =
        some (quiet (gs ++ [oneList.group gs.length]) vars' calls') ∧
      (vars' .disk).offset = toInt32 (text (gs ++ [oneList.group gs.length])).length ∧
      (quiet (gs ++ [oneList.group gs.length]) vars' calls').starts .disk =
        (quiet gs vars calls).starts .disk ++ [(text gs).length] := by
  have htext := text_snoc gs (oneList.group gs.length)
  have hread := @analyzeStringRead_next .disk (oneList.group gs.length) (text gs) [] (vars .disk)
    hoffset
  rw [List.append_nil, ← htext] at hread
  rw [round]
  refine ⟨_, _, exec_trans exec_write (exec_read hread), ?_, ?_⟩
  · simp only [Function.update_self]
  · simp [State.starts, quiet, hoffset, seek]

theorem exec_rounds {n : ℕ} (hsmall : ∀ m < n, (text (groups m)).length < 2 ^ 31) :
    ∃ vars calls, exec step State.init (rounds n) = some (quiet (groups n) vars calls) ∧
      (vars .disk).offset = toInt32 (text (groups n)).length ∧
      ∀ i < n, boundary (groups n) i ∈ (quiet (groups n) vars calls).starts .disk := by
  induction n with
  | zero => exact ⟨_, _, rfl, rfl, fun i hi => absurd hi (Nat.not_lt_zero i)⟩
  | succ n ih =>
    obtain ⟨vars, calls, hrun, hoffset, hread⟩ := ih fun m hm => hsmall m (Nat.lt_succ_of_lt hm)
    have hlt := hsmall n (Nat.lt_succ_self n)
    rw [toInt32_eq ⟨by omega, by omega⟩] at hoffset
    obtain ⟨vars', calls', hround, hoffset', hstarts⟩ := @exec_round (groups n) vars calls hoffset
    rw [length_groups, ← groups_succ] at hround hoffset' hstarts
    have hrounds : rounds (n + 1) = rounds n ++ round := by
      rw [rounds, List.replicate_succ', List.flatten_append, List.flatten_singleton, rounds]
    have hpre : groups n <+: groups (n + 1) := groups_succ n ▸ List.prefix_append _ _
    refine ⟨vars', calls', hrounds ▸ exec_trans hrun hround, hoffset', fun i hi => ?_⟩
    rw [hstarts, boundary_congr hpre (by rw [length_groups]; omega)]
    rcases Nat.lt_succ_iff_lt_or_eq.1 hi with hlt | rfl
    · exact List.mem_append_left _ (hread i hlt)
    · have hend := boundary_length (groups i)
      rw [length_groups] at hend
      rw [hend]
      exact List.mem_append_right _ List.mem_cons_self

/-- The run stops with the first group that does not end below `2 ^ 31`. -/
theorem offsetExact_false_manyGroups : ∃ n ≤ 2 ^ 24, ∃ s,
    exec step State.init (rounds n) = some s ∧ s.handed = groups n ∧ ¬s.OffsetExact .disk := by
  have hlong : 2 ^ 31 ≤ (text (groups (2 ^ 24))).length := by
    have hle := le_length_text (groups (2 ^ 24))
    rw [length_groups] at hle
    omega
  have hfirst : ∃ n, 2 ^ 31 ≤ (text (groups n)).length := ⟨_, hlong⟩
  have hsmall : ∀ m < Nat.find hfirst, (text (groups m)).length < 2 ^ 31 :=
    fun m hm => Nat.lt_of_not_le (Nat.find_min hfirst hm)
  obtain ⟨vars, calls, hrun, -, hread⟩ := exec_rounds hsmall
  refine ⟨Nat.find hfirst, Nat.find_min' hfirst hlong, _, hrun, rfl, fun hexact => ?_⟩
  have hunread : (quiet (groups (Nat.find hfirst)) vars calls).firstUnread .disk =
      Nat.find hfirst := by
    refine firstUnread_eq (Nat.le_of_eq (length_groups _).symm) hread fun hlt => ?_
    exact absurd hlt (Nat.not_lt_of_le (Nat.le_of_eq (length_groups _)))
  have hbelow := (offsetExact_iff _ _ hrun .disk).1 hexact
  have hend := boundary_length (groups (Nat.find hfirst))
  rw [length_groups] at hend
  rw [hunread] at hbelow
  change boundary (groups (Nat.find hfirst)) (Nat.find hfirst) < 2 ^ 31 at hbelow
  rw [hend] at hbelow
  exact absurd (Nat.find_spec hfirst) (Nat.not_le_of_lt hbelow)

theorem offsetExact_iff_oneGroup : ∃ s, exec step State.init round = some s ∧
    s.handed.length = 1 ∧ s.OffsetExact .disk := by
  obtain ⟨vars, calls, hrun, -, -⟩ :=
    @exec_round [] (fun _ => Reader.init) (fun _ => []) rfl
  refine ⟨_, hrun, rfl, (offsetExact_iff round _ hrun .disk).2 ?_⟩
  have hle := boundary_le (firstUnread_le (s := quiet [oneList.group 0] vars calls) (p := .disk))
    (Nat.le_refl _)
  have hsmall : boundary [oneList.group 0] 1 < 2 ^ 31 := by decide +kernel
  exact Nat.lt_of_le_of_lt hle hsmall

end MyScripts.Shark.Journal
