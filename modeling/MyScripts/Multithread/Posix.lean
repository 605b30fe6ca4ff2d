import MyScripts.Library.Run
import Mathlib.Data.Nat.Notation

/-!
# A file read while it is written

`write_test` creates `name.tmp`, creates and writes `name`, closes it and
unlinks `name.tmp`. `read_test` waits for `name` and reads it; after a zero
read it looks for `name.tmp` and leaves its loop when `lstat` fails. One step is
one system call of either side.
-/
namespace MyScripts.Multithread.Posix
open Library.Run

def readBufSize : ℕ := 65536

def writeBufSize : ℕ := 65536

def fileSizeMax : ℕ := 32768

/-- What a call comes back with; `ok` carries the bytes a `read` or `write` moved. An `lstat` that
fails for another reason than a missing entry is an `error`. -/
inductive Ret
  | error
  | ok (n : ℕ)

inductive WriterPc
  | lstat
  | calloc
  | createTmp
  | create
  | write (fileSize : ℕ)
  | close
  | unlink
  | done

inductive ReaderPc
  | calloc
  | lstat (lstatCount : ℕ)
  | openName
  | read
  | zero
  | eof
  | failed

/-- `file` is `name`, `tmp` says whether `name.tmp` is there. `written` and
`received` are history; their lengths are the offsets of the two descriptors. -/
structure State where
  file : Option (List Char)
  tmp : Bool
  writer : WriterPc
  written : List Char
  reader : ReaderPc
  received : List Char

def State.init (file : Option (List Char)) (tmp : Bool) : State where
  file := file
  tmp := tmp
  writer := .lstat
  written := []
  reader := .calloc
  received := []

def overwrite (c : List Char) (offset : ℕ) (bytes : List Char) : List Char :=
  c.take offset ++ bytes ++ c.drop (offset + bytes.length)

namespace State

def content (s : State) : List Char := s.file.getD []

def rest (s : State) : List Char := s.content.drop s.received.length

def writeBytes (s : State) (bytes : List Char) : State :=
  { s with
    file := some (overwrite s.content s.written.length bytes)
    written := s.written ++ bytes }

def writeTest (s : State) (ret : Ret) : Option State :=
  match s.writer with
  | .lstat =>
    match ret with
    | .error => some { s with writer := .calloc }
    | .ok _ => some { s with writer := if s.file.isSome then .done else .calloc }
  | .calloc =>
    match ret with
    | .error => some { s with writer := .done }
    | .ok _ => some { s with writer := .createTmp }
  | .createTmp =>
    match ret with
    | .error => some { s with writer := .done }
    | .ok _ => some { s with tmp := true, writer := .create }
  | .create =>
    match ret with
    | .error => some { s with writer := .unlink }
    -- without `O_TRUNC` the content of a file that is there stays
    | .ok _ => some { s with file := some s.content, writer := .write 0 }
  | .write fileSize =>
    if fileSizeMax < fileSize then some { s with writer := .close }
    else
      match ret with
      | .error => some { s with writer := .close }
      | .ok n =>
        if n ≤ writeBufSize then
          some { s.writeBytes (List.replicate n '1') with writer := .write (fileSize + 1) }
        else none
  | .close => some { s with writer := .unlink }
  | .unlink =>
    match ret with
    | .error => some { s with writer := .done }
    | .ok _ => some { s with tmp := false, writer := .done }
  | .done => none

def readTest (s : State) (ret : Ret) : Option State :=
  match s.reader with
  | .calloc =>
    match ret with
    | .error => some { s with reader := .failed }
    | .ok _ => some { s with reader := .lstat 0 }
  | .lstat lstatCount =>
    match ret, s.file with
    | .ok _, some _ => some { s with reader := .openName }
    | _, _ =>
      some { s with reader := if 200 < lstatCount then .failed else .lstat (lstatCount + 1) }
  | .openName =>
    match ret with
    | .error => some { s with reader := .failed }
    | .ok _ => some { s with reader := if s.file.isSome then .read else .failed }
  | .read =>
    match ret with
    | .error => some { s with reader := .failed }
    | .ok 0 => if s.rest = [] then some { s with reader := .zero } else none
    | .ok (n + 1) =>
      if n + 1 ≤ readBufSize - 1 ∧ n + 1 ≤ s.rest.length then
        some { s with received := s.received ++ s.rest.take (n + 1) }
      else none
  | .zero =>
    match ret with
    -- `lstat (tmp_file, &tmp) < 0`, whatever `errno` says
    | .error => some { s with reader := .eof }
    | .ok _ => some { s with reader := if s.tmp then .read else .eof }
  | .eof => none
  | .failed => none

end State

inductive Event
  | writer (ret : Ret)
  | reader (ret : Ret)

def step (s : State) : Event → Option State
  | .writer ret => s.writeTest ret
  | .reader ret => s.readTest ret

/-- A reader that has left its loop at the end of the file has all that was written. -/
def AllRead (s : State) : Prop := s.reader = .eof → s.written <+: s.received

/-- The write puts no byte where the reader has read another one, and none that the reader has not
read once it has left its loop. -/
def Fits (s : State) (bytes : List Char) : Prop :=
  s.written ++ bytes <+: s.received ∨ s.reader ≠ .eof ∧ s.received <+: s.written ++ bytes

/-- The marker is not unlinked behind a zero read, and the `lstat` of a marker that is there does
not fail, while bytes are still to read; and a write fits what the reader has read. -/
def Orderly (s : State) : Event → Prop
  | .writer (.ok n) =>
    (s.writer = .unlink → s.reader = .zero → s.written.length ≤ s.received.length) ∧
      ∀ fileSize, s.writer = .write fileSize → fileSize ≤ fileSizeMax →
        Fits s (List.replicate n '1')
  | .reader .error => s.reader = .zero → s.tmp = true → s.written.length ≤ s.received.length
  | _ => True

inductive WriterMove (s : State) : Ret → State → Prop
  | found (n) (h : s.writer = .lstat) : WriterMove s (.ok n) { s with writer := .done }
  | absent (ret) (h : s.writer = .lstat) : WriterMove s ret { s with writer := .calloc }
  | giveUp (h : s.writer = .calloc ∨ s.writer = .createTmp) :
      WriterMove s .error { s with writer := .done }
  | allocated (n) (h : s.writer = .calloc) : WriterMove s (.ok n) { s with writer := .createTmp }
  | mark (n) (h : s.writer = .createTmp) :
      WriterMove s (.ok n) { s with tmp := true, writer := .create }
  | unmade (h : s.writer = .create) : WriterMove s .error { s with writer := .unlink }
  | create (n) (h : s.writer = .create) :
      WriterMove s (.ok n) { s with file := some s.content, writer := .write 0 }
  | stop (ret fileSize) (h : s.writer = .write fileSize) :
      WriterMove s ret { s with writer := .close }
  | write (n fileSize) (h : s.writer = .write fileSize) (hsize : fileSize ≤ fileSizeMax) :
      WriterMove s (.ok n)
        { s.writeBytes (List.replicate n '1') with writer := .write (fileSize + 1) }
  | close (ret) (h : s.writer = .close) : WriterMove s ret { s with writer := .unlink }
  | keep (h : s.writer = .unlink) : WriterMove s .error { s with writer := .done }
  | unlink (n) (h : s.writer = .unlink) :
      WriterMove s (.ok n) { s with tmp := false, writer := .done }

inductive ReaderMove (s : State) : Ret → State → Prop
  | fail (ret) (hz : s.reader ≠ .zero) (he : s.reader ≠ .eof) :
      ReaderMove s ret { s with reader := .failed }
  | wait (ret n) (h : s.reader = .calloc ∨ ∃ m, s.reader = .lstat m) :
      ReaderMove s ret { s with reader := .lstat n }
  | found (n m) (h : s.reader = .lstat m) : ReaderMove s (.ok n) { s with reader := .openName }
  | opened (n) (h : s.reader = .openName) : ReaderMove s (.ok n) { s with reader := .read }
  | zero (h : s.reader = .read) (hr : s.rest = []) :
      ReaderMove s (.ok 0) { s with reader := .zero }
  | read (n) (h : s.reader = .read) (hle : n ≤ s.rest.length) :
      ReaderMove s (.ok n) { s with received := s.received ++ s.rest.take n }
  | again (n) (h : s.reader = .zero) : ReaderMove s (.ok n) { s with reader := .read }
  | leave (n) (h : s.reader = .zero) (ht : s.tmp = false) :
      ReaderMove s (.ok n) { s with reader := .eof }
  | fault (h : s.reader = .zero) : ReaderMove s .error { s with reader := .eof }

variable {s t : State} {e : Event} {es : List Event} {ret : Ret} {file : Option (List Char)}
  {tmp : Bool}

theorem writeTest_cases (h : s.writeTest ret = some t) : WriterMove s ret t := by
  unfold State.writeTest at h
  split at h
  · next hw =>
    split at h <;> cases h
    · exact .absent _ hw
    · split_ifs
      · exact .found _ hw
      · exact .absent _ hw
  · next hw =>
    split at h <;> cases h
    · exact .giveUp (Or.inl hw)
    · exact .allocated _ hw
  · next hw =>
    split at h <;> cases h
    · exact .giveUp (Or.inr hw)
    · exact .mark _ hw
  · next hw =>
    split at h <;> cases h
    · exact .unmade hw
    · exact .create _ hw
  · next fileSize hw =>
    split at h
    · cases h
      exact .stop ret fileSize hw
    · next hsize =>
      split at h
      · cases h
        exact .stop _ fileSize hw
      · obtain ⟨hn, h⟩ := Option.ite_none_right_eq_some.1 h
        cases h
        exact .write _ fileSize hw (Nat.not_lt.1 hsize)
  · next hw =>
    cases h
    exact .close ret hw
  · next hw =>
    split at h <;> cases h
    · exact .keep hw
    · exact .unlink _ hw
  · cases h

theorem readTest_cases (h : s.readTest ret = some t) : ReaderMove s ret t := by
  have hfail : ∀ pc ret, s.reader = pc → pc ≠ .zero → pc ≠ .eof →
      ReaderMove s ret { s with reader := .failed } := by
    rintro _ ret rfl hz he
    exact .fail ret hz he
  unfold State.readTest at h
  split at h
  · next hr =>
    split at h <;> cases h
    · exact hfail _ _ hr ReaderPc.noConfusion ReaderPc.noConfusion
    · exact .wait _ 0 (Or.inl hr)
  · next m hr =>
    split at h <;> cases h
    · exact .found _ m hr
    · split_ifs
      · exact hfail _ _ hr ReaderPc.noConfusion ReaderPc.noConfusion
      · exact .wait _ (m + 1) (Or.inr ⟨m, hr⟩)
  · next hr =>
    split at h <;> cases h
    · exact hfail _ _ hr ReaderPc.noConfusion ReaderPc.noConfusion
    · split_ifs
      · exact .opened _ hr
      · exact hfail _ _ hr ReaderPc.noConfusion ReaderPc.noConfusion
  · next hr =>
    split at h
    · cases h
      exact hfail _ _ hr ReaderPc.noConfusion ReaderPc.noConfusion
    · obtain ⟨hrest, h⟩ := Option.ite_none_right_eq_some.1 h
      cases h
      exact .zero hr hrest
    · next n =>
      obtain ⟨hn, h⟩ := Option.ite_none_right_eq_some.1 h
      cases h
      exact .read (n + 1) hr hn.2
  · next hr =>
    split at h <;> cases h
    · exact .fault hr
    · split_ifs with ht
      · exact .again _ hr
      · exact .leave _ hr (Bool.not_eq_true _ ▸ ht)
  · cases h
  · cases h

def Comparable (s : State) : Prop := s.written <+: s.received ∨ s.received <+: s.written

theorem Comparable.of_prefix (h : Comparable t) (hw : s.written <+: t.written)
    (hr : s.received <+: t.received) : Comparable s := by
  rcases h with h | h
  · exact List.prefix_or_prefix_of_prefix (hw.trans h) hr
  · exact List.prefix_or_prefix_of_prefix hw (hr.trans h)

theorem Comparable.written_prefix (h : Comparable s)
    (hle : s.written.length ≤ s.received.length) : s.written <+: s.received := by
  rcases h with h | h
  · exact h
  · exact (h.eq_of_length_le hle).symm ▸ List.prefix_refl _

def WriterPc.Done (tmp : Bool) (written : List Char) : WriterPc → Prop
  | lstat | calloc | createTmp => written = []
  | create => written = [] ∧ tmp = true
  | write _ | close | unlink => tmp = true
  | done => True

def ReaderPc.Has (tmp : Bool) (written received : List Char) : ReaderPc → Prop
  | zero => tmp = false → written <+: received
  | eof => written <+: received
  | _ => True

structure Inv (s : State) : Prop where
  writer : s.writer.Done s.tmp s.written
  kept : s.written <+: s.content
  comparable : Comparable s
  reader : s.reader.Has s.tmp s.written s.received

theorem inv_init : Inv (State.init file tmp) :=
  ⟨rfl, List.nil_prefix, Or.inl List.nil_prefix, trivial⟩

theorem take_overwrite {c written bytes : List Char} (h : written <+: c) :
    written ++ bytes <+: overwrite c written.length bytes := by
  rw [overwrite, List.prefix_iff_eq_take.1 h, List.length_take, Nat.min_eq_left h.length_le]
  exact List.prefix_append _ _

theorem Inv.writer_kept (h : Inv s) (hm : WriterMove s ret t) : t.written <+: t.content := by
  cases hm with
  | write n fileSize hw hsize => exact take_overwrite h.kept
  | _ => exact h.kept

theorem Inv.writerDone (h : Inv s) (hm : WriterMove s ret t) : t.writer.Done t.tmp t.written := by
  have hwriter := h.writer
  cases hm with
  | found n hw => trivial
  | absent ret hw => rw [hw] at hwriter; exact hwriter
  | giveUp hw => trivial
  | allocated n hw => rw [hw] at hwriter; exact hwriter
  | mark n hw => rw [hw] at hwriter; exact ⟨hwriter, rfl⟩
  | unmade hw => rw [hw] at hwriter; exact hwriter.2
  | create n hw => rw [hw] at hwriter; exact hwriter.2
  | stop ret k hw => rw [hw] at hwriter; exact hwriter
  | write n k hw hsize => rw [hw] at hwriter; exact hwriter
  | close ret hw => rw [hw] at hwriter; exact hwriter
  | keep hw => trivial
  | unlink n hw => trivial

theorem Inv.of_same (h : Inv s) (hm : WriterMove s ret t) (hr : t.reader = s.reader)
    (hreceived : t.received = s.received) (hwritten : t.written = s.written)
    (htmp : s.reader = .zero → t.tmp = false → s.written <+: s.received) : Inv t where
  writer := h.writerDone hm
  kept := h.writer_kept hm
  comparable := by rw [Comparable, hwritten, hreceived]; exact h.comparable
  reader := by
    have hreader := h.reader
    rw [hr, hwritten, hreceived]
    cases hs : s.reader with
    | zero => exact htmp hs
    | eof => rw [hs] at hreader; exact hreader
    | _ => trivial

theorem Inv.writer_step (h : Inv s) (hg : Orderly s (.writer ret)) (hm : WriterMove s ret t) :
    Inv t := by
  have hsame : s.reader = .zero → s.tmp = false → s.written <+: s.received := by
    intro hr
    have hreader := h.reader
    rw [hr] at hreader
    exact hreader
  have hdone := h.writerDone hm
  have hkept := h.writer_kept hm
  cases hm with
  | mark n hw => exact h.of_same (.mark n hw) rfl rfl rfl fun _ ht => by cases ht
  | unlink n hw =>
    refine h.of_same (.unlink n hw) rfl rfl rfl fun hr _ => ?_
    exact h.comparable.written_prefix (hg.1 hw hr)
  | write n k hw hsize =>
    have hwriter := h.writer
    rw [hw] at hwriter
    refine ⟨hdone, hkept, ?_, ?_⟩
    · rcases hg.2 k hw hsize with hfits | ⟨-, hfits⟩
      · exact Or.inl hfits
      · exact Or.inr hfits
    · show s.reader.Has s.tmp _ s.received
      cases hr : s.reader with
      | zero =>
        intro ht
        rw [show s.tmp = true from hwriter] at ht
        cases ht
      | eof =>
        rcases hg.2 k hw hsize with hfits | ⟨hne, -⟩
        · exact hfits
        · exact absurd hr hne
      | _ => trivial
  | found n hw => exact h.of_same (.found n hw) rfl rfl rfl hsame
  | absent ret hw => exact h.of_same (.absent ret hw) rfl rfl rfl hsame
  | giveUp hw => exact h.of_same (.giveUp hw) rfl rfl rfl hsame
  | allocated n hw => exact h.of_same (.allocated n hw) rfl rfl rfl hsame
  | unmade hw => exact h.of_same (.unmade hw) rfl rfl rfl hsame
  | create n hw => exact h.of_same (.create n hw) rfl rfl rfl hsame
  | stop ret k hw => exact h.of_same (.stop ret k hw) rfl rfl rfl hsame
  | close ret hw => exact h.of_same (.close ret hw) rfl rfl rfl hsame
  | keep hw => exact h.of_same (.keep hw) rfl rfl rfl hsame

theorem Inv.comparable_read (h : Inv s) (n : ℕ) :
    s.written <+: s.received ++ s.rest.take n ∨ s.received ++ s.rest.take n <+: s.written := by
  rcases h.comparable with hp | hp
  · exact Or.inl (hp.trans (List.prefix_append _ _))
  · have hc : s.received ++ s.rest = s.content := List.prefix_iff_eq_append.1 (hp.trans h.kept)
    have hread : s.received ++ s.rest.take n <+: s.content := by
      rw [← hc]
      exact (List.prefix_append_right_inj _).2 (List.take_prefix _ _)
    exact List.prefix_or_prefix_of_prefix h.kept hread

theorem Inv.reader_step (h : Inv s) (hg : Orderly s (.reader ret)) (hm : ReaderMove s ret t) :
    Inv t := by
  have hreader := h.reader
  cases hm with
  | fail ret hz he => exact ⟨h.writer, h.kept, h.comparable, trivial⟩
  | wait ret n hr => exact ⟨h.writer, h.kept, h.comparable, trivial⟩
  | found n m hr => exact ⟨h.writer, h.kept, h.comparable, trivial⟩
  | opened n hr => exact ⟨h.writer, h.kept, h.comparable, trivial⟩
  | again n hr => exact ⟨h.writer, h.kept, h.comparable, trivial⟩
  | zero hr hrest =>
    have hle : s.content.length ≤ s.received.length := List.drop_eq_nil_iff.1 hrest
    exact ⟨h.writer, h.kept, h.comparable,
      fun _ => h.comparable.written_prefix (Nat.le_trans h.kept.length_le hle)⟩
  | read n hr hle =>
    refine ⟨h.writer, h.kept, h.comparable_read n, ?_⟩
    show s.reader.Has _ _ _
    rw [hr]
    trivial
  | leave n hr ht =>
    rw [hr] at hreader
    exact ⟨h.writer, h.kept, h.comparable, hreader ht⟩
  | fault hr =>
    rw [hr] at hreader
    refine ⟨h.writer, h.kept, h.comparable, ?_⟩
    show s.written <+: s.received
    cases ht : s.tmp with
    | false => exact hreader ht
    | true => exact h.comparable.written_prefix (hg hr ht)

theorem Inv.step (h : Inv s) (hg : Orderly s e) (hs : Posix.step s e = some t) : Inv t := by
  cases e with
  | writer ret => exact h.writer_step hg (writeTest_cases hs)
  | reader ret => exact h.reader_step hg (readTest_cases hs)

theorem Inv.allRead (h : Inv s) : AllRead s := by
  intro hr
  have hreader := h.reader
  rw [hr] at hreader
  exact hreader

/-- The reader has read a byte that was not written, or it is at the end with bytes to read. -/
def Missed (s : State) : Prop :=
  ¬Comparable s ∨ s.received.length < s.written.length ∧
    (s.reader = .eof ∨ s.reader = .zero ∧ s.tmp = false ∧ s.writer = .done)

theorem written_step (h : step s e = some t) : s.written <+: t.written := by
  cases e with
  | writer ret =>
    cases writeTest_cases h with
    | write n k hw hsize => exact List.prefix_append _ _
    | _ => exact List.prefix_refl _
  | reader ret => cases readTest_cases h <;> exact List.prefix_refl _

theorem received_step (h : step s e = some t) : s.received <+: t.received := by
  cases e with
  | writer ret => cases writeTest_cases h <;> exact List.prefix_refl _
  | reader ret =>
    cases readTest_cases h with
    | read n hr hle => exact List.prefix_append _ _
    | _ => exact List.prefix_refl _

theorem missed_of_not_fits {bytes : List Char} (h : ¬Fits s bytes) {pc : WriterPc} :
    Missed { s.writeBytes bytes with writer := pc } := by
  rw [Fits, not_or] at h
  by_cases hr : s.reader = .eof
  · by_cases hc : s.received <+: s.written ++ bytes
    · refine Or.inr ⟨?_, Or.inl hr⟩
      by_contra hle
      exact h.1 (hc.eq_of_length_le (Nat.not_lt.1 hle) ▸ List.prefix_refl _)
    · exact Or.inl fun hp => hp.elim h.1 hc
  · exact Or.inl fun hp => hp.elim h.1 fun hc => h.2 ⟨hr, hc⟩

theorem missed_of_not_orderly (hg : ¬Orderly s e) (hs : step s e = some t) : Missed t := by
  cases e with
  | writer ret =>
    cases ret with
    | error => exact absurd trivial hg
    | ok n =>
      simp only [Orderly, not_and_or, Classical.not_imp, not_forall, Nat.not_le] at hg
      rcases hg with ⟨hw, hr, hshort⟩ | ⟨k, hw, hsize, hfits⟩
      · simp only [step, State.writeTest, hw, Option.some.injEq] at hs
        subst hs
        exact Or.inr ⟨hshort, Or.inr ⟨hr, rfl, rfl⟩⟩
      · simp only [step, State.writeTest, hw, Nat.not_lt.2 hsize, if_false] at hs
        obtain ⟨-, hs⟩ := Option.ite_none_right_eq_some.1 hs
        cases hs
        exact missed_of_not_fits hfits
  | reader ret =>
    cases ret with
    | ok n => exact absurd trivial hg
    | error =>
      simp only [Orderly, Classical.not_imp, Nat.not_le] at hg
      obtain ⟨hr, -, hshort⟩ := hg
      simp only [step, State.readTest, hr, Option.some.injEq] at hs
      subst hs
      exact Or.inr ⟨hshort, Or.inl rfl⟩

theorem Missed.step (h : Missed s) (hs : Posix.step s e = some t) : Missed t := by
  rcases h with h | ⟨hshort, hr | ⟨hr, ht, hw⟩⟩
  · exact Or.inl fun hc => h (hc.of_prefix (written_step hs) (received_step hs))
  · have hlong : s.received.length < t.written.length :=
      Nat.lt_of_lt_of_le hshort (written_step hs).length_le
    cases e with
    | writer ret =>
      refine Or.inr ?_
      cases writeTest_cases hs <;> exact ⟨hlong, Or.inl hr⟩
    | reader ret =>
      simp only [Posix.step, State.readTest, hr] at hs
      cases hs
  · cases e with
    | writer ret =>
      simp only [Posix.step, State.writeTest, hw] at hs
      cases hs
    | reader ret =>
      have heof : t = { s with reader := .eof } := by
        cases ret <;>
          simpa only [Posix.step, State.readTest, hr, ht, Bool.false_eq_true, if_false,
            Option.some.injEq, eq_comm] using hs
      rw [heof]
      exact Or.inr ⟨hshort, Or.inl rfl⟩

theorem Missed.not_allRead (h : Missed s) (hr : s.reader = .eof) : ¬AllRead s := by
  intro hall
  rcases h with h | ⟨hshort, -⟩
  · exact h (Or.inl (hall hr))
  · exact absurd (hall hr).length_le (Nat.not_le.2 hshort)

/-- The reader has all that was written as long as every step is orderly; once the reader has left
its loop at the end of the file, only then. -/
theorem allRead_iff (file : Option (List Char)) (tmp : Bool) (es : List Event) (s : State)
    (h : exec step (State.init file tmp) es = some s) :
    (Guarded step Orderly (State.init file tmp) es → AllRead s) ∧
      (s.reader = .eof → (AllRead s ↔ Guarded step Orderly (State.init file tmp) es)) := by
  have hsuff : Guarded step Orderly (State.init file tmp) es → AllRead s := by
    intro hg
    have hinv : Inv s := invariant_guarded (fun _ _ _ hI hge hs => hI.step hge hs) inv_init hg h
    exact hinv.allRead
  refine ⟨hsuff, fun hr => ⟨fun hall => ?_, hsuff⟩⟩
  by_contra hg
  obtain ⟨pre, e, post, u, v, -, -, hnot, hstep, hpost⟩ := exists_of_not_guarded h hg
  have hmissed : Missed s :=
    invariant_exec (fun _ _ _ hI hs => hI.step hs) (missed_of_not_orderly hnot hstep) hpost
  exact hmissed.not_allRead hr hall

theorem allRead_iff_threeBytes : ∃ s : State, exec step (State.init none false)
    [.writer (.ok 0), .writer (.ok 0), .writer (.ok 0), .writer (.ok 0), .writer (.ok 3),
      .writer .error, .writer (.ok 0), .reader (.ok 0), .reader (.ok 0), .reader (.ok 0),
      .reader (.ok 2), .reader (.ok 1), .writer (.ok 0), .reader (.ok 0), .reader (.ok 0)] =
      some s ∧ s.received = ['1', '1', '1'] ∧
    (AllRead s ↔ Guarded step Orderly (State.init none false)
      [.writer (.ok 0), .writer (.ok 0), .writer (.ok 0), .writer (.ok 0), .writer (.ok 3),
        .writer .error, .writer (.ok 0), .reader (.ok 0), .reader (.ok 0), .reader (.ok 0),
        .reader (.ok 2), .reader (.ok 1), .writer (.ok 0), .reader (.ok 0), .reader (.ok 0)]) := by
  obtain ⟨s, hrun, hr, hreceived⟩ : ∃ s : State, exec step (State.init none false)
      [.writer (.ok 0), .writer (.ok 0), .writer (.ok 0), .writer (.ok 0), .writer (.ok 3),
        .writer .error, .writer (.ok 0), .reader (.ok 0), .reader (.ok 0), .reader (.ok 0),
        .reader (.ok 2), .reader (.ok 1), .writer (.ok 0), .reader (.ok 0), .reader (.ok 0)] =
      some s ∧ s.reader = .eof ∧ s.received = ['1', '1', '1'] := ⟨_, rfl, rfl, rfl⟩
  exact ⟨s, hrun, hreceived, (allRead_iff none false _ s hrun).2 hr⟩

-- the reader's zero read comes before the only write, its `lstat` after the unlink
theorem allRead_false_zeroRead : ∃ s : State, exec step (State.init none false)
    [.writer (.ok 0), .writer (.ok 0), .writer (.ok 0), .writer (.ok 0), .reader (.ok 0),
      .reader (.ok 0), .reader (.ok 0), .reader (.ok 0), .writer (.ok 3), .writer .error,
      .writer (.ok 0), .writer (.ok 0), .reader (.ok 0)] = some s ∧
    s.reader = .eof ∧ s.written = ['1', '1', '1'] ∧ s.received = [] ∧ ¬AllRead s := by
  refine ⟨_, rfl, rfl, rfl, rfl, fun h => ?_⟩
  have hle := (h rfl).length_le
  exact absurd hle (by decide)

end MyScripts.Multithread.Posix
