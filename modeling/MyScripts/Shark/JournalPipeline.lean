import MyScripts.Library.Run
import MyScripts.Shark.JournalFraming
import Mathlib.Logic.Function.Basic

/-!
# The generator, the writer and the two readers

`handle_groups` appends to `group_queue` under `write_lock`. `thread_writev`
takes a group off the queue, lets go of `write_lock`, prints the group under
`read_lock` and takes `write_lock` again. `analyze_string_read` opens the file
and counts the group before it takes `read_lock`, and gives the count back
after it has let the lock go. One step is a critical section of `write_lock`,
or what a party does to the file or to its own variables between two locks.
-/
namespace MyScripts.Shark.Journal
open Library.Run Library.Decimal

/-- The flag `more` says whether `tmp` of `list_for_each_entry_safe` is a
group; only the writer takes groups off, so it is then the first of the queue. -/
inductive WriterPc
  | top
  | waiting
  | awake
  | write (g : Group) (more : Bool)
  | printing (rest : List Char) (more : Bool)
  | relock (more : Bool)
  | leaving
  | exited

def WriterPc.signal : WriterPc → WriterPc
  | waiting => awake
  | pc => pc

def WriterPc.held : WriterPc → List Group
  | write g _ => [g]
  | _ => []

def WriterPc.pending : WriterPc → List Char
  | printing rest _ => rest
  | _ => []

def WriterPc.Printing (pc : WriterPc) : Prop := ∃ rest more, pc = printing rest more

def WriterPc.Choosing (pc : WriterPc) : Prop := pc = top ∨ pc = awake ∨ pc = relock true

inductive ReaderPc
  | idle
  | opened (before : Reader)
  | reading (before : Reader)
  | eof (before : Reader) (file : List Char)
  | crashed

inductive DestroyPc
  | running
  | flagged
  | joining
  | joined
  deriving DecidableEq

inductive Holder
  | writer
  | reader (p : Pool)
  deriving DecidableEq

structure Call where
  before : Reader
  file : List Char
  result : Option JournalGroup
  after : Reader

/-- `file` is what the readers see; the characters still in the writer's
buffer are in its program counter. `handed`, `written` and `calls` are history. -/
structure State where
  handed : List Group
  queue : List Group
  writer : WriterPc
  written : List Group
  file : List Char
  readLock : Option Holder
  destroy : DestroyPc
  vars : Pool → Reader
  reader : Pool → ReaderPc
  calls : Pool → List Call

def State.init : State where
  handed := []
  queue := []
  writer := .top
  written := []
  file := []
  readLock := none
  destroy := .running
  vars := fun _ => Reader.init
  reader := fun _ => .idle
  calls := fun _ => []

structure GroupBody where
  lists : List OpList
  nonempty : lists ≠ []

def GroupBody.group (b : GroupBody) (groupIndex : ℕ) : Group :=
  ⟨b.lists, ⟨toInt32 groupIndex, toInt32_range _⟩, b.nonempty⟩

namespace State

def threadShutdown (s : State) : Bool := s.destroy ≠ .running

def handleGroups (s : State) (b : GroupBody) : State :=
  { s with
    handed := s.handed ++ [b.group s.handed.length]
    queue := s.queue ++ [b.group s.handed.length]
    writer := s.writer.signal }

def nextGroup (s : State) : State :=
  match s.queue with
  | [] => { s with writer := .leaving }
  | g :: rest => { s with writer := .write g !rest.isEmpty, queue := rest }

def threadWritev (s : State) : Option State :=
  match s.writer with
  | .top => some (if s.queue.isEmpty then { s with writer := .waiting } else s.nextGroup)
  | .waiting => none
  | .awake => some s.nextGroup
  | .write g more =>
    if s.readLock = none then
      (writeGroup g).map fun text =>
        { s with readLock := some .writer, writer := .printing text more, written := s.written ++ [g] }
    else none
  | .printing rest more =>
    some { s with file := s.file ++ rest, readLock := none, writer := .relock more }
  | .relock more => some (if more then s.nextGroup else { s with writer := .leaving })
  | .leaving => some { s with writer := if s.threadShutdown then .exited else .top }
  | .exited => none

/-- The buffer of `execute_journal_fd` goes to the file when it is full. -/
def flush (s : State) (n : ℕ) : Option State :=
  match s.writer with
  | .printing rest more =>
    some { s with file := s.file ++ rest.take n, writer := .printing (rest.drop n) more }
  | _ => none

def setReader (s : State) (p : Pool) (pc : ReaderPc) : State :=
  { s with reader := Function.update s.reader p pc }

def setVars (s : State) (p : Pool) (r : Reader) : State :=
  { s with vars := Function.update s.vars p r }

def ret (s : State) (p : Pool) (c : Call) : State :=
  { s with
    vars := Function.update s.vars p c.after
    reader := Function.update s.reader p .idle
    calls := Function.update s.calls p (s.calls p ++ [c]) }

def analyzeStep (s : State) (p : Pool) : Option State :=
  match s.reader p with
  | .idle =>
    some ((s.setVars p ⟨(s.vars p).offset, (s.vars p).groupNum + 1⟩).setReader p
      (.opened (s.vars p)))
  | .opened before =>
    if s.readLock = none then
      some ({ s with readLock := some (.reader p) }.setReader p (.reading before))
    else none
  | .reading before =>
    match analyzeStringRead p s.file ⟨(s.vars p).offset, before.groupNum⟩ with
    | none => some (s.setReader p .crashed)
    | some (none, _) => some ({ s with readLock := none }.setReader p (.eof before s.file))
    | some (some g, r) =>
      some ({ s with readLock := none }.ret p
        ⟨before, s.file, some g, ⟨r.offset, (s.vars p).groupNum⟩⟩)
  | .eof before file =>
    some (s.ret p ⟨before, file, none, ⟨(s.vars p).offset, (s.vars p).groupNum - 1⟩⟩)
  | .crashed => none

def destroyStep (s : State) : Option State :=
  match s.destroy with
  | .running => some { s with destroy := .flagged }
  | .flagged => some { s with destroy := .joining, writer := s.writer.signal }
  | .joining =>
    match s.writer with
    | .exited => some { s with destroy := .joined }
    | _ => none
  | .joined => none

end State

inductive Event
  | handle (b : GroupBody)
  | writer
  | flush (n : ℕ)
  | wake
  | reader (p : Pool)
  | destroy

def step (s : State) (e : Event) : Option State :=
  if s.destroy = .joined then none
  else
    match e with
    | .handle b => some (s.handleGroups b)
    | .writer => s.threadWritev
    | .flush n => s.flush n
    | .wake => some { s with writer := s.writer.signal }
    | .reader p => s.analyzeStep p
    | .destroy => s.destroyStep

inductive WriterMove (s : State) : State → Prop
  | sleep (h : s.writer = .top) (hq : s.queue = []) : WriterMove s { s with writer := .waiting }
  | take (g rest) (h : s.writer.Choosing) (hq : s.queue = g :: rest) :
      WriterMove s { s with writer := .write g !rest.isEmpty, queue := rest }
  | leave (h : s.writer.Choosing ∧ s.queue = [] ∨ s.writer = .relock false) :
      WriterMove s { s with writer := .leaving }
  | print (g more) (h : s.writer = .write g more) (hl : s.readLock = none) (hf : g.Fits) :
      WriterMove s
        { s with
          readLock := some .writer
          writer := .printing g.text more
          written := s.written ++ [g] }
  | finish (rest more) (h : s.writer = .printing rest more) :
      WriterMove s { s with file := s.file ++ rest, readLock := none, writer := .relock more }
  | again (h : s.writer = .leaving) (hd : s.threadShutdown = false) :
      WriterMove s { s with writer := .top }
  | exit (h : s.writer = .leaving) (hd : s.threadShutdown = true) :
      WriterMove s { s with writer := .exited }

inductive ReaderMove (s : State) (p : Pool) : State → Prop
  | start (h : s.reader p = .idle) :
      ReaderMove s p ((s.setVars p ⟨(s.vars p).offset, (s.vars p).groupNum + 1⟩).setReader p
        (.opened (s.vars p)))
  | lock (before) (h : s.reader p = .opened before) (hl : s.readLock = none) :
      ReaderMove s p ({ s with readLock := some (.reader p) }.setReader p (.reading before))
  | crash (before) (h : s.reader p = .reading before)
      (hr : analyzeStringRead p s.file ⟨(s.vars p).offset, before.groupNum⟩ = none) :
      ReaderMove s p (s.setReader p .crashed)
  | eof (before r) (h : s.reader p = .reading before)
      (hr : analyzeStringRead p s.file ⟨(s.vars p).offset, before.groupNum⟩ = some (none, r)) :
      ReaderMove s p ({ s with readLock := none }.setReader p (.eof before s.file))
  | give (before g r) (h : s.reader p = .reading before)
      (hr : analyzeStringRead p s.file ⟨(s.vars p).offset, before.groupNum⟩ = some (some g, r)) :
      ReaderMove s p ({ s with readLock := none }.ret p
        ⟨before, s.file, some g, ⟨r.offset, (s.vars p).groupNum⟩⟩)
  | null (before file) (h : s.reader p = .eof before file) :
      ReaderMove s p
        (s.ret p ⟨before, file, none, ⟨(s.vars p).offset, (s.vars p).groupNum - 1⟩⟩)

inductive Move (s : State) : Event → State → Prop
  | handle (b) : Move s (.handle b) (s.handleGroups b)
  | writer (t) (h : WriterMove s t) : Move s .writer t
  | flush (n rest more) (h : s.writer = .printing rest more) :
      Move s (.flush n)
        { s with file := s.file ++ rest.take n, writer := .printing (rest.drop n) more }
  | wake : Move s .wake { s with writer := s.writer.signal }
  | reader (p t) (h : ReaderMove s p t) : Move s (.reader p) t
  | flag (h : s.destroy = .running) : Move s .destroy { s with destroy := .flagged }
  | signal (h : s.destroy = .flagged) :
      Move s .destroy { s with destroy := .joining, writer := s.writer.signal }
  | join (h : s.destroy = .joining) (hw : s.writer = .exited) :
      Move s .destroy { s with destroy := .joined }

theorem nextGroup_move {s : State} (h : s.writer.Choosing) : WriterMove s s.nextGroup := by
  unfold State.nextGroup
  split
  · next hq => exact .leave (Or.inl ⟨h, hq⟩)
  · next g rest hq => exact .take g rest h hq

theorem threadWritev_cases {s t : State} (h : s.threadWritev = some t) : WriterMove s t := by
  unfold State.threadWritev at h
  split at h
  · next hw =>
    simp only [Option.some.injEq] at h
    subst h
    split_ifs with hq
    · exact .sleep hw (List.isEmpty_iff.1 hq)
    · exact nextGroup_move (Or.inl hw)
  · cases h
  · next hw =>
    cases h
    exact nextGroup_move (Or.inr (Or.inl hw))
  · next g more hw =>
    obtain ⟨hl, h⟩ := Option.ite_none_right_eq_some.1 h
    obtain ⟨text, htext, rfl⟩ := Option.map_eq_some_iff.1 h
    obtain ⟨hf, rfl⟩ := writeGroup_eq_some.1 htext
    exact .print g more hw hl hf
  · next rest more hw =>
    cases h
    exact .finish rest more hw
  · next more hw =>
    cases h
    cases more with
    | true => exact nextGroup_move (Or.inr (Or.inr hw))
    | false => exact .leave (Or.inr hw)
  · next hw =>
    cases h
    cases hd : s.threadShutdown with
    | true => exact .exit hw hd
    | false => exact .again hw hd
  · cases h

theorem analyzeStep_cases {s t : State} {p : Pool} (h : s.analyzeStep p = some t) :
    ReaderMove s p t := by
  unfold State.analyzeStep at h
  split at h
  · next hr =>
    cases h
    exact .start hr
  · next before hr =>
    obtain ⟨hl, h⟩ := Option.ite_none_right_eq_some.1 h
    cases h
    exact .lock before hr hl
  · next before hr =>
    split at h
    · next ha =>
      cases h
      exact .crash before hr ha
    · next r ha =>
      cases h
      exact .eof before r hr ha
    · next g r ha =>
      cases h
      exact .give before g r hr ha
  · next before file hr =>
    cases h
    exact .null before file hr
  · cases h

theorem step_cases {s t : State} {e : Event} (h : step s e = some t) : Move s e t := by
  unfold step at h
  obtain ⟨_, h⟩ := Option.ite_none_left_eq_some.1 h
  cases e with
  | handle b =>
    cases h
    exact .handle b
  | writer => exact .writer t (threadWritev_cases h)
  | flush n =>
    simp only [State.flush] at h
    split at h
    · next rest more hw =>
      cases h
      exact .flush n rest more hw
    · cases h
  | wake =>
    cases h
    exact .wake
  | reader p => exact .reader p t (analyzeStep_cases h)
  | destroy =>
    simp only [State.destroyStep] at h
    split at h
    · next hd =>
      cases h
      exact .flag hd
    · next hd =>
      cases h
      exact .signal hd
    · next hd =>
      split at h
      · next hw =>
        cases h
        exact .join hd hw
      · cases h
    · cases h

end MyScripts.Shark.Journal
