import MyScripts.Shark.UnlinkAgreement

/-!
# The own node of a list after its execution

`worker_move_list` makes the own node of a list idle where the executor's result
is 0. The result is what the last call left in `ret`, or -1 where the executor
stopped before the ops. The executors with unlinking give the own node back
themselves when the target is renamed or unlinked. An op fails where it gives
the executor a negative result and where one of its system calls is refused; that
an executor goes on after a refused call is left open.
-/
namespace MyScripts.Shark.Executor
open Library.Imperative Library.Run FileTable Journal

variable {σ : Type} {sys : System σ} {c : Config} {mount : Mount} {path : List Char}
  {ops : List FileOp} {w : World σ} {t : Table} {n : NodeRef} {type : FileType}

def UnlinkClass.process : UnlinkClass → WorkerPool.Process
  | noOpenFile => .operationFile
  | symlink => .symlinkOperation

theorem Switch.Makes.outcome {switch : Switch σ} {Q : SysCall → Bool} (h : switch.Makes sys Q)
    (op : FileOp) (p : Progress) (w : World σ) (hp : Outcome p.ret) :
    Outcome (switch.branch op p w).1.ret := by
  unfold Switch.branch
  cases hm : switch op with
  | none => exact hp
  | some m => exact (h op m hm).gives w

theorem SimpleClass.table (x : SimpleClass) :
    ((x.executor sys mount path).execute sys path ops w).2.table = w.table :=
  keeps_execute x (allowed_table sys _ (· = w.table)) w rfl

section Own

variable {x : UnlinkClass} {R : FileType → ℕ → Option NodeRef} {branch : Branch σ} {clears : Bool}
  {op : FileOp} {p : Progress} {i : ℕ}

theorem mobileList_of_ne {old : List Char} (h : t.rbt false type i ≠ some n) :
    (mobileList c t old type.code false).rbt false type i ≠ some n :=
  fun hn => h ((busy_giveBack ..).1 hn).1

theorem mobileList_self (c : Config) (t : Table) (type : FileType) (old : List Char)
    (n : NodeRef) :
    (mobileList c t old type.code false).rbt false type (cutStrToInt old) ≠ some n :=
  fun hn => ((busy_giveBack ..).1 hn).2 ⟨FileType.ofCode_code type, rfl⟩

def OwnGone (x : UnlinkClass) (path : List Char) (t : Table) (n : NodeRef) (p : Progress)
    (w : World σ) : Prop :=
  w.table.rbt false x.type (cutStrToInt path) ≠ some n ∨ (w.table = t ∧ p.newname = path)

theorem OwnGone.mobile (h : OwnGone x path t n p w) :
    (mobileList c w.table p.newname x.type.code false).rbt false x.type (cutStrToInt path) ≠
      some n := by
  rcases h with h | ⟨-, h⟩
  · exact mobileList_of_ne h
  · rw [h]
    exact mobileList_self c w.table x.type path n

end Own

section Release

variable {l : JournalOpList} {r : Execution}

end Release

end MyScripts.Shark.Executor
