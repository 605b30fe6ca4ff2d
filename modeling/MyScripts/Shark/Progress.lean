import MyScripts.Shark.JournalText

/-!
# The progress that is printed

`get_configuration` divides the number of op lists by 20, and
`pool_oper_tolerate` prints 5 percent more each time that many lists are done.
The quotient is a divisor there without a test; `pool_check_change`, which
prints the progress of the check threads in the same way, has one.
-/
namespace MyScripts.Shark.Progress
open Library.Decimal Journal

structure GlobleVar where
  totalOpGroup : CInt
  operationsWaitingList : CInt

/-- The variables it sets; all but the percentage are unsigned. -/
structure Configuration where
  totalOpList : ℕ
  groupWaitList : ℕ
  groupsIndex : ℕ
  poolPercentage : ℤ
  minWorkerQueue : ℕ

def getConfiguration (cgv : GlobleVar) : Option Configuration :=
  let totalOpList := Field.toUInt32 cgv.totalOpGroup
  let groupWaitList := Field.toUInt32 cgv.operationsWaitingList
  if groupWaitList = 0 then none
  else some
    { totalOpList := totalOpList
      groupWaitList := groupWaitList
      groupsIndex := totalOpList / groupWaitList
      poolPercentage := toInt32 (totalOpList / 20 : ℕ)
      minWorkerQueue := groupWaitList / 2 }

def enoent : ℤ := 2

structure ErrorCheck where
  ret : ℤ
  tmpErrno : ℤ
  allStop : Bool
  fileAddErrorList : ℤ

/-- The percentage that is printed, if one is, and the result; `none` is a division by zero. -/
def poolOperTolerate (poolPercentage : ℤ) (performSum : ℕ) (worker : ErrorCheck) :
    Option (Option ℤ × ℤ) :=
  let divisor := Field.toUInt32 poolPercentage
  let result := if worker.ret = -1 ∧ worker.tmpErrno ≠ enoent then
    if worker.allStop then -1 else worker.fileAddErrorList
  else 0
  if divisor = 0 then none
  else if performSum % divisor = 0 then
    some (some (toInt32 (toInt32 (performSum / divisor : ℕ) * 5)), result)
  else some (none, result)

/-- After `performSum` op lists nothing is divided by zero, and at most 100 is printed. -/
def ProgressRight (poolPercentage : ℤ) (performSum : ℕ) : Prop :=
  ∀ worker, ∃ r, poolOperTolerate poolPercentage performSum worker = some r ∧
    ∀ percent ∈ r.1, percent ≤ 100

variable {n q sum : ℕ}

theorem toUInt32_eq {z : ℤ} (h : 0 ≤ z ∧ InInt32 z) : Field.toUInt32 z = z.toNat := by
  obtain ⟨hpos, -, hlt⟩ := h
  unfold Field.toUInt32
  omega

theorem toUInt32_quotient (h : n < 2 ^ 31) : Field.toUInt32 (toInt32 (n / 20 : ℕ)) = n / 20 := by
  have hrange : InInt32 (n / 20 : ℕ) := by
    constructor <;> omega
  rw [toInt32_eq hrange, Field.toUInt32_natCast hrange]

theorem percent_eq (h : q ≤ 40) : toInt32 (toInt32 q * 5) = q * 5 := by
  rw [toInt32_eq (z := q) (by constructor <;> omega)]
  exact toInt32_eq (by constructor <;> omega)

theorem quotient_le (hq : 0 < n / 20) (hsum : sum ≤ n) : sum / (n / 20) ≤ 40 := by
  have hn : n < 40 * (n / 20) := by omega
  exact Nat.le_of_lt ((Nat.div_lt_iff_lt_mul hq).2 (Nat.lt_of_le_of_lt hsum hn))

theorem progressRight_iff (hn : n < 2 ^ 31) (hsum : sum ≤ n) :
    ProgressRight (toInt32 (n / 20 : ℕ)) sum ↔
      20 ≤ n ∧ (sum < 21 * (n / 20) ∨ ¬n / 20 ∣ sum) := by
  unfold ProgressRight poolOperTolerate
  simp only [toUInt32_quotient hn]
  by_cases hzero : n / 20 = 0
  · have hsmall : ¬20 ≤ n := by omega
    simp only [if_pos hzero, hsmall, false_and, iff_false]
    intro h
    obtain ⟨r, hr, -⟩ := h ⟨0, 0, false, 0⟩
    cases hr
  · have hq : 0 < n / 20 := Nat.pos_of_ne_zero hzero
    have hlarge : 20 ≤ n := by omega
    have hvalue := percent_eq (quotient_le hq hsum)
    have hpercent : ((sum / (n / 20) : ℕ) : ℤ) * 5 ≤ 100 ↔ sum < 21 * (n / 20) := by
      rw [← Nat.div_lt_iff_lt_mul hq]
      omega
    simp only [if_neg hzero, hvalue, hlarge, true_and, Nat.dvd_iff_mod_eq_zero, ← hpercent]
    by_cases hdiv : sum % (n / 20) = 0
    · simp only [hdiv, if_true, not_true_eq_false, or_false]
      constructor
      · intro h
        obtain ⟨r, hr, hle⟩ := h ⟨0, 0, false, 0⟩
        cases hr
        exact hle _ rfl
      · intro h worker
        refine ⟨_, rfl, ?_⟩
        intro percent hpercent
        cases hpercent
        exact h
    · simp [hdiv]

theorem forall_progress_iff (h : 20 ≤ n) :
    (∀ sum, 1 ≤ sum → sum ≤ n → sum < 21 * (n / 20) ∨ ¬n / 20 ∣ sum) ↔ n % 20 < n / 20 := by
  have hsplit : n = 20 * (n / 20) + n % 20 := (Nat.div_add_mod n 20).symm
  constructor
  · intro hall
    by_contra hlt
    rcases hall (21 * (n / 20)) (by omega) (by omega) with hless | hdvd
    · exact absurd hless (Nat.lt_irrefl _)
    · exact hdvd (Nat.dvd_mul_left ..)
  · intro hlt sum _ hsum
    exact Or.inl (by omega)

theorem getConfiguration_eq {cgv : GlobleVar} (htotal : 1 ≤ cgv.totalOpGroup.1)
    (hwait : 1 ≤ cgv.operationsWaitingList.1) :
    ∃ conf, getConfiguration cgv = some conf ∧
      conf.poolPercentage = toInt32 (cgv.totalOpGroup.1.toNat / 20 : ℕ) := by
  have hsum := toUInt32_eq ⟨by omega, cgv.totalOpGroup.2⟩
  have hlist := toUInt32_eq ⟨by omega, cgv.operationsWaitingList.2⟩
  have hne : Field.toUInt32 cgv.operationsWaitingList ≠ 0 := by omega
  refine ⟨_, if_neg hne, ?_⟩
  simp only [hsum]

/-- With `n` op lists no number of finished lists divides by zero or prints more than 100 percent
if and only if `n` is at least 20 and has a remainder by 20 below its quotient. -/
theorem progress_iff (cgv : GlobleVar) (htotal : 1 ≤ cgv.totalOpGroup.1)
    (hwait : 1 ≤ cgv.operationsWaitingList.1) :
    let n := cgv.totalOpGroup.1.toNat
    ∃ conf, getConfiguration cgv = some conf ∧
      (∀ sum, 1 ≤ sum → sum ≤ n → (ProgressRight conf.poolPercentage sum ↔
        20 ≤ n ∧ (sum < 21 * (n / 20) ∨ ¬n / 20 ∣ sum))) ∧
      ((∀ sum, 1 ≤ sum → sum ≤ n → ProgressRight conf.poolPercentage sum) ↔
        20 ≤ n ∧ n % 20 < n / 20) := by
  intro n
  obtain ⟨conf, hconf, hpercentage⟩ := getConfiguration_eq htotal hwait
  have hn : n < 2 ^ 31 := by
    have hrange := cgv.totalOpGroup.2.2
    omega
  have hright : ∀ sum, sum ≤ n → (ProgressRight conf.poolPercentage sum ↔
      20 ≤ n ∧ (sum < 21 * (n / 20) ∨ ¬n / 20 ∣ sum)) := by
    intro sum hsum
    rw [hpercentage]
    exact progressRight_iff hn hsum
  refine ⟨conf, hconf, fun sum _ hsum => hright sum hsum, ?_⟩
  constructor
  · intro hall
    have hlarge : 20 ≤ n := ((hright 1 (by omega)).1 (hall 1 (Nat.le_refl 1) (by omega))).1
    refine ⟨hlarge, (forall_progress_iff hlarge).1 ?_⟩
    exact fun sum hpos hsum => ((hright sum hsum).1 (hall sum hpos hsum)).2
  · rintro ⟨hlarge, hlt⟩ sum hpos hsum
    exact (hright sum hsum).2 ⟨hlarge, (forall_progress_iff hlarge).2 hlt sum hpos hsum⟩

theorem progress_iff_thousand : ∃ conf,
    getConfiguration ⟨⟨1000, by decide⟩, ⟨100, by decide⟩⟩ = some conf ∧
      ∀ sum, 1 ≤ sum → sum ≤ 1000 → ProgressRight conf.poolPercentage sum := by
  obtain ⟨conf, hconf, -, hall⟩ :=
    progress_iff ⟨⟨1000, by decide⟩, ⟨100, by decide⟩⟩ (by decide) (by decide)
  exact ⟨conf, hconf, hall.2 (by decide)⟩

theorem progress_wrong :
    (getConfiguration ⟨⟨10, by decide⟩, ⟨5, by decide⟩⟩).map (·.poolPercentage) = some 0 ∧
      ¬ProgressRight 0 1 ∧
      (getConfiguration ⟨⟨39, by decide⟩, ⟨3, by decide⟩⟩).map (·.poolPercentage) = some 1 ∧
      poolOperTolerate 1 39 ⟨0, 0, false, 0⟩ = some (some 195, 0) ∧ ¬ProgressRight 1 39 := by
  refine ⟨by decide, ?_, by decide, by decide, ?_⟩
  · intro h
    obtain ⟨r, hr, -⟩ := h ⟨0, 0, false, 0⟩
    cases hr
  · intro h
    obtain ⟨r, hr, hle⟩ := h ⟨0, 0, false, 0⟩
    cases hr
    exact absurd (hle 195 rfl) (by decide)

end MyScripts.Shark.Progress
