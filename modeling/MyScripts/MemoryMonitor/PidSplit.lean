import MyScripts.Library.Tokens
import MyScripts.MemoryMonitor.PidSegments

/-!
# Every row in the file of its pid

The branch over a whole folder of data files. bash compares two pids in 64-bit
arithmetic, so neighbouring rows of different pids are told apart where the pids
differ modulo 2^64.
-/
namespace MyScripts.MemoryMonitor
open MyScripts.Library.Decimal MyScripts.Library.Segments MyScripts.Library.Tokens

variable {i k x : Text} {p q : ℕ} {s : Analysis} {out : Folder}

structure Row where
  line : Text
  pid : ℕ
  noPid : hasPid line = false
  third : thirdColumn line = printNat pid

/-- A file of the monitor, which names it after an address and a process. -/
structure DataFile where
  name : Text
  header : Text
  rows : List Row
  word : ∀ c ∈ name, isBlank c = false
  dat : ['.', 'd', 'a', 't'] <:+ name
  headerPid : hasPid header = true
  rows_ne : rows ≠ []

def DataFile.lines (d : DataFile) : List Text := d.header :: d.rows.map Row.line

def DataFile.file (d : DataFile) : Text × List Text := (d.name, d.lines)

def dataRows (o : Option (List Text)) : List Text := (o.getD []).filter fun l => !hasPid l

def DataFile.Apart (d : DataFile) : Prop :=
  d.rows.IsChain fun a b => a.pid % 2 ^ 64 = b.pid % 2 ^ 64 → a.pid = b.pid

/-- The file of each pid has its rows once and in order, and no others. -/
def RowsByPid (files : List DataFile) (analy_data : Folder) : Prop :=
  ∀ d ∈ files, ∀ p : ℕ,
    dataRows ((analyse (files.map DataFile.file) analy_data).analy_data
      (outputName (printNat p) d.name)) = (d.rows.filter (·.pid = p)).map Row.line

/-- Each row is in the file of its own pid, and no other file is written. -/
def SplitByPid (files : List DataFile) (analy_data : Folder) : Prop :=
  RowsByPid files analy_data ∧
    ∀ x, (∀ d ∈ files, ∀ r ∈ d.rows, x ≠ outputName (printNat r.pid) d.name) →
      (analyse (files.map DataFile.file) analy_data).analy_data x =
        if isDat x then none else analy_data x

theorem outputName_inj :
    outputName (printNat p) i = outputName (printNat q) k ↔ p = q ∧ i = k := by
  refine ⟨fun h => ?_, fun ⟨hp, hi⟩ => by rw [hp, hi]⟩
  have hdash : ∀ n, '-' ∉ printNat n := not_mem_printNat rfl
  have hpid : (outputName (printNat p) i).takeWhile (· != '-') = printNat p :=
    takeWhile_ne (hdash p)
  have hname : (outputName (printNat p) i).dropWhile (· != '-') = '-' :: i :=
    dropWhile_ne (hdash p)
  rw [h, outputName, takeWhile_ne (hdash q)] at hpid
  rw [h, outputName, dropWhile_ne (hdash q)] at hname
  exact ⟨(printNat_injective hpid).symm, (List.cons.inj hname).2.symm⟩

theorem isDat_outputName (d : DataFile) (p : ℕ) : isDat (outputName (printNat p) d.name) = true := by
  obtain ⟨c, w, hc⟩ := List.exists_cons_of_ne_nil (printNat_ne_nil p)
  have hdigit : c.isDigit = true := printNat_digits p c (hc ▸ List.mem_cons_self ..)
  have hdot : c ≠ '.' := by
    rintro rfl
    exact absurd hdigit (by decide)
  have hdat := d.dat.trans ((List.suffix_cons '-' d.name).trans (List.suffix_append (printNat p) _))
  rw [hc] at hdat
  simp [isDat, outputName, hc, hdot]
  exact hdat

theorem constant_printNat (p : ℕ) : constant (printNat p) = some (BitVec.ofNat 64 p) := by
  have hdigits : (printNat p).all Char.isDigit = true := List.all_eq_true.2 (printNat_digits p)
  have hvalue : Nat.ofDigitChars 10 (printNat p) 0 = p := Nat.ofDigitChars_ten_toDigits
  unfold constant
  rw [if_pos ⟨hdigits, printNat_ne_nil p⟩]
  split
  · next ds hp =>
    -- a decimal number that starts with 0 is 0
    have hzero : p = 0 := head_printNat (by rw [hp]; rfl)
    subst hzero
    obtain rfl : ds = [] := (List.cons.inj hp).2.symm
    rfl
  · rw [hvalue]

theorem pidChanged_iff : pidChanged (printNat p) (printNat q) = true ↔ p % 2 ^ 64 ≠ q % 2 ^ 64 := by
  simp only [pidChanged, constant_printNat, decide_eq_true_eq, ne_eq, ← BitVec.toNat_inj,
    BitVec.toNat_ofNat]

theorem DataFile.pidArray_lines (d : DataFile) :
    pidArray d.lines = d.rows.map fun r => printNat r.pid := by
  have hrows : (d.rows.map Row.line).filter (fun l => !hasPid l) = d.rows.map Row.line := by
    rw [List.filter_eq_self]
    intro l hl
    obtain ⟨r, -, rfl⟩ := List.mem_map.1 hl
    simp [r.noPid]
  have hthird : thirdColumn ∘ Row.line = fun r => printNat r.pid := funext Row.third
  rw [pidArray, DataFile.lines, List.filter_cons_of_neg (by simp [d.headerPid]), hrows,
    List.map_map, hthird, List.filter_eq_self]
  intro w hw
  obtain ⟨r, -, rfl⟩ := List.mem_map.1 hw
  simp [printNat_ne_nil]

theorem DataFile.segmentName_rows (d : DataFile) :
    ∃ p, segmentName d.name (d.rows.map Row.line) = outputName (printNat p) d.name := by
  refine ⟨(d.rows.getLast d.rows_ne).pid, ?_⟩
  have hlast : (d.rows.getLast d.rows_ne).line ∈ (d.rows.map Row.line).getLast? := by
    rw [List.getLast?_map, List.getLast?_eq_some_getLast d.rows_ne]
    rfl
  rw [segmentName, getLastD_of_mem hlast, Row.third]

theorem DataFile.analyseFile_eq (d : DataFile)
    (hnone : ∀ p, s.analy_data (outputName (printNat p) d.name) = none) :
    (analyseFile s d.file).analy_data =
      deliverRows d.name d.header s.analy_data ((d.rows.map Row.line).splitBy samePid) := by
  have hrows : d.rows.map Row.line ≠ [] := by simpa using d.rows_ne
  have hpids : pidArray d.lines = (d.rows.map Row.line).map thirdColumn := by
    rw [d.pidArray_lines, List.map_map]
    exact List.map_congr_left fun r _ => r.third.symm
  let s₀ : Analysis := { s with flag := false, n := 0, data_start_line := 2, line_1 := 2 }
  obtain ⟨out', done, cur, hdone, hout, hs⟩ :=
    scan_eq d.name d.header (s := s₀) hrows rfl rfl rfl rfl
  obtain ⟨p, hp⟩ := d.segmentName_rows
  rw [analyseFile, DataFile.file, hpids]
  exact copyWhole_eq hs hdone hout (hp ▸ hnone p)

theorem DataFile.exists_row (d : DataFile) {seg : List Text}
    (hseg : seg ∈ (d.rows.map Row.line).splitBy samePid) :
    ∃ r ∈ d.rows, segmentName d.name seg = outputName (printNat r.pid) d.name := by
  have hne := List.ne_nil_of_mem_splitBy hseg
  have hmem : seg.getLast hne ∈ d.rows.map Row.line := by
    rw [← List.flatten_splitBy samePid (d.rows.map Row.line)]
    exact List.mem_flatten.2 ⟨seg, hseg, List.getLast_mem hne⟩
  obtain ⟨r, hr, hline⟩ := List.mem_map.1 hmem
  refine ⟨r, hr, ?_⟩
  rw [segmentName, getLastD_of_mem (List.getLast?_eq_some_getLast hne), ← hline, r.third]

theorem DataFile.analyseFile_of_ne (d : DataFile)
    (hnone : ∀ p, s.analy_data (outputName (printNat p) d.name) = none)
    (hx : ∀ r ∈ d.rows, x ≠ outputName (printNat r.pid) d.name) :
    (analyseFile s d.file).analy_data x = s.analy_data x := by
  rw [d.analyseFile_eq hnone]
  apply deliver_of_ne
  intro seg hseg
  obtain ⟨r, hr, hname⟩ := d.exists_row hseg
  exact hname ▸ hx r hr

/-- In a file whose changes of pid bash sees, a segment is the rows of one pid. -/
theorem DataFile.Apart.segment (d : DataFile) (hd : d.Apart) {seg : List Text}
    (hseg : seg ∈ (d.rows.map Row.line).splitBy samePid) :
    ∀ l ∈ seg, outputName (thirdColumn l) d.name = segmentName d.name seg := by
  have hkey : (d.rows.map Row.line).IsChain fun a b => samePid a b →
      outputName (thirdColumn a) d.name = outputName (thirdColumn b) d.name := by
    rw [List.isChain_map]
    refine List.IsChain.imp ?_ hd
    intro a b hab hsame
    rw [samePid, a.third, b.third, Bool.not_eq_true', ← Bool.not_eq_true, pidChanged_iff,
      not_not] at hsame
    rw [a.third, b.third, hab hsame.symm]
  have hlast := getLastD_of_mem (List.getLast?_eq_some_getLast (List.ne_nil_of_mem_splitBy hseg))
  intro l hl
  rw [key_eq_of_mem_splitBy hkey hseg l hl, segmentName, hlast]

theorem filter_headers {header : Text} {segs : List (List Text)} (hheader : hasPid header = true)
    (h : ∀ seg ∈ segs, ∀ l ∈ seg, hasPid l = false) :
    (segs.flatMap (header :: ·)).filter (fun l => !hasPid l) = segs.flatten := by
  induction segs with
  | nil => rfl
  | cons seg segs ih =>
    have hseg : seg.filter (fun l => !hasPid l) = seg := by
      rw [List.filter_eq_self]
      intro l hl
      simp [h seg (List.mem_cons_self ..) l hl]
    rw [List.flatMap_cons, List.filter_append, List.filter_cons_of_neg (by simp [hheader]), hseg,
      ih fun t ht => h t (List.mem_cons_of_mem seg ht), List.flatten_cons]

theorem DataFile.dataRows_analyseFile (d : DataFile) (hd : d.Apart)
    (hnone : ∀ p, s.analy_data (outputName (printNat p) d.name) = none) (x : Text) :
    dataRows ((analyseFile s d.file).analy_data x) = dataRows (s.analy_data x) ++
      (d.rows.filter fun r => outputName (printNat r.pid) d.name = x).map Row.line := by
  have hrow : ∀ seg ∈ ((d.rows.map Row.line).splitBy samePid).filter (segmentName d.name · = x),
      ∀ l ∈ seg, hasPid l = false := by
    intro seg hseg l hl
    have hmem : l ∈ d.rows.map Row.line := by
      rw [← List.flatten_splitBy samePid (d.rows.map Row.line)]
      exact List.mem_flatten.2 ⟨seg, List.mem_of_mem_filter hseg, hl⟩
    obtain ⟨r, -, rfl⟩ := List.mem_map.1 hmem
    exact r.noPid
  rw [d.analyseFile_eq hnone, dataRows, deliverRows, deliver_getD, List.filter_append,
    filter_headers d.headerPid hrow, filter_flatten (fun seg hseg => hd.segment d hseg),
    List.flatten_splitBy, List.filter_map]
  simp [dataRows, Function.comp_def, Row.third]

def Fresh (files : List DataFile) (out : Folder) : Prop :=
  ∀ d ∈ files, ∀ p, out (outputName (printNat p) d.name) = none

theorem Fresh.analyseFile {d : DataFile} {files : List DataFile} (hd : d.name ∉ files.map DataFile.name)
    (h : Fresh (d :: files) s.analy_data) : Fresh files (analyseFile s d.file).analy_data := by
  intro e he p
  rw [d.analyseFile_of_ne (h d (List.mem_cons_self ..)), h e (List.mem_cons_of_mem d he) p]
  intro r _ heq
  exact hd (List.mem_map.2 ⟨e, he, (outputName_inj.1 heq).2⟩)

theorem foldl_of_ne {files : List DataFile} (hnames : (files.map DataFile.name).Nodup)
    (hfresh : Fresh files s.analy_data)
    (hx : ∀ d ∈ files, ∀ r ∈ d.rows, x ≠ outputName (printNat r.pid) d.name) :
    ((files.map DataFile.file).foldl analyseFile s).analy_data x = s.analy_data x := by
  induction files generalizing s with
  | nil => rfl
  | cons d files ih =>
    rw [List.map_cons, List.nodup_cons] at hnames
    rw [List.map_cons, List.foldl_cons, ih hnames.2 (hfresh.analyseFile hnames.1) fun e he =>
        hx e (List.mem_cons_of_mem d he),
      d.analyseFile_of_ne (hfresh d (List.mem_cons_self ..)) (hx d (List.mem_cons_self ..))]

theorem foldl_dataRows {files : List DataFile} (hnames : (files.map DataFile.name).Nodup)
    (hfresh : Fresh files s.analy_data) (hpids : ∀ d ∈ files, d.Apart) {d : DataFile}
    (hd : d ∈ files) (p : ℕ) :
    dataRows (((files.map DataFile.file).foldl analyseFile s).analy_data
      (outputName (printNat p) d.name)) = (d.rows.filter (·.pid = p)).map Row.line := by
  induction files generalizing s with
  | nil => exact absurd hd List.not_mem_nil
  | cons e files ih =>
    rw [List.map_cons, List.nodup_cons] at hnames
    rw [List.map_cons, List.foldl_cons]
    rcases List.mem_cons.1 hd with rfl | hd
    · -- the files after this one write under other names
      have hlater : ∀ e ∈ files, ∀ r ∈ e.rows,
          outputName (printNat p) d.name ≠ outputName (printNat r.pid) e.name := by
        intro e he r _ heq
        exact hnames.1 (List.mem_map.2 ⟨e, he, (outputName_inj.1 heq).2.symm⟩)
      have hfirst := hfresh d (List.mem_cons_self ..)
      rw [foldl_of_ne hnames.2 (hfresh.analyseFile hnames.1) hlater,
        d.dataRows_analyseFile (hpids d (List.mem_cons_self ..)) hfirst, hfirst]
      simp [dataRows, outputName_inj]
    · exact ih hnames.2 (hfresh.analyseFile hnames.1) (fun e he => hpids e (List.mem_cons_of_mem _ he))
        hd

theorem DataFile.apart_of_lt (d : DataFile) (h : ∀ r ∈ d.rows, r.pid < 2 ^ 64) : d.Apart := by
  rw [DataFile.Apart, List.isChain_iff_getElem]
  intro k hk hmod
  rwa [Nat.mod_eq_of_lt (h _ (List.getElem_mem _)),
    Nat.mod_eq_of_lt (h _ (List.getElem_mem _))] at hmod

/-- Every row is in the file of its pid, also where a pid comes back, if no two neighbouring rows
have different pids that are equal modulo 2^64. -/
theorem analyse_splitByPid (files : List DataFile) (hnames : (files.map DataFile.name).Nodup)
    (hpids : ∀ d ∈ files, d.Apart) (analy_data : Folder) : SplitByPid files analy_data := by
  -- what an earlier run left under these names is removed first
  have hfresh : Fresh files fun x => if isDat x then none else analy_data x := by
    intro d _ p
    exact if_pos (isDat_outputName d p)
  exact ⟨fun d hd p => foldl_dataRows hnames hfresh hpids hd p,
    fun x hx => foldl_of_ne hnames hfresh hx⟩

def pidRow (pid : ℕ) (hpid : hasPid ('1' :: ' ' :: '0' :: ' ' :: printNat pid) = false)
    (hthird : thirdColumn ('1' :: ' ' :: '0' :: ' ' :: printNat pid) = printNat pid) : Row :=
  ⟨_, pid, hpid, hthird⟩

def returningFile : DataFile where
  name := ['b', '.', 'd', 'a', 't']
  header := ['p', 'i', 'd']
  rows := [pidRow 7 (by decide) (by decide), pidRow 40 (by decide) (by decide),
    pidRow 7 (by decide) (by decide)]
  word := by simp [isBlank]
  dat := by decide
  headerPid := by decide
  rows_ne := by decide

theorem analyse_splitByPid_returningFile :
    ([returningFile].map DataFile.name).Nodup ∧ (∀ d ∈ [returningFile], d.Apart) ∧
      SplitByPid [returningFile] fun _ => none := by
  have hpids : ∀ d ∈ [returningFile], d.Apart := by
    simp [DataFile.Apart, returningFile, pidRow]
  exact ⟨by decide, hpids, analyse_splitByPid [returningFile] (by decide) hpids fun _ => none⟩

def wideFile : DataFile where
  name := ['b', '.', 'd', 'a', 't']
  header := ['p', 'i', 'd']
  rows := [pidRow 1 (by decide) (by decide),
    pidRow 18446744073709551617 (by decide +kernel) (by decide +kernel)]
  word := by simp [isBlank]
  dat := by decide
  headerPid := by decide
  rows_ne := by decide

/-- Pids 1 and 2^64 + 1 are one number to bash, and the row of pid 1 is lost from its file. -/
theorem not_splitByPid_wideFile :
    ¬∀ (files : List DataFile), (files.map DataFile.name).Nodup → ∀ analy_data : Folder,
      RowsByPid files analy_data := by
  intro h
  have hrows := h [wideFile] (by decide) (fun _ => none) wideFile (List.mem_singleton.2 rfl) 1
  revert hrows
  decide +kernel

end MyScripts.MemoryMonitor
