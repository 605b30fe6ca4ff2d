import MyScripts.MemoryMonitor.Analysis

/-!
# One data file cut at its changes of pid

The loop over the pids of a data file delivers the segments of rows that
`(($j != $last_pid))` does not tell apart, each under the header and to the file
of its last row's pid. The line counters are the lengths of what is done and of
the segment that is open.
-/
namespace MyScripts.MemoryMonitor
open MyScripts.Library.Decimal MyScripts.Library.Segments

variable {i header x : Text} {out : Folder} {done cur rest rows ls : List Text} {s : Analysis}

def samePid (a b : Text) : Bool := !pidChanged (thirdColumn b) (thirdColumn a)

def segmentName (i : Text) (seg : List Text) : Text := outputName (thirdColumn (seg.getLastD [])) i

def deliverRows (i header : Text) : Folder → List (List Text) → Folder :=
  deliver (segmentName i) (header :: ·)

/-- After the rows `done ++ cur`: `done` is delivered, `cur` is open, and written only with the
last row. -/
structure Scanned (i header : Text) (ls : List Text) (out : Folder) (done cur rest : List Text)
    (s : Analysis) : Prop where
  lines : ls = header :: (done ++ cur ++ rest)
  open_ne : cur ≠ []
  chain : cur.IsChain fun a b => samePid a b
  count : s.n = done.length + cur.length
  line : s.line_1 = s.n + 2
  start : s.data_start_line = done.length + 2
  last : s.last_pid = thirdColumn (cur.getLastD [])
  pid : s.j = s.last_pid
  changed : s.flag = true ↔ done ≠ []
  data : s.analy_data = if rest = [] then append out (segmentName i cur) (header :: cur) else out

theorem sedLines_header (ls : List Text) : sedLines (header :: ls) 1 1 = [header] := by
  simp [sedLines]

theorem sedLines_rows (header : Text) (done rest : List Text) (hcur : cur ≠ []) :
    sedLines (header :: (done ++ cur ++ rest)) (done.length + 2) (done.length + cur.length + 1) =
      cur := by
  have hpos := List.length_pos_of_ne_nil hcur
  have hcount : max (done.length + 2) (done.length + cur.length + 1) - (done.length + 2 - 1) =
      cur.length := by omega
  rw [sedLines, hcount, show done.length + 2 - 1 = done.length + 1 from rfl, List.drop_succ_cons,
    List.append_assoc, List.drop_left, List.take_left]

theorem lastRow_frame (i : Text) (ls : List Text) (s : Analysis) :
    (lastRow i ls s).line_1 = s.line_1 ∧ (lastRow i ls s).n = s.n ∧
    (lastRow i ls s).data_start_line = s.data_start_line ∧ (lastRow i ls s).flag = s.flag ∧
    (lastRow i ls s).j = s.j := by
  rw [lastRow]
  split <;> exact ⟨rfl, rfl, rfl, rfl, rfl⟩

theorem scanned_advance (hls : ls = header :: (done ++ cur ++ rest)) (hcur : cur ≠ [])
    (hchain : cur.IsChain fun a b => samePid a b) (hn : s.n + 1 = done.length + cur.length)
    (hline : s.line_1 = s.n + 2) (hstart : s.data_start_line = done.length + 2)
    (hj : s.j = thirdColumn (cur.getLastD [])) (hflag : s.flag = true ↔ done ≠ []) :
    Scanned i header ls s.analy_data done cur rest
      { lastRow i ls s with
        last_pid := s.j, n := (lastRow i ls s).n + 1, line_1 := (lastRow i ls s).line_1 + 1 } := by
  obtain ⟨hline', hn', hstart', hflag', hj'⟩ := lastRow_frame i ls s
  have hend : s.line_1 = ls.length ↔ rest = [] := by
    rw [hls, List.length_cons, List.length_append, List.length_append,
      ← List.length_eq_zero_iff]
    omega
  have hdata : (lastRow i ls s).analy_data =
      if rest = [] then append s.analy_data (segmentName i cur) (header :: cur)
      else s.analy_data := by
    by_cases hrest : rest = []
    · have hrows := sedLines_rows header done rest hcur
      have hlast : ls.length = done.length + cur.length + 1 := by
        rw [← hend.2 hrest, hline]
        omega
      rw [lastRow, if_pos (hend.2 hrest), if_pos hrest, writeRows, hstart, hlast, hls, hrows,
        sedLines_header, hj]
      rfl
    · rw [lastRow, if_neg (hend.not.2 hrest), if_neg hrest]
  exact {
    lines := hls
    open_ne := hcur
    chain := hchain
    count := by rw [← hn, ← hn']
    line := by simp only [hline', hn', hline]
    start := by rw [← hstart, ← hstart']
    last := hj
    pid := hj'
    changed := by rw [← hflag, ← hflag']
    data := hdata }

theorem scanned_first (i header x : Text) (rest : List Text) (hn : s.n = 0)
    (hline : s.line_1 = 2) (hstart : s.data_start_line = 2) (hflag : s.flag = false) :
    Scanned i header (header :: x :: rest) s.analy_data [] [x] rest
      (nextPid i (header :: x :: rest) s (thirdColumn x)) := by
  have hsame : ¬(0 < s.n ∧ pidChanged (thirdColumn x) s.last_pid = true) := by simp [hn]
  simp only [nextPid, if_neg hsame]
  apply scanned_advance (s := { s with j := thirdColumn x })
  · rfl
  · exact List.cons_ne_nil x []
  · exact List.isChain_singleton x
  · simp [hn]
  · simp [hn, hline]
  · exact hstart
  · rfl
  · simp [hflag]

theorem getLastD_concat (l : List Text) (x : Text) : (l ++ [x]).getLastD [] = x := by simp

theorem getLastD_of_mem {a : Text} (h : a ∈ cur.getLast?) : cur.getLastD [] = a := by
  rw [List.getLastD_eq_getLast?, h]
  rfl

theorem Scanned.keep (h : Scanned i header ls out done cur (x :: rest) s)
    (hx : samePid (cur.getLastD []) x = true) :
    Scanned i header ls out done (cur ++ [x]) rest (nextPid i ls s (thirdColumn x)) := by
  have hsame : ¬(0 < s.n ∧ pidChanged (thirdColumn x) s.last_pid = true) := by
    rw [h.last]
    rintro ⟨-, hc⟩
    rw [samePid, hc] at hx
    exact absurd hx (by decide)
  have hdata : s.analy_data = out := by rw [h.data, if_neg (List.cons_ne_nil x rest)]
  simp only [nextPid, if_neg hsame, ← hdata]
  apply scanned_advance (s := { s with j := thirdColumn x })
  · rw [h.lines]
    simp
  · simp
  · rw [List.isChain_append]
    refine ⟨h.chain, List.isChain_singleton x, ?_⟩
    intro a ha b hb
    rw [List.head?_cons, Option.mem_some] at hb
    rwa [← hb, ← getLastD_of_mem ha]
  · rw [List.length_append, List.length_singleton, ← Nat.add_assoc, ← h.count]
  · exact h.line
  · exact h.start
  · rw [getLastD_concat]
  · exact h.changed

theorem Scanned.cut (h : Scanned i header ls out done cur (x :: rest) s)
    (hx : samePid (cur.getLastD []) x = false) :
    Scanned i header ls (append out (segmentName i cur) (header :: cur)) (done ++ cur) [x] rest
      (nextPid i ls s (thirdColumn x)) := by
  have hpos := List.length_pos_of_ne_nil h.open_ne
  have hother : 0 < s.n ∧ pidChanged (thirdColumn x) s.last_pid = true := by
    refine ⟨by rw [h.count]; omega, ?_⟩
    rw [h.last]
    simpa [samePid] using hx
  have hrows := sedLines_rows header done (x :: rest) h.open_ne
  have hdata : (changePid i ls { s with j := thirdColumn x }).analy_data =
      append out (segmentName i cur) (header :: cur) := by
    simp only [changePid, writeRows, h.start, h.count, h.lines, hrows, sedLines_header, h.data,
      if_neg (List.cons_ne_nil x rest), h.last]
    rfl
  simp only [nextPid, if_pos hother, ← hdata]
  apply scanned_advance (s := changePid i ls { s with j := thirdColumn x })
  · rw [h.lines]
    simp
  · simp
  · exact List.isChain_singleton x
  · rw [List.length_append, List.length_singleton, ← h.count]
    rfl
  · exact h.line
  · rw [List.length_append, ← h.count]
    rfl
  · rfl
  · simp [changePid, h.open_ne]

/-- The whole loop, by induction on the rows not yet read. -/
theorem Scanned.run (h : Scanned i header ls out done cur rest s) :
    ∃ out' done' cur', done' ++ cur' = done ++ cur ++ rest ∧
      append out' (segmentName i cur') (header :: cur') =
        deliverRows i header out ((cur ++ rest).splitBy samePid) ∧
      Scanned i header ls out' done' cur' []
        ((rest.map thirdColumn).foldl (nextPid i ls) s) := by
  induction rest generalizing out done cur s with
  | nil =>
    refine ⟨out, done, cur, (List.append_nil _).symm, ?_, h⟩
    rw [List.append_nil, List.splitBy_of_isChain h.open_ne h.chain]
    rfl
  | cons x rest ih =>
    rw [List.map_cons, List.foldl_cons]
    by_cases hx : samePid (cur.getLastD []) x = true
    · obtain ⟨out', done', cur', hdone, hout, hs⟩ := ih (h.keep hx)
      refine ⟨out', done', cur', ?_, ?_, hs⟩
      · simpa using hdone
      · simpa using hout
    · rw [Bool.not_eq_true] at hx
      obtain ⟨out', done', cur', hdone, hout, hs⟩ := ih (h.cut hx)
      refine ⟨out', done', cur', ?_, ?_, hs⟩
      · simpa using hdone
      · have hcut := splitBy_cut rest h.open_ne h.chain fun a ha => by
          rwa [← getLastD_of_mem ha]
        rw [hout, hcut]
        rfl

theorem scan_eq (i header : Text) (hrows : rows ≠ []) (hn : s.n = 0) (hline : s.line_1 = 2)
    (hstart : s.data_start_line = 2) (hflag : s.flag = false) :
    ∃ out' done' cur', done' ++ cur' = rows ∧
      append out' (segmentName i cur') (header :: cur') =
        deliverRows i header s.analy_data (rows.splitBy samePid) ∧
      Scanned i header (header :: rows) out' done' cur' []
        ((rows.map thirdColumn).foldl (nextPid i (header :: rows)) s) := by
  obtain ⟨x, rest, rfl⟩ := List.exists_cons_of_ne_nil hrows
  exact (scanned_first i header x rest hn hline hstart hflag).run

theorem copyWhole_eq {out' : Folder} (h : Scanned i header (header :: rows) out' done cur [] s)
    (hdone : done ++ cur = rows)
    (hout : append out' (segmentName i cur) (header :: cur) =
      deliverRows i header out (rows.splitBy samePid))
    (hnone : out (segmentName i rows) = none) :
    (copyWhole i (header :: rows) s).analy_data =
      deliverRows i header out (rows.splitBy samePid) := by
  have hdata : s.analy_data = deliverRows i header out (rows.splitBy samePid) := by
    rw [h.data, if_pos rfl, hout]
  rw [copyWhole]
  by_cases hflag : s.flag = true
  · rw [if_pos hflag, hdata]
  · have hone : done = [] := not_not.1 (h.changed.not.1 hflag)
    obtain rfl : cur = rows := by rw [← hdone, hone, List.nil_append]
    have hsegment : cur.splitBy samePid = [cur] := List.splitBy_of_isChain h.open_ne h.chain
    rw [if_neg hflag, hdata, hsegment, h.pid, h.last]
    funext x
    by_cases hx : x = segmentName i cur
    · rw [hx, deliverRows, deliver_cons, deliver_nil, append_self, hnone]
      exact if_pos rfl
    · exact if_neg hx

end MyScripts.MemoryMonitor
