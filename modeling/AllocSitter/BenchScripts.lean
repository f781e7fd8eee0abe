/-
The scripts around the driver: the two lines that it prints with `--csv`, the verdict of
`bench/verify.sh` on two runs, and the files that `bench/run_bench.sh` appends rows to.
-/
import AllocSitter.DriverMain
import AllocSitter.RequestStatistics
import AllocSitter.ShellText
import AllocSitter.TraceText

namespace AllocSitter

open CStrings PlainText ShellText

universe u v

namespace Driver

/-- A text that stands in one field of a row: a number with a fraction, of which only the
text is modelled, or the name `ALLOC_IMPL`. -/
structure Field where
  text : List Char
  plain : ',' ∉ text ∧ '\n' ∉ text

/-- What a row says beside the options and the counts. -/
structure Measurements where
  mean : Field
  median : Field
  min : Field
  max : Field
  mbps : Field
  rssKb : Int
  requests : DataStat
  allocStat : AllocStat
  rssAfterLoadKb : Int
  impl : Field

/-- `%d` and `%ld`. -/
def integer : Int → List Char
  | .ofNat n => decimal n
  | .negSucc n => '-' :: decimal (n + 1)

def allocatorName : AllocatorMode → List Char
  | .default => "default".toList
  | .mmapArena => "mmap-arena".toList

def csvColumns : List String :=
  ["allocator", "iters", "warmup", "files", "bytes", "nodes", "errors", "mean_sec", "median_sec",
    "min_sec", "max_sec", "mbps", "peak_rss_kb", "malloc_cnt", "calloc_cnt", "realloc_cnt",
    "free_cnt", "req_bytes", "real_bytes", "scan_steps", "remove_steps", "freelist_len",
    "live_real_bytes", "peak_live_real_bytes", "arena_used_bytes", "rss_after_load_kb", "impl"]

def csvHeader : List Char := [','].intercalate (csvColumns.map String.toList)

def ParseStats.fields (stats : ParseStats) : List (List Char) :=
  [decimal stats.files, decimal stats.bytes, decimal stats.nodes, decimal stats.errors]

def csvFields (r : Report) (v : Measurements) : List (List Char) :=
  [allocatorName r.options.allocator, integer r.options.iters, integer r.options.warmup] ++
    r.last.fields ++
    [v.mean.text, v.median.text, v.min.text, v.max.text, v.mbps.text, integer v.rssKb,
      decimal v.requests.mallocCnt, decimal v.requests.callocCnt, decimal v.requests.reallocCnt,
      decimal v.requests.freeCnt, decimal v.requests.reqBytes, decimal v.allocStat.realBytes,
      decimal v.allocStat.scanSteps, decimal v.allocStat.removeSteps,
      decimal v.allocStat.freelistLen, decimal v.allocStat.liveRealBytes,
      decimal v.allocStat.peakLiveRealBytes, decimal v.allocStat.arenaUsedBytes,
      integer v.rssAfterLoadKb, v.impl.text]

def csvRow (r : Report) (v : Measurements) : List Char := [','].intercalate (csvFields r v)

/-- The report with `--csv`. -/
def csvText (r : Report) (v : Measurements) : List Char := write [csvHeader, csvRow r v]

section Fields

theorem decimal_field (n : Nat) : ',' ∉ decimal n ∧ '\n' ∉ decimal n := by
  have hdigit : ∀ c, isBlank c = true ∨ c = ',' → c ∉ decimal n := by
    intro c hc hmem
    obtain ⟨d, hd, rfl⟩ := mem_toDigits (by decide) hmem
    revert hc
    clear hmem
    revert d
    decide
  exact ⟨hdigit ',' (Or.inr rfl), hdigit '\n' (Or.inl rfl)⟩

theorem decimal_injective : Function.Injective decimal := by
  intro n n' h
  have hread := readDigits_toDigits (show 1 < 10 by decide) (by decide) n
  rw [show Nat.toDigits 10 n = Nat.toDigits 10 n' from h,
    readDigits_toDigits (show 1 < 10 by decide) (by decide)] at hread
  exact (Option.some.inj hread).symm

theorem integer_field (n : Int) : ',' ∉ integer n ∧ '\n' ∉ integer n := by
  cases n with
  | ofNat n => exact decimal_field n
  | negSucc n =>
      obtain ⟨hcomma, hline⟩ := decimal_field (n + 1)
      exact ⟨by simp [integer, hcomma], by simp [integer, hline]⟩

theorem allocatorName_field (mode : AllocatorMode) :
    ',' ∉ allocatorName mode ∧ '\n' ∉ allocatorName mode := by
  cases mode <;> decide

variable {r r' : Report} {v v' : Measurements}

theorem csvFields_plain : ∀ field ∈ csvFields r v, ',' ∉ field ∧ '\n' ∉ field := by
  simp only [csvFields, ParseStats.fields, List.cons_append, List.nil_append,
    List.forall_mem_cons, List.not_mem_nil, false_implies, implies_true, and_true]
  exact ⟨allocatorName_field _, integer_field _, integer_field _, decimal_field _,
    decimal_field _, decimal_field _, decimal_field _, v.mean.plain, v.median.plain, v.min.plain,
    v.max.plain, v.mbps.plain, integer_field _, decimal_field _, decimal_field _,
    decimal_field _, decimal_field _, decimal_field _, decimal_field _, decimal_field _,
    decimal_field _, decimal_field _, decimal_field _, decimal_field _, decimal_field _,
    integer_field _, v.impl.plain⟩

theorem csvRow_plain : '\n' ∉ csvRow r v :=
  not_mem_intercalate (by decide) fun field hfield => (csvFields_plain field hfield).2

theorem csvColumns_plain :
    ∀ name ∈ csvColumns.map String.toList, ',' ∉ name ∧ '\n' ∉ name := by
  simp [csvColumns]

theorem csvHeader_plain : '\n' ∉ csvHeader :=
  not_mem_intercalate (by decide) fun name hname => (csvColumns_plain name hname).2

theorem csvText_lines : ∀ line ∈ [csvHeader, csvRow r v], '\n' ∉ line := by
  simp only [List.forall_mem_cons, List.not_mem_nil, false_implies, implies_true, and_true]
  exact ⟨csvHeader_plain, csvRow_plain⟩

theorem ParseStats.fields_plain (stats : ParseStats) :
    ∀ field ∈ stats.fields, ',' ∉ field ∧ '\n' ∉ field := by
  simp only [ParseStats.fields, List.forall_mem_cons, List.not_mem_nil, false_implies,
    implies_true, and_true]
  exact ⟨decimal_field _, decimal_field _, decimal_field _, decimal_field _⟩

theorem ParseStats.fields_injective : Function.Injective ParseStats.fields := by
  rintro ⟨files, bytes, nodes, errors⟩ ⟨files', bytes', nodes', errors'⟩ h
  simp only [ParseStats.fields, List.cons.injEq, decimal_injective.eq_iff, and_true] at h
  obtain ⟨rfl, rfl, rfl, rfl⟩ := h
  rfl

end Fields

section Finishes

variable {α : Type u} {γ : Type v}

/-- `main` returns, with the report that it prints if it does, and with what it leaves to the
shell.  The report is printed last, so that a `return` before it leaves nothing. -/
inductive Returns (m : Machine α γ) (args : List CString) (v : Measurements) :
    Option Report → Ended → Prop
  | prints {fuel : Nat} {r : Report} (h : (main m fuel args).run = some (.ok r))
      (hcsv : r.options.csv = true) : Returns m args v (some r) ⟨csvText r v, 0⟩
  | fails {fuel status : Nat} (h : (main m fuel args).run = some (.error status)) :
      Returns m args v none ⟨[], status⟩

/-- How the driver ends: an assertion of `check_invariant` that fails stops it before it
prints. -/
inductive Finishes (m : Machine α γ) (args : List CString) (v : Measurements) :
    Option Report → Ended → Prop
  | returns {report : Option Report} {run : Ended} (h : Returns m args v report run) :
      Finishes m args v report run
  | aborts (status : Nat) : Finishes m args v none ⟨[], status⟩

end Finishes

end Driver

namespace Scripts

open Driver

/-- `result_fields`. -/
def resultFields (run : Ended) : Ended := (run.pipe tailLine).pipe (cut ',' 4 7)

/-- `bench/verify.sh`, with the two runs of the driver that it makes. -/
def verify (executable : Bool) (mmapArena default : Ended) : Nat :=
  if executable = false then 1
  else
    let mmapFields := resultFields mmapArena
    if mmapFields.status ≠ 0 then 1
    else
      let defaultFields := resultFields default
      if defaultFields.status ≠ 0 then 1
      else if substitute defaultFields.out ≠ substitute mmapFields.out then 1
      else 0

/-- The arguments of both runs. -/
def verifyArgs (mode : AllocatorMode) (root : CString) : List CString :=
  [allocatorFlag ++ (match mode with | .default => defaultName | .mmapArena => mmapArenaName),
    rootFlag ++ root, itersFlag ++ ascii ['1'], warmupFlag ++ ascii ['0'], csvFlag]

section Verdict

variable {α : Type u} {γ : Type v} {m : Machine α γ} {mode : AllocatorMode} {root : CString}
  {v : Measurements} {report : Option Report} {run : Ended} {r : Report}

theorem readArgs_verify (served : Nat → Bool) :
    readArgs served ({}, .empty) (verifyArgs mode root) =
      .ok ({ allocator := mode, root := root, iters := 1, warmup := 0, csv := true }, .empty) := by
  cases mode <;> rfl

/-- Enough fuel gives a result, and the arguments ask for the CSV report. -/
theorem returns_exists (m : Machine α γ) (mode : AllocatorMode) (root : CString)
    (v : Measurements) :
    ∃ report run, Returns m (verifyArgs mode root) v report run := by
  obtain ⟨result, enough, hmain⟩ := main_settles m (verifyArgs mode root)
  have hrun := hmain enough (Nat.le_refl enough)
  cases result with
  | error status => exact ⟨_, _, .fails hrun⟩
  | ok r =>
      obtain ⟨c, _, _, _, hargs, _⟩ := main_eq_ok hrun
      rw [readArgs_verify] at hargs
      have hcsv : r.options.csv = true := by
        rw [← (Prod.mk.inj (Except.ok.inj hargs)).1]
      exact ⟨_, _, .prints hrun hcsv⟩

/-- The fields that the script compares: those of the counts, or none. -/
theorem resultFields_of_finishes {args : List CString} (h : Finishes m args v report run) :
    substitute (resultFields run).out =
      report.elim [] fun r => [','].intercalate r.last.fields := by
  cases h with
  | returns hreturns =>
      cases hreturns with
      | @prints fuel r hrun hcsv =>
          have htail : tailLine (csvText r v) = write [csvRow r v] := by
            rw [tailLine, csvText, lines_write csvText_lines]
            rfl
          have hcut : cutLine ',' 4 7 (csvRow r v) = [','].intercalate r.last.fields :=
            cutLine_intercalate (by simp [csvFields])
              fun field hfield => (csvFields_plain field hfield).1
          have hplain : '\n' ∉ [','].intercalate r.last.fields :=
            not_mem_intercalate (by decide) fun field hfield => (r.last.fields_plain field hfield).2
          simp only [resultFields, Ended.pipe, htail, Option.elim_some]
          rw [cut, lines_write (by simpa using csvRow_plain), List.map_singleton, hcut,
            substitute_write hplain]
      | fails _ => rfl
  | aborts _ => rfl

/-- The statuses of the pipes say nothing, so that the fields alone decide. -/
theorem verify_eq_zero_iff (run run' : Ended) : verify true run run' = 0 ↔
    substitute (resultFields run').out = substitute (resultFields run).out := by
  have hstatus (run : Ended) : (resultFields run).status = 0 := rfl
  by_cases hsame : substitute (resultFields run').out = substitute (resultFields run).out
  · simp [verify, hstatus, hsame]
  · simp [verify, hstatus, hsame]

/-- The fields tell apart all counts, and counts from none. -/
theorem countsText_inj {report report' : Option Report} :
    (report.elim [] fun r => [','].intercalate r.last.fields) =
        (report'.elim [] fun r => [','].intercalate r.last.fields) ↔
      report.map Report.last = report'.map Report.last := by
  have hsome (r : Report) : [','].intercalate r.last.fields ≠ [] := by
    simp [ParseStats.fields, List.intercalate_cons_cons]
  have hne (r : Report) : r.last.fields ≠ [] := by simp [ParseStats.fields]
  have hplain (r : Report) : ∀ field ∈ r.last.fields, ',' ∉ field :=
    fun field hfield => (r.last.fields_plain field hfield).1
  cases report with
  | none =>
      cases report' with
      | none => exact iff_of_true rfl rfl
      | some r' => exact iff_of_false (hsome r').symm (by simp)
  | some r =>
      cases report' with
      | none => exact iff_of_false (hsome r) (by simp)
      | some r' =>
          rw [Option.elim_some, Option.elim_some,
            intercalate_inj (hne r) (hne r') (hplain r) (hplain r'),
            ParseStats.fields_injective.eq_iff]
          simp

/-- The verdict of `bench/verify.sh` on any two runs of the driver: `main` returns if no
assertion stops it, and the verdict is good exactly if both print a report with the same
counts, or if neither prints one. -/
theorem verify_verdict {α' : Type u} {γ' : Type v} (m : Machine α γ) (m' : Machine α' γ')
    (root : CString) (v v' : Measurements) :
    (∃ report run, Returns m (verifyArgs .mmapArena root) v report run) ∧
    (∃ report run, Returns m' (verifyArgs .default root) v' report run) ∧
    ∀ report run report' run', Finishes m (verifyArgs .mmapArena root) v report run →
      Finishes m' (verifyArgs .default root) v' report' run' →
      (verify true run run' = 0 ↔ report.map Report.last = report'.map Report.last) := by
  refine ⟨returns_exists m _ root v, returns_exists m' _ root v', ?_⟩
  intro report run report' run' h h'
  rw [verify_eq_zero_iff, resultFields_of_finishes h, resultFields_of_finishes h', countsText_inj]
  exact eq_comm

/-- Measurements of a run without allocations. -/
def exampleMeasurements (impl : Field) : Measurements where
  mean := ⟨['0', '.', '5'], by decide⟩
  median := ⟨['0', '.', '5'], by decide⟩
  min := ⟨['0', '.', '5'], by decide⟩
  max := ⟨['0', '.', '5'], by decide⟩
  mbps := ⟨['9'], by decide⟩
  rssKb := 900
  requests := {}
  allocStat := {}
  rssAfterLoadKb := 800
  impl := impl

/-- Two runs over the same directory agree whatever they measured; a run that is stopped does
not agree with a report, but it does with another run that prints none. -/
theorem verify_verdict_example :
    ∃ r r', Returns (exampleMachine false) (verifyArgs .mmapArena exampleRoot)
        (exampleMeasurements ⟨['a'], by decide⟩) (some r)
        ⟨csvText r (exampleMeasurements ⟨['a'], by decide⟩), 0⟩ ∧
      verify true ⟨csvText r (exampleMeasurements ⟨['a'], by decide⟩), 0⟩
        ⟨csvText r' (exampleMeasurements ⟨['b'], by decide⟩), 0⟩ = 0 ∧
      verify true ⟨[], 134⟩ ⟨csvText r' (exampleMeasurements ⟨['b'], by decide⟩), 0⟩ ≠ 0 ∧
      verify true ⟨[], 134⟩ ⟨[], 1⟩ = 0 := by
  have hrun : ∃ r, (main (exampleMachine false) 20 (verifyArgs .mmapArena exampleRoot)).run =
      some (.ok r) ∧ r.options.csv = true ∧ r.last = ⟨1, 3, 5, 0⟩ := ⟨_, rfl, rfl, rfl⟩
  have hrun' : ∃ r, (main (exampleMachine true) 20 (verifyArgs .default exampleRoot)).run =
      some (.ok r) ∧ r.options.csv = true ∧ r.last = ⟨1, 3, 5, 0⟩ := ⟨_, rfl, rfl, rfl⟩
  obtain ⟨r, hmain, hcsv, hlast⟩ := hrun
  obtain ⟨r', hmain', hcsv', hlast'⟩ := hrun'
  have hverdict := (verify_verdict (exampleMachine false) (exampleMachine true) exampleRoot
    (exampleMeasurements ⟨['a'], by decide⟩) (exampleMeasurements ⟨['b'], by decide⟩)).2.2
  refine ⟨r, r', .prints hmain hcsv, ?_, ?_, ?_⟩
  · refine (hverdict _ _ _ _ (.returns (.prints hmain hcsv)) (.returns (.prints hmain' hcsv'))).mpr ?_
    rw [Option.map_some, Option.map_some, hlast, hlast']
  · refine mt (hverdict _ _ _ _ (.aborts 134) (.returns (.prints hmain' hcsv'))).mp ?_
    simp
  · exact (hverdict _ _ _ _ (.aborts 134) (.aborts 1)).mpr rfl

end Verdict

section Results

/-- The files of `RESULTS_DIR`: one for each allocator, and those that were moved away, with
the second in their names. -/
inductive ResultFile where
  | csv (mode : AllocatorMode)
  | old (mode : AllocatorMode) (second : Nat)
deriving DecidableEq

abbrev ResultsDir := ResultFile → Option (List Char)

def headerOf (run : Ended) : List Char := substitute (headLine (substitute run.out ++ ['\n']))

def rowOf (run : Ended) : List Char := substitute (tailLine (substitute run.out ++ ['\n']))

/-- The file is there, with another header. -/
def schemaChanged (dir : ResultsDir) (mode : AllocatorMode) (header : List Char) : Bool :=
  (dir (.csv mode)).any fun text => substitute (headLine text) ≠ header

/-- `mv`. -/
def moveAway (dir : ResultsDir) (mode : AllocatorMode) (now : Nat) : ResultsDir :=
  Function.update (Function.update dir (.old mode now) (dir (.csv mode))) (.csv mode) none

/-- `append_csv` at a second of the clock, with the run of the driver; `none` for
`return 1`. -/
def appendCsv (dir : ResultsDir) (mode : AllocatorMode) (now : Nat) (run : Ended) :
    Option ResultsDir :=
  if run.status ≠ 0 then none
  else
    let header := headerOf run
    let dir := if schemaChanged dir mode header then moveAway dir mode now else dir
    let text := (dir (.csv mode)).getD (header ++ ['\n'])
    some (Function.update dir (.csv mode) (some (text ++ rowOf run ++ ['\n'])))

/-- The loop of `bench/run_bench.sh` over the runs of the driver, with its status. -/
def runBench (dir : ResultsDir) : List (AllocatorMode × Nat × Ended) → ResultsDir × Nat
  | [] => (dir, 0)
  | (mode, now, run) :: rest =>
      match appendCsv dir mode now run with
      | none => (dir, 1)
      | some dir => runBench dir rest

/-- A file with a header and rows below it. -/
structure Table where
  header : List Char
  rows : List (List Char)
  plain : ∀ line ∈ header :: rows, '\n' ∉ line
  columns : ∀ row ∈ rows, (row.splitOn ',').length = (header.splitOn ',').length

def Table.text (t : Table) : List Char := write (t.header :: t.rows)

/-- The rows of a file, each with the header above it. -/
def rowsOf (text : List Char) : List (List Char × List Char) :=
  match ShellText.lines text with
  | [] => []
  | header :: rows => rows.map fun row => (header, row)

/-- The rows of some files, one after the other; a file that is not there has none. -/
def rowsIn (dir : ResultsDir) (files : List ResultFile) : List (List Char × List Char) :=
  files.flatMap fun file => (dir file).elim [] rowsOf

/-- The driver, of whatever version, has printed a header and a row of as many columns. -/
structure Prints (run : Ended) (header row : List Char) : Prop where
  out : run.out = write [header, row]
  header_plain : '\n' ∉ header
  row_plain : '\n' ∉ row
  row_ne : row ≠ []
  columns : (row.splitOn ',').length = (header.splitOn ',').length

/-- This version does. -/
theorem prints_csvText (r : Report) (v : Measurements) (status : Nat) :
    Prints ⟨csvText r v, status⟩ csvHeader (csvRow r v) where
  out := rfl
  header_plain := csvHeader_plain
  row_plain := csvRow_plain
  row_ne := by simp [csvRow, csvFields, List.intercalate_cons_cons]
  columns := by
    rw [csvRow, csvHeader, List.splitOn_intercalate ',' _ (by simp [csvFields]),
      List.splitOn_intercalate ',' _ (by simp [csvColumns])]
    · rfl
    · exact fun name hname => (csvColumns_plain name hname).1
    · exact fun field hfield => (csvFields_plain field hfield).1

variable {run : Ended} {header row : List Char} {t : Table}

theorem Prints.headerOf_eq (h : Prints run header row) : headerOf run = header := by
  rw [headerOf, h.out, show [header, row] = [header] ++ [row] from rfl,
    substitute_report h.row_ne h.row_plain]
  refine substitute_headLine ?_
  simp [h.header_plain, h.row_plain]

theorem Prints.rowOf_eq (h : Prints run header row) : rowOf run = row := by
  rw [rowOf, h.out, show [header, row] = [header] ++ [row] from rfl,
    substitute_report h.row_ne h.row_plain]
  refine substitute_tailLine ?_
  simp [h.header_plain, h.row_plain]

/-- A new file with its first row. -/
def Prints.table (h : Prints run header row) : Table where
  header := header
  rows := [row]
  plain := by simp [h.header_plain, h.row_plain]
  columns := by simp [h.columns]

/-- A row more. -/
def Table.append (t : Table) (h : Prints run header row) (heq : t.header = header) : Table where
  header := t.header
  rows := t.rows ++ [row]
  plain := by
    intro line hline
    rw [← List.cons_append, List.mem_append, List.mem_singleton] at hline
    rcases hline with hline | rfl
    · exact t.plain line hline
    · exact h.row_plain
  columns := by
    intro other hother
    rcases List.mem_append.mp hother with hother | hother
    · exact t.columns other hother
    · rw [List.mem_singleton.mp hother, heq]
      exact h.columns

theorem rowsOf_text (t : Table) : rowsOf t.text = t.rows.map fun row => (t.header, row) := by
  rw [rowsOf, Table.text, lines_write t.plain]

theorem Table.header_eq (t : Table) : substitute (headLine t.text) = t.header :=
  substitute_headLine t.plain

/-- The directory with its history: the seconds at which files were moved away, and all rows
that were printed, each with its header. -/
structure Log where
  dir : ResultsDir
  moved : AllocatorMode → List Nat
  printed : AllocatorMode → List (List Char × List Char)

namespace Log

def empty : Log := ⟨fun _ => none, fun _ => [], fun _ => []⟩

/-- A run of the driver and what `append_csv` makes of it. -/
def step (log : Log) (event : AllocatorMode × Nat × Ended) : Option Log :=
  let (mode, now, run) := event
  match appendCsv log.dir mode now run with
  | none => some log
  | some dir => some
      { dir := dir
        moved := Function.update log.moved mode
          (if schemaChanged log.dir mode (headerOf run) then log.moved mode ++ [now]
            else log.moved mode)
        printed := Function.update log.printed mode
          (log.printed mode ++ [(headerOf run, rowOf run)]) }

/-- The driver fails or prints a report, and no two files are moved away in one second. -/
def Admits (log : Log) (event : AllocatorMode × Nat × Ended) : Prop :=
  let (mode, now, run) := event
  run.status = 0 → (∃ header row, Prints run header row) ∧
    (schemaChanged log.dir mode (headerOf run) = true → log.dir (.old mode now) = none)

/-- The files of an allocator, from the oldest on. -/
def files (log : Log) (mode : AllocatorMode) : List ResultFile :=
  (log.moved mode).map (.old mode) ++ [.csv mode]

/-- What all runs keep: the files are tables, and their rows are those that were printed. -/
structure Inv (log : Log) : Prop where
  tables : ∀ file text, log.dir file = some text → ∃ t : Table, text = t.text
  present : ∀ mode second, second ∈ log.moved mode → log.dir (.old mode second) ≠ none
  rows : ∀ mode, log.printed mode = rowsIn log.dir (log.files mode)

end Log

variable {dir : ResultsDir} {mode : AllocatorMode} {now : Nat}

/-- What `append_csv` does with a report: it begins a file, continues one, or moves one away
and begins another. -/
inductive AppendCase (dir : ResultsDir) (mode : AllocatorMode) (now : Nat)
    (h : Prints run header row) : ResultsDir → Prop
  | first (hnone : dir (.csv mode) = none)
      (hsame : schemaChanged dir mode header = false) :
      AppendCase dir mode now h (Function.update dir (.csv mode) (some h.table.text))
  | more {t : Table} (hsome : dir (.csv mode) = some t.text) (heq : t.header = header)
      (hsame : schemaChanged dir mode header = false) :
      AppendCase dir mode now h
        (Function.update dir (.csv mode) (some (t.append h heq).text))
  | other {t : Table} (hsome : dir (.csv mode) = some t.text)
      (hchanged : schemaChanged dir mode header = true) :
      AppendCase dir mode now h
        (Function.update (moveAway dir mode now) (.csv mode) (some h.table.text))

theorem appendCsv_spec (htables : ∀ text, dir (.csv mode) = some text → ∃ t : Table, text = t.text)
    (hstatus : run.status = 0) (h : Prints run header row) :
    ∃ dir', appendCsv dir mode now run = some dir' ∧ AppendCase dir mode now h dir' := by
  have hbegin : header ++ ['\n'] ++ row ++ ['\n'] = h.table.text := by
    simp [Table.text, Prints.table, write]
  have hcall : appendCsv dir mode now run = some (Function.update
      (if schemaChanged dir mode header then moveAway dir mode now else dir) (.csv mode)
      (some (((if schemaChanged dir mode header then moveAway dir mode now else dir)
        (.csv mode)).getD (header ++ ['\n']) ++ row ++ ['\n']))) := by
    simp only [appendCsv, hstatus, h.headerOf_eq, h.rowOf_eq, ne_eq, not_true_eq_false, if_false]
  cases hfile : dir (.csv mode) with
  | none =>
      have hsame : schemaChanged dir mode header = false := by simp [schemaChanged, hfile]
      refine ⟨_, hcall, ?_⟩
      simp only [hsame, Bool.false_eq_true, if_false, hfile, Option.getD_none, hbegin]
      exact .first hfile hsame
  | some text =>
      obtain ⟨t, rfl⟩ := htables text hfile
      by_cases heq : t.header = header
      · have hsame : schemaChanged dir mode header = false := by
          simp [schemaChanged, hfile, t.header_eq, heq]
        have hmore : t.text ++ row ++ ['\n'] = (t.append h heq).text := by
          simp [Table.text, Table.append, write]
        refine ⟨_, hcall, ?_⟩
        simp only [hsame, Bool.false_eq_true, if_false, hfile, Option.getD_some, hmore]
        exact .more hfile heq hsame
      · have hchanged : schemaChanged dir mode header = true := by
          simp [schemaChanged, hfile, t.header_eq, heq]
        refine ⟨_, hcall, ?_⟩
        simp only [hchanged, if_true]
        rw [show moveAway dir mode now (.csv mode) = none from Function.update_self _ _ _,
          Option.getD_none, hbegin]
        exact .other hfile hchanged

theorem rowsIn_congr {dir' : ResultsDir} {files : List ResultFile}
    (h : ∀ file ∈ files, dir' file = dir file) : rowsIn dir' files = rowsIn dir files :=
  List.flatMap_congr fun file hfile => by rw [h file hfile]

theorem rowsIn_append (files files' : List ResultFile) :
    rowsIn dir (files ++ files') = rowsIn dir files ++ rowsIn dir files' :=
  List.flatMap_append

theorem rowsIn_single (file : ResultFile) : rowsIn dir [file] = (dir file).elim [] rowsOf :=
  List.flatMap_singleton _ file

theorem rowsOf_table (h : Prints run header row) : rowsOf h.table.text = [(header, row)] :=
  rowsOf_text h.table

/-- The files that were moved away stay as they are, if the new name is not among them. -/
theorem AppendCase.moved_eq {h : Prints run header row} {dir' : ResultsDir}
    (hcase : AppendCase dir mode now h dir') {mode' : AllocatorMode} {second : Nat}
    (hother : schemaChanged dir mode header = true →
      ResultFile.old mode' second ≠ .old mode now) :
    dir' (.old mode' second) = dir (.old mode' second) := by
  cases hcase with
  | first => exact Function.update_of_ne (by simp) _ _
  | more => exact Function.update_of_ne (by simp) _ _
  | other _ hchanged =>
      rw [Function.update_of_ne (by simp), moveAway, Function.update_of_ne (by simp),
        Function.update_of_ne (hother hchanged)]

theorem moveAway_old : moveAway dir mode now (.old mode now) = dir (.csv mode) := by
  rw [moveAway, Function.update_of_ne (by simp), Function.update_self]

theorem AppendCase.csv_eq {h : Prints run header row} {dir' : ResultsDir}
    (hcase : AppendCase dir mode now h dir') {mode' : AllocatorMode} (hother : mode' ≠ mode) :
    dir' (.csv mode') = dir (.csv mode') := by
  have hne : ResultFile.csv mode' ≠ .csv mode := fun heq => hother (ResultFile.csv.inj heq)
  cases hcase with
  | first => exact Function.update_of_ne hne _ _
  | more => exact Function.update_of_ne hne _ _
  | other =>
      rw [Function.update_of_ne hne, moveAway, Function.update_of_ne hne,
        Function.update_of_ne (by simp)]

theorem AppendCase.tables {h : Prints run header row} {dir' : ResultsDir}
    (hcase : AppendCase dir mode now h dir')
    (htables : ∀ file text, dir file = some text → ∃ t : Table, text = t.text) :
    ∀ file text, dir' file = some text → ∃ t : Table, text = t.text := by
  have hupdate : ∀ {dir : ResultsDir} {place : ResultFile} {t : Table},
      (∀ file text, dir file = some text → ∃ t : Table, text = t.text) →
      ∀ file text, Function.update dir place (some t.text) file = some text →
        ∃ t : Table, text = t.text := by
    intro dir place t htables file text hfile
    by_cases hplace : file = place
    · subst hplace
      rw [Function.update_self] at hfile
      exact ⟨t, (Option.some.inj hfile).symm⟩
    · rw [Function.update_of_ne hplace] at hfile
      exact htables file text hfile
  cases hcase with
  | first => exact hupdate htables
  | more => exact hupdate htables
  | other hsome =>
      refine hupdate fun file text hfile => ?_
      by_cases hcsv : file = .csv mode
      · rw [hcsv, moveAway, Function.update_self] at hfile
        exact absurd hfile (by simp)
      · rw [moveAway, Function.update_of_ne hcsv, hsome] at hfile
        exact hupdate htables file text hfile

section Append

variable {log : Log} {h : Prints run header row} {dir' : ResultsDir} (hinv : log.Inv)
  (hcase : AppendCase log.dir mode now h dir')
  (hfresh : schemaChanged log.dir mode header = true → log.dir (.old mode now) = none)

include hinv hcase hfresh

theorem Log.Inv.kept {mode' : AllocatorMode} {second : Nat} (hmoved : second ∈ log.moved mode') :
    dir' (.old mode' second) = log.dir (.old mode' second) := by
  refine hcase.moved_eq fun hchanged heq => hinv.present mode' second hmoved ?_
  rw [heq]
  exact hfresh hchanged

theorem Log.Inv.kept_rows (mode' : AllocatorMode) :
    rowsIn dir' ((log.moved mode').map (.old mode')) =
      rowsIn log.dir ((log.moved mode').map (.old mode')) := by
  refine rowsIn_congr fun file hfile => ?_
  obtain ⟨second, hmoved, rfl⟩ := List.mem_map.mp hfile
  exact hinv.kept hcase hfresh hmoved

/-- The rows of the allocator, after one more was printed. -/
theorem Log.Inv.rows_append :
    rowsIn dir' ((if schemaChanged log.dir mode header then log.moved mode ++ [now]
        else log.moved mode).map (.old mode) ++ [.csv mode]) =
      rowsIn log.dir (log.files mode) ++ [(header, row)] := by
  have hmoved := hinv.kept_rows hcase hfresh mode
  rw [Log.files, rowsIn_append, rowsIn_append, rowsIn_single, rowsIn_single]
  cases hcase with
  | first hnone hsame =>
      rw [hsame, if_neg (by decide), hmoved, Function.update_self, hnone, Option.elim_some,
        Option.elim_none, rowsOf_table, List.append_nil]
  | @more t hsome heq hsame =>
      have hrows : rowsOf (t.append h heq).text = rowsOf t.text ++ [(header, row)] := by
        rw [rowsOf_text, rowsOf_text, Table.append, List.map_append, heq]
        rfl
      rw [hsame, if_neg (by decide), hmoved, Function.update_self, hsome, Option.elim_some,
        Option.elim_some, hrows, List.append_assoc]
  | @other t hsome hchanged =>
      have hnow : Function.update (moveAway log.dir mode now) (.csv mode) (some h.table.text)
          (.old mode now) = some t.text := by
        rw [Function.update_of_ne (by simp), moveAway_old, hsome]
      rw [hchanged, if_pos rfl, List.map_append, rowsIn_append, hmoved, List.map_singleton,
        rowsIn_single, hnow, Function.update_self, hsome, Option.elim_some, Option.elim_some,
        rowsOf_table]

/-- One append of a report. -/
theorem Log.Inv.append : Log.Inv ⟨dir', Function.update log.moved mode
        (if schemaChanged log.dir mode header then log.moved mode ++ [now] else log.moved mode),
      Function.update log.printed mode (log.printed mode ++ [(header, row)])⟩ := by
  refine ⟨hcase.tables hinv.tables, fun mode' second hmoved => ?_, fun mode' => ?_⟩
  · have hcases : second ∈ log.moved mode' ∨
        schemaChanged log.dir mode header = true ∧ mode' = mode ∧ second = now := by
      by_cases hmode : mode' = mode
      · subst hmode
        dsimp only at hmoved
        rw [Function.update_self] at hmoved
        split at hmoved
        · next hchanged =>
            exact (List.mem_append.mp hmoved).imp_right fun hnow =>
              ⟨hchanged, rfl, List.mem_singleton.mp hnow⟩
        · exact Or.inl hmoved
      · dsimp only at hmoved
        rw [Function.update_of_ne hmode] at hmoved
        exact Or.inl hmoved
    rcases hcases with hmoved | ⟨hchanged, rfl, rfl⟩
    · dsimp only
      rw [hinv.kept hcase hfresh hmoved]
      exact hinv.present mode' second hmoved
    · cases hcase with
      | first _ hsame => exact absurd hchanged (by simp [hsame])
      | more _ _ hsame => exact absurd hchanged (by simp [hsame])
      | other hsome =>
          dsimp only
          rw [Function.update_of_ne (by simp), moveAway_old, hsome]
          simp
  · by_cases hmode : mode' = mode
    · subst hmode
      rw [Log.files]
      dsimp only
      rw [Function.update_self, Function.update_self, hinv.rows_append hcase hfresh, hinv.rows]
    · rw [Log.files]
      dsimp only
      rw [Function.update_of_ne hmode, Function.update_of_ne hmode, hinv.rows, Log.files,
        rowsIn_append, rowsIn_append, hinv.kept_rows hcase hfresh, rowsIn_single, rowsIn_single,
        hcase.csv_eq hmode]

end Append

theorem Log.Inv.step {log log' : Log} {event : AllocatorMode × Nat × Ended} (hinv : log.Inv)
    (hadmits : log.Admits event) (hstep : log.step event = some log') : log'.Inv := by
  obtain ⟨mode, now, run⟩ := event
  by_cases hstatus : run.status = 0
  · obtain ⟨⟨header, row, h⟩, hfresh⟩ := hadmits hstatus
    obtain ⟨dir', happend, hcase⟩ : ∃ dir', appendCsv log.dir mode now run = some dir' ∧
        AppendCase log.dir mode now h dir' :=
      appendCsv_spec (fun text => hinv.tables (.csv mode) text) hstatus h
    rw [h.headerOf_eq] at hfresh
    simp only [Log.step, happend, h.headerOf_eq, h.rowOf_eq, Option.some.injEq] at hstep
    rw [← hstep]
    exact hinv.append hcase hfresh
  · have happend : appendCsv log.dir mode now run = none := if_pos hstatus
    simp only [Log.step, happend, Option.some.injEq] at hstep
    exact hstep ▸ hinv

theorem Log.Inv.empty : Log.Inv .empty := by
  refine ⟨fun file text hfile => absurd hfile (by simp [Log.empty]), ?_, fun mode => rfl⟩
  intro mode second hmoved
  exact absurd hmoved List.not_mem_nil

/-- The script takes the steps of a log, up to the first run that fails. -/
theorem runBench_log {log : Log} (events : List (AllocatorMode × Nat × Ended))
    (hok : Runs.RunOk Log.step Log.Admits log events)
    (hreach : Runs.Reach Log.step Log.Admits .empty log) :
    ∃ front log', front <+: events ∧ Runs.run Log.step log front = some log' ∧
      Runs.Reach Log.step Log.Admits .empty log' ∧
      (runBench log.dir events).1 = log'.dir ∧
      ((runBench log.dir events).2 = 0 → front = events) := by
  induction events generalizing log with
  | nil => exact ⟨[], log, List.prefix_rfl, rfl, hreach, rfl, fun _ => rfl⟩
  | cons event rest ih =>
      obtain ⟨mode, now, run⟩ := event
      obtain ⟨hadmits, hrest⟩ := hok
      rw [runBench]
      cases happend : appendCsv log.dir mode now run with
      | none =>
          exact ⟨[], log, List.nil_prefix, rfl, hreach, rfl,
            fun hzero => absurd hzero Nat.one_ne_zero⟩
      | some dir' =>
          obtain ⟨log₁, hstep, rfl⟩ : ∃ log₁, log.step (mode, now, run) = some log₁ ∧
              log₁.dir = dir' := ⟨_, by rw [Log.step, happend], rfl⟩
          obtain ⟨front, log', hfront, hrun, hreach', hdir, hall⟩ :=
            ih (hrest log₁ hstep) (.next hreach hadmits hstep)
          refine ⟨(mode, now, run) :: front, log', (List.prefix_cons_inj _).mpr hfront, ?_, hreach',
            hdir, fun hzero => congrArg _ (hall hzero)⟩
          rw [Runs.run, hstep, Option.bind_some, hrun]

/-- The files that runs of `bench/run_bench.sh` leave, wherever they fail, with any drivers
that print a header and a row whenever they end with status 0 (`--help` does not): each file
is a table whose rows have the columns of its header, and the files of an allocator, from the
oldest on, hold all rows that were ever printed for it, each once, in order and below its own
header. -/
theorem results_kept {log : Log} (events : List (AllocatorMode × Nat × Ended))
    (hreach : Runs.Reach Log.step Log.Admits .empty log)
    (hok : Runs.RunOk Log.step Log.Admits log events) :
    ∃ front log', front <+: events ∧ Runs.run Log.step log front = some log' ∧
      Runs.Reach Log.step Log.Admits .empty log' ∧
      (runBench log.dir events).1 = log'.dir ∧
      ((runBench log.dir events).2 = 0 → front = events) ∧
      (∀ file text, log'.dir file = some text → ∃ t : Table, text = t.text) ∧
      ∀ mode, rowsIn log'.dir (log'.files mode) = log'.printed mode := by
  obtain ⟨front, log', hfront, hrun, hreach', hdir, hall⟩ := runBench_log events hok hreach
  have hinv : log'.Inv := hreach'.invariant Log.Inv.empty
    fun before event after hinv hadmits hstep => hinv.step hadmits hstep
  exact ⟨front, log', hfront, hrun, hreach', hdir, hall, hinv.tables,
    fun mode => (hinv.rows mode).symm⟩

/-- After a version with one column, this version. -/
theorem results_kept_example :
    ∃ log' : Log, (runBench Log.empty.dir
        [(.default, 5, ⟨write [['a'], ['1']], 0⟩),
          (.default, 7, ⟨csvText ⟨{}, ⟨1, 3, 5, 0⟩⟩
            (exampleMeasurements ⟨['b'], by decide⟩), 0⟩)]).1 = log'.dir ∧
      rowsIn log'.dir (log'.files .default) =
        [(['a'], ['1']), (csvHeader, csvRow ⟨{}, ⟨1, 3, 5, 0⟩⟩
          (exampleMeasurements ⟨['b'], by decide⟩))] := by
  have hfirst : Prints ⟨write [['a'], ['1']], 0⟩ ['a'] ['1'] :=
    ⟨rfl, by decide, by decide, by decide, by decide⟩
  have hsecond := prints_csvText ⟨{}, ⟨1, 3, 5, 0⟩⟩ (exampleMeasurements ⟨['b'], by decide⟩) 0
  have hok : Runs.RunOk Log.step Log.Admits .empty
      [(.default, 5, ⟨write [['a'], ['1']], 0⟩),
        (.default, 7, ⟨csvText ⟨{}, ⟨1, 3, 5, 0⟩⟩
          (exampleMeasurements ⟨['b'], by decide⟩), 0⟩)] := by
    refine ⟨fun _ => ⟨⟨_, _, hfirst⟩, fun _ => rfl⟩,
      fun log hstep => ⟨fun _ => ⟨⟨_, _, hsecond⟩, fun _ => ?_⟩, fun _ _ => trivial⟩⟩
    rw [← Option.some.inj hstep]
    rfl
  obtain ⟨front, log', _, hrun, _, hdir, hall, _, hrows⟩ := results_kept _ .start hok
  obtain rfl := hall rfl
  refine ⟨log', hdir, ?_⟩
  generalize csvText _ _ = text at hrun hsecond
  have hprinted : log'.printed .default =
      [(headerOf ⟨write [['a'], ['1']], 0⟩, rowOf ⟨write [['a'], ['1']], 0⟩),
        (headerOf ⟨text, 0⟩, rowOf ⟨text, 0⟩)] := by
    rw [← Option.some.inj hrun]
    rfl
  rw [hrows, hprinted, hfirst.headerOf_eq, hfirst.rowOf_eq, hsecond.headerOf_eq, hsecond.rowOf_eq]

end Results

end Scripts

end AllocSitter
