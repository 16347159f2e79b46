import LbProxy.Lib.Csv
import Mathlib.Data.Rat.Floor

/-!
# CSV export of raw metrics (`csv.rs`)

* `BenchmarkResult` — one measurement (`latency.rs`);
* `NumberFormat` — how floating-point numbers are formatted;
* `escape`, `exportCsv` — the export; `splitCsvRow` — the reader of the tests;
* `readRecords_of_line` — on a line, the reader of records is the reader of the tests;
* `export_read_back` — what the export writes is read back.
-/

namespace LbProxy.Bench

open Lib Csv

/-- A string. -/
abbrev Text := List Char

/-- One benchmark measurement. -/
structure BenchmarkResult (F32 F64 : Type) where
  candidateName : Text
  scenarioName : Text
  concurrency : ℕ
  payloadBytes : ℕ
  httpVersion : Text
  totalRequests : UInt64
  successfulRequests : UInt64
  failedRequests : UInt64
  errorResponses : UInt64
  bytesReceived : UInt64
  durationSecs : F64
  rps : F64
  throughputMibS : F64
  latencyP50Us : UInt64
  latencyP90Us : UInt64
  latencyP95Us : UInt64
  latencyP99Us : UInt64
  latencyP999Us : UInt64
  latencyP9999Us : UInt64
  latencyMaxUs : UInt64
  latencyMeanUs : F64
  latencyStdevUs : F64
  coCorrectedP99Us : UInt64
  coCorrectedP999Us : UInt64
  cpuUsagePct : F32
  rssMemoryMb : F64

/-- A comma, a quote and a line feed. -/
def csv : Dialect Char := ⟨'"', ',', '\n', by decide, by decide, by decide⟩

@[simp] theorem csv_quote : csv.quote = '"' := rfl
@[simp] theorem csv_sep : csv.sep = ',' := rfl
@[simp] theorem csv_eol : csv.eol = '\n' := rfl

/-- `{:.p}` of the floating-point types. -/
structure NumberFormat (F32 F64 : Type) where
  f32 : ℕ → F32 → Text
  f64 : ℕ → F64 → Text

/-- A formatted number has no comma, no quote and no line feed. -/
structure NumberFormat.Laws {F32 F64 : Type} (nf : NumberFormat F32 F64) : Prop where
  f32 : ∀ p x, Plain csv (nf.f32 p x)
  f64 : ∀ p x, Plain csv (nf.f64 p x)

/-- `{}` of an integer. -/
def display (n : ℕ) : Text := Nat.toDigits 10 n

/-- Column header, kept in sync with `exportCsv`. -/
def CSV_HEADER : Text :=
  "candidate,scenario,concurrency,payload_bytes,http_version,".toList ++
    "total_requests,successful,failed,error_responses,bytes_received,duration_s,rps,throughput_mib_s,".toList ++
    "p50_us,p90_us,p95_us,p99_us,p999_us,p9999_us,max_us,mean_us,stdev_us,".toList ++
    "co_p99_us,co_p999_us,cpu_pct,rss_mb".toList

/-- Quote a field that contains a comma or a quote. -/
def escape (field : Text) : Text :=
  if field.contains ',' || field.contains '"' || field.contains '\n' then
    '"' :: field.flatMap (fun c => if c = '"' then ['"', '"'] else [c]) ++ ['"']
  else field

section Export

variable {F32 F64 : Type} (nf : NumberFormat F32 F64)

/-- The texts that the format string of a row joins with commas. -/
def rowTexts (r : BenchmarkResult F32 F64) : List Text :=
  [escape r.candidateName,
    escape r.scenarioName,
    display r.concurrency,
    display r.payloadBytes,
    escape r.httpVersion,
    display r.totalRequests.toNat,
    display r.successfulRequests.toNat,
    display r.failedRequests.toNat,
    display r.errorResponses.toNat,
    display r.bytesReceived.toNat,
    nf.f64 4 r.durationSecs,
    nf.f64 2 r.rps,
    nf.f64 4 r.throughputMibS,
    display r.latencyP50Us.toNat,
    display r.latencyP90Us.toNat,
    display r.latencyP95Us.toNat,
    display r.latencyP99Us.toNat,
    display r.latencyP999Us.toNat,
    display r.latencyP9999Us.toNat,
    display r.latencyMaxUs.toNat,
    nf.f64 2 r.latencyMeanUs,
    nf.f64 2 r.latencyStdevUs,
    display r.coCorrectedP99Us.toNat,
    display r.coCorrectedP999Us.toNat,
    nf.f32 2 r.cpuUsagePct,
    nf.f64 2 r.rssMemoryMb]

/-- Render results as CSV. -/
def exportCsv (results : List (BenchmarkResult F32 F64)) : Text :=
  CSV_HEADER ++ ['\n'] ++ results.flatMap fun r => [','].intercalate (rowTexts nf r) ++ ['\n']

end Export

/-! ## The reader of the tests -/

/-- The loop of `split_csv_row`, behind the fields and the part of a field read so far. -/
def splitLoop (inQuotes : Bool) (fields : List Text) (current : Text) : Text → List Text
  | [] => fields ++ [current]
  | c :: chars =>
    if c = '"' then
      match chars with
      | [] => splitLoop (!inQuotes) fields current []
      | next :: chars =>
        if inQuotes = true ∧ next = '"' then splitLoop true fields (current ++ ['"']) chars
        else splitLoop (!inQuotes) fields current (next :: chars)
    else if c = ',' ∧ inQuotes = false then splitLoop false (fields ++ [current]) [] chars
    else splitLoop inQuotes fields (current ++ [c]) chars

/-- Minimal row splitter. -/
def splitCsvRow (row : Text) : List Text := splitLoop false [] [] row

theorem readFrom_of_line {row : Text} (h : '\n' ∉ row) (inQuotes : Bool) (fields : List Text) (current : Text) :
    readFrom csv inQuotes fields current row = [splitLoop inQuotes fields current row] := by
  fun_induction splitLoop inQuotes fields current row with
  | case1 => rfl
  | case2 inQuotes fields current ih =>
    exact (readFrom_quote inQuotes fields current (by simp)).trans (ih (by simp))
  | case3 inQuotes fields current next chars hnext ih =>
    obtain ⟨rfl, rfl⟩ := hnext
    exact (readFrom_doubled fields current chars).trans (ih fun hc => h (by simp [hc]))
  | case4 inQuotes fields current next chars hnext ih =>
    have hlook : ¬ (inQuotes = true ∧ (next :: chars).head? = some csv.quote) := by simpa using hnext
    rw [readFrom_cons, csv_quote, if_pos rfl, ← csv_quote, if_neg hlook]
    exact ih fun hc => h (List.mem_cons_of_mem _ hc)
  | case5 inQuotes fields current c chars hquote hsep ih =>
    obtain ⟨rfl, rfl⟩ := hsep
    exact (readFrom_sep fields current chars).trans (ih fun hc => h (List.mem_cons_of_mem _ hc))
  | case6 inQuotes fields current c chars hquote hsep ih =>
    have heol : c ≠ '\n' := fun e => h (by simp [e])
    rw [readFrom_cons, csv_quote, csv_sep, csv_eol, if_neg hquote, if_neg hsep, if_neg fun hc => heol hc.1]
    exact ih fun hc => h (List.mem_cons_of_mem _ hc)

/-- The reader of records extends the reader of the tests: a line is read as its row. -/
theorem readRecords_of_line {row : Text} (h : '\n' ∉ row) (hne : row ≠ []) :
    readRecords csv row = [splitCsvRow row] := by
  rw [readRecords, if_neg hne]
  exact readFrom_of_line h false [] []

/-! ## The texts of fields -/

theorem escape_eq (field : Text) : escape field = Csv.escape csv field := by
  have hplain : (field.contains ',' || field.contains '"' || field.contains '\n') = true ↔ ¬ Plain csv field := by
    simp only [Plain, csv, Bool.or_eq_true, List.contains_iff_mem]
    tauto
  unfold escape Csv.escape
  by_cases h : Plain csv field
  · rw [if_neg (mt hplain.mp (not_not.mpr h)), if_pos h]
  · rw [if_pos (hplain.mpr h), if_neg h, doubled]
    congr 2
    refine List.flatMap_congr fun c _ => ?_
    by_cases hc : c = '"'
    · rw [csv_quote, if_pos hc, if_pos hc, hc]
    · rw [csv_quote, if_neg hc, if_neg hc]

theorem display_plain (n : ℕ) : Plain csv (display n) := by
  have hdigit : ∀ c, c.isDigit = false → c ∉ display n := by
    intro c hc hmem
    have := Nat.isDigit_of_mem_toDigits (by omega) (by omega) hmem
    rw [hc] at this
    exact Bool.false_ne_true this
  exact ⟨hdigit _ rfl, hdigit _ rfl, hdigit _ rfl⟩

/-! ## Formatting -/

/-- `{:.p}` of an exact number: the nearest decimal with `p` digits, ties to even. -/
def fixedDecimal (p : ℕ) (x : ℚ) : Text :=
  let scaled := |x| * 10 ^ p
  let whole := scaled.floor.toNat
  let n := if 1 / 2 < scaled - whole ∨ scaled - whole = 1 / 2 ∧ whole % 2 = 1 then whole + 1 else whole
  let digits := display (n % 10 ^ p)
  (if x < 0 then ['-'] else []) ++ display (n / 10 ^ p) ++
    if p = 0 then [] else '.' :: (List.replicate (p - digits.length) '0' ++ digits)

/-- Floating-point numbers that are given exactly. -/
def NumberFormat.exact : NumberFormat ℚ ℚ := ⟨fixedDecimal, fixedDecimal⟩

theorem fixedDecimal_plain (p : ℕ) (x : ℚ) : Plain csv (fixedDecimal p x) := by
  have hzeros : ∀ n, Plain csv (List.replicate n '0') := fun n =>
    ⟨fun h => absurd (List.eq_of_mem_replicate h) (by decide), fun h => absurd (List.eq_of_mem_replicate h) (by decide),
      fun h => absurd (List.eq_of_mem_replicate h) (by decide)⟩
  have hdot : Plain csv ['.'] := by decide
  unfold fixedDecimal
  refine plain_append (plain_append ?_ (display_plain _)) ?_
  · split <;> decide
  · split
    · decide
    · exact plain_append hdot (plain_append (hzeros _) (display_plain _))

theorem NumberFormat.exact_laws : NumberFormat.exact.Laws := ⟨fixedDecimal_plain, fixedDecimal_plain⟩

/-- A measurement whose names hold a comma, quotes and line ends. -/
def sampleResult : BenchmarkResult ℚ ℚ where
  candidateName := "he said \"hi\"\r".toList
  scenarioName := "Throughput, full\nsweep".toList
  concurrency := 1000
  payloadBytes := 1024
  httpVersion := []
  totalRequests := 100
  successfulRequests := 98
  failedRequests := 2
  errorResponses := 1
  bytesReceived := 102400
  durationSecs := 10
  rps := 10
  throughputMibS := 97 / 10000
  latencyP50Us := 100
  latencyP90Us := 200
  latencyP95Us := 250
  latencyP99Us := 300
  latencyP999Us := 400
  latencyP9999Us := 500
  latencyMaxUs := 600
  latencyMeanUs := 150
  latencyStdevUs := 25
  coCorrectedP99Us := 350
  coCorrectedP999Us := 450
  cpuUsagePct := 555 / 10
  rssMemoryMb := 4225 / 100

/-! ## Round trip -/

/-- The header record. -/
def header : List Text := CSV_HEADER.splitOn ','

/-- The field of a record in a column of the header. -/
def column (name : String) (record : List Text) : Option Text := (header.zip record).lookup name.toList

section RoundTrip

variable {F32 F64 : Type} (nf : NumberFormat F32 F64)

/-- The record of a result: the names as they are, and the numbers. -/
def record (r : BenchmarkResult F32 F64) : List Text :=
  [r.candidateName, r.scenarioName, display r.concurrency, display r.payloadBytes, r.httpVersion] ++
    (rowTexts nf r).drop 5

variable {nf}

theorem rowTexts_eq (hnf : nf.Laws) (r : BenchmarkResult F32 F64) :
    rowTexts nf r = (record nf r).map (Csv.escape csv) := by
  have hint : ∀ n, Csv.escape csv (display n) = display n := fun n => escape_of_plain (display_plain n)
  have h32 : ∀ p x, Csv.escape csv (nf.f32 p x) = nf.f32 p x := fun p x => escape_of_plain (hnf.f32 p x)
  have h64 : ∀ p x, Csv.escape csv (nf.f64 p x) = nf.f64 p x := fun p x => escape_of_plain (hnf.f64 p x)
  simp only [rowTexts, record, List.drop_succ_cons, List.drop_zero, List.cons_append, List.nil_append,
    List.map_cons, List.map_nil, hint, h32, h64, escape_eq]

theorem header_spec : header.length = 26 ∧ ∀ f ∈ header, Plain csv f := by decide +kernel

theorem writeRecord_header : writeRecord csv header = CSV_HEADER ++ ['\n'] := by
  have hmap : header.map (Csv.escape csv) = header := by
    rw [List.map_congr_left fun f hf => escape_of_plain (header_spec.2 f hf), List.map_id']
  rw [writeRecord, hmap, header, csv_sep, csv_eol, List.intercalate_splitOn]

theorem exportCsv_eq (hnf : nf.Laws) (results : List (BenchmarkResult F32 F64)) :
    exportCsv nf results = (header :: results.map (record nf)).flatMap (writeRecord csv) := by
  rw [List.flatMap_cons, writeRecord_header, List.flatMap_map, exportCsv]
  congr 1
  refine List.flatMap_congr fun r _ => ?_
  rw [writeRecord, ← rowTexts_eq hnf, csv_sep, csv_eol]

theorem length_record (r : BenchmarkResult F32 F64) : (record nf r).length = header.length :=
  header_spec.1.symm

/-- **The export is read back**: the header record comes first, then one record for each result, with as many
fields as the header, and its names are the strings of the result, whatever symbols they hold.  On a line, the reader of
records is the reader of the tests. -/
theorem export_read_back (hnf : nf.Laws) (results : List (BenchmarkResult F32 F64)) :
    (∃ rows, readRecords csv (exportCsv nf results) = header :: rows ∧
      List.Forall₂ (fun r row => row.length = header.length ∧ column "candidate" row = some r.candidateName ∧
        column "scenario" row = some r.scenarioName ∧ column "http_version" row = some r.httpVersion) results rows) ∧
      ∀ row, '\n' ∉ row → row ≠ [] → readRecords csv row = [splitCsvRow row] := by
  refine ⟨⟨results.map (record nf), ?_, ?_⟩, fun row h hne => readRecords_of_line h hne⟩
  · rw [exportCsv_eq hnf]
    refine readRecords_writeRecords fun fs hfs => ?_
    rcases List.mem_cons.mp hfs with rfl | hfs
    · exact ne_of_apply_ne List.length (by rw [header_spec.1]; decide)
    · obtain ⟨r, -, rfl⟩ := List.mem_map.mp hfs
      exact List.cons_ne_nil _ _
  · rw [List.forall₂_map_right_iff]
    refine List.forall₂_same.mpr fun r _ => ⟨length_record r, ?_, ?_, ?_⟩
    · rfl
    · rfl
    · rfl

end RoundTrip

theorem export_read_back_sample :
    ∃ rows, readRecords csv (exportCsv NumberFormat.exact [sampleResult]) = header :: rows ∧
      List.Forall₂ (fun r row => row.length = header.length ∧ column "candidate" row = some r.candidateName ∧
        column "scenario" row = some r.scenarioName ∧ column "http_version" row = some r.httpVersion)
        [sampleResult] rows :=
  (export_read_back NumberFormat.exact_laws [sampleResult]).1

end LbProxy.Bench
