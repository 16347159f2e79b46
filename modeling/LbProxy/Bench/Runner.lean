import LbProxy.Bench.Csv
import LbProxy.Lib.SocketAddr
import LbProxy.Lib.Sweep

/-!
# The benchmark runner (`runner.rs`, `scenario.rs`, `warmup.rs`, `candidate.rs`)

* `Bed` — the processes, sockets and clocks that a run acts on;
* `runCandidate`, `runAll`, `runPgoDelta`, `pairPgoResults` — the runs and the pairing of their results;
* `Measured` — an instance of a candidate was brought up, all workloads of a scenario were measured on it in order, and
  it was torn down;
* `run_all_turns` — the candidates take turns, and each contributes all of its workloads or none; no result is taken for
  a build of another;
* `pgo_pairs` — a comparison of two builds pairs each workload on the one with the same workload on the other.
-/

namespace LbProxy.Bench

open Lib Effect

/-! ## Candidates and scenarios -/

/-- A proxy under test. -/
inductive Candidate where
  | hyper
  | pingora
  | monoio
  | traefik
  deriving DecidableEq, Repr

namespace Candidate

/-- Name used in reports. -/
def displayName : Candidate → Text
  | hyper => "lb-proxy-hyper".toList
  | pingora => "lb-proxy-pingora".toList
  | monoio => "lb-proxy-monoio".toList
  | traefik => "traefik-v3.7.12".toList

/-- Default standalone listen port. -/
def defaultPort : Candidate → UInt16
  | hyper => 18080
  | pingora => 18081
  | monoio => 18082
  | traefik => 8000

/-- The port of a candidate on the host, under Kubernetes (`Deployer::host_port`). -/
def hostPort : Candidate → UInt16
  | traefik => 8000
  | hyper => 8001
  | pingora => 8002
  | monoio => 8003

/-- Whether the candidate is a Go program. -/
def isGo : Candidate → Bool
  | traefik => true
  | _ => false

end Candidate

/-- Which HTTP version the generator speaks. -/
inductive HttpVersion where
  | http11
  | http2
  deriving DecidableEq, Repr

def HttpVersion.label : HttpVersion → Text
  | http11 => "HTTP/1.1".toList
  | http2 => "HTTP/2".toList

/-- The payload sizes. -/
inductive PayloadSize where
  | small1Kb
  | medium64Kb
  | large1Mb
  deriving DecidableEq, Repr

def PayloadSize.bytes : PayloadSize → ℕ
  | small1Kb => 1024
  | medium64Kb => 64 * 1024
  | large1Mb => 1024 * 1024

/-- The parameters of a scenario that the runner reads; times are in milliseconds. -/
structure ScenarioConfig where
  name : Text
  concurrencies : List ℕ
  payloads : List PayloadSize
  httpVersions : List HttpVersion
  duration : ℕ
  targetRps : Option ℕ

/-- What one window measures. -/
structure Workload where
  version : HttpVersion
  payload : PayloadSize
  concurrency : ℕ
  deriving DecidableEq, Repr

namespace ScenarioConfig

/-- The workload of the throughput sweep, against a PGO build. -/
def pgoDelta : ScenarioConfig where
  name := "PGO Impact Delta".toList
  concurrencies := [100, 1000, 5000]
  payloads := [.small1Kb, .medium64Kb]
  httpVersions := [.http11]
  duration := 30000
  targetRps := none

/-- The workloads in the order of the sweep. -/
def workloads (scenario : ScenarioConfig) : List Workload :=
  scenario.httpVersions.flatMap fun version =>
    scenario.payloads.flatMap fun payload => scenario.concurrencies.map fun concurrency => ⟨version, payload, concurrency⟩

end ScenarioConfig

/-! ## What a run acts on -/

/-- Load generator configuration. -/
structure LoadConfig where
  targetUrl : Text
  concurrency : ℕ
  duration : ℕ
  method : Text
  payload : Option Bytes
  httpVersion : HttpVersion
  targetRps : Option ℕ
  hostHeader : Text

/-- A closed-loop load. -/
def LoadConfig.new (targetUrl : Text) (concurrency duration : ℕ) : LoadConfig where
  targetUrl := targetUrl
  concurrency := max concurrency 1
  duration := duration
  method := "GET".toList
  payload := none
  httpVersion := .http11
  targetRps := none
  hostHeader := "localhost".toList

/-- How to launch a candidate. -/
structure LaunchSpec where
  candidate : Candidate
  listenAddr : SocketAddr
  upstreamAddr : SocketAddr
  workers : Option ℕ
  binaryDir : Text
  configPath : Option Text

/-- A candidate that the harness has launched (`child`) or attached to. -/
structure RunningCandidate where
  candidate : Candidate
  listenAddr : SocketAddr
  pid : ℕ
  child : Bool

/-- What CPU and memory are sampled of. -/
inductive MonitorTarget where
  | process (pid : ℕ)
  | system

/-- A latency histogram. -/
structure Histogram (F64 : Type) where
  valueAtPercentile : ℚ → UInt64
  max : UInt64
  mean : F64
  stdev : F64

/-- What a recorder holds after a load. -/
structure LatencyRecorder (F64 : Type) where
  successful : UInt64
  failed : UInt64
  errorResponses : UInt64
  bytes : UInt64
  raw : Histogram F64
  corrected : Histogram F64

/-- The processes, sockets and clocks that a run acts on, with their state `σ` and errors `ε`. -/
structure Bed (ε σ F32 F64 : Type) where
  displayAddr : SocketAddr → Text
  sleep : ℕ → σ → σ
  /-- Start the mock upstream, on an ephemeral port if there is no address. -/
  startMockUpstream : Option SocketAddr → ℕ → EStateM ε σ SocketAddr
  stopMockUpstream : σ → σ
  /-- Start the process of a candidate and wait until it accepts connections. -/
  spawn : LaunchSpec → EStateM ε σ ℕ
  terminate : ℕ → σ → σ
  startMonitor : MonitorTarget → σ → σ
  /-- The mean CPU usage and the peak memory since the monitor was started. -/
  stopMonitor : EStateM ε σ (F32 × F64)
  /-- Run a load into an empty recorder, and say how long it took. -/
  generate : LoadConfig → EStateM ε σ (F64 × LatencyRecorder F64)

/-- Where the harness sends traffic and what it measures. -/
inductive Deployment where
  | localProcess (binaryDir : Text) (workers : Option ℕ)
  | external (addr : SocketAddr) (pid : Option ℕ)

/-- Warm-up timings. -/
structure WarmupProtocol where
  coldStart : ℕ
  traffic : ℕ
  gcSettle : ℕ

structure RunnerConfig where
  warmup : WarmupProtocol
  deployment : Deployment
  upstreamAddr : Option SocketAddr
  upstreamDelayMs : ℕ
  configPath : Option Text
  /-- Built with the feature `k8s`. -/
  k8s : Bool

/-- Idle gap between measurement windows. -/
def INTER_RUN_SETTLE : ℕ := 2000

def portOf : SocketAddr → UInt16
  | .v4 _ _ _ _ port => port
  | .v6 _ port _ => port

/-! ## Runs -/

section Run

variable {ε σ F32 F64 : Type} [Zero F64] [LT F64] [DecidableLT F64] [NatCast F64] [Mul F64] [Div F64]
  (bed : Bed ε σ F32 F64) (config : RunnerConfig)

/-- Base URL for the load generator. -/
def baseUrl (running : RunningCandidate) : Text := "http://".toList ++ bed.displayAddr running.listenAddr

/-- The result of a load. -/
def summarize (recorder : LatencyRecorder F64) (candidateName scenarioName : Text) (concurrency payloadBytes : ℕ)
    (httpVersion : Text) (durationSecs : F64) (cpuUsagePct : F32) (rssMemoryMb : F64) : BenchmarkResult F32 F64 :=
  let totalRequests := recorder.successful + recorder.failed
  { candidateName, scenarioName, concurrency, payloadBytes, httpVersion, totalRequests
    successfulRequests := recorder.successful
    failedRequests := recorder.failed
    errorResponses := recorder.errorResponses
    bytesReceived := recorder.bytes
    durationSecs
    rps := if 0 < durationSecs then (totalRequests.toNat : F64) / durationSecs else 0
    throughputMibS :=
      if 0 < durationSecs then (recorder.bytes.toNat : F64) / durationSecs / (((1024 : ℕ) : F64) * ((1024 : ℕ) : F64))
      else 0
    latencyP50Us := recorder.raw.valueAtPercentile 50
    latencyP90Us := recorder.raw.valueAtPercentile 90
    latencyP95Us := recorder.raw.valueAtPercentile 95
    latencyP99Us := recorder.raw.valueAtPercentile 99
    latencyP999Us := recorder.raw.valueAtPercentile (999 / 10)
    latencyP9999Us := recorder.raw.valueAtPercentile (9999 / 100)
    latencyMaxUs := recorder.raw.max
    latencyMeanUs := recorder.raw.mean
    latencyStdevUs := recorder.raw.stdev
    coCorrectedP99Us := recorder.corrected.valueAtPercentile 99
    coCorrectedP999Us := recorder.corrected.valueAtPercentile (999 / 10)
    cpuUsagePct, rssMemoryMb }

/-- The warm-up before a window; what it records is thrown away. -/
def WarmupProtocol.execute (warmup : WarmupProtocol) (candidate : Candidate) (targetUrl : Text)
    (targetConcurrency : ℕ) : EStateM ε σ Unit := do
  modify (bed.sleep warmup.coldStart)
  let _ ← bed.generate (LoadConfig.new targetUrl (max (targetConcurrency / 2) 1) warmup.traffic)
  if candidate.isGo then modify (bed.sleep warmup.gcSettle)

/-- One measurement window. -/
def measureOne (candidate : Candidate) (scenario : ScenarioConfig) (running : RunningCandidate)
    (monitorTarget : MonitorTarget) (w : Workload) : EStateM ε σ (BenchmarkResult F32 F64) := do
  modify (bed.startMonitor monitorTarget)
  let url := baseUrl bed running ++ "/bench?size=".toList ++ display w.payload.bytes
  let (elapsed, recorder) ← bed.generate
    { LoadConfig.new url w.concurrency scenario.duration with httpVersion := w.version, targetRps := scenario.targetRps }
  let (cpuMeanPct, rssPeakMb) ← bed.stopMonitor
  pure (summarize recorder candidate.displayName scenario.name w.concurrency w.payload.bytes w.version.label elapsed
    cpuMeanPct rssPeakMb)

/-- The process of a candidate, or the whole machine where it cannot be seen. -/
def monitorTargetOf (running : RunningCandidate) : MonitorTarget :=
  if 0 < running.pid then .process running.pid else .system

/-- Warm up, measure and settle. -/
def measureWindow (candidate : Candidate) (scenario : ScenarioConfig) (running : RunningCandidate) (w : Workload) :
    EStateM ε σ (BenchmarkResult F32 F64) := do
  config.warmup.execute bed candidate (baseUrl bed running ++ "/bench".toList) w.concurrency
  let result ← measureOne bed candidate scenario running (monitorTargetOf running) w
  modify (bed.sleep INTER_RUN_SETTLE)
  pure result

/-- Every combination in the scenario against an already-running candidate. -/
def measureAll (candidate : Candidate) (scenario : ScenarioConfig) (running : RunningCandidate) :
    EStateM ε σ (List (BenchmarkResult F32 F64)) :=
  scenario.httpVersions.flatMapM fun version =>
    scenario.payloads.flatMapM fun payload =>
      scenario.concurrencies.mapM fun concurrency =>
        measureWindow bed config candidate scenario running ⟨version, payload, concurrency⟩

/-- Bring up the candidate. -/
def bringUp (candidate : Candidate) (upstreamAddr : SocketAddr) : EStateM ε σ RunningCandidate :=
  match config.deployment with
  | .localProcess binaryDir workers => do
    let listenAddr := .v4 127 0 0 1 candidate.defaultPort
    let pid ← bed.spawn ⟨candidate, listenAddr, upstreamAddr, workers, binaryDir, config.configPath⟩
    pure ⟨candidate, listenAddr, pid, true⟩
  | .external addr pid =>
    -- under Kubernetes each candidate answers on its own host port
    let addr := if portOf addr = 0 ∧ config.k8s then .v4 127 0 0 1 candidate.hostPort else addr
    pure ⟨candidate, addr, pid.getD 0, false⟩

/-- The address of the upstream: of a mock that is started, unless the candidate runs elsewhere. -/
def startUpstream : EStateM ε σ (SocketAddr × Bool) :=
  match config.deployment with
  | .localProcess _ _ => do
    let addr ← bed.startMockUpstream config.upstreamAddr config.upstreamDelayMs
    pure (addr, true)
  | .external _ _ => pure (config.upstreamAddr.getD (.v4 127 0 0 1 9090), false)

/-- Tear down in reverse order. -/
def tearDown (running : RunningCandidate) (mock : Bool) (s : σ) : σ :=
  let s := if running.child then bed.terminate running.pid s else s
  if mock then bed.stopMockUpstream s else s

/-- Run a scenario against a candidate: one result for each combination. -/
def runCandidate (candidate : Candidate) (scenario : ScenarioConfig) :
    EStateM ε σ (List (BenchmarkResult F32 F64)) := do
  let (upstreamAddr, mock) ← startUpstream bed config
  let running ← bringUp bed config candidate upstreamAddr
  let results ← attempt (measureAll bed config candidate scenario running)
  -- torn down whatever was measured
  modify (tearDown bed running mock)
  resume results

/-- Run a scenario against every candidate in turn; one that fails is left out. -/
def runAll (candidates : List Candidate) (scenario : ScenarioConfig) :
    EStateM ε σ (List (BenchmarkResult F32 F64)) :=
  candidates.flatMapM fun candidate => do
    match ← attempt (runCandidate bed config candidate scenario) with
    | .ok results => pure results
    | .error _ => pure []

/-- A name with the label of a build. -/
def labelled (name : Text) (label : String) : Text := name ++ " [".toList ++ label.toList ++ "]".toList

/-- The result of a build, under the names that tell it from the other. -/
def relabel (candidate : Candidate) (scenario : ScenarioConfig) (label : String) (result : BenchmarkResult F32 F64) :
    BenchmarkResult F32 F64 :=
  { result with scenarioName := labelled scenario.name label, candidateName := labelled candidate.displayName label }

/-- The configuration for the binaries of one directory. -/
def RunnerConfig.forBuild (dir : Text) : RunnerConfig :=
  let workers := match config.deployment with
    | .localProcess _ workers => workers
    | .external _ _ => none
  { config with deployment := .localProcess dir workers }

/-- Compare a standard build against a PGO build. -/
def runPgoDelta (candidate : Candidate) (standardDir pgoDir : Text) :
    EStateM ε σ (List (BenchmarkResult F32 F64)) :=
  let scenario := ScenarioConfig.pgoDelta
  [("standard", standardDir), ("pgo", pgoDir)].flatMapM fun (label, dir) => do
    let batch ← runCandidate bed (config.forBuild dir) candidate scenario
    pure (batch.map (relabel candidate scenario label))

end Run

/-! ## Pairs -/

section Pair

variable {F32 F64 : Type} [Zero F64] [LE F64] [DecidableLE F64] [NatCast F64] [Sub F64] [Mul F64] [Div F64]

/-- Percentage improvement of `pgo` over `standard`. -/
def pgoImprovementPct (standard pgo : BenchmarkResult F32 F64) : F64 :=
  if standard.rps ≤ 0 then 0 else (pgo.rps - standard.rps) / standard.rps * ((100 : ℕ) : F64)

def endsWith (text : Text) (suffix : String) : Bool := suffix.toList.isSuffixOf text

/-- Pair standard and PGO results. -/
def pairPgoResults (results : List (BenchmarkResult F32 F64)) :
    List (BenchmarkResult F32 F64 × BenchmarkResult F32 F64 × F64) :=
  let standard := results.filter fun r => endsWith r.candidateName "[standard]"
  let pgo := results.filter fun r => endsWith r.candidateName "[pgo]"
  standard.filterMap fun s =>
    (pgo.find? fun p =>
      p.concurrency = s.concurrency ∧ p.payloadBytes = s.payloadBytes ∧ p.httpVersion = s.httpVersion).map
      fun p => (s, p, pgoImprovementPct s p)

end Pair

/-! ## What a run has measured -/

section Measured

variable {ε σ F32 F64 : Type} [Zero F64] [LT F64] [DecidableLT F64] [NatCast F64] [Mul F64] [Div F64]
  {bed : Bed ε σ F32 F64} {config : RunnerConfig} {candidate : Candidate} {scenario : ScenarioConfig}
  {running : RunningCandidate} {s t : σ} {results : List (BenchmarkResult F32 F64)}

theorem sweep_of_measureAll (h : measureAll bed config candidate scenario running s = .ok results t) :
    Sweep (measureWindow bed config candidate scenario running) s scenario.workloads results t := by
  refine sweep_of_flatMapM (fun hversion => ?_) h
  refine sweep_of_flatMapM (fun hpayload => ?_) hversion
  exact (sweep_of_mapM hpayload).of_map

/-- What tells the windows of a scenario apart. -/
def workloadKey (r : BenchmarkResult F32 F64) : ℕ × ℕ × Text := (r.concurrency, r.payloadBytes, r.httpVersion)

def Workload.key (w : Workload) : ℕ × ℕ × Text := (w.concurrency, w.payload.bytes, w.version.label)

theorem key_injective : Function.Injective Workload.key := by
  have hbytes : ∀ p q : PayloadSize, p.bytes = q.bytes → p = q := by
    intro p q
    cases p <;> cases q <;> first | exact fun _ => rfl | exact fun h => absurd h (by decide)
  have hlabel : ∀ v v' : HttpVersion, v.label = v'.label → v = v' := by
    intro v v'
    cases v <;> cases v' <;> first | exact fun _ => rfl | exact fun h => absurd h (by decide)
  rintro ⟨v, p, c⟩ ⟨v', p', c'⟩ h
  simp only [Workload.key, Prod.mk.injEq] at h
  obtain ⟨rfl, hp, hv⟩ := h
  rw [hbytes p p' hp, hlabel v v' hv]

theorem measureOne_spec {monitorTarget : MonitorTarget} {w : Workload} {r : BenchmarkResult F32 F64}
    (h : measureOne bed candidate scenario running monitorTarget w s = .ok r t) :
    r.candidateName = candidate.displayName ∧ workloadKey r = w.key := by
  unfold measureOne at h
  obtain ⟨-, s₁, -, h⟩ := bind_eq_ok.mp h
  obtain ⟨⟨elapsed, recorder⟩, s₂, -, h⟩ := bind_eq_ok.mp h
  obtain ⟨⟨cpuMeanPct, rssPeakMb⟩, s₃, -, h⟩ := bind_eq_ok.mp h
  obtain ⟨rfl, -⟩ := pure_eq_ok.mp h
  exact ⟨rfl, rfl⟩

theorem measureWindow_spec {w : Workload} {r : BenchmarkResult F32 F64}
    (h : measureWindow bed config candidate scenario running w s = .ok r t) :
    r.candidateName = candidate.displayName ∧ workloadKey r = w.key := by
  unfold measureWindow at h
  obtain ⟨-, s₁, -, h⟩ := bind_eq_ok.mp h
  obtain ⟨result, s₂, hone, h⟩ := bind_eq_ok.mp h
  obtain ⟨-, s₃, -, h⟩ := bind_eq_ok.mp h
  obtain ⟨rfl, -⟩ := pure_eq_ok.mp h
  exact measureOne_spec hone

variable (bed config candidate scenario) in
/-- From state to state, an instance of the candidate was brought up, the workloads of the scenario were measured on it
in order, and it was torn down. -/
def Measured (s : σ) (results : List (BenchmarkResult F32 F64)) (t : σ) : Prop :=
  ∃ upstreamAddr mock running s₁ s₂ s₃, startUpstream bed config s = .ok (upstreamAddr, mock) s₁ ∧
    bringUp bed config candidate upstreamAddr s₁ = .ok running s₂ ∧
    Sweep (measureWindow bed config candidate scenario running) s₂ scenario.workloads results s₃ ∧
    t = tearDown bed running mock s₃

theorem measured_of_runCandidate (h : runCandidate bed config candidate scenario s = .ok results t) :
    Measured bed config candidate scenario s results t := by
  unfold runCandidate at h
  obtain ⟨⟨upstreamAddr, mock⟩, s₁, hstart, h⟩ := bind_eq_ok.mp h
  obtain ⟨running, s₂, hup, h⟩ := bind_eq_ok.mp h
  obtain ⟨attempted, s₃, hattempt, h⟩ := bind_eq_ok.mp h
  obtain ⟨done, s₄, hdown, h⟩ := bind_eq_ok.mp h
  obtain ⟨rfl, rfl⟩ := resume_eq_ok.mp h
  exact ⟨upstreamAddr, mock, running, s₁, s₂, s₃, hstart, hup, sweep_of_measureAll (attempt_eq_ok.mp hattempt),
    (modify_eq_ok.mp hdown).symm⟩

theorem Measured.map_key (h : Measured bed config candidate scenario s results t) :
    results.map workloadKey = scenario.workloads.map Workload.key := by
  obtain ⟨upstreamAddr, mock, running, s₁, s₂, s₃, -, -, hsweep, -⟩ := h
  exact hsweep.map_eq fun hwindow => (measureWindow_spec hwindow).2

theorem Measured.candidateName (h : Measured bed config candidate scenario s results t) :
    ∀ r ∈ results, r.candidateName = candidate.displayName := by
  obtain ⟨upstreamAddr, mock, running, s₁, s₂, s₃, -, -, hsweep, -⟩ := h
  exact hsweep.forall_mem fun hwindow => (measureWindow_spec hwindow).1

variable (bed config scenario) in
/-- The candidates take turns: each is measured from the state that the one before has left, or fails and is left out. -/
inductive Turns : σ → List Candidate → List (List (BenchmarkResult F32 F64)) → σ → Prop
  | nil (s : σ) : Turns s [] [] s
  | measured {s t u : σ} {candidate : Candidate} {candidates : List Candidate}
    {batch : List (BenchmarkResult F32 F64)} {batches : List (List (BenchmarkResult F32 F64))} :
    Measured bed config candidate scenario s batch t → Turns t candidates batches u →
    Turns s (candidate :: candidates) (batch :: batches) u
  | failed {s t u : σ} {candidate : Candidate} {candidates : List Candidate} {e : ε}
    {batches : List (List (BenchmarkResult F32 F64))} :
    runCandidate bed config candidate scenario s = .error e t → Turns t candidates batches u →
    Turns s (candidate :: candidates) ([] :: batches) u

variable (bed config) in
theorem exists_turns (candidates : List Candidate) (scenario : ScenarioConfig) (s : σ) :
    ∃ batches t, runAll bed config candidates scenario s = .ok batches.flatten t ∧
      Turns bed config scenario s candidates batches t := by
  induction candidates generalizing s with
  | nil => exact ⟨[], s, rfl, .nil s⟩
  | cons candidate candidates ih =>
    cases hrun : runCandidate bed config candidate scenario s with
    | ok results s' =>
      obtain ⟨batches, t, hrest, hturns⟩ := ih s'
      refine ⟨results :: batches, t, ?_, .measured (measured_of_runCandidate hrun) hturns⟩
      unfold runAll at hrest ⊢
      rw [List.flatMapM_cons, bind_eq_ok]
      exact ⟨results, s', bind_eq_ok.mpr ⟨.ok results, s', attempt_eq_ok.mpr hrun, rfl⟩,
        bind_eq_ok.mpr ⟨_, t, hrest, rfl⟩⟩
    | error e s' =>
      obtain ⟨batches, t, hrest, hturns⟩ := ih s'
      refine ⟨[] :: batches, t, ?_, .failed hrun hturns⟩
      unfold runAll at hrest ⊢
      rw [List.flatMapM_cons, bind_eq_ok]
      exact ⟨[], s', bind_eq_ok.mpr ⟨.error e, s', attempt_eq_error.mpr hrun, rfl⟩,
        bind_eq_ok.mpr ⟨_, t, hrest, rfl⟩⟩

theorem exists_builds {standardDir pgoDir : Text}
    (h : runPgoDelta bed config candidate standardDir pgoDir s = .ok results t) :
    ∃ (standard pgo : List (BenchmarkResult F32 F64)) (between : σ),
      Measured bed (config.forBuild standardDir) candidate .pgoDelta s standard between ∧
      Measured bed (config.forBuild pgoDir) candidate .pgoDelta between pgo t ∧
      results = standard.map (relabel candidate .pgoDelta "standard") ++ pgo.map (relabel candidate .pgoDelta "pgo") := by
  unfold runPgoDelta at h
  simp only [List.flatMapM_cons, List.flatMapM_nil] at h
  obtain ⟨first, between, hfirst, h⟩ := bind_eq_ok.mp h
  obtain ⟨standard, s₂, hstandard, hfirst⟩ := bind_eq_ok.mp hfirst
  obtain ⟨rfl, rfl⟩ := pure_eq_ok.mp hfirst
  obtain ⟨rest, s₃, hrest, h⟩ := bind_eq_ok.mp h
  obtain ⟨second, s₄, hsecond, hrest⟩ := bind_eq_ok.mp hrest
  obtain ⟨pgo, s₅, hpgo, hsecond⟩ := bind_eq_ok.mp hsecond
  obtain ⟨rfl, rfl⟩ := pure_eq_ok.mp hsecond
  obtain ⟨last, s₆, hlast, hrest⟩ := bind_eq_ok.mp hrest
  obtain ⟨rfl, rfl⟩ := pure_eq_ok.mp hlast
  obtain ⟨rfl, rfl⟩ := pure_eq_ok.mp hrest
  obtain ⟨rfl, rfl⟩ := pure_eq_ok.mp h
  exact ⟨standard, pgo, _, measured_of_runCandidate hstandard, measured_of_runCandidate hpgo, by rw [List.append_nil]⟩

end Measured

/-! ## The builds of a candidate -/

theorem endsWith_labelled (name : Text) :
    endsWith (labelled name "standard") "[standard]" = true ∧ endsWith (labelled name "standard") "[pgo]" = false ∧
      endsWith (labelled name "pgo") "[pgo]" = true ∧ endsWith (labelled name "pgo") "[standard]" = false := by
  simp [endsWith, labelled, List.isSuffixOf, List.isPrefixOf]

theorem endsWith_displayName (candidate : Candidate) : endsWith candidate.displayName "[standard]" = false := by
  cases candidate <;> decide

theorem endsWith_of_turns {ε σ F32 F64 : Type} [Zero F64] [LT F64] [DecidableLT F64] [NatCast F64] [Mul F64] [Div F64]
    {bed : Bed ε σ F32 F64} {config : RunnerConfig} {scenario : ScenarioConfig} {candidates : List Candidate}
    {batches : List (List (BenchmarkResult F32 F64))} {s t : σ}
    (h : Turns bed config scenario s candidates batches t) :
    ∀ r ∈ batches.flatten, endsWith r.candidateName "[standard]" = false := by
  induction h with
  | nil s => exact List.forall_mem_nil _
  | measured hmeasured _ ih =>
    rw [List.flatten_cons]
    refine List.forall_mem_append.mpr ⟨fun r hr => ?_, ih⟩
    rw [hmeasured.candidateName r hr, endsWith_displayName]
  | failed _ _ ih => rwa [List.flatten_cons, List.nil_append]

theorem filter_relabel {F32 F64 : Type} {candidate : Candidate} {scenario : ScenarioConfig}
    {label suffix : String} {b : Bool} (h : endsWith (labelled candidate.displayName label) suffix = b)
    (results : List (BenchmarkResult F32 F64)) :
    (results.map (relabel candidate scenario label)).filter (fun r => endsWith r.candidateName suffix) =
      bif b then results.map (relabel candidate scenario label) else [] := by
  cases b with
  | true => exact List.filter_eq_self.mpr (List.forall_mem_map.mpr fun r _ => h)
  | false => exact List.filter_eq_nil_iff.mpr (List.forall_mem_map.mpr fun r _ => by simp [relabel, h])

section Pairing

variable {F32 F64 : Type} [Zero F64] [LE F64] [DecidableLE F64] [NatCast F64] [Sub F64] [Mul F64] [Div F64]

theorem pgoImprovementPct_relabel {candidate : Candidate} {scenario : ScenarioConfig} {label label' : String}
    (standard pgo : BenchmarkResult F32 F64) :
    pgoImprovementPct (relabel candidate scenario label standard) (relabel candidate scenario label' pgo) =
      pgoImprovementPct standard pgo := rfl

/-- The results of two builds with the same workloads, no two of them alike, are paired workload by workload. -/
theorem pairPgoResults_relabel {candidate : Candidate} {scenario : ScenarioConfig}
    {standard pgo shown : List (BenchmarkResult F32 F64)} (hnodup : (standard.map workloadKey).Nodup)
    (hkeys : pgo.map workloadKey = standard.map workloadKey)
    (hshown : shown.Perm
      (standard.map (relabel candidate scenario "standard") ++ pgo.map (relabel candidate scenario "pgo"))) :
    (pairPgoResults shown).Perm (List.zipWith (fun s p =>
      (relabel candidate scenario "standard" s, relabel candidate scenario "pgo" p, pgoImprovementPct s p))
      standard pgo) := by
  obtain ⟨hss, hsp, hpp, hps⟩ := endsWith_labelled candidate.displayName
  have hstandard := hshown.filter fun r => endsWith r.candidateName "[standard]"
  have hpgo := hshown.filter fun r => endsWith r.candidateName "[pgo]"
  rw [List.filter_append, filter_relabel hss, filter_relabel hps, cond_true, cond_false, List.append_nil] at hstandard
  rw [List.filter_append, filter_relabel hsp, filter_relabel hpp, cond_true, cond_false, List.nil_append] at hpgo
  have hmap : ∀ (label : String) (l : List (BenchmarkResult F32 F64)),
      (l.map (relabel candidate scenario label)).map workloadKey = l.map workloadKey := by
    intro label l
    rw [List.map_map]
    rfl
  have hpairs := perm_zipWith_of_keys (fun s p => (s, p, pgoImprovementPct s p))
    ((hmap _ _).trans (hkeys.trans (hmap _ _).symm)) (by rwa [hmap]) hstandard hpgo
  rw [List.zipWith_map] at hpairs
  simpa only [pairPgoResults, workloadKey, Prod.mk.injEq, pgoImprovementPct_relabel] using hpairs

end Pairing

section Results

variable {ε σ F32 F64 : Type} [Zero F64] [LT F64] [DecidableLT F64] [LE F64] [DecidableLE F64] [NatCast F64] [Sub F64]
  [Mul F64] [Div F64] {bed : Bed ε σ F32 F64} {config : RunnerConfig}

/-- **The candidates take turns, and each contributes all of its workloads or none**; no result is taken for a build
of another. -/
theorem run_all_turns (candidates : List Candidate) (scenario : ScenarioConfig) (s : σ) :
    ∃ batches t, runAll bed config candidates scenario s = .ok batches.flatten t ∧
      Turns bed config scenario s candidates batches t ∧ pairPgoResults batches.flatten = [] := by
  obtain ⟨batches, t, hrun, hturns⟩ := exists_turns bed config candidates scenario s
  refine ⟨batches, t, hrun, hturns, ?_⟩
  have hnone : batches.flatten.filter (fun r => endsWith r.candidateName "[standard]") = [] := by
    rw [List.filter_eq_nil_iff]
    intro r hr
    rw [endsWith_of_turns hturns r hr]
    exact Bool.false_ne_true
  unfold pairPgoResults
  rw [hnone, List.filterMap_nil]

/-- **A comparison of two builds is complete, and like for like**: the builds are measured one after the other, and
however the results are ordered, each workload on the one is paired with the same workload on the other. -/
theorem pgo_pairs {candidate : Candidate} {standardDir pgoDir : Text} {s t : σ}
    {results shown : List (BenchmarkResult F32 F64)}
    (h : runPgoDelta bed config candidate standardDir pgoDir s = .ok results t) (hshown : shown.Perm results) :
    ∃ (standard pgo : List (BenchmarkResult F32 F64)) (between : σ),
      Measured bed (config.forBuild standardDir) candidate .pgoDelta s standard between ∧
      Measured bed (config.forBuild pgoDir) candidate .pgoDelta between pgo t ∧
      (pairPgoResults shown).Perm (List.zipWith (fun s p =>
        (relabel candidate .pgoDelta "standard" s, relabel candidate .pgoDelta "pgo" p, pgoImprovementPct s p))
        standard pgo) := by
  have hnodup : (ScenarioConfig.pgoDelta.workloads.map Workload.key).Nodup := by
    rw [List.nodup_map_iff key_injective]
    decide
  obtain ⟨standard, pgo, between, hs, hp, rfl⟩ := exists_builds h
  refine ⟨standard, pgo, between, hs, hp, pairPgoResults_relabel ?_ ?_ hshown⟩
  · rw [hs.map_key]
    exact hnodup
  · rw [hs.map_key, hp.map_key]

/-- A bed where every load takes a second and completes as many requests as loads were run before it. -/
def sampleBed : Bed Unit ℕ ℚ ℚ where
  displayAddr _ := "127.0.0.1".toList
  sleep _ s := s
  startMockUpstream addr _ := pure (addr.getD (.v4 127 0 0 1 40000))
  stopMockUpstream s := s
  spawn _ := pure 7
  terminate _ s := s
  startMonitor _ s := s
  stopMonitor := pure (50, 12)
  generate _ := do
    let n ← modifyGet fun n => (n, n + 1)
    let histogram := ⟨fun _ => 100, 200, 110, 5⟩
    pure (1, ⟨UInt64.ofNat n, 0, 0, 0, histogram, histogram⟩)

def sampleRunner : RunnerConfig := ⟨⟨500, 2000, 500⟩, .localProcess "target/release".toList none, none, 0, none, false⟩

/-- Six workloads are paired although the results are shown in reverse. -/
theorem pgo_pairs_reversed : ∃ results t,
    runPgoDelta sampleBed sampleRunner .monoio "target/pgo-baseline".toList "target/release".toList 0 = .ok results t ∧
      (pairPgoResults results.reverse).length = 6 := by
  obtain ⟨results, t, hrun⟩ : ∃ results t, runPgoDelta sampleBed sampleRunner .monoio "target/pgo-baseline".toList
    "target/release".toList 0 = .ok results t := ⟨_, _, rfl⟩
  refine ⟨results, t, hrun, ?_⟩
  obtain ⟨standard, pgo, between, hs, hp, hpairs⟩ := pgo_pairs hrun results.reverse_perm
  have hlength : ∀ {s t : ℕ} {dir : Text} {l : List (BenchmarkResult ℚ ℚ)},
      Measured sampleBed (sampleRunner.forBuild dir) .monoio .pgoDelta s l t → l.length = 6 := by
    intro s t dir l h
    have hkeys := congrArg List.length h.map_key
    rw [List.length_map, List.length_map] at hkeys
    exact hkeys
  rw [hpairs.length_eq, List.length_zipWith, hlength hs, hlength hp, min_self]

end Results

end LbProxy.Bench
