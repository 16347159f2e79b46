import LbProxy.Lib.Overflow
import LbProxy.Lib.Search
import Mathlib.Data.Rat.Floor
import Mathlib.Tactic.FieldSimp
import Mathlib.Tactic.Linarith
import Mathlib.Tactic.NormNum

/-!
# System-limit preflight (`preflight.rs`)

* `Limits` — what the system answers: the descriptor limit, the sysctls, the port range;
* `Check.new`, `limitCheck` — one limit against what is required;
* `evaluate`, `maxSupported` — all limits for one concurrency, and the search over it;
* `evaluate_iff` — what a preflight consists of;
* `NoWrap`, `sustains_mono` — every check is monotone in the concurrency as long as no wrap decides it;
* `max_supported_iff` — when the preflight is monotone, and when the search returns the true maximum.

The arithmetic is that of `u64` in a build with overflow checks or without them.  The multiplier is taken exactly.
-/

namespace LbProxy.Bench

open Lib

inductive Severity where
  /-- Headroom is fine. -/
  | ok
  /-- Will work, but the margin is thin enough to distort the tail. -/
  | tight
  /-- The requested concurrency cannot be reached; numbers would be fiction. -/
  | blocking
  deriving DecidableEq, Repr

/-- One system limit and whether it can carry the requested load. -/
structure Check where
  name : String
  current : UInt64
  required : UInt64
  severity : Severity
  /-- Exact command that raises it, if any. -/
  remedy : Option String
  consequence : String

/-- The full preflight result for one requested concurrency level. -/
structure Preflight where
  concurrency : ℕ
  checks : List Check

/-- A snapshot of the limits of the system. -/
structure Limits where
  /-- `RLIMIT_NOFILE`'s soft limit. -/
  rlimitNofile : UInt64
  /-- An integer sysctl by name, where the name exists. -/
  sysctl : String → Option UInt64
  /-- The first two numbers of `/proc/sys/net/ipv4/ip_local_port_range`, where the file exists. -/
  ipLocalPortRange : Option (Option UInt64 × Option UInt64)

/-- The ephemeral port range, on either platform. -/
def Limits.ephemeralRange (limits : Limits) : Option UInt64 × Option UInt64 :=
  match limits.sysctl "net.inet.ip.portrange.first", limits.sysctl "net.inet.ip.portrange.last" with
  | some first, some last => (some first, some last)
  | _, _ => limits.ipLocalPortRange.getD (none, none)

section Checks

variable (overflowChecks : Bool)

/-- Whether a limit reaches what is required, or four fifths of it. -/
def severityOf (current required : UInt64) : Option Severity :=
  if required ≤ current then some .ok
  else do
    let current100 ← u64 overflowChecks (current.toNat * 100)
    let required80 ← u64 overflowChecks (required.toNat * 80)
    if required80 ≤ current100 then some .tight else some .blocking

def Check.new (name : String) (current required : UInt64) (consequence : String) (remedy : Option String) :
    Option Check := do
  let severity ← severityOf overflowChecks current required
  return ⟨name, current, required, severity, remedy, consequence⟩

def Check.isBlocking (c : Check) : Bool := c.severity = .blocking

/-- A limit against what is required; the requirement and the remedy are computed first. -/
def limitCheck (name : String) (current : UInt64) (required : Option UInt64) (consequence : String)
    (remedy : Option String) : Option Check := do
  let required ← required
  let remedy ← remedy
  Check.new overflowChecks name current required consequence (some remedy)

/-- `conn * 2 + 1_024`. -/
def descriptors (conn : ℕ) : Option UInt64 :=
  (u64 overflowChecks (conn * 2)).bind fun x => u64 overflowChecks (x.toNat + 1024)

/-- A command that sets a limit to `x * k`, or to `least` if that is more. -/
def raiseTo (command : String) (x k : ℕ) (least : UInt64) : Option String :=
  (u64 overflowChecks (x * k)).map fun raised => command ++ toString (max raised least)

/-- 1. Per-process file descriptors. -/
def openFiles (limits : Limits) (conn : ℕ) : Option Check :=
  limitCheck overflowChecks "open files (ulimit -n)" limits.rlimitNofile (descriptors overflowChecks conn)
    "the generator cannot open all its connections and reports a lower concurrency than requested"
    (raiseTo overflowChecks "ulimit -n " conn 4 65536)

/-- 2. Kernel-wide file descriptor ceiling, for each process. -/
def maxFilesPerProc (conn : ℕ) (maxfiles : UInt64) : Option Check :=
  limitCheck overflowChecks "kern.maxfilesperproc" maxfiles (descriptors overflowChecks conn)
    "caps `ulimit -n` regardless of the shell setting"
    (raiseTo overflowChecks "sudo sysctl -w kern.maxfilesperproc=" conn 4 65536)

/-- 2. Kernel-wide file descriptor ceiling. -/
def maxFiles (totalSockets maxfiles : UInt64) : Option Check :=
  limitCheck overflowChecks "kern.maxfiles" maxfiles (u64 overflowChecks (totalSockets.toNat + 8192))
    "system-wide descriptor exhaustion affects every process, not just the benchmark"
    (raiseTo overflowChecks "sudo sysctl -w kern.maxfiles=" totalSockets.toNat 2 131072)

/-- The accept queue absorbs the connect burst, roughly an eighth of the target. -/
def backlog (conn : ℕ) : ℕ := min (max (conn / 8) 128) 8192

/-- 3. Listen backlog. -/
def listenBacklog (conn : ℕ) (somaxconn : UInt64) : Option Check :=
  limitCheck overflowChecks "kern.ipc.somaxconn" somaxconn (some (UInt64.ofNat (backlog conn)))
    "SYN queue overflows during the connection ramp; the TCP retries land in the histogram as seconds-long outliers"
    (some ("sudo sysctl -w kern.ipc.somaxconn=" ++ toString (max (backlog conn).nextPowerOfTwo 2048)))

/-- `last.saturating_sub(first) + 1`. -/
def availablePorts (first last : UInt64) : Option UInt64 := u64 overflowChecks (last.toNat - first.toNat + 1)

/-- 4. Ephemeral ports. Hard ceiling on loopback concurrency. -/
def ephemeralPorts (ephemeralNeeded first last : UInt64) : Option Check := do
  let available ← availablePorts overflowChecks first last
  limitCheck overflowChecks "ephemeral port range" available (u64 overflowChecks (ephemeralNeeded.toNat + 4096))
    ("connections fail with EADDRNOTAVAIL partway through the ramp; the run measures whatever fraction of the " ++
      "target it managed to open")
    (some ("sudo sysctl -w net.inet.ip.portrange.first=16384  # macOS\n" ++
      "# Linux: sudo sysctl -w net.ipv4.ip_local_port_range='10000 65535'"))

/-- 5. TIME_WAIT drain rate; lower is better, so it is expressed as headroom. -/
def timeWaitDrain (mslMs : UInt64) : Option Check := do
  let twice ← u64 overflowChecks (mslMs.toNat * 2)
  let twSeconds := twice.toNat / 1000
  Check.new overflowChecks "TIME_WAIT drain (2*MSL, s)" (if twSeconds = 0 then 60 else UInt64.ofNat (60 / twSeconds)) 2
    ("ports from the previous window are still held when the next one starts, so later sweeps run with less port " ++
      "space than earlier ones")
    (some "sudo sysctl -w net.inet.tcp.msl=1000")

/-- A check of a limit that the system may not have. -/
def whenPresent (limit : Option UInt64) (check : UInt64 → Option Check) : Option (List Check) :=
  match limit with
  | some x => (check x).map fun c => [c]
  | none => some []

/-- A check of the port range, where both ends are known. -/
def whenRange (range : Option UInt64 × Option UInt64) (check : UInt64 → UInt64 → Option Check) : Option (List Check) :=
  match range with
  | (some first, some last) => (check first last).map fun c => [c]
  | _ => some []

/-- Downstream client sockets, the proxy's accepted and upstream sockets, and the upstream's accepted sockets. -/
def totalSockets (conn : ℕ) (upstreamMultiplier : ℚ) : UInt64 := saturate ⌊conn * (2 + upstreamMultiplier * 2)⌋₊

/-- Ephemeral ports are consumed by the two connecting sides only. -/
def ephemeralNeeded (conn : ℕ) (upstreamMultiplier : ℚ) : UInt64 := saturate ⌊conn * (1 + upstreamMultiplier)⌋₊

end Checks

section Search

variable (overflowChecks : Bool) (limits : Limits) (upstreamMultiplier : ℚ)

/-- Evaluate every limit against `concurrency` simultaneous connections. -/
def evaluate (concurrency : ℕ) : Option Preflight := do
  let files ← openFiles overflowChecks limits concurrency
  let perProc ← whenPresent (limits.sysctl "kern.maxfilesperproc") (maxFilesPerProc overflowChecks concurrency)
  let kernel ← whenPresent (limits.sysctl "kern.maxfiles")
    (maxFiles overflowChecks (totalSockets concurrency upstreamMultiplier))
  let listen ← whenPresent (limits.sysctl "kern.ipc.somaxconn") (listenBacklog overflowChecks concurrency)
  let ports ← whenRange limits.ephemeralRange
    (ephemeralPorts overflowChecks (ephemeralNeeded concurrency upstreamMultiplier))
  let drain ← whenPresent (limits.sysctl "net.inet.tcp.msl") (timeWaitDrain overflowChecks)
  return ⟨concurrency, files :: perProc ++ kernel ++ listen ++ ports ++ drain⟩

/-- Checks that would make the measurement invalid. -/
def Preflight.blocking (p : Preflight) : List Check := p.checks.filter (·.isBlocking)

/-- Whether no check blocks. -/
def sustains (concurrency : ℕ) : Option Bool :=
  (evaluate overflowChecks limits upstreamMultiplier concurrency).map fun p => p.blocking.isEmpty

/-- The highest concurrency this system can actually sustain. -/
def maxSupported : Option ℕ := do
  if ← sustains overflowChecks limits upstreamMultiplier 1 then
    searchLast (sustains overflowChecks limits upstreamMultiplier) 1 200000
  else
    return 0

end Search

/-! ## All checks of a preflight -/

/-- A check is made, and its severity is one of these. -/
def Holds (R : Severity → Prop) (x : Option Check) : Prop := ∃ c, x = some c ∧ R c.severity

/-- Checks are made, and their severities are among these. -/
def AllHold (R : Severity → Prop) (x : Option (List Check)) : Prop := ∃ l, x = some l ∧ ∀ c ∈ l, R c.severity

section Holds

variable {R : Severity → Prop} {overflowChecks : Bool}

theorem allHold_map {x : Option Check} : AllHold R (x.map fun c => [c]) ↔ Holds R x := by
  cases x with
  | none => simp [AllHold, Holds]
  | some c => simp [AllHold, Holds]

theorem allHold_whenPresent {limit : Option UInt64} {check : UInt64 → Option Check} :
    AllHold R (whenPresent limit check) ↔ ∀ x, limit = some x → Holds R (check x) := by
  cases limit with
  | none => simp [AllHold, whenPresent]
  | some x => simp only [whenPresent, allHold_map, Option.some_inj, forall_eq']

theorem allHold_whenRange {range : Option UInt64 × Option UInt64} {check : UInt64 → UInt64 → Option Check} :
    AllHold R (whenRange range check) ↔ ∀ first last, range = (some first, some last) → Holds R (check first last) := by
  rcases range with ⟨_ | first, _ | last⟩
  · simp [AllHold, whenRange]
  · simp [AllHold, whenRange]
  · simp [AllHold, whenRange]
  · simp only [whenRange, allHold_map, Prod.mk.injEq, Option.some_inj, and_imp, forall_eq', forall_apply_eq_imp_iff]

/-- Every check of a preflight is made, and its severity is one of these. -/
structure ChecksHold (R : Severity → Prop) (overflowChecks : Bool) (limits : Limits) (m : ℚ) (c : ℕ) : Prop where
  files : Holds R (openFiles overflowChecks limits c)
  perProc : ∀ x, limits.sysctl "kern.maxfilesperproc" = some x → Holds R (maxFilesPerProc overflowChecks c x)
  kernel : ∀ x, limits.sysctl "kern.maxfiles" = some x → Holds R (maxFiles overflowChecks (totalSockets c m) x)
  listen : ∀ x, limits.sysctl "kern.ipc.somaxconn" = some x → Holds R (listenBacklog overflowChecks c x)
  ports : ∀ first last, limits.ephemeralRange = (some first, some last) →
    Holds R (ephemeralPorts overflowChecks (ephemeralNeeded c m) first last)
  drain : ∀ x, limits.sysctl "net.inet.tcp.msl" = some x → Holds R (timeWaitDrain overflowChecks x)

theorem holds_bind {α : Type} {x : Option α} {check : α → Option Check} :
    Holds R (x.bind check) ↔ ∃ a, x = some a ∧ Holds R (check a) := by
  cases x with
  | none => simp [Holds]
  | some a => simp only [Option.bind_some, Option.some_inj, exists_eq_left']

theorem Holds.ports {ephemeralNeeded first last : UInt64}
    (h : Holds R (ephemeralPorts overflowChecks ephemeralNeeded first last)) :
    ∃ available consequence remedy, availablePorts overflowChecks first last = some available ∧
      Holds R (limitCheck overflowChecks "ephemeral port range" available
        (u64 overflowChecks (ephemeralNeeded.toNat + 4096)) consequence remedy) := by
  obtain ⟨available, havailable, hlimit⟩ := holds_bind.mp h
  exact ⟨available, _, _, havailable, hlimit⟩

/-- **What a preflight consists of**: the check of the descriptors, and the others where the system has the limit. -/
theorem evaluate_iff {limits : Limits} {m : ℚ} {c : ℕ} :
    (∃ p, evaluate overflowChecks limits m c = some p ∧ ∀ check ∈ p.checks, R check.severity) ↔
      ChecksHold R overflowChecks limits m c := by
  simp only [evaluate, Option.bind_eq_bind, Option.bind_eq_some_iff, Option.pure_def, Option.some_inj]
  constructor
  · rintro ⟨_, ⟨files, hfiles, perProc, hperProc, kernel, hkernel, listen, hlisten, ports, hports, drain, hdrain, rfl⟩,
      hall⟩
    simp only [List.mem_append, List.mem_cons] at hall
    exact {
      files := ⟨files, hfiles, hall _ (by simp)⟩
      perProc := allHold_whenPresent.mp ⟨perProc, hperProc, fun c hc => hall c (by simp [hc])⟩
      kernel := allHold_whenPresent.mp ⟨kernel, hkernel, fun c hc => hall c (by simp [hc])⟩
      listen := allHold_whenPresent.mp ⟨listen, hlisten, fun c hc => hall c (by simp [hc])⟩
      ports := allHold_whenRange.mp ⟨ports, hports, fun c hc => hall c (by simp [hc])⟩
      drain := allHold_whenPresent.mp ⟨drain, hdrain, fun c hc => hall c (by simp [hc])⟩ }
  · rintro ⟨hfiles, hperProc, hkernel, hlisten, hports, hdrain⟩
    obtain ⟨files, hfiles, h₁⟩ := hfiles
    obtain ⟨perProc, hperProc, h₂⟩ := allHold_whenPresent.mpr hperProc
    obtain ⟨kernel, hkernel, h₃⟩ := allHold_whenPresent.mpr hkernel
    obtain ⟨listen, hlisten, h₄⟩ := allHold_whenPresent.mpr hlisten
    obtain ⟨ports, hports, h₅⟩ := allHold_whenRange.mpr hports
    obtain ⟨drain, hdrain, h₆⟩ := allHold_whenPresent.mpr hdrain
    refine ⟨_, ⟨files, hfiles, perProc, hperProc, kernel, hkernel, listen, hlisten, ports, hports, drain, hdrain, rfl⟩,
      fun c hc => ?_⟩
    simp only [List.mem_append, List.mem_cons] at hc
    rcases hc with ((((rfl | hc) | hc) | hc) | hc) | hc
    · exact h₁
    · exact h₂ c hc
    · exact h₃ c hc
    · exact h₄ c hc
    · exact h₅ c hc
    · exact h₆ c hc

end Holds

theorem sustains_eq_some_iff {overflowChecks : Bool} {limits : Limits} {m : ℚ} {c : ℕ} :
    sustains overflowChecks limits m c = some true ↔ ChecksHold (· ≠ .blocking) overflowChecks limits m c := by
  rw [← evaluate_iff]
  simp only [sustains, Option.map_eq_some_iff, List.isEmpty_iff, Preflight.blocking, List.filter_eq_nil_iff,
    Check.isBlocking, decide_eq_true_eq]

theorem isSome_sustains_iff {overflowChecks : Bool} {limits : Limits} {m : ℚ} {c : ℕ} :
    (sustains overflowChecks limits m c).isSome ↔ ChecksHold (fun _ => True) overflowChecks limits m c := by
  rw [← evaluate_iff]
  simp only [sustains, Option.isSome_map, Option.isSome_iff_exists, implies_true, and_true]

/-! ## One check -/

section Severity

variable {overflowChecks : Bool} {current required : UInt64}

/-- The limit reaches what is required, or enough of it. -/
def Meets (overflowChecks : Bool) (current required : UInt64) : Prop :=
  ∃ s, severityOf overflowChecks current required = some s ∧ s ≠ .blocking

theorem meets_unchecked : Meets false current required ↔
    required.toNat ≤ current.toNat ∨ required.toNat * 80 % 2 ^ 64 ≤ current.toNat * 100 % 2 ^ 64 := by
  unfold Meets severityOf
  simp only [u64_unchecked, Option.bind_eq_bind, Option.bind_some, UInt64.le_iff_toNat_le, UInt64.toNat_ofNat']
  split
  · rename_i h
    simp [h]
  · rename_i h
    split
    · rename_i htight
      simp [htight]
    · rename_i htight
      simp [h, htight]

theorem meets_checked : Meets true current required ↔
    required.toNat ≤ current.toNat ∨
      current.toNat * 100 < 2 ^ 64 ∧ required.toNat * 80 < 2 ^ 64 ∧ required.toNat * 80 ≤ current.toNat * 100 := by
  unfold Meets severityOf
  split
  · rename_i h
    simp [UInt64.le_iff_toNat_le.mp h]
  · rename_i h
    rw [UInt64.le_iff_toNat_le] at h
    by_cases hcurrent : current.toNat * 100 < 2 ^ 64
    · rw [u64_of_lt true hcurrent]
      by_cases hrequired : required.toNat * 80 < 2 ^ 64
      · rw [u64_of_lt true hrequired]
        simp only [Option.bind_eq_bind, Option.bind_some, UInt64.le_iff_toNat_le, toNat_ofNat_of_lt hcurrent,
          toNat_ofNat_of_lt hrequired, h, hcurrent, hrequired, true_and, false_or]
        split
        · rename_i htight
          simp [htight]
        · rename_i htight
          simp [htight]
      · simp only [u64_checked_eq_none.mpr (not_lt.mp hrequired), Option.bind_eq_bind, Option.bind_none, h, hrequired,
          Option.bind_some, false_and, and_false, or_false, reduceCtorEq, exists_false]
    · simp only [u64_checked_eq_none.mpr (not_lt.mp hcurrent), Option.bind_eq_bind, Option.bind_none, h, hcurrent,
        false_and, or_false, reduceCtorEq, exists_false]

/-- **The tolerance is monotone** in what is required, as long as it is computed exactly. -/
theorem Meets.mono {required' : UInt64} (hle : required'.toNat ≤ required.toNat)
    (hexact : overflowChecks = true ∨ 80 * required.toNat < 2 ^ 64) (h : Meets overflowChecks current required) :
    Meets overflowChecks current required' := by
  cases overflowChecks with
  | true =>
    rw [meets_checked] at h ⊢
    omega
  | false =>
    have hlt : 80 * required.toNat < 2 ^ 64 := hexact.resolve_left Bool.false_ne_true
    have hmod : required.toNat * 80 % 2 ^ 64 = required.toNat * 80 := Nat.mod_eq_of_lt (by omega)
    have hmod' : required'.toNat * 80 % 2 ^ 64 = required'.toNat * 80 := Nat.mod_eq_of_lt (by omega)
    rw [meets_unchecked, hmod] at h
    rw [meets_unchecked, hmod']
    omega

variable (current) in
theorem isSome_severityOf (h : overflowChecks = false ∨ required.toNat * 100 < 2 ^ 64) :
    (severityOf overflowChecks current required).isSome := by
  unfold severityOf
  split
  · rfl
  · rename_i hlt
    rw [UInt64.le_iff_toNat_le] at hlt
    have hcurrent : (u64 overflowChecks (current.toNat * 100)).isSome := isSome_u64 (h.imp_right fun h => by omega)
    have hrequired : (u64 overflowChecks (required.toNat * 80)).isSome := isSome_u64 (h.imp_right fun h => by omega)
    obtain ⟨a, ha⟩ := Option.isSome_iff_exists.mp hcurrent
    obtain ⟨b, hb⟩ := Option.isSome_iff_exists.mp hrequired
    simp only [ha, hb, Option.bind_eq_bind, Option.bind_some]
    split <;> rfl

end Severity

section LimitCheck

variable {R : Severity → Prop} {overflowChecks : Bool} {name consequence : String} {current : UInt64}
  {o o' : Option UInt64} {remedy remedy' : Option String} {n n' : ℕ}

theorem holds_new {required : UInt64} :
    Holds R (Check.new overflowChecks name current required consequence remedy) ↔
      ∃ s, severityOf overflowChecks current required = some s ∧ R s := by
  simp only [Holds, Check.new, Option.bind_eq_bind, Option.bind_eq_some_iff, Option.pure_def, Option.some_inj]
  constructor
  · rintro ⟨_, ⟨s, hs, rfl⟩, hR⟩
    exact ⟨s, hs, hR⟩
  · rintro ⟨s, hs, hR⟩
    exact ⟨_, ⟨s, hs, rfl⟩, hR⟩

theorem holds_limitCheck :
    Holds R (limitCheck overflowChecks name current o consequence remedy) ↔
      remedy.isSome ∧ ∃ required, o = some required ∧
        ∃ s, severityOf overflowChecks current required = some s ∧ R s := by
  cases o with
  | none => simp [Holds, limitCheck]
  | some required =>
    cases remedy with
    | none => simp [Holds, limitCheck]
    | some text =>
      simp only [limitCheck, Option.bind_eq_bind, Option.bind_some, holds_new, Option.isSome_some, true_and,
        Option.some_inj, exists_eq_left']

/-- No wrap decides the check: the limit is unlimited, or the exact requirement does not exceed it, or is compared
exactly. -/
def NoWrap (current : UInt64) (required : ℕ) : Prop :=
  current.toNat = 2 ^ 64 - 1 ∨ required ≤ current.toNat ∨ 80 * required < 2 ^ 64

/-- **A check is monotone** in what is required: if it does not block, a check that requires less does not either. -/
theorem limitCheck_mono (h : Computes overflowChecks o n) (h' : Computes overflowChecks o' n') (hle : n' ≤ n)
    (hexact : overflowChecks = true ∨ NoWrap current n) (hremedy : remedy.isSome → remedy'.isSome)
    (hpass : Holds (· ≠ .blocking) (limitCheck overflowChecks name current o consequence remedy)) :
    Holds (· ≠ .blocking) (limitCheck overflowChecks name current o' consequence remedy') := by
  rw [holds_limitCheck] at hpass ⊢
  obtain ⟨hsome, required, ho, hmeets⟩ := hpass
  -- a requirement that fits is the exact one, at both concurrencies
  have hexactly : n < 2 ^ 64 → (n ≤ current.toNat ∨ overflowChecks = true ∨ 80 * n < 2 ^ 64) →
      ∃ required', o' = some required' ∧ ∃ s, severityOf overflowChecks current required' = some s ∧ s ≠ .blocking := by
    intro hlt hcase
    rw [h.of_lt hlt, Option.some_inj] at ho
    have hrequired : required.toNat = n := by rw [← ho, toNat_ofNat_of_lt hlt]
    have hrequired' : (UInt64.ofNat n').toNat = n' := toNat_ofNat_of_lt (by omega)
    refine ⟨UInt64.ofNat n', h'.of_lt (by omega), ?_⟩
    rcases hcase with hle' | hcase
    · exact ⟨.ok, if_pos (UInt64.le_iff_toNat_le.mpr (by omega)), by decide⟩
    · exact Meets.mono (by omega) (by rwa [hrequired]) hmeets
  have hfits := current.toNat_lt
  refine ⟨hremedy hsome, ?_⟩
  rcases hexact with hchecked | hunlimited | hreached | hexact
  · exact hexactly (h.lt_of_checked hchecked (by rw [ho]; rfl)) (.inr (.inl hchecked))
  · by_cases hchecked : overflowChecks = true
    · exact hexactly (h.lt_of_checked hchecked (by rw [ho]; rfl)) (.inr (.inl hchecked))
    · obtain ⟨required', ho'⟩ := Option.isSome_iff_exists.mp (h'.isSome_unchecked (Bool.not_eq_true _ ▸ hchecked))
      have := required'.toNat_lt
      exact ⟨required', ho', .ok, if_pos (UInt64.le_iff_toNat_le.mpr (by omega)), by decide⟩
  · exact hexactly (by omega) (.inl hreached)
  · exact hexactly (by omega) (.inr (.inr hexact))

theorem meets_of_limitCheck (h : Computes false o n) (hlt : n < 2 ^ 64)
    (hpass : Holds (· ≠ .blocking) (limitCheck false name current o consequence remedy)) :
    Meets false current (UInt64.ofNat n) := by
  obtain ⟨-, required, ho, hs⟩ := holds_limitCheck.mp hpass
  rw [h.of_lt hlt, Option.some_inj] at ho
  exact ho ▸ hs

/-- A requirement just below the point where its tolerance wraps blocks on an ordinary limit. -/
theorem not_meets_of_near {n : ℕ} (hlimit : 100 * current.toNat + 2 ^ 18 ≤ 2 ^ 64)
    (hlow : 2 ^ 64 ≤ 80 * n + 2 ^ 18) (hhigh : 80 * n < 2 ^ 64) : ¬ Meets false current (UInt64.ofNat n) := by
  have hn : (UInt64.ofNat n).toNat = n := toNat_ofNat_of_lt (by omega)
  have hrequired : n * 80 % 2 ^ 64 = n * 80 := Nat.mod_eq_of_lt (by omega)
  have hcurrent : current.toNat * 100 % 2 ^ 64 = current.toNat * 100 := Nat.mod_eq_of_lt (by omega)
  rw [meets_unchecked, hn, hrequired, hcurrent]
  omega

theorem isMade_limitCheck (h : Computes overflowChecks o n) (hn : overflowChecks = false ∨ n * 100 < 2 ^ 64)
    (hremedy : remedy.isSome) :
    Holds (fun _ => True) (limitCheck overflowChecks name current o consequence remedy) := by
  obtain ⟨required, ho⟩ : ∃ required, o = some required := by
    rcases hn with hc | hn
    · exact Option.isSome_iff_exists.mp (h.isSome_unchecked hc)
    · exact ⟨_, h.of_lt (by omega)⟩
  have hsmall : overflowChecks = false ∨ required.toNat * 100 < 2 ^ 64 := by
    rcases hn with hc | hn
    · exact Or.inl hc
    · rw [h.of_lt (by omega), Option.some_inj] at ho
      rw [← ho, toNat_ofNat_of_lt (by omega)]
      exact Or.inr hn
  obtain ⟨s, hs⟩ := Option.isSome_iff_exists.mp (isSome_severityOf current hsmall)
  exact holds_limitCheck.mpr ⟨hremedy, required, ho, s, hs, trivial⟩

end LimitCheck

/-! ## What a concurrency requires -/

section Required

variable (overflowChecks : Bool)

theorem computes_descriptors (conn : ℕ) : Computes overflowChecks (descriptors overflowChecks conn) (conn * 2 + 1024) :=
  (Computes.u64 overflowChecks (conn * 2)).bind (· + 1024) (by omega)

theorem computes_backlog (conn : ℕ) :
    Computes overflowChecks (some (UInt64.ofNat (backlog conn))) (backlog conn) :=
  Computes.pure (toNat_ofNat_of_lt (by unfold backlog; omega))

theorem backlog_mono {c c' : ℕ} (h : c' ≤ c) : backlog c' ≤ backlog c := by
  unfold backlog
  omega

theorem isSome_raiseTo {command : String} {x k : ℕ} {least : UInt64} :
    (raiseTo overflowChecks command x k least).isSome = (u64 overflowChecks (x * k)).isSome :=
  Option.isSome_map

variable {overflowChecks}

theorem isSome_raiseTo_mono {command : String} {x x' k : ℕ} {least : UInt64} (hle : x' ≤ x)
    (h : (raiseTo overflowChecks command x k least).isSome) : (raiseTo overflowChecks command x' k least).isSome := by
  rw [isSome_raiseTo] at h ⊢
  exact (Computes.u64 overflowChecks (x * k)).isSome_mono (Computes.u64 overflowChecks (x' * k))
    (Nat.mul_le_mul_right k hle) h

variable {m : ℚ}

theorem saturate_floor_mono {factor : ℚ} (hfactor : 0 ≤ factor) {c c' : ℕ} (h : c' ≤ c) :
    (saturate ⌊c' * factor⌋₊).toNat ≤ (saturate ⌊c * factor⌋₊).toNat := by
  have hfloor : ⌊(c' : ℚ) * factor⌋₊ ≤ ⌊(c : ℚ) * factor⌋₊ :=
    Nat.floor_mono (mul_le_mul_of_nonneg_right (by exact_mod_cast h) hfactor)
  rw [toNat_saturate, toNat_saturate]
  omega

theorem floor_mul_le {factor : ℚ} {n : ℕ} (hfactor : factor ≤ n) (c : ℕ) : ⌊c * factor⌋₊ ≤ c * n := by
  refine Nat.floor_le_of_le ?_
  push_cast
  exact mul_le_mul_of_nonneg_left hfactor (Nat.cast_nonneg c)

theorem saturate_floor_le {factor : ℚ} {n : ℕ} (hfactor : factor ≤ n) (c : ℕ) :
    (saturate ⌊c * factor⌋₊).toNat ≤ c * n := by
  have hfloor := floor_mul_le hfactor c
  rw [toNat_saturate]
  omega

theorem totalSockets_mono (hm : 0 ≤ m) {c c' : ℕ} (h : c' ≤ c) :
    (totalSockets c' m).toNat ≤ (totalSockets c m).toNat := saturate_floor_mono (by linarith) h

theorem ephemeralNeeded_mono (hm : 0 ≤ m) {c c' : ℕ} (h : c' ≤ c) :
    (ephemeralNeeded c' m).toNat ≤ (ephemeralNeeded c m).toNat := saturate_floor_mono (by linarith) h

theorem totalSockets_le (hm : m ≤ 1000) (c : ℕ) : (totalSockets c m).toNat ≤ c * 2002 :=
  saturate_floor_le (by push_cast; linarith) c

theorem ephemeralNeeded_le (hm : m ≤ 1000) (c : ℕ) : (ephemeralNeeded c m).toNat ≤ c * 1001 :=
  saturate_floor_le (by push_cast; linarith) c

end Required

/-! ## Monotonicity -/

/-- The limits that are compared with what grows with the concurrency, and the exact numbers that it needs of them. -/
structure Limits.Compared (P : UInt64 → ℕ → Prop) (limits : Limits) (m : ℚ) (c : ℕ) : Prop where
  files : P limits.rlimitNofile (c * 2 + 1024)
  perProc : ∀ x, limits.sysctl "kern.maxfilesperproc" = some x → P x (c * 2 + 1024)
  kernel : ∀ x, limits.sysctl "kern.maxfiles" = some x → P x (⌊c * (2 + m * 2)⌋₊ + 8192)
  ports : ∀ first last, limits.ephemeralRange = (some first, some last) →
    P (UInt64.ofNat (last.toNat - first.toNat + 1)) (⌊c * (1 + m)⌋₊ + 4096)

theorem NoWrap.saturated {current : UInt64} {x k : ℕ} (h : NoWrap current (x + k)) :
    NoWrap current ((saturate x).toNat + k) := by
  rw [toNat_saturate]
  exact h.imp_right fun h => h.imp (by omega) (by omega)

/-- **The preflight is monotone** up to a concurrency at which no wrap decides a check. -/
theorem sustains_mono {overflowChecks : Bool} {limits : Limits} {m : ℚ} (hm₀ : 0 ≤ m) {c c' : ℕ}
    (hexact : overflowChecks = true ∨ limits.Compared NoWrap m c) (hle : c' ≤ c)
    (h : sustains overflowChecks limits m c = some true) : sustains overflowChecks limits m c' = some true := by
  rw [sustains_eq_some_iff] at h ⊢
  obtain ⟨hfiles, hperProc, hkernel, hlisten, hports, hdrain⟩ := h
  refine ⟨?_, fun x hx => ?_, fun x hx => ?_, fun x hx => ?_, fun first last hrange => ?_, hdrain⟩
  · exact limitCheck_mono (computes_descriptors _ c) (computes_descriptors _ c') (by omega)
      (hexact.imp_right (·.files)) (isSome_raiseTo_mono hle) hfiles
  · exact limitCheck_mono (computes_descriptors _ c) (computes_descriptors _ c') (by omega)
      (hexact.imp_right (·.perProc x hx)) (isSome_raiseTo_mono hle) (hperProc x hx)
  · have hmono := totalSockets_mono hm₀ hle
    exact limitCheck_mono (Computes.u64 _ _) (Computes.u64 _ _) (by omega)
      (hexact.imp_right fun h => (h.kernel x hx).saturated) (isSome_raiseTo_mono hmono) (hkernel x hx)
  · exact limitCheck_mono (computes_backlog _ c) (computes_backlog _ c') (backlog_mono hle)
      (.inr (.inr (.inr (by unfold backlog; omega)))) (fun _ => rfl) (hlisten x hx)
  · obtain ⟨available, havailable, hlimit⟩ := holds_bind.mp (hports first last hrange)
    have hmono := ephemeralNeeded_mono hm₀ hle
    refine holds_bind.mpr ⟨available, havailable, limitCheck_mono (Computes.u64 _ _) (Computes.u64 _ _) (by omega)
      ?_ id hlimit⟩
    cases overflowChecks with
    | true => exact .inl rfl
    | false =>
      rw [availablePorts, u64_unchecked, Option.some_inj] at havailable
      exact .inr (havailable ▸ (hexact.resolve_left Bool.false_ne_true).ports first last hrange).saturated

theorem noWrap_of_small {limits : Limits} {m : ℚ} (hm : m ≤ 1000) {c : ℕ} (hc : c ≤ 200000) :
    limits.Compared NoWrap m c := by
  have hsockets : ⌊c * (2 + m * 2)⌋₊ ≤ c * 2002 := floor_mul_le (by push_cast; linarith) c
  have hneeded : ⌊c * (1 + m)⌋₊ ≤ c * 1001 := floor_mul_le (by push_cast; linarith) c
  refine ⟨.inr (.inr ?_), fun x hx => .inr (.inr ?_), fun x hx => .inr (.inr ?_),
    fun first last hrange => .inr (.inr ?_)⟩
  all_goals omega

/-- The limits that are computed with do not overflow. -/
structure Limits.Fits (limits : Limits) : Prop where
  ports : ∀ first last, limits.ephemeralRange = (some first, some last) → last.toNat - first.toNat + 1 < 2 ^ 64
  drain : ∀ mslMs, limits.sysctl "net.inet.tcp.msl" = some mslMs → mslMs.toNat * 2 < 2 ^ 64

theorem isSome_sustains {overflowChecks : Bool} {limits : Limits} {m : ℚ} (hm : m ≤ 1000) {c : ℕ} (hc : c ≤ 200000) :
    (sustains overflowChecks limits m c).isSome ↔ overflowChecks = false ∨ limits.Fits := by
  have hsockets := totalSockets_le hm c
  have hneeded := ephemeralNeeded_le hm c
  have hraise : ∀ command x k least, x * k < 2 ^ 64 → (raiseTo overflowChecks command x k least).isSome := by
    intro command x k least hlt
    rw [isSome_raiseTo]
    exact isSome_u64 (Or.inr hlt)
  rw [isSome_sustains_iff]
  constructor
  · rintro ⟨-, -, -, -, hports, hdrain⟩
    cases overflowChecks with
    | false => exact Or.inl rfl
    | true =>
      refine Or.inr ⟨fun first last hrange => ?_, fun mslMs hmsl => ?_⟩
      · obtain ⟨available, havailable, -⟩ := holds_bind.mp (hports first last hrange)
        exact (Computes.u64 true _).lt_of_checked rfl (Option.isSome_of_eq_some havailable)
      · obtain ⟨twice, htwice, -⟩ := holds_bind.mp (hdrain mslMs hmsl)
        exact (Computes.u64 true _).lt_of_checked rfl (Option.isSome_of_eq_some htwice)
  · intro hfits
    refine ⟨?_, fun x hx => ?_, fun x hx => ?_, fun x hx => ?_, fun first last hrange => ?_, fun mslMs hmsl => ?_⟩
    · exact isMade_limitCheck (computes_descriptors _ c) (Or.inr (by omega)) (hraise _ _ _ _ (by omega))
    · exact isMade_limitCheck (computes_descriptors _ c) (Or.inr (by omega)) (hraise _ _ _ _ (by omega))
    · exact isMade_limitCheck (Computes.u64 _ _) (Or.inr (by omega)) (hraise _ _ _ _ (by omega))
    · exact isMade_limitCheck (computes_backlog _ c) (Or.inr (by unfold backlog; omega)) rfl
    · obtain ⟨available, havailable⟩ := Option.isSome_iff_exists.mp
        (isSome_u64 (hfits.imp_right fun h => h.ports first last hrange))
      exact holds_bind.mpr ⟨available, havailable, isMade_limitCheck (Computes.u64 _ _) (Or.inr (by omega)) rfl⟩
    · obtain ⟨twice, htwice⟩ := Option.isSome_iff_exists.mp (isSome_u64 (hfits.imp_right fun h => h.drain mslMs hmsl))
      have htwo : overflowChecks = false ∨ (2 : UInt64).toNat * 100 < 2 ^ 64 := Or.inr (by decide)
      obtain ⟨s, hs⟩ := Option.isSome_iff_exists.mp (isSome_severityOf
        (if twice.toNat / 1000 = 0 then 60 else UInt64.ofNat (60 / (twice.toNat / 1000))) htwo)
      exact holds_bind.mpr ⟨twice, htwice, holds_new.mpr ⟨s, hs, trivial⟩⟩

/-! ## The search -/

/-- The search returns `0` when even one connection is blocked, and otherwise the greatest concurrency that no check
blocks. -/
def FindsMaximum (overflowChecks : Bool) (limits : Limits) (m : ℚ) : Prop :=
  ∃ n, maxSupported overflowChecks limits m = some n ∧
    (n = 0 ↔ sustains overflowChecks limits m 1 = some false) ∧
    (n ≠ 0 → IsGreatest {c | 1 ≤ c ∧ c ≤ 200000 ∧ sustains overflowChecks limits m c = some true} n)

theorem findsMaximum_iff {overflowChecks : Bool} {limits : Limits} {m : ℚ} (hm₀ : 0 ≤ m) (hm : m ≤ 1000) :
    FindsMaximum overflowChecks limits m ↔ overflowChecks = false ∨ limits.Fits := by
  constructor
  · rintro ⟨n, hn, -, -⟩
    obtain ⟨b, hb, -⟩ := Option.bind_eq_some_iff.mp hn
    exact (isSome_sustains hm (by omega)).mp (Option.isSome_of_eq_some hb)
  · intro hfits
    have hmade : ∀ c, 1 ≤ c → c ≤ 200000 → sustains overflowChecks limits m c =
        some ((sustains overflowChecks limits m c).getD false) := by
      intro c _ hc
      obtain ⟨b, hb⟩ := Option.isSome_iff_exists.mp ((isSome_sustains hm hc).mpr hfits)
      rw [hb, Option.getD_some]
    have hmono : ∀ c c', 1 ≤ c' → c' ≤ c → c ≤ 200000 → (sustains overflowChecks limits m c).getD false = true →
        (sustains overflowChecks limits m c').getD false = true := by
      intro c c' hc' hle hc h
      have hpass := hmade c (hc'.trans hle) hc
      rw [h] at hpass
      rw [sustains_mono hm₀ (Or.inr (noWrap_of_small hm hc)) hle hpass, Option.getD_some]
    have hone := hmade 1 le_rfl (by omega)
    cases hp : (sustains overflowChecks limits m 1).getD false with
    | false =>
      rw [hp] at hone
      refine ⟨0, ?_, ⟨fun _ => hone, fun _ => rfl⟩, fun h => absurd rfl h⟩
      simp [maxSupported, hone]
    | true =>
      rw [hp] at hone
      obtain ⟨n, hn, hgreatest⟩ := searchLast_greatest (by omega : 1 ≤ 200000) hmade hp hmono
      have hpos : 1 ≤ n := hgreatest.1.1
      refine ⟨n, ?_, ⟨fun h => absurd h (by omega), fun h => ?_⟩, fun _ => hgreatest⟩
      · simpa [maxSupported, hone] using hn
      · rw [hone] at h
        exact absurd (Option.some_inj.mp h) (by decide)

/-! ## Overflow -/

/-- If the concurrency passes, so does every smaller one. -/
def MonotoneAt (overflowChecks : Bool) (limits : Limits) (m : ℚ) (c : ℕ) : Prop :=
  sustains overflowChecks limits m c = some true →
    ∀ c', 1 ≤ c' → c' ≤ c → sustains overflowChecks limits m c' = some true

/-- A limit that is unlimited, or that a hundred times fits with some room to spare. -/
def IsOrdinary (limit : UInt64) : Prop := limit.toNat = 2 ^ 64 - 1 ∨ 100 * limit.toNat + 2 ^ 18 ≤ 2 ^ 64

/-- On the way to a concurrency every number is needed, up to the steps in which the products grow. -/
theorem exists_floor_near {factor : ℚ} (hpos : 0 < factor) (hle : factor ≤ 2002) {c : ℕ} (target : ℕ)
    (htarget : 0 < target) (h : target ≤ ⌊c * factor⌋₊) :
    ∃ c', 1 ≤ c' ∧ c' ≤ c ∧ target ≤ ⌊c' * factor⌋₊ ∧ ⌊c' * factor⌋₊ ≤ target + 2002 := by
  have hreach : (target : ℚ) ≤ c * factor := (Nat.le_floor_iff (by positivity)).mp h
  have hceil : (target : ℚ) / factor ≤ ⌈(target : ℚ) / factor⌉₊ := Nat.le_ceil _
  have hceil' : (⌈(target : ℚ) / factor⌉₊ : ℚ) < target / factor + 1 := Nat.ceil_lt_add_one (by positivity)
  refine ⟨⌈(target : ℚ) / factor⌉₊, Nat.ceil_pos.mpr (by positivity), Nat.ceil_le.mpr ((div_le_iff₀ hpos).mpr hreach),
    Nat.le_floor ((div_le_iff₀ hpos).mp hceil), ?_⟩
  refine Nat.floor_le_of_le ?_
  push_cast
  calc (⌈(target : ℚ) / factor⌉₊ : ℚ) * factor
      ≤ (target / factor + 1) * factor := mul_le_mul_of_nonneg_right hceil'.le hpos.le
    _ = target + factor := by field_simp
    _ ≤ target + 2002 := by linarith

/-- On the way to a concurrency whose requirement wraps in the comparison, one requires almost as much and does not. -/
def NearWrap (need : ℕ → ℕ) (c : ℕ) : Prop :=
  2 ^ 64 ≤ 80 * need c → ∃ c', 1 ≤ c' ∧ c' ≤ c ∧ 2 ^ 64 ≤ 80 * need c' + 2 ^ 18 ∧ 80 * need c' < 2 ^ 64

theorem nearWrap_descriptors (c : ℕ) : NearWrap (fun c => c * 2 + 1024) c := by
  simp only [NearWrap]
  intro hwraps
  obtain ⟨c', hc'⟩ : ∃ c', c' = 115292150460684000 := ⟨_, rfl⟩
  exact ⟨c', by omega, by omega, by rw [hc']; norm_num, by rw [hc']; norm_num⟩

theorem nearWrap_product {factor : ℚ} {k : ℕ} (hpos : 0 < factor) (hle : factor ≤ 2002) (hk : k ≤ 8192) (c : ℕ) :
    NearWrap (fun c => ⌊c * factor⌋₊ + k) c := by
  simp only [NearWrap]
  intro hwraps
  obtain ⟨c', hpos', hle', hlow, hhigh⟩ :=
    exists_floor_near (c := c) hpos hle (230584300921367393 - k) (by omega) (by omega)
  exact ⟨c', hpos', hle', by omega, by omega⟩

/-- A check whose wrapped requirement decides blocks below, where the requirement is not wrapped yet. -/
theorem noWrap_of_meets {current : UInt64} (need : ℕ → ℕ) {c : ℕ} (hordinary : IsOrdinary current)
    (hnear : NearWrap need c)
    (hmeets : ∀ c', 1 ≤ c' → c' ≤ c → need c' < 2 ^ 64 → Meets false current (UInt64.ofNat (need c'))) :
    NoWrap current (need c) := by
  rcases hordinary with hunlimited | hlimit
  · exact .inl hunlimited
  · by_cases hwraps : 80 * need c < 2 ^ 64
    · exact .inr (.inr hwraps)
    · obtain ⟨c', hpos, hle, hlow, hhigh⟩ := hnear (by omega)
      exact absurd (hmeets c' hpos hle (by omega)) (not_meets_of_near hlimit hlow hhigh)

theorem toNat_saturate_of_add {x k : ℕ} (h : x + k < 2 ^ 64) : (saturate x).toNat = x := by
  rw [toNat_saturate]
  omega

/-- On ordinary limits, a concurrency that passes as all smaller ones do does not owe it to a wrap. -/
theorem noWrap_of_monotone {limits : Limits} {m : ℚ} (hm₀ : 0 ≤ m) (hm : m ≤ 1000) {c : ℕ}
    (hordinary : limits.Compared (fun limit _ => IsOrdinary limit) m c)
    (hall : ∀ c', 1 ≤ c' → c' ≤ c → sustains false limits m c' = some true) : limits.Compared NoWrap m c := by
  have hchecks : ∀ c', 1 ≤ c' → c' ≤ c → ChecksHold (· ≠ .blocking) false limits m c' :=
    fun c' hpos hle => sustains_eq_some_iff.mp (hall c' hpos hle)
  refine ⟨?_, fun x hx => ?_, fun x hx => ?_, fun first last hrange => ?_⟩
  · exact noWrap_of_meets (fun c => c * 2 + 1024) hordinary.files (nearWrap_descriptors c) fun c' hpos hle hlt =>
      meets_of_limitCheck (computes_descriptors false c') hlt (hchecks c' hpos hle).files
  · exact noWrap_of_meets (fun c => c * 2 + 1024) (hordinary.perProc x hx) (nearWrap_descriptors c)
      fun c' hpos hle hlt =>
        meets_of_limitCheck (computes_descriptors false c') hlt ((hchecks c' hpos hle).perProc x hx)
  · refine noWrap_of_meets (fun c => ⌊c * (2 + m * 2)⌋₊ + 8192) (hordinary.kernel x hx)
      (nearWrap_product (by linarith) (by linarith) le_rfl c) fun c' hpos hle hlt => ?_
    have hsockets : (totalSockets c' m).toNat = ⌊c' * (2 + m * 2)⌋₊ := toNat_saturate_of_add hlt
    have hcheck := meets_of_limitCheck (Computes.u64 false _) (by rwa [hsockets]) ((hchecks c' hpos hle).kernel x hx)
    rwa [hsockets] at hcheck
  · refine noWrap_of_meets (fun c => ⌊c * (1 + m)⌋₊ + 4096) (hordinary.ports first last hrange)
      (nearWrap_product (by linarith) (by linarith) (by norm_num) c) fun c' hpos hle hlt => ?_
    have hneeded : (ephemeralNeeded c' m).toNat = ⌊c' * (1 + m)⌋₊ := toNat_saturate_of_add hlt
    obtain ⟨available, _, _, havailable, hlimit⟩ := ((hchecks c' hpos hle).ports first last hrange).ports
    rw [availablePorts, u64_unchecked, Option.some_inj] at havailable
    have hcheck := meets_of_limitCheck (Computes.u64 false _) (by rwa [hneeded]) hlimit
    rwa [hneeded, ← havailable] at hcheck

/-- **When the preflight is monotone, and when the search returns the true maximum.**  In a build with overflow checks
the preflight is monotone on every system, and the search panics exactly where the limits overflow.  Without them the
search is always right, and the preflight is monotone below every concurrency at which no wrap decides a check; of the
concurrencies that pass, it is on ordinary limits monotone below no other. -/
theorem max_supported_iff (overflowChecks : Bool) (limits : Limits) (m : ℚ) (hm₀ : 0 ≤ m) (hm : m ≤ 1000) :
    (FindsMaximum overflowChecks limits m ↔ overflowChecks = false ∨ limits.Fits) ∧
      ∀ c, (overflowChecks = true ∨ limits.Compared NoWrap m c → MonotoneAt overflowChecks limits m c) ∧
        (limits.Compared (fun limit _ => IsOrdinary limit) m c → sustains overflowChecks limits m c = some true →
          (MonotoneAt overflowChecks limits m c ↔ overflowChecks = true ∨ limits.Compared NoWrap m c)) := by
  have hmono : ∀ c, overflowChecks = true ∨ limits.Compared NoWrap m c → MonotoneAt overflowChecks limits m c :=
    fun c hexact h c' _ hle => sustains_mono hm₀ hexact hle h
  refine ⟨findsMaximum_iff hm₀ hm, fun c => ⟨hmono c, fun hordinary hpass => ⟨fun h => ?_, hmono c⟩⟩⟩
  cases overflowChecks with
  | true => exact .inl rfl
  | false => exact .inr (noWrap_of_monotone hm₀ hm hordinary (h hpass))

/-- A system without sysctls. -/
def sampleLimits : Limits := ⟨1024, fun _ => none, some (some 32768, some 60999)⟩

theorem isOrdinary_sampleLimits (m : ℚ) (c : ℕ) :
    sampleLimits.Compared (fun limit _ => IsOrdinary limit) m c := by
  refine ⟨.inr (by decide), ?_, ?_, ?_⟩
  · rintro x ⟨⟩
  · rintro x ⟨⟩
  · rintro first last ⟨⟩
    exact .inr (by decide)

theorem max_supported_iff_sample : MonotoneAt false sampleLimits 1 200000 ∧ ¬ MonotoneAt false sampleLimits 1 (2 ^ 63) ∧
    FindsMaximum false sampleLimits 1 ∧ FindsMaximum true sampleLimits 1 := by
  have hfalse := max_supported_iff false sampleLimits 1 (by norm_num) (by norm_num)
  have htrue := max_supported_iff true sampleLimits 1 (by norm_num) (by norm_num)
  refine ⟨(hfalse.2 200000).1 (.inr (noWrap_of_small (by norm_num) le_rfl)), fun hmono => ?_,
    hfalse.1.mpr (.inl rfl), htrue.1.mpr (.inr ⟨?_, ?_⟩)⟩
  · have hpass : sustains false sampleLimits 1 (2 ^ 63) = some true := by decide +kernel
    rcases ((hfalse.2 (2 ^ 63)).2 (isOrdinary_sampleLimits 1 _) hpass).mp hmono with hchecks | hexact
    · cases hchecks
    · have hfiles : NoWrap 1024 (2 ^ 63 * 2 + 1024) := hexact.files
      revert hfiles
      unfold NoWrap
      decide
  · rintro first last ⟨⟩
    decide
  · rintro mslMs ⟨⟩

/-- With no overflow checks, an absurd concurrency is accepted where a smaller one is blocked. -/
theorem absurd_concurrency_accepted :
    sustains false sampleLimits 1 (2 ^ 63) = some true ∧ sustains false sampleLimits 1 100000 = some false ∧
      ¬ MonotoneAt false sampleLimits 1 (2 ^ 63) := by
  have haccepted : sustains false sampleLimits 1 (2 ^ 63) = some true := by decide +kernel
  have hblocked : sustains false sampleLimits 1 100000 = some false := by decide +kernel
  refine ⟨haccepted, hblocked, fun hmono => ?_⟩
  have := hmono haccepted 100000 (by norm_num) (by norm_num)
  rw [hblocked] at this
  exact absurd (Option.some_inj.mp this) (by decide)

end LbProxy.Bench
