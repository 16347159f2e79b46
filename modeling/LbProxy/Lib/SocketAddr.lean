import LbProxy.Lib.Bytes
import Mathlib.Tactic.Common
import Mathlib.Algebra.GroupWithZero.Nat

/-!
# IP and socket addresses as text

The grammar of the standard library: a parser takes a value off the front of the input and returns the rest.

* `readNumber`, `readIpv4`, `readIpv6`, `readPort`, `readScopeId` — the pieces;
* `parseIpAddr`, `parseSocketAddr` — the whole input is an IP address, or one with a port;
* `stopsAt_readIpv4` — reading an IPv4 address does not look past a colon;
* `parseSocketAddr_append` — the text of an IP address with `:port` behind it is a socket address exactly for
  IPv4: an IPv6 address has to be bracketed.
-/

namespace LbProxy.Lib

/-- An IP address. -/
inductive IpAddr where
  | v4 (a b c d : UInt8)
  | v6 (segments : Vector UInt16 8)
  deriving DecidableEq, Repr

def IpAddr.isIpv4 : IpAddr → Bool
  | .v4 .. => true
  | .v6 _ => false

/-- An IP address with a port; an IPv6 one has a scope. -/
inductive SocketAddr where
  | v4 (a b c d : UInt8) (port : UInt16)
  | v6 (segments : Vector UInt16 8) (port : UInt16) (scopeId : UInt32)
  deriving DecidableEq, Repr

/-- The socket address of an IP address and a port. -/
def SocketAddr.new : IpAddr → UInt16 → SocketAddr
  | .v4 a b c d, port => .v4 a b c d port
  | .v6 segments, port => .v6 segments port 0

namespace AddrParser

/-! ## Numbers -/

/-- The value of a digit. -/
def toDigit (radix : ℕ) (b : UInt8) : Option ℕ :=
  let d := if 48 ≤ b ∧ b ≤ 57 then some (b.toNat - 48)
    else if 97 ≤ b ∧ b ≤ 102 then some (b.toNat - 87)
    else if 65 ≤ b ∧ b ≤ 70 then some (b.toNat - 55)
    else none
  d.filter (· < radix)

/-- The value of a row of digits. -/
def digitsIn (radix : ℕ) (s : Bytes) : ℕ := s.foldl (fun n b => radix * n + (toDigit radix b).getD 0) 0

/-- A number below `bound`: all digits there are, at most `maxDigits` of them. -/
def readNumber (radix : ℕ) (maxDigits : Option ℕ) (allowZeroPrefix : Bool) (bound : ℕ) (s : Bytes) :
    Option (ℕ × Bytes) :=
  let digits := s.takeWhile fun b => (toDigit radix b).isSome
  if digits = [] ∨ (∃ m ∈ maxDigits, m < digits.length) ∨
      (allowZeroPrefix = false ∧ digits.head? = some 48 ∧ 1 < digits.length) ∨ bound ≤ digitsIn radix digits then none
  else some (digitsIn radix digits, s.dropWhile fun b => (toDigit radix b).isSome)

/-- A given byte. -/
def readGivenChar (c : UInt8) : Bytes → Option Bytes
  | [] => none
  | b :: s => if b = c then some s else none

/-- The separator, except before the first piece. -/
def readSeparator (sep : UInt8) (first : Bool) (s : Bytes) : Option Bytes :=
  if first then some s else readGivenChar sep s

/-! ## Addresses -/

/-- An IPv4 address: four numbers below 256 without a leading zero. -/
def readIpv4 (s : Bytes) : Option ((UInt8 × UInt8 × UInt8 × UInt8) × Bytes) := do
  let (a, s) ← readNumber 10 (some 3) false 256 s
  let s ← readGivenChar 46 s
  let (b, s) ← readNumber 10 (some 3) false 256 s
  let s ← readGivenChar 46 s
  let (c, s) ← readNumber 10 (some 3) false 256 s
  let s ← readGivenChar 46 s
  let (d, s) ← readNumber 10 (some 3) false 256 s
  return ((UInt8.ofNat a, UInt8.ofNat b, UInt8.ofNat c, UInt8.ofNat d), s)

/-- Up to `limit` groups of an IPv6 address, perhaps with an IPv4 address in place of the last two; whether there was
one. -/
def readGroups : (limit : ℕ) → (first : Bool) → Bytes → List UInt16 × Bool × Bytes
  | 0, _, s => ([], false, s)
  | n + 1, first, s =>
    match if n = 0 then none else (readSeparator 58 first s).bind readIpv4 with
    | some ((a, b, c, d), rest) => ([a.toUInt16 * 256 + b.toUInt16, c.toUInt16 * 256 + d.toUInt16], true, rest)
    | none =>
      match (readSeparator 58 first s).bind (readNumber 16 (some 4) true 65536) with
      | some (g, rest) =>
        let (groups, ipv4, rest) := readGroups n false rest
        (UInt16.ofNat g :: groups, ipv4, rest)
      | none => ([], false, s)

/-- The groups in front of `::` and behind it, with zeros between. -/
def joinGroups (head tail : List UInt16) : Vector UInt16 8 :=
  Vector.ofFn fun i : Fin 8 =>
    if 8 - tail.length ≤ i.val then tail.getD (i.val - (8 - tail.length)) 0 else head.getD i.val 0

/-- An IPv6 address. -/
def readIpv6 (s : Bytes) : Option (Vector UInt16 8 × Bytes) :=
  let (head, ipv4, rest) := readGroups 8 true s
  if head.length = 8 then some (joinGroups head [], rest)
  else if ipv4 then none
  else do
    let rest ← readGivenChar 58 rest
    let rest ← readGivenChar 58 rest
    let (tail, _, rest) := readGroups (8 - (head.length + 1)) true rest
    return (joinGroups head tail, rest)

def readIpAddr (s : Bytes) : Option (IpAddr × Bytes) :=
  match readIpv4 s with
  | some ((a, b, c, d), rest) => some (.v4 a b c d, rest)
  | none => (readIpv6 s).map fun x => (.v6 x.1, x.2)

def readPort (s : Bytes) : Option (ℕ × Bytes) :=
  (readGivenChar 58 s).bind (readNumber 10 none true 65536)

def readScopeId (s : Bytes) : Option (ℕ × Bytes) :=
  (readGivenChar 37 s).bind (readNumber 10 none true (2 ^ 32))

def readSocketAddrV4 (s : Bytes) : Option (SocketAddr × Bytes) := do
  let ((a, b, c, d), s) ← readIpv4 s
  let (port, s) ← readPort s
  return (.v4 a b c d (UInt16.ofNat port), s)

/-- An IPv6 address in brackets, perhaps with a scope, and a port. -/
def readSocketAddrV6 (s : Bytes) : Option (SocketAddr × Bytes) := do
  let s ← readGivenChar 91 s
  let (segments, s) ← readIpv6 s
  let (scopeId, s) := (readScopeId s).getD (0, s)
  let s ← readGivenChar 93 s
  let (port, s) ← readPort s
  return (.v6 segments (UInt16.ofNat port) (UInt32.ofNat scopeId), s)

def readSocketAddr (s : Bytes) : Option (SocketAddr × Bytes) :=
  match readSocketAddrV4 s with
  | some x => some x
  | none => readSocketAddrV6 s

/-- The value, if the parser took the whole input. -/
def parseWith {α : Type} (read : Bytes → Option (α × Bytes)) (s : Bytes) : Option α :=
  (read s).bind fun x => if x.2 = [] then some x.1 else none

end AddrParser

open AddrParser

/-- `IpAddr::from_str`. -/
def parseIpAddr (s : Bytes) : Option IpAddr := parseWith readIpAddr s

/-- `SocketAddr::from_str`. -/
def parseSocketAddr (s : Bytes) : Option SocketAddr := parseWith readSocketAddr s

example : (parseIpAddr (ascii "::ffff:1.2.3.4")).isSome = true := by decide +kernel

/-! ## Reading stops at a colon -/

namespace AddrParser

theorem takeWhile_append_stop {p : UInt8 → Bool} {c : UInt8} (hc : p c = false) (t v : Bytes) :
    (t ++ c :: v).takeWhile p = t.takeWhile p ∧ (t ++ c :: v).dropWhile p = t.dropWhile p ++ c :: v := by
  induction t with
  | nil => simp [hc]
  | cons b t ih =>
    rw [List.cons_append, List.takeWhile_cons, List.dropWhile_cons, List.takeWhile_cons, List.dropWhile_cons, ih.1,
      ih.2]
    cases p b <;> simp

/-- The parser stops before `c`, whatever stands behind it. -/
def StopsAt {α : Type} (c : UInt8) (read : Bytes → Option (α × Bytes)) : Prop :=
  ∀ t v, read (t ++ c :: v) = (read t).map fun x => (x.1, x.2 ++ c :: v)

section Stops

variable {α β : Type} {c : UInt8}

theorem StopsAt.pure (a : α) : StopsAt c fun s => some (a, s) := fun _ _ => rfl

theorem StopsAt.bind {read : Bytes → Option (α × Bytes)} {next : α → Bytes → Option (β × Bytes)} (hread : StopsAt c read)
    (hnext : ∀ a, StopsAt c (next a)) : StopsAt c fun s => (read s).bind fun x => next x.1 x.2 := by
  intro t v
  simp only
  rw [hread t v]
  cases read t with
  | none => rfl
  | some x => exact hnext x.1 x.2 v

theorem StopsAt.givenChar {sep : UInt8} (hsep : c ≠ sep) {next : Bytes → Option (α × Bytes)} (hnext : StopsAt c next) :
    StopsAt c fun s => (readGivenChar sep s).bind next := by
  intro t v
  cases t with
  | nil => simp [readGivenChar, hsep]
  | cons b t =>
    simp only [List.cons_append, readGivenChar]
    by_cases hb : b = sep
    · rw [if_pos hb, if_pos hb]
      exact hnext t v
    · rw [if_neg hb, if_neg hb]
      rfl

theorem stopsAt_readNumber {radix : ℕ} (hc : toDigit radix c = none) (maxDigits : Option ℕ) (zeros : Bool)
    (bound : ℕ) : StopsAt c (readNumber radix maxDigits zeros bound) := by
  intro t v
  obtain ⟨htake, hdrop⟩ := takeWhile_append_stop (p := fun b => (toDigit radix b).isSome) (by rw [hc]; rfl) t v
  simp only [readNumber, htake, hdrop]
  split <;> rfl

/-- **Reading an IPv4 address does not look past a byte that is neither a digit nor a dot.** -/
theorem stopsAt_readIpv4 (hc : toDigit 10 c = none) (hdot : c ≠ 46) : StopsAt c readIpv4 := by
  have hnumber := stopsAt_readNumber hc (some 3) false 256
  exact hnumber.bind fun a => .givenChar hdot <| hnumber.bind fun b => .givenChar hdot <|
    hnumber.bind fun c => .givenChar hdot <| hnumber.bind fun d =>
      .pure (UInt8.ofNat a, UInt8.ofNat b, UInt8.ofNat c, UInt8.ofNat d)

end Stops

theorem readNumber_eq_none {radix : ℕ} {b : UInt8} (hb : toDigit radix b = none) (maxDigits : Option ℕ) (zeros : Bool)
    (bound : ℕ) (s : Bytes) : readNumber radix maxDigits zeros bound (b :: s) = none := by
  simp [readNumber, hb]

theorem readIpv6_bracket (s : Bytes) : readIpv6 (91 :: s) = none := by
  have hten : readNumber 10 (some 3) false 256 (91 :: s) = none := readNumber_eq_none (by decide) _ _ _ _
  have hhex : readNumber 16 (some 4) true 65536 (91 :: s) = none := readNumber_eq_none (by decide) _ _ _ _
  have hv4 : readIpv4 (91 :: s) = none := by rw [readIpv4, hten]; rfl
  have hgroups : readGroups 8 true (91 :: s) = ([], false, 91 :: s) := by
    simp [readGroups, readSeparator, hv4, hhex]
  simp [readIpv6, hgroups, readGivenChar]

end AddrParser

/-- **The text of an IP address with a port behind it** is a socket address for IPv4 only: without brackets the port
of an IPv6 address cannot be told from its groups. -/
theorem parseSocketAddr_append {t p : Bytes} {ip : IpAddr} {port : ℕ} (hip : parseIpAddr t = some ip)
    (hport : readNumber 10 none true 65536 p = some (port, [])) :
    parseSocketAddr (t ++ 58 :: p) = if ip.isIpv4 then some (.new ip (UInt16.ofNat port)) else none := by
  have hread : readPort (58 :: p) = some (port, []) := by
    rw [readPort, readGivenChar, if_pos rfl]
    exact hport
  have hstop : readIpv4 (t ++ 58 :: p) = (readIpv4 t).map fun x => (x.1, x.2 ++ 58 :: p) :=
    stopsAt_readIpv4 (by decide) (by decide) t p
  unfold parseIpAddr parseWith readIpAddr at hip
  unfold parseSocketAddr parseWith readSocketAddr readSocketAddrV4
  rw [hstop]
  cases hv4 : readIpv4 t with
  | some x =>
    obtain ⟨⟨a, b, c, d⟩, rest⟩ := x
    simp only [hv4, Option.bind_some] at hip
    split at hip
    · rename_i hrest
      subst hrest
      obtain rfl := Option.some.inj hip
      simp [hread, SocketAddr.new, IpAddr.isIpv4]
    · cases hip
  | none =>
    simp only [hv4] at hip
    cases hv6 : readIpv6 t with
    | none => simp [hv6] at hip
    | some x =>
      obtain ⟨segments, rest⟩ := x
      simp only [hv6, Option.map_some, Option.bind_some] at hip
      split at hip
      · obtain rfl := Option.some.inj hip
        have hhead : readGivenChar 91 (t ++ 58 :: p) = none := by
          cases t with
          | nil => rfl
          | cons b t =>
            rw [List.cons_append, readGivenChar]
            refine if_neg ?_
            rintro rfl
            rw [readIpv6_bracket] at hv6
            cases hv6
        simp [readSocketAddrV6, hhead, IpAddr.isIpv4]
      · cases hip

end LbProxy.Lib
