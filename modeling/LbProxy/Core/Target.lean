import LbProxy.Lib.Bytes
import Mathlib.Algebra.GroupWithZero.Nat
import Mathlib.Algebra.Ring.Int.Defs

/-!
# Upstream endpoints and load-balancing policy (`target.rs`)

A `TargetGroup` points to a shared policy and to a shared cursor.  The cursor is an atomic counter, so
a group only names its cell (`cursor`), and `select` takes the ticket that a `fetch_add` on that cell
returned.  The floating-point scaling of the weights is carried out in exact arithmetic.
-/

namespace LbProxy.Core

open Lib

/-- Cap on the pre-expanded weighted-selection table. -/
def MAX_WEIGHT_TABLE : ℕ := 4096

/-- A single upstream destination backend. -/
structure BackendEndpoint where
  address : Bytes
  weight : ℕ
  deriving DecidableEq, Repr

/-- The load-balancing policies. -/
inductive Policy where
  | single (endpoint : BackendEndpoint)
  | roundRobin (endpoints : List BackendEndpoint)
  | weighted (endpoints : List BackendEndpoint) (table : List ℕ)
  deriving DecidableEq, Repr

/-- A policy and the cell that holds its cursor; clones share both. -/
structure TargetGroup where
  policy : Policy
  cursor : ℕ
  deriving DecidableEq, Repr

namespace TargetGroup

/-- Divide and round half away from zero, at least `1`: the slots of a weight once the table is
scaled down to the cap. -/
def scaledWeight (total w : ℕ) : ℤ :=
  if total > MAX_WEIGHT_TABLE then max 1 (((2 * w * MAX_WEIGHT_TABLE + total) / (2 * total) : ℕ) : ℤ)
  else max 1 (w : ℤ)

/-- The inner loop of a round: every credit grows by its weight, and `best` is the first index whose
credit is the greatest so far. -/
def creditLoop (scaled : List ℤ) (current : List ℤ) : List ℤ × ℕ :=
  (List.range current.length).foldl
    (fun (s : List ℤ × ℕ) i =>
      let cur := s.1.set i (s.1.getD i 0 + scaled.getD i 0)
      if cur.getD i 0 > cur.getD s.2 0 then (cur, i) else (cur, s.2))
    (current, 0)

/-- One round: bump the credits, charge the winner the total, and emit its index. -/
def weightRound (scaled : List ℤ) (total : ℤ) (current : List ℤ) : List ℤ × ℕ :=
  let (cur, best) := creditLoop scaled current
  (cur.set best (cur.getD best 0 - total), if best < 2 ^ 16 then best else 0)

/-- `n` rounds from the credits `current`. -/
def weightRounds (scaled : List ℤ) (total : ℤ) : ℕ → List ℤ → List ℕ
  | 0, _ => []
  | n + 1, current =>
    let (cur, slot) := weightRound scaled total current
    slot :: weightRounds scaled total n cur

/-- Flatten weights into an interleaved index table (smooth weighted round robin). -/
def expandWeights (endpoints : List BackendEndpoint) : List ℕ :=
  let total := (endpoints.map (·.weight)).sum
  let scaled := endpoints.map fun e => scaledWeight total e.weight
  weightRounds scaled scaled.sum scaled.sum.toNat (endpoints.map fun _ => 0)

/-- Every two neighbours carry the same weight. -/
def uniform : List BackendEndpoint → Bool
  | a :: b :: l => a.weight == b.weight && uniform (b :: l)
  | _ => true

/-- The policy for a list of endpoints; weight `0` means "receive no traffic". -/
def policyOf (endpoints : List BackendEndpoint) : Policy :=
  match endpoints.filter (·.weight > 0) with
  | [] => .single ⟨ascii "127.0.0.1:80", 1⟩
  | [e] => .single e
  | eps => if uniform eps then .roundRobin eps else .weighted eps (expandWeights eps)

/-- Build a group over the fresh cursor cell `cursor`. -/
def fromEndpoints (cursor : ℕ) (endpoints : List BackendEndpoint) : TargetGroup :=
  ⟨policyOf endpoints, cursor⟩

/-- Select with the ticket that `fetch_add` returned; `none` would be an index out of bounds. -/
def select (g : TargetGroup) (ticket : ℕ) : Option BackendEndpoint :=
  match g.policy with
  | .single ep => some ep
  | .roundRobin eps => eps[ticket % eps.length]?
  | .weighted eps table => table[ticket % table.length]?.bind fun slot => eps[slot]?

/-- All endpoints in the group, in configuration order. -/
def endpoints (g : TargetGroup) : List BackendEndpoint :=
  match g.policy with
  | .single ep => [ep]
  | .roundRobin eps => eps
  | .weighted eps _ => eps

end TargetGroup

end LbProxy.Core
