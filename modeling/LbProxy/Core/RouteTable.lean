import LbProxy.Lib.PathRouter
import LbProxy.Core.Filter
import LbProxy.Core.Simd
import LbProxy.Core.Target
import Mathlib.Data.List.AList

/-!
# The route table (`route_table.rs`)

The hash maps are association lists with distinct keys, and the URL router of a host is a parameter
(`PathRouter`).  `RouteTableBuilder.add` gives the group of each added route its own cursor cell, the
number of routes added before it; the patterns a route expands to share that group.
-/

namespace LbProxy.Core

open Lib

/-- Longest hostname that is lowercased. -/
def MAX_HOST_LEN : ℕ := 256

/-- A matched routing action. -/
structure RouteAction where
  targetGroup : TargetGroup
  filters : RouteFilters
  routeName : Bytes
  deriving DecidableEq, Repr

/-- How a path pattern from the control plane should be matched. -/
inductive PathMatch where
  | pathPrefix
  | exact
  deriving DecidableEq, Repr

/-- One route as supplied by the control plane. -/
structure RouteSpec where
  hostname : Option Bytes
  path : Bytes
  pathMatch : PathMatch
  endpoints : List BackendEndpoint
  filters : RouteFilters
  routeName : Bytes
  deriving DecidableEq, Repr

/-- The base of a path pattern, and whether one of the prefix shorthands was stripped from it. -/
def stripShorthand (path : Bytes) : Bytes × Bool :=
  if path = ascii "/*" then ([47], true)
  else
    match stripSuffix (ascii "/*catchall") path <|> stripSuffix (ascii "/*path") path <|>
        stripSuffix (ascii "/*") path with
    | some stripped => (if stripped = [] then [47] else stripped, true)
    | none => (path, false)

/-- Translate a control-plane path pattern into the router patterns it needs. -/
def expandPattern (path : Bytes) (kind : PathMatch) : List Bytes :=
  let (base, forcedPrefix) := stripShorthand path
  let base := if base = [] then [47] else base
  if kind = .exact ∧ forcedPrefix = false then [base]
  else
    let trimmed := trimEnd 47 base
    if trimmed = [] then [[47], catchAll]
    else [trimmed, trimmed ++ [47], trimmed ++ catchAll]

/-- Where the builder files a route: under an exact host, under a wildcard suffix, or by default. -/
inductive Tier where
  | exact (host : Bytes)
  | wildcard (suffix : Bytes)
  | default
  deriving DecidableEq, Repr

/-- The builder's `match` on the hostname. -/
def tierOf (hostname : Option Bytes) : Tier :=
  match hostname with
  | none => .default
  | some h =>
    if h = ascii "*" then .default
    else if ascii "*." <+: h then .wildcard (lowercase (h.drop 1))
    else .exact (lowercase h)

/-- A hash map keyed by host names. -/
abbrev HostMap (α : Type) := AList fun _ : Bytes => α

/-- The builder that compiles `RouteSpec`s. -/
structure RouteTableBuilder where
  exact : HostMap (List (Bytes × RouteAction))
  wildcard : HostMap (List (Bytes × RouteAction))
  defaultRoutes : List (Bytes × RouteAction)
  routeCount : ℕ

namespace RouteTableBuilder

def new : RouteTableBuilder := ⟨∅, ∅, [], 0⟩

/-- File one pattern of a route. -/
def push (b : RouteTableBuilder) (tier : Tier) (entry : Bytes × RouteAction) : RouteTableBuilder :=
  match tier with
  | .default => { b with defaultRoutes := b.defaultRoutes ++ [entry] }
  | .wildcard suffix =>
    { b with wildcard := b.wildcard.insert suffix ((b.wildcard.lookup suffix).getD [] ++ [entry]) }
  | .exact key => { b with exact := b.exact.insert key ((b.exact.lookup key).getD [] ++ [entry]) }

/-- The action of the route that is added as the `cursor`-th one. -/
def actionOf (cursor : ℕ) (spec : RouteSpec) : RouteAction :=
  ⟨TargetGroup.fromEndpoints cursor spec.endpoints, spec.filters, spec.routeName⟩

/-- Add a fully specified route. -/
def add (b : RouteTableBuilder) (spec : RouteSpec) : RouteTableBuilder :=
  let b' := (expandPattern spec.path spec.pathMatch).foldl
    (fun b pattern => b.push (tierOf spec.hostname) (pattern, actionOf b.routeCount spec)) b
  { b' with routeCount := b'.routeCount + 1 }

end RouteTableBuilder

section Table

variable (m : PathRouter)

/-- A per-host URL router. -/
structure HostRouter where
  router : m.Router RouteAction

/-- The action a path is routed to (`HostRouter::at`). -/
def HostRouter.matchAt (hr : HostRouter m) (path : Bytes) : Option RouteAction :=
  m.matchAt hr.router path

/-- The compiled routing table. -/
structure RouteTable where
  exactHosts : HostMap (HostRouter m)
  wildcardHosts : HostMap (HostRouter m)
  defaultRouter : HostRouter m
  routeCount : ℕ

namespace RouteTableBuilder

/-- Compile the patterns of one host; conflicting patterns are skipped. -/
def compile (routes : List (Bytes × RouteAction)) : HostRouter m := ⟨m.insertAll m.new routes⟩

/-- Compile every host of a map. -/
def compileHosts (hosts : HostMap (List (Bytes × RouteAction))) : HostMap (HostRouter m) :=
  hosts.foldl (fun t host routes => t.insert host (compile m routes)) ∅

/-- Compile into an immutable table. -/
def build (b : RouteTableBuilder) : RouteTable m where
  exactHosts := compileHosts m b.exact
  wildcardHosts := compileHosts m b.wildcard
  defaultRouter := compile m b.defaultRoutes
  routeCount := b.routeCount

/-- The table of a list of specs, added in order. -/
def buildAll (specs : List RouteSpec) : RouteTable m := build m (specs.foldl add new)

end RouteTableBuilder

namespace RouteTable

variable {m}

/-- The wildcard suffixes of a host, most specific first. -/
def wildcardWalk (hosts : HostMap (HostRouter m)) (path : Bytes) (current : Bytes) : Option RouteAction :=
  match _h : findByte 46 current with
  | none => none
  | some dot =>
    let suffix := current.drop dot
    match (hosts.lookup suffix).bind (·.matchAt m path) with
    | some action => some action
    | none => if suffix.length ≤ 1 then none else wildcardWalk hosts path (suffix.drop 1)
termination_by current.length
decreasing_by
  have hle : (current.drop dot).length ≤ current.length := by simp
  have hlt : ¬ (current.drop dot).length ≤ 1 := ‹_›
  rw [List.length_drop]
  omega

/-- The host as the maps are keyed: without its port, lowercased if it fits the stack buffer. -/
def normalizeHost (rawHost : Bytes) : Bytes :=
  let stripped := hostWithoutPort rawHost
  match lowercaseAsciiInto stripped MAX_HOST_LEN with
  | some buf => buf
  | none => stripped

/-- Look up a route for a `Host` header and request path. -/
def lookup (t : RouteTable m) (host : Option Bytes) (path : Bytes) : Option RouteAction :=
  let cleanPath := if path = [] then [47] else path
  let hostHit := host.bind fun rawHost =>
    let normalized := normalizeHost rawHost
    match (t.exactHosts.lookup normalized).bind (·.matchAt m cleanPath) with
    | some action => some action
    | none =>
      if t.wildcardHosts.entries.isEmpty then none
      else wildcardWalk t.wildcardHosts cleanPath normalized
  match hostHit with
  | some action => some action
  | none => t.defaultRouter.matchAt m cleanPath

end RouteTable

end Table

end LbProxy.Core
