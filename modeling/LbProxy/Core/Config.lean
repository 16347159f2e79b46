import LbProxy.Core.Soundness
import LbProxy.Core.Balancer
import LbProxy.Core.Smoothness

/-!
# Standalone route configuration (`config.rs`)

A proxy without a control plane compiles its table from a list of entries.

* `select_total` — a selection never indexes out of bounds, for any number of backends and any weights;
* `config_serves` — a compiled table answers a request exactly if an entry is for it, and then with the name, the
  filters and the backends of such an entry; without a configuration every origin-form path goes to the one upstream.
-/

namespace LbProxy.Core

open Lib RouteTableBuilder TargetGroup

/-! ## The configuration -/

/-- How the path of an entry is matched. -/
inductive PathType where
  | pathPrefix
  | exact
  deriving DecidableEq, Repr

/-- `From<PathType> for PathMatch`. -/
def PathType.toPathMatch : PathType → PathMatch
  | .pathPrefix => .pathPrefix
  | .exact => .exact

def defaultPath : Bytes := ascii "/"

def defaultWeight : ℕ := 1

structure BackendEntry where
  address : Bytes
  weight : ℕ := defaultWeight
  deriving DecidableEq, Repr

structure RouteEntry where
  name : Bytes
  hostname : Option Bytes := none
  path : Bytes := defaultPath
  pathType : PathType := .pathPrefix
  backends : List BackendEntry
  requestHeaders : List HeaderModifier := []
  responseHeaders : List HeaderModifier := []
  rewrite : Option UrlRewrite := none
  deriving DecidableEq, Repr

/-- The route configuration of standalone mode. -/
structure RouteConfig where
  routes : List RouteEntry := []
  deriving DecidableEq, Repr

namespace RouteEntry

/-- The endpoints of an entry, one for each backend. -/
def endpoints (entry : RouteEntry) : List BackendEndpoint := entry.backends.map fun b => ⟨b.address, b.weight⟩

variable (ht : HeaderTypes)

def filters (entry : RouteEntry) : RouteFilters :=
  RouteFilters.new ht entry.requestHeaders entry.responseHeaders entry.rewrite

/-- The spec that an entry is added as. -/
def spec (entry : RouteEntry) : RouteSpec where
  hostname := entry.hostname
  path := entry.path
  pathMatch := entry.pathType.toPathMatch
  endpoints := entry.endpoints
  filters := entry.filters ht
  routeName := entry.name

end RouteEntry

namespace RouteConfig

/-- Compile into a table. -/
def compile (ht : HeaderTypes) (m : PathRouter) (config : RouteConfig) : RouteTable m :=
  buildAll m (config.routes.map (·.spec ht))

/-- A single catch-all route to `upstream`. -/
def singleUpstream (upstream : Bytes) : RouteConfig where
  routes := [{
    name := ascii "default-catchall"
    hostname := none
    path := ascii "/"
    pathType := .pathPrefix
    backends := [⟨upstream, 1⟩]
    requestHeaders := []
    responseHeaders := []
    rewrite := none }]

end RouteConfig

/-! ## A selection never indexes out of bounds -/

namespace TargetGroup

/-- The charged slot is an index of the credits, also where it does not fit the table's integers. -/
theorem weightRound_lt (scaled : List ℤ) (total : ℤ) {current : List ℤ} (hpos : 0 < current.length) :
    (weightRound scaled total current).1.length = current.length ∧
      (weightRound scaled total current).2 < current.length := by
  have inv := creditLoop_spec scaled current
  unfold weightRound
  generalize creditLoop scaled current = s at inv
  obtain ⟨cur, best⟩ := s
  have hlen : cur.length = current.length := inv.length
  have hbest : best < max current.length 1 := inv.best_le
  simp only
  refine ⟨by rw [List.length_set, hlen], ?_⟩
  split
  · omega
  · exact hpos

theorem weightRounds_lt (scaled : List ℤ) (total : ℤ) {current : List ℤ} (hpos : 0 < current.length) (n : ℕ) :
    ∀ slot ∈ weightRounds scaled total n current, slot < current.length := by
  induction n generalizing current with
  | zero => simp [weightRounds]
  | succ n ih =>
    obtain ⟨hlen, hslot⟩ := weightRound_lt scaled total hpos
    intro slot hmem
    rw [weightRounds] at hmem
    rcases List.mem_cons.mp hmem with rfl | hmem
    · exact hslot
    · have hpos' : 0 < (weightRound scaled total current).1.length := hlen.symm ▸ hpos
      have hlt := ih hpos' slot hmem
      rwa [hlen] at hlt

theorem expandWeights_ne_nil {eps : List BackendEndpoint} (hne : eps ≠ []) : expandWeights eps ≠ [] := by
  have hscaled : ∀ w ∈ eps.map fun e => scaledWeight (eps.map (·.weight)).sum e.weight, 0 < w := by
    simpa using fun e _ => scaledWeight_pos _ _
  have hlen := length_le_sum hscaled
  have hpos := List.length_pos_iff.mpr hne
  rw [List.length_map] at hlen
  rw [expandWeights_eq_smoothTable, ← List.length_pos_iff, length_smoothTable]
  omega

theorem expandWeights_lt {eps : List BackendEndpoint} (hne : eps ≠ []) :
    ∀ slot ∈ expandWeights eps, slot < eps.length := by
  intro slot hslot
  rw [expandWeights_eq_smoothTable] at hslot
  have hlt := weightRounds_lt _ _ (by simpa using List.length_pos_iff.mpr hne) _ slot hslot
  rwa [List.length_map, List.length_map] at hlt

theorem cycle_lt {endpoints : List BackendEndpoint} (cursor : ℕ) (hne : live endpoints ≠ []) :
    (fromEndpoints cursor endpoints).cycle ≠ [] ∧
      ∀ slot ∈ (fromEndpoints cursor endpoints).cycle, slot < (live endpoints).length := by
  unfold fromEndpoints policyOf
  have hlive : endpoints.filter (·.weight > 0) = live endpoints := rfl
  rw [hlive]
  generalize live endpoints = eps at hne
  match eps, hne with
  | [e], _ => simp [cycle]
  | a :: b :: l, hne =>
    simp only
    by_cases hu : uniform (a :: b :: l) = true
    · rw [if_pos hu]
      simp [cycle]
    · rw [if_neg hu]
      exact ⟨expandWeights_ne_nil hne, expandWeights_lt hne⟩

/-- **A selection never indexes out of bounds.**  Whatever the endpoints and their weights are, every ticket selects
a live endpoint, or the placeholder if there is none. -/
theorem select_total (endpoints : List BackendEndpoint) (cursor ticket : ℕ) :
    ∃ e, (fromEndpoints cursor endpoints).select ticket = some e ∧
      (e ∈ live endpoints ∨ live endpoints = [] ∧ e = ⟨ascii "127.0.0.1:80", 1⟩) := by
  by_cases hnil : live endpoints = []
  · exact ⟨_, select_of_live_eq_nil hnil cursor ticket, Or.inr ⟨hnil, rfl⟩⟩
  obtain ⟨hne, hlt⟩ := cycle_lt cursor hnil
  have hcycle := List.length_pos_iff.mpr hne
  obtain ⟨slot, hslot⟩ : ∃ slot, cyclic (fromEndpoints cursor endpoints).cycle ticket = some slot := by
    unfold cyclic
    exact ⟨_, List.getElem?_eq_getElem (Nat.mod_lt _ hcycle)⟩
  have hin := hlt slot (List.mem_of_getElem? hslot)
  refine ⟨(live endpoints)[slot], ?_, Or.inl (List.getElem_mem hin)⟩
  rw [select_eq, hslot, endpoints_fromEndpoints cursor hnil]
  exact List.getElem?_eq_getElem hin

end TargetGroup

/-! ## What a compiled configuration answers -/

/-- The entry is for the request: its hostname, if it has one, serves the host, and its match covers the path. -/
structure RouteEntry.ServesRequest (entry : RouteEntry) (host : Option Bytes) (q : Bytes) : Prop where
  host : HostServed entry.hostname.toList host
  path : MatchCovers (entry.path, entry.pathType.toPathMatch) q

theorem hostServed_toList {hostname host : Option Bytes} :
    tierOf hostname ∈ hostTiers host ↔ HostServed hostname.toList host := by
  cases hostname with
  | none =>
    have hdefault : tierOf none ∈ hostTiers host := by
      unfold hostTiers tiersOf
      cases host <;> simp [tierOf]
    simp [HostServed, hdefault]
  | some hostname =>
    rw [tierOf_mem_hostTiers, HostServed]
    simp [eq_comm]

namespace RouteConfig

/-- The backend has traffic, and is the endpoint. -/
def Offers (entry : RouteEntry) (e : BackendEndpoint) : Prop :=
  ⟨e.address, e.weight⟩ ∈ entry.backends ∧ 0 < e.weight

theorem mem_live_endpoints {entry : RouteEntry} {e : BackendEndpoint} :
    e ∈ live entry.endpoints ↔ Offers entry e := by
  unfold live RouteEntry.endpoints Offers
  rw [List.mem_filter, List.mem_map]
  constructor
  · rintro ⟨⟨b, hb, rfl⟩, hw⟩
    exact ⟨hb, by simpa using hw⟩
  · rintro ⟨hb, hw⟩
    exact ⟨⟨_, hb, rfl⟩, by simpa using hw⟩

variable {ht : HeaderTypes} {m : PathRouter} (hm : m.Laws)
include hm

/-- Without a configuration every origin-form path goes to the one upstream, whatever the host
is, and no other path is answered. -/
theorem single_upstream_serves (upstream : Bytes) (host : Option Bytes) (path : Bytes) :
    if (orRoot path).head? = some 47 then
      ∃ a, ((singleUpstream upstream).compile ht m).lookup host path = some a ∧
        ∀ ticket, a.targetGroup.select ticket = some ⟨upstream, 1⟩
    else ((singleUpstream upstream).compile ht m).lookup host path = none := by
  have hbrace : ∀ s ∈ (singleUpstream upstream).routes.map (·.spec ht), NoBrace s.path := by
    intro s hs
    obtain rfl := List.mem_singleton.mp hs
    exact (by decide : NoBrace (ascii "/"))
  have hcases := fun tier => tierHit_buildAll_cases hm hbrace tier (orRoot_ne_nil path)
  have hcovers : MatchCovers (ascii "/", .pathPrefix) (orRoot path) ↔ (orRoot path).head? = some 47 := by
    have hbase : base (ascii "/") = [] := by decide
    cases horRoot : orRoot path with
    | nil => exact absurd horRoot (orRoot_ne_nil path)
    | cons b rest => simp [MatchCovers, hbase, eq_comm]
  -- only the default tier has a spec
  have hmiss : ∀ tier, tier ≠ .default → ((singleUpstream upstream).compile ht m).tierHit (orRoot path) tier = none := by
    intro tier hne
    rcases hcases tier with ⟨k, s, hat, htier, -⟩ | ⟨hnone, -⟩
    · obtain rfl : s = _ := List.mem_singleton.mp (List.mem_of_getElem? hat)
      exact absurd htier.symm hne
    · exact hnone
  have hlookup : ((singleUpstream upstream).compile ht m).lookup host path =
      ((singleUpstream upstream).compile ht m).tierHit (orRoot path) .default := by
    rw [lookup_eq_findSome]
    cases host with
    | none => simp [tiersOf, orRoot]
    | some h =>
      have hwild : ((dotSuffixes (RouteTable.normalizeHost h)).map Tier.wildcard).findSome?
          (((singleUpstream upstream).compile ht m).tierHit (orRoot path)) = none := by
        rw [List.findSome?_eq_none_iff]
        intro tier htier
        obtain ⟨x, -, rfl⟩ := List.mem_map.mp htier
        exact hmiss _ (by simp)
      simp [tiersOf, ← orRoot.eq_1, hmiss, hwild]
  rw [hlookup]
  split
  · rename_i hhead
    rcases hcases .default with ⟨k, s, hat, -, -, hhit⟩ | ⟨-, hno⟩
    · obtain rfl : s = _ := List.mem_singleton.mp (List.mem_of_getElem? hat)
      exact ⟨_, hhit, fun ticket => rfl⟩
    · exact absurd (hcovers.mpr hhead) (hno _ (List.mem_singleton.mpr rfl) rfl)
  · rename_i hhead
    rcases hcases .default with ⟨k, s, hat, -, hcov, -⟩ | ⟨hnone, -⟩
    · obtain rfl : s = _ := List.mem_singleton.mp (List.mem_of_getElem? hat)
      exact absurd (hcovers.mp hcov) hhead
    · exact hnone

/-- **A compiled configuration is sound and complete.**  For paths without braces and a host that fits the buffer (or
none), an answer has the name and the filters of an entry that is for the request, every ticket selects a backend of
that entry with positive weight, or the placeholder if the entry has none; and there is no answer exactly if no entry is
for the request.  The configuration of a single upstream sends every origin-form path to it, and answers no other. -/
theorem config_serves (config : RouteConfig) (hb : ∀ entry ∈ config.routes, NoBrace entry.path) (host : Option Bytes)
    (hhost : ∀ h ∈ host, (hostWithoutPort h).length ≤ MAX_HOST_LEN) (path : Bytes) :
    (∀ a, (config.compile ht m).lookup host path = some a →
      ∃ entry ∈ config.routes, entry.ServesRequest host (orRoot path) ∧ a.routeName = entry.name ∧
        a.filters = entry.filters ht ∧ ∀ ticket, ∃ e, a.targetGroup.select ticket = some e ∧
          (Offers entry e ∨ (∀ e', ¬ Offers entry e') ∧ e = ⟨ascii "127.0.0.1:80", 1⟩)) ∧
    ((config.compile ht m).lookup host path = none ↔
      ∀ entry ∈ config.routes, ¬ entry.ServesRequest host (orRoot path)) ∧
    ∀ upstream, config = singleUpstream upstream →
      if (orRoot path).head? = some 47 then
        ∃ a, (config.compile ht m).lookup host path = some a ∧ ∀ ticket, a.targetGroup.select ticket = some ⟨upstream, 1⟩
      else (config.compile ht m).lookup host path = none := by
  have hq := orRoot_ne_nil path
  have hbrace : ∀ s ∈ config.routes.map (·.spec ht), NoBrace s.path := by
    intro s hs
    obtain ⟨entry, hentry, rfl⟩ := List.mem_map.mp hs
    exact hb entry hentry
  have hlookup : (config.compile ht m).lookup host path =
      (hostTiers host).findSome? ((config.compile ht m).tierHit (orRoot path)) := lookup_eq_hostTiers _ hhost path
  have hcases := fun tier => tierHit_buildAll_cases hm hbrace tier hq
  refine ⟨fun a h => ?_, ?_, ?_⟩
  · rw [hlookup] at h
    obtain ⟨tier, htier, hhit⟩ := List.exists_of_findSome?_eq_some h
    rcases hcases tier with ⟨k, s, hat, hs, hcov, heq⟩ | ⟨hnone, -⟩
    · rw [compile, heq] at hhit
      obtain rfl := Option.some.inj hhit
      obtain ⟨entry, hentry, rfl⟩ := List.mem_map.mp (List.mem_of_getElem? hat)
      refine ⟨entry, hentry, ⟨hostServed_toList.mp (hs ▸ htier), hcov⟩, rfl, rfl, fun ticket => ?_⟩
      obtain ⟨e, hselect, he | ⟨hnil, he⟩⟩ := select_total entry.endpoints k ticket
      · exact ⟨e, hselect, Or.inl (mem_live_endpoints.mp he)⟩
      · refine ⟨e, hselect, Or.inr ⟨fun e' he' => ?_, he⟩⟩
        have hmem := mem_live_endpoints.mpr he'
        rw [hnil] at hmem
        cases hmem
    · rw [compile, hnone] at hhit
      cases hhit
  · rw [hlookup, List.findSome?_eq_none_iff]
    constructor
    · intro hmiss entry hentry hserves
      have htier := hmiss (tierOf entry.hostname) (hostServed_toList.mpr hserves.host)
      rcases hcases (tierOf entry.hostname) with ⟨k, s, -, -, -, hhit⟩ | ⟨-, hno⟩
      · rw [compile, hhit] at htier
        cases htier
      · exact hno _ (List.mem_map.mpr ⟨entry, hentry, rfl⟩) rfl hserves.path
    · intro hno tier htier
      rcases hcases tier with ⟨k, s, hat, hs, hcov, -⟩ | ⟨hnone, -⟩
      · obtain ⟨entry, hentry, rfl⟩ := List.mem_map.mp (List.mem_of_getElem? hat)
        exact absurd ⟨hostServed_toList.mp (hs ▸ htier), hcov⟩ (hno entry hentry)
      · exact hnone
  · rintro upstream rfl
    exact single_upstream_serves hm upstream host path

omit hm

/-- A weighted prefix route of one host, and an exact route of every host. -/
def sampleConfig : RouteConfig where
  routes := [
    { name := ascii "api-v1"
      hostname := some (ascii "api.example.com")
      path := ascii "/v1"
      backends := [⟨ascii "10.0.0.1:8080", 3⟩, { address := ascii "10.0.0.2:8080" }]
      requestHeaders := [.set (ascii "x-gateway") (ascii "lb")]
      rewrite := some (.replacePrefix (ascii "/v1") (ascii "/internal")) },
    { name := ascii "health"
      path := ascii "/healthz"
      pathType := .exact
      backends := [{ address := ascii "127.0.0.1:9090" }] }]

/-- The exact route answers its path and nothing below it. -/
theorem config_serves_sample :
    ((sampleConfig.compile HeaderTypes.reference PathRouter.reference).lookup none (ascii "/healthz")).isSome = true ∧
      (sampleConfig.compile HeaderTypes.reference PathRouter.reference).lookup none (ascii "/healthz/sub") = none := by
  have hserves := @config_serves HeaderTypes.reference _ PathRouter.reference_laws sampleConfig (by decide) none (by decide)
  refine ⟨?_, (hserves (ascii "/healthz/sub")).2.1.mpr ?_⟩
  · rw [Option.isSome_iff_ne_none]
    intro hnone
    refine (hserves (ascii "/healthz")).2.1.mp hnone _ (List.mem_cons_of_mem _ (List.mem_singleton.mpr rfl)) ⟨?_, ?_⟩
    · exact Or.inl rfl
    · decide
  · rintro entry hentry ⟨hhost, hpath⟩
    simp only [sampleConfig, List.mem_cons, List.not_mem_nil, or_false] at hentry
    rcases hentry with rfl | rfl
    · revert hpath
      decide
    · revert hpath
      decide

end RouteConfig

end LbProxy.Core
