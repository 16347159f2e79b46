import LbProxy.Core.RouteTable

/-!
# The Gateway API reconciler (`gateway.rs`)

The wire types, the observed `ClusterState`, its compilation into a route table, and what each watch
event does to the state.  A hash map has no iteration order of its own, so `compile` takes the order in
which `routes.values()` runs.  Wire fields named `namespace` are called `ns`.
-/

namespace LbProxy.Core

open Lib

/-! ## Numbers as text -/

/-- `Display` of an unsigned integer. -/
def displayNat (n : ℕ) : Bytes := (Nat.toDigits 10 n).map fun c => UInt8.ofNat c.toNat

/-- `Display` of a signed integer. -/
def displayInt (i : ℤ) : Bytes := if i < 0 then 45 :: displayNat i.natAbs else displayNat i.natAbs

/-! ## Wire types -/

/-- Controller configuration. -/
structure ControllerConfig where
  gatewayName : Option Bytes
  ns : Option Bytes

structure ParentRef where
  name : Bytes
  ns : Option Bytes
  deriving DecidableEq

structure HttpPathMatch where
  matchType : Option Bytes
  value : Option Bytes
  deriving DecidableEq

structure HttpRouteMatch where
  path : Option HttpPathMatch
  deriving DecidableEq

structure BackendRef where
  name : Bytes
  ns : Option Bytes
  port : Option ℤ
  weight : Option ℤ
  deriving DecidableEq

structure NameValue where
  name : Bytes
  value : Bytes
  deriving DecidableEq

structure HeaderFilter where
  set : List NameValue
  add : List NameValue
  remove : List Bytes
  deriving DecidableEq

structure UrlRewritePath where
  pathType : Bytes
  replacePrefixMatch : Option Bytes
  replaceFullPath : Option Bytes
  deriving DecidableEq

structure UrlRewriteFilter where
  path : Option UrlRewritePath
  deriving DecidableEq

structure HttpRouteFilter where
  filterType : Bytes
  requestHeaderModifier : Option HeaderFilter
  responseHeaderModifier : Option HeaderFilter
  urlRewrite : Option UrlRewriteFilter
  deriving DecidableEq

structure HttpRouteRule where
  routeMatches : List HttpRouteMatch
  backendRefs : List BackendRef
  filters : List HttpRouteFilter
  deriving DecidableEq

structure HttpRouteSpec where
  parentRefs : List ParentRef
  hostnames : List Bytes
  rules : List HttpRouteRule
  deriving DecidableEq

/-- The modifiers of a header filter: sets, then adds, then removes. -/
def HeaderFilter.toModifiers (f : HeaderFilter) : List HeaderModifier :=
  f.set.map (fun nv => .set nv.name nv.value) ++ f.add.map (fun nv => .add nv.name nv.value) ++
    f.remove.map .remove

/-! ## Cluster state -/

/-- Key identifying a Service (or a route) in the cluster: namespace and name. -/
abbrev ServiceKey := Bytes × Bytes

structure StoredRoute where
  ns : Bytes
  name : Bytes
  spec : HttpRouteSpec
  deriving DecidableEq

structure ReadyEndpoint where
  address : Bytes
  port : ℤ
  deriving DecidableEq, Repr

/-- The observed cluster state. -/
structure ClusterState where
  routes : AList fun _ : ServiceKey => StoredRoute
  endpoints : AList fun _ : ServiceKey => List ReadyEndpoint

/-- The stored routes, in one order of iteration. -/
def ClusterState.values (st : ClusterState) : List StoredRoute := st.routes.entries.map (·.2)

namespace ClusterState

/-- Resolve a `backendRef` to concrete `ip:port` endpoints, or to the Service DNS name. -/
def resolve (st : ClusterState) (routeNs : Bytes) (backend : BackendRef) : List BackendEndpoint :=
  let ns := backend.ns.getD routeNs
  let port := backend.port.getD 80
  let weight := (max 0 (min (backend.weight.getD 1) 1000000)).toNat
  let dns : BackendEndpoint :=
    ⟨backend.name ++ ascii "." ++ ns ++ ascii ".svc.cluster.local:" ++ displayInt port, weight⟩
  match st.endpoints.lookup (ns, backend.name) with
  | some eps =>
    if eps.any (·.port = port) then
      (eps.filter (·.port = port)).map fun e => ⟨e.address ++ ascii ":" ++ displayInt e.port, weight⟩
    else [dns]
  | none => [dns]

/-- Whether a route attaches to the Gateway we are serving. -/
def routeIsOurs (cfg : ControllerConfig) (stored : StoredRoute) : Bool :=
  match cfg.gatewayName with
  | none => true
  | some want =>
    stored.spec.parentRefs.isEmpty ||
      stored.spec.parentRefs.any fun p =>
        p.name == want &&
          match cfg.ns, p.ns with
          | none, _ => true
          | some ours, none => ours == stored.ns
          | some ours, some theirs => ours == theirs

/-- The path matches of a rule; none at all is the prefix `/`. -/
def ruleMatches (rule : HttpRouteRule) : List (Bytes × PathMatch) :=
  if rule.routeMatches.isEmpty then [(ascii "/", .pathPrefix)]
  else rule.routeMatches.map fun rm =>
    ((rm.path.bind (·.value)).getD (ascii "/"),
      if rm.path.bind (·.matchType) = some (ascii "Exact") then .exact else .pathPrefix)

/-- The hostnames of a route; none at all is any host. -/
def routeHostnames (spec : HttpRouteSpec) : List (Option Bytes) :=
  if spec.hostnames.isEmpty then [none] else spec.hostnames.map some

section Compile

variable (ht : HeaderTypes)

/-- The rewrite rule of a `URLRewrite` filter. -/
def compileRewrite (matchedPrefix : Bytes) (path : UrlRewritePath) : Option UrlRewrite :=
  if path.pathType = ascii "ReplacePrefixMatch" then
    path.replacePrefixMatch.map (.replacePrefix (trimEnd 47 matchedPrefix))
  else if path.pathType = ascii "ReplaceFullPath" then path.replaceFullPath.map .exact
  else none

/-- What one filter adds to the modifiers and the rewrite collected so far. -/
def compileFilter (matchedPrefix : Bytes)
    (acc : List HeaderModifier × List HeaderModifier × Option UrlRewrite) (f : HttpRouteFilter) :
    List HeaderModifier × List HeaderModifier × Option UrlRewrite :=
  let (request, response, rewrite) := acc
  if f.filterType = ascii "RequestHeaderModifier" then
    match f.requestHeaderModifier with
    | some h => (request ++ h.toModifiers, response, rewrite)
    | none => acc
  else if f.filterType = ascii "ResponseHeaderModifier" then
    match f.responseHeaderModifier with
    | some h => (request, response ++ h.toModifiers, rewrite)
    | none => acc
  else if f.filterType = ascii "URLRewrite" then
    match f.urlRewrite.bind (·.path) with
    | some path => (request, response, compileRewrite matchedPrefix path)
    | none => acc
  else acc

/-- Translate Gateway API filters, using `matchedPrefix` as the prefix a rewrite strips. -/
def compileFilters (filters : List HttpRouteFilter) (matchedPrefix : Bytes) : RouteFilters :=
  let (request, response, rewrite) := filters.foldl (compileFilter matchedPrefix) ([], [], none)
  RouteFilters.new ht request response rewrite

/-- The specs of one rule: one for each hostname and match, none without endpoints. -/
def ruleSpecs (st : ClusterState) (stored : StoredRoute) (x : HttpRouteRule × ℕ) : List RouteSpec :=
  let endpoints := x.1.backendRefs.flatMap (st.resolve stored.ns)
  if endpoints.isEmpty then []
  else (routeHostnames stored.spec).flatMap fun hostname =>
    (ruleMatches x.1).map fun pm =>
      { hostname := hostname
        path := pm.1
        pathMatch := pm.2
        endpoints := endpoints
        filters := compileFilters ht x.1.filters pm.1
        routeName := stored.ns ++ ascii "/" ++ stored.name ++ ascii "#" ++ displayNat x.2 }

/-- The specs of one stored route, none if it is not ours. -/
def routeSpecs (st : ClusterState) (cfg : ControllerConfig) (stored : StoredRoute) : List RouteSpec :=
  if routeIsOurs cfg stored then stored.spec.rules.zipIdx.flatMap (ruleSpecs ht st stored) else []

/-- Compile the observed state into a fresh route table, the routes being visited in `order`. -/
def compile (m : PathRouter) (st : ClusterState) (cfg : ControllerConfig) (order : List StoredRoute) :
    RouteTable m :=
  RouteTableBuilder.buildAll m (order.flatMap (routeSpecs ht st cfg))

end Compile

end ClusterState

/-! ## Watches -/

/-- One event of a watch stream. -/
inductive WatchEvent (α : Type) where
  | apply (obj : α)
  | initApply (obj : α)
  | delete (obj : α)
  | init
  | initDone
  | error

/-- An `HTTPRoute` object; `spec = none` if its spec does not parse. -/
structure RouteObject where
  name : Option Bytes
  ns : Option Bytes
  spec : Option HttpRouteSpec

structure EndpointConditions where
  ready : Option Bool

structure SliceEndpoint where
  addresses : List Bytes
  conditions : Option EndpointConditions

structure EndpointPort where
  port : Option ℤ

/-- An `EndpointSlice` object. -/
structure EndpointSlice where
  name : Option Bytes
  ns : Option Bytes
  labels : Option (AList fun _ : Bytes => Bytes)
  ports : Option (List EndpointPort)
  endpoints : Option (List SliceEndpoint)

/-- Ready unless the condition is explicitly false. -/
def SliceEndpoint.isReady (e : SliceEndpoint) : Bool := (e.conditions.bind (·.ready)).getD true

/-- The ports a slice lists. -/
def EndpointSlice.portList (slice : EndpointSlice) : List ℤ := (slice.ports.getD []).filterMap (·.port)

/-- Extract the Service and the ready `ip:port` pairs of a slice. -/
def parseEndpointSlice (slice : EndpointSlice) : Option (ServiceKey × List ReadyEndpoint) :=
  slice.ns.bind fun ns =>
    (slice.labels.bind (·.lookup (ascii "kubernetes.io/service-name"))).map fun service =>
      if slice.portList.isEmpty then ((ns, service), [])
      else ((ns, service), (slice.endpoints.getD []).flatMap fun endpoint =>
        if endpoint.isReady then
          endpoint.addresses.flatMap fun address => slice.portList.map fun port => ⟨address, port⟩
        else [])

/-- One event of `watch_httproutes`: the state afterwards, and whether the rebuild task is notified. -/
def watchHttproutes (st : ClusterState) : WatchEvent RouteObject → ClusterState × Bool
  | .apply obj | .initApply obj =>
    match obj.name, obj.ns, obj.spec with
    | some name, some ns, some spec =>
      ({ st with routes := st.routes.insert (ns, name) ⟨ns, name, spec⟩ }, true)
    | _, _, _ => (st, false)
  | .delete obj =>
    match obj.name, obj.ns with
    | some name, some ns => ({ st with routes := st.routes.erase (ns, name) }, true)
    | _, _ => (st, false)
  | .init => ({ st with routes := ∅ }, false)
  | .initDone => (st, true)
  | .error => (st, false)

/-- One event of `watch_endpointslices`: the state afterwards, and whether the rebuild task is
notified. -/
def watchEndpointslices (st : ClusterState) : WatchEvent EndpointSlice → ClusterState × Bool
  | .apply slice | .initApply slice =>
    match parseEndpointSlice slice with
    | some (key, eps) => ({ st with endpoints := st.endpoints.insert key eps }, true)
    | none => (st, false)
  | .delete slice =>
    match parseEndpointSlice slice with
    | some (key, _) => ({ st with endpoints := st.endpoints.erase key }, true)
    | none => (st, false)
  | .init => ({ st with endpoints := ∅ }, false)
  | .initDone => (st, true)
  | .error => (st, false)

/-! ## A small cluster -/

/-- Serve every Gateway. -/
def anyGateway : ControllerConfig := ⟨none, none⟩

/-- A route `default/name` for one path prefix, to one Service. -/
def sampleRoute (name path service : Bytes) : StoredRoute where
  ns := ascii "default"
  name := name
  spec := {
    parentRefs := []
    hostnames := []
    rules := [⟨[⟨some ⟨none, some path⟩⟩], [⟨service, none, some 80, none⟩], []⟩] }

/-- A slice `default/name` of a Service, with one ready address on port 80. -/
def sampleSlice (name service address : Bytes) : EndpointSlice where
  name := some name
  ns := some (ascii "default")
  labels := some ((∅ : AList fun _ : Bytes => Bytes).insert (ascii "kubernetes.io/service-name") service)
  ports := some [⟨some 80⟩]
  endpoints := some [⟨[address], none⟩]

end LbProxy.Core
