import LbProxy.Lib.Runs
import LbProxy.Pingora.ProxyService

/-!
# One request through the phases of the Pingora service

Each phase loads the published table and looks the route up again, and tables are published between the
phases.

* `Service`, `ServiceEvent`, `serviceStep` — one request, the phases it has been through, and the tables that
  are published meanwhile;
* `OneRoute` — the backend, the upstream request and the returned head come from one action of one table;
* `Steady`, `one_route` — that holds if no table that is published once the backend is chosen routes the
  request to another action.
-/

namespace LbProxy.Pingora

open Lib LbProxy.Core

/-- How far a request has come, and what its phases found and did. -/
inductive Phase (ht : HeaderTypes) where
  | arrived
  /-- `request_filter` found a route. -/
  | admitted
  /-- `upstream_peer` found an action and selected a backend. -/
  | connected (action : RouteAction) (peer : BackendEndpoint)
  /-- `upstream_request_filter` found an action, or none, and rewrote the request. -/
  | forwarded (action : RouteAction) (peer : BackendEndpoint) (requestAction : Option RouteAction)
      (upstream : Bytes × ht.Map)
  /-- `response_filter` found an action, or none, and rewrote the head. -/
  | answered (action : RouteAction) (peer : BackendEndpoint) (requestAction : Option RouteAction)
      (upstream : Bytes × ht.Map) (responseAction : Option RouteAction) (head : ht.Map)
  /-- The request ended with an error. -/
  | refused

/-- The published table, every table that has been published, and the request. -/
structure Service (m : PathRouter) (ht : HeaderTypes) where
  table : RouteTable m
  tables : List (RouteTable m)
  phase : Phase ht

inductive ServiceEvent (m : PathRouter) (ht : HeaderTypes) where
  | store (table : RouteTable m)
  | requestFilter
  /-- With the ticket that the cursor of the group gives. -/
  | upstreamPeer (ticket : ℕ)
  | upstreamRequestFilter
  /-- With the head that the backend returned. -/
  | responseFilter (headers : ht.Map)

section Phases

variable {m : PathRouter} (ut : UriTypes) (ht : HeaderTypes) (client : Option PeerAddr) (forwardedHeaders : Bool)
  (req : RequestParts ht)

/-- The service when the request arrives. -/
def Service.new (table : RouteTable m) : Service m ht := ⟨table, [table], .arrived⟩

/-- One event; a phase out of turn does nothing. -/
def serviceStep (s : Service m ht) : ServiceEvent m ht → Service m ht
  | .store table => { s with table := table, tables := s.tables ++ [table] }
  | .requestFilter =>
    match s.phase with
    | .arrived =>
      { s with phase := if (s.table.lookup req.routingHost req.path).isSome then .admitted else .refused }
    | _ => s
  | .upstreamPeer ticket =>
    match s.phase with
    | .admitted =>
      match s.table.lookup req.routingHost req.path with
      | some action =>
        match action.targetGroup.select ticket with
        | some peer => { s with phase := .connected action peer }
        | none => { s with phase := .refused }
      | none => { s with phase := .refused }
    | _ => s
  | .upstreamRequestFilter =>
    match s.phase with
    | .connected action peer =>
      let upstream := upstreamRequestFilter ut ht s.table client forwardedHeaders req
      { s with phase := .forwarded action peer (s.table.lookup req.routingHost req.path) upstream }
    | _ => s
  | .responseFilter headers =>
    match s.phase with
    | .forwarded action peer requestAction upstream =>
      let found := s.table.lookup req.routingHost req.path
      let head := responseFilter ht s.table req headers
      { s with phase := .answered action peer requestAction upstream found head }
    | _ => s

/-- A published table routes the request to the action, and the backend was selected from its group. -/
def Chosen (tables : List (RouteTable m)) (action : RouteAction) (peer : BackendEndpoint)
    (table : RouteTable m) : Prop :=
  table ∈ tables ∧ table.lookup req.routingHost req.path = some action ∧
    ∃ ticket, action.targetGroup.select ticket = some peer

/-- Whatever has been done to the request and its response comes from one action of one published table. -/
def OneRoute (s : Service m ht) : Prop :=
  match s.phase with
  | .arrived | .admitted | .refused => True
  | .connected action peer => ∃ table, Chosen ht req s.tables action peer table
  | .forwarded action peer requestAction upstream =>
    ∃ table, Chosen ht req s.tables action peer table ∧ requestAction = some action ∧
      upstream = upstreamRequestFilter ut ht table client forwardedHeaders req
  | .answered action peer requestAction upstream responseAction head =>
    ∃ table, Chosen ht req s.tables action peer table ∧ requestAction = some action ∧
      upstream = upstreamRequestFilter ut ht table client forwardedHeaders req ∧
      responseAction = some action ∧ ∃ headers, head = responseFilter ht table req headers

/-- A table that is published between the choice of the backend and the response routes the request to the
same action as the table before it. -/
def Steady (s : Service m ht) : ServiceEvent m ht → Prop
  | .store table =>
    match s.phase with
    | .connected _ _ | .forwarded _ _ _ _ =>
      table.lookup req.routingHost req.path = s.table.lookup req.routingHost req.path
    | _ => True
  | _ => True

/-- The request is on one route, and the published table still has the action while it is needed. -/
def OnRoute (s : Service m ht) : Prop :=
  OneRoute ut ht client forwardedHeaders req s ∧
    match s.phase with
    | .connected action _ | .forwarded action _ _ _ => s.table.lookup req.routingHost req.path = some action
    | _ => True

variable {ut ht client forwardedHeaders req}

theorem Chosen.mono {tables : List (RouteTable m)} {action : RouteAction} {peer : BackendEndpoint}
    {table : RouteTable m} (h : Chosen ht req tables action peer table) (t : RouteTable m) :
    Chosen ht req (tables ++ [t]) action peer table :=
  ⟨List.mem_append_left _ h.1, h.2⟩

theorem upstreamRequestFilter_congr {t t' : RouteTable m}
    (h : t.lookup req.routingHost req.path = t'.lookup req.routingHost req.path) :
    upstreamRequestFilter ut ht t client forwardedHeaders req =
      upstreamRequestFilter ut ht t' client forwardedHeaders req := by
  have hfilters : routeFilters ht t req = routeFilters ht t' req := by
    unfold routeFilters
    rw [h]
  unfold upstreamRequestFilter
  rw [hfilters]

theorem mem_tables_step {s : Service m ht} (h : s.table ∈ s.tables) (e : ServiceEvent m ht) :
    (serviceStep ut ht client forwardedHeaders req s e).table ∈
      (serviceStep ut ht client forwardedHeaders req s e).tables := by
  cases e with
  | store table => simp [serviceStep]
  | requestFilter | upstreamRequestFilter | responseFilter headers =>
    simp only [serviceStep]
    split <;> exact h
  | upstreamPeer ticket =>
    simp only [serviceStep]
    split
    · split
      · split <;> exact h
      · exact h
    · exact h

/-- **An event that meets the condition keeps the request on its route.** -/
theorem onRoute_step {s : Service m ht} {e : ServiceEvent m ht} (hmem : s.table ∈ s.tables)
    (hsteady : Steady ht req s e) (h : OnRoute ut ht client forwardedHeaders req s) :
    OnRoute ut ht client forwardedHeaders req (serviceStep ut ht client forwardedHeaders req s e) := by
  obtain ⟨table, tables, phase⟩ := s
  cases e with
  | store t =>
    cases phase with
    | arrived | admitted | refused => exact ⟨trivial, trivial⟩
    | connected action peer =>
      have hsame : t.lookup req.routingHost req.path = table.lookup req.routingHost req.path := hsteady
      obtain ⟨⟨chosen, hchosen⟩, hlookup⟩ := h
      exact ⟨⟨chosen, hchosen.mono t⟩, hsame.trans hlookup⟩
    | forwarded action peer requestAction upstream =>
      have hsame : t.lookup req.routingHost req.path = table.lookup req.routingHost req.path := hsteady
      obtain ⟨⟨chosen, hchosen, hdone⟩, hlookup⟩ := h
      exact ⟨⟨chosen, hchosen.mono t, hdone⟩, hsame.trans hlookup⟩
    | answered action peer requestAction upstream responseAction head =>
      obtain ⟨⟨chosen, hchosen, hdone⟩, -⟩ := h
      exact ⟨⟨chosen, hchosen.mono t, hdone⟩, trivial⟩
  | requestFilter =>
    cases phase with
    | arrived =>
      simp only [serviceStep]
      split <;> exact ⟨trivial, trivial⟩
    | admitted | refused => exact ⟨trivial, trivial⟩
    | connected action peer => exact h
    | forwarded action peer requestAction upstream => exact h
    | answered action peer requestAction upstream responseAction head => exact h
  | upstreamPeer ticket =>
    cases phase with
    | admitted =>
      simp only [serviceStep]
      cases hlookup : table.lookup req.routingHost req.path with
      | none => exact ⟨trivial, trivial⟩
      | some action =>
        cases hpeer : action.targetGroup.select ticket with
        | none =>
          simp only [hpeer]
          exact ⟨trivial, trivial⟩
        | some peer =>
          simp only [hpeer]
          exact ⟨⟨table, hmem, hlookup, ticket, hpeer⟩, hlookup⟩
    | arrived | refused => exact ⟨trivial, trivial⟩
    | connected action peer => exact h
    | forwarded action peer requestAction upstream => exact h
    | answered action peer requestAction upstream responseAction head => exact h
  | upstreamRequestFilter =>
    cases phase with
    | connected action peer =>
      obtain ⟨⟨chosen, hchosen⟩, hlookup⟩ := h
      exact ⟨⟨table, ⟨hmem, hlookup, hchosen.2.2⟩, hlookup, rfl⟩, hlookup⟩
    | arrived | admitted | refused => exact ⟨trivial, trivial⟩
    | forwarded action peer requestAction upstream => exact h
    | answered action peer requestAction upstream responseAction head => exact h
  | responseFilter headers =>
    cases phase with
    | forwarded action peer requestAction upstream =>
      obtain ⟨⟨chosen, hchosen, hrequest, hupstream⟩, hlookup⟩ := h
      refine ⟨⟨table, ⟨hmem, hlookup, hchosen.2.2⟩, hrequest, ?_, hlookup, headers, rfl⟩, trivial⟩
      rw [hupstream]
      exact upstreamRequestFilter_congr (hchosen.2.1.trans hlookup.symm)
    | arrived | admitted | refused => exact ⟨trivial, trivial⟩
    | connected action peer => exact h
    | answered action peer requestAction upstream responseAction head => exact h

/-- **One request, one route, if the route does not change under it.**  In every interleaving of the phases of
a request with published tables: if no table that is published between the choice of the backend and the
response routes the request to another action, the backend, what was done to the request and what was done to
the response all come from one action of one published table. -/
theorem one_route (table : RouteTable m) (events : List (ServiceEvent m ht))
    (h : EveryStep (serviceStep ut ht client forwardedHeaders req) (Steady ht req) (Service.new ht table) events) :
    OneRoute ut ht client forwardedHeaders req
      (events.foldl (serviceStep ut ht client forwardedHeaders req) (Service.new ht table)) := by
  have hinv := EveryStep.invariant
    (I := fun s => s.table ∈ s.tables ∧ OnRoute ut ht client forwardedHeaders req s)
    (fun s e hsteady hs => ⟨mem_tables_step hs.1 e, onRoute_step hs.1 hsteady hs.2⟩) h
    ⟨by simp [Service.new], trivial, trivial⟩
  exact hinv.2.1

end Phases

/-- A table with one route for every host and path, to one backend; requests are marked with its name. -/
def oneBackend (name address : String) : RouteTable PathRouter.reference :=
  let filters := RouteFilters.new HeaderTypes.reference [.set (ascii "x-route") (ascii name)] [] none
  RouteTableBuilder.buildAll _ [⟨none, ascii "/", .pathPrefix, [⟨ascii address, 1⟩], filters, ascii name⟩]

/-- A request for `/`. -/
def rootRequest : RequestParts HeaderTypes.reference := ⟨none, ascii "/", none, HeaderTypes.reference.empty⟩

/-- The phases of one request, with the table `t` published after the backend is chosen. -/
def publishedMeanwhile (t : RouteTable PathRouter.reference) :
    List (ServiceEvent PathRouter.reference HeaderTypes.reference) :=
  [.requestFilter, .upstreamPeer 0, .store t, .upstreamRequestFilter,
    .responseFilter HeaderTypes.reference.empty]

/-- The same table published again does no harm. -/
theorem one_route_same_table :
    OneRoute UriTypes.reference HeaderTypes.reference none true rootRequest
      ((publishedMeanwhile (oneBackend "old" "10.0.0.1:80")).foldl
        (serviceStep UriTypes.reference HeaderTypes.reference none true rootRequest)
        (Service.new HeaderTypes.reference (oneBackend "old" "10.0.0.1:80"))) :=
  one_route _ _ ⟨trivial, trivial, rfl, trivial, trivial, trivial⟩

/-- A request goes to a backend of the old table with the filters of the new one. -/
theorem phases_see_two_routes :
    ¬ ∀ (table : RouteTable PathRouter.reference)
        (events : List (ServiceEvent PathRouter.reference HeaderTypes.reference)),
      OneRoute UriTypes.reference HeaderTypes.reference none true rootRequest
        (events.foldl (serviceStep UriTypes.reference HeaderTypes.reference none true rootRequest)
          (Service.new HeaderTypes.reference table)) := by
  intro h
  obtain ⟨-, -, hrequest, -⟩ := h (oneBackend "old" "10.0.0.1:80")
    (publishedMeanwhile (oneBackend "new" "10.0.0.2:80"))
  have hname := congrArg (Option.map (·.routeName)) hrequest
  exact absurd hname (by decide +kernel)

end LbProxy.Pingora
