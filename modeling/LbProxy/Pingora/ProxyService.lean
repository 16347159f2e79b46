import LbProxy.Core.Proxy
import LbProxy.Core.RouteTable

/-!
# The Pingora data plane (`proxy_service.rs`)

* `upstreamRequestFilter`, `responseFilter` — what is done to a request and to a response head;
* `getAll_replay` — replaying a staged map through the header API gives the staged map.
-/

namespace LbProxy.Pingora

open Lib LbProxy.Core

section Service

variable {m : PathRouter} (ut : UriTypes) (ht : HeaderTypes)

/-- Remove hop-by-hop headers through the header API. -/
def stripHopByHop (headers : ht.Map) : ht.Map :=
  let nominated := connectionNominated ht headers
  let headers := ht.remove headers CONNECTION
  let headers := HOP_BY_HOP.foldl ht.remove headers
  nominated.foldl ht.remove headers

/-- Give one name the values it has in the staged map. -/
def replayName (staged : ht.Map) (headers : ht.Map) (name : Bytes) : ht.Map :=
  match ht.getAll staged name with
  | first :: extra => extra.foldl (fun h v => ht.append h name v) (ht.insert headers name first)
  | [] => headers

/-- Replay the difference to a staged map through the header API. -/
def replay (headers staged : ht.Map) : ht.Map :=
  let removed := (ht.keys headers).filter fun k => (ht.getAll staged k).isEmpty
  (ht.keys staged).foldl (replayName ht staged) (removed.foldl ht.remove headers)

def applyRequestFilters (filters : RouteFilters) (headers : ht.Map) : ht.Map :=
  if filters.isNoop then headers else replay ht headers (filters.applyRequestHeaders ht headers)

def applyResponseFilters (filters : RouteFilters) (headers : ht.Map) : ht.Map :=
  if filters.isNoop then headers else replay ht headers (filters.applyResponseHeaders ht headers)

/-- The `X-Forwarded-For` chain with the client's address behind it. -/
def forwardedChain (headers : ht.Map) (peer : PeerAddr) : Bytes :=
  match ht.get headers FORWARDED_FOR with
  | some existing =>
    match ht.toStr existing with
    | some prev => prev ++ ascii ", " ++ peer.text
    | none => peer.text
  | none => peer.text

/-- The rewritten path, and the filters of the route; no filters without a route. -/
def routeFilters (table : RouteTable m) (req : RequestParts ht) : Option Bytes × RouteFilters :=
  match table.lookup req.routingHost req.path with
  | some action =>
    (if action.filters.rewritesPath then some (action.filters.applyUrlRewrite req.path) else none, action.filters)
  | none => (none, ⟨none⟩)

/-- Apply routing filters and hygiene to the upstream request: its target and its headers. -/
def upstreamRequestFilter (table : RouteTable m) (client : Option PeerAddr) (forwardedHeaders : Bool)
    (req : RequestParts ht) : Bytes × ht.Map :=
  let (rewrittenPath, filters) := routeFilters ht table req
  let original := withQuery req.path req.query
  let target := match rewrittenPath with
    -- a rewritten path that is not valid is not used
    | some path => (ut.uri (withQuery path req.query)).getD original
    | none => original
  let headers := stripHopByHop ht req.headers
  let headers := if forwardedHeaders then
    let headers := match client with
      | some peer =>
        match ht.valueFromStr (forwardedChain ht headers peer) with
        | some value => ht.insert headers FORWARDED_FOR value
        | none => headers
      | none => headers
    ht.insert headers FORWARDED_PROTO (ascii "http")
    else headers
  (target, applyRequestFilters ht filters headers)

/-- The response head that is returned. -/
def responseFilter (table : RouteTable m) (req : RequestParts ht) (headers : ht.Map) : ht.Map :=
  let filters := match table.lookup req.routingHost req.path with
    | some action => action.filters
    | none => ⟨none⟩
  applyResponseFilters ht filters (stripHopByHop ht headers)

end Service

/-! ## Replaying -/

theorem requestModifiers_of_noop {filters : RouteFilters} (h : filters.isNoop = true) :
    filters.requestModifiers = [] := by
  simp only [RouteFilters.isNoop, Option.isNone_iff_eq_none] at h
  simp [RouteFilters.requestModifiers, h]

theorem responseModifiers_of_noop {filters : RouteFilters} (h : filters.isNoop = true) :
    filters.responseModifiers = [] := by
  simp only [RouteFilters.isNoop, Option.isNone_iff_eq_none] at h
  simp [RouteFilters.responseModifiers, h]

section Replay

variable {ht : HeaderTypes} (hl : ht.Laws)
include hl

theorem getAll_foldl_append_name (values : List Bytes) (m : ht.Map) (name n : Bytes) :
    ht.getAll (values.foldl (fun h v => ht.append h name v) m) n =
      if n = name then ht.getAll m n ++ values else ht.getAll m n := by
  induction values generalizing m with
  | nil => simp
  | cons v values ih =>
    rw [List.foldl_cons, ih, hl.getAll_append]
    by_cases h : n = name <;> simp [h]

theorem getAll_replayName (staged headers : ht.Map) {name : Bytes} (hname : ht.getAll staged name ≠ []) (n : Bytes) :
    ht.getAll (replayName ht staged headers name) n =
      if n = name then ht.getAll staged name else ht.getAll headers n := by
  obtain ⟨first, extra, hvals⟩ := List.exists_cons_of_ne_nil hname
  simp only [replayName, hvals]
  rw [getAll_foldl_append_name hl, hl.getAll_insert]
  by_cases h : n = name <;> simp [h]

theorem getAll_foldl_replayName (staged : ht.Map) {names : List Bytes} (hnames : ∀ k ∈ names, ht.getAll staged k ≠ [])
    (headers : ht.Map) (n : Bytes) :
    ht.getAll (names.foldl (replayName ht staged) headers) n =
      if n ∈ names then ht.getAll staged n else ht.getAll headers n := by
  induction names generalizing headers with
  | nil => simp
  | cons name names ih =>
    rw [List.foldl_cons, ih fun k hk => hnames k (List.mem_cons_of_mem _ hk),
      getAll_replayName hl staged headers (hnames name List.mem_cons_self)]
    by_cases h1 : n ∈ names
    · simp [h1]
    · by_cases h2 : n = name <;> simp [h1, h2]

/-- **Replaying gives the staged map.** -/
theorem getAll_replay (headers staged : ht.Map) (n : Bytes) :
    ht.getAll (replay ht headers staged) n = ht.getAll staged n := by
  rw [replay, getAll_foldl_replayName hl staged fun k hk => (hl.mem_keys staged k).mp hk, getAll_foldl_remove hl]
  by_cases hstaged : n ∈ ht.keys staged
  · rw [if_pos hstaged]
  · have hnil : ht.getAll staged n = [] := by
      by_contra hne
      exact hstaged ((hl.mem_keys staged n).mpr hne)
    rw [if_neg hstaged, hnil]
    by_cases hheaders : n ∈ ht.keys headers
    · rw [if_pos]
      simp [hheaders, hnil]
    · have : ht.getAll headers n = [] := by
        by_contra hne
        exact hheaders ((hl.mem_keys headers n).mpr hne)
      rw [this, ite_self]

theorem getAll_applyRequestFilters (filters : RouteFilters) (headers : ht.Map) (n : Bytes) :
    ht.getAll (applyRequestFilters ht filters headers) n = ht.getAll (filters.applyRequestHeaders ht headers) n := by
  unfold applyRequestFilters
  split
  · rename_i hnoop
    rw [RouteFilters.applyRequestHeaders, requestModifiers_of_noop hnoop, List.foldl_nil]
  · exact getAll_replay hl _ _ n

theorem getAll_applyResponseFilters (filters : RouteFilters) (headers : ht.Map) (n : Bytes) :
    ht.getAll (applyResponseFilters ht filters headers) n = ht.getAll (filters.applyResponseHeaders ht headers) n := by
  unfold applyResponseFilters
  split
  · rename_i hnoop
    rw [RouteFilters.applyResponseHeaders, responseModifiers_of_noop hnoop, List.foldl_nil]
  · exact getAll_replay hl _ _ n

end Replay

theorem forwardedChain_eq (ht : HeaderTypes) (headers : ht.Map) (peer : PeerAddr) :
    forwardedChain ht headers peer = chainOf ((ht.get headers FORWARDED_FOR).bind ht.toStr) peer := by
  unfold forwardedChain chainOf
  cases ht.get headers FORWARDED_FOR with
  | none => rfl
  | some existing => cases h : ht.toStr existing <;> simp [h]

end LbProxy.Pingora
