import LbProxy.Core.Config
import LbProxy.Core.Rewrite
import LbProxy.Hyper.Server
import LbProxy.Monoio.Exchange
import LbProxy.Monoio.Heads
import LbProxy.Monoio.Http2
import LbProxy.Pingora.Phases

/-!
# The answer to a request, from the cluster to the wire

* `HttpRouteRule.rewritten` — the path rewrite of a rule, in the terms of the Gateway API;
* `applyUrlRewrite_rule` — the compiled filters of the rule do that;
* `Sends` — what each plane does with a request in terms of one rule: the backend it connects to, the target it sends,
  and the replies that it makes itself;
* `requests_served` — each plane does that for a rule that is for the request, or replies that there is none.
-/

namespace LbProxy

open Lib LbProxy.Core ClusterState TargetGroup

/-! ## The path rewrite of a rule -/

/-- The path rewrite of a filter, if it is one. -/
def Core.HttpRouteFilter.pathRewrite (f : HttpRouteFilter) : Option UrlRewritePath :=
  if f.filterType = ascii "URLRewrite" then f.urlRewrite.bind (·.path) else none

/-- What a path rewrite makes of a path that the match `p` covers; none if it keeps it. -/
def Core.UrlRewritePath.outcome (p q : Bytes) (r : UrlRewritePath) : Option Bytes :=
  if r.pathType = ascii "ReplacePrefixMatch" then
    r.replacePrefixMatch.map fun replacement => replaced replacement (q.drop (base p).length)
  else if r.pathType = ascii "ReplaceFullPath" then r.replaceFullPath
  else none

/-- The last path rewrite of a rule counts. -/
def Core.HttpRouteRule.rewritten (rule : HttpRouteRule) (p q : Bytes) : Option Bytes :=
  (rule.filters.filterMap HttpRouteFilter.pathRewrite).getLast?.bind (UrlRewritePath.outcome p q)

theorem foldl_compileFilter_rewrite (p : Bytes) (filters : List HttpRouteFilter)
    (acc : List HeaderModifier × List HeaderModifier × Option UrlRewrite) :
    (filters.foldl (compileFilter p) acc).2.2 =
      ((filters.filterMap HttpRouteFilter.pathRewrite).getLast?.map (compileRewrite p)).getD acc.2.2 := by
  induction filters generalizing acc with
  | nil => rfl
  | cons f filters ih =>
    obtain ⟨request, response, rewrite⟩ := acc
    rw [List.foldl_cons, ih]
    have hfilter : (compileFilter p (request, response, rewrite) f).2.2 =
        (f.pathRewrite.map (compileRewrite p)).getD rewrite := by
      unfold compileFilter HttpRouteFilter.pathRewrite
      simp only
      have h1 : ascii "RequestHeaderModifier" ≠ ascii "URLRewrite" := by decide
      have h2 : ascii "ResponseHeaderModifier" ≠ ascii "URLRewrite" := by decide
      split
      · rename_i hf
        rw [hf, if_neg h1]
        split <;> rfl
      · split
        · rename_i hf
          rw [hf, if_neg h2]
          split <;> rfl
        · split
          · cases f.urlRewrite.bind (·.path) <;> rfl
          · rfl
    rw [hfilter]
    cases hrewrite : f.pathRewrite with
    | none => rw [List.filterMap_cons_none hrewrite]; rfl
    | some r =>
      rw [List.filterMap_cons_some hrewrite]
      cases hrest : filters.filterMap HttpRouteFilter.pathRewrite with
      | nil => rfl
      | cons r' rest =>
        obtain ⟨last, hlast⟩ : ∃ last, (r' :: rest).getLast? = some last :=
          ⟨_, List.getLast?_eq_some_getLast (List.cons_ne_nil r' rest)⟩
        rw [List.getLast?_cons_cons, hlast]
        rfl

theorem urlRewrite_compileFilters (ht : HeaderTypes) (filters : List HttpRouteFilter) (p : Bytes) :
    (compileFilters ht filters p).inner.bind (·.urlRewrite) =
      (filters.filterMap HttpRouteFilter.pathRewrite).getLast?.bind (compileRewrite p) := by
  have hfold := foldl_compileFilter_rewrite p filters ([], [], none)
  unfold compileFilters
  generalize filters.foldl (compileFilter p) ([], [], none) = acc at hfold
  obtain ⟨request, response, rewrite⟩ := acc
  have hnew : (RouteFilters.new ht request response rewrite).inner.bind (·.urlRewrite) = rewrite := by
    unfold RouteFilters.new
    simp only
    split
    · rename_i h
      simp only [Bool.and_eq_true, Option.isNone_iff_eq_none] at h
      rw [h.2]
      rfl
    · rfl
  simp only at hfold ⊢
  rw [hnew, hfold]
  cases (filters.filterMap HttpRouteFilter.pathRewrite).getLast? <;> rfl

theorem base_isPrefix_of_covers {pm : Bytes × PathMatch} {q : Bytes} (hshort : ¬ HasShorthand pm.1)
    (h : MatchCovers pm q) : base pm.1 <+: q := by
  unfold MatchCovers at h
  split at h
  · rw [h, base_of_plain hshort]
    split
    · rename_i hnil
      rw [hnil]
      decide
    · exact trimEnd_isPrefix ..
  · exact CoveredBy.base_prefixes h

/-- **The compiled filters rewrite as the rule says**, on the paths that the match covers. -/
theorem applyUrlRewrite_rule (ht : HeaderTypes) (rule : HttpRouteRule) {pm : Bytes × PathMatch} {q : Bytes}
    (hshort : ¬ HasShorthand pm.1) (hcov : MatchCovers pm q) :
    (compileFilters ht rule.filters pm.1).rewritesPath = (rule.rewritten pm.1 q).isSome ∧
      (compileFilters ht rule.filters pm.1).applyUrlRewrite q = (rule.rewritten pm.1 q).getD q := by
  have hrewrite := urlRewrite_compileFilters ht rule.filters pm.1
  have hbase := base_isPrefix_of_covers hshort hcov
  have hwrites : (compileFilters ht rule.filters pm.1).rewritesPath =
      ((compileFilters ht rule.filters pm.1).inner.bind (·.urlRewrite)).isSome := by
    unfold RouteFilters.rewritesPath
    cases (compileFilters ht rule.filters pm.1).inner <;> rfl
  rw [hwrites]
  unfold HttpRouteRule.rewritten
  cases hlast : (rule.filters.filterMap HttpRouteFilter.pathRewrite).getLast? with
  | none =>
    rw [hlast] at hrewrite
    rw [hrewrite, RouteFilters.applyUrlRewrite, hrewrite]
    exact ⟨rfl, rfl⟩
  | some r =>
    rw [hlast, Option.bind_some] at hrewrite
    rw [Option.bind_some, hrewrite]
    unfold compileRewrite UrlRewritePath.outcome at *
    by_cases hprefix : r.pathType = ascii "ReplacePrefixMatch"
    · rw [if_pos hprefix] at hrewrite ⊢
      rw [if_pos hprefix]
      cases hreplacement : r.replacePrefixMatch with
      | none =>
        rw [hreplacement] at hrewrite
        rw [RouteFilters.applyUrlRewrite, hrewrite]
        exact ⟨rfl, rfl⟩
      | some replacement =>
        rw [hreplacement, ← base_of_plain hshort] at hrewrite
        rw [applyUrlRewrite_replacePrefix hrewrite, if_pos hbase]
        exact ⟨rfl, rfl⟩
    · rw [if_neg hprefix] at hrewrite ⊢
      rw [if_neg hprefix]
      by_cases hfull : r.pathType = ascii "ReplaceFullPath"
      · rw [if_pos hfull] at hrewrite ⊢
        rw [if_pos hfull, RouteFilters.applyUrlRewrite, hrewrite]
        cases r.replaceFullPath <;> exact ⟨rfl, rfl⟩
      · rw [if_neg hfull] at hrewrite ⊢
        rw [if_neg hfull, RouteFilters.applyUrlRewrite, hrewrite]
        exact ⟨rfl, rfl⟩

/-! ## What the planes send -/

/-- The rule offers the backend: it comes from a backend of positive weight, or is the placeholder of a rule without. -/
def Offered (st : ClusterState) (ns : Bytes) (rule : HttpRouteRule) (address : Bytes) : Prop :=
  Configured st ns rule address ∨
    (∀ b ∈ rule.backendRefs, b.weight.getD 1 ≤ 0) ∧ address = ascii "127.0.0.1:80"

/-- Every selection from the group of a rule is one that it offers. -/
theorem exists_offered (st : ClusterState) (ns : Bytes) (rule : HttpRouteRule) (cursor ticket : ℕ) :
    ∃ e, (fromEndpoints cursor (ruleEndpoints st ns rule)).select ticket = some e ∧ Offered st ns rule e.address := by
  obtain ⟨e, hselect, -⟩ := select_total (ruleEndpoints st ns rule) cursor ticket
  refine ⟨e, hselect, ?_⟩
  by_cases hlive : ∃ b ∈ rule.backendRefs, 0 < b.weight.getD 1
  · exact Or.inl ((configured_iff cursor).mpr hlive ticket e hselect)
  · have hnil : live (ruleEndpoints st ns rule) = [] := not_not.mp fun hne => hlive (live_ruleEndpoints_ne_nil.mp hne)
    rw [select_of_live_eq_nil hnil] at hselect
    refine Or.inr ⟨fun b hb => ?_, by rw [← Option.some.inj hselect]⟩
    by_contra hpos
    exact hlive ⟨b, hb, by omega⟩

/-- What Hyper does with a request for a target that may be invalid, once a backend is selected. -/
def hyperSends (ut : UriTypes) {ht : HeaderTypes} (target : Option Bytes) (address : Bytes) (headers : ht.Map)
    (filters : RouteFilters) : Hyper.Handled ht :=
  match ut.authority address, target with
  | none, _ => .reply 502
  | some _, none => .reply 500
  | some _, some target => .forward target headers address filters

/-- What Monoio does with an HTTP/2 request; an invalid target falls back to the root. -/
def http2Sends (ut : UriTypes) {ht : HeaderTypes} (target : Option Bytes) (address : Bytes) (headers : ht.Map)
    (filters : RouteFilters) : Monoio.Handled ht :=
  match ut.authority address with
  | none => .reply 502
  | some _ => .forward (target.getD (ascii "/")) headers address filters

/-- The target of a request whose path is rewritten, or kept: valid, or none. -/
def validTarget (valid : Bytes → Option Bytes) (rewritten : Option Bytes) (path : Bytes) (query : Option Bytes) :
    Option Bytes :=
  match rewritten with
  | some path => valid (withQuery path query)
  | none => some (withQuery path query)

/-- What each plane does with a request for this path and query in terms of one rule and the path of its match. -/
structure Sends (ut : UriTypes) (ht : HeaderTypes) {m : PathRouter} (table : RouteTable m) (st : ClusterState)
    (ns : Bytes) (rule : HttpRouteRule) (p : Bytes) (host : Option Bytes) (path : Bytes) (query : Option Bytes) :
    Prop where
  hyper : ∀ (req : RequestParts ht) (ticket : ℕ) (peer : PeerAddr) (forwardedHeaders http2Upstream : Bool),
    req.routingHost = host → req.path = path → req.query = query → ∃ address headers, Offered st ns rule address ∧
      Hyper.handleRequest ut ht table ticket peer forwardedHeaders http2Upstream req =
        hyperSends ut (validTarget ut.pathAndQuery (rule.rewritten p path) path query) address headers
          (compileFilters ht rule.filters p)
  http2 : ∀ (req : RequestParts ht) (ticket : ℕ) (peer : PeerAddr) (forwardedHeaders : Bool),
    req.routingHost = host → req.path = path → req.query = query → ∃ address headers, Offered st ns rule address ∧
      Monoio.handle ut ht table ticket peer forwardedHeaders req =
        http2Sends ut (validTarget ut.pathAndQuery (rule.rewritten p path) path query) address headers
          (compileFilters ht rule.filters p)
  http1 : ∀ (head : Monoio.RequestHead) (buffered : Bytes) (ticket : ℕ) (peer : Option PeerAddr),
    head.host = host → 63 ∉ path → head.target = withQuery path query → ∃ address,
      Offered st ns rule address ∧ Monoio.forwarded table ticket peer buffered head =
        some (withQuery ((rule.rewritten p path).getD path) query,
          Monoio.writeForwardHead buffered head (withQuery ((rule.rewritten p path).getD path) query) address peer)
  pingora : ∀ (req : RequestParts ht) (ticket : ℕ) (client : Option PeerAddr) (forwardedHeaders : Bool)
    (tables : List (RouteTable m)), req.routingHost = host → req.path = path → req.query = query →
      Pingora.serviceStep ut ht client forwardedHeaders req ⟨table, tables, .arrived⟩ .requestFilter =
        ⟨table, tables, .admitted⟩ ∧
      (∃ action peer, Offered st ns rule peer.address ∧
        Pingora.serviceStep ut ht client forwardedHeaders req ⟨table, tables, .admitted⟩ (.upstreamPeer ticket) =
          ⟨table, tables, .connected action peer⟩) ∧
      (Pingora.upstreamRequestFilter ut ht table client forwardedHeaders req).1 =
        (validTarget ut.uri (rule.rewritten p path) path query).getD (withQuery path query)

/-- Each plane replies that there is no route. -/
structure NotFound (ut : UriTypes) (ht : HeaderTypes) {m : PathRouter} (table : RouteTable m) (host : Option Bytes)
    (path : Bytes) : Prop where
  hyper : ∀ (req : RequestParts ht) (ticket : ℕ) (peer : PeerAddr) (forwardedHeaders http2Upstream : Bool),
    req.routingHost = host → req.path = path →
      Hyper.handleRequest ut ht table ticket peer forwardedHeaders http2Upstream req = .reply 404
  http2 : ∀ (req : RequestParts ht) (ticket : ℕ) (peer : PeerAddr) (forwardedHeaders : Bool),
    req.routingHost = host → req.path = path →
      Monoio.handle ut ht table ticket peer forwardedHeaders req = .reply 404
  http1 : ∀ (hp : HeadParser) (env : Monoio.Env m) (s : Monoio.ConnState) (src : Source) (buf : Buf) (filled : ℕ)
    (head : Monoio.RequestHead), env.table s.served = table → head.host = host → Monoio.pathOf head.target = path →
      Monoio.exchange hp env s src buf filled head =
        .stop [] (.replied (Monoio.errorResponse 404 (ascii "Not Found")))
  pingora : ∀ (req : RequestParts ht) (client : Option PeerAddr) (forwardedHeaders : Bool)
    (tables : List (RouteTable m)), req.routingHost = host → req.path = path →
      Pingora.serviceStep ut ht client forwardedHeaders req ⟨table, tables, .arrived⟩ .requestFilter =
        ⟨table, tables, .refused⟩

section Planes

variable {ut : UriTypes} {ht : HeaderTypes} {m : PathRouter} {table : RouteTable m} {host : Option Bytes} {path : Bytes}

theorem notFound_of_lookup (h : table.lookup host path = none) : NotFound ut ht table host path where
  hyper req ticket peer forwardedHeaders http2Upstream hhost hpath := by
    subst hhost hpath
    simp only [Hyper.handleRequest, h]
  http2 req ticket peer forwardedHeaders hhost hpath := by
    subst hhost hpath
    simp only [Monoio.handle, h]
  http1 hp env s src buf filled head htable hhost hpath := by
    subst htable hhost hpath
    simp only [Monoio.exchange, h]
  pingora req client forwardedHeaders tables hhost hpath := by
    subst hhost hpath
    simp [Pingora.serviceStep, h]

end Planes

section Action

variable (ut : UriTypes) {ht : HeaderTypes} {m : PathRouter} {table : RouteTable m} {req : RequestParts ht}
  {action : RouteAction} {ticket : ℕ} {e : BackendEndpoint} {rewritten : Option Bytes}
  (h : table.lookup req.routingHost req.path = some action) (he : action.targetGroup.select ticket = some e)
  (hwrites : action.filters.rewritesPath = rewritten.isSome)
  (hrewrite : action.filters.applyUrlRewrite req.path = rewritten.getD req.path)
include h hwrites hrewrite

include he in
theorem hyper_sends (peer : PeerAddr) (forwardedHeaders http2Upstream : Bool) :
    ∃ headers, Hyper.handleRequest ut ht table ticket peer forwardedHeaders http2Upstream req =
      hyperSends ut (validTarget ut.pathAndQuery rewritten req.path req.query) e.address headers action.filters := by
  refine ⟨let headers := forwardHeaders ht forwardedHeaders peer action.filters req.headers
    if http2Upstream then ht.remove headers HOST
    else ((ut.authority e.address).bind ht.valueFromStr).elim headers (ht.insert headers HOST), ?_⟩
  simp only [Hyper.handleRequest, h, he, hwrites, hrewrite, hyperSends]
  cases hauth : ut.authority e.address with
  | none => rfl
  | some authority =>
    cases hvalue : ht.valueFromStr authority <;> cases rewritten with
    | none => simp [validTarget, hvalue]
    | some rewritten =>
      cases hvalid : ut.pathAndQuery (withQuery rewritten req.query) <;> simp [validTarget, hvalid, hvalue]

include he in
theorem http2_sends (peer : PeerAddr) (forwardedHeaders : Bool) :
    ∃ headers, Monoio.handle ut ht table ticket peer forwardedHeaders req =
      http2Sends ut (validTarget ut.pathAndQuery rewritten req.path req.query) e.address headers action.filters := by
  refine ⟨let headers := forwardHeaders ht forwardedHeaders peer action.filters req.headers
    ((ut.authority e.address).bind ht.valueFromStr).elim headers (ht.insert headers HOST), ?_⟩
  simp only [Monoio.handle, h, he, hwrites, hrewrite, http2Sends]
  cases hauth : ut.authority e.address with
  | none => rfl
  | some authority =>
    cases hvalue : ht.valueFromStr authority <;> cases rewritten <;> simp [validTarget, hvalue]

theorem pingora_sends (client : Option PeerAddr) (forwardedHeaders : Bool) :
    (Pingora.upstreamRequestFilter ut ht table client forwardedHeaders req).1 =
      (validTarget ut.uri rewritten req.path req.query).getD (withQuery req.path req.query) := by
  simp only [Pingora.upstreamRequestFilter, Pingora.routeFilters, h, hwrites, hrewrite]
  cases rewritten <;> simp [validTarget]

end Action

section Answers

variable (ut : UriTypes) {ht : HeaderTypes} {m : PathRouter} {table : RouteTable m} {st : ClusterState}
  {stored : StoredRoute} {i : ℕ} {rule : HttpRouteRule} {hostname : Option Bytes} {pm : Bytes × PathMatch} {k : ℕ}

/-- A table that answers with a rule makes each plane send what the rule says. -/
theorem sends_of_lookup {host : Option Bytes} {path : Bytes} (hshort : ¬ HasShorthand pm.1) (hcov : MatchCovers pm path)
    (h : table.lookup host path = some (RouteTableBuilder.actionOf k (specOf ht st stored i rule hostname pm)))
    (query : Option Bytes) : Sends ut ht table st stored.ns rule pm.1 host path query := by
  obtain ⟨hwrites, hrewrite⟩ := applyUrlRewrite_rule ht rule hshort hcov
  have hselect := exists_offered st stored.ns rule k
  refine ⟨?_, ?_, ?_, ?_⟩
  · intro req ticket peer forwardedHeaders http2Upstream hhost hpath hquery
    subst hhost hpath hquery
    obtain ⟨e, he, hoffered⟩ := hselect ticket
    obtain ⟨headers, hsends⟩ := hyper_sends ut h he hwrites hrewrite peer forwardedHeaders http2Upstream
    exact ⟨e.address, headers, hoffered, hsends⟩
  · intro req ticket peer forwardedHeaders hhost hpath hquery
    subst hhost hpath hquery
    obtain ⟨e, he, hoffered⟩ := hselect ticket
    obtain ⟨headers, hsends⟩ := http2_sends ut h he hwrites hrewrite peer forwardedHeaders
    exact ⟨e.address, headers, hoffered, hsends⟩
  · intro head buffered ticket peer hhost hmark htarget
    subst hhost
    obtain ⟨e, he, hoffered⟩ := hselect ticket
    obtain ⟨hsplit, hpath⟩ := Monoio.splitTarget_withQuery hmark query
    have hforward : Monoio.forwardTarget (RouteTableBuilder.actionOf k (specOf ht st stored i rule hostname pm))
        head.target = withQuery ((rule.rewritten pm.1 path).getD path) query := by
      rw [htarget, Monoio.forwardTarget, hsplit]
      simp only [RouteTableBuilder.actionOf, specOf, hwrites, hrewrite]
      cases rule.rewritten pm.1 path with
      | none => rfl
      | some rewritten => cases query <;> rfl
    rw [← htarget] at hpath
    refine ⟨e.address, hoffered, ?_⟩
    rw [Monoio.forwarded, hpath, h, Option.bind_some, hforward]
    exact congrArg _ he
  · intro req ticket client forwardedHeaders tables hhost hpath hquery
    subst hhost hpath hquery
    obtain ⟨e, he, hoffered⟩ := hselect ticket
    have hselected : (RouteTableBuilder.actionOf k (specOf ht st stored i rule hostname pm)).targetGroup.select ticket =
      some e := he
    refine ⟨by simp [Pingora.serviceStep, h],
      ⟨RouteTableBuilder.actionOf k (specOf ht st stored i rule hostname pm), e, hoffered, ?_⟩,
      pingora_sends ut h hwrites hrewrite client forwardedHeaders⟩
    simp only [Pingora.serviceStep, h, hselected]

end Answers

/-- No match path of a stored route has a shorthand. -/
def ShorthandFree (st : ClusterState) : Prop :=
  ∀ stored ∈ st.values, ∀ rule ∈ stored.spec.rules, ∀ pm ∈ ruleMatches rule, ¬ HasShorthand pm.1

/-- **Every plane serves the routes of the cluster.**  Whatever the cluster state and the order of its routes are, for
match paths without braces and shorthands and a host that fits the buffer: if a rule of an accepted route is for the
request, then each plane connects to a backend that such a rule offers and sends the path that its filters make of the
request's, unless the backend's address or the rewritten path is invalid; otherwise each plane replies that there is no
route.  No plane indexes out of bounds. -/
theorem requests_served (ut : UriTypes) {ht : HeaderTypes} {m : PathRouter} (hm : m.Laws) (st : ClusterState)
    (cfg : ControllerConfig) (order : List StoredRoute) (horder : order.Perm st.values) (hb : BraceFree st)
    (hshort : ShorthandFree st) (host : Option Bytes) (hhost : ∀ h ∈ host, (hostWithoutPort h).length ≤ MAX_HOST_LEN)
    (path : Bytes) (hpath : path ≠ []) (query : Option Bytes) :
    (∃ stored ∈ st.values, routeIsOurs cfg stored = true ∧ HostServed stored.spec.hostnames host ∧
      ∃ (i : ℕ) (rule : HttpRouteRule), stored.spec.rules[i]? = some rule ∧ rule.backendRefs ≠ [] ∧
        ∃ pm ∈ ruleMatches rule, MatchCovers pm path ∧
          Sends ut ht (st.compile ht m cfg order) st stored.ns rule pm.1 host path query) ∨
    ((∀ stored ∈ st.values, ∀ i, ¬ RuleServes cfg ruleMatches stored i host path) ∧
      NotFound ut ht (st.compile ht m cfg order) host path) := by
  cases hlookup : (st.compile ht m cfg order).lookup host path with
  | some action =>
    obtain ⟨stored, hstored, hours, hserved, i, rule, hrule, hne, pm, hpm, hcov, hostname, k, rfl⟩ :=
      exists_match_of_lookup hm hb horder cfg hhost hlookup
    rw [if_neg hpath] at hcov
    exact Or.inl ⟨stored, hstored, hours, hserved, i, rule, hrule, hne, pm, hpm, hcov,
      sends_of_lookup ut (hshort stored hstored rule (List.mem_of_getElem? hrule) pm hpm) hcov hlookup query⟩
  | none =>
    refine Or.inr ⟨fun stored hstored i hserves => ?_, notFound_of_lookup hlookup⟩
    have hserves' : RuleServes cfg ruleMatches stored i host (if path = [] then [47] else path) := by
      rwa [if_neg hpath]
    obtain ⟨a, ha⟩ := lookup_complete hm hb horder cfg hhost hstored hserves'
    rw [hlookup] at ha
    cases ha

/-- A route that serves `/api` as `/v2`. -/
def versionRoute : StoredRoute where
  ns := ascii "default"
  name := ascii "api"
  spec := {
    parentRefs := []
    hostnames := []
    rules := [⟨[⟨some ⟨none, some (ascii "/api")⟩⟩], [⟨ascii "x", none, some 80, none⟩], [sampleRewrite]⟩] }

theorem requests_served_rewriting :
    (Pingora.upstreamRequestFilter UriTypes.reference HeaderTypes.reference
      ((soloState versionRoute ∅).compile HeaderTypes.reference PathRouter.reference anyGateway [versionRoute]) none true
      ⟨none, ascii "/api/users", some (ascii "x=1"), HeaderTypes.reference.empty⟩).1 = ascii "/v2/users?x=1" := by
  have hvalues : (soloState versionRoute ∅).values = [versionRoute] := rfl
  have hb : BraceFree (soloState versionRoute ∅) := by
    unfold BraceFree
    rw [hvalues]
    decide
  have hshort : ShorthandFree (soloState versionRoute ∅) := by
    unfold ShorthandFree
    rw [hvalues]
    decide
  rcases @requests_served UriTypes.reference HeaderTypes.reference _ PathRouter.reference_laws _ anyGateway
      [versionRoute] (by rw [hvalues]) hb hshort none (by simp) (ascii "/api/users") (by decide) (some (ascii "x=1")) with
    ⟨stored, hstored, -, -, i, rule, hrule, -, pm, hpm, -, hsends⟩ | ⟨hno, -⟩
  · obtain rfl : stored = versionRoute := by simpa [hvalues] using hstored
    obtain rfl : versionRoute.spec.rules.headD ⟨[], [], []⟩ = rule := by
      cases i with
      | zero => exact Option.some.inj hrule
      | succ i => cases hrule
    obtain rfl : pm = (ascii "/api", .pathPrefix) := List.mem_singleton.mp hpm
    rw [(hsends.pingora ⟨none, ascii "/api/users", some (ascii "x=1"), HeaderTypes.reference.empty⟩ 0 none true [] rfl rfl
      rfl).2.2]
    decide +kernel
  · exact absurd ⟨by decide, ⟨_, rfl, by decide, (ascii "/api", .pathPrefix), by decide, by decide⟩, Or.inl rfl⟩
      (hno versionRoute (by simp [hvalues]) 0)

end LbProxy
