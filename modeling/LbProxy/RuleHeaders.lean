import LbProxy.Core.HopByHop
import LbProxy.Core.RuleFilters
import LbProxy.Core.Backends
import LbProxy.Planes

/-!
# The headers of a rule, from the cluster to the wire

* `hygienic` — the values of a header before the filters: no hop-by-hop header, and the forwarding headers;
* `rule_headers_apply` — whatever the cluster looks like, a plane that routes a request by its header map sends the
  headers that the filters of one rule make of the hygienic ones, and returns those that they make of the response;
* `sent_of_stripped` — a hop-by-hop header of the client is sent only with values that a filter of the rule writes.
-/

namespace LbProxy

open Lib LbProxy.Core ClusterState

variable {ht : HeaderTypes} (hl : ht.Laws)

/-- The values of the header `n` before the filters. -/
def hygienic (ht : HeaderTypes) (forwardedHeaders : Bool) (peer : Option PeerAddr) (headers : ht.Map) (n : Bytes) :
    List Bytes :=
  let passed := ht.getAll (stripHopByHop ht headers)
  if forwardedHeaders = false then passed n
  else if n = FORWARDED_PROTO then [ascii "http"]
  else match peer with
    | some peer => if n = FORWARDED_FOR then [chainOf ((passed FORWARDED_FOR).head?.bind ht.toStr) peer] else passed n
    | none => passed n

/-- The sent headers are what the rule makes of the hygienic ones, but for `Host`, which a plane may replace. -/
def SentBy (ht : HeaderTypes) (rule : HttpRouteRule) (host : Option (List Bytes)) (forwardedHeaders : Bool)
    (peer : Option PeerAddr) (headers sent : ht.Map) : Prop :=
  ∀ n, ht.getAll sent n = match host with
    | some values => if n = HOST then values
      else rule.requestOutcome ht n (hygienic ht forwardedHeaders peer headers n)
    | none => rule.requestOutcome ht n (hygienic ht forwardedHeaders peer headers n)

/-- The returned headers are what the rule makes of the response without its hop-by-hop headers. -/
def ReturnedBy (ht : HeaderTypes) (rule : HttpRouteRule) (response returned : ht.Map) : Prop :=
  ∀ n, ht.getAll returned n = rule.responseOutcome ht n (ht.getAll (stripHopByHop ht response) n)

section Planes

variable {rule : HttpRouteRule} {p : Bytes}
include hl

theorem getAll_forwardHeaders_rule (forwardedHeaders : Bool) (peer : PeerAddr) (headers : ht.Map) (n : Bytes) :
    ht.getAll (forwardHeaders ht forwardedHeaders peer (compileFilters ht rule.filters p) headers) n =
      rule.requestOutcome ht n (hygienic ht forwardedHeaders (some peer) headers n) := by
  rw [← modified_requestModifiers ht rule p]
  cases forwardedHeaders with
  | true => rw [getAll_forwardHeaders hl]; rfl
  | false =>
    simp only [forwardHeaders, RouteFilters.applyRequestHeaders]
    rw [getAll_foldl_apply hl]
    rfl

theorem returnedBy_applyResponseHeaders (response : ht.Map) :
    ReturnedBy ht rule response
      ((compileFilters ht rule.filters p).applyResponseHeaders ht (stripHopByHop ht response)) := by
  intro n
  rw [RouteFilters.applyResponseHeaders, getAll_foldl_apply hl, modified_responseModifiers]

variable {m : PathRouter} {table : RouteTable m} {req : RequestParts ht} {action : RouteAction}
  (hroute : table.lookup req.routingHost req.path = some action)
  (hfilters : action.filters = compileFilters ht rule.filters p)
include hroute hfilters

theorem hyper_sentBy {ut : UriTypes} (hu : ut.Laws) {ticket : ℕ} {peer : PeerAddr}
    {forwardedHeaders http2Upstream : Bool} {target address : Bytes} {headers : ht.Map} {filters : RouteFilters}
    (h : Hyper.handleRequest ut ht table ticket peer forwardedHeaders http2Upstream req =
      .forward target headers address filters) :
    filters = action.filters ∧ SentBy ht rule (some (if http2Upstream then [] else [address])) forwardedHeaders
      (some peer) req.headers headers := by
  simp only [Hyper.handleRequest, hroute] at h
  cases hselect : action.targetGroup.select ticket with
  | none => simp [hselect] at h
  | some endpoint =>
  cases hauth : ut.authority endpoint.address with
  | none => simp [hselect, hauth] at h
  | some authority =>
  simp only [hselect, hauth] at h
  split at h
  · cases h
  · have hvalue := valueFromStr_authority hu hl hauth
    simp only [hvalue] at h
    obtain ⟨-, rfl, rfl, rfl⟩ := Hyper.Handled.forward.inj h
    refine ⟨rfl, fun n => ?_⟩
    cases http2Upstream with
    | true =>
      simp only [if_true]
      rw [hl.getAll_remove, hfilters, getAll_forwardHeaders_rule hl]
    | false =>
      simp only [Bool.false_eq_true, if_false]
      rw [hl.getAll_insert, hfilters, getAll_forwardHeaders_rule hl]

theorem http2_sentBy {ut : UriTypes} (hu : ut.Laws) {ticket : ℕ} {peer : PeerAddr} {forwardedHeaders : Bool}
    {target address : Bytes} {headers : ht.Map} {filters : RouteFilters}
    (h : Monoio.handle ut ht table ticket peer forwardedHeaders req = .forward target headers address filters) :
    filters = action.filters ∧ SentBy ht rule (some [address]) forwardedHeaders (some peer) req.headers headers := by
  simp only [Monoio.handle, hroute] at h
  cases hselect : action.targetGroup.select ticket with
  | none => simp [hselect] at h
  | some endpoint =>
  cases hauth : ut.authority endpoint.address with
  | none => simp [hselect, hauth] at h
  | some authority =>
  simp only [hselect, hauth, valueFromStr_authority hu hl hauth] at h
  obtain ⟨-, rfl, rfl, rfl⟩ := Monoio.Handled.forward.inj h
  refine ⟨rfl, fun n => ?_⟩
  simp only
  rw [hl.getAll_insert, hfilters, getAll_forwardHeaders_rule hl]

theorem pingora_sentBy (ut : UriTypes) (client : Option PeerAddr) (forwardedHeaders : Bool) :
    SentBy ht rule none forwardedHeaders client req.headers
      (Pingora.upstreamRequestFilter ut ht table client forwardedHeaders req).2 := by
  intro n
  have hstrip : Pingora.stripHopByHop ht req.headers = stripHopByHop ht req.headers := rfl
  simp only [Pingora.upstreamRequestFilter, Pingora.routeFilters, hroute, hfilters, hstrip]
  rw [Pingora.getAll_applyRequestFilters hl, RouteFilters.applyRequestHeaders, getAll_foldl_apply hl,
    modified_requestModifiers]
  congr 1
  cases forwardedHeaders with
  | false => rfl
  | true =>
    rw [if_pos rfl, hl.getAll_insert]
    cases client with
    | none => rfl
    | some peer =>
      simp only [Pingora.forwardedChain_eq, hl.value_visible (chainOf_visible hl (stripHopByHop ht req.headers) peer),
        hl.getAll_insert]
      rfl

theorem pingora_returnedBy (response : ht.Map) :
    ReturnedBy ht rule response (Pingora.responseFilter ht table req response) := by
  intro n
  have hstrip : Pingora.stripHopByHop ht response = stripHopByHop ht response := rfl
  simp only [Pingora.responseFilter, hroute, hfilters, hstrip]
  rw [Pingora.getAll_applyResponseFilters hl]
  exact returnedBy_applyResponseHeaders hl response n

end Planes

/-- **A hop-by-hop header ends at the proxy.**  Of a header that is hop-by-hop or that the client nominates, and that is
neither `Host` nor a forwarding header, only values that a filter of the rule writes are sent. -/
theorem sent_of_stripped {ht : HeaderTypes} (hl : ht.Laws) {rule : HttpRouteRule} {host : Option (List Bytes)}
    {forwardedHeaders : Bool} {peer : Option PeerAddr} {headers sent : ht.Map}
    (h : SentBy ht rule host forwardedHeaders peer headers sent) {n : Bytes}
    (hn : Stripped (ht.getAll headers CONNECTION) n) (hhost : n ≠ HOST)
    (hfwd : forwardedHeaders = true → n ≠ FORWARDED_PROTO ∧ n ≠ FORWARDED_FOR) {v : Bytes}
    (hv : v ∈ ht.getAll sent n) : rule.Writes ht n v := by
  have hnone : hygienic ht forwardedHeaders peer headers n = [] := by
    have hpassed := getAll_strip_of_stripped hl hn
    unfold hygienic
    cases forwardedHeaders with
    | false => exact hpassed
    | true =>
      obtain ⟨hproto, hfor⟩ := hfwd rfl
      simp only [Bool.true_eq_false, if_false, if_neg hproto]
      cases peer with
      | none => exact hpassed
      | some peer => simpa only [if_neg hfor] using hpassed
  have hvalues : v ∈ rule.requestOutcome ht n [] := by
    rw [h n, hnone] at hv
    cases host with
    | none => exact hv
    | some values => simpa only [if_neg hhost] using hv
  exact (mem_requestOutcome hvalues).resolve_left (by simp)

/-- What the planes with a header map do with a request that the action answers, in terms of a rule. -/
structure AppliesRule (ut : UriTypes) (ht : HeaderTypes) {m : PathRouter} (table : RouteTable m)
    (req : RequestParts ht) (rule : HttpRouteRule) : Prop where
  hyper : ∀ {ticket : ℕ} {peer : PeerAddr} {forwardedHeaders http2Upstream : Bool} {target address : Bytes}
    {headers : ht.Map} {filters : RouteFilters},
    Hyper.handleRequest ut ht table ticket peer forwardedHeaders http2Upstream req =
      .forward target headers address filters →
    SentBy ht rule (some (if http2Upstream then [] else [address])) forwardedHeaders (some peer) req.headers headers ∧
      ∀ response, ReturnedBy ht rule response (Hyper.handleResponse ht filters response)
  monoio : ∀ {ticket : ℕ} {peer : PeerAddr} {forwardedHeaders : Bool} {target address : Bytes} {headers : ht.Map}
    {filters : RouteFilters},
    Monoio.handle ut ht table ticket peer forwardedHeaders req = .forward target headers address filters →
    SentBy ht rule (some [address]) forwardedHeaders (some peer) req.headers headers ∧
      ∀ response, ReturnedBy ht rule response (Monoio.handleResponse ht filters response)
  pingora : ∀ (client : Option PeerAddr) (forwardedHeaders : Bool),
    SentBy ht rule none forwardedHeaders client req.headers
        (Pingora.upstreamRequestFilter ut ht table client forwardedHeaders req).2 ∧
      ∀ response, ReturnedBy ht rule response (Pingora.responseFilter ht table req response)
  /-- Of a header that is hop-by-hop or nominated, only what a filter of the rule writes is sent. -/
  stripped : ∀ {host : Option (List Bytes)} {forwardedHeaders : Bool} {peer : Option PeerAddr} {sent : ht.Map},
    SentBy ht rule host forwardedHeaders peer req.headers sent → ∀ {n : Bytes},
      Stripped (ht.getAll req.headers CONNECTION) n → n ≠ HOST →
      (forwardedHeaders = true → n ≠ FORWARDED_PROTO ∧ n ≠ FORWARDED_FOR) → ∀ v ∈ ht.getAll sent n, rule.Writes ht n v

/-- **The header filters of a rule, end to end.**  Whatever the cluster state and the order of its routes are: a request
that the compiled table answers is answered by a rule of a stored route of ours, and each plane that keeps headers in a
map sends what the filters of that rule make of the hygienic headers, and returns what they make of the response. -/
theorem rule_headers_apply {ht : HeaderTypes} (hl : ht.Laws) {ut : UriTypes} (hu : ut.Laws) {m : PathRouter}
    (hm : m.Laws) (st : ClusterState) (cfg : ControllerConfig) (order : List StoredRoute)
    (horder : order.Perm st.values) (req : RequestParts ht) (action : RouteAction)
    (hroute : (st.compile ht m cfg order).lookup req.routingHost req.path = some action) :
    ∃ stored ∈ st.values, routeIsOurs cfg stored = true ∧ ∃ (i : ℕ) (rule : HttpRouteRule),
      stored.spec.rules[i]? = some rule ∧ action.routeName = ruleName stored i ∧
        AppliesRule ut ht (st.compile ht m cfg order) req rule := by
  obtain ⟨stored, hstored, hours, i, rule, hrule, -, hostname, -, pm, -, k, hactionOf⟩ := exists_rule_of_lookup hm hroute
  have hfilters : action.filters = compileFilters ht rule.filters pm.1 := by rw [hactionOf]; rfl
  have hreturned : ∀ response, ReturnedBy ht rule response
      ((compileFilters ht rule.filters pm.1).applyResponseHeaders ht (stripHopByHop ht response)) :=
    fun response => returnedBy_applyResponseHeaders hl response
  refine ⟨stored, horder.mem_iff.mp hstored, hours, i, rule, hrule, by rw [hactionOf]; rfl, ⟨?_, ?_, ?_, ?_⟩⟩
  · intro ticket peer forwardedHeaders http2Upstream target address headers filters h
    obtain ⟨hf, hsent⟩ := hyper_sentBy hl hroute hfilters hu h
    refine ⟨hsent, fun response => ?_⟩
    rw [hf, hfilters]
    exact hreturned response
  · intro ticket peer forwardedHeaders target address headers filters h
    obtain ⟨hf, hsent⟩ := http2_sentBy hl hroute hfilters hu h
    refine ⟨hsent, fun response => ?_⟩
    rw [hf, hfilters]
    exact hreturned response
  · intro client forwardedHeaders
    exact ⟨pingora_sentBy hl hroute hfilters ut client forwardedHeaders, pingora_returnedBy hl hroute hfilters⟩
  · intro host forwardedHeaders peer sent hsent n hn hhost hfwd v hv
    exact sent_of_stripped hl hsent hn hhost hfwd hv

/-- A route whose filter sets a header and removes another. -/
def modifyingRoute : StoredRoute where
  ns := ascii "default"
  name := ascii "a"
  spec :=
    { parentRefs := []
      hostnames := []
      rules := [⟨[], [backendRef "x" none],
        [⟨ascii "RequestHeaderModifier", some ⟨[⟨ascii "X-Env", ascii "prod"⟩], [], [ascii "X-Debug"]⟩, none, none⟩]⟩] }

/-- What the filter sets replaces the value of the client. -/
theorem rule_headers_apply_modifying :
    HeaderTypes.reference.getAll (Pingora.upstreamRequestFilter .reference .reference
        ((soloState modifyingRoute ∅).compile .reference .reference anyGateway [modifyingRoute]) none false
        ⟨none, ascii "/", none, [(ascii "x-env", ascii "test"), (ascii "x-debug", ascii "1")]⟩).2 (ascii "x-env") =
      [ascii "prod"] := by
  have hroute : (((soloState modifyingRoute ∅).compile .reference .reference anyGateway [modifyingRoute]).lookup none
      (ascii "/")).isSome = true := by decide +kernel
  obtain ⟨action, haction⟩ := Option.isSome_iff_exists.mp hroute
  obtain ⟨stored, hstored, -, i, rule, hrule, -, happlies⟩ := rule_headers_apply HeaderTypes.reference_laws
    UriTypes.reference_laws PathRouter.reference_laws (soloState modifyingRoute ∅) anyGateway [modifyingRoute]
    (List.Perm.refl _) ⟨none, ascii "/", none, [(ascii "x-env", ascii "test"), (ascii "x-debug", ascii "1")]⟩ action
    haction
  obtain rfl : stored = modifyingRoute := by simpa [soloState, ClusterState.values] using hstored
  have hi : i = 0 := by
    cases i with
    | zero => rfl
    | succ i => cases hrule
  subst hi
  obtain rfl := Option.some.inj hrule
  rw [(happlies.pingora none false).1]
  decide +kernel

end LbProxy
