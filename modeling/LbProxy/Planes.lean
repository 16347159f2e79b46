import LbProxy.Core.RuleFilters
import LbProxy.Hyper.Server
import LbProxy.Pingora.ProxyService
import LbProxy.Monoio.Http2
import LbProxy.Monoio.EndToEnd
import LbProxy.Monoio.Exchange
import LbProxy.Monoio.Return

/-!
# The data planes side by side

One request in origin form, as each of the data planes forwards it, and one response, as each of them returns it.

* `monoioRequest`, `http2Request`, `hyperRequest`, `pingoraRequest` — the request that is sent upstream
  (for the first, see `Monoio.serveConnection_exchanged`);
* `SameRequest`, `AppliesModifiers` — they agree, and apply the response modifiers of the route;
* `Alike`, `Idle` — what the request and the route must be like for that;
* `planes_agree_iff`.
-/

namespace LbProxy

open Lib LbProxy.Core Monoio

/-! ## Requests and responses -/

/-- The head of a request as a client writes it. -/
def originLayout (method path : Bytes) (query : Option Bytes) (fields : List FieldLayout) : RequestLayout :=
  ⟨[], method, withQuery path query, 1, .crlf, fields, .crlf⟩

/-- A request in origin form: its target is an absolute path, with a query or without. -/
structure OriginRequest where
  method : Bytes
  path : Bytes
  query : Option Bytes
  fields : List FieldLayout
  path_head : path.head? = some 47
  path_bytes : 63 ∉ path
  no_fragment : 35 ∉ withQuery path query
  wf : (originLayout method path query fields).WF

namespace OriginRequest

variable (ht : HeaderTypes) (req : OriginRequest)

def target : Bytes := withQuery req.path req.query

def layout : RequestLayout := originLayout req.method req.path req.query req.fields

/-- The header list. -/
def headers : List (Bytes × Bytes) := req.fields.map FieldLayout.field

/-- The request as an HTTP library hands it over. -/
def parts : RequestParts ht := ⟨none, req.path, req.query, ht.ofFields req.headers⟩

@[simp] theorem parts_path : (req.parts ht).path = req.path := rfl

@[simp] theorem parts_query : (req.parts ht).query = req.query := rfl

@[simp] theorem parts_headers : (req.parts ht).headers = ht.ofFields req.headers := rfl

/-- The host that `parse_request` reports. -/
def lastHost : Option Bytes := (valuesOf req.headers HOST).getLast?.bind validateUtf8

/-- The target, with the path that a route rewrites the request's to. -/
def rewritten (action : RouteAction) : Bytes := withQuery (action.filters.applyUrlRewrite req.path) req.query

/-- The values of the `Connection` fields. -/
def connection : List Bytes := valuesOf req.headers CONNECTION

/-- A name that `write_forward_head` does not copy: it is hop-by-hop, or a `Connection` value lists it, visible ASCII or
not. -/
def Hidden (n : Bytes) : Prop := n = CONNECTION ∨ n ∈ Core.HOP_BY_HOP ∨ Listed req.connection n

instance (n : Bytes) : Decidable (req.Hidden n) := inferInstanceAs (Decidable (_ ∨ _ ∨ _))

/-- What `strip_hop_by_hop` leaves of a name. -/
def passed (n : Bytes) : List Bytes :=
  forwardable (Core.connectionNominated ht (ht.ofFields req.headers)) req.headers n

/-- What `write_forward_head` copies of a name. -/
def copied (n : Bytes) : List Bytes := forwardable (nominatedNames req.layout) req.headers n

/-- The `X-Forwarded-For` chain behind the first value. -/
def firstChain (peer : PeerAddr) : Bytes := chainOf ((req.passed ht FORWARDED_FOR).head?.bind ht.toStr) peer

/-- The `X-Forwarded-For` chain behind the last value. -/
def lastChain (peer : PeerAddr) : Bytes := chainOf (req.copied FORWARDED_FOR).getLast? peer

end OriginRequest

/-- The head of a response as an upstream writes it. -/
structure PlainResponse where
  layout : ResponseLayout
  wf : layout.WF
  blanks : layout.blanks = []
  eol : layout.eol = .crlf

def PlainResponse.headers (r : PlainResponse) : List (Bytes × Bytes) := r.layout.fields.map FieldLayout.field

/-- A request that is sent upstream: its target, and the values of each name. -/
structure UpstreamRequest where
  target : Bytes
  values : Bytes → List Bytes

/-! ## The planes -/

section Planes

variable {m : PathRouter}

variable (hp : HeadParser) (ut : UriTypes) (ht : HeaderTypes) (table : RouteTable m) (ticket : ℕ) (peer : PeerAddr)
  (req : OriginRequest)

/-- Monoio, HTTP/1; `rest` is buffered behind the head. -/
def monoioRequest (rest : Bytes) : Option UpstreamRequest :=
  match parseRequest hp (req.layout.render ++ rest) with
  | .complete head => (forwarded table ticket (some peer) (req.layout.render ++ rest) head).map fun x =>
      ⟨x.1, valuesOf (fieldsOf x.2)⟩
  | _ => none

/-- Monoio, HTTP/2. -/
def http2Request : Option UpstreamRequest :=
  match handle ut ht table ticket peer true (req.parts ht) with
  | .forward target headers _ _ => some ⟨target, ht.getAll headers⟩
  | _ => none

/-- Hyper, with an HTTP/1.1 upstream. -/
def hyperRequest : Option UpstreamRequest :=
  match Hyper.handleRequest ut ht table ticket peer true false (req.parts ht) with
  | .forward target headers _ _ => some ⟨target, ht.getAll headers⟩
  | _ => none

def pingoraRequest : UpstreamRequest :=
  let (target, headers) := Pingora.upstreamRequestFilter ut ht table (some peer) true (req.parts ht)
  ⟨target, ht.getAll headers⟩

/-- All planes send one request upstream. -/
def SameRequest (rest : Bytes) : Prop :=
  ∃ u, monoioRequest hp table ticket peer req rest = some u ∧ http2Request ut ht table ticket peer req = some u ∧
    hyperRequest ut ht table ticket peer req = some u ∧ pingoraRequest ut ht table peer req = u

/-- All planes return the response head with the response modifiers of the route applied to it. -/
structure AppliesModifiers (action : RouteAction) (r : PlainResponse) (keepAlive : Bool) (rest : Bytes) : Prop where
  monoio : ∀ head, parseResponse hp (r.layout.render ++ rest) req.method = .complete head → ∀ n,
    valuesOf (fieldsOf (writeReturnHead (r.layout.render ++ rest) head keepAlive)) n =
      modified action.filters.responseModifiers n (returnedValues r.layout keepAlive n)
  http2 : ∀ n, ht.getAll (handleResponse ht action.filters (ht.ofFields r.headers)) n =
    modified action.filters.responseModifiers n (ht.getAll (stripHopByHop ht (ht.ofFields r.headers)) n)
  hyper : ∀ n, ht.getAll (Hyper.handleResponse ht action.filters (ht.ofFields r.headers)) n =
    modified action.filters.responseModifiers n (ht.getAll (stripHopByHop ht (ht.ofFields r.headers)) n)
  pingora : ∀ n, ht.getAll (Pingora.responseFilter ht table (req.parts ht) (ht.ofFields r.headers)) n =
    modified action.filters.responseModifiers n (ht.getAll (stripHopByHop ht (ht.ofFields r.headers)) n)

/-- What the request, its route `action` and the route `other` that is found by the last `Host` must be like. -/
structure Alike (action other : RouteAction) (address : Bytes) : Prop where
  /-- The head fits the header slots, and its lengths are read. -/
  length_le : req.fields.length ≤ MAX_HEADERS
  lengths : ∀ x ∈ req.headers, isLength x = true → ∃ n, contentLengthOf x.2 = some n
  /-- Both routes lead to one backend, whose address is an authority. -/
  route : table.lookup req.lastHost req.path = some other
  backend : (action.targetGroup.select ticket).map (·.address) = some address
  otherBackend : (other.targetGroup.select ticket).map (·.address) = some address
  authority : (ut.authority address).isSome
  /-- If the route does not rewrite the path, neither does the other one; if it does, the http crate takes the rewritten
  target for the one that the other route forwards, or, as a URI, refuses it when that is the client's target. -/
  unrewritten : action.filters.rewritesPath = false → other.filters.applyUrlRewrite req.path = req.path
  rewritten : action.filters.rewritesPath = true →
    ut.pathAndQuery (req.rewritten action) = some (req.rewritten other) ∧
      (ut.uri (req.rewritten action) = some (req.rewritten other) ∨
        ut.uri (req.rewritten action) = none ∧ other.filters.applyUrlRewrite req.path = req.path)
  /-- The request modifiers make the client's `Host` the address of the backend, -/
  host : modified action.filters.requestModifiers HOST (req.passed ht HOST) = [address]
  /-- the chain behind the first value the one behind the last, -/
  forwardedFor : modified action.filters.requestModifiers FORWARDED_FOR [req.firstChain ht peer] = [req.lastChain peer]
  /-- repeat the client's `X-Forwarded-Proto`, -/
  forwardedProto : modified action.filters.requestModifiers FORWARDED_PROTO [ascii "http"] =
    req.copied FORWARDED_PROTO ++ [ascii "http"]
  /-- and change no other name that Monoio copies: none is for it, or they write just what the client sent. -/
  others : ∀ n, n ≠ HOST → n ≠ FORWARDED_FOR → n ≠ FORWARDED_PROTO → ¬ req.Hidden n →
    editsOf action.filters.requestModifiers n = [] ∨
      Edit.Overwrites (editsOf action.filters.requestModifiers n) (valuesOf req.headers n)
  /-- A name that Monoio hides is stripped by the others, or the client does not send it, and no modifier is for it; or the
  modifiers remove it. -/
  hidden : ∀ n, n ≠ HOST → n ≠ FORWARDED_FOR → n ≠ FORWARDED_PROTO → req.Hidden n →
    (editsOf action.filters.requestModifiers n = [] ∧ (Stripped req.connection n ∨ valuesOf req.headers n = [])) ∨
      Edit.Overwrites (editsOf action.filters.requestModifiers n) []

/-- The address of the backend is a `host:port` text, without blanks and control characters. -/
def AddressText : Prop :=
  ∀ other endpoint, table.lookup req.lastHost req.path = some other →
    other.targetGroup.select ticket = some endpoint → ∀ b ∈ endpoint.address, isPrintable b

/-- The response modifiers change nothing. -/
def Idle (action : RouteAction) (r : PlainResponse) (keepAlive : Bool) : Prop :=
  ∀ n, modified action.filters.responseModifiers n (returnedValues r.layout keepAlive n) =
    returnedValues r.layout keepAlive n

end Planes

/-! ## Targets and hosts -/

namespace OriginRequest

variable (req : OriginRequest)

theorem pathOf_target : pathOf req.target = req.path := (splitTarget_withQuery req.path_bytes req.query).2

theorem forwardTarget_target (action : RouteAction) :
    forwardTarget action req.target =
      if action.filters.rewritesPath then withQuery (action.filters.applyUrlRewrite req.path) req.query
      else req.target := by
  rw [forwardTarget, target, (splitTarget_withQuery req.path_bytes req.query).1]
  cases req.query <;> rfl

theorem lastHost_eq : req.lastHost = (lastOf isHost req.headers).elim none fun h => validateUtf8 h.2 :=
  (lastOf_isHost_elim req.headers).symm

theorem forwardTarget_eq_rewritten (action : RouteAction) : forwardTarget action req.target = req.rewritten action := by
  rw [forwardTarget_target, rewritten]
  split
  · rfl
  · rename_i hno
    rw [action.filters.applyUrlRewrite_of_not_rewritesPath (by simpa using hno), target]

theorem rewritten_eq_target_iff (action : RouteAction) :
    req.rewritten action = req.target ↔ action.filters.applyUrlRewrite req.path = req.path := by
  constructor
  · intro h
    cases hq : req.query with
    | none => simpa [rewritten, target, withQuery, hq] using h
    | some q => simpa [rewritten, target, withQuery, hq] using h
  · intro h
    rw [rewritten, h, target]

/-! ## The values of one name -/

variable {ht : HeaderTypes}

theorem name_of_valuesOf_ne {n : Bytes} (h : valuesOf req.headers n ≠ []) : n ≠ [] ∧ n.all isToken = true := by
  obtain ⟨v, hv⟩ := List.exists_mem_of_ne_nil _ h
  rw [valuesOf, List.mem_map] at hv
  obtain ⟨x, hx, -⟩ := hv
  obtain ⟨hx, hn⟩ := List.mem_filter.mp hx
  obtain ⟨f, hf, rfl⟩ := List.mem_map.mp hx
  obtain rfl : lowercase f.name = n := by simpa [FieldLayout.field] using hn
  exact ⟨lowercase_name_ne req.wf.fields_wf hf, lowercase_name_token req.wf.fields_wf hf⟩

theorem passed_eq (hl : ht.Laws) (n : Bytes) :
    req.passed ht n = if Stripped req.connection n then [] else valuesOf req.headers n := by
  refine if_congr ?_ rfl rfl
  rw [mem_connectionNominated_iff hl, HeaderTypes.getAll_ofFields hl]
  rfl

theorem copied_eq (n : Bytes) : req.copied n = if req.Hidden n then [] else valuesOf req.headers n := by
  by_cases hvalues : valuesOf req.headers n = []
  · simp [copied, forwardable, hvalues]
  obtain ⟨hne, htoken⟩ := req.name_of_valuesOf_ne hvalues
  have hwf : req.layout.WF := req.wf
  have hread : readFields req.layout = req.headers := readFields_plain hwf rfl rfl
  refine if_congr ?_ rfl rfl
  rw [mem_nominatedNames_iff hwf hne htoken, hread]
  rfl

theorem hidden_of_stripped {n : Bytes} (h : Stripped req.connection n) : req.Hidden n :=
  h.imp_right (.imp_right fun hnom => (listed_iff _ n).mpr (.inl hnom))

/-- **What is passed on of a name comes out as what is copied** if the modifiers leave alone what is not hidden, and what
is hidden from Monoio only is not sent, or removed. -/
theorem modified_passed_iff (hl : ht.Laws) (cs : List Compiled) (n : Bytes) :
    modified cs n (req.passed ht n) = req.copied n ↔
      (¬ req.Hidden n → editsOf cs n = [] ∨ Edit.Overwrites (editsOf cs n) (valuesOf req.headers n)) ∧
      (req.Hidden n → (editsOf cs n = [] ∧ (Stripped req.connection n ∨ valuesOf req.headers n = [])) ∨
        Edit.Overwrites (editsOf cs n) []) := by
  rw [modified_eq_run, passed_eq req hl, copied_eq]
  by_cases hhidden : req.Hidden n
  · rw [if_pos hhidden, Edit.run_eq_nil_iff]
    simp [hhidden, or_iff_not_imp_left]
  · have hstripped : ¬ Stripped req.connection n := fun h => hhidden (req.hidden_of_stripped h)
    rw [if_neg hhidden, if_neg hstripped, Edit.run_eq_self_iff]
    simp [hhidden]

end OriginRequest

/-! ## What each plane sends -/

section Sends

variable {m : PathRouter} {table : RouteTable m} {ticket : ℕ} {peer : PeerAddr} {req : OriginRequest}

/-- **What Monoio sends**, if it accepts the head and finds a route for the last `Host`. -/
theorem monoioRequest_eq_some {hp : HeadParser} (hl : hp.Laws) {rest : Bytes} {u : UpstreamRequest} :
    monoioRequest hp table ticket peer req rest = some u ↔
      req.fields.length ≤ MAX_HEADERS ∧ (∀ x ∈ req.headers, isLength x = true → ∃ n, contentLengthOf x.2 = some n) ∧
      ∃ other endpoint, table.lookup req.lastHost req.path = some other ∧
        other.targetGroup.select ticket = some endpoint ∧
        u = ⟨forwardTarget other req.target, valuesOf (fieldsOf (writeForwardHead (req.layout.render ++ rest)
          (headOf req.layout (Framing.init true) 0) (forwardTarget other req.target) endpoint.address (some peer)))⟩ := by
  have hforwarded : ∀ f pos, Reads (Framing.init true) req.headers f →
      (forwarded table ticket (some peer) (req.layout.render ++ rest) (headOf req.layout f pos)) =
        (table.lookup req.lastHost req.path).bind fun other => (other.targetGroup.select ticket).map fun endpoint =>
          (forwardTarget other req.target, writeForwardHead (req.layout.render ++ rest)
            (headOf req.layout (Framing.init true) 0) (forwardTarget other req.target) endpoint.address (some peer)) := by
    intro f pos hreads
    have hhost : (headOf req.layout f pos).host = req.lastHost := by
      rw [req.lastHost_eq]
      exact hreads.host
    have hpath : pathOf (headOf req.layout f pos).target = req.path := req.pathOf_target
    rw [forwarded, hhost, hpath]
    rfl
  constructor
  · intro h
    unfold monoioRequest at h
    split at h
    · rename_i head hparse
      have hlen : req.layout.fields.length ≤ MAX_HEADERS := by
        cases hr : hp.request MAX_HEADERS (req.layout.render ++ rest) with
        | incomplete => simp [parseRequest, hr] at hparse
        | error => simp [parseRequest, hr] at hparse
        | complete n raw => exact HeadParser.request_length_le hl req.wf hr
      obtain ⟨f, pos, hf, -, rfl⟩ := parseRequest_layout hl req.wf hlen hparse
      have hreads := framingOf_reads hf
      obtain ⟨x, hx, rfl⟩ := Option.map_eq_some_iff.mp h
      have hx := (hforwarded f pos hreads).symm.trans hx
      obtain ⟨other, hroute, hx⟩ := Option.bind_eq_some_iff.mp hx
      obtain ⟨endpoint, hselect, rfl⟩ := Option.map_eq_some_iff.mp hx
      exact ⟨hlen, hreads.lengths, other, endpoint, hroute, hselect, rfl⟩
    · cases h
  · rintro ⟨hlen, hlengths, other, endpoint, hroute, hselect, rfl⟩
    obtain ⟨f, hf⟩ := foldlM_requestField_isSome (Framing.init true) hlengths
    obtain ⟨pos, hparse⟩ := parseRequest_of_layout hl req.wf hlen hf rest
    have hparse : parseRequest hp (req.layout.render ++ rest) = _ := hparse
    simp only [monoioRequest, hparse]
    show (forwarded table ticket (some peer) _ (headOf req.layout f pos)).map _ = _
    rw [hforwarded f pos (foldlM_requestField hf), hroute]
    simp [hselect]

variable {ut : UriTypes} (hu : ut.Laws) {ht : HeaderTypes} (hl : ht.Laws) {action : RouteAction}
  (hroute : table.lookup (req.parts ht).routingHost req.path = some action)

/-- The values of a name behind the steps that the planes with a map share. -/
def steppedValues (ht : HeaderTypes) (peer : PeerAddr) (req : OriginRequest) (action : RouteAction) (n : Bytes) :
    List Bytes :=
  modified action.filters.requestModifiers n
    (if n = FORWARDED_PROTO then [ascii "http"]
      else if n = FORWARDED_FOR then [req.firstChain ht peer]
      else req.passed ht n)

include hl in
theorem getAll_forwardHeaders_parts (n : Bytes) :
    ht.getAll (forwardHeaders ht true peer action.filters (ht.ofFields req.headers)) n =
      steppedValues ht peer req action n := by
  have hget : (ht.get (stripHopByHop ht (ht.ofFields req.headers)) FORWARDED_FOR) =
      (req.passed ht FORWARDED_FOR).head? := by
    rw [HeaderTypes.get, getAll_stripHopByHop_ofFields hl]
    rfl
  rw [getAll_forwardHeaders hl, steppedValues, OriginRequest.firstChain, ← hget, OriginRequest.passed,
    ← getAll_stripHopByHop_ofFields hl]

include hu hl in
theorem valueFromStr_authority {address authority : Bytes} (hauth : ut.authority address = some authority) :
    ht.valueFromStr authority = some address := by
  obtain ⟨rfl, hbytes⟩ := hu.authority_text hauth
  refine hl.value_visible ?_
  rw [List.all_eq_true] at hbytes ⊢
  intro b hb
  have hb := hbytes b hb
  simp only [isVisible, Bool.or_eq_true, Bool.and_eq_true, decide_eq_true_eq, UInt8.le_iff_toNat_le,
    UInt8.toNat_ofNat] at hb ⊢
  omega

include hl in
theorem getAll_insert_host (address : Bytes) :
    ht.getAll (ht.insert (forwardHeaders ht true peer action.filters (ht.ofFields req.headers)) HOST address) =
      fun n => if n = HOST then [address] else steppedValues ht peer req action n := by
  funext n
  rw [hl.getAll_insert, getAll_forwardHeaders_parts hl]

include hu hl hroute in
/-- **What Hyper sends.** -/
theorem hyperRequest_eq : hyperRequest ut ht table ticket peer req =
    (action.targetGroup.select ticket).bind fun endpoint =>
      (ut.authority endpoint.address).bind fun _ =>
        (if action.filters.rewritesPath then ut.pathAndQuery (forwardTarget action req.target)
          else some req.target).map fun target =>
            ⟨target, fun n => if n = HOST then [endpoint.address] else steppedValues ht peer req action n⟩ := by
  have htarget := req.forwardTarget_target action
  simp only [hyperRequest, Hyper.handleRequest, OriginRequest.parts_path, OriginRequest.parts_query,
    OriginRequest.parts_headers, hroute]
  cases hselect : action.targetGroup.select ticket with
  | none => rfl
  | some endpoint =>
    cases hauth : ut.authority endpoint.address with
    | none => simp [hauth]
    | some authority =>
      simp only [hauth, Option.bind_some, valueFromStr_authority hu hl hauth, Bool.false_eq_true, if_false]
      cases hrewrites : action.filters.rewritesPath with
      | false =>
        simp only [Bool.false_eq_true, if_false, Option.map_some, getAll_insert_host hl]
        rfl
      | true =>
        rw [hrewrites, if_pos rfl] at htarget
        simp only [if_true, htarget]
        cases ut.pathAndQuery (withQuery (action.filters.applyUrlRewrite req.path) req.query) with
        | none => rfl
        | some t => simp only [Option.map_some, getAll_insert_host hl]

include hu hl hroute in
/-- **What Monoio sends for HTTP/2.** -/
theorem http2Request_eq : http2Request ut ht table ticket peer req =
    (action.targetGroup.select ticket).bind fun endpoint =>
      (ut.authority endpoint.address).map fun _ =>
        ⟨if action.filters.rewritesPath then (ut.pathAndQuery (forwardTarget action req.target)).getD (ascii "/")
          else req.target,
          fun n => if n = HOST then [endpoint.address] else steppedValues ht peer req action n⟩ := by
  have htarget := req.forwardTarget_target action
  simp only [http2Request, handle, OriginRequest.parts_path, OriginRequest.parts_query, OriginRequest.parts_headers,
    hroute]
  cases hselect : action.targetGroup.select ticket with
  | none => rfl
  | some endpoint =>
    cases hauth : ut.authority endpoint.address with
    | none => simp [hauth]
    | some authority =>
      simp only [hauth, Option.bind_some, Option.map_some, valueFromStr_authority hu hl hauth, getAll_insert_host hl]
      cases hrewrites : action.filters.rewritesPath with
      | false => rfl
      | true =>
        rw [hrewrites, if_pos rfl] at htarget
        rw [htarget]
        rfl

include hl in
theorem getAll_pingora (n : Bytes) :
    ht.getAll (Pingora.applyRequestFilters ht action.filters
      (ht.insert (ht.insert (stripHopByHop ht (ht.ofFields req.headers)) FORWARDED_FOR
        (chainOf ((ht.get (stripHopByHop ht (ht.ofFields req.headers)) FORWARDED_FOR).bind ht.toStr) peer))
        FORWARDED_PROTO (ascii "http"))) n = steppedValues ht peer req action n := by
  rw [Pingora.getAll_applyRequestFilters hl, RouteFilters.applyRequestHeaders, getAll_foldl_apply hl, hl.getAll_insert,
    hl.getAll_insert, ← getAll_forwardHeaders_parts hl, getAll_forwardHeaders hl]

include hl hroute in
/-- **What Pingora sends**: the client's `Host` is left to the modifiers. -/
theorem pingoraRequest_eq : pingoraRequest ut ht table peer req =
    ⟨if action.filters.rewritesPath then (ut.uri (forwardTarget action req.target)).getD req.target else req.target,
      steppedValues ht peer req action⟩ := by
  have htarget := req.forwardTarget_target action
  have hstrip : Pingora.stripHopByHop ht (ht.ofFields req.headers) = stripHopByHop ht (ht.ofFields req.headers) := rfl
  have hchain := hl.value_visible (chainOf_visible hl (stripHopByHop ht (ht.ofFields req.headers)) peer)
  have hvalues : ht.getAll (Pingora.applyRequestFilters ht action.filters _) = steppedValues ht peer req action :=
    funext fun n => getAll_pingora hl n
  simp only [pingoraRequest, Pingora.upstreamRequestFilter, Pingora.routeFilters, OriginRequest.parts_path,
    OriginRequest.parts_query, OriginRequest.parts_headers, hroute, if_true, hstrip, Pingora.forwardedChain_eq, hchain,
    hvalues]
  cases hrewrites : action.filters.rewritesPath with
  | false => rfl
  | true =>
    rw [hrewrites, if_pos rfl] at htarget
    rw [htarget]
    rfl

/-- The values of a name in the head that Monoio writes. -/
def copiedValues (peer : PeerAddr) (req : OriginRequest) (address n : Bytes) : List Bytes :=
  if n = HOST then [address]
  else if n = FORWARDED_FOR then [req.lastChain peer]
  else if n = FORWARDED_PROTO then req.copied n ++ [ascii "http"]
  else req.copied n

theorem valuesOf_monoio {target address : Bytes} (htarget : ∀ b ∈ target, isLineByte b)
    (haddress : ∀ b ∈ address, isPrintable b) (f : Framing) (pos : ℕ) (rest : Bytes) :
    valuesOf (fieldsOf (writeForwardHead (req.layout.render ++ rest) (headOf req.layout f pos) target address
      (some peer))) = copiedValues peer req address := by
  have hwf : req.layout.WF := req.wf
  funext n
  have hstray : copiedStray req.layout = [] := copiedStray_plain rfl
  rw [valuesOf_forward hwf htarget haddress peer f pos rest (by rw [hstray]; rfl), existingXff_eq,
    readFields_plain hwf rfl rfl, visibleFields_plain rfl]
  rfl

include hu in
theorem isLineByte_of_hyper {target : Bytes}
    (h : (if action.filters.rewritesPath then ut.pathAndQuery (forwardTarget action req.target)
      else some req.target) = some target) : ∀ b ∈ target, isLineByte b := by
  intro b hb
  split at h
  · obtain ⟨h10, h13⟩ := hu.pathAndQuery_bytes h b hb
    simp [isLineByte, h10, h13]
  · obtain rfl := Option.some.inj h
    exact isLineByte_of_isFieldByte (isFieldByte_of_isTargetByte (req.wf.target_bytes b hb))

/-- The values agree exactly if they do so on each of the special names and on the others. -/
theorem stepped_eq_copied_iff {address : Bytes} :
    steppedValues ht peer req action = copiedValues peer req address ↔
      modified action.filters.requestModifiers HOST (req.passed ht HOST) = [address] ∧
      modified action.filters.requestModifiers FORWARDED_FOR [req.firstChain ht peer] = [req.lastChain peer] ∧
      modified action.filters.requestModifiers FORWARDED_PROTO [ascii "http"] =
        req.copied FORWARDED_PROTO ++ [ascii "http"] ∧
      ∀ n, n ≠ HOST → n ≠ FORWARDED_FOR → n ≠ FORWARDED_PROTO →
        modified action.filters.requestModifiers n (req.passed ht n) = req.copied n := by
  have hne : HOST ≠ FORWARDED_FOR ∧ HOST ≠ FORWARDED_PROTO ∧ FORWARDED_FOR ≠ FORWARDED_PROTO := by decide
  rw [funext_iff]
  constructor
  · intro h
    refine ⟨?_, ?_, ?_, fun n h1 h2 h3 => ?_⟩
    · simpa [steppedValues, copiedValues, hne] using h HOST
    · simpa [steppedValues, copiedValues, hne, hne.1.symm] using h FORWARDED_FOR
    · simpa [steppedValues, copiedValues, hne.2.1.symm, hne.2.2.symm] using h FORWARDED_PROTO
    · simpa [steppedValues, copiedValues, h1, h2, h3] using h n
  · rintro ⟨hhost, hfor, hproto, hothers⟩ n
    by_cases h1 : n = HOST
    · subst h1
      simpa [steppedValues, copiedValues, hne] using hhost
    by_cases h2 : n = FORWARDED_FOR
    · subst h2
      simpa [steppedValues, copiedValues, hne, h1] using hfor
    by_cases h3 : n = FORWARDED_PROTO
    · subst h3
      simpa [steppedValues, copiedValues, h1, h2] using hproto
    · simpa [steppedValues, copiedValues, h1, h2, h3] using hothers n h1 h2 h3

end Sends

/-! ## The equivalence -/

section Agree

variable {m : PathRouter} {hp : HeadParser} (hpl : hp.Laws) {ut : UriTypes} (hu : ut.Laws) {ht : HeaderTypes}
  (hl : ht.Laws) {table : RouteTable m} {ticket : ℕ} {peer : PeerAddr} {req : OriginRequest}
  (haddr : AddressText table ticket req) {action : RouteAction}
  (hroute : table.lookup (req.parts ht).routingHost req.path = some action) {rest : Bytes}

include hpl hu hl haddr hroute in
/-- If the planes send one request, the request and the route are alike for them. -/
theorem alike_of_sameRequest (h : SameRequest hp ut ht table ticket peer req rest) :
    ∃ other address, Alike ut ht table ticket peer req action other address := by
  obtain ⟨u, hm, -, hh, hpg⟩ := h
  obtain ⟨hlen, hlengths, other, endpoint', hroute', hselect', rfl⟩ := (monoioRequest_eq_some hpl).mp hm
  rw [hyperRequest_eq hu hl hroute] at hh
  obtain ⟨endpoint, hselect, hh⟩ := Option.bind_eq_some_iff.mp hh
  obtain ⟨authority, hauth, hh⟩ := Option.bind_eq_some_iff.mp hh
  obtain ⟨target, htarget, hh⟩ := Option.map_eq_some_iff.mp hh
  obtain ⟨rfl, hhyper⟩ := UpstreamRequest.mk.inj hh
  rw [pingoraRequest_eq hl hroute] at hpg
  obtain ⟨hptarget, hpingora⟩ := UpstreamRequest.mk.inj hpg
  rw [valuesOf_monoio (isLineByte_of_hyper hu htarget) (haddr _ _ hroute' hselect')] at hhyper hpingora
  have haddress : endpoint'.address = endpoint.address := by
    have := congrFun hhyper HOST
    simpa [copiedValues] using this.symm
  obtain ⟨hhost, hfor, hproto, hothers⟩ := stepped_eq_copied_iff.mp hpingora
  have hnames := fun n h1 h2 h3 => (req.modified_passed_iff hl _ n).mp (hothers n h1 h2 h3)
  rw [req.forwardTarget_eq_rewritten, req.forwardTarget_eq_rewritten] at htarget hptarget
  refine ⟨other, endpoint'.address, ⟨hlen, hlengths, hroute', ?_, ?_, ?_, ?_, ?_, hhost, hfor, hproto,
    fun n h1 h2 h3 => (hnames n h1 h2 h3).1, fun n h1 h2 h3 => (hnames n h1 h2 h3).2⟩⟩
  · simp [hselect, haddress]
  · simp [hselect']
  · simp [haddress, hauth]
  · intro hrewrites
    rw [if_neg (by simp [hrewrites])] at htarget
    exact (req.rewritten_eq_target_iff other).mp (Option.some.inj htarget).symm
  · intro hrewrites
    rw [if_pos hrewrites] at htarget hptarget
    refine ⟨htarget, ?_⟩
    cases huri : ut.uri (req.rewritten action) with
    | some u =>
      rw [huri] at hptarget
      exact .inl (congrArg some hptarget)
    | none =>
      rw [huri] at hptarget
      exact .inr ⟨rfl, (req.rewritten_eq_target_iff other).mp hptarget.symm⟩

include hpl hu hl haddr hroute in
/-- And the planes send one request then. -/
theorem sameRequest_of_alike {other : RouteAction} {address : Bytes}
    (h : Alike ut ht table ticket peer req action other address) : SameRequest hp ut ht table ticket peer req rest := by
  obtain ⟨endpoint, hselect, rfl⟩ := Option.map_eq_some_iff.mp h.backend
  obtain ⟨endpoint', hselect', haddress⟩ := Option.map_eq_some_iff.mp h.otherBackend
  obtain ⟨authority, hauth⟩ := Option.isSome_iff_exists.mp h.authority
  have hvalues : steppedValues ht peer req action = copiedValues peer req endpoint.address :=
    stepped_eq_copied_iff.mpr ⟨h.host, h.forwardedFor, h.forwardedProto, fun n h1 h2 h3 =>
      (req.modified_passed_iff hl _ n).mpr ⟨h.others n h1 h2 h3, h.hidden n h1 h2 h3⟩⟩
  have hhostValues : (fun n => if n = HOST then [endpoint.address] else steppedValues ht peer req action n) =
      copiedValues peer req endpoint.address := by
    funext n
    rw [hvalues]
    by_cases hn : n = HOST <;> simp [hn, copiedValues]
  have htarget : (if action.filters.rewritesPath then ut.pathAndQuery (forwardTarget action req.target)
      else some req.target) = some (forwardTarget other req.target) := by
    split
    · rename_i hrewrites
      rw [req.forwardTarget_eq_rewritten, req.forwardTarget_eq_rewritten, (h.rewritten hrewrites).1]
    · rename_i hrewrites
      rw [req.forwardTarget_eq_rewritten, (req.rewritten_eq_target_iff other).mpr (h.unrewritten (by simpa using hrewrites))]
  refine ⟨⟨forwardTarget other req.target, copiedValues peer req endpoint.address⟩, ?_, ?_, ?_, ?_⟩
  · refine (monoioRequest_eq_some hpl).mpr ⟨h.length_le, h.lengths, other, endpoint', h.route, hselect', ?_⟩
    rw [valuesOf_monoio (isLineByte_of_hyper hu htarget) (haddr _ _ h.route hselect'), haddress]
  · rw [http2Request_eq hu hl hroute, hselect, Option.bind_some, hauth, Option.map_some, hhostValues]
    split at htarget
    · rename_i hrewrites
      rw [if_pos hrewrites, htarget]
      rfl
    · rename_i hrewrites
      rw [if_neg hrewrites, ← Option.some.inj htarget]
  · rw [hyperRequest_eq hu hl hroute, hselect, Option.bind_some, hauth, Option.bind_some, htarget, Option.map_some,
      hhostValues]
  · rw [pingoraRequest_eq hl hroute, hvalues]
    split
    · rename_i hrewrites
      rw [req.forwardTarget_eq_rewritten, req.forwardTarget_eq_rewritten]
      rcases (h.rewritten hrewrites).2 with huri | ⟨huri, hsame⟩
      · rw [huri, Option.getD_some]
      · rw [huri, Option.getD_none, (req.rewritten_eq_target_iff other).mpr hsame]
    · rename_i hrewrites
      rw [req.forwardTarget_eq_rewritten, (req.rewritten_eq_target_iff other).mpr (h.unrewritten (by simpa using hrewrites))]

include hpl hl hroute in
/-- The planes with a map apply the response modifiers; Monoio does so exactly if they change nothing. -/
theorem appliesModifiers_iff {r : PlainResponse} {keepAlive : Bool} :
    AppliesModifiers hp ht table req action r keepAlive rest ↔
      (r.layout.fields.length ≤ MAX_HEADERS → Idle action r keepAlive) := by
  have hreturn : ∀ {head : ResponseHead}, parseResponse hp (r.layout.render ++ rest) req.method = .complete head →
      r.layout.fields.length ≤ MAX_HEADERS ∧ ∀ n,
        valuesOf (fieldsOf (writeReturnHead (r.layout.render ++ rest) head keepAlive)) n =
          returnedValues r.layout keepAlive n := by
    intro head hparse
    obtain ⟨raw, hraw, -⟩ := parseResponse_eq hparse
    have hlen := HeadParser.response_length_le hpl r.wf hraw
    rw [hpl.response_complete rest r.wf hlen] at hraw
    exact ⟨hlen, valuesOf_return r.wf r.blanks r.eol (HeadStatus.complete.inj hraw).1.symm keepAlive rest⟩
  constructor
  · intro h hlen n
    obtain ⟨head, hparse⟩ : ∃ head, parseResponse hp (r.layout.render ++ rest) req.method = .complete head := by
      simp only [parseResponse, hpl.response_complete rest r.wf hlen, ResponseLayout.raw]
      exact ⟨_, rfl⟩
    rw [← h.monoio head hparse n, (hreturn hparse).2 n]
  · intro h
    refine ⟨fun head hparse n => ?_, fun n => ?_, fun n => ?_, fun n => ?_⟩
    · rw [(hreturn hparse).2 n, h (hreturn hparse).1 n]
    · rw [handleResponse, RouteFilters.applyResponseHeaders, getAll_foldl_apply hl]
    · rw [Hyper.handleResponse, RouteFilters.applyResponseHeaders, getAll_foldl_apply hl]
    · simp only [Pingora.responseFilter, OriginRequest.parts_path, hroute]
      rw [Pingora.getAll_applyResponseFilters hl, RouteFilters.applyResponseHeaders, getAll_foldl_apply hl]
      rfl

/-- **The planes forward one request, and apply the response modifiers, exactly if the request and the route are
alike for all of them and the response modifiers change nothing.** -/
theorem planes_agree_iff {hp : HeadParser} (hpl : hp.Laws) {ut : UriTypes} (hu : ut.Laws) {ht : HeaderTypes}
    (hl : ht.Laws) (table : RouteTable m) (ticket : ℕ) (peer : PeerAddr) (req : OriginRequest)
    (haddr : AddressText table ticket req) (action : RouteAction)
    (hroute : table.lookup (req.parts ht).routingHost req.path = some action) (r : PlainResponse) (keepAlive : Bool)
    (rest rest' : Bytes) :
    (SameRequest hp ut ht table ticket peer req rest ∧ AppliesModifiers hp ht table req action r keepAlive rest') ↔
      (∃ other address, Alike ut ht table ticket peer req action other address) ∧
        (r.layout.fields.length ≤ MAX_HEADERS → Idle action r keepAlive) := by
  refine and_congr ⟨alike_of_sameRequest hpl hu hl haddr hroute, ?_⟩ (appliesModifiers_iff hpl hl hroute)
  rintro ⟨other, address, h⟩
  exact sameRequest_of_alike hpl hu hl haddr hroute h

end Agree

/-! ## Two routes -/

/-- A route for every request to one backend. -/
def sampleFiltered (filters : RouteFilters) : RouteSpec :=
  ⟨none, ascii "/", .pathPrefix, [⟨ascii "10.0.0.1:80", 1⟩], filters, ascii "default/a#0"⟩

def sampleTable (filters : RouteFilters) : RouteTable PathRouter.reference :=
  RouteTableBuilder.buildAll _ [sampleFiltered filters]

/-- The client names the backend. -/
def sampleOrigin : OriginRequest where
  method := ascii "GET"
  path := ascii "/a"
  query := some (ascii "q=1")
  fields := [⟨ascii "Host", [32], ascii "10.0.0.1:80", [], .crlf⟩, ⟨ascii "X-Trace", [32], ascii "7", [], .crlf⟩]
  path_head := by decide
  path_bytes := by decide
  no_fragment := by decide
  wf := by decide

def sampleOk : PlainResponse where
  layout := ⟨[], 1, 200, some (ascii "OK"), .crlf, [⟨ascii "Content-Length", [32], ascii "2", [], .crlf⟩], .crlf⟩
  wf := by decide
  blanks := rfl
  eol := rfl

def samplePeer : PeerAddr := .sample

/-- A rewrite, and modifiers that find nothing to remove. -/
def sampleIdle : RouteFilters :=
  ⟨some ⟨[.remove (ascii "x-debug")], [.remove (ascii "x-powered-by")], some (.exact (ascii "/b"))⟩⟩

/-- A modifier of the request. -/
def sampleSet : RouteFilters := ⟨some ⟨[.set (ascii "x-env") (ascii "prod")], [], none⟩⟩

theorem planes_agree_idle :
    SameRequest .reference .reference .reference (sampleTable sampleIdle) 0 samplePeer sampleOrigin [] ∧
      AppliesModifiers .reference .reference (sampleTable sampleIdle) sampleOrigin
        (RouteTableBuilder.actionOf 0 (sampleFiltered sampleIdle)) sampleOk true (ascii "hi") := by
  have hroute : (sampleTable sampleIdle).lookup sampleOrigin.lastHost sampleOrigin.path =
      some (RouteTableBuilder.actionOf 0 (sampleFiltered sampleIdle)) := by decide +kernel
  have haddr : AddressText (sampleTable sampleIdle) 0 sampleOrigin := by
    intro other endpoint hother hselect
    rw [hroute] at hother
    obtain rfl := Option.some.inj hother
    obtain rfl : (⟨ascii "10.0.0.1:80", 1⟩ : BackendEndpoint) = endpoint := Option.some.inj hselect
    exact List.all_eq_true.mp (by decide)
  -- the only modifier removes a name that the client does not send
  have hedits : ∀ n, editsOf (RouteTableBuilder.actionOf 0 (sampleFiltered sampleIdle)).filters.requestModifiers n = [] ∨
      n = ascii "x-debug" := by
    intro n
    by_cases hn : n = ascii "x-debug"
    · exact .inr hn
    · exact .inl (by simp [editsOf, Compiled.edit, hn, RouteTableBuilder.actionOf, sampleFiltered, sampleIdle,
        RouteFilters.requestModifiers])
  have hremoved : Edit.Overwrites
      (editsOf (RouteTableBuilder.actionOf 0 (sampleFiltered sampleIdle)).filters.requestModifiers (ascii "x-debug")) [] :=
    ⟨⟨.remove, List.mem_cons_self, rfl⟩, rfl⟩
  refine (planes_agree_iff HeadParser.reference_laws UriTypes.reference_laws HeaderTypes.reference_laws
    (sampleTable sampleIdle) 0 samplePeer sampleOrigin haddr (RouteTableBuilder.actionOf 0 (sampleFiltered sampleIdle))
    (by decide +kernel) sampleOk true [] (ascii "hi")).mpr
      ⟨⟨RouteTableBuilder.actionOf 0 (sampleFiltered sampleIdle), ascii "10.0.0.1:80", ?_⟩, ?_⟩
  · have hlength : ∀ x ∈ sampleOrigin.headers, isLength x = false := by decide
    refine ⟨by decide, fun x hx h => absurd h (by simp [hlength x hx]), hroute, by decide, by decide, by decide, ?_, ?_,
      ?_, ?_, ?_, ?_, ?_⟩
    · decide
    · decide
    · decide +kernel
    · decide +kernel
    · decide +kernel
    · rintro n - - - -
      rcases hedits n with hn | rfl
      · exact .inl hn
      · exact .inr hremoved
    · rintro n - - - hhidden
      rcases hedits n with hn | rfl
      · -- there is no `Connection` field, so only the hop-by-hop names are hidden
        have hnone : sampleOrigin.connection = [] := by decide
        refine .inl ⟨hn, .inl (hhidden.imp_right (.imp_right ?_))⟩
        rintro ⟨value, hvalue, -⟩
        rw [hnone] at hvalue
        cases hvalue
      · exact .inr hremoved
  · intro _ n
    show (if n = ascii "x-powered-by" then [] else _) = _
    split
    · rename_i hn
      subst hn
      decide +kernel
    · rfl

/-- Monoio does not send the header that Hyper sends. -/
theorem modifier_is_not_forwarded :
    (sampleTable sampleSet).lookup (sampleOrigin.parts .reference).routingHost sampleOrigin.path =
        some (RouteTableBuilder.actionOf 0 (sampleFiltered sampleSet)) ∧
      ¬ SameRequest .reference .reference .reference (sampleTable sampleSet) 0 samplePeer sampleOrigin [] := by
  refine ⟨by decide +kernel, ?_⟩
  rintro ⟨u, hm, -, hh, -⟩
  have hmonoio : (monoioRequest .reference (sampleTable sampleSet) 0 samplePeer sampleOrigin []).map
      (·.values (ascii "x-env")) = some [] := by decide +kernel
  have hhyper : (hyperRequest .reference .reference (sampleTable sampleSet) 0 samplePeer sampleOrigin).map
      (·.values (ascii "x-env")) = some [ascii "prod"] := by decide +kernel
  rw [hm] at hmonoio
  rw [hh] at hhyper
  have := hmonoio.symm.trans hhyper
  exact absurd this (by decide)

end LbProxy
