import LbProxy.Core.Proxy
import LbProxy.Core.RouteTable

/-!
# The Hyper data plane (`server.rs`)

What `handle_request` does with one request before it is sent upstream, and with the response head.
-/

namespace LbProxy.Hyper

open Lib LbProxy.Core

/-- What becomes of a request. -/
inductive Handled (ht : HeaderTypes) where
  /-- A response without an upstream request. -/
  | reply (status : ℕ)
  /-- The selection is out of bounds. -/
  | panicked
  | forward (target : Bytes) (headers : ht.Map) (address : Bytes) (filters : RouteFilters)

section Handle

variable {m : PathRouter} (ut : UriTypes) (ht : HeaderTypes)

/-- Handle one request up to the upstream round trip. -/
def handleRequest (table : RouteTable m) (ticket : ℕ) (peer : PeerAddr) (forwardedHeaders http2Upstream : Bool)
    (req : RequestParts ht) : Handled ht :=
  match table.lookup req.routingHost req.path with
  | none => .reply 404
  | some action =>
    match action.targetGroup.select ticket with
    | none => .panicked
    | some target =>
      match ut.authority target.address with
      | none => .reply 502
      | some authority =>
        let pathAndQuery := if action.filters.rewritesPath then
          ut.pathAndQuery (withQuery (action.filters.applyUrlRewrite req.path) req.query)
          else some (withQuery req.path req.query)
        match pathAndQuery with
        | none => .reply 500
        | some pathAndQuery =>
          let headers := forwardHeaders ht forwardedHeaders peer action.filters req.headers
          let headers := if http2Upstream then ht.remove headers HOST
            else match ht.valueFromStr authority with
              | some value => ht.insert headers HOST value
              | none => headers
          .forward pathAndQuery headers target.address action.filters

/-- The response head that is returned. -/
def handleResponse (filters : RouteFilters) (headers : ht.Map) : ht.Map :=
  filters.applyResponseHeaders ht (stripHopByHop ht headers)

end Handle

end LbProxy.Hyper
