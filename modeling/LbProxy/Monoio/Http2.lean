import LbProxy.Lib.Stream
import LbProxy.Core.Proxy
import LbProxy.Core.RouteTable

/-!
# HTTP/2 in the Monoio data plane (`http2.rs`)

The reader that hands back what was read while the protocol was sniffed, and what `handle` does with one request before
it is sent upstream, and with the response head.

* `PrefixedIo.reader` — the replayed bytes and then those of the stream are what is read.
-/

namespace LbProxy.Monoio

open Lib LbProxy.Core

/-! ## Replaying buffered bytes -/

/-- A reader that replays already-buffered bytes before delegating to the stream. -/
structure PrefixedIo (σ : Type) where
  replayed : Bytes
  position : ℕ
  inner : σ

namespace PrefixedIo

variable {σ : Type}

def new (replayed : Bytes) (inner : σ) : PrefixedIo σ := ⟨replayed, 0, inner⟩

/-- Read into a buffer with room for `remaining` bytes. -/
def pollRead (read : σ → ℕ → ReadResult × σ) (io : PrefixedIo σ) (remaining : ℕ) : ReadResult × PrefixedIo σ :=
  if io.position < io.replayed.length then
    let available := io.replayed.drop io.position
    let n := min available.length remaining
    (.ofBytes (available.take n), { io with position := io.position + n })
  else
    let (result, inner) := read io.inner remaining
    (result, { io with inner := inner })

/-- **The replayed bytes, and then those of the stream**, are what is read. -/
def reader (R : Reader σ) : Reader (PrefixedIo σ) where
  read := pollRead R.read
  unread io := io.replayed.drop io.position ++ R.unread io.inner
  data {io io' remaining bs hne} h := by
    unfold pollRead at h
    split at h
    · simp only [Prod.mk.injEq, ReadResult.ofBytes] at h
      obtain ⟨hres, rfl⟩ := h
      split at hres
      · cases hres
      · obtain rfl := ReadResult.data.inj hres
        rw [← List.drop_drop, ← List.append_assoc, List.take_append_drop]
    · rename_i hpos
      rcases hr : R.read io.inner remaining with ⟨r, inner⟩
      simp only [hr, Prod.mk.injEq] at h
      obtain ⟨rfl, rfl⟩ := h
      have hdrop : io.replayed.drop io.position = [] := List.drop_eq_nil_of_le (by omega)
      rw [hdrop, List.nil_append, List.nil_append]
      exact R.data hr
  other {io io' remaining r} hcap h hno := by
    unfold pollRead at h
    split at h
    · rename_i hpos
      simp only [Prod.mk.injEq, ReadResult.ofBytes] at h
      obtain ⟨hres, -⟩ := h
      split at hres
      · rename_i hnil
        rw [List.take_eq_nil_iff, List.length_drop, List.drop_eq_nil_iff] at hnil
        omega
      · exact absurd hres.symm (hno _ _)
    · rename_i hpos
      rcases hr : R.read io.inner remaining with ⟨r', inner⟩
      simp only [hr, Prod.mk.injEq] at h
      obtain ⟨rfl, rfl⟩ := h
      have hdrop : io.replayed.drop io.position = [] := List.drop_eq_nil_of_le (by omega)
      rw [hdrop, List.nil_append, List.nil_append]
      exact R.other hcap hr hno

end PrefixedIo

/-! ## Requests -/

/-- What becomes of an HTTP/2 request. -/
inductive Handled (ht : HeaderTypes) where
  /-- A response without an upstream request. -/
  | reply (status : ℕ)
  /-- The selection is out of bounds. -/
  | panicked
  | forward (target : Bytes) (headers : ht.Map) (address : Bytes) (filters : RouteFilters)

section Handle

variable {m : PathRouter} (ut : UriTypes) (ht : HeaderTypes)

/-- Route one HTTP/2 request, up to the upstream round trip. -/
def handle (table : RouteTable m) (ticket : ℕ) (peer : PeerAddr) (forwardedHeaders : Bool) (req : RequestParts ht) :
    Handled ht :=
  match table.lookup req.routingHost req.path with
  | none => .reply 404
  | some action =>
    match action.targetGroup.select ticket with
    | none => .panicked
    | some target =>
      match ut.authority target.address with
      | none => .reply 502
      | some authority =>
        -- a rewritten path that is not valid falls back to the root
        let pathAndQuery := if action.filters.rewritesPath then
          (ut.pathAndQuery (withQuery (action.filters.applyUrlRewrite req.path) req.query)).getD (ascii "/")
          else withQuery req.path req.query
        let headers := forwardHeaders ht forwardedHeaders peer action.filters req.headers
        let headers := match ht.valueFromStr authority with
          | some value => ht.insert headers HOST value
          | none => headers
        .forward pathAndQuery headers target.address action.filters

/-- The response head that is returned. -/
def handleResponse (filters : RouteFilters) (headers : ht.Map) : ht.Map :=
  filters.applyResponseHeaders ht (stripHopByHop ht headers)

end Handle

end LbProxy.Monoio
