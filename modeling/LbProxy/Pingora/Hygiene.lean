import LbProxy.Core.HopByHop
import LbProxy.Pingora.ProxyService

/-!
# Hop-by-hop hygiene through the header API (`proxy_service.rs`)

A Pingora header keeps a map of names beside its header map, so headers are removed through its own API.

* `HeaderApi`, `HeaderApi.Laws` — a header with a header map in it, and what removing a header does to that map;
* `stripHopByHopRequest`, `stripHopByHopResponse` — the two copies of the stripping;
* `getAll_headers_strip` — they do to the map what `strip_hop_by_hop` does;
* `stripHopByHop_exact` — what is left of a header map;
* `framing_survives_iff` — when the framing headers are left alone.
-/

namespace LbProxy.Pingora

open Lib LbProxy.Core

/-- A header that is changed through its own API. -/
structure HeaderApi (ht : HeaderTypes) where
  Header : Type
  /-- The header map. -/
  headers : Header → ht.Map
  /-- `remove_header`. -/
  removeHeader : Header → Bytes → Header

/-- `remove_header` deletes all values of a name and nothing else. -/
structure HeaderApi.Laws {ht : HeaderTypes} (api : HeaderApi ht) : Prop where
  getAll_removeHeader : ∀ h name n,
    ht.getAll (api.headers (api.removeHeader h name)) n = if n = name then [] else ht.getAll (api.headers h) n

section Strip

variable {ht : HeaderTypes}

/-- Remove hop-by-hop headers through the API of a header. -/
def HeaderApi.strip (api : HeaderApi ht) (header : api.Header) : api.Header :=
  let nominated := connectionNominated ht (api.headers header)
  let header := api.removeHeader header CONNECTION
  let header := HOP_BY_HOP.foldl api.removeHeader header
  nominated.foldl api.removeHeader header

/-- Remove hop-by-hop headers from a request header. -/
def stripHopByHopRequest (api : HeaderApi ht) (req : api.Header) : api.Header := api.strip req

/-- The response-side equivalent. -/
def stripHopByHopResponse (api : HeaderApi ht) (resp : api.Header) : api.Header := api.strip resp

/-- A header that is its header map. -/
def HeaderApi.plain (ht : HeaderTypes) : HeaderApi ht := ⟨ht.Map, id, ht.remove⟩

/-- The header steps of the data plane are this stripping, on a plain header map. -/
theorem stripHopByHop_eq_plain (m : ht.Map) : stripHopByHop ht m = (HeaderApi.plain ht).strip m := rfl

/-- A header map with the spelling that each name arrived in beside it. -/
def HeaderApi.cased (ht : HeaderTypes) : HeaderApi ht :=
  ⟨ht.Map × List (Bytes × Bytes), Prod.fst, fun h name => (ht.remove h.1 name, h.2.filter (·.1 != name))⟩

theorem HeaderApi.cased_laws (hl : ht.Laws) : (HeaderApi.cased ht).Laws :=
  ⟨fun h name n => hl.getAll_remove h.1 name n⟩

variable {api : HeaderApi ht} (ha : api.Laws)
include ha

theorem getAll_foldl_removeHeader (names : List Bytes) (h : api.Header) (n : Bytes) :
    ht.getAll (api.headers (names.foldl api.removeHeader h)) n =
      if n ∈ names then [] else ht.getAll (api.headers h) n :=
  getAll_foldl_removal api.headers ha.getAll_removeHeader names h n

/-- **The API leaves the header map that the stripping of a map leaves.** -/
theorem getAll_headers_strip (hl : ht.Laws) (h : api.Header) (n : Bytes) :
    ht.getAll (api.headers (api.strip h)) n = ht.getAll (Core.stripHopByHop ht (api.headers h)) n := by
  rw [getAll_stripHopByHop hl, HeaderApi.strip, getAll_foldl_removeHeader ha, getAll_foldl_removeHeader ha,
    ha.getAll_removeHeader]
  by_cases h1 : n = CONNECTION <;> by_cases h2 : n ∈ HOP_BY_HOP <;>
    by_cases h3 : n ∈ connectionNominated ht (api.headers h) <;> simp [h1, h2, h3]

end Strip

/-! ## What is left -/

section Exact

variable {ht : HeaderTypes} (hl : ht.Laws) {req resp : HeaderApi ht} (hreq : req.Laws) (hresp : resp.Laws)
include hl hreq hresp

/-- **Stripping is exact and idempotent**, and its copies on request and response headers do the same. -/
theorem stripHopByHop_exact :
    (∀ h : ht.Map,
      (∀ n, n ∈ ht.keys (Core.stripHopByHop ht h) ↔
        n ∈ ht.keys h ∧ n ≠ CONNECTION ∧ n ∉ HOP_BY_HOP ∧ ¬ Nominated (ht.getAll h CONNECTION) n) ∧
      (∀ n ∈ ht.keys (Core.stripHopByHop ht h), ht.getAll (Core.stripHopByHop ht h) n = ht.getAll h n) ∧
      ∀ n, ht.getAll (Core.stripHopByHop ht (Core.stripHopByHop ht h)) n = ht.getAll (Core.stripHopByHop ht h) n) ∧
    (∀ r n, ht.getAll (req.headers (stripHopByHopRequest req r)) n =
      ht.getAll (Core.stripHopByHop ht (req.headers r)) n) ∧
    ∀ r n, ht.getAll (resp.headers (stripHopByHopResponse resp r)) n =
      ht.getAll (Core.stripHopByHop ht (resp.headers r)) n := by
  refine ⟨fun h => ⟨fun n => ?_, fun n hn => ?_, getAll_strip_strip hl h⟩, getAll_headers_strip hreq hl,
    getAll_headers_strip hresp hl⟩
  · rw [mem_keys_strip hl, Stripped, not_or, not_or]
  · exact getAll_strip_of_not_stripped hl ((mem_keys_strip hl h n).mp hn).2

/-- The names that frame a message. -/
def FRAMING : List Bytes := [ascii "transfer-encoding", ascii "content-length"]

omit hl hreq hresp in
theorem stripped_framing {values : List Bytes} {n : Bytes} (hn : n ∈ FRAMING) :
    Stripped values n ↔ Nominated values n := by
  have hfixed : ∀ n ∈ FRAMING, n ≠ CONNECTION ∧ n ∉ HOP_BY_HOP := by decide
  obtain ⟨h1, h2⟩ := hfixed n hn
  simp [Stripped, h1, h2]

omit hreq hresp in
theorem framing_strip_iff (h : ht.Map) :
    (∀ n ∈ FRAMING, ht.getAll (Core.stripHopByHop ht h) n = ht.getAll h n) ↔
      ∀ n ∈ FRAMING, Nominated (ht.getAll h CONNECTION) n → ht.getAll h n = [] := by
  refine forall₂_congr fun n hn => ?_
  rw [getAll_strip_eq_self_iff hl, stripped_framing hn]

/-- **The framing headers survive exactly if no `Connection` value nominates one that is there.** -/
theorem framing_survives_iff :
    (∀ h : ht.Map, (∀ n ∈ FRAMING, ht.getAll (Core.stripHopByHop ht h) n = ht.getAll h n) ↔
      ∀ n ∈ FRAMING, Nominated (ht.getAll h CONNECTION) n → ht.getAll h n = []) ∧
    (∀ r, (∀ n ∈ FRAMING, ht.getAll (req.headers (stripHopByHopRequest req r)) n = ht.getAll (req.headers r) n) ↔
      ∀ n ∈ FRAMING, Nominated (ht.getAll (req.headers r) CONNECTION) n → ht.getAll (req.headers r) n = []) ∧
    ∀ r, (∀ n ∈ FRAMING, ht.getAll (resp.headers (stripHopByHopResponse resp r)) n = ht.getAll (resp.headers r) n) ↔
      ∀ n ∈ FRAMING, Nominated (ht.getAll (resp.headers r) CONNECTION) n → ht.getAll (resp.headers r) n = [] := by
  refine ⟨framing_strip_iff hl, fun r => ?_, fun r => ?_⟩
  · rw [← framing_strip_iff hl]
    simp only [stripHopByHopRequest, getAll_headers_strip hreq hl]
  · rw [← framing_strip_iff hl]
    simp only [stripHopByHopResponse, getAll_headers_strip hresp hl]

end Exact

/-- A response whose `Connection` header names its transfer coding. -/
def codingNominated : HeaderTypes.reference.Map :=
  [(CONNECTION, ascii "close, Transfer-Encoding"), (ascii "transfer-encoding", ascii "chunked"),
    (ascii "te", ascii "trailers"), (ascii "x-id", ascii "7")]

theorem stripHopByHop_exact_codingNominated :
    ascii "x-id" ∈ HeaderTypes.reference.keys (Core.stripHopByHop HeaderTypes.reference codingNominated) ∧
      ∀ n ∈ HeaderTypes.reference.keys (Core.stripHopByHop HeaderTypes.reference codingNominated),
        HeaderTypes.reference.getAll (Core.stripHopByHop HeaderTypes.reference codingNominated) n =
          HeaderTypes.reference.getAll codingNominated n := by
  have hl := HeaderTypes.reference_laws
  have hexact := (stripHopByHop_exact hl (HeaderApi.cased_laws hl) (HeaderApi.cased_laws hl)).1 codingNominated
  exact ⟨by decide +kernel, hexact.2.1⟩

/-- The transfer coding is taken out with the names that `Connection` nominates. -/
theorem codingNominated_loses_coding :
    ¬ ∀ h : HeaderTypes.reference.Map, ∀ n ∈ FRAMING,
      HeaderTypes.reference.getAll (Core.stripHopByHop HeaderTypes.reference h) n =
        HeaderTypes.reference.getAll h n := by
  intro h
  have hcoding := h codingNominated (ascii "transfer-encoding") (by decide)
  revert hcoding
  decide +kernel

theorem framing_survives_iff_codingNominated :
    (∀ n ∈ FRAMING, HeaderTypes.reference.getAll (Core.stripHopByHop HeaderTypes.reference codingNominated) n =
      HeaderTypes.reference.getAll codingNominated n) ↔
        ∀ n ∈ FRAMING, Nominated (HeaderTypes.reference.getAll codingNominated CONNECTION) n →
          HeaderTypes.reference.getAll codingNominated n = [] := by
  have hl := HeaderTypes.reference_laws
  exact (framing_survives_iff hl (HeaderApi.cased_laws hl) (HeaderApi.cased_laws hl)).1 codingNominated

end LbProxy.Pingora
