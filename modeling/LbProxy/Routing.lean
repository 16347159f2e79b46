import LbProxy.Lib.HeadParser
import LbProxy.Lib.Uri
import LbProxy.Core.HostTiers
import LbProxy.Hyper.Server
import LbProxy.Monoio.Framing

/-!
# The routing keys of the Monoio and Hyper data planes

Monoio routes a request by its last `Host` field and by the target up to the first question mark, Hyper by the host of
the URI or else the first `Host` field, and by the path of the URI.

* `hyperParts` — the request as the HTTP library hands it over to Hyper;
* `SameRoute` — every table routes both keys alike;
* `same_route_iff` — when it does.
-/

namespace LbProxy

open Lib LbProxy.Core Monoio RouteTableBuilder

/-- The first `Host` field of a head, as text. -/
def firstHostOf (fields : List (Bytes × Bytes)) : Option Bytes :=
  (valuesOf fields HOST).head?.bind fun value => if value.all isVisible then some value else none

/-- The request as an HTTP library hands it over: the parts of its URI and its fields. -/
def hyperParts (ht : HeaderTypes) (uri : UriParts) (fields : List (Bytes × Bytes)) : RequestParts ht :=
  ⟨uri.host, uri.path, uri.query, ht.ofFields fields⟩

/-- Every table has the same action for the key of `serve_connection` (`Monoio.exchange`) as for the key of
`handle_request` (`Hyper.handleRequest`). -/
def SameRoute (ht : HeaderTypes) (m : PathRouter) (head : RequestHead) (req : RequestParts ht) : Prop :=
  ∀ specs, (buildAll m specs).lookup head.host (pathOf head.target) =
    (buildAll m specs).lookup (req.routingHost ht) req.path

theorem default_mem_routingTiers (host : Option Bytes) : .default ∈ routingTiers host := by
  refine List.mem_filter.mpr ⟨?_, rfl⟩
  cases host <;> simp [tiersOf]

theorem head_pathOf {b : UInt8} (hb : b ≠ 63) (t : Bytes) : (pathOf (b :: t)).head? = some b := by
  unfold pathOf
  split
  · rename_i pos hpos
    cases pos with
    | zero => exact absurd (by simpa [findByte, List.findIdx?_cons] using hpos) hb
    | succ n => rfl
  · rfl

section Keys

variable {ht : HeaderTypes} (hhl : ht.Laws) {m : PathRouter} (hm : m.Laws)

include hhl in
theorem routingHost_hyperParts {uri : UriParts} (hhost : uri.host = none) (fields : List (Bytes × Bytes)) :
    (hyperParts ht uri fields).routingHost ht = firstHostOf fields := by
  simp only [RequestParts.routingHost, hyperParts, hhost, HeaderTypes.get, HeaderTypes.getAll_ofFields hhl, firstHostOf]
  show (valuesOf fields HOST).head?.bind ht.toStr = _
  exact congrArg _ (funext hhl.toStr)

include hm in
theorem not_sameRoute_of_head {head : RequestHead} {req : RequestParts ht} {b : UInt8}
    (hhead : (pathOf head.target).head? = some b) (hb : b ≠ 47) (hpath : req.path.head? = some 47) :
    ¬ SameRoute ht m head req := by
  intro hall
  have hne : ∀ {p : Bytes} {c : UInt8}, p.head? = some c → p ≠ [] := by
    rintro p c hp rfl
    cases hp
  have h1 := lookup_solo hm none head.host (hne hhead)
  have h2 := lookup_solo hm none (req.routingHost ht) (hne hpath)
  rw [hall, h2, hhead] at h1
  have := (h1.mp ⟨default_mem_routingTiers _, hpath⟩).2
  exact hb (Option.some.inj this)

end Keys

/-- **The data planes route a request alike exactly if its target is in origin form and its first and its last `Host`
field have the same routing tiers.** -/
theorem same_route_iff {hp : HeadParser} (hpl : hp.Laws) {up : UriParser} (hul : up.Laws) {ht : HeaderTypes}
    (hhl : ht.Laws) {m : PathRouter} (hm : m.Laws) {buf : Bytes} {head : RequestHead}
    (hparse : parseRequest hp buf = .complete head) :
    (∃ (l : RequestLayout) (rest : Bytes), l.WF ∧ l.fields.length ≤ MAX_HEADERS ∧ buf = l.render ++ rest) ∧
    ∀ (l : RequestLayout) (rest : Bytes), l.WF → l.fields.length ≤ MAX_HEADERS → buf = l.render ++ rest →
      ∀ form : TargetForm, form.WF → form.text = l.target → ∀ uri, up.parse l.target = some uri →
        (SameRoute ht m head (hyperParts ht uri (l.fields.map FieldLayout.field)) ↔
          form.isOrigin = true ∧ routingTiers (lastHostOf (l.fields.map FieldLayout.field)) =
            routingTiers (firstHostOf (l.fields.map FieldLayout.field))) := by
  refine ⟨?_, ?_⟩
  · obtain ⟨l, rest, -, -, hwf, hlen, hbuf, -⟩ := parseRequest_complete hpl hparse
    exact ⟨l, rest, hwf, hlen, hbuf⟩
  rintro l rest hwf hlen rfl form hform htext uri huri
  obtain ⟨f, pos, hf, -, rfl⟩ := parseRequest_layout hpl hwf hlen hparse
  rw [← htext] at huri
  obtain rfl := hul hform huri
  have hhost : f.host = lastHostOf (l.fields.map FieldLayout.field) := by
    rw [← lastOf_isHost_elim]
    exact (framingOf_reads hf).host
  cases form with
  | origin path query =>
    obtain ⟨hhead, hquery, -⟩ := hform
    have hpath : pathOf l.target = path := by
      rw [← htext]
      have hsplit := (splitTarget_withQuery hquery query).2
      cases query <;> simpa [withQuery, TargetForm.text, queryText, ascii] using hsplit
    have hiff := lookup_eq_iff hm (lastHostOf (l.fields.map FieldLayout.field))
      (firstHostOf (l.fields.map FieldLayout.field)) hhead
    rw [← hiff]
    simp only [SameRoute, headOf, hhost, hpath, routingHost_hyperParts hhl (show (TargetForm.origin path query).uri.host =
      none from rfl), TargetForm.isOrigin, true_and]
    rfl
  | absolute scheme authority path query =>
    obtain ⟨hne, hscheme, -, hslash, -, -⟩ := hform
    obtain ⟨b, s, rfl⟩ := List.exists_cons_of_ne_nil hne
    have hb := hscheme b List.mem_cons_self
    have hstart : (pathOf (headOf l f pos).target).head? = some b := by
      show (pathOf l.target).head? = some b
      rw [← htext]
      refine head_pathOf ?_ _
      rintro rfl
      exact absurd hb (by decide)
    have hroot : (TargetForm.absolute (b :: s) authority path query).uri.path.head? = some 47 := by
      simp only [TargetForm.uri]
      split
      · rfl
      · exact hslash.resolve_left ‹_›
    simp only [TargetForm.isOrigin, Bool.false_eq_true, false_and, iff_false]
    refine not_sameRoute_of_head hm hstart ?_ hroot
    rintro rfl
    exact absurd hb (by decide)

/-- A request with two `Host` fields that differ in case and port only. -/
def sampleTwoHosts : RequestLayout :=
  ⟨[], ascii "GET", ascii "/a?x", 1, .crlf, [⟨ascii "Host", [32], ascii "a.example", [], .crlf⟩,
    ⟨ascii "host", [32], ascii "A.Example:80", [], .crlf⟩], .crlf⟩

theorem same_route_two_hosts :
    SameRoute .reference .reference ⟨58, ascii "GET", ascii "/a?x", some (ascii "A.Example:80"), .empty, false, (4, 8)⟩
      (hyperParts .reference ⟨none, ascii "/a", some (ascii "x")⟩ (sampleTwoHosts.fields.map FieldLayout.field)) := by
  have hparse : parseRequest .reference (sampleTwoHosts.render ++ []) = .complete
      ⟨58, ascii "GET", ascii "/a?x", some (ascii "A.Example:80"), .empty, false, (4, 8)⟩ := by decide +kernel
  refine ((same_route_iff HeadParser.reference_laws UriParser.reference_laws HeaderTypes.reference_laws
    PathRouter.reference_laws hparse).2 sampleTwoHosts [] (by decide) (by decide) rfl
    (.origin (ascii "/a") (some (ascii "x"))) ⟨rfl, by decide, by decide⟩ rfl _ (by decide)).mpr ⟨rfl, ?_⟩
  decide +kernel

/-- A request with its target in absolute form. -/
def sampleAbsolute : Bytes := ascii "GET http://a.example/x HTTP/1.1\r\nHost: a.example\r\n\r\n"

/-- Monoio takes the whole target for the path, and finds no route. -/
theorem absolute_target_finds_no_route :
    parseRequest .reference sampleAbsolute = .complete
        ⟨52, ascii "GET", ascii "http://a.example/x", some (ascii "a.example"), .empty, false, (4, 22)⟩ ∧
      UriParser.reference.parse (ascii "http://a.example/x") = some ⟨some (ascii "a.example"), ascii "/x", none⟩ ∧
      ¬ SameRoute .reference .reference
        ⟨52, ascii "GET", ascii "http://a.example/x", some (ascii "a.example"), .empty, false, (4, 22)⟩
        (hyperParts .reference ⟨some (ascii "a.example"), ascii "/x", none⟩ [(ascii "Host", ascii "a.example")]) := by
  refine ⟨by decide +kernel, by decide, fun hall => ?_⟩
  have hmonoio : (buildAll PathRouter.reference [soloSpec none]).lookup (some (ascii "a.example"))
      (pathOf (ascii "http://a.example/x")) = none := by decide +kernel
  have hhyper : (buildAll PathRouter.reference [soloSpec none]).lookup (some (ascii "a.example"))
      (ascii "/x") ≠ none := by decide +kernel
  exact hhyper ((hall [soloSpec none]).symm.trans hmonoio)

end LbProxy
