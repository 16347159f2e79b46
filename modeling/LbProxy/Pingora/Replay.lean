import LbProxy.Pingora.Hygiene
import Mathlib.Data.List.Nodup

/-!
# Route filters through the header API (`proxy_service.rs`)

The filters of a route are applied to a plain copy of the header map, and the difference is replayed through the API
of the header.

* `HeaderEditor`, `HeaderEditor.Laws` — a header that can be edited, and what the edits do to its header map;
* `replayRequest`, `applyRequestFilters`, `applyResponseFilters` — staging and replaying;
* `HeaderEditor.Shows` — the header holds a given multimap, which the edits keep in step;
* `filters_replayed_exactly` — after the replay the header holds what the filters make of its map.
-/

namespace LbProxy.Pingora

open Lib LbProxy.Core

/-- A header that is edited through its own API. -/
structure HeaderEditor (ht : HeaderTypes) extends HeaderApi ht where
  /-- `insert_header`. -/
  insertHeader : Header → Bytes → Bytes → Header
  /-- `append_header`. -/
  appendHeader : Header → Bytes → Bytes → Header

namespace HeaderEditor

variable {ht : HeaderTypes}

/-- `insert_header` replaces all values of a name, and `append_header` adds one at the end. -/
structure Laws (api : HeaderEditor ht) : Prop extends api.toHeaderApi.Laws where
  getAll_insertHeader : ∀ h name v n,
    ht.getAll (api.headers (api.insertHeader h name v)) n = if n = name then [v] else ht.getAll (api.headers h) n
  getAll_appendHeader : ∀ h name v n,
    ht.getAll (api.headers (api.appendHeader h name v)) n =
      if n = name then ht.getAll (api.headers h) n ++ [v] else ht.getAll (api.headers h) n

variable (api : HeaderEditor ht)

/-- Give one name the values it has in the staged map. -/
def replayName (staged : ht.Map) (header : api.Header) (name : Bytes) : api.Header :=
  match ht.getAll staged name with
  | first :: extra => extra.foldl (fun h v => api.appendHeader h name v) (api.insertHeader header name first)
  | [] => header

/-- Delete the names that are not staged, then give every staged name its values. -/
def replay (header : api.Header) (staged : ht.Map) : api.Header :=
  let removed := (ht.keys (api.headers header)).filter fun k => (ht.getAll staged k).isEmpty
  let header := removed.foldl api.removeHeader header
  (ht.keys staged).foldl (api.replayName staged) header

/-- `replay_request`. -/
def replayRequest (req : api.Header) (staged : ht.Map) : api.Header := api.replay req staged

/-- Apply route filters to a request. -/
def applyRequestFilters (filters : RouteFilters) (req : api.Header) : api.Header :=
  if filters.isNoop then req else api.replayRequest req (filters.applyRequestHeaders ht (api.headers req))

/-- Apply route filters to a response; the replay is written out once more. -/
def applyResponseFilters (filters : RouteFilters) (resp : api.Header) : api.Header :=
  if filters.isNoop then resp else api.replay resp (filters.applyResponseHeaders ht (api.headers resp))

/-- A header that is its header map. -/
def plain (ht : HeaderTypes) : HeaderEditor ht := { HeaderApi.plain ht with
  insertHeader := ht.insert
  appendHeader := ht.append }

/-- The filter steps of the data plane are these, on a plain header map. -/
theorem applyRequestFilters_plain (filters : RouteFilters) (headers : ht.Map) :
    (plain ht).applyRequestFilters filters headers = Pingora.applyRequestFilters ht filters headers := rfl

theorem applyResponseFilters_plain (filters : RouteFilters) (headers : ht.Map) :
    (plain ht).applyResponseFilters filters headers = Pingora.applyResponseFilters ht filters headers := rfl

/-- A header map with the spelling of each name beside it. -/
def cased (ht : HeaderTypes) : HeaderEditor ht := { HeaderApi.cased ht with
  insertHeader := fun h name v => (ht.insert h.1 name v, h.2.filter (·.1 != name) ++ [(name, name)])
  appendHeader := fun h name v => (ht.append h.1 name v, h.2 ++ [(name, name)]) }

theorem cased_laws (hl : ht.Laws) : (cased ht).Laws where
  toLaws := HeaderApi.cased_laws hl
  getAll_insertHeader h name v n := hl.getAll_insert h.1 name v n
  getAll_appendHeader h name v n := hl.getAll_append h.1 name v n

/-! ## The header and its map stay in step -/

/-- The header holds the values of a map. -/
def Shows (header : api.Header) (m : ht.Map) : Prop := ∀ n, ht.getAll (api.headers header) n = ht.getAll m n

section Step

variable {api : HeaderEditor ht} (hl : ht.Laws) (ha : api.Laws) {header : api.Header} {m : ht.Map}
include hl ha

theorem Shows.remove (h : api.Shows header m) (name : Bytes) :
    api.Shows (api.removeHeader header name) (ht.remove m name) := by
  intro n
  rw [ha.getAll_removeHeader, hl.getAll_remove, h n]

theorem Shows.insert (h : api.Shows header m) (name v : Bytes) :
    api.Shows (api.insertHeader header name v) (ht.insert m name v) := by
  intro n
  rw [ha.getAll_insertHeader, hl.getAll_insert, h n]

theorem Shows.append (h : api.Shows header m) (name v : Bytes) :
    api.Shows (api.appendHeader header name v) (ht.append m name v) := by
  intro n
  rw [ha.getAll_appendHeader, hl.getAll_append, h n]

omit hl ha in
theorem Shows.foldl {f : api.Header → Bytes → api.Header} {g : ht.Map → Bytes → ht.Map}
    (hstep : ∀ header m x, api.Shows header m → api.Shows (f header x) (g m x)) (h : api.Shows header m)
    (xs : List Bytes) : api.Shows (xs.foldl f header) (xs.foldl g m) := by
  induction xs generalizing header m with
  | nil => exact h
  | cons x xs ih => exact ih (hstep header m x h)

theorem Shows.replayName (h : api.Shows header m) (staged : ht.Map) (name : Bytes) :
    api.Shows (api.replayName staged header name) (Pingora.replayName ht staged m name) := by
  unfold HeaderEditor.replayName Pingora.replayName
  cases ht.getAll staged name with
  | nil => exact h
  | cons first extra =>
    exact Shows.foldl (fun _ _ v hs => hs.append hl ha name v) (h.insert hl ha name first) extra

/-- **The replay brings the header to the staged map.** -/
theorem shows_replay (header : api.Header) (staged : ht.Map) : api.Shows (api.replay header staged) staged := by
  have hsame : api.Shows header (api.headers header) := fun _ => rfl
  have hremoved := hsame.foldl (fun _ _ name hs => hs.remove hl ha name)
    ((ht.keys (api.headers header)).filter fun k => (ht.getAll staged k).isEmpty)
  have hreplayed := hremoved.foldl (fun _ _ name hs => hs.replayName hl ha staged name) (ht.keys staged)
  intro n
  exact (hreplayed n).trans (getAll_replay hl (api.headers header) staged n)

end Step

theorem perm_keys (hl : ht.Laws) {m m' : ht.Map} (h : ∀ n, ht.getAll m n = ht.getAll m' n) :
    (ht.keys m).Perm (ht.keys m') := by
  refine (List.perm_ext_iff_of_nodup (hl.nodup_keys m) (hl.nodup_keys m')).mpr fun n => ?_
  rw [hl.mem_keys, hl.mem_keys, h]

section Exact

variable {req resp : HeaderEditor ht} (hl : ht.Laws) (hreq : req.Laws) (hresp : resp.Laws)
include hl hreq hresp

/-- **Staged replay equals direct filter application**, for requests and responses: the same names, and for each name
the same values in the same order. -/
theorem filters_replayed_exactly (filters : RouteFilters) :
    (∀ r, (ht.keys (req.headers (req.applyRequestFilters filters r))).Perm
        (ht.keys (filters.applyRequestHeaders ht (req.headers r))) ∧
      ∀ n, ht.getAll (req.headers (req.applyRequestFilters filters r)) n =
        ht.getAll (filters.applyRequestHeaders ht (req.headers r)) n) ∧
    ∀ r, (ht.keys (resp.headers (resp.applyResponseFilters filters r))).Perm
        (ht.keys (filters.applyResponseHeaders ht (resp.headers r))) ∧
      ∀ n, ht.getAll (resp.headers (resp.applyResponseFilters filters r)) n =
        ht.getAll (filters.applyResponseHeaders ht (resp.headers r)) n := by
  have hrequest : ∀ r, req.Shows (req.applyRequestFilters filters r)
      (filters.applyRequestHeaders ht (req.headers r)) := by
    intro r
    unfold applyRequestFilters
    split
    · rename_i hnoop
      rw [RouteFilters.applyRequestHeaders, requestModifiers_of_noop hnoop]
      exact fun _ => rfl
    · exact shows_replay hl hreq r _
  have hresponse : ∀ r,
      resp.Shows (resp.applyResponseFilters filters r) (filters.applyResponseHeaders ht (resp.headers r)) := by
    intro r
    unfold applyResponseFilters
    split
    · rename_i hnoop
      rw [RouteFilters.applyResponseHeaders, responseModifiers_of_noop hnoop]
      exact fun _ => rfl
    · exact shows_replay hl hresp r _
  exact ⟨fun r => ⟨perm_keys hl (hrequest r), hrequest r⟩, fun r => ⟨perm_keys hl (hresponse r), hresponse r⟩⟩

end Exact

/-- A request with a name of several values, and filters that touch one name repeatedly. -/
def repeatedModifiers : RouteFilters :=
  ⟨some ⟨[.set (ascii "x") (ascii "1"), .add (ascii "x") (ascii "2"), .remove (ascii "y"), .add (ascii "y") (ascii "3")],
    [], none⟩⟩

def multiValued : (cased HeaderTypes.reference).Header :=
  ([(ascii "x", ascii "a"), (ascii "y", ascii "b"), (ascii "x", ascii "c"), (ascii "z", ascii "d")], [])

theorem filters_replayed_exactly_repeated :
    HeaderTypes.reference.getAll ((cased HeaderTypes.reference).headers
        ((cased HeaderTypes.reference).applyRequestFilters repeatedModifiers multiValued)) (ascii "x") =
      [ascii "1", ascii "2"] := by
  have hl := HeaderTypes.reference_laws
  have hexact := (filters_replayed_exactly hl (cased_laws hl) (cased_laws hl) repeatedModifiers).1 multiValued
  exact (hexact.2 (ascii "x")).trans (by decide +kernel)

end HeaderEditor

end LbProxy.Pingora
