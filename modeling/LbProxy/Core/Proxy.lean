import LbProxy.Lib.Text
import LbProxy.Core.Filter

/-!
# Forwarding hygiene (`proxy.rs`)

Hop-by-hop headers and the forwarding headers, on a header multimap, and what each operation does to the values of
one name:

* `getAll_stripHopByHop`, `getAll_appendForwardedFor`, `getAll_setForwardedProto`;
* `modified` — what a list of header modifiers does to the values of a name (`getAll_foldl_apply`).
-/

namespace LbProxy.Core

open Lib

/-- Headers that must never be forwarded across a proxy hop, without `Connection`. -/
def HOP_BY_HOP : List Bytes :=
  [ascii "keep-alive", ascii "proxy-authenticate", ascii "proxy-authorization", ascii "proxy-connection",
    ascii "te", ascii "trailer", ascii "upgrade"]

def FORWARDED_FOR : Bytes := ascii "x-forwarded-for"

def FORWARDED_PROTO : Bytes := ascii "x-forwarded-proto"

def CONNECTION : Bytes := ascii "connection"

def HOST : Bytes := ascii "host"

/-- The address of a peer, by its text. -/
structure PeerAddr where
  text : Bytes
  text_ne : text ≠ []
  text_bytes : ∀ b ∈ text, isDigit b ∨ (97 ≤ b ∧ b ≤ 102) ∨ b = 46 ∨ b = 58

/-- An address for tests. -/
def PeerAddr.sample : PeerAddr := ⟨ascii "192.0.2.7", by decide, by decide +kernel⟩

section Proxy

variable (ht : HeaderTypes)

/-- A request as an HTTP library hands it over: the host of its URI, the path, the query and the headers. -/
structure RequestParts where
  uriHost : Option Bytes
  path : Bytes
  query : Option Bytes
  headers : ht.Map

/-- A path with a query. -/
def withQuery (path : Bytes) : Option Bytes → Bytes
  | some q => path ++ ascii "?" ++ q
  | none => path

/-- The host a request is routed by: HTTP/2 carries it in the URI, HTTP/1.1 in `Host`. -/
def RequestParts.routingHost (req : RequestParts ht) : Option Bytes :=
  req.uriHost <|> (ht.get req.headers HOST).bind ht.toStr

/-- The header names that one `Connection` value nominates. -/
def nominatedFromValue (value : Bytes) : List Bytes :=
  (((splitByte 44 value).map trim).filter fun token =>
    token ≠ [] && !eqIgnoreAsciiCase token (ascii "close") && !eqIgnoreAsciiCase token (ascii "keep-alive")).filterMap
      ht.nameFromBytes

/-- Header names nominated as hop-by-hop by the `Connection` header. -/
def connectionNominated (headers : ht.Map) : List Bytes :=
  (ht.getAll headers CONNECTION).flatMap fun value =>
    match ht.toStr value with
    | some text => nominatedFromValue ht text
    | none => []

/-- Remove hop-by-hop headers. -/
def stripHopByHop (headers : ht.Map) : ht.Map :=
  let nominated := connectionNominated ht headers
  let headers := ht.remove headers CONNECTION
  let headers := HOP_BY_HOP.foldl ht.remove headers
  nominated.foldl ht.remove headers

/-- Append the peer to `X-Forwarded-For`. -/
def appendForwardedFor (headers : ht.Map) (peer : PeerAddr) : ht.Map :=
  let chain := (match (ht.get headers FORWARDED_FOR).bind ht.toStr with
    | some existing => existing ++ ascii ", "
    | none => []) ++ peer.text
  match ht.valueFromStr chain with
  | some value => ht.insert headers FORWARDED_FOR value
  | none => headers

/-- Set `X-Forwarded-Proto`. -/
def setForwardedProto (headers : ht.Map) (proto : Bytes) : ht.Map := ht.insert headers FORWARDED_PROTO proto

/-- The header steps of a data plane that owns the map: hygiene, forwarding headers, and the filters of the route. -/
def forwardHeaders (forwardedHeaders : Bool) (peer : PeerAddr) (filters : RouteFilters) (headers : ht.Map) : ht.Map :=
  let headers := stripHopByHop ht headers
  let headers := if forwardedHeaders then
    setForwardedProto ht (appendForwardedFor ht headers peer) (ascii "http") else headers
  filters.applyRequestHeaders ht headers

end Proxy

/-! ## Values by name -/

/-- The values of the name `n` that are passed on: none of a hop-by-hop header, nor of a nominated one. -/
def forwardable (nominated : List Bytes) (fields : List (Bytes × Bytes)) (n : Bytes) : List Bytes :=
  if n = CONNECTION ∨ n ∈ HOP_BY_HOP ∨ n ∈ nominated then [] else valuesOf fields n

/-- The `X-Forwarded-For` chain with the peer behind it. -/
def chainOf (existing : Option Bytes) (peer : PeerAddr) : Bytes :=
  (match existing with
    | some prev => prev ++ ascii ", "
    | none => []) ++ peer.text

/-- What a modifier does to the values of the name `n`. -/
def Compiled.act (n : Bytes) (values : List Bytes) : Compiled → List Bytes
  | .set name value => if n = name then [value] else values
  | .add name value => if n = name then values ++ [value] else values
  | .remove name => if n = name then [] else values

/-- What a list of modifiers does to the values of the name `n`. -/
def modified (modifiers : List Compiled) (n : Bytes) (values : List Bytes) : List Bytes :=
  modifiers.foldl (Compiled.act n) values

section Values

variable {ht : HeaderTypes} (hl : ht.Laws)
include hl

theorem getAll_apply (c : Compiled) (m : ht.Map) (n : Bytes) :
    ht.getAll (c.apply ht m) n = c.act n (ht.getAll m n) := by
  cases c with
  | set name value => rw [Compiled.apply, hl.getAll_insert, Compiled.act]
  | add name value => rw [Compiled.apply, hl.getAll_append, Compiled.act]
  | remove name => rw [Compiled.apply, hl.getAll_remove, Compiled.act]

theorem getAll_foldl_apply (modifiers : List Compiled) (m : ht.Map) (n : Bytes) :
    ht.getAll (modifiers.foldl (Compiled.apply ht) m) n = modified modifiers n (ht.getAll m n) := by
  induction modifiers generalizing m with
  | nil => rfl
  | cons c cs ih => rw [List.foldl_cons, ih, getAll_apply hl, modified, modified, List.foldl_cons]

omit hl in
theorem getAll_foldl_removal {σ : Type} (view : σ → ht.Map) {removal : σ → Bytes → σ}
    (hone : ∀ s name n, ht.getAll (view (removal s name)) n = if n = name then [] else ht.getAll (view s) n)
    (names : List Bytes) (s : σ) (n : Bytes) :
    ht.getAll (view (names.foldl removal s)) n = if n ∈ names then [] else ht.getAll (view s) n := by
  induction names generalizing s with
  | nil => simp
  | cons name names ih =>
    rw [List.foldl_cons, ih, hone]
    by_cases h1 : n ∈ names
    · simp [h1]
    · by_cases h2 : n = name <;> simp [h1, h2]

theorem getAll_foldl_remove (names : List Bytes) (m : ht.Map) (n : Bytes) :
    ht.getAll (names.foldl ht.remove m) n = if n ∈ names then [] else ht.getAll m n :=
  getAll_foldl_removal id hl.getAll_remove names m n

/-- **What is left of a name.** -/
theorem getAll_stripHopByHop (m : ht.Map) (n : Bytes) :
    ht.getAll (stripHopByHop ht m) n =
      if n = CONNECTION ∨ n ∈ HOP_BY_HOP ∨ n ∈ connectionNominated ht m then [] else ht.getAll m n := by
  rw [stripHopByHop, getAll_foldl_remove hl, getAll_foldl_remove hl, hl.getAll_remove]
  by_cases h1 : n = CONNECTION <;> by_cases h2 : n ∈ HOP_BY_HOP <;> by_cases h3 : n ∈ connectionNominated ht m <;>
    simp [h1, h2, h3]

theorem getAll_stripHopByHop_ofFields (fields : List (Bytes × Bytes)) (n : Bytes) :
    ht.getAll (stripHopByHop ht (ht.ofFields fields)) n =
      forwardable (connectionNominated ht (ht.ofFields fields)) fields n := by
  rw [getAll_stripHopByHop hl, HeaderTypes.getAll_ofFields hl, forwardable]

theorem get_toStr_visible {m : ht.Map} {n v : Bytes} (h : (ht.get m n).bind ht.toStr = some v) :
    v.all isVisible = true := by
  obtain ⟨w, -, hw⟩ := Option.bind_eq_some_iff.mp h
  rw [hl.toStr] at hw
  split at hw
  · rename_i hvis
    rw [← Option.some.inj hw]
    exact hvis
  · cases hw

omit hl in
theorem PeerAddr.text_visible (peer : PeerAddr) : peer.text.all isVisible = true := by
  rw [List.all_eq_true]
  intro b hb
  simp only [isVisible, Bool.or_eq_true, Bool.and_eq_true, decide_eq_true_eq, UInt8.le_iff_toNat_le,
    UInt8.toNat_ofNat]
  left
  rcases peer.text_bytes b hb with h | h | rfl | rfl
  · simp only [isDigit, Bool.and_eq_true, decide_eq_true_eq, UInt8.le_iff_toNat_le, UInt8.toNat_ofNat] at h
    omega
  · simp only [UInt8.le_iff_toNat_le, UInt8.toNat_ofNat] at h
    omega
  · decide
  · decide

theorem chainOf_visible (m : ht.Map) (peer : PeerAddr) :
    (chainOf ((ht.get m FORWARDED_FOR).bind ht.toStr) peer).all isVisible := by
  have hpeer := peer.text_visible
  cases hx : (ht.get m FORWARDED_FOR).bind ht.toStr with
  | none => simpa [chainOf] using hpeer
  | some v =>
    have hsep : (ascii ", ").all isVisible := by decide
    simp [chainOf, get_toStr_visible hl hx, hsep, hpeer]

theorem getAll_appendForwardedFor (m : ht.Map) (peer : PeerAddr) (n : Bytes) :
    ht.getAll (appendForwardedFor ht m peer) n =
      if n = FORWARDED_FOR then [chainOf ((ht.get m FORWARDED_FOR).bind ht.toStr) peer] else ht.getAll m n := by
  have hchain : appendForwardedFor ht m peer =
      match ht.valueFromStr (chainOf ((ht.get m FORWARDED_FOR).bind ht.toStr) peer) with
      | some value => ht.insert m FORWARDED_FOR value
      | none => m := rfl
  rw [hchain, hl.value_visible (chainOf_visible hl m peer)]
  exact hl.getAll_insert _ _ _ _

theorem getAll_setForwardedProto (m : ht.Map) (proto n : Bytes) :
    ht.getAll (setForwardedProto ht m proto) n = if n = FORWARDED_PROTO then [proto] else ht.getAll m n := by
  rw [setForwardedProto, hl.getAll_insert]

/-- **What a data plane that owns the map forwards of a name.** -/
theorem getAll_forwardHeaders (peer : PeerAddr) (filters : RouteFilters) (m : ht.Map) (n : Bytes) :
    ht.getAll (forwardHeaders ht true peer filters m) n =
      modified filters.requestModifiers n
        (if n = FORWARDED_PROTO then [ascii "http"]
          else if n = FORWARDED_FOR then
            [chainOf ((ht.get (stripHopByHop ht m) FORWARDED_FOR).bind ht.toStr) peer]
          else ht.getAll (stripHopByHop ht m) n) := by
  simp only [forwardHeaders, if_true, RouteFilters.applyRequestHeaders]
  rw [getAll_foldl_apply hl, getAll_setForwardedProto hl, getAll_appendForwardedFor hl]

end Values

end LbProxy.Core
