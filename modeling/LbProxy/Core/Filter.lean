import LbProxy.Lib.HeaderMap

/-!
# Request and response filters (`filter.rs`)

Header modifiers are validated once, when the filters of a route are compiled; a modifier that is not a
valid header name or value is dropped.  `RouteFilters.inner = none` is a route without filters.
-/

namespace LbProxy.Core

open Lib

/-- A header modification as it arrives from the control plane. -/
inductive HeaderModifier where
  | set (name value : Bytes)
  | add (name value : Bytes)
  | remove (name : Bytes)
  deriving DecidableEq, Repr

/-- URL rewrite rule. -/
inductive UrlRewrite where
  | replacePrefix (pre replacement : Bytes)
  | exact (path : Bytes)
  deriving DecidableEq, Repr

/-- A header modifier after validation. -/
inductive Compiled where
  | set (name value : Bytes)
  | add (name value : Bytes)
  | remove (name : Bytes)
  deriving DecidableEq, Repr

/-- The compiled filters of a route. -/
structure Pipeline where
  requestHeaders : List Compiled
  responseHeaders : List Compiled
  urlRewrite : Option UrlRewrite
  deriving DecidableEq, Repr

/-- A route's filter pipeline; `none` is the common case without filters. -/
structure RouteFilters where
  inner : Option Pipeline
  deriving DecidableEq, Repr

section Headers

variable (ht : HeaderTypes)

/-- Validate a modifier. -/
def Compiled.compile : HeaderModifier → Option Compiled
  | .set name value =>
    (ht.nameFromBytes name).bind fun n => (ht.valueFromStr value).map fun v => .set n v
  | .add name value =>
    (ht.nameFromBytes name).bind fun n => (ht.valueFromStr value).map fun v => .add n v
  | .remove name => (ht.nameFromBytes name).map .remove

/-- Apply one modifier. -/
def Compiled.apply (headers : ht.Map) : Compiled → ht.Map
  | .set n v => ht.insert headers n v
  | .add n v => ht.append headers n v
  | .remove n => ht.remove headers n

namespace RouteFilters

/-- Compile a set of filters, dropping invalid modifiers. -/
def new (requestHeaders responseHeaders : List HeaderModifier) (urlRewrite : Option UrlRewrite) :
    RouteFilters :=
  let request := requestHeaders.filterMap (Compiled.compile ht)
  let response := responseHeaders.filterMap (Compiled.compile ht)
  if request.isEmpty && response.isEmpty && urlRewrite.isNone then ⟨none⟩
  else ⟨some ⟨request, response, urlRewrite⟩⟩

/-- The modifiers of the request headers. -/
def requestModifiers (f : RouteFilters) : List Compiled :=
  match f.inner with
  | some p => p.requestHeaders
  | none => []

/-- The modifiers of the response headers. -/
def responseModifiers (f : RouteFilters) : List Compiled :=
  match f.inner with
  | some p => p.responseHeaders
  | none => []

/-- Apply request header modifications. -/
def applyRequestHeaders (f : RouteFilters) (headers : ht.Map) : ht.Map :=
  f.requestModifiers.foldl (Compiled.apply ht) headers

/-- Apply response header modifications. -/
def applyResponseHeaders (f : RouteFilters) (headers : ht.Map) : ht.Map :=
  f.responseModifiers.foldl (Compiled.apply ht) headers

end RouteFilters

end Headers

namespace RouteFilters

/-- The route has no filters at all. -/
def isNoop (f : RouteFilters) : Bool := f.inner.isNone

/-- The route rewrites the request path. -/
def rewritesPath (f : RouteFilters) : Bool :=
  match f.inner with
  | some p => p.urlRewrite.isSome
  | none => false

/-- Apply the URL rewrite to an incoming path. -/
def applyUrlRewrite (f : RouteFilters) (path : Bytes) : Bytes :=
  match f.inner.bind (·.urlRewrite) with
  | none => path
  | some (.exact p) => p
  | some (.replacePrefix pre replacement) =>
    match stripPrefix pre path with
    | none => path
    | some rest =>
      let out := trimEnd 47 replacement
      -- both sides are normalised, so a replacement "/" and a rest "/users" do not give "//users"
      let out := if rest = [] then (if out = [] then [47] else out)
        else (if rest.head? = some 47 then out else out ++ [47]) ++ rest
      if out = [] then [47] else out

theorem applyUrlRewrite_of_not_rewritesPath (f : RouteFilters) (h : f.rewritesPath = false) (path : Bytes) :
    f.applyUrlRewrite path = path := by
  obtain ⟨_ | p⟩ := f
  · rfl
  · have hnone : p.urlRewrite = none := Option.not_isSome_iff_eq_none.mp (Bool.eq_false_iff.mp h)
    simp only [applyUrlRewrite, Option.bind_some, hnone]

end RouteFilters

end LbProxy.Core
