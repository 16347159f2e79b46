import LbProxy.Lib.Edits
import LbProxy.Core.Gateway
import LbProxy.Core.Proxy

/-!
# What the header filters of a rule do (`gateway.rs`, `filter.rs`)

* `HeaderFilter.outcome` — one header filter, in the terms of the Gateway API: what it removes is gone, otherwise its
  last value replaces the values and what it adds stands behind;
* `HttpRouteRule.requestOutcome`, `responseOutcome` — the header filters of a rule, one after the other;
* `modified_requestModifiers`, `modified_responseModifiers` — the compiled modifiers of the rule do that.
-/

namespace LbProxy.Core

open Lib ClusterState

/-! ## The filters of a rule -/

/-- The header filter of a request, if the filter is one. -/
def HttpRouteFilter.requestHeaders (f : HttpRouteFilter) : Option HeaderFilter :=
  if f.filterType = ascii "RequestHeaderModifier" then f.requestHeaderModifier else none

/-- The header filter of a response, if the filter is one. -/
def HttpRouteFilter.responseHeaders (f : HttpRouteFilter) : Option HeaderFilter :=
  if f.filterType = ascii "ResponseHeaderModifier" then f.responseHeaderModifier else none

section Outcome

variable (ht : HeaderTypes)

/-- The values that a list of pairs has for the header `n`; a pair that is no valid field has none. -/
def valuesNamed (n : Bytes) (pairs : List NameValue) : List Bytes :=
  pairs.filterMap fun nv => if ht.nameFromBytes nv.name = some n then ht.valueFromStr nv.value else none

/-- What a header filter makes of the values of the header `n`. -/
def HeaderFilter.outcome (n : Bytes) (values : List Bytes) (f : HeaderFilter) : List Bytes :=
  if some n ∈ f.remove.map ht.nameFromBytes then []
  else ((valuesNamed ht n f.set).getLast?.map fun v => [v]).getD values ++ valuesNamed ht n f.add

/-- What the filters of a rule make of the values of a request header. -/
def HttpRouteRule.requestOutcome (rule : HttpRouteRule) (n : Bytes) (values : List Bytes) : List Bytes :=
  (rule.filters.filterMap HttpRouteFilter.requestHeaders).foldl (HeaderFilter.outcome ht n) values

/-- What the filters of a rule make of the values of a response header. -/
def HttpRouteRule.responseOutcome (rule : HttpRouteRule) (n : Bytes) (values : List Bytes) : List Bytes :=
  (rule.filters.filterMap HttpRouteFilter.responseHeaders).foldl (HeaderFilter.outcome ht n) values

end Outcome

/-- A filter of the rule sets or adds the value. -/
def HttpRouteRule.Writes (ht : HeaderTypes) (rule : HttpRouteRule) (n v : Bytes) : Prop :=
  ∃ f ∈ rule.filters.filterMap HttpRouteFilter.requestHeaders, v ∈ valuesNamed ht n f.set ∨ v ∈ valuesNamed ht n f.add

/-- **A value was there before, or a filter wrote it.** -/
theorem mem_requestOutcome {ht : HeaderTypes} {rule : HttpRouteRule} {n v : Bytes} {values : List Bytes}
    (h : v ∈ rule.requestOutcome ht n values) : v ∈ values ∨ rule.Writes ht n v := by
  unfold HttpRouteRule.requestOutcome HttpRouteRule.Writes at *
  generalize rule.filters.filterMap HttpRouteFilter.requestHeaders = fs at h
  induction fs generalizing values with
  | nil => exact Or.inl h
  | cons f fs ih =>
    rcases ih h with h | ⟨f', hf', hv⟩
    · unfold HeaderFilter.outcome at h
      split at h
      · cases h
      rcases List.mem_append.mp h with h | h
      · cases hlast : (valuesNamed ht n f.set).getLast? with
        | none => exact Or.inl (by simpa [hlast] using h)
        | some w =>
          obtain rfl : v = w := by simpa [hlast] using h
          exact Or.inr ⟨f, List.mem_cons_self, Or.inl (List.mem_of_getLast? hlast)⟩
      · exact Or.inr ⟨f, List.mem_cons_self, Or.inr h⟩
    · exact Or.inr ⟨f', List.mem_cons_of_mem _ hf', hv⟩

/-! ## Modifiers as edits of one header -/

/-- The edit of the header `n`, if the modifier is about it. -/
def Compiled.edit (n : Bytes) : Compiled → Option (Edit Bytes)
  | .set name v => if n = name then some (.set v) else none
  | .add name v => if n = name then some (.add v) else none
  | .remove name => if n = name then some .remove else none

/-- The edits of the header `n` by a list of modifiers. -/
def editsOf (cs : List Compiled) (n : Bytes) : List (Edit Bytes) := cs.filterMap (Compiled.edit n)

theorem modified_eq_run (cs : List Compiled) (n : Bytes) (values : List Bytes) :
    modified cs n values = Edit.run (editsOf cs n) values := by
  unfold modified editsOf
  induction cs generalizing values with
  | nil => rfl
  | cons c cs ih =>
    rw [List.foldl_cons, ih]
    cases c with
    | set name v => by_cases h : n = name <;> simp [Compiled.act, Compiled.edit, Edit.act, h]
    | add name v => by_cases h : n = name <;> simp [Compiled.act, Compiled.edit, Edit.act, h]
    | remove name => by_cases h : n = name <;> simp [Compiled.act, Compiled.edit, Edit.act, h]

section Modifiers

variable (ht : HeaderTypes)

theorem edits_of_pairs {modifier : Bytes → Bytes → HeaderModifier} {compiled : Bytes → Bytes → Compiled}
    {edit : Bytes → Edit Bytes} {n : Bytes}
    (hcompile : ∀ name value, Compiled.compile ht (modifier name value) =
      (ht.nameFromBytes name).bind fun n' => (ht.valueFromStr value).map (compiled n'))
    (hedit : ∀ name v, (compiled name v).edit n = if n = name then some (edit v) else none) (pairs : List NameValue) :
    ((pairs.map fun nv => modifier nv.name nv.value).filterMap (Compiled.compile ht)).filterMap (Compiled.edit n) =
      (valuesNamed ht n pairs).map edit := by
  rw [List.filterMap_filterMap, List.filterMap_map, valuesNamed, List.map_filterMap]
  refine List.filterMap_congr fun nv _ => ?_
  rw [Function.comp_apply, hcompile]
  cases hname : ht.nameFromBytes nv.name with
  | none => simp
  | some n' =>
    by_cases h : n' = n
    · cases ht.valueFromStr nv.value <;> simp [hedit, h]
    · cases ht.valueFromStr nv.value <;> simp [hedit, h, Ne.symm h]

theorem edits_of_removed (n : Bytes) (names : List Bytes) :
    ((names.map HeaderModifier.remove).filterMap (Compiled.compile ht)).filterMap (Compiled.edit n) =
      List.replicate ((names.map ht.nameFromBytes).count (some n)) .remove := by
  induction names with
  | nil => rfl
  | cons name names ih =>
    cases hname : ht.nameFromBytes name with
    | none => simpa [Compiled.compile, hname] using ih
    | some n' =>
      by_cases h : n' = n
      · simpa [Compiled.compile, Compiled.edit, hname, h, List.replicate_succ] using ih
      · simpa [Compiled.compile, Compiled.edit, hname, h, Ne.symm h] using ih

/-- **The modifiers of a header filter do what the filter says.** -/
theorem modified_toModifiers (f : HeaderFilter) (n : Bytes) (values : List Bytes) :
    modified (f.toModifiers.filterMap (Compiled.compile ht)) n values = f.outcome ht n values := by
  rw [modified_eq_run, editsOf, HeaderFilter.toModifiers, List.filterMap_append, List.filterMap_append, List.filterMap_append,
    List.filterMap_append, edits_of_pairs ht (fun _ _ => rfl) (fun _ _ => rfl),
    edits_of_pairs ht (fun _ _ => rfl) (fun _ _ => rfl), edits_of_removed, Edit.run_batch, HeaderFilter.outcome]
  simp only [List.count_eq_zero, ite_not]

/-! ## The compiled filters of a rule -/

theorem foldl_compileFilter (p : Bytes) (filters : List HttpRouteFilter)
    (acc : List HeaderModifier × List HeaderModifier × Option UrlRewrite) :
    (filters.foldl (compileFilter p) acc).1 =
        acc.1 ++ (filters.filterMap HttpRouteFilter.requestHeaders).flatMap HeaderFilter.toModifiers ∧
      (filters.foldl (compileFilter p) acc).2.1 =
        acc.2.1 ++ (filters.filterMap HttpRouteFilter.responseHeaders).flatMap HeaderFilter.toModifiers := by
  induction filters generalizing acc with
  | nil => simp
  | cons f filters ih =>
    obtain ⟨hrequest, hresponse⟩ := ih (compileFilter p acc f)
    rw [List.foldl_cons, hrequest, hresponse]
    obtain ⟨request, response, rewrite⟩ := acc
    have h1 : ascii "RequestHeaderModifier" ≠ ascii "ResponseHeaderModifier" := by decide
    by_cases hreq : f.filterType = ascii "RequestHeaderModifier"
    · cases hf : f.requestHeaderModifier <;>
        simp [compileFilter, HttpRouteFilter.requestHeaders, HttpRouteFilter.responseHeaders, hreq, hf, h1]
    by_cases hresp : f.filterType = ascii "ResponseHeaderModifier"
    · cases hf : f.responseHeaderModifier <;>
        simp [compileFilter, HttpRouteFilter.requestHeaders, HttpRouteFilter.responseHeaders, hresp, hf, Ne.symm h1]
    -- any other filter leaves the modifiers alone
    have hsame : (compileFilter p (request, response, rewrite) f).1 = request ∧
        (compileFilter p (request, response, rewrite) f).2.1 = response := by
      simp only [compileFilter, hreq, hresp, if_false]
      split
      · split <;> exact ⟨rfl, rfl⟩
      · exact ⟨rfl, rfl⟩
    simp [HttpRouteFilter.requestHeaders, HttpRouteFilter.responseHeaders, hreq, hresp, hsame]

theorem modifiers_new (request response : List HeaderModifier) (rewrite : Option UrlRewrite) :
    (RouteFilters.new ht request response rewrite).requestModifiers = request.filterMap (Compiled.compile ht) ∧
      (RouteFilters.new ht request response rewrite).responseModifiers =
        response.filterMap (Compiled.compile ht) := by
  unfold RouteFilters.new
  simp only
  split
  · rename_i h
    simp only [Bool.and_eq_true, List.isEmpty_iff] at h
    rw [h.1.1, h.1.2]
    exact ⟨rfl, rfl⟩
  · exact ⟨rfl, rfl⟩

theorem modified_flatMap (fs : List HeaderFilter) (n : Bytes) (values : List Bytes) :
    modified ((fs.flatMap HeaderFilter.toModifiers).filterMap (Compiled.compile ht)) n values =
      fs.foldl (HeaderFilter.outcome ht n) values := by
  induction fs generalizing values with
  | nil => rfl
  | cons f fs ih =>
    rw [List.flatMap_cons, List.filterMap_append, List.foldl_cons, ← ih, ← modified_toModifiers]
    exact List.foldl_append

/-- **The compiled request modifiers of a rule do what its filters say.** -/
theorem modified_requestModifiers (rule : HttpRouteRule) (p n : Bytes) (values : List Bytes) :
    modified (compileFilters ht rule.filters p).requestModifiers n values = rule.requestOutcome ht n values := by
  unfold compileFilters HttpRouteRule.requestOutcome
  have hfold := (foldl_compileFilter p rule.filters ([], [], none)).1
  generalize rule.filters.foldl (compileFilter p) ([], [], none) = acc at hfold
  obtain ⟨request, response, rewrite⟩ := acc
  obtain rfl : request = _ := hfold
  rw [(modifiers_new ht _ response rewrite).1, ← modified_flatMap, List.nil_append]

/-- **The compiled response modifiers of a rule do what its filters say.** -/
theorem modified_responseModifiers (rule : HttpRouteRule) (p n : Bytes) (values : List Bytes) :
    modified (compileFilters ht rule.filters p).responseModifiers n values = rule.responseOutcome ht n values := by
  unfold compileFilters HttpRouteRule.responseOutcome
  have hfold := (foldl_compileFilter p rule.filters ([], [], none)).2
  generalize rule.filters.foldl (compileFilter p) ([], [], none) = acc at hfold
  obtain ⟨request, response, rewrite⟩ := acc
  obtain rfl : response = _ := hfold
  rw [(modifiers_new ht request _ rewrite).2, ← modified_flatMap, List.nil_append]

end Modifiers

end LbProxy.Core
