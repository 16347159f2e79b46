import LbProxy.Core.Reconcile

/-!
# Reconciliation is sound and complete

* `exists_spec_of_lookup`, `exists_rule_of_lookup` — whatever a table answers was added to it, and whatever
  a compiled table answers comes from a rule of an accepted route;
* `MatchCovers`, `HostServed`, `RuleServes` — which requests a rule of a stored route is for, in the terms of
  the Gateway API;
* `lookup_sound`, `lookup_complete` — for match paths without braces the compiled table answers with a rule
  that is for the request, and it answers whenever there is one.
-/

namespace LbProxy.Core

open Lib RouteTableBuilder ClusterState

/-! ## What a table answers was added to it -/

section Added

variable {m : PathRouter} (hm : m.Laws)
include hm

theorem exists_spec_of_tierHit {specs : List RouteSpec} {tier : Tier} {q : Bytes} {a : RouteAction}
    (h : (buildAll m specs).tierHit q tier = some a) :
    ∃ i s, specs[i]? = some s ∧ Serves tier s ∧ a = actionOf i s := by
  rw [tierHit_buildAll hm] at h
  obtain ⟨p, hp⟩ := PathRouter.mem_of_matchAt hm (PathRouter.built_insertAll hm .new _) h
  have hmem := (PathRouter.accepted_subset _ _ _ hp).resolve_left (by simp)
  obtain ⟨x, hx, he⟩ := List.mem_flatMap.mp hmem
  obtain ⟨p', -, heq⟩ := List.mem_map.mp he
  obtain ⟨hat, hserves⟩ := mem_tierSpecs.mp hx
  exact ⟨x.2, x.1, hat, hserves, (Prod.mk.inj heq).2.symm⟩

/-- **An answer is the action of an added spec**, whatever its patterns look like. -/
theorem exists_spec_of_lookup {specs : List RouteSpec} {host : Option Bytes} {path : Bytes}
    {a : RouteAction} (h : (buildAll m specs).lookup host path = some a) :
    ∃ i s, specs[i]? = some s ∧ a = actionOf i s := by
  rw [lookup_eq_findSome] at h
  obtain ⟨tier, -, hhit⟩ := List.exists_of_findSome?_eq_some h
  obtain ⟨i, s, hat, -, ha⟩ := exists_spec_of_tierHit hm hhit
  exact ⟨i, s, hat, ha⟩

end Added

/-! ## The specs of a rule -/

theorem resolve_ne_nil (c : ClusterState) (ns : Bytes) (backend : BackendRef) : c.resolve ns backend ≠ [] := by
  simp only [ClusterState.resolve]
  split
  · split
    · rename_i eps _ hany
      obtain ⟨e, he, hp⟩ := List.any_eq_true.mp hany
      simp only [ne_eq, List.map_eq_nil_iff, List.filter_eq_nil_iff, not_forall]
      exact ⟨e, he, fun h => h hp⟩
    · simp
  · simp

/-- The endpoints of a rule of a route in the namespace `ns`. -/
def ruleEndpoints (st : ClusterState) (ns : Bytes) (rule : HttpRouteRule) : List BackendEndpoint :=
  rule.backendRefs.flatMap (st.resolve ns)

/-- The name of the `i`-th rule of a route. -/
def ruleName (stored : StoredRoute) (i : ℕ) : Bytes :=
  stored.ns ++ ascii "/" ++ stored.name ++ ascii "#" ++ displayNat i

theorem ruleEndpoints_eq_nil {st : ClusterState} {ns : Bytes} {rule : HttpRouteRule} :
    ruleEndpoints st ns rule = [] ↔ rule.backendRefs = [] := by
  rw [ruleEndpoints, List.flatMap_eq_nil_iff]
  constructor
  · intro h
    by_contra hne
    obtain ⟨b, hb⟩ := List.exists_mem_of_ne_nil _ hne
    exact resolve_ne_nil st ns b (h b hb)
  · intro h
    simp [h]

section Rules

variable {ht : HeaderTypes} {m : PathRouter} {st : ClusterState} {cfg : ControllerConfig}

/-- The spec of a rule for one of its hostnames and matches. -/
def specOf (ht : HeaderTypes) (st : ClusterState) (stored : StoredRoute) (i : ℕ) (rule : HttpRouteRule)
    (hostname : Option Bytes) (pm : Bytes × PathMatch) : RouteSpec where
  hostname := hostname
  path := pm.1
  pathMatch := pm.2
  endpoints := ruleEndpoints st stored.ns rule
  filters := compileFilters ht rule.filters pm.1
  routeName := ruleName stored i

theorem mem_ruleSpecs {stored : StoredRoute} {rule : HttpRouteRule} {i : ℕ} {s : RouteSpec} :
    s ∈ ruleSpecs ht st stored (rule, i) ↔ rule.backendRefs ≠ [] ∧
      ∃ hostname ∈ routeHostnames stored.spec, ∃ pm ∈ ruleMatches rule,
        s = specOf ht st stored i rule hostname pm := by
  have hempty : (rule.backendRefs.flatMap (st.resolve stored.ns)).isEmpty = true ↔ rule.backendRefs = [] := by
    rw [List.isEmpty_iff]
    exact ruleEndpoints_eq_nil
  simp only [ruleSpecs]
  by_cases hb : rule.backendRefs = []
  · rw [if_pos (hempty.mpr hb)]
    simp [hb]
  · rw [if_neg (fun h => hb (hempty.mp h))]
    simp only [List.mem_flatMap, List.mem_map, ne_eq, hb, not_false_eq_true, true_and]
    constructor
    · rintro ⟨hostname, hh, pm, hpm, rfl⟩
      exact ⟨hostname, hh, pm, hpm, rfl⟩
    · rintro ⟨hostname, hh, pm, hpm, rfl⟩
      exact ⟨hostname, hh, pm, hpm, rfl⟩

theorem mem_routeSpecs {stored : StoredRoute} {s : RouteSpec} :
    s ∈ routeSpecs ht st cfg stored ↔ routeIsOurs cfg stored = true ∧
      ∃ i rule, stored.spec.rules[i]? = some rule ∧ s ∈ ruleSpecs ht st stored (rule, i) := by
  unfold routeSpecs
  by_cases hours : routeIsOurs cfg stored = true
  · rw [if_pos hours]
    simp only [hours, true_and, List.mem_flatMap, Prod.exists, List.mem_zipIdx_iff_getElem?]
    exact ⟨fun ⟨rule, i, h⟩ => ⟨i, rule, h⟩, fun ⟨i, rule, h⟩ => ⟨rule, i, h⟩⟩
  · rw [if_neg hours]
    simp [hours]

/-- **An answer of a compiled table is the action of a rule of an accepted route**, for one of its hostnames
and matches. -/
theorem exists_rule_of_lookup (hm : m.Laws) {order : List StoredRoute} {host : Option Bytes} {path : Bytes}
    {a : RouteAction} (h : (compile ht m st cfg order).lookup host path = some a) :
    ∃ stored ∈ order, routeIsOurs cfg stored = true ∧
      ∃ i rule, stored.spec.rules[i]? = some rule ∧ rule.backendRefs ≠ [] ∧
        ∃ hostname ∈ routeHostnames stored.spec, ∃ pm ∈ ruleMatches rule, ∃ k,
          a = actionOf k (specOf ht st stored i rule hostname pm) := by
  obtain ⟨k, s, hat, rfl⟩ := exists_spec_of_lookup hm h
  obtain ⟨stored, hstored, hs⟩ := List.mem_flatMap.mp (List.mem_of_getElem? hat)
  obtain ⟨hours, i, rule, hrule, hs⟩ := mem_routeSpecs.mp hs
  obtain ⟨hne, hostname, hhost, pm, hpm, rfl⟩ := mem_ruleSpecs.mp hs
  exact ⟨stored, hstored, hours, i, rule, hrule, hne, hostname, hhost, pm, hpm, k, rfl⟩

end Rules

/-! ## Which paths a match covers -/

/-- A match covers a path: an exact one without a shorthand only the path itself (an empty one is read as
`/`), any other one its base and what lies below. -/
def MatchCovers (pm : Bytes × PathMatch) (q : Bytes) : Prop :=
  if pm.2 = .exact ∧ ¬ HasShorthand pm.1 then q = if pm.1 = [] then [47] else pm.1
  else q = base pm.1 ∨ base pm.1 ++ [47] <+: q

instance (pm : Bytes × PathMatch) (q : Bytes) : Decidable (MatchCovers pm q) :=
  inferInstanceAs (Decidable (if pm.2 = .exact ∧ ¬ HasShorthand pm.1 then q = if pm.1 = [] then [47] else pm.1
    else q = base pm.1 ∨ base pm.1 ++ [47] <+: q))

/-- **The patterns of a match answer the paths it covers.** -/
theorem answers_iff_covers {pm : Bytes × PathMatch} {q : Bytes} (hb : NoBrace pm.1) (hq : q ≠ []) :
    (∃ p ∈ expandPattern pm.1 pm.2, PathRouter.Answers p q) ↔ MatchCovers pm q := by
  obtain ⟨path, kind⟩ := pm
  simp only [MatchCovers] at hb ⊢
  by_cases hexact : kind = .exact ∧ ¬ HasShorthand path
  · obtain ⟨rfl, hno⟩ := hexact
    have hnb : NoBrace (if path = [] then [47] else path) := by
      split
      · decide
      · exact hb
    rw [if_pos ⟨rfl, hno⟩, expandPattern_of_plain hno]
    simp only [List.mem_singleton, exists_eq_left]
    constructor
    · rintro (⟨-, h⟩ | ⟨b, -, h, -⟩)
      · exact h.symm
      · exact absurd h hnb.ne_catchAll
    · rintro rfl
      exact Or.inl ⟨hnb, rfl⟩
  · rw [if_neg hexact, ← answers_expandPattern_iff hb hq, expandPattern_of_not_plain hexact]

/-! ## Which hosts a route serves -/

/-- The hostnames of a route serve a host: there are none, one is `*`, one equals the port-stripped host
ignoring ASCII case, or one is `*.x` and the host ends in `.x` ignoring ASCII case. -/
def HostServed (hostnames : List Bytes) (host : Option Bytes) : Prop :=
  hostnames = [] ∨ ascii "*" ∈ hostnames ∨
    ∃ h, host = some h ∧ ∃ hostname ∈ hostnames,
      lowercase hostname = lowercase (hostWithoutPort h) ∨
        ∃ x, hostname = ascii "*." ++ x ∧ lowercase (ascii "." ++ x) <:+ lowercase (hostWithoutPort h)

theorem mem_dotSuffixes {s n : Bytes} : s ∈ dotSuffixes n ↔ s <:+ n ∧ s.head? = some 46 := by
  unfold dotSuffixes
  rw [List.mem_filter, List.mem_tails]
  simp

/-- A hostname is filed under a tier of the host exactly if it is `*`, equals the host, or is a wildcard
above it. -/
theorem tierOf_mem_hostTiers {hostname : Bytes} {host : Option Bytes} :
    tierOf (some hostname) ∈ hostTiers host ↔ hostname = ascii "*" ∨
      ∃ h, host = some h ∧ (lowercase hostname = lowercase (hostWithoutPort h) ∨
        ∃ x, hostname = ascii "*." ++ x ∧ lowercase (ascii "." ++ x) <:+ lowercase (hostWithoutPort h)) := by
  unfold tierOf
  simp only
  by_cases hstar : hostname = ascii "*"
  · rw [if_pos hstar]
    simp only [hstar, true_or, iff_true]
    unfold hostTiers tiersOf
    cases host <;> simp
  rw [if_neg hstar]
  by_cases hwild : ascii "*." <+: hostname
  · obtain ⟨x, rfl⟩ := hwild
    rw [if_pos (List.prefix_append _ _)]
    have hdrop : (ascii "*." ++ x).drop 1 = ascii "." ++ x := rfl
    have hhead : (lowercase (ascii "." ++ x)).head? = some 46 := rfl
    rw [hdrop]
    cases host with
    | none => simp [hostTiers, tiersOf, hstar]
    | some h =>
      have hmem : Tier.wildcard (lowercase (ascii "." ++ x)) ∈ hostTiers (some h) ↔
          lowercase (ascii "." ++ x) <:+ lowercase (hostWithoutPort h) := by
        generalize lowercase (ascii "." ++ x) = suffix at hhead
        simp [hostTiers, tiersOf, mem_dotSuffixes, hhead]
      rw [hmem]
      constructor
      · intro hs
        exact Or.inr ⟨h, rfl, Or.inr ⟨x, rfl, hs⟩⟩
      · rintro (h | ⟨h', heq, hs | ⟨y, hy, hs⟩⟩)
        · exact absurd h hstar
        · -- the hostname itself as a host
          obtain rfl := Option.some.inj heq
          rw [← hs]
          exact ⟨[42], rfl⟩
        · obtain rfl := Option.some.inj heq
          rw [List.append_cancel_left hy]
          exact hs
  · rw [if_neg hwild]
    cases host with
    | none => simp [hostTiers, tiersOf, hstar]
    | some h =>
      simp only [hostTiers, tiersOf, Option.map_some, List.cons_append, List.mem_cons, Tier.exact.injEq,
        List.mem_append, List.mem_map, reduceCtorEq, and_false, exists_false, List.not_mem_nil, or_false,
        Option.some.injEq, exists_eq_left', hstar, false_or]
      constructor
      · exact Or.inl
      · rintro (h | ⟨x, rfl, -⟩)
        · exact h
        · exact absurd (List.prefix_append _ _) hwild

theorem hostServed_iff {spec : HttpRouteSpec} {host : Option Bytes} :
    (∃ hostname ∈ routeHostnames spec, tierOf hostname ∈ hostTiers host) ↔
      HostServed spec.hostnames host := by
  unfold routeHostnames HostServed
  by_cases hnil : spec.hostnames = []
  · have hdefault : tierOf none ∈ hostTiers host := by
      unfold hostTiers tiersOf
      cases host <;> simp [tierOf]
    simp [hnil, hdefault]
  · have hempty : spec.hostnames.isEmpty = false := by simpa using hnil
    simp only [hempty, Bool.false_eq_true, if_false, List.mem_map, exists_exists_and_eq_and,
      tierOf_mem_hostTiers, hnil, false_or]
    constructor
    · rintro ⟨hn, hmem, rfl | ⟨h, hh, hcase⟩⟩
      · exact Or.inl hmem
      · exact Or.inr ⟨h, hh, hn, hmem, hcase⟩
    · rintro (hmem | ⟨h, hh, hn, hmem, hcase⟩)
      · exact ⟨_, hmem, Or.inl rfl⟩
      · exact ⟨hn, hmem, Or.inr ⟨h, hh, hcase⟩⟩

/-! ## Sound and complete -/

/-- The `i`-th rule of a stored route is for the request: the route is accepted, the rule has a backend, one
of the matches `pms rule` covers the path, and the hostnames serve the host. -/
structure RuleServes (cfg : ControllerConfig) (pms : HttpRouteRule → List (Bytes × PathMatch))
    (stored : StoredRoute) (i : ℕ) (host : Option Bytes) (q : Bytes) : Prop where
  ours : routeIsOurs cfg stored = true
  rule : ∃ rule, stored.spec.rules[i]? = some rule ∧ rule.backendRefs ≠ [] ∧
    ∃ pm ∈ pms rule, MatchCovers pm q
  hosts : HostServed stored.spec.hostnames host

section Specs

variable {m : PathRouter} (hm : m.Laws)
include hm

/-- A tier of a built table answers with a spec that it files and whose match covers the path, or none of its specs
does. -/
theorem tierHit_buildAll_cases {specs : List RouteSpec} (hbrace : ∀ s ∈ specs, NoBrace s.path) (tier : Tier)
    {q : Bytes} (hq : q ≠ []) :
    (∃ k s, specs[k]? = some s ∧ tierOf s.hostname = tier ∧ MatchCovers (s.path, s.pathMatch) q ∧
        (buildAll m specs).tierHit q tier = some (actionOf k s)) ∨
      ((buildAll m specs).tierHit q tier = none ∧
        ∀ s ∈ specs, tierOf s.hostname = tier → ¬ MatchCovers (s.path, s.pathMatch) q) := by
  have hmem : ∀ x, x ∈ tierSpecs specs tier ↔ specs[x.2]? = some x.1 ∧ tierOf x.1.hostname = tier := by
    intro x
    rw [mem_tierSpecs, tierOf_eq_iff]
  have hplain : ∀ e ∈ (tierSpecs specs tier).flatMap entriesOf, Plain e.1 := by
    intro e he
    obtain ⟨x, hx, he⟩ := List.mem_flatMap.mp he
    obtain ⟨p, hp, rfl⟩ := List.mem_map.mp he
    exact (plain_and_ne_nil_of_mem (hbrace x.1 (List.mem_of_getElem? ((hmem x).mp hx).1)) hp).1
  rw [tierHit_buildAll hm]
  rcases PathRouter.matchAt_insertAll_cases hm hplain q with ⟨e, he, hans, hhit⟩ | ⟨hnone, hno⟩
  · obtain ⟨⟨s, k⟩, hx, he⟩ := List.mem_flatMap.mp he
    obtain ⟨p, hp, rfl⟩ := List.mem_map.mp he
    obtain ⟨hat, htier⟩ := (hmem _).mp hx
    exact Or.inl ⟨k, s, hat, htier,
      (answers_iff_covers (hbrace s (List.mem_of_getElem? hat)) hq).mp ⟨p, hp, hans⟩, hhit⟩
  · refine Or.inr ⟨hnone, fun s hs htier hcov => ?_⟩
    obtain ⟨k, hlt, hk⟩ := List.mem_iff_getElem.mp hs
    have hat : specs[k]? = some s := by rw [List.getElem?_eq_getElem hlt, hk]
    obtain ⟨p, hp, hans⟩ := (answers_iff_covers (hbrace s hs) hq).mpr hcov
    exact hno (p, actionOf k s) (List.mem_flatMap.mpr ⟨(s, k), (hmem (s, k)).mpr ⟨hat, htier⟩,
      List.mem_map.mpr ⟨p, hp, rfl⟩⟩) hans

end Specs

section Complete

variable {ht : HeaderTypes} {m : PathRouter} (hm : m.Laws) {st : ClusterState} (hb : BraceFree st)
  {order : List StoredRoute} (horder : order.Perm st.values)
include hm hb horder

theorem tierHit_compile_cases (cfg : ControllerConfig) (tier : Tier) {q : Bytes} (hq : q ≠ []) :
    (∃ k s, (order.flatMap (routeSpecs ht st cfg))[k]? = some s ∧ tierOf s.hostname = tier ∧
        MatchCovers (s.path, s.pathMatch) q ∧
        (compile ht m st cfg order).tierHit q tier = some (actionOf k s)) ∨
      ((compile ht m st cfg order).tierHit q tier = none ∧
        ∀ s ∈ order.flatMap (routeSpecs ht st cfg), tierOf s.hostname = tier →
          ¬ MatchCovers (s.path, s.pathMatch) q) := by
  have hbrace : ∀ s ∈ order.flatMap (routeSpecs ht st cfg), NoBrace s.path := by
    intro s hs
    obtain ⟨stored, hstored, hs⟩ := List.mem_flatMap.mp hs
    obtain ⟨rule, hrule, pm, hpm, hpath⟩ := path_of_mem_routeSpecs hs
    exact hpath ▸ hb stored (horder.mem_iff.mp hstored) rule hrule pm hpm
  exact tierHit_buildAll_cases hm hbrace tier hq

/-- An answer is the action of a rule that is for the request, compiled for the match that covers the path. -/
theorem exists_match_of_lookup (cfg : ControllerConfig) {host : Option Bytes}
    (hhost : ∀ h ∈ host, (hostWithoutPort h).length ≤ MAX_HOST_LEN) {path : Bytes} {a : RouteAction}
    (h : (compile ht m st cfg order).lookup host path = some a) :
    ∃ stored ∈ st.values, routeIsOurs cfg stored = true ∧ HostServed stored.spec.hostnames host ∧
      ∃ (i : ℕ) (rule : HttpRouteRule), stored.spec.rules[i]? = some rule ∧ rule.backendRefs ≠ [] ∧
        ∃ pm ∈ ruleMatches rule, MatchCovers pm (if path = [] then [47] else path) ∧
          ∃ hostname k, a = actionOf k (specOf ht st stored i rule hostname pm) := by
  have hq : (if path = [] then [47] else path) ≠ [] := by
    split
    · simp
    · assumption
  rw [lookup_eq_hostTiers _ hhost] at h
  obtain ⟨tier, htier, hhit⟩ := List.exists_of_findSome?_eq_some h
  rcases tierHit_compile_cases hm hb horder cfg tier hq with ⟨k, s, hat, hs, hcov, heq⟩ | ⟨hnone, -⟩
  · rw [hhit] at heq
    obtain rfl := Option.some.inj heq
    obtain ⟨stored, hstored, hspec⟩ := List.mem_flatMap.mp (List.mem_of_getElem? hat)
    obtain ⟨hours, i, rule, hrule, hspec⟩ := mem_routeSpecs.mp hspec
    obtain ⟨hne, hostname, hhn, pm, hpm, rfl⟩ := mem_ruleSpecs.mp hspec
    exact ⟨stored, horder.mem_iff.mp hstored, hours, hostServed_iff.mp ⟨hostname, hhn, hs ▸ htier⟩, i, rule, hrule, hne,
      pm, hpm, hcov, hostname, k, rfl⟩
  · rw [hhit] at hnone
    cases hnone

theorem lookup_sound (cfg : ControllerConfig) {host : Option Bytes}
    (hhost : ∀ h ∈ host, (hostWithoutPort h).length ≤ MAX_HOST_LEN) {path : Bytes} {a : RouteAction}
    (h : (compile ht m st cfg order).lookup host path = some a) :
    ∃ stored ∈ st.values, ∃ i, a.routeName = ruleName stored i ∧
      RuleServes cfg ruleMatches stored i host (if path = [] then [47] else path) := by
  obtain ⟨stored, hstored, hours, hserved, i, rule, hrule, hne, pm, hpm, hcov, hostname, k, rfl⟩ :=
    exists_match_of_lookup hm hb horder cfg hhost h
  exact ⟨stored, hstored, i, rfl, hours, ⟨rule, hrule, hne, pm, hpm, hcov⟩, hserved⟩

theorem lookup_complete (cfg : ControllerConfig) {host : Option Bytes}
    (hhost : ∀ h ∈ host, (hostWithoutPort h).length ≤ MAX_HOST_LEN) {path : Bytes} {stored : StoredRoute}
    (hstored : stored ∈ st.values) {i : ℕ}
    (h : RuleServes cfg ruleMatches stored i host (if path = [] then [47] else path)) :
    ∃ a, (compile ht m st cfg order).lookup host path = some a := by
  have hq : (if path = [] then [47] else path) ≠ [] := by
    split
    · simp
    · assumption
  obtain ⟨rule, hrule, hne, pm, hpm, hcov⟩ := h.rule
  obtain ⟨hostname, hhn, htier⟩ := hostServed_iff.mpr h.hosts
  have hspec : specOf ht st stored i rule hostname pm ∈ order.flatMap (routeSpecs ht st cfg) :=
    List.mem_flatMap.mpr ⟨stored, horder.mem_iff.mpr hstored, mem_routeSpecs.mpr ⟨h.ours, i, rule, hrule,
      mem_ruleSpecs.mpr ⟨hne, hostname, hhn, pm, hpm, rfl⟩⟩⟩
  rw [← Option.ne_none_iff_exists', lookup_eq_hostTiers _ hhost]
  intro hnone
  have hmiss := List.findSome?_eq_none_iff.mp hnone _ htier
  rcases tierHit_compile_cases hm hb horder cfg (tierOf hostname) hq with ⟨k, s, -, -, -, hhit⟩ | ⟨-, hno⟩
  · rw [hmiss] at hhit
    cases hhit
  · exact hno _ hspec rfl hcov

end Complete

/-! ## A name tells the route and the rule -/

theorem displayNat_inj {i j : ℕ} (h : displayNat i = displayNat j) : i = j := by
  have hdigit : ∀ c d : Char, c.isDigit → d.isDigit → UInt8.ofNat c.toNat = UInt8.ofNat d.toNat → c = d := by
    intro c d hc hd hcd
    simp only [Char.isDigit, Bool.and_eq_true, decide_eq_true_eq, ge_iff_le, UInt32.le_iff_toNat_le] at hc hd
    have hval : c.toNat % 256 = d.toNat % 256 := by simpa using congrArg UInt8.toNat hcd
    have hc9 : c.toNat ≤ 57 := hc.2
    have hd9 : d.toNat ≤ 57 := hd.2
    exact Char.toNat_inj.mp (by omega)
  have hmap : ∀ l l' : List Char, (∀ c ∈ l, c.isDigit) → (∀ c ∈ l', c.isDigit) →
      l.map (fun c => UInt8.ofNat c.toNat) = l'.map (fun c => UInt8.ofNat c.toNat) → l = l' := by
    intro l
    induction l with
    | nil => intro l' _ _ h; simpa using h.symm
    | cons c l ih =>
      intro l' hl hl' h
      cases l' with
      | nil => simp at h
      | cons d l' =>
        simp only [List.map_cons, List.cons.injEq] at h
        rw [hdigit c d (hl c (by simp)) (hl' d (by simp)) h.1,
          ih l' (fun x hx => hl x (by simp [hx])) (fun x hx => hl' x (by simp [hx])) h.2]
  have hdigits := hmap _ _ (fun c hc => Nat.isDigit_of_mem_toDigits (by omega) (by omega) hc)
    (fun c hc => Nat.isDigit_of_mem_toDigits (by omega) (by omega) hc) h
  rw [← Nat.ofDigitChars_ten_toDigits (n := i), hdigits, Nat.ofDigitChars_ten_toDigits]

theorem hash_not_mem_displayNat (i : ℕ) : (35 : UInt8) ∉ displayNat i := by
  intro h
  obtain ⟨c, hc, heq⟩ := List.mem_map.mp h
  have hdigit := Nat.isDigit_of_mem_toDigits (by omega) (by omega) hc
  simp only [Char.isDigit, Bool.and_eq_true, decide_eq_true_eq, ge_iff_le, UInt32.le_iff_toNat_le] at hdigit
  have hval : c.toNat % 256 = 35 := by simpa using congrArg UInt8.toNat heq
  have h0 : 48 ≤ c.toNat := hdigit.1
  have h9 : c.toNat ≤ 57 := hdigit.2
  omega

theorem append_cons_inj {b : UInt8} {x x' y y' : Bytes} (hx : b ∉ x) (hx' : b ∉ x')
    (h : x ++ b :: y = x' ++ b :: y') : x = x' ∧ y = y' := by
  have htake : ∀ z w : Bytes, b ∉ z → (z ++ b :: w).takeWhile (· != b) = z := by
    intro z w hz
    rw [List.takeWhile_append_of_pos (by simpa using fun a ha => (ne_of_mem_of_not_mem ha hz))]
    simp
  have hxx : x = x' := by rw [← htake x y hx, h, htake x' y' hx']
  subst hxx
  exact ⟨rfl, (List.cons.inj (List.append_cancel_left h)).2⟩

/-- **Namespaces without a slash make names unambiguous.** -/
theorem ruleName_inj {stored : StoredRoute} {ns name : Bytes} {i j : ℕ} (hs : (47 : UInt8) ∉ stored.ns)
    (hns : (47 : UInt8) ∉ ns)
    (h : ruleName stored i = ns ++ ascii "/" ++ name ++ ascii "#" ++ displayNat j) :
    stored.ns = ns ∧ stored.name = name ∧ i = j := by
  have hsplit : stored.ns ++ 47 :: (stored.name ++ 35 :: displayNat i) =
      ns ++ 47 :: (name ++ 35 :: displayNat j) := by simpa [ruleName, ascii] using h
  obtain ⟨hnseq, hrest⟩ := append_cons_inj hs hns hsplit
  -- the digits have no `#`, so the last one ends the name
  have hrev : (displayNat i).reverse ++ 35 :: stored.name.reverse =
      (displayNat j).reverse ++ 35 :: name.reverse := by simpa using congrArg List.reverse hrest
  obtain ⟨hdig, hname⟩ := append_cons_inj (by simpa using hash_not_mem_displayNat i)
    (by simpa using hash_not_mem_displayNat j) hrev
  exact ⟨hnseq, List.reverse_inj.mp hname, displayNat_inj (List.reverse_inj.mp hdig)⟩

/-- **Reconciliation is sound and complete.**  For every order of the stored routes, match paths without
braces and a host that fits the buffer: an answer names a rule of an accepted route that is for the request
(if namespaces have no slash, the one route and rule that the name spells), and there is an answer whenever
such a rule exists. -/
theorem compile_sound_and_complete {ht : HeaderTypes} {m : PathRouter} (hm : m.Laws) (st : ClusterState)
    (cfg : ControllerConfig) (order : List StoredRoute) (horder : order.Perm st.values) (hb : BraceFree st)
    (host : Option Bytes) (hhost : ∀ h ∈ host, (hostWithoutPort h).length ≤ MAX_HOST_LEN) (path : Bytes) :
    let q := if path = [] then [47] else path
    (∀ a, (ClusterState.compile ht m st cfg order).lookup host path = some a →
      (∃ stored ∈ st.values, ∃ i, a.routeName = ruleName stored i ∧
        RuleServes cfg ruleMatches stored i host q) ∧
      ((∀ stored ∈ st.values, (47 : UInt8) ∉ stored.ns) → ∀ ns name i, (47 : UInt8) ∉ ns →
        a.routeName = ns ++ ascii "/" ++ name ++ ascii "#" ++ displayNat i →
          ∃ stored ∈ st.values, stored.ns = ns ∧ stored.name = name ∧
            RuleServes cfg ruleMatches stored i host q)) ∧
    ((∃ stored ∈ st.values, ∃ i, RuleServes cfg ruleMatches stored i host q) →
      ∃ a, (ClusterState.compile ht m st cfg order).lookup host path = some a) := by
  intro q
  refine ⟨fun a ha => ?_, ?_⟩
  · obtain ⟨stored, hstored, i, hname, hserves⟩ := lookup_sound hm hb horder cfg hhost ha
    refine ⟨⟨stored, hstored, i, hname, hserves⟩, ?_⟩
    intro hslash ns name j hns hname'
    obtain ⟨h₁, h₂, rfl⟩ := ruleName_inj (hslash stored hstored) hns (hname.symm.trans hname')
    exact ⟨stored, hstored, h₁, h₂, hserves⟩
  · rintro ⟨stored, hstored, i, hserves⟩
    exact lookup_complete hm hb horder cfg hhost hstored hserves

theorem compile_sound_and_complete_two_paths :
    ∃ a, (ClusterState.compile HeaderTypes.reference PathRouter.reference
      (sampleState (sampleRoute (ascii "a") (ascii "/a") (ascii "x"))
        (sampleRoute (ascii "b") (ascii "/b") (ascii "y"))) anyGateway
      [sampleRoute (ascii "b") (ascii "/b") (ascii "y"), sampleRoute (ascii "a") (ascii "/a") (ascii "x")]).lookup
        (some (ascii "example.com")) (ascii "/a/1") = some a := by
  refine (compile_sound_and_complete PathRouter.reference_laws _ anyGateway _ (List.Perm.swap _ _ _) ?_
    (some (ascii "example.com")) (by decide) (ascii "/a/1")).2
    ⟨sampleRoute (ascii "a") (ascii "/a") (ascii "x"), by decide, 0, by decide, ?_, Or.inl rfl⟩
  · have hvalues : ∀ a b, (sampleState a b).values = [a, b] := fun _ _ => rfl
    unfold BraceFree
    rw [hvalues]
    decide
  · exact ⟨_, rfl, by decide, (ascii "/a", .pathPrefix), by decide, by decide⟩

/-- The matches of a rule if a match without a value were the prefix `/` whatever its type. -/
def valuelessAsPrefix (rule : HttpRouteRule) : List (Bytes × PathMatch) :=
  if rule.routeMatches.isEmpty then [(ascii "/", .pathPrefix)]
  else rule.routeMatches.map fun rm =>
    match rm.path.bind (·.value) with
    | none => (ascii "/", .pathPrefix)
    | some value =>
      (value, if rm.path.bind (·.matchType) = some (ascii "Exact") then .exact else .pathPrefix)

/-- A route with one `Exact` match that has no value. -/
def valuelessRoute : StoredRoute where
  ns := ascii "default"
  name := ascii "a"
  spec := {
    parentRefs := []
    hostnames := []
    rules := [⟨[⟨some ⟨some (ascii "Exact"), none⟩⟩], [⟨ascii "x", none, some 80, none⟩], []⟩] }

/-- The state with one route and the given endpoints. -/
def soloState (r : StoredRoute) (endpoints : AList fun _ : ServiceKey => List ReadyEndpoint) :
    ClusterState where
  routes := (∅ : AList fun _ : ServiceKey => StoredRoute).insert (r.ns, r.name) r
  endpoints := endpoints

/-- An `Exact` match without a value is for the path `/` only. -/
theorem valueless_exact_is_not_a_prefix :
    ¬ ((∃ stored ∈ (soloState valuelessRoute ∅).values, ∃ i,
        RuleServes anyGateway valuelessAsPrefix stored i none (ascii "/foo")) →
      ∃ a, (ClusterState.compile HeaderTypes.reference PathRouter.reference (soloState valuelessRoute ∅)
        anyGateway [valuelessRoute]).lookup none (ascii "/foo") = some a) := by
  intro h
  obtain ⟨a, ha⟩ := h ⟨valuelessRoute, by decide, 0, by decide,
    ⟨_, rfl, by decide, (ascii "/", .pathPrefix), by decide, by decide⟩, Or.inl rfl⟩
  have hnone : (ClusterState.compile HeaderTypes.reference PathRouter.reference (soloState valuelessRoute ∅)
      anyGateway [valuelessRoute]).lookup none (ascii "/foo") = none := by
    decide +kernel
  rw [hnone] at ha
  cases ha

end LbProxy.Core
