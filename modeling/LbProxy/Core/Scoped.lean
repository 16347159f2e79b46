import LbProxy.Core.Soundness

/-!
# A scoped controller and the routes of others

* `Unattached` — no `parentRefs` entry names the Gateway of the controller in its namespace;
* `Ignored` — adding the route to a state, or removing it, changes no lookup;
* `rel_lookup_of_no_block` — a route that files nothing under a reachable tier changes no lookup;
* `scoped_ignores_iff` — an unattached route is ignored exactly if it has a `parentRefs` entry, or serves nothing.
-/

namespace LbProxy.Core

open Lib RouteTableBuilder ClusterState

/-- No entry of `parentRefs` names the Gateway `g` in the namespace `n`; the namespace of an entry is that of the route
if it has none. -/
def Unattached (g n : Bytes) (r : StoredRoute) : Prop :=
  ∀ p ∈ r.spec.parentRefs, ¬ (p.name = g ∧ p.ns.getD r.ns = n)

/-- No rule of the route has a backend, or no host reaches one of its hostnames. -/
def Idle (r : StoredRoute) : Prop :=
  (∀ rule ∈ r.spec.rules, rule.backendRefs = []) ∨ ∀ hostname ∈ routeHostnames r.spec, ¬ Reachable (tierOf hostname)

/-- The state with one more route. -/
def ClusterState.addRoute (st : ClusterState) (r : StoredRoute) : ClusterState :=
  { st with routes := st.routes.insert (r.ns, r.name) r }

/-- The state without a route. -/
def ClusterState.removeRoute (st : ClusterState) (r : StoredRoute) : ClusterState :=
  { st with routes := st.routes.erase (r.ns, r.name) }

section Scoped

variable (ht : HeaderTypes) (m : PathRouter)

/-- Adding the route to a state, or removing it from one, changes no lookup, wherever the route stands in the order of
iteration. -/
structure Ignored (cfg : ControllerConfig) (r : StoredRoute) : Prop where
  added : ∀ (st : ClusterState) (before after : List StoredRoute), (r.ns, r.name) ∉ st.routes →
    (before ++ after).Perm st.values → ∀ host path,
      Option.Rel (SameAction ht) ((compile ht m (st.addRoute r) cfg (before ++ r :: after)).lookup host path)
        ((compile ht m st cfg (before ++ after)).lookup host path)
  removed : ∀ (st : ClusterState) (before after : List StoredRoute), st.routes.lookup (r.ns, r.name) = some r →
    (before ++ r :: after).Perm st.values → ∀ host path,
      Option.Rel (SameAction ht) ((compile ht m (st.removeRoute r) cfg (before ++ after)).lookup host path)
        ((compile ht m st cfg (before ++ r :: after)).lookup host path)

variable {ht m}

/-! ## Routes that are ignored -/

theorem optionRel_refl {α : Type} {R : α → α → Prop} (hR : ∀ a, R a a) (x : Option α) : Option.Rel R x x := by
  cases x with
  | none => exact .none
  | some a => exact .some (hR a)

theorem compile_congr (st st' : ClusterState) (h : st.endpoints = st'.endpoints) (cfg : ControllerConfig)
    (order : List StoredRoute) : compile ht m st cfg order = compile ht m st' cfg order := by
  have hresolve : st.resolve = st'.resolve := by
    funext ns backend
    simp only [ClusterState.resolve, h]
  have hspecs : routeSpecs ht st cfg = routeSpecs ht st' cfg := by
    funext stored
    simp only [routeSpecs]
    split
    · congr 1
      funext x
      simp only [ruleSpecs, hresolve]
    · rfl
  rw [ClusterState.compile, ClusterState.compile, hspecs]

/-- **A route that files nothing under a reachable tier changes no lookup.** -/
theorem rel_lookup_of_no_block (hm : m.Laws) {st : ClusterState} {cfg : ControllerConfig} {r : StoredRoute}
    (h : ∀ t, Reachable t → tierBlock ht st cfg t r = []) (before after : List StoredRoute) (host : Option Bytes)
    (path : Bytes) :
    Option.Rel (SameAction ht) ((compile ht m st cfg (before ++ r :: after)).lookup host path)
      ((compile ht m st cfg (before ++ after)).lookup host path) := by
  rw [lookup_eq_findSome, lookup_eq_findSome]
  refine rel_findSome fun t htier => ?_
  have hblocks : ((before ++ r :: after).map (tierBlock ht st cfg t)).flatten =
      ((before ++ after).map (tierBlock ht st cfg t)).flatten := by
    simp [h t ⟨host, htier⟩]
  have hwith := rel_tierHit_compile ht hm st cfg (before ++ r :: after) (if path = [] then [47] else path) t
  rw [hblocks] at hwith
  exact rel_of_erased hwith (rel_tierHit_compile ht hm st cfg (before ++ after) _ t) (optionRel_refl SameAction.refl _)

theorem tierBlock_eq_nil {st : ClusterState} {cfg : ControllerConfig} {t : Tier} {r : StoredRoute}
    (h : ∀ s ∈ routeSpecs ht st cfg r, tierOf s.hostname ≠ t) : tierBlock ht st cfg t r = [] := by
  have hnone : (routeSpecs ht st cfg r).filter (fun s => tierOf s.hostname = t) = [] := by
    rw [List.filter_eq_nil_iff]
    intro s hs
    simpa using h s hs
  rw [tierBlock, hnone]
  rfl

variable {cfg : ControllerConfig} {g n : Bytes} (hg : cfg.gatewayName = some g) (hn : cfg.ns = some n)
include hg hn

theorem routeIsOurs_iff (r : StoredRoute) :
    routeIsOurs cfg r = true ↔ r.spec.parentRefs = [] ∨ ¬ Unattached g n r := by
  simp only [routeIsOurs, hg, hn, Unattached, Bool.or_eq_true, List.isEmpty_iff, List.any_eq_true, Bool.and_eq_true,
    beq_iff_eq, not_forall, not_not, exists_prop]
  refine or_congr_right (exists_congr fun p => and_congr_right fun _ => and_congr_right fun _ => ?_)
  cases p.ns with
  | none =>
    rw [beq_iff_eq]
    exact eq_comm
  | some theirs =>
    rw [beq_iff_eq]
    exact eq_comm

theorem no_block_of_idle (st : ClusterState) {r : StoredRoute} (hr : Unattached g n r)
    (h : r.spec.parentRefs ≠ [] ∨ Idle r) (t : Tier) (hreach : Reachable t) : tierBlock ht st cfg t r = [] := by
  refine tierBlock_eq_nil fun s hs htier => ?_
  obtain ⟨hours, i, rule, hrule, hs⟩ := mem_routeSpecs.mp hs
  obtain ⟨hne, hostname, hhost, pm, -, rfl⟩ := mem_ruleSpecs.mp hs
  have hempty : r.spec.parentRefs = [] := ((routeIsOurs_iff hg hn r).mp hours).resolve_right fun h => h hr
  rcases h with h | h | h
  · exact h hempty
  · exact hne (h rule (List.mem_of_getElem? hrule))
  · exact h hostname hhost (htier ▸ hreach)

theorem ignored_of_idle (hm : m.Laws) {r : StoredRoute} (hr : Unattached g n r)
    (h : r.spec.parentRefs ≠ [] ∨ Idle r) : Ignored ht m cfg r where
  added st before after _ _ host path := by
    rw [compile_congr (st.addRoute r) st rfl]
    exact rel_lookup_of_no_block hm (no_block_of_idle hg hn st hr h) before after host path
  removed st before after _ _ host path := by
    rw [compile_congr (st.removeRoute r) st rfl]
    have hblock : ∀ t, Reachable t → tierBlock ht st cfg t r = [] := no_block_of_idle hg hn st hr h
    have hrel := rel_lookup_of_no_block hm hblock before after host path
    revert hrel
    generalize (compile ht m st cfg (before ++ r :: after)).lookup host path = x
    generalize (compile ht m st cfg (before ++ after)).lookup host path = y
    rintro (hs | _)
    · exact .some hs.symm
    · exact .none

/-! ## Routes that are not -/

omit hg hn in
theorem exists_covered (pm : Bytes × PathMatch) : ∃ q, q ≠ [] ∧ MatchCovers pm q := by
  unfold MatchCovers
  by_cases h : pm.2 = .exact ∧ ¬ HasShorthand pm.1
  · refine ⟨if pm.1 = [] then [47] else pm.1, ?_, by rw [if_pos h]⟩
    split
    · simp
    · assumption
  · exact ⟨base pm.1 ++ [47], by simp, by rw [if_neg h]; exact Or.inr (List.prefix_refl _)⟩

/-- A route that is alone in the state answers for one of its hostnames. -/
theorem exists_lookup_of_busy (hm : m.Laws) {r : StoredRoute}
    (hb : ∀ rule ∈ r.spec.rules, ∀ pm ∈ ruleMatches rule, NoBrace pm.1) (hrefs : r.spec.parentRefs = [])
    (hbusy : ¬ Idle r) :
    ∃ host path a, (compile ht m (soloState r ∅) cfg [r]).lookup host path = some a := by
  simp only [Idle, not_or, not_forall, not_not, exists_prop] at hbusy
  obtain ⟨⟨rule, hrule, hne⟩, hostname, hhost, host, hreach⟩ := hbusy
  have hvalues : (soloState r ∅).values = [r] := rfl
  have hfree : BraceFree (soloState r ∅) := by
    intro r' hr'
    rw [hvalues, List.mem_singleton] at hr'
    subst hr'
    exact hb
  obtain ⟨pm, hpm⟩ : ∃ pm, pm ∈ ruleMatches rule := by
    unfold ruleMatches
    split
    · exact ⟨_, List.mem_singleton.mpr rfl⟩
    · rename_i hmatches
      obtain ⟨rm, hrm⟩ := List.exists_mem_of_ne_nil rule.routeMatches (by simpa using hmatches)
      exact ⟨_, List.mem_map_of_mem hrm⟩
  obtain ⟨q, hq, hcov⟩ := exists_covered pm
  obtain ⟨i, hi⟩ := List.mem_iff_getElem?.mp hrule
  have hours : routeIsOurs cfg r = true := (routeIsOurs_iff hg hn r).mpr (Or.inl hrefs)
  have hspec : specOf ht (soloState r ∅) r i rule hostname pm ∈ [r].flatMap (routeSpecs ht (soloState r ∅) cfg) :=
    List.mem_flatMap.mpr ⟨r, List.mem_singleton.mpr rfl, mem_routeSpecs.mpr ⟨hours, i, rule, hi,
      mem_ruleSpecs.mpr ⟨hne, hostname, hhost, pm, hpm, rfl⟩⟩⟩
  refine ⟨host, q, ?_⟩
  rw [← Option.ne_none_iff_exists', lookup_eq_findSome, if_neg hq]
  intro hnone
  have hmiss := List.findSome?_eq_none_iff.mp hnone _ hreach
  have hperm : [r].Perm (soloState r ∅).values := by rw [hvalues]
  rcases tierHit_compile_cases hm hfree hperm cfg (tierOf hostname) hq with
    ⟨k, s, -, -, -, hhit⟩ | ⟨-, hno⟩
  · rw [hmiss] at hhit
    cases hhit
  · exact hno _ hspec rfl hcov

/-- **A scoped controller ignores an unattached route exactly if the route has a `parentRefs` entry at all, or serves
nothing**; match paths without braces are needed for `only if`. -/
theorem scoped_ignores_iff (hm : m.Laws) {r : StoredRoute} (hr : Unattached g n r) :
    (r.spec.parentRefs ≠ [] ∨ Idle r → Ignored ht m cfg r) ∧
      ((∀ rule ∈ r.spec.rules, ∀ pm ∈ ruleMatches rule, NoBrace pm.1) →
        (Ignored ht m cfg r ↔ r.spec.parentRefs ≠ [] ∨ Idle r)) := by
  refine ⟨ignored_of_idle hg hn hm hr, fun hb => ⟨fun h => ?_, ignored_of_idle hg hn hm hr⟩⟩
  by_contra hno
  rw [not_or, ne_eq, not_not] at hno
  obtain ⟨host, path, a, ha⟩ : ∃ host path a, (compile ht m (soloState r ∅) cfg [r]).lookup host path = some a :=
    exists_lookup_of_busy hg hn hm hb hno.1 hno.2
  -- without the route there is no answer
  have hrel := h.added ⟨∅, ∅⟩ [] [] (by simp) (List.Perm.refl _) host path
  have hsolo : (⟨∅, ∅⟩ : ClusterState).addRoute r = soloState r ∅ := rfl
  rw [hsolo, List.nil_append, List.nil_append, ha] at hrel
  cases hx : (compile ht m ⟨∅, ∅⟩ cfg []).lookup host path with
  | none =>
    rw [hx] at hrel
    cases hrel
  | some b =>
    obtain ⟨stored, hstored, -⟩ := exists_rule_of_lookup hm hx
    simp at hstored

end Scoped

/-- A controller for the Gateway `lb` in the namespace `infra`. -/
def scopedGateway : ControllerConfig := ⟨some (ascii "lb"), some (ascii "infra")⟩

/-- A route of another team for every host and path, with the given `parentRefs`. -/
def strayRoute (parentRefs : List ParentRef) : StoredRoute where
  ns := ascii "team-a"
  name := ascii "r"
  spec := ⟨parentRefs, [], [⟨[], [⟨ascii "s", none, some 80, none⟩], []⟩]⟩

theorem scoped_ignores_other_gateway :
    Ignored HeaderTypes.reference PathRouter.reference scopedGateway
      (strayRoute [⟨ascii "lb", none⟩, ⟨ascii "other", some (ascii "infra")⟩]) :=
  (scoped_ignores_iff (n := ascii "infra") rfl rfl PathRouter.reference_laws (by unfold Unattached; decide)).1
    (Or.inl (by decide))

/-- A route without `parentRefs` takes traffic. -/
theorem scoped_claims_unattached :
    Unattached (ascii "lb") (ascii "infra") (strayRoute []) ∧
      ¬ Ignored HeaderTypes.reference PathRouter.reference scopedGateway (strayRoute []) := by
  refine ⟨by unfold Unattached; decide, fun h => ?_⟩
  have hrel := h.added ⟨∅, ∅⟩ [] [] (by simp) (List.Perm.refl _) none (ascii "/")
  have hnone : (compile HeaderTypes.reference PathRouter.reference ⟨∅, ∅⟩ scopedGateway []).lookup none (ascii "/") =
      none := by decide +kernel
  have hsome : ((compile HeaderTypes.reference PathRouter.reference ((⟨∅, ∅⟩ : ClusterState).addRoute (strayRoute []))
      scopedGateway [strayRoute []]).lookup none (ascii "/")).isSome = true := by decide +kernel
  rw [List.nil_append, List.nil_append, hnone] at hrel
  obtain ⟨a, ha⟩ := Option.isSome_iff_exists.mp hsome
  rw [ha] at hrel
  cases hrel

end LbProxy.Core
