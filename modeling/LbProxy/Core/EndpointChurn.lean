import LbProxy.Core.Backends
import LbProxy.Core.Reconcile
import Mathlib.Data.List.Forall2

/-!
# What the endpoints of a state decide, and what they do not

* `rel_lookup_buildAll` — tables built from related specs give related answers, if the relation keeps hostname and path;
* `endpoint_churn` — with other endpoints every request is answered by the same rule with the same filters, and by the
  same action unless one of the Services of the rule has changed.
-/

namespace LbProxy.Core

open Lib RouteTableBuilder ClusterState

/-! ## Related specs -/

/-- The actions of two related specs at the same position. -/
def ActionRel (P : RouteSpec → RouteSpec → Prop) (a a' : RouteAction) : Prop :=
  ∃ k s s', P s s' ∧ a = actionOf k s ∧ a' = actionOf k s'

/-- The relation keeps what a spec is filed under. -/
def KeepsPattern (P : RouteSpec → RouteSpec → Prop) : Prop :=
  ∀ {s s'}, P s s' → s.hostname = s'.hostname ∧ s.path = s'.path ∧ s.pathMatch = s'.pathMatch

theorem forall₂_zipIdx {α β : Type} {R : α → β → Prop} {l : List α} {l' : List β} (h : List.Forall₂ R l l') (n : ℕ) :
    List.Forall₂ (fun x y => R x.1 y.1 ∧ x.2 = y.2) (l.zipIdx n) (l'.zipIdx n) := by
  induction h generalizing n with
  | nil => exact .nil
  | cons h _ ih => exact .cons ⟨h, rfl⟩ (ih (n + 1))

theorem forall₂_flatMap {α β γ : Type} {R : β → γ → Prop} {l : List α} {f : α → List β} {g : α → List γ}
    (h : ∀ a ∈ l, List.Forall₂ R (f a) (g a)) : List.Forall₂ R (l.flatMap f) (l.flatMap g) := by
  have hself : List.Forall₂ (fun a b => a = b ∧ a ∈ l) l l := List.forall₂_same.mpr fun a ha => ⟨rfl, ha⟩
  refine List.rel_flatMap hself ?_
  rintro a _ ⟨rfl, ha⟩
  exact h a ha

theorem forall₂_tierSpecs {P : RouteSpec → RouteSpec → Prop} (hP : KeepsPattern P) {specs specs' : List RouteSpec}
    (h : List.Forall₂ P specs specs') (t : Tier) :
    List.Forall₂ (PathRouter.SameEntry (ActionRel P)) ((tierSpecs specs t).flatMap entriesOf)
      ((tierSpecs specs' t).flatMap entriesOf) := by
  have htier : List.Forall₂ (fun x y : RouteSpec × ℕ => P x.1 y.1 ∧ x.2 = y.2) (tierSpecs specs t)
      (tierSpecs specs' t) := by
    refine List.rel_filter ?_ (forall₂_zipIdx h 0)
    rintro x y ⟨hxy, -⟩
    simp only [(hP hxy).1]
  refine List.rel_flatMap htier ?_
  rintro x y ⟨hspec, hat⟩
  rw [entriesOf, entriesOf, (hP hspec).2.1, (hP hspec).2.2, List.forall₂_map_left_iff, List.forall₂_map_right_iff,
    List.forall₂_same]
  exact fun p _ => ⟨rfl, x.2, x.1, y.1, hspec, rfl, by rw [hat]⟩

/-- **Tables built from related specs give related answers.** -/
theorem rel_lookup_buildAll {m : PathRouter} (hm : m.Laws) {P : RouteSpec → RouteSpec → Prop} (hP : KeepsPattern P)
    {specs specs' : List RouteSpec} (h : List.Forall₂ P specs specs') (host : Option Bytes) (path : Bytes) :
    Option.Rel (ActionRel P) ((buildAll m specs).lookup host path) ((buildAll m specs').lookup host path) := by
  rw [lookup_eq_findSome, lookup_eq_findSome]
  refine rel_findSome fun t _ => ?_
  rw [tierHit_buildAll hm, tierHit_buildAll hm]
  exact PathRouter.rel_matchAt hm (forall₂_tierSpecs hP h t) _

/-! ## Specs of the same routes -/

section Churn

variable (ht : HeaderTypes) {m : PathRouter} (hm : m.Laws) (st st' : ClusterState) (cfg : ControllerConfig)

/-- The specs of one rule for the same hostname and match. -/
def SameRule (order : List StoredRoute) (s s' : RouteSpec) : Prop :=
  ∃ stored ∈ order, ∃ (i : ℕ) (rule : HttpRouteRule) (hostname : Option Bytes) (pm : Bytes × PathMatch),
    stored.spec.rules[i]? = some rule ∧ s = specOf ht st stored i rule hostname pm ∧
      s' = specOf ht st' stored i rule hostname pm

theorem keepsPattern_sameRule (order : List StoredRoute) : KeepsPattern (SameRule ht st st' order) := by
  rintro s s' ⟨stored, -, i, rule, hostname, pm, -, rfl, rfl⟩
  exact ⟨rfl, rfl, rfl⟩

theorem forall₂_routeSpecs (order : List StoredRoute) :
    List.Forall₂ (SameRule ht st st' order) (order.flatMap (routeSpecs ht st cfg))
      (order.flatMap (routeSpecs ht st' cfg)) := by
  refine forall₂_flatMap fun stored hstored => ?_
  unfold routeSpecs
  split
  · refine forall₂_flatMap fun x hx => ?_
    have hrule : stored.spec.rules[x.2]? = some x.1 := List.mem_zipIdx_iff_getElem?.mp hx
    have hempty : ∀ c : ClusterState, (x.1.backendRefs.flatMap (c.resolve stored.ns)).isEmpty = true ↔
        x.1.backendRefs = [] := by
      intro c
      rw [List.isEmpty_iff]
      exact ruleEndpoints_eq_nil
    unfold ruleSpecs
    by_cases hnone : x.1.backendRefs = []
    · rw [if_pos ((hempty st).mpr hnone), if_pos ((hempty st').mpr hnone)]
      exact .nil
    · rw [if_neg fun h => hnone ((hempty st).mp h), if_neg fun h => hnone ((hempty st').mp h)]
      refine forall₂_flatMap fun hostname _ => ?_
      rw [List.forall₂_map_left_iff, List.forall₂_map_right_iff, List.forall₂_same]
      exact fun pm _ => ⟨stored, hstored, x.2, x.1, hostname, pm, hrule, rfl, rfl⟩
  · exact .nil

/-- The Service that a backend refers to, in a rule of a route in the namespace `ns`. -/
def BackendRef.serviceKey (b : BackendRef) (ns : Bytes) : ServiceKey := (b.ns.getD ns, b.name)

theorem ruleEndpoints_congr {ns : Bytes} {rule : HttpRouteRule}
    (h : ∀ b ∈ rule.backendRefs, st.endpoints.lookup (b.serviceKey ns) = st'.endpoints.lookup (b.serviceKey ns)) :
    ruleEndpoints st ns rule = ruleEndpoints st' ns rule := by
  unfold ruleEndpoints
  refine List.flatMap_congr fun b hb => ?_
  have hone : st.endpoints.lookup (b.ns.getD ns, b.name) = st'.endpoints.lookup (b.ns.getD ns, b.name) := h b hb
  simp only [resolve, hone]

include hm

/-- **Endpoints never decide which route serves a request.**  Of two states with the same routes, whatever their
endpoints are, both answer a request by the same rule with the same filters, or neither answers; and the whole action
is the same if the Services of that rule have the same endpoints. -/
theorem endpoint_churn (order : List StoredRoute) (host : Option Bytes) (path : Bytes) :
    Option.Rel (fun a a' => a.routeName = a'.routeName ∧ a.filters = a'.filters ∧
        ∃ stored ∈ order, ∃ (i : ℕ) (rule : HttpRouteRule), stored.spec.rules[i]? = some rule ∧
          a.routeName = ruleName stored i ∧
          ((∀ b ∈ rule.backendRefs,
            st.endpoints.lookup (b.serviceKey stored.ns) = st'.endpoints.lookup (b.serviceKey stored.ns)) → a = a'))
      ((st.compile ht m cfg order).lookup host path) ((st'.compile ht m cfg order).lookup host path) := by
  have hrel := rel_lookup_buildAll hm (keepsPattern_sameRule ht st st' order) (forall₂_routeSpecs ht st st' cfg order)
    host path
  rw [ClusterState.compile, ClusterState.compile]
  generalize (buildAll m (order.flatMap (routeSpecs ht st cfg))).lookup host path = x at hrel
  generalize (buildAll m (order.flatMap (routeSpecs ht st' cfg))).lookup host path = y at hrel
  cases hrel with
  | none => exact .none
  | some ha =>
    obtain ⟨k, s, s', ⟨stored, hstored, i, rule, hostname, pm, hrule, rfl, rfl⟩, rfl, rfl⟩ := ha
    refine .some ⟨rfl, rfl, stored, hstored, i, rule, hrule, rfl, fun hsame => ?_⟩
    have heps := ruleEndpoints_congr st st' hsame
    simp only [actionOf, specOf, heps]

end Churn

/-- The Services of the rule have pods, and then they have none. -/
theorem endpoint_churn_three_pods :
    ∃ a a', (backendTable [backendRef "x" none, backendRef "y" none] threePods).lookup none (ascii "/a") = some a ∧
      (backendTable [backendRef "x" none, backendRef "y" none] ∅).lookup none (ascii "/a") = some a' ∧
      a.routeName = a'.routeName ∧ a.filters = a'.filters := by
  have hrel := endpoint_churn HeaderTypes.reference PathRouter.reference_laws
    (soloState (backendRoute [backendRef "x" none, backendRef "y" none]) threePods)
    (soloState (backendRoute [backendRef "x" none, backendRef "y" none]) ∅) anyGateway
    [backendRoute [backendRef "x" none, backendRef "y" none]] none (ascii "/a")
  change Option.Rel _ ((backendTable [backendRef "x" none, backendRef "y" none] threePods).lookup none (ascii "/a"))
    ((backendTable [backendRef "x" none, backendRef "y" none] ∅).lookup none (ascii "/a")) at hrel
  have hsome : ((backendTable [backendRef "x" none, backendRef "y" none] threePods).lookup none
      (ascii "/a")).isSome = true := by decide +kernel
  obtain ⟨a, ha⟩ := Option.isSome_iff_exists.mp hsome
  rw [ha] at hrel
  generalize hb : (backendTable [backendRef "x" none, backendRef "y" none] ∅).lookup none (ascii "/a") = b at hrel
  cases hrel with
  | some h => exact ⟨a, _, ha, rfl, h.1, h.2.1⟩

end LbProxy.Core
