import LbProxy.Core.Fairness
import LbProxy.Core.Soundness
import Mathlib.Order.Interval.Finset.Nat

/-!
# Which backends the traffic of a rule goes to

`compile` gives every endpoint of a backend the weight of the backend, and checks for an empty endpoint list
before the drained endpoints are dropped.

* `select_configured_iff` — a compiled rule sends traffic to its live backends only, exactly if it has one;
* `splits_by_weight_iff` — the backends of a rule share the traffic as their weights say, exactly if those
  that receive any have equally many endpoints.
-/

namespace LbProxy.Core

open Lib RouteTableBuilder ClusterState TargetGroup

/-! ## The endpoints of a rule -/

/-- The weight of a backend: `1` if it has none, clamped to what the Gateway API allows. -/
def backendWeight (b : BackendRef) : ℕ := (max 0 (min (b.weight.getD 1) 1000000)).toNat

theorem backendWeight_pos {b : BackendRef} : 0 < backendWeight b ↔ 0 < b.weight.getD 1 := by
  unfold backendWeight
  omega

theorem weight_of_mem_resolve {st : ClusterState} {ns : Bytes} {b : BackendRef} {e : BackendEndpoint}
    (h : e ∈ st.resolve ns b) : e.weight = backendWeight b := by
  simp only [resolve] at h
  split at h
  · split at h
    · obtain ⟨r, -, rfl⟩ := List.mem_map.mp h
      rfl
    · rw [List.mem_singleton.mp h]
      rfl
  · rw [List.mem_singleton.mp h]
    rfl

theorem mem_ruleEndpoints {st : ClusterState} {ns : Bytes} {rule : HttpRouteRule} {e : BackendEndpoint} :
    e ∈ ruleEndpoints st ns rule ↔ ∃ b ∈ rule.backendRefs, e ∈ st.resolve ns b := List.mem_flatMap

theorem live_ruleEndpoints_ne_nil {st : ClusterState} {ns : Bytes} {rule : HttpRouteRule} :
    live (ruleEndpoints st ns rule) ≠ [] ↔ ∃ b ∈ rule.backendRefs, 0 < b.weight.getD 1 := by
  constructor
  · intro h
    obtain ⟨e, he⟩ := List.exists_mem_of_ne_nil _ h
    obtain ⟨he, hw⟩ := List.mem_filter.mp he
    obtain ⟨b, hb, he⟩ := mem_ruleEndpoints.mp he
    refine ⟨b, hb, backendWeight_pos.mp ?_⟩
    rw [← weight_of_mem_resolve he]
    simpa using hw
  · rintro ⟨b, hb, hw⟩
    obtain ⟨e, he⟩ := List.exists_mem_of_ne_nil _ (resolve_ne_nil st ns b)
    refine List.ne_nil_of_mem (List.mem_filter.mpr ⟨mem_ruleEndpoints.mpr ⟨b, hb, he⟩, ?_⟩)
    rw [weight_of_mem_resolve he]
    simpa using backendWeight_pos.mpr hw

/-! ## Traffic goes to configured backends -/

/-- The address comes from a backend of the rule with positive weight. -/
def Configured (st : ClusterState) (ns : Bytes) (rule : HttpRouteRule) (address : Bytes) : Prop :=
  ∃ b ∈ rule.backendRefs, 0 < b.weight.getD 1 ∧ ∃ e ∈ st.resolve ns b, e.address = address

theorem mem_live_of_select {endpoints : List BackendEndpoint} {cursor ticket : ℕ} {e : BackendEndpoint}
    (hne : live endpoints ≠ []) (h : (fromEndpoints cursor endpoints).select ticket = some e) :
    e ∈ live endpoints := by
  rw [select_eq, endpoints_fromEndpoints cursor hne] at h
  obtain ⟨slot, -, hslot⟩ := Option.bind_eq_some_iff.mp h
  exact List.mem_of_getElem? hslot

theorem select_of_live_eq_nil {endpoints : List BackendEndpoint} (hnil : live endpoints = [])
    (cursor ticket : ℕ) :
    (fromEndpoints cursor endpoints).select ticket = some ⟨ascii "127.0.0.1:80", 1⟩ := by
  have hpolicy : policyOf endpoints = .single ⟨ascii "127.0.0.1:80", 1⟩ := by
    unfold policyOf
    have hlive : endpoints.filter (·.weight > 0) = live endpoints := rfl
    rw [hlive, hnil]
  simp only [fromEndpoints, select, hpolicy]

theorem configured_iff {st : ClusterState} {ns : Bytes} {rule : HttpRouteRule} (cursor : ℕ) :
    (∀ ticket e, (fromEndpoints cursor (ruleEndpoints st ns rule)).select ticket = some e →
      Configured st ns rule e.address) ↔ ∃ b ∈ rule.backendRefs, 0 < b.weight.getD 1 := by
  constructor
  · intro h
    by_contra hno
    have hnil : live (ruleEndpoints st ns rule) = [] := by
      by_contra hne
      exact hno (live_ruleEndpoints_ne_nil.mp hne)
    obtain ⟨b, hb, hw, -⟩ := h 0 _ (select_of_live_eq_nil hnil cursor 0)
    exact hno ⟨b, hb, hw⟩
  · intro hlive ticket e hsel
    obtain ⟨he, hw⟩ := List.mem_filter.mp (mem_live_of_select (live_ruleEndpoints_ne_nil.mpr hlive) hsel)
    obtain ⟨b, hb, he⟩ := mem_ruleEndpoints.mp he
    refine ⟨b, hb, backendWeight_pos.mp ?_, e, he, rfl⟩
    rw [← weight_of_mem_resolve he]
    simpa using hw

section Lookup

variable {ht : HeaderTypes} {m : PathRouter} (hm : m.Laws)
include hm

/-- **Traffic goes to configured backends exactly if the rule has a live one.**  An answer of the compiled
table belongs to a rule of an accepted route, and whatever its group can select was resolved from a backend
of that rule with positive weight, if and only if the rule has such a backend. -/
theorem select_configured_iff (st : ClusterState) (cfg : ControllerConfig) (order : List StoredRoute)
    (horder : order.Perm st.values) (host : Option Bytes) (path : Bytes) (a : RouteAction)
    (h : (ClusterState.compile ht m st cfg order).lookup host path = some a) :
    ∃ stored ∈ st.values, routeIsOurs cfg stored = true ∧ ∃ i rule, stored.spec.rules[i]? = some rule ∧
      a.routeName = ruleName stored i ∧
      ((∀ ticket e, a.targetGroup.select ticket = some e → Configured st stored.ns rule e.address) ↔
        ∃ b ∈ rule.backendRefs, 0 < b.weight.getD 1) := by
  obtain ⟨stored, hstored, hours, i, rule, hrule, -, hostname, -, pm, -, k, rfl⟩ := exists_rule_of_lookup hm h
  exact ⟨stored, horder.mem_iff.mp hstored, hours, i, rule, hrule, rfl, configured_iff k⟩

end Lookup

/-- A route `default/a` for every path, to the given backends. -/
def backendRoute (refs : List BackendRef) : StoredRoute where
  ns := ascii "default"
  name := ascii "a"
  spec := { parentRefs := [], hostnames := [], rules := [⟨[], refs, []⟩] }

/-- The compiled table of a state with one such route. -/
def backendTable (refs : List BackendRef) (endpoints : AList fun _ : ServiceKey => List ReadyEndpoint) :
    RouteTable PathRouter.reference :=
  ClusterState.compile HeaderTypes.reference PathRouter.reference (soloState (backendRoute refs) endpoints)
    anyGateway [backendRoute refs]

/-- A backend `name` on port 80. -/
def backendRef (name : String) (weight : Option ℤ) : BackendRef := ⟨ascii name, none, some 80, weight⟩

theorem select_configured_one_live :
    ∃ a, (backendTable [backendRef "x" (some 0), backendRef "y" none] ∅).lookup none (ascii "/") = some a ∧
      ∀ ticket e, a.targetGroup.select ticket = some e →
        Configured (soloState (backendRoute [backendRef "x" (some 0), backendRef "y" none]) ∅) (ascii "default")
          ⟨[], [backendRef "x" (some 0), backendRef "y" none], []⟩ e.address := by
  cases h : (backendTable [backendRef "x" (some 0), backendRef "y" none] ∅).lookup none (ascii "/") with
  | none => exact absurd h (by decide +kernel)
  | some a =>
    obtain ⟨stored, hstored, -, i, rule, hrule, -, hiff⟩ := select_configured_iff PathRouter.reference_laws _
      anyGateway _ (List.Perm.refl _) none (ascii "/") a h
    obtain rfl : stored = backendRoute [backendRef "x" (some 0), backendRef "y" none] := by
      simpa [soloState, ClusterState.values] using hstored
    obtain ⟨rfl, rfl⟩ : i = 0 ∧ ⟨[], [backendRef "x" (some 0), backendRef "y" none], []⟩ = rule := by
      cases i with
      | zero => exact ⟨rfl, Option.some.inj hrule⟩
      | succ i => cases hrule
    exact ⟨a, rfl, hiff.mpr ⟨backendRef "y" none, by decide, by decide⟩⟩

/-- A rule whose only backend is drained sends its traffic to a placeholder. -/
theorem drained_rule_selects_placeholder :
    ∃ a e, (backendTable [backendRef "x" (some 0)] ∅).lookup none (ascii "/") = some a ∧
      a.targetGroup.select 0 = some e ∧
      ¬ Configured (soloState (backendRoute [backendRef "x" (some 0)]) ∅) (ascii "default")
        ⟨[], [backendRef "x" (some 0)], []⟩ e.address := by
  cases h : (backendTable [backendRef "x" (some 0)] ∅).lookup none (ascii "/") with
  | none => exact absurd h (by decide +kernel)
  | some a =>
    have hsel : ((backendTable [backendRef "x" (some 0)] ∅).lookup none (ascii "/")).bind
        (·.targetGroup.select 0) = some ⟨ascii "127.0.0.1:80", 1⟩ := by decide +kernel
    rw [h] at hsel
    refine ⟨a, _, rfl, hsel, ?_⟩
    rintro ⟨b, hb, hw, -⟩
    rw [List.mem_singleton.mp hb] at hw
    exact absurd hw (by decide)

/-! ## The split between backends -/

/-- The positions of the endpoints of the backend `b` that follows the backends `before`. -/
def blockOf (st : ClusterState) (ns : Bytes) (before : List BackendRef) (b : BackendRef) : Finset ℕ :=
  Finset.Ico (before.flatMap (st.resolve ns)).length
    ((before.flatMap (st.resolve ns)).length + (st.resolve ns b).length)

/-- How many of the `n` tickets from `start` on select an endpoint of the backend `b`. -/
def hits (st : ClusterState) (ns : Bytes) (rule : HttpRouteRule) (before : List BackendRef) (b : BackendRef)
    (start n : ℕ) : ℕ :=
  (List.range' start n).countP fun ticket =>
    decide (∃ i ∈ blockOf st ns before b, position (ruleEndpoints st ns rule) ticket = some i)

/-- In every full cycle of the group each backend receives its weight's share of the selections. -/
def SplitsByWeight (st : ClusterState) (ns : Bytes) (rule : HttpRouteRule) (g : TargetGroup) : Prop :=
  ∀ start before b after, rule.backendRefs = before ++ b :: after →
    hits st ns rule before b start g.cycle.length * (rule.backendRefs.map backendWeight).sum =
      backendWeight b * g.cycle.length

theorem sum_ruleEndpoints (st : ClusterState) (ns : Bytes) (rule : HttpRouteRule) :
    ((ruleEndpoints st ns rule).map (·.weight)).sum =
      (rule.backendRefs.map fun b => backendWeight b * (st.resolve ns b).length).sum := by
  unfold ruleEndpoints
  induction rule.backendRefs with
  | nil => rfl
  | cons b l ih =>
    have hconst : (st.resolve ns b).map (·.weight) = (st.resolve ns b).map fun _ => backendWeight b :=
      List.map_congr_left fun e he => weight_of_mem_resolve he
    rw [List.flatMap_cons, List.map_append, List.sum_append, ih, List.map_cons, List.sum_cons, hconst,
      List.map_const', List.sum_replicate_nat, mul_comm]

theorem getElem_of_mem_blockOf {st : ClusterState} {ns : Bytes} {rule : HttpRouteRule}
    {before after : List BackendRef} {b : BackendRef} (hsplit : rule.backendRefs = before ++ b :: after) {i : ℕ}
    (hi : i ∈ blockOf st ns before b) :
    ∃ e, (ruleEndpoints st ns rule)[i]? = some e ∧ e.weight = backendWeight b := by
  obtain ⟨hle, hlt⟩ := Finset.mem_Ico.mp hi
  have hin : i - (before.flatMap (st.resolve ns)).length < (st.resolve ns b).length := by omega
  refine ⟨(st.resolve ns b)[i - (before.flatMap (st.resolve ns)).length], ?_,
    weight_of_mem_resolve (List.getElem_mem hin)⟩
  rw [ruleEndpoints, hsplit, List.flatMap_append, List.flatMap_cons, List.getElem?_append_right hle,
    List.getElem?_append_left hin, List.getElem?_eq_getElem hin]

/-- A share `hits` of a cycle, which is hit `w * n` times over `k` cycles, with the number of cycles cleared. -/
theorem share_iff {k hits w n length total weights : ℕ} (hk : 0 < k) (hhits : k * hits = w * n)
    (hlen : length * k = total) : hits * weights = w * length ↔ w * n * weights = w * total := by
  rw [← hhits, ← hlen, ← Nat.mul_right_inj (Nat.pos_iff_ne_zero.mp hk)]
  constructor
  · intro h
    calc k * hits * weights
        = k * (hits * weights) := by ring
      _ = k * (w * length) := h
      _ = w * (length * k) := by ring
  · intro h
    calc k * (hits * weights)
        = k * hits * weights := by ring
      _ = w * (length * k) := h
      _ = k * (w * length) := by ring

section Split

variable {st : ClusterState} {ns : Bytes} {rule : HttpRouteRule}
  (hlive : ∃ b ∈ rule.backendRefs, 0 < b.weight.getD 1)
  (hcap : ((ruleEndpoints st ns rule).map (·.weight)).sum ≤ MAX_WEIGHT_TABLE)
include hlive hcap

omit hcap in
theorem exists_live_endpoint : ∃ e ∈ ruleEndpoints st ns rule, 0 < e.weight := by
  obtain ⟨e, he⟩ := List.exists_mem_of_ne_nil _ (live_ruleEndpoints_ne_nil.mpr hlive)
  obtain ⟨he, hw⟩ := List.mem_filter.mp he
  exact ⟨e, he, by simpa using hw⟩

theorem turns_mul_hits : ∃ k, 0 < k ∧
    (fromEndpoints 0 (ruleEndpoints st ns rule)).cycle.length * k =
      (rule.backendRefs.map fun b => backendWeight b * (st.resolve ns b).length).sum ∧
    ∀ start before b after, rule.backendRefs = before ++ b :: after →
      k * hits st ns rule before b start (fromEndpoints 0 (ruleEndpoints st ns rule)).cycle.length =
        backendWeight b * (st.resolve ns b).length := by
  obtain ⟨k, hk, hlen, hturns⟩ := exists_turns (exists_live_endpoint hlive) hcap
  rw [sum_ruleEndpoints] at hlen
  refine ⟨k, hk, hlen, fun start before b after hsplit => ?_⟩
  have hterm : ∀ i ∈ blockOf st ns before b, k * countIn (position (ruleEndpoints st ns rule)) start
      (fromEndpoints 0 (ruleEndpoints st ns rule)).cycle.length (some i) = backendWeight b := by
    intro i hi
    obtain ⟨e, he, hw⟩ := getElem_of_mem_blockOf hsplit hi
    obtain ⟨c, hc, hcount⟩ := hturns i e he
    have hone := hcount start 1
    rw [mul_one, one_mul] at hone
    rw [hone, hc, hw]
  rw [hits, countP_mem_eq_sum, Finset.mul_sum, Finset.sum_congr rfl hterm, Finset.sum_const, nsmul_eq_mul,
    Nat.cast_id, blockOf, Nat.card_Ico, mul_comm]
  congr 1
  omega

omit hcap in
theorem sum_backendWeight_pos : 0 < (rule.backendRefs.map backendWeight).sum := by
  obtain ⟨b, hb, hw⟩ := hlive
  have hle := List.single_le_sum (l := rule.backendRefs.map backendWeight) (by simp) (backendWeight b)
    (List.mem_map.mpr ⟨b, hb, rfl⟩)
  have hpos := backendWeight_pos.mpr hw
  omega

/-- The weights split the traffic exactly if all backends that receive any have equally many endpoints. -/
theorem splits_iff (cursor : ℕ) :
    SplitsByWeight st ns rule (fromEndpoints cursor (ruleEndpoints st ns rule)) ↔
      ∀ b ∈ rule.backendRefs, ∀ b' ∈ rule.backendRefs, 0 < b.weight.getD 1 → 0 < b'.weight.getD 1 →
        (st.resolve ns b).length = (st.resolve ns b').length := by
  obtain ⟨k, hk, hlen, hhits⟩ := turns_mul_hits hlive hcap
  have hcycle : (fromEndpoints cursor (ruleEndpoints st ns rule)).cycle =
      (fromEndpoints 0 (ruleEndpoints st ns rule)).cycle := rfl
  generalize hL : (fromEndpoints 0 (ruleEndpoints st ns rule)).cycle.length = L at hlen hhits
  have hshare : ∀ start before b after, rule.backendRefs = before ++ b :: after →
      (hits st ns rule before b start L * (rule.backendRefs.map backendWeight).sum = backendWeight b * L ↔
        backendWeight b * (st.resolve ns b).length * (rule.backendRefs.map backendWeight).sum =
          backendWeight b *
            (rule.backendRefs.map fun b => backendWeight b * (st.resolve ns b).length).sum) :=
    fun start before b after hsplit => share_iff hk (hhits start before b after hsplit) hlen
  unfold SplitsByWeight
  rw [hcycle, hL]
  constructor
  · intro h b hb b' hb' hw hw'
    have hmul : ∀ b ∈ rule.backendRefs, 0 < b.weight.getD 1 →
        (st.resolve ns b).length * (rule.backendRefs.map backendWeight).sum =
          (rule.backendRefs.map fun b => backendWeight b * (st.resolve ns b).length).sum := by
      intro b hb hw
      obtain ⟨before, after, hsplit⟩ := List.append_of_mem hb
      have hb := (hshare 0 before b after hsplit).mp (h 0 before b after hsplit)
      rw [mul_assoc] at hb
      exact Nat.eq_of_mul_eq_mul_left (backendWeight_pos.mpr hw) hb
    exact Nat.eq_of_mul_eq_mul_right (sum_backendWeight_pos hlive) ((hmul b hb hw).trans (hmul b' hb' hw').symm)
  · intro h start before b after hsplit
    rw [hshare start before b after hsplit]
    rcases Nat.eq_zero_or_pos (backendWeight b) with hzero | hpos
    · rw [hzero, zero_mul, zero_mul, zero_mul]
    · -- every live backend has as many endpoints as this one
      have hb : b ∈ rule.backendRefs := by rw [hsplit]; simp
      have hterm : (rule.backendRefs.map fun b => backendWeight b * (st.resolve ns b).length) =
          rule.backendRefs.map fun b' => backendWeight b' * (st.resolve ns b).length := by
        refine List.map_congr_left fun b' hb' => ?_
        rcases Nat.eq_zero_or_pos (backendWeight b') with hz | hp
        · rw [hz, zero_mul, zero_mul]
        · rw [h b' hb' b hb (backendWeight_pos.mp hp) (backendWeight_pos.mp hpos)]
      rw [hterm, List.sum_map_mul_right]
      ring

end Split

/-- **Weights split the traffic exactly if the live backends have equally many endpoints.**  The group of a
compiled rule with a live backend, whose weights need no scaling, selects the endpoint at the position of the
ticket, and gives each backend its weight's share of every cycle if and only if all its backends of positive
weight resolve to the same number of endpoints. -/
theorem splits_by_weight_iff {ht : HeaderTypes} (st : ClusterState) (stored : StoredRoute) (i : ℕ)
    (rule : HttpRouteRule) (hlive : ∃ b ∈ rule.backendRefs, 0 < b.weight.getD 1)
    (hcap : (rule.backendRefs.map fun b => backendWeight b * (st.resolve stored.ns b).length).sum ≤
      MAX_WEIGHT_TABLE) (s : RouteSpec) (hs : s ∈ ruleSpecs ht st stored (rule, i)) (k : ℕ) :
    (∀ ticket, ∃ j e, position (ruleEndpoints st stored.ns rule) ticket = some j ∧
      (ruleEndpoints st stored.ns rule)[j]? = some e ∧ (actionOf k s).targetGroup.select ticket = some e) ∧
    (SplitsByWeight st stored.ns rule (actionOf k s).targetGroup ↔
      ∀ b ∈ rule.backendRefs, ∀ b' ∈ rule.backendRefs, 0 < b.weight.getD 1 → 0 < b'.weight.getD 1 →
        (st.resolve stored.ns b).length = (st.resolve stored.ns b').length) := by
  obtain ⟨-, hostname, -, pm, -, rfl⟩ := mem_ruleSpecs.mp hs
  rw [← sum_ruleEndpoints] at hcap
  refine ⟨fun ticket => ?_, splits_iff hlive hcap k⟩
  obtain ⟨j, e, hj, he, -, hsel⟩ := select_position (exists_live_endpoint hlive) hcap k ticket
  exact ⟨j, e, hj, he, hsel⟩

/-- Two pods of the Service `x` and one of `y`, on port 80. -/
def threePods : AList fun _ : ServiceKey => List ReadyEndpoint :=
  (∅ : AList fun _ : ServiceKey => List ReadyEndpoint).insert (ascii "default", ascii "x")
      [⟨ascii "10.0.0.1", 80⟩, ⟨ascii "10.0.0.2", 80⟩]
    |>.insert (ascii "default", ascii "y") [⟨ascii "10.0.1.1", 80⟩]

/-- One pod for each backend: the weights `3` and `1` split the traffic. -/
theorem splits_by_weight_one_pod_each :
    SplitsByWeight (soloState (backendRoute [backendRef "x" (some 3), backendRef "y" (some 1)]) ∅)
      (ascii "default") ⟨[], [backendRef "x" (some 3), backendRef "y" (some 1)], []⟩
      (actionOf 0 (specOf HeaderTypes.reference
        (soloState (backendRoute [backendRef "x" (some 3), backendRef "y" (some 1)]) ∅)
        (backendRoute [backendRef "x" (some 3), backendRef "y" (some 1)]) 0
        ⟨[], [backendRef "x" (some 3), backendRef "y" (some 1)], []⟩ none (ascii "/", .pathPrefix))).targetGroup := by
  refine (splits_by_weight_iff _ (backendRoute _) 0 _ ⟨backendRef "x" (some 3), by decide, by decide⟩
    (by decide) _ (mem_ruleSpecs.mpr ⟨by decide, none, by decide, (ascii "/", .pathPrefix), by decide, rfl⟩)
    0).2.mpr ?_
  decide

/-- Equal weights for a backend with two pods and one with a single pod: the first receives two thirds. -/
theorem pods_multiply_the_weight :
    ∃ a, (backendTable [backendRef "x" (some 1), backendRef "y" (some 1)] threePods).lookup none (ascii "/") =
        some a ∧
      ¬ SplitsByWeight (soloState (backendRoute [backendRef "x" (some 1), backendRef "y" (some 1)]) threePods)
        (ascii "default") ⟨[], [backendRef "x" (some 1), backendRef "y" (some 1)], []⟩ a.targetGroup := by
  cases h : (backendTable [backendRef "x" (some 1), backendRef "y" (some 1)] threePods).lookup none (ascii "/") with
  | none => exact absurd h (by decide +kernel)
  | some a =>
    refine ⟨a, rfl, fun hsplit => ?_⟩
    have hx := hsplit 0 [] (backendRef "x" (some 1)) [backendRef "y" (some 1)] rfl
    have hcycle : ((backendTable [backendRef "x" (some 1), backendRef "y" (some 1)] threePods).lookup none
        (ascii "/")).map (·.targetGroup.cycle.length) = some 3 := by decide +kernel
    rw [h, Option.map_some, Option.some.injEq] at hcycle
    rw [hcycle] at hx
    exact absurd hx (by decide +kernel)

end LbProxy.Core
