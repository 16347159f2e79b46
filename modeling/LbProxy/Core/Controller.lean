import LbProxy.Core.Soundness
import Mathlib.Tactic.Common

/-!
# The controller: two watch tasks and the rebuild task

* `Controller`, `Action`, `step`, `run` — the shared state with the `Notify` permit, where each task
  stands, and the atomic steps of the three tasks, in any interleaving;
* `AwaitsRoute`, `AwaitsServices` — no table is compiled while an object that a re-list cleared is still missing;
* `relist_publishes` — under that condition a re-list never un-publishes a surviving route.
-/

namespace LbProxy.Core

open Lib

/-- Where the rebuild task stands. -/
inductive Rebuild (m : PathRouter) where
  /-- Waiting for the permit. -/
  | waiting
  /-- In the debounce sleep. -/
  | debouncing
  /-- A table is compiled, and not published yet. -/
  | compiled (table : RouteTable m)

/-- The controller: the shared state, the `Notify` permit, and where the tasks stand. -/
structure Controller (m : PathRouter) where
  cluster : ClusterState
  permit : Bool
  /-- The HTTPRoute task has written an event and not called `notify_one` yet. -/
  routePending : Bool
  /-- The EndpointSlice task has written an event and not called `notify_one` yet. -/
  slicePending : Bool
  rebuild : Rebuild m
  published : RouteTable m

/-- An atomic step of one of the tasks. -/
inductive Action where
  /-- The HTTPRoute task receives an event and writes it to the state. -/
  | routeEvent (e : WatchEvent RouteObject)
  | routeNotify
  /-- The EndpointSlice task receives an event and writes it to the state. -/
  | sliceEvent (e : WatchEvent EndpointSlice)
  | sliceNotify
  /-- The rebuild task takes the permit. -/
  | wake
  /-- The rebuild task compiles the state under the read lock, visiting the routes in some order. -/
  | compile (order : List StoredRoute)
  /-- The rebuild task publishes the table. -/
  | store

section Controller

variable (ht : HeaderTypes) (m : PathRouter) (cfg : ControllerConfig)

/-- The controller when it starts, next to a table that is published already. -/
def Controller.start (seed : RouteTable m) : Controller m := ⟨⟨∅, ∅⟩, false, false, false, .waiting, seed⟩

/-- One step; `none` if the action is not enabled. -/
def step (s : Controller m) : Action → Option (Controller m)
  | .routeEvent e =>
    if s.routePending then none
    else
      let (cluster, notify) := watchHttproutes s.cluster e
      some { s with cluster := cluster, routePending := notify }
  | .routeNotify => if s.routePending then some { s with permit := true, routePending := false } else none
  | .sliceEvent e =>
    if s.slicePending then none
    else
      let (cluster, notify) := watchEndpointslices s.cluster e
      some { s with cluster := cluster, slicePending := notify }
  | .sliceNotify => if s.slicePending then some { s with permit := true, slicePending := false } else none
  | .wake =>
    match s.rebuild with
    | .waiting => if s.permit then some { s with permit := false, rebuild := .debouncing } else none
    | _ => none
  | .compile order =>
    match s.rebuild with
    | .debouncing =>
      if order.Perm s.cluster.values then
        some { s with rebuild := .compiled (s.cluster.compile ht m cfg order) }
      else none
    | _ => none
  | .store =>
    match s.rebuild with
    | .compiled table => some { s with rebuild := .waiting, published := table }
    | _ => none

/-- A run: the actions of the three tasks in the order in which they interleave. -/
def run (s : Controller m) (actions : List Action) : Option (Controller m) :=
  actions.foldlM (step ht m cfg) s

/-! ## Published tables -/

/-- Every table that is published while `w` runs from `s` satisfies `P`. -/
def Publishes (s : Controller m) (w : List Action) (P : RouteTable m → Prop) : Prop :=
  ∀ a b t, w = a ++ .store :: b → run ht m cfg s (a ++ [.store]) = some t → P t.published

/-- The table was built from specs that include the given ones. -/
def Carries (table : RouteTable m) (specs : List RouteSpec) : Prop :=
  ∃ all, table = RouteTableBuilder.buildAll m all ∧ ∀ s ∈ specs, s ∈ all

/-- The table has the entries of the route, with the endpoints of some state of the endpoint store. -/
def CarriesRoute (v : StoredRoute) (table : RouteTable m) : Prop :=
  ∃ st : ClusterState, Carries m table (st.routeSpecs ht cfg v)

/-! ## Restarts -/

/-- The key of a route object. -/
def RouteObject.key (obj : RouteObject) : Option ServiceKey :=
  obj.ns.bind fun ns => obj.name.map fun name => (ns, name)

/-- The object of an event that applies a route. -/
def Action.applied : Action → Option RouteObject
  | .routeEvent (.apply obj) | .routeEvent (.initApply obj) => some obj
  | _ => none

/-- The slice of an event that applies a slice. -/
def Action.appliedSlice : Action → Option EndpointSlice
  | .sliceEvent (.apply slice) | .sliceEvent (.initApply slice) => some slice
  | _ => none

/-- The action stores a route under the key. -/
def deliversRoute (k : ServiceKey) (x : Action) : Bool :=
  match x.applied with
  | some obj => obj.key = some k && obj.spec.isSome
  | none => false

/-- The action stores endpoints under the key. -/
def deliversService (q : ServiceKey) (x : Action) : Bool :=
  match x.appliedSlice with
  | some slice => (parseEndpointSlice slice).map (·.1) = some q
  | none => false

def clearsRoutes : Action → Bool
  | .routeEvent .init => true
  | _ => false

def clearsServices : Action → Bool
  | .sliceEvent .init => true
  | _ => false

/-- Whether an object is cleared and not delivered again after the actions `a`, if it was at the start. -/
def missing (clears delivers : Action → Bool) (start : Bool) (a : List Action) : Bool :=
  a.foldl (fun b x => if clears x then true else if delivers x then false else b) start

/-- The events of `w` leave the route `v` of the key `k` as it is. -/
structure KeepsRoute (k : ServiceKey) (v : StoredRoute) (w : List Action) : Prop where
  unchanged : ∀ x ∈ w, ∀ obj, x.applied = some obj → obj.key = some k → obj.spec = some v.spec
  kept : ∀ obj, .routeEvent (.delete obj) ∈ w → obj.key ≠ some k

/-- The events of `w` leave the endpoints `eps` of the Service `q` as they are. -/
structure KeepsService (q : ServiceKey) (eps : Option (List ReadyEndpoint)) (w : List Action) : Prop where
  unchanged : ∀ x ∈ w, ∀ slice new, x.appliedSlice = some slice → parseEndpointSlice slice = some (q, new) →
    eps = some new
  kept : ∀ slice, .sliceEvent (.delete slice) ∈ w → ∀ new, parseEndpointSlice slice ≠ some (q, new)

/-- In the state `s` the HTTPRoute watch restarts; `w` is what happens afterwards, and leaves the route `v` as it is. -/
structure RouteRestart (s : Controller m) (w : List Action) (k : ServiceKey) (v : StoredRoute) : Prop where
  stored : s.cluster.routes.lookup k = some v
  keeps : KeepsRoute k v w

/-- `w` is what happens between the `Init` and the matching `InitDone`, and the route survives. -/
structure RouteRelist (s : Controller m) (w : List Action) (k : ServiceKey) (v : StoredRoute) : Prop extends
    RouteRestart m s w k v where
  noInit : .routeEvent .init ∉ w
  noInitDone : .routeEvent .initDone ∉ w
  redelivered : ∃ obj, .routeEvent (.initApply obj) ∈ w ∧ obj.key = some k

/-- The Services that a route refers to. -/
def StoredRoute.serviceKeys (v : StoredRoute) : List ServiceKey :=
  v.spec.rules.flatMap fun rule => rule.backendRefs.map fun b => (b.ns.getD v.ns, b.name)

/-- In the state `s` the EndpointSlice watch restarts; `w` is what happens afterwards, and leaves the route `v` and the
endpoints of its Services as they are. -/
structure SliceRestart (s : Controller m) (w : List Action) (k : ServiceKey) (v : StoredRoute) : Prop where
  stored : s.cluster.routes.lookup k = some v
  keeps : KeepsRoute k v w
  keepsServices : ∀ q ∈ v.serviceKeys, KeepsService q (s.cluster.endpoints.lookup q) w

/-- `w` is what happens between the `Init` and the matching `InitDone`, and the endpoints survive. -/
structure SliceRelist (s : Controller m) (w : List Action) (k : ServiceKey) (v : StoredRoute) : Prop extends
    SliceRestart m s w k v where
  noInit : .sliceEvent .init ∉ w
  noInitDone : .sliceEvent .initDone ∉ w
  redelivered : ∀ q ∈ v.serviceKeys, ∀ eps, s.cluster.endpoints.lookup q = some eps →
    ∃ slice, .sliceEvent (.initApply slice) ∈ w ∧ parseEndpointSlice slice = some (q, eps)

/-- Both watches have finished their first list. -/
def BothListed (a : List Action) : Prop := .routeEvent .initDone ∈ a ∧ .sliceEvent .initDone ∈ a

/-- **A re-list never un-publishes what survives it, and the seed table stays until both watches are
listed.** -/
def RelistSafe (seed : RouteTable m) : Prop :=
  ∀ pre s, run ht m cfg (Controller.start m seed) pre = some s →
    (∀ s₁ w k v, step ht m cfg s (.routeEvent .init) = some s₁ → RouteRelist m s w k v →
      Publishes ht m cfg s₁ w (CarriesRoute ht m cfg v)) ∧
    (∀ s₁ w k v, step ht m cfg s (.sliceEvent .init) = some s₁ → SliceRelist m s w k v →
      Publishes ht m cfg s₁ w fun table => Carries m table (s.cluster.routeSpecs ht cfg v)) ∧
    (¬ BothListed pre → s.published = seed)

/-! ## The condition -/

/-- No compiled table waits to be published. -/
def NothingCompiled (s : Controller m) : Prop := ∀ table, s.rebuild ≠ .compiled table

/-- Whenever a table is compiled in `w`, the actions before it satisfy `Ready`. -/
def CompilesOnly (w : List Action) (Ready : List Action → Prop) : Prop :=
  ∀ a order b, w = a ++ .compile order :: b → Ready a

/-- The rebuild task waits for the route `k` to be delivered again. -/
def AwaitsRoute (s : Controller m) (w : List Action) (k : ServiceKey) : Prop :=
  NothingCompiled m s ∧
    CompilesOnly w fun a => missing clearsRoutes (deliversRoute k) true a = false

/-- The rebuild task waits for the endpoints of the route `v` of the key `k` to be delivered again. -/
def AwaitsServices (s : Controller m) (w : List Action) (k : ServiceKey) (v : StoredRoute) : Prop :=
  NothingCompiled m s ∧
    CompilesOnly w fun a => missing clearsRoutes (deliversRoute k) false a = false ∧
      ∀ q ∈ v.serviceKeys, s.cluster.endpoints.lookup q ≠ none →
        missing clearsServices (deliversService q) true a = false

/-! ## Steps and runs -/

/-- What an action does to the state. -/
def clusterAfter (c : ClusterState) : Action → ClusterState
  | .routeEvent e => (watchHttproutes c e).1
  | .sliceEvent e => (watchEndpointslices c e).1
  | _ => c

variable {ht m cfg}

/-- The state follows the events; only `compile` leaves a compiled table behind, and only `store` publishes. -/
theorem step_cases {s s' : Controller m} {x : Action} (h : step ht m cfg s x = some s') :
    s'.cluster = clusterAfter s.cluster x ∧
      ((x ≠ .store ∧ s'.published = s.published ∧
          ∀ table, s'.rebuild = .compiled table → s.rebuild = .compiled table) ∨
        (∃ order, x = .compile order ∧ order.Perm s.cluster.values ∧ s'.published = s.published ∧
          s'.rebuild = .compiled (s.cluster.compile ht m cfg order)) ∨
        ∃ table, x = .store ∧ s.rebuild = .compiled table ∧ s'.published = table ∧ s'.rebuild = .waiting) := by
  cases x with
  | routeEvent e | sliceEvent e =>
    simp only [step] at h
    split at h
    · cases h
    · obtain rfl := Option.some.inj h
      exact ⟨rfl, Or.inl ⟨by simp, rfl, fun _ h => h⟩⟩
  | routeNotify | sliceNotify =>
    simp only [step] at h
    split at h
    · obtain rfl := Option.some.inj h
      exact ⟨rfl, Or.inl ⟨by simp, rfl, fun _ h => h⟩⟩
    · cases h
  | wake =>
    simp only [step] at h
    split at h
    · split at h
      · obtain rfl := Option.some.inj h
        exact ⟨rfl, Or.inl ⟨by simp, rfl, fun _ h => by cases h⟩⟩
      · cases h
    · cases h
  | compile order =>
    simp only [step] at h
    split at h
    · split at h
      · rename_i hperm
        obtain rfl := Option.some.inj h
        exact ⟨rfl, Or.inr (Or.inl ⟨order, rfl, hperm, rfl, rfl⟩)⟩
      · cases h
    · cases h
  | store =>
    simp only [step] at h
    split at h
    · rename_i table htable
      obtain rfl := Option.some.inj h
      exact ⟨rfl, Or.inr (Or.inr ⟨table, rfl, htable, rfl, rfl⟩)⟩
    · cases h

theorem run_append_singleton {s t : Controller m} {a : List Action} {x : Action}
    (h : run ht m cfg s (a ++ [x]) = some t) :
    ∃ u, run ht m cfg s a = some u ∧ step ht m cfg u x = some t := by
  unfold run at h ⊢
  rw [List.foldlM_append] at h
  obtain ⟨u, hu, hx⟩ := Option.bind_eq_some_iff.mp h
  refine ⟨u, hu, ?_⟩
  simpa using hx

/-- **An invariant of the state, and of the table that waits to be published.** -/
theorem run_invariant {s : Controller m} {w : List Action} {I : List Action → ClusterState → Prop}
    {G : RouteTable m → Prop} (h0 : I [] s.cluster) (hpend : NothingCompiled m s)
    (hstep : ∀ a x b c, w = a ++ x :: b → I a c → I (a ++ [x]) (clusterAfter c x))
    (hcompile : ∀ a order b c, w = a ++ .compile order :: b → I a c → order.Perm c.values →
      G (c.compile ht m cfg order)) :
    ∀ a b t, w = a ++ b → run ht m cfg s a = some t →
      I a t.cluster ∧ ∀ table, t.rebuild = .compiled table → G table := by
  intro a
  induction a using List.reverseRecOn with
  | nil =>
    intro b t _ hrun
    obtain rfl : s = t := by simpa [run] using hrun
    exact ⟨h0, fun table htable => absurd htable (hpend table)⟩
  | append_singleton a x ih =>
    intro b t hw hrun
    obtain ⟨u, hu, hx⟩ := run_append_singleton hrun
    have hw' : w = a ++ x :: b := by simpa using hw
    obtain ⟨hinv, hgood⟩ := ih (x :: b) u hw' hu
    refine ⟨(step_cases hx).1 ▸ hstep a x b _ hw' hinv, fun table htable => ?_⟩
    rcases (step_cases hx).2 with ⟨-, -, hkeep⟩ | ⟨order, rfl, hperm, -, hnew⟩ | ⟨-, -, -, -, hwait⟩
    · exact hgood table (hkeep table htable)
    · rw [hnew] at htable
      obtain rfl := Rebuild.compiled.inj htable
      exact hcompile a order b _ hw' hinv hperm
    · rw [hwait] at htable
      cases htable

theorem publishes_of_invariant {s : Controller m} {w : List Action}
    {I : List Action → ClusterState → Prop} {G : RouteTable m → Prop} (h0 : I [] s.cluster)
    (hpend : NothingCompiled m s)
    (hstep : ∀ a x b c, w = a ++ x :: b → I a c → I (a ++ [x]) (clusterAfter c x))
    (hcompile : ∀ a order b c, w = a ++ .compile order :: b → I a c → order.Perm c.values →
      G (c.compile ht m cfg order)) : Publishes ht m cfg s w G := by
  intro a b t hw hrun
  obtain ⟨u, hu, hx⟩ := run_append_singleton hrun
  obtain ⟨-, hgood⟩ := run_invariant h0 hpend hstep hcompile a (.store :: b) u hw hu
  rcases (step_cases hx).2 with ⟨hne, -⟩ | ⟨order, hc, -⟩ | ⟨table, -, htable, hpub, -⟩
  · exact absurd rfl hne
  · cases hc
  · exact hpub ▸ hgood table htable

/-! ## Objects that are not missing are stored -/

theorem missing_append_singleton (clears delivers : Action → Bool) (start : Bool) (a : List Action)
    (x : Action) : missing clears delivers start (a ++ [x]) =
      if clears x then true else if delivers x then false else missing clears delivers start a := by
  simp [missing]

theorem lookup_apply_route (c : ClusterState) (obj : RouteObject) (k : ServiceKey) :
    (watchHttproutes c (.apply obj)).1.routes.lookup k =
      if obj.key = some k ∧ obj.spec.isSome then obj.spec.map fun spec => ⟨k.1, k.2, spec⟩
      else c.routes.lookup k := by
  obtain ⟨name, ns, spec⟩ := obj
  rcases name with _ | name <;> rcases ns with _ | ns <;> rcases spec with _ | spec <;>
    simp only [watchHttproutes, RouteObject.key, Option.bind_none, Option.bind_some, Option.map_none,
      Option.map_some, reduceCtorEq, if_false, Option.isSome_none, Bool.false_eq_true, and_false,
      Option.isSome_some, and_true, Option.some.injEq]
  by_cases hk : (ns, name) = k
  · subst hk
    rw [AList.lookup_insert, if_pos rfl]
  · rw [AList.lookup_insert_ne (Ne.symm hk), if_neg hk]

theorem lookup_delete_route (c : ClusterState) (obj : RouteObject) (k : ServiceKey) :
    (watchHttproutes c (.delete obj)).1.routes.lookup k =
      if obj.key = some k then none else c.routes.lookup k := by
  obtain ⟨name, ns, spec⟩ := obj
  rcases name with _ | name <;> rcases ns with _ | ns <;>
    simp only [watchHttproutes, RouteObject.key, Option.bind_none, Option.bind_some, Option.map_none,
      Option.map_some, reduceCtorEq, if_false, Option.some.injEq]
  by_cases hk : (ns, name) = k
  · subst hk
    rw [AList.lookup_erase, if_pos rfl]
  · rw [AList.lookup_erase_ne (Ne.symm hk), if_neg hk]

theorem slices_keep_routes (c : ClusterState) (e : WatchEvent EndpointSlice) :
    (watchEndpointslices c e).1.routes = c.routes := by
  cases e with
  | apply slice | initApply slice | delete slice =>
    simp only [watchEndpointslices]
    split <;> rfl
  | init | initDone | error => rfl

/-- The stored routes are filed under their own name. -/
def WellKeyed (c : ClusterState) : Prop :=
  ∀ k v, c.routes.lookup k = some v → v.ns = k.1 ∧ v.name = k.2

theorem wellKeyed_step {c : ClusterState} (h : WellKeyed c) (x : Action) : WellKeyed (clusterAfter c x) := by
  intro k v hv
  have happly : ∀ obj, (watchHttproutes c (.apply obj)).1.routes.lookup k = some v →
      v.ns = k.1 ∧ v.name = k.2 := by
    intro obj hv
    rw [lookup_apply_route] at hv
    split at hv
    · obtain ⟨spec, -, rfl⟩ := Option.map_eq_some_iff.mp hv
      exact ⟨rfl, rfl⟩
    · exact h k v hv
  cases x with
  | routeEvent e =>
    cases e with
    | apply obj | initApply obj => exact happly obj hv
    | delete obj =>
      rw [clusterAfter, lookup_delete_route] at hv
      split at hv
      · cases hv
      · exact h k v hv
    | init => simp [clusterAfter, watchHttproutes] at hv
    | initDone | error => exact h k v hv
  | sliceEvent e => exact h k v (slices_keep_routes c e ▸ hv)
  | routeNotify | sliceNotify | wake | compile order | store => exact h k v hv

theorem wellKeyed_run {seed : RouteTable m} {pre : List Action} {s : Controller m}
    (h : run ht m cfg (Controller.start m seed) pre = some s) : WellKeyed s.cluster := by
  refine (run_invariant (w := pre) (I := fun _ c => WellKeyed c) (G := fun _ => True) ?_ ?_ ?_ ?_
    pre [] s (by simp) h).1
  · intro k v hv
    simp [Controller.start] at hv
  · intro table htable
    cases htable
  · intro a x b c _ hinv
    exact wellKeyed_step hinv x
  · intros
    trivial

theorem route_stored_step {w a b : List Action} {x : Action} {c : ClusterState} {k : ServiceKey}
    {v : StoredRoute} {start : Bool} (hkeep : KeepsRoute k v w) (hkey : v.ns = k.1 ∧ v.name = k.2)
    (hw : w = a ++ x :: b)
    (h : missing clearsRoutes (deliversRoute k) start a = false → c.routes.lookup k = some v) :
    missing clearsRoutes (deliversRoute k) start (a ++ [x]) = false →
      (clusterAfter c x).routes.lookup k = some v := by
  rw [missing_append_singleton]
  have hx : x ∈ w := by simp [hw]
  have happly : ∀ obj, x.applied = some obj → (if deliversRoute k x then false
      else missing clearsRoutes (deliversRoute k) start a) = false →
      (watchHttproutes c (.apply obj)).1.routes.lookup k = some v := by
    intro obj hobj hmiss
    rw [lookup_apply_route]
    by_cases hk : obj.key = some k ∧ obj.spec.isSome
    · rw [if_pos hk, hkeep.unchanged x hx obj hobj hk.1, Option.map_some, ← hkey.1, ← hkey.2]
    · rw [if_neg hk]
      refine h ?_
      rwa [deliversRoute, hobj, if_neg (by simpa using hk)] at hmiss
  cases x with
  | routeEvent e =>
    cases e with
    | apply obj | initApply obj => exact happly obj rfl
    | delete obj =>
      intro hmiss
      rw [clusterAfter, lookup_delete_route, if_neg (hkeep.kept obj hx)]
      exact h hmiss
    | init => simp [clearsRoutes]
    | initDone | error => exact h
  | sliceEvent e =>
    intro hmiss
    rw [clusterAfter, slices_keep_routes]
    exact h (by cases e <;> exact hmiss)
  | routeNotify | sliceNotify | wake | compile order | store => exact h

/-! ## Endpoints that are not missing are stored -/

theorem lookup_apply_slice (c : ClusterState) (slice : EndpointSlice) (q : ServiceKey) :
    (watchEndpointslices c (.apply slice)).1.endpoints.lookup q =
      match parseEndpointSlice slice with
      | some (q', eps) => if q' = q then some eps else c.endpoints.lookup q
      | none => c.endpoints.lookup q := by
  rcases hp : parseEndpointSlice slice with _ | ⟨q', eps⟩
  · simp only [watchEndpointslices, hp]
  · simp only [watchEndpointslices, hp]
    by_cases hq : q' = q
    · subst hq
      rw [AList.lookup_insert, if_pos rfl]
    · rw [AList.lookup_insert_ne (Ne.symm hq), if_neg hq]

theorem lookup_delete_slice (c : ClusterState) (slice : EndpointSlice) (q : ServiceKey) :
    (watchEndpointslices c (.delete slice)).1.endpoints.lookup q =
      match parseEndpointSlice slice with
      | some (q', _) => if q' = q then none else c.endpoints.lookup q
      | none => c.endpoints.lookup q := by
  rcases hp : parseEndpointSlice slice with _ | ⟨q', eps⟩
  · simp only [watchEndpointslices, hp]
  · simp only [watchEndpointslices, hp]
    by_cases hq : q' = q
    · subst hq
      rw [AList.lookup_erase, if_pos rfl]
    · rw [AList.lookup_erase_ne (Ne.symm hq), if_neg hq]

theorem routes_keep_endpoints (c : ClusterState) (e : WatchEvent RouteObject) :
    (watchHttproutes c e).1.endpoints = c.endpoints := by
  cases e with
  | apply obj | initApply obj | delete obj =>
    simp only [watchHttproutes]
    split <;> rfl
  | init | initDone | error => rfl

/-- Endpoints that are not missing are stored; a Service without endpoints stays without. -/
theorem service_stored_step {w a b : List Action} {x : Action} {c : ClusterState} {q : ServiceKey}
    {eps : Option (List ReadyEndpoint)} (hkeep : KeepsService q eps w) (hw : w = a ++ x :: b)
    (h : eps = none ∨ missing clearsServices (deliversService q) true a = false →
      c.endpoints.lookup q = eps) :
    eps = none ∨ missing clearsServices (deliversService q) true (a ++ [x]) = false →
      (clusterAfter c x).endpoints.lookup q = eps := by
  rw [missing_append_singleton]
  have hx : x ∈ w := by simp [hw]
  have happly : ∀ slice, x.appliedSlice = some slice → (eps = none ∨ (if deliversService q x then false
      else missing clearsServices (deliversService q) true a) = false) →
      (watchEndpointslices c (.apply slice)).1.endpoints.lookup q = eps := by
    intro slice hslice hmiss
    rw [lookup_apply_slice]
    rw [deliversService, hslice] at hmiss
    cases hp : parseEndpointSlice slice with
    | none =>
      refine h ?_
      simpa [hp] using hmiss
    | some r =>
      obtain ⟨q', new⟩ := r
      by_cases hq : q' = q
      · subst hq
        simp only [if_true]
        exact (hkeep.unchanged x hx slice new hslice hp).symm
      · simp only [if_neg hq]
        refine h ?_
        simpa [hp, hq] using hmiss
  cases x with
  | sliceEvent e =>
    cases e with
    | apply slice | initApply slice => exact happly slice rfl
    | delete slice =>
      intro hmiss
      rw [clusterAfter, lookup_delete_slice]
      split
      · rename_i q' new hp
        rw [if_neg]
        · exact h hmiss
        · rintro rfl
          exact hkeep.kept slice hx new hp
      · exact h hmiss
    | init =>
      rintro (rfl | hmiss)
      · simp [clusterAfter, watchEndpointslices]
      · simp [clearsServices] at hmiss
    | initDone | error => exact h
  | routeEvent e =>
    intro hmiss
    rw [clusterAfter, routes_keep_endpoints]
    exact h (by cases e <;> exact hmiss)
  | routeNotify | sliceNotify | wake | compile order | store => exact h

theorem routeSpecs_congr {c c' : ClusterState} {v : StoredRoute}
    (h : ∀ q ∈ v.serviceKeys, c.endpoints.lookup q = c'.endpoints.lookup q) :
    c.routeSpecs ht cfg v = c'.routeSpecs ht cfg v := by
  have hrule : ∀ rule ∈ v.spec.rules, rule.backendRefs.flatMap (c.resolve v.ns) =
      rule.backendRefs.flatMap (c'.resolve v.ns) := by
    intro rule hrule
    refine List.flatMap_congr fun backend hb => ?_
    have hq : (backend.ns.getD v.ns, backend.name) ∈ v.serviceKeys :=
      List.mem_flatMap.mpr ⟨rule, hrule, List.mem_map.mpr ⟨backend, hb, rfl⟩⟩
    simp only [ClusterState.resolve, h _ hq]
  unfold ClusterState.routeSpecs
  split
  · refine List.flatMap_congr fun x hx => ?_
    have hmem : x.1 ∈ v.spec.rules := (List.mem_zipIdx' hx).2 ▸ List.getElem_mem _
    simp only [ClusterState.ruleSpecs, hrule x.1 hmem]
  · rfl

/-! ## Re-lists -/

theorem routeCount_buildAll (specs : List RouteSpec) :
    (RouteTableBuilder.buildAll m specs).routeCount = specs.length := by
  have h : ∀ (l : List RouteSpec) (b : RouteTableBuilder),
      (l.foldl RouteTableBuilder.add b).routeCount = b.routeCount + l.length := by
    intro l
    induction l with
    | nil => simp
    | cons s l ih =>
      intro b
      rw [List.foldl_cons, ih, add_routeCount, List.length_cons]
      omega
  show (specs.foldl RouteTableBuilder.add RouteTableBuilder.new).routeCount = specs.length
  rw [h, RouteTableBuilder.new, Nat.zero_add]

theorem Carries.eq_nil {table : RouteTable m} {specs : List RouteSpec} (h : Carries m table specs)
    (hzero : table.routeCount = 0) : specs = [] := by
  obtain ⟨all, rfl, hsub⟩ := h
  rw [routeCount_buildAll, List.length_eq_zero_iff] at hzero
  subst hzero
  exact List.eq_nil_iff_forall_not_mem.mpr fun s hs => by simpa using hsub s hs

theorem carries_compile {c : ClusterState} {order : List StoredRoute} {k : ServiceKey} {v : StoredRoute}
    (hv : c.routes.lookup k = some v) (hperm : order.Perm c.values) :
    Carries m (c.compile ht m cfg order) (c.routeSpecs ht cfg v) := by
  have hmem : v ∈ c.values := List.mem_map.mpr ⟨⟨k, v⟩, AList.mem_lookup_iff.mp hv, rfl⟩
  exact ⟨_, rfl, fun s hs => List.mem_flatMap.mpr ⟨v, hperm.mem_iff.mpr hmem, hs⟩⟩

theorem route_restart_publishes {s s₁ : Controller m} {w : List Action} {k : ServiceKey} {v : StoredRoute}
    (hkeyed : WellKeyed s.cluster) (hstep : step ht m cfg s (.routeEvent .init) = some s₁)
    (hr : RouteRestart m s w k v) (hc : AwaitsRoute m s w k) :
    Publishes ht m cfg s₁ w (CarriesRoute ht m cfg v) := by
  have hpend : NothingCompiled m s₁ := by
    intro table htable
    rcases (step_cases hstep).2 with ⟨-, -, hkeep⟩ | ⟨order, hx, -⟩ | ⟨_, hx, -⟩
    · exact hc.1 table (hkeep table htable)
    · cases hx
    · cases hx
  refine publishes_of_invariant (I := fun a c =>
    missing clearsRoutes (deliversRoute k) true a = false → c.routes.lookup k = some v) ?_ hpend ?_ ?_
  · intro h
    simp [missing] at h
  · intro a x b c hw hinv
    exact route_stored_step hr.keeps (hkeyed k v hr.stored) hw hinv
  · intro a order b c hw hinv hperm
    exact ⟨c, carries_compile (hinv (hc.2 a order b hw)) hperm⟩

theorem slice_restart_publishes {s s₁ : Controller m} {w : List Action} {k : ServiceKey} {v : StoredRoute}
    (hkeyed : WellKeyed s.cluster) (hstep : step ht m cfg s (.sliceEvent .init) = some s₁)
    (hr : SliceRestart m s w k v) (hc : AwaitsServices m s w k v) :
    Publishes ht m cfg s₁ w fun table => Carries m table (s.cluster.routeSpecs ht cfg v) := by
  have hpend : NothingCompiled m s₁ := by
    intro table htable
    rcases (step_cases hstep).2 with ⟨-, -, hkeep⟩ | ⟨order, hx, -⟩ | ⟨_, hx, -⟩
    · exact hc.1 table (hkeep table htable)
    · cases hx
    · cases hx
  have hcl : s₁.cluster = { s.cluster with endpoints := ∅ } := (step_cases hstep).1
  refine publishes_of_invariant (I := fun a c =>
    (missing clearsRoutes (deliversRoute k) false a = false → c.routes.lookup k = some v) ∧
    ∀ q ∈ v.serviceKeys, s.cluster.endpoints.lookup q = none ∨
      missing clearsServices (deliversService q) true a = false →
        c.endpoints.lookup q = s.cluster.endpoints.lookup q) ?_ hpend ?_ ?_
  · rw [hcl]
    refine ⟨fun _ => hr.stored, fun q _ hq => ?_⟩
    rcases hq with hq | hq
    · rw [hq]
      simp
    · simp [missing] at hq
  · intro a x b c hw hinv
    refine ⟨route_stored_step hr.keeps (hkeyed k v hr.stored) hw hinv.1, fun q hq => ?_⟩
    exact service_stored_step (hr.keepsServices q hq) hw (hinv.2 q hq)
  · intro a order b c hw hinv hperm
    obtain ⟨hroute, hservices⟩ := hc.2 a order b hw
    have hcongr : c.routeSpecs ht cfg v = s.cluster.routeSpecs ht cfg v := by
      refine routeSpecs_congr fun q hq => hinv.2 q hq ?_
      by_cases hnone : s.cluster.endpoints.lookup q = none
      · exact Or.inl hnone
      · exact Or.inr (hservices q hq hnone)
    rw [← hcongr]
    exact carries_compile (hinv.1 hroute) hperm

theorem seed_stays {seed : RouteTable m} {pre : List Action} (hc : CompilesOnly pre BothListed) :
    ∀ a b s, pre = a ++ b → run ht m cfg (Controller.start m seed) a = some s → ¬ BothListed a →
      s.published = seed ∧ NothingCompiled m s := by
  intro a
  induction a using List.reverseRecOn with
  | nil =>
    intro b s _ hrun _
    obtain rfl : Controller.start m seed = s := by simpa [run] using hrun
    exact ⟨rfl, fun table htable => by cases htable⟩
  | append_singleton a x ih =>
    intro b s hpre hrun hnot
    obtain ⟨u, hu, hx⟩ := run_append_singleton hrun
    have hpre' : pre = a ++ x :: b := by simpa using hpre
    have hnot' : ¬ BothListed a := fun h => hnot ⟨List.mem_append_left _ h.1, List.mem_append_left _ h.2⟩
    obtain ⟨hpub, hpend⟩ := ih (x :: b) u hpre' hu hnot'
    rcases (step_cases hx).2 with ⟨-, hsame, hkeep⟩ | ⟨order, rfl, -⟩ | ⟨table, rfl, htable, -⟩
    · exact ⟨hsame.trans hpub, fun table htable => hpend table (hkeep table htable)⟩
    · exact absurd (hc a order b hpre') hnot'
    · exact absurd htable (hpend table)

/-- **A re-list never un-publishes surviving routes when the rebuild task waits for them**, in every run of
the controller, also when it fails and starts again; and the seed table stays until both watches are listed when the rebuild task waits for
that. -/
theorem relist_publishes (seed : RouteTable m) (pre : List Action) (s : Controller m)
    (hrun : run ht m cfg (Controller.start m seed) pre = some s) :
    (∀ s₁ w k v, step ht m cfg s (.routeEvent .init) = some s₁ → RouteRestart m s w k v →
      AwaitsRoute m s w k → Publishes ht m cfg s₁ w (CarriesRoute ht m cfg v)) ∧
    (∀ s₁ w k v, step ht m cfg s (.sliceEvent .init) = some s₁ → SliceRestart m s w k v →
      AwaitsServices m s w k v →
        Publishes ht m cfg s₁ w fun table => Carries m table (s.cluster.routeSpecs ht cfg v)) ∧
    (CompilesOnly pre BothListed → ¬ BothListed pre → s.published = seed) := by
  have hkeyed := wellKeyed_run hrun
  refine ⟨fun s₁ w k v hstep => route_restart_publishes hkeyed hstep,
    fun s₁ w k v hstep => slice_restart_publishes hkeyed hstep, fun hc hnot => ?_⟩
  exact (seed_stays hc pre [] s (by simp) hrun hnot).1

end Controller

/-! ## Two runs with one route -/

theorem compilesOnly_nil {Ready : List Action → Prop} : CompilesOnly [] Ready := by
  intro a order b h
  simp at h

theorem compilesOnly_cons {x : Action} {w : List Action} {Ready : List Action → Prop}
    (hx : ∀ order, x = .compile order → Ready []) (hw : CompilesOnly w fun a => Ready (x :: a)) :
    CompilesOnly (x :: w) Ready := by
  intro a order b h
  cases a with
  | nil => exact hx order (List.cons.inj h).1
  | cons y a =>
    obtain ⟨rfl, htail⟩ := List.cons.inj h
    exact hw a order b htail

/-- The route `default/a` for the prefix `/`. -/
def relistRoute : StoredRoute := sampleRoute (ascii "a") (ascii "/") (ascii "x")

/-- Its object. -/
def relistObject : RouteObject := ⟨some (ascii "a"), some (ascii "default"), some relistRoute.spec⟩

/-- Both watches list, and the table with the route is published. -/
def listedRun : List Action :=
  [.routeEvent .init, .routeEvent (.initApply relistObject), .routeNotify, .routeEvent .initDone,
    .routeNotify, .sliceEvent .init, .sliceEvent .initDone, .sliceNotify, .wake, .compile [relistRoute], .store]

/-- The state of the controller after `listedRun`. -/
def listedState : Controller PathRouter.reference :=
  (run HeaderTypes.reference PathRouter.reference anyGateway
    (.start _ (RouteTableBuilder.buildAll _ [])) listedRun).get (by decide)

theorem run_listedRun : run HeaderTypes.reference PathRouter.reference anyGateway
    (.start _ (RouteTableBuilder.buildAll _ [])) listedRun = some listedState :=
  (Option.some_get _).symm

/-- What happens between `Init` and `InitDone` if the route comes back before the next table is compiled. -/
def promptRelist : List Action :=
  [.routeEvent (.initApply relistObject), .routeNotify, .wake, .compile [relistRoute], .store]

/-- What happens between `Init` and `InitDone` if an EndpointSlice event triggers a rebuild before the route
comes back. -/
def slowRelist : List Action :=
  [.sliceEvent (.apply (sampleSlice (ascii "x-1") (ascii "x") (ascii "10.0.0.1"))), .sliceNotify, .wake, .compile [], .store,
    .routeEvent (.initApply relistObject), .routeNotify]

theorem routeRestart_sample {w : List Action} (happlied : ∀ x ∈ w, x.applied = none ∨ x.applied = some relistObject)
    (hdelete : ∀ obj, .routeEvent (.delete obj) ∉ w) :
    RouteRestart _ listedState w (ascii "default", ascii "a") relistRoute where
  stored := by decide
  keeps := by
    refine ⟨fun x hx obj hobj _ => ?_, fun obj hobj => absurd hobj (hdelete obj)⟩
    rcases happlied x hx with h | h
    · rw [h] at hobj
      cases hobj
    · rw [h] at hobj
      rw [← Option.some.inj hobj]
      rfl

theorem relist_publishes_prompt :
    ∃ s₁, step HeaderTypes.reference PathRouter.reference anyGateway listedState (.routeEvent .init) = some s₁ ∧
      Publishes HeaderTypes.reference _ anyGateway s₁ promptRelist
        (CarriesRoute HeaderTypes.reference _ anyGateway relistRoute) := by
  refine ⟨_, rfl, (relist_publishes _ _ _ run_listedRun).1 _ _ (ascii "default", ascii "a") _ rfl ?_ ?_⟩
  · exact routeRestart_sample (by simp [promptRelist, Action.applied]) (by simp [promptRelist])
  · refine ⟨fun table h => ?_, ?_⟩
    · have hwait : listedState.rebuild = .waiting := rfl
      rw [hwait] at h
      cases h
    · unfold promptRelist
      refine compilesOnly_cons (by simp) (compilesOnly_cons (by simp) (compilesOnly_cons (by simp)
        (compilesOnly_cons (fun _ _ => by decide) (compilesOnly_cons (by simp) compilesOnly_nil))))

/-- A rebuild in the middle of a re-list publishes a table without the route. -/
theorem relist_unpublishes_route :
    ¬ RelistSafe HeaderTypes.reference PathRouter.reference anyGateway (RouteTableBuilder.buildAll _ []) := by
  intro h
  have hpub := (h _ _ run_listedRun).1 _ slowRelist (ascii "default", ascii "a") relistRoute rfl
    ⟨routeRestart_sample (by simp [slowRelist, Action.applied]) (by simp [slowRelist]), by simp [slowRelist],
      by simp [slowRelist], relistObject, by simp [slowRelist], rfl⟩
  -- the published table is empty, but the route has an entry whatever the endpoints are
  obtain ⟨st, hcarries⟩ := hpub (slowRelist.take 4) (slowRelist.drop 5) _ rfl rfl
  have hnil := hcarries.eq_nil rfl
  simp [ClusterState.routeSpecs, ClusterState.routeIsOurs, anyGateway, relistRoute, sampleRoute,
    ClusterState.ruleSpecs, resolve_ne_nil, ClusterState.routeHostnames, ClusterState.ruleMatches] at hnil

end LbProxy.Core
