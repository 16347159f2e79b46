import LbProxy.Core.Rebuild

/-!
# The watches converge to what one reconcile computes (`reconcile_once`)

* `listed`, `reconcileOnce` — the state and the table of a one-shot reconcile over two listings;
* `TaskStep.isLoop` — the steps of the rebuild task, and `Reconciler.fuel`, how many of them are left;
* `routeEvents`, `sliceEvents` — what the watches delivered in a run, and `cluster_run`, the state that follows;
* `watch_converges` — after a complete listing of both kinds the rebuild task parks within seven steps, and the
  published table is then the one that `reconcileOnce` computes;
* `burst_coalesced` — between two parks there are at most as many rebuilds as notifications, and at least one.
-/

namespace LbProxy.Core

open Lib

/-! ## One-shot reconcile -/

/-- Store a listed route; one without a name, a namespace or a spec that parses is left out. -/
def listRoute (routes : AList fun _ : ServiceKey => StoredRoute) (obj : RouteObject) :
    AList fun _ : ServiceKey => StoredRoute :=
  match obj.name, obj.ns, obj.spec with
  | some name, some ns, some spec => routes.insert (ns, name) ⟨ns, name, spec⟩
  | _, _, _ => routes

/-- Store the endpoints of a listed slice. -/
def listSlice (endpoints : AList fun _ : ServiceKey => List ReadyEndpoint) (slice : EndpointSlice) :
    AList fun _ : ServiceKey => List ReadyEndpoint :=
  match parseEndpointSlice slice with
  | some (key, eps) => endpoints.insert key eps
  | none => endpoints

/-- The state that two listings describe. -/
def listed (routes : List RouteObject) (slices : List EndpointSlice) : ClusterState :=
  ⟨routes.foldl listRoute ∅, slices.foldl listSlice ∅⟩

section Reconciler

variable (ht : HeaderTypes) (m : PathRouter) (cfg : ControllerConfig)

/-- One-shot reconcile against two listings: the table that is published, and its number of routes. -/
def reconcileOnce (routes : List RouteObject) (slices : List EndpointSlice) (order : List StoredRoute) :
    RouteTable m × ℕ :=
  let table := (listed routes slices).compile ht m cfg order
  (table, table.routeCount)

/-! ## What the watches delivered -/

/-- The event of the HTTPRoute watch that a step delivers. -/
def TaskStep.ofRoutes : TaskStep → Option (WatchEvent RouteObject)
  | .routeEvent e => some e
  | _ => none

/-- The event of the EndpointSlice watch that a step delivers. -/
def TaskStep.ofSlices : TaskStep → Option (WatchEvent EndpointSlice)
  | .sliceEvent e => some e
  | _ => none

/-- The events of the HTTPRoute watch in a run. -/
def routeEvents (steps : List TaskStep) : List (WatchEvent RouteObject) := steps.filterMap TaskStep.ofRoutes

/-- The events of the EndpointSlice watch in a run. -/
def sliceEvents (steps : List TaskStep) : List (WatchEvent EndpointSlice) := steps.filterMap TaskStep.ofSlices

theorem routeEvents_append (a b : List TaskStep) : routeEvents (a ++ b) = routeEvents a ++ routeEvents b :=
  List.filterMap_append

theorem sliceEvents_append (a b : List TaskStep) : sliceEvents (a ++ b) = sliceEvents a ++ sliceEvents b :=
  List.filterMap_append

/-- What an event of the HTTPRoute watch does to the stored routes. -/
def routesAfter (routes : AList fun _ : ServiceKey => StoredRoute) (e : WatchEvent RouteObject) :
    AList fun _ : ServiceKey => StoredRoute :=
  (watchHttproutes ⟨routes, ∅⟩ e).1.routes

/-- What an event of the EndpointSlice watch does to the stored endpoints. -/
def endpointsAfter (endpoints : AList fun _ : ServiceKey => List ReadyEndpoint) (e : WatchEvent EndpointSlice) :
    AList fun _ : ServiceKey => List ReadyEndpoint :=
  (watchEndpointslices ⟨∅, endpoints⟩ e).1.endpoints

theorem watchHttproutes_cluster (c : ClusterState) (e : WatchEvent RouteObject) :
    (watchHttproutes c e).1 = ⟨routesAfter c.routes e, c.endpoints⟩ := by
  cases e with
  | apply obj | initApply obj =>
    simp only [routesAfter, watchHttproutes]
    cases obj.name <;> cases obj.ns <;> cases obj.spec <;> rfl
  | delete obj =>
    simp only [routesAfter, watchHttproutes]
    cases obj.name <;> cases obj.ns <;> rfl
  | init | initDone | error => rfl

theorem watchEndpointslices_cluster (c : ClusterState) (e : WatchEvent EndpointSlice) :
    (watchEndpointslices c e).1 = ⟨c.routes, endpointsAfter c.endpoints e⟩ := by
  cases e with
  | apply slice | initApply slice | delete slice =>
    simp only [endpointsAfter, watchEndpointslices]
    cases parseEndpointSlice slice <;> rfl
  | init | initDone | error => rfl

theorem routesAfter_initApply (routes : AList fun _ : ServiceKey => StoredRoute) (obj : RouteObject) :
    routesAfter routes (.initApply obj) = listRoute routes obj := by
  simp only [routesAfter, watchHttproutes, listRoute]
  cases obj.name <;> cases obj.ns <;> cases obj.spec <;> rfl

theorem endpointsAfter_initApply (endpoints : AList fun _ : ServiceKey => List ReadyEndpoint) (slice : EndpointSlice) :
    endpointsAfter endpoints (.initApply slice) = listSlice endpoints slice := by
  simp only [endpointsAfter, watchEndpointslices, listSlice]
  cases parseEndpointSlice slice <;> rfl

/-- A watch stream that lists all objects, whatever came before. -/
def relisting {α : Type} (objects : List α) : List (WatchEvent α) := .init :: objects.map .initApply ++ [.initDone]

theorem foldl_routesAfter_relisting {events : List (WatchEvent RouteObject)} {routes : List RouteObject}
    (h : relisting routes <:+ events) (start : AList fun _ : ServiceKey => StoredRoute) :
    events.foldl routesAfter start = routes.foldl listRoute ∅ := by
  obtain ⟨before, rfl⟩ := h
  simp only [relisting, List.foldl_append, List.foldl_cons, List.foldl_map, routesAfter_initApply]
  rfl

theorem foldl_endpointsAfter_relisting {events : List (WatchEvent EndpointSlice)} {slices : List EndpointSlice}
    (h : relisting slices <:+ events) (start : AList fun _ : ServiceKey => List ReadyEndpoint) :
    events.foldl endpointsAfter start = slices.foldl listSlice ∅ := by
  obtain ⟨before, rfl⟩ := h
  simp only [relisting, List.foldl_append, List.foldl_cons, List.foldl_map, endpointsAfter_initApply]
  rfl

variable {ht m cfg}

theorem taskRun_cons {s t : Reconciler m} {x : TaskStep} {steps : List TaskStep}
    (h : taskRun ht m cfg s (x :: steps) = some t) :
    ∃ u, taskStep ht m cfg s x = some u ∧ taskRun ht m cfg u steps = some t := by
  unfold taskRun at h ⊢
  rw [List.foldlM_cons] at h
  exact Option.bind_eq_some_iff.mp h

/-- **The state is a function of what each watch delivered**, however the tasks interleave. -/
theorem cluster_run {s t : Reconciler m} {steps : List TaskStep} (h : taskRun ht m cfg s steps = some t) :
    t.cluster = ⟨(routeEvents steps).foldl routesAfter s.cluster.routes,
      (sliceEvents steps).foldl endpointsAfter s.cluster.endpoints⟩ := by
  induction steps generalizing s with
  | nil =>
    obtain rfl : s = t := by simpa [taskRun] using h
    rfl
  | cons x steps ih =>
    obtain ⟨u, hx, hrest⟩ := taskRun_cons h
    rw [ih hrest]
    cases moves_of_taskStep hx with
    | routeEvent e =>
      simp only [watchHttproutes_cluster]
      rfl
    | sliceEvent e =>
      simp only [watchEndpointslices_cluster]
      rfl
    | routeWakes | routePermits | sliceWakes | slicePermits | takesPermit | parks | resume | compile | store => rfl

theorem run_of_append {s t u : Reconciler m} {a b : List TaskStep} (ha : taskRun ht m cfg s a = some u)
    (hb : taskRun ht m cfg u b = some t) : taskRun ht m cfg s (a ++ b) = some t := by
  unfold taskRun at ha hb ⊢
  rw [List.foldlM_append]
  exact Option.bind_eq_some_iff.mpr ⟨u, ha, hb⟩

/-! ## The rebuild task on its own -/

/-- The step is one of the rebuild task. -/
def TaskStep.isLoop : TaskStep → Bool
  | .poll | .resume | .compile _ | .store => true
  | _ => false

/-- How many steps the rebuild task takes before it parks, if no more notifications arrive. -/
def Reconciler.fuel (s : Reconciler m) : ℕ :=
  (match s.loop with
    | .parked => 0
    | .polling => 1
    | .compiled _ => 2
    | .sleeping => 3
    | .woken => 4) + if s.permit then 3 else 0

theorem fuel_le (s : Reconciler m) : s.fuel ≤ 7 := by
  unfold Reconciler.fuel
  cases s.loop <;> cases s.permit <;> simp

/-- A step of the rebuild task uses up one unit of fuel, and leaves the state and the watches as they are. -/
theorem loop_step {s s' : Reconciler m} {x : TaskStep} (h : taskStep ht m cfg s x = some s')
    (hloop : x.isLoop = true) :
    s.fuel = s'.fuel + 1 ∧ s'.cluster = s.cluster ∧ s'.routePending = s.routePending ∧
      s'.slicePending = s.slicePending := by
  cases moves_of_taskStep h with
  | routeEvent | sliceEvent | routeWakes | routePermits | sliceWakes | slicePermits => cases hloop
  | takesPermit hpolling hpermit =>
    refine ⟨?_, rfl, rfl, rfl⟩
    simp [Reconciler.fuel, hpolling, hpermit]
  | parks hpolling hpermit =>
    refine ⟨?_, rfl, rfl, rfl⟩
    simp [Reconciler.fuel, hpolling, hpermit]
  | resume hwoken =>
    refine ⟨?_, rfl, rfl, rfl⟩
    simp only [Reconciler.fuel, hwoken]
    omega
  | compile order hsleeping =>
    refine ⟨?_, rfl, rfl, rfl⟩
    simp only [Reconciler.fuel, hsleeping]
    omega
  | store table hcompiled =>
    refine ⟨?_, rfl, rfl, rfl⟩
    simp only [Reconciler.fuel, hcompiled]
    omega

theorem loop_run {s t : Reconciler m} {more : List TaskStep} (h : taskRun ht m cfg s more = some t)
    (hloop : ∀ x ∈ more, x.isLoop = true) :
    s.fuel = t.fuel + more.length ∧ t.routePending = s.routePending ∧ t.slicePending = s.slicePending := by
  induction more generalizing s with
  | nil =>
    obtain rfl : s = t := by simpa [taskRun] using h
    exact ⟨rfl, rfl, rfl⟩
  | cons x more ih =>
    obtain ⟨u, hx, hrest⟩ := taskRun_cons h
    obtain ⟨hfuel, -, hroute, hslice⟩ := loop_step hx (hloop x (by simp))
    obtain ⟨hfuel', hroute', hslice'⟩ := ih hrest fun y hy => hloop y (by simp [hy])
    refine ⟨?_, hroute'.trans hroute, hslice'.trans hslice⟩
    rw [hfuel, hfuel', List.length_cons]
    omega

/-- The rebuild task is never stuck before it parks. -/
theorem exists_loop_step {s : Reconciler m} (h : s.loop ≠ .parked) :
    ∃ x u, x.isLoop = true ∧ taskStep ht m cfg s x = some u := by
  cases hloop : s.loop with
  | parked => exact absurd hloop h
  | polling =>
    cases hpermit : s.permit with
    | true => exact ⟨.poll, _, rfl, by simp only [taskStep, hloop, hpermit, if_true]; rfl⟩
    | false => exact ⟨.poll, _, rfl, by simp only [taskStep, hloop, hpermit, Bool.false_eq_true, if_false]; rfl⟩
  | woken => exact ⟨.resume, _, rfl, by simp only [taskStep, hloop]; rfl⟩
  | sleeping =>
    exact ⟨.compile s.cluster.values, _, rfl, by simp only [taskStep, hloop, List.Perm.refl, if_true]; rfl⟩
  | compiled table => exact ⟨.store, _, rfl, by simp only [taskStep, hloop]; rfl⟩

/-! ## The published table is of the current state -/

/-- A rebuild is due, or a notification is. -/
def Owed (s : Reconciler m) : Prop := Due s ∨ s.routePending = true ∨ s.slicePending = true

variable (ht cfg) in
/-- The table compiled last was compiled from the state as it is. -/
def Fresh (s : Reconciler m) : Prop :=
  ∃ order, order.Perm s.cluster.values ∧ (s.loop = .compiled (s.cluster.compile ht m cfg order) ∨
    NotCompiled s ∧ s.published = s.cluster.compile ht m cfg order)

/-- The step delivers no event. -/
def TaskStep.delivers : TaskStep → Bool
  | .routeEvent _ | .sliceEvent _ => true
  | _ => false

/-- Between two events, the state is published or there is more to do. -/
theorem owed_or_fresh_step {s s' : Reconciler m} {x : TaskStep} (h : taskStep ht m cfg s x = some s')
    (hx : x.delivers = false) (hs : Owed s ∨ Fresh ht cfg s) : Owed s' ∨ Fresh ht cfg s' := by
  cases moves_of_taskStep h with
  | routeEvent | sliceEvent => cases hx
  | routeWakes | sliceWakes => exact Or.inl (Or.inl (Or.inr (Or.inl rfl)))
  | routePermits | slicePermits => exact Or.inl (Or.inl (Or.inl rfl))
  | takesPermit | resume => exact Or.inl (Or.inl (Or.inr (Or.inr rfl)))
  | parks hpolling hpermit =>
    rcases hs with (hdue | hpending) | ⟨order, hperm, htable⟩
    · -- nothing was due before the task parked
      simp [Due, hpolling, hpermit] at hdue
    · exact Or.inl (Or.inr hpending)
    · rcases htable with htable | ⟨-, htable⟩
      · rw [hpolling] at htable
        cases htable
      · exact Or.inr ⟨order, hperm, Or.inr ⟨by simp [NotCompiled], htable⟩⟩
  | compile order hsleeping hperm => exact Or.inr ⟨order, hperm, Or.inl rfl⟩
  | store table hcompiled =>
    rcases hs with (hdue | hpending) | ⟨order, hperm, htable⟩
    · rcases hdue with hdue | hdue | hdue
      · exact Or.inl (Or.inl (Or.inl hdue))
      · rw [hcompiled] at hdue
        cases hdue
      · rw [hcompiled] at hdue
        cases hdue
    · exact Or.inl (Or.inr hpending)
    · refine Or.inr ⟨order, hperm, Or.inr ⟨by simp [NotCompiled], ?_⟩⟩
      rcases htable with htable | ⟨hnot, -⟩
      · rw [hcompiled] at htable
        exact LoopState.compiled.inj htable
      · exact absurd hcompiled (hnot table)

/-- Once both watches have finished a listing, and nothing more has arrived since. -/
theorem owed_or_fresh_run {s t : Reconciler m} {steps : List TaskStep} (h : taskRun ht m cfg s steps = some t)
    (hroutes : (routeEvents steps).getLast? = some .initDone)
    (hslices : (sliceEvents steps).getLast? = some .initDone) : Owed t ∨ Fresh ht cfg t := by
  induction steps using List.reverseRecOn generalizing t with
  | nil => cases hroutes
  | append_singleton steps x ih =>
    obtain ⟨u, hu, hx⟩ := taskRun_append_singleton h
    cases hdelivers : x.delivers with
    | false =>
      have hnone : routeEvents [x] = [] ∧ sliceEvents [x] = [] := by
        cases x <;> first | exact ⟨rfl, rfl⟩ | cases hdelivers
      rw [routeEvents_append, hnone.1, List.append_nil] at hroutes
      rw [sliceEvents_append, hnone.2, List.append_nil] at hslices
      exact owed_or_fresh_step hx hdelivers (ih hu hroutes hslices)
    | true =>
      -- the listing that ends last asks for a rebuild
      cases moves_of_taskStep hx with
      | routeEvent e =>
        have he : e = .initDone := by simpa [routeEvents, TaskStep.ofRoutes] using hroutes
        subst he
        exact Or.inl (Or.inr (Or.inl rfl))
      | sliceEvent e =>
        have he : e = .initDone := by simpa [sliceEvents, TaskStep.ofSlices] using hslices
        subst he
        exact Or.inl (Or.inr (Or.inr rfl))
      | routeWakes | routePermits | sliceWakes | slicePermits | takesPermit | parks | resume | compile | store =>
        cases hdelivers

theorem parkedIdle_run {s t : Reconciler m} {steps : List TaskStep} (h : taskRun ht m cfg s steps = some t)
    (hs : ParkedIdle s) : ParkedIdle t := by
  induction steps generalizing s with
  | nil =>
    obtain rfl : s = t := by simpa [taskRun] using h
    exact hs
  | cons x steps ih =>
    obtain ⟨u, hx, hrest⟩ := taskRun_cons h
    exact ih hrest (parkedIdle_step hx hs)

theorem getLast?_of_relisting {α : Type} {objects : List α} {events : List (WatchEvent α)}
    (h : relisting objects <:+ events) : events.getLast? = some .initDone := by
  obtain ⟨before, rfl⟩ := h
  rw [relisting, ← List.append_assoc]
  exact List.getLast?_concat

theorem events_of_loop {more : List TaskStep} (h : ∀ x ∈ more, x.isLoop = true) :
    routeEvents more = [] ∧ sliceEvents more = [] := by
  unfold routeEvents sliceEvents
  rw [List.filterMap_eq_nil_iff, List.filterMap_eq_nil_iff]
  refine ⟨fun x hx => ?_, fun x hx => ?_⟩ <;> cases x <;> first | rfl | cases h _ hx

/-- When both watches have ended with a listing and have called `notify_one`, a parked rebuild task has published the
state that the listings describe. -/
theorem published_of_settled {seed : RouteTable m} {steps : List TaskStep} {t : Reconciler m}
    {routes : List RouteObject} {slices : List EndpointSlice}
    (hrun : taskRun ht m cfg (Reconciler.start m seed) steps = some t)
    (hroutes : relisting routes <:+ routeEvents steps) (hslices : relisting slices <:+ sliceEvents steps)
    (hroute : t.routePending = false) (hslice : t.slicePending = false) (hparked : t.loop = .parked) :
    ∃ order, order.Perm (listed routes slices).values ∧
      t.published = (reconcileOnce ht m cfg routes slices order).1 := by
  have hcluster : t.cluster = listed routes slices := by
    rw [cluster_run hrun, foldl_routesAfter_relisting hroutes, foldl_endpointsAfter_relisting hslices]
    rfl
  have hpermit : t.permit = false := parkedIdle_run hrun (fun hstart => by cases hstart) hparked
  rcases owed_or_fresh_run hrun (getLast?_of_relisting hroutes) (getLast?_of_relisting hslices) with
    (hdue | hpending) | ⟨order, hperm, htable⟩
  · simp [Due, hparked, hpermit] at hdue
  · rw [hroute, hslice] at hpending
    rcases hpending with hpending | hpending <;> cases hpending
  · rcases htable with htable | ⟨-, htable⟩
    · rw [hparked] at htable
      cases htable
    · rw [hcluster] at hperm htable
      exact ⟨order, hperm, htable⟩

/-- **The watches converge.**  Whatever the three tasks did before, and however they interleaved: when the last
that each watch delivered is a complete listing, and both have called `notify_one`, then the rebuild task runs on
for at most seven steps until it parks, and the published table is then the one of a one-shot reconcile against
the two listings. -/
theorem watch_converges (seed : RouteTable m) (steps more : List TaskStep) (s t : Reconciler m)
    (routes : List RouteObject) (slices : List EndpointSlice)
    (hrun : taskRun ht m cfg (Reconciler.start m seed) steps = some s)
    (hroutes : relisting routes <:+ routeEvents steps) (hslices : relisting slices <:+ sliceEvents steps)
    (hroute : s.routePending = false) (hslice : s.slicePending = false)
    (hmore : taskRun ht m cfg s more = some t) (hloop : ∀ x ∈ more, x.isLoop = true) :
    more.length ≤ 7 ∧ ((∃ x u, x.isLoop = true ∧ taskStep ht m cfg t x = some u) ∨
      t.loop = .parked ∧ ∃ order, order.Perm (listed routes slices).values ∧
        t.published = (reconcileOnce ht m cfg routes slices order).1) := by
  obtain ⟨hfuel, hroute', hslice'⟩ := loop_run hmore hloop
  obtain ⟨hnoRoutes, hnoSlices⟩ := events_of_loop hloop
  refine ⟨?_, ?_⟩
  · have hle := fuel_le s
    omega
  · by_cases hparked : t.loop = .parked
    · refine Or.inr ⟨hparked, published_of_settled (run_of_append hrun hmore) ?_ ?_ ?_ ?_ hparked⟩
      · rwa [routeEvents_append, hnoRoutes, List.append_nil]
      · rwa [sliceEvents_append, hnoSlices, List.append_nil]
      · rw [hroute', hroute]
      · rw [hslice', hslice]
    · exact Or.inl (exists_loop_step hparked)

/-- A route and its Service are listed while the rebuild task is in its first pass. -/
def listing : List TaskStep :=
  [.poll, .routeEvent .init, .sliceEvent .init, .routeEvent (.initApply relistObject), .routeNotify, .resume,
    .compile [relistRoute], .routeEvent .initDone,
    .sliceEvent (.initApply (sampleSlice (ascii "x-1") (ascii "x") (ascii "10.0.0.1"))), .sliceNotify,
    .routeNotify, .sliceEvent .initDone, .sliceNotify]

/-- The state after the listing. -/
def listingState : Reconciler PathRouter.reference :=
  (taskRun HeaderTypes.reference PathRouter.reference anyGateway
    (.start _ (RouteTableBuilder.buildAll _ [])) listing).get (by decide)

/-- The state after the rebuild task has published the first table and the second. -/
def settledState : Reconciler PathRouter.reference :=
  (taskRun HeaderTypes.reference PathRouter.reference anyGateway listingState
    [.store, .poll, .compile [relistRoute], .store, .poll]).get (by decide)

theorem watch_converges_listing :
    [TaskStep.store, .poll, .compile [relistRoute], .store, .poll].length ≤ 7 ∧
      ((∃ x u, x.isLoop = true ∧
        taskStep HeaderTypes.reference PathRouter.reference anyGateway settledState x = some u) ∨
      settledState.loop = .parked ∧ ∃ order, order.Perm (listed [relistObject]
          [sampleSlice (ascii "x-1") (ascii "x") (ascii "10.0.0.1")]).values ∧
        settledState.published = (reconcileOnce HeaderTypes.reference PathRouter.reference anyGateway [relistObject]
          [sampleSlice (ascii "x-1") (ascii "x") (ascii "10.0.0.1")] order).1) :=
  watch_converges (RouteTableBuilder.buildAll _ []) listing _ listingState settledState _ _
    (Option.some_get _).symm ⟨[], rfl⟩ ⟨[], rfl⟩ rfl rfl (Option.some_get _).symm (by simp [TaskStep.isLoop])

/-! ## Bursts are coalesced -/

/-- The rebuilds that are due already: one for the permit, one for a woken task. -/
def Reconciler.dueRebuilds (s : Reconciler m) : ℕ :=
  (if s.permit then 1 else 0) +
    match s.loop with
    | .woken | .sleeping => 1
    | _ => 0

/-- The step compiles a table. -/
def TaskStep.compiles : TaskStep → Bool
  | .compile _ => true
  | _ => false

theorem dueRebuilds_step {s s' : Reconciler m} {x : TaskStep} (h : taskStep ht m cfg s x = some s') :
    [x].countP TaskStep.compiles + s'.dueRebuilds ≤ [x].countP TaskStep.notifies + s.dueRebuilds := by
  cases moves_of_taskStep h with
  | routeEvent | sliceEvent => exact le_refl _
  | routeWakes _ hparked | sliceWakes _ hparked =>
    simp only [Reconciler.dueRebuilds, hparked, List.countP_singleton, TaskStep.compiles, TaskStep.notifies]
    simp only [Bool.false_eq_true, if_false, if_true]
    omega
  | routePermits | slicePermits =>
    simp only [Reconciler.dueRebuilds, List.countP_singleton, TaskStep.compiles, TaskStep.notifies]
    simp only [Bool.false_eq_true, if_false, if_true]
    split <;> split <;> omega
  | takesPermit hpolling hpermit => simp [Reconciler.dueRebuilds, hpolling, hpermit, TaskStep.compiles, TaskStep.notifies]
  | parks hpolling hpermit => simp [Reconciler.dueRebuilds, hpolling, hpermit, TaskStep.compiles, TaskStep.notifies]
  | resume hwoken => simp [Reconciler.dueRebuilds, hwoken, TaskStep.compiles, TaskStep.notifies]
  | compile order hsleeping =>
    simp only [Reconciler.dueRebuilds, hsleeping, List.countP_singleton, TaskStep.compiles, TaskStep.notifies]
    simp only [Bool.false_eq_true, if_false, if_true]
    omega
  | store table hcompiled => simp [Reconciler.dueRebuilds, hcompiled, TaskStep.compiles, TaskStep.notifies]

/-- Every table is compiled for a notification of its own, or for one that was due already. -/
theorem compiles_add_due_le {s t : Reconciler m} {steps : List TaskStep} (h : taskRun ht m cfg s steps = some t) :
    steps.countP TaskStep.compiles + t.dueRebuilds ≤ steps.countP TaskStep.notifies + s.dueRebuilds := by
  induction steps generalizing s with
  | nil =>
    obtain rfl : s = t := by simpa [taskRun] using h
    exact le_refl _
  | cons x steps ih =>
    obtain ⟨u, hx, hrest⟩ := taskRun_cons h
    have hone := dueRebuilds_step hx
    have hmany := ih hrest
    rw [← List.singleton_append, List.countP_append, List.countP_append]
    omega

/-- The step publishes a table. -/
def TaskStep.stores : TaskStep → Bool
  | .store => true
  | _ => false

/-- One if a compiled table waits to be published. -/
def Reconciler.waiting (s : Reconciler m) : ℕ :=
  match s.loop with
  | .compiled _ => 1
  | _ => 0

theorem waiting_step {s s' : Reconciler m} {x : TaskStep} (h : taskStep ht m cfg s x = some s') :
    [x].countP TaskStep.compiles + s.waiting = [x].countP TaskStep.stores + s'.waiting := by
  cases moves_of_taskStep h with
  | routeEvent | sliceEvent | routePermits | slicePermits => rfl
  | routeWakes _ hfrom | sliceWakes _ hfrom | takesPermit hfrom | parks hfrom | resume hfrom | compile _ hfrom
  | store _ hfrom => simp [Reconciler.waiting, hfrom, TaskStep.compiles, TaskStep.stores]

theorem waiting_run {s t : Reconciler m} {steps : List TaskStep} (h : taskRun ht m cfg s steps = some t) :
    steps.countP TaskStep.compiles + s.waiting = steps.countP TaskStep.stores + t.waiting := by
  induction steps generalizing s with
  | nil =>
    obtain rfl : s = t := by simpa [taskRun] using h
    rfl
  | cons x steps ih =>
    obtain ⟨u, hx, hrest⟩ := taskRun_cons h
    have hone := waiting_step hx
    have hmany := ih hrest
    rw [← List.singleton_append, List.countP_append, List.countP_append]
    omega

theorem due_run {s t : Reconciler m} {steps : List TaskStep} (h : taskRun ht m cfg s steps = some t)
    (hnone : steps.countP TaskStep.compiles = 0) (hs : NotCompiled s)
    (hdue : Due s ∨ 0 < steps.countP TaskStep.notifies) : Due t := by
  induction steps generalizing s with
  | nil =>
    obtain rfl : s = t := by simpa [taskRun] using h
    simpa using hdue
  | cons x steps ih =>
    obtain ⟨u, hx, hrest⟩ := taskRun_cons h
    rw [List.countP_cons] at hnone hdue
    have hlater : steps.countP TaskStep.compiles = 0 := by omega
    rcases taskStep_cases hx with ⟨-, hcomp, hkeep, hnotify⟩ | ⟨order, rfl, -⟩ | ⟨table, -, hcompiled, -⟩
    · refine ih hrest hlater (fun table htable => hs table ((hcomp table).mp htable)) ?_
      rcases hdue with hdue | hdue
      · exact Or.inl (hkeep hdue)
      · by_cases hx : x.notifies = true
        · exact Or.inl (hnotify hx)
        · rw [if_neg hx] at hdue
          exact Or.inr hdue
    · simp [TaskStep.compiles] at hnone
    · exact absurd hcompiled (hs table)

theorem idle_of_parked {seed : RouteTable m} {steps : List TaskStep} {s : Reconciler m}
    (h : taskRun ht m cfg (Reconciler.start m seed) steps = some s) (hparked : s.loop = .parked) :
    ¬ Due s ∧ s.dueRebuilds = 0 ∧ s.waiting = 0 ∧ NotCompiled s := by
  have hpermit : s.permit = false := parkedIdle_run h (fun hstart => by cases hstart) hparked
  simp [Due, Reconciler.dueRebuilds, Reconciler.waiting, NotCompiled, hparked, hpermit]

/-- **Bursts are coalesced.**  From one park of the rebuild task to another, every compiled table is published,
there are at most as many of them as notifications, and at least one if there was any. -/
theorem burst_coalesced (seed : RouteTable m) (before steps : List TaskStep) (s t : Reconciler m)
    (hbefore : taskRun ht m cfg (Reconciler.start m seed) before = some s) (hs : s.loop = .parked)
    (hsteps : taskRun ht m cfg s steps = some t) (ht' : t.loop = .parked) :
    steps.countP TaskStep.stores = steps.countP TaskStep.compiles ∧
      steps.countP TaskStep.compiles ≤ steps.countP TaskStep.notifies ∧
      (0 < steps.countP TaskStep.notifies → 0 < steps.countP TaskStep.compiles) := by
  obtain ⟨-, hdue, hwaiting, hnot⟩ := idle_of_parked hbefore hs
  obtain ⟨hidle, hdue', hwaiting', -⟩ := idle_of_parked (run_of_append hbefore hsteps) ht'
  have hpublished := waiting_run hsteps
  have hcompiled := compiles_add_due_le hsteps
  refine ⟨by omega, by omega, fun hnotified => ?_⟩
  by_contra hnone
  exact hidle (due_run hsteps (by omega) hnot (Or.inr hnotified))

theorem burst_coalesced_burst :
    (burst.drop 1).countP TaskStep.stores = (burst.drop 1).countP TaskStep.compiles ∧
      (burst.drop 1).countP TaskStep.compiles ≤ (burst.drop 1).countP TaskStep.notifies ∧
      (0 < (burst.drop 1).countP TaskStep.notifies → 0 < (burst.drop 1).countP TaskStep.compiles) :=
  burst_coalesced (RouteTableBuilder.buildAll _ []) [.poll] (burst.drop 1)
    { Reconciler.start _ (RouteTableBuilder.buildAll PathRouter.reference []) with loop := .parked } burstState
    rfl rfl (Option.some_get (by decide)).symm rfl

end Reconciler

end LbProxy.Core
