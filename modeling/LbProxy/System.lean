import LbProxy.Lib.HeadParser
import LbProxy.Core.Backends
import LbProxy.Core.Convergence
import LbProxy.Monoio.Worker

/-!
# The controller and the workers of one proxy

The tasks of the controller and the workers share the published table and nothing else.  When `run` returns, it is
started again with an empty state; the tasks of the earlier run that have not ended are detached and go on.

* `System`, `SystemStep`, `systemStep`, `systemRun` — all runs of the controller and all workers, in any interleaving;
* `Backed` — the address comes from a backend of a route that is accepted;
* `requests_reach_backends` — every request is sent on a connection to a backend of a state that a controller had;
* `settled_requests_reach_listed` — after the watches have converged, new requests reach listed backends only.
-/

namespace LbProxy

open Lib LbProxy.Core Monoio

/-- The runs of the controller, the published table and the workers. -/
structure System (m : PathRouter) where
  controllers : List (Reconciler m)
  table : RouteTable m
  workers : List (Worker m)

inductive SystemStep (m : PathRouter) where
  /-- The supervisor starts the controller, for the first time or again. -/
  | supervise
  /-- A step of a task of a run of the controller. -/
  | task (g : ℕ) (x : TaskStep)
  | worker (k : ℕ) (e : WorkerEvent m)

namespace System

variable {m : PathRouter} (ht : HeaderTypes) (cfg : ControllerConfig) (hp : HeadParser) (forwardedHeaders : Bool)

/-- The workers serve a first table, before there is a controller. -/
def start (seed : RouteTable m) (workers : ℕ) : System m := ⟨[], seed, List.replicate workers (.start seed)⟩

/-- All workers load the new table from now on. -/
def publish (s : System m) (table : RouteTable m) : System m :=
  { s with table := table, workers := s.workers.map fun w => { w with table := table } }

end System

/-- The request that a task is sending upstream. -/
def Monoio.Task.request {m : PathRouter} : Task m → Option (Routed m)
  | .exchanging r _ => some r
  | _ => none

/-- The event publishes a table. -/
def Monoio.WorkerEvent.publishes {m : PathRouter} : WorkerEvent m → Bool
  | .publish _ => true
  | _ => false

section System

variable {m : PathRouter} (ht : HeaderTypes) (cfg : ControllerConfig) (hp : HeadParser) (forwardedHeaders : Bool)

/-- One step; `none` if it is not enabled.  Tables are published by the controller only. -/
def systemStep (s : System m) : SystemStep m → Option (System m)
  | .supervise => some { s with controllers := s.controllers ++ [.start m s.table] }
  | .task g x =>
    (s.controllers[g]?).bind fun c => (taskStep ht m cfg c x).map fun c' =>
      let s' := { s with controllers := s.controllers.set g c' }
      if x.stores then s'.publish c'.published else s'
  | .worker k e =>
    if e.publishes then none
    else (s.workers[k]?).map fun w => { s with workers := s.workers.set k (Worker.step hp forwardedHeaders w e) }

/-- A run: the steps of all tasks in the order in which they interleave. -/
def systemRun (s : System m) (steps : List (SystemStep m)) : Option (System m) :=
  steps.foldlM (systemStep ht cfg hp forwardedHeaders) s

variable {ht cfg hp forwardedHeaders}

theorem systemRun_append {s u : System m} {a b : List (SystemStep m)}
    (h : systemRun ht cfg hp forwardedHeaders s (a ++ b) = some u) :
    ∃ t, systemRun ht cfg hp forwardedHeaders s a = some t ∧ systemRun ht cfg hp forwardedHeaders t b = some u := by
  unfold systemRun at h ⊢
  rw [List.foldlM_append] at h
  exact Option.bind_eq_some_iff.mp h

theorem systemRun_concat {s u : System m} {a : List (SystemStep m)} {x : SystemStep m}
    (h : systemRun ht cfg hp forwardedHeaders s (a ++ [x]) = some u) :
    ∃ t, systemRun ht cfg hp forwardedHeaders s a = some t ∧ systemStep ht cfg hp forwardedHeaders t x = some u := by
  obtain ⟨t, ht', hx⟩ := systemRun_append h
  refine ⟨t, ht', ?_⟩
  simpa [systemRun] using hx

variable (ht cfg hp forwardedHeaders) in
/-- The enabled steps and what each of them does. -/
inductive SystemMoves (s : System m) : SystemStep m → System m → Prop
  | supervise : SystemMoves s .supervise { s with controllers := s.controllers ++ [.start m s.table] }
  | moves (g : ℕ) (x : TaskStep) (c c' : Reconciler m) (at_g : s.controllers[g]? = some c)
      (step : taskStep ht m cfg c x = some c') (quiet : x.stores = false) :
      SystemMoves s (.task g x) { s with controllers := s.controllers.set g c' }
  | stores (g : ℕ) (c : Reconciler m) (table : RouteTable m) (at_g : s.controllers[g]? = some c)
      (compiled : c.loop = .compiled table) :
      SystemMoves s (.task g .store)
        (System.publish { s with controllers := s.controllers.set g { c with loop := .polling, published := table } }
          table)
  | idles (k : ℕ) (e : WorkerEvent m) : SystemMoves s (.worker k e) s
  | works (k : ℕ) (e : WorkerEvent m) (w w' : Worker m) (at_k : s.workers[k]? = some w) (own : e.publishes = false)
      (step : Worker.Moves hp forwardedHeaders w e w') :
      SystemMoves s (.worker k e) { s with workers := s.workers.set k w' }

theorem systemMoves_of_step {s s' : System m} {x : SystemStep m}
    (h : systemStep ht cfg hp forwardedHeaders s x = some s') : SystemMoves ht cfg hp forwardedHeaders s x s' := by
  cases x with
  | supervise =>
    obtain rfl := Option.some.inj h
    exact .supervise
  | task g x =>
    obtain ⟨c, hc, h⟩ := Option.bind_eq_some_iff.mp h
    obtain ⟨c', hstep, rfl⟩ := Option.map_eq_some_iff.mp h
    cases hstores : x.stores with
    | false =>
      simp only [Bool.false_eq_true, if_false]
      exact .moves g x c c' hc hstep hstores
    | true =>
      simp only [if_true]
      cases moves_of_taskStep hstep with
      | store table hcompiled => exact .stores g c table hc hcompiled
      | routeEvent | sliceEvent | routeWakes | routePermits | sliceWakes | slicePermits | takesPermit | parks | resume
      | compile => cases hstores
  | worker k e =>
    simp only [systemStep] at h
    split at h
    · cases h
    · rename_i hown
      obtain ⟨w, hw, rfl⟩ := Option.map_eq_some_iff.mp h
      rcases Worker.moves_of_step hp forwardedHeaders w e with heq | hmoves
      · obtain ⟨hk, rfl⟩ := List.getElem?_eq_some_iff.mp hw
        rw [heq, List.set_getElem_self]
        exact .idles k e
      · exact .works k e w _ hw (by simpa using hown) hmoves

/-! ## Where a table comes from -/

variable (ht cfg hp forwardedHeaders) in
/-- The first table, or one compiled from a state that a controller had in the run. -/
def Sourced (seed : RouteTable m) (workers : ℕ) (steps : List (SystemStep m)) (table : RouteTable m) : Prop :=
  table = seed ∨ ∃ before after s c order, steps = before ++ after ∧
    systemRun ht cfg hp forwardedHeaders (System.start seed workers) before = some s ∧ c ∈ s.controllers ∧
      order.Perm c.cluster.values ∧ table = c.cluster.compile ht m cfg order

theorem Sourced.append {seed table : RouteTable m} {workers : ℕ} {steps : List (SystemStep m)}
    (h : Sourced ht cfg hp forwardedHeaders seed workers steps table) (more : List (SystemStep m)) :
    Sourced ht cfg hp forwardedHeaders seed workers (steps ++ more) table := by
  rcases h with rfl | ⟨before, after, s, c, order, rfl, hrun, hc, hperm, htable⟩
  · exact .inl rfl
  · exact .inr ⟨before, after ++ more, s, c, order, List.append_assoc _ _ _, hrun, hc, hperm, htable⟩

variable (ht cfg hp forwardedHeaders) in
/-- Every table in use or about to be has a source, and every worker is in order. -/
structure Served (seed : RouteTable m) (workers : ℕ) (steps : List (SystemStep m)) (s : System m) : Prop where
  table : Sourced ht cfg hp forwardedHeaders seed workers steps s.table
  compiled : ∀ c ∈ s.controllers, ∀ table, c.loop = .compiled table →
    Sourced ht cfg hp forwardedHeaders seed workers steps table
  current : ∀ w ∈ s.workers, w.table = s.table
  owned : ∀ w ∈ s.workers, w.Owned
  follows : ∀ w ∈ s.workers, ∀ se ∈ w.sessions, Worker.Follows hp forwardedHeaders se
  among : ∀ w ∈ s.workers, Worker.Among (Sourced ht cfg hp forwardedHeaders seed workers steps) w

theorem served_start (seed : RouteTable m) (workers : ℕ) :
    Served ht cfg hp forwardedHeaders seed workers [] (.start seed workers) := by
  have hworker : ∀ w ∈ (System.start seed workers).workers, w = .start seed := fun w hw => List.eq_of_mem_replicate hw
  refine ⟨.inl rfl, (fun c hc => by cases hc), fun w hw => ?_, fun w hw => ?_, fun w hw se hse => ?_, fun w hw => ?_⟩
  · rw [hworker w hw]
    rfl
  · rw [hworker w hw]
    exact Worker.owned_start seed
  · rw [hworker w hw] at hse
    cases hse
  · rw [hworker w hw]
    exact ⟨.inl rfl, fun se hse => by cases hse⟩

theorem among_mono {P Q : RouteTable m → Prop} {w : Worker m} (h : ∀ table, P table → Q table)
    (hw : Worker.Among P w) : Worker.Among Q w :=
  ⟨h _ hw.1, fun se hse table htable => h _ (hw.2 se hse table htable)⟩

theorem table_of_moves {w w' : Worker m} {e : WorkerEvent m} (h : Worker.Moves hp forwardedHeaders w e w')
    (hown : e.publishes = false) : w'.table = w.table := by
  cases h with
  | publish => cases hown
  | accept | stops | takes | dials | connects | refused | finishes => rfl

theorem served_step {seed : RouteTable m} {workers : ℕ} {steps : List (SystemStep m)} {s s' : System m}
    {x : SystemStep m} (hrun : systemRun ht cfg hp forwardedHeaders (.start seed workers) steps = some s)
    (hx : systemStep ht cfg hp forwardedHeaders s x = some s')
    (h : Served ht cfg hp forwardedHeaders seed workers steps s) :
    Served ht cfg hp forwardedHeaders seed workers (steps ++ [x]) s' := by
  have hmono : ∀ table, Sourced ht cfg hp forwardedHeaders seed workers steps table →
      Sourced ht cfg hp forwardedHeaders seed workers (steps ++ [x]) table := fun _ htable => htable.append [x]
  cases systemMoves_of_step hx with
  | supervise =>
    refine ⟨hmono _ h.table, fun c hc table hcompiled => ?_, h.current, h.owned, h.follows,
      fun w hw => among_mono hmono (h.among w hw)⟩
    rcases List.mem_append.mp hc with hc | hc
    · exact hmono _ (h.compiled c hc table hcompiled)
    · rw [List.mem_singleton.mp hc] at hcompiled
      cases hcompiled
  | moves g y c c' hg hstep hquiet =>
    refine ⟨hmono _ h.table, fun d hd table hcompiled => ?_, h.current, h.owned, h.follows,
      fun w hw => among_mono hmono (h.among w hw)⟩
    have hc := List.mem_of_getElem? hg
    rcases List.mem_or_eq_of_mem_set hd with hd | rfl
    · exact hmono _ (h.compiled d hd table hcompiled)
    · rcases taskStep_cases hstep with ⟨-, hsame, -⟩ | ⟨order, -, hperm, -, hloop⟩ | ⟨_, rfl, -⟩
      · exact hmono _ (h.compiled c hc table ((hsame table).mp hcompiled))
      · -- the state is compiled as it is now
        rw [hloop] at hcompiled
        exact .inr ⟨steps, _, s, c, order, rfl, hrun, hc, hperm, (LoopState.compiled.inj hcompiled).symm⟩
      · cases hquiet
  | stores g c table hg hcompiled =>
    have hsourced := hmono _ (h.compiled c (List.mem_of_getElem? hg) table hcompiled)
    refine ⟨hsourced, fun d hd table' hcompiled' => ?_, fun w hw => ?_, fun w hw => ?_, fun w hw => ?_, fun w hw => ?_⟩
    · rcases List.mem_or_eq_of_mem_set hd with hd | rfl
      · exact hmono _ (h.compiled d hd table' hcompiled')
      · cases hcompiled'
    all_goals obtain ⟨w₀, hw₀, rfl⟩ := List.mem_map.mp hw
    · rfl
    · exact (h.owned w₀ hw₀).moves hp forwardedHeaders (.publish table)
    · exact h.follows w₀ hw₀
    · exact ⟨hsourced, (among_mono hmono (h.among w₀ hw₀)).2⟩
  | idles k e =>
    exact ⟨hmono _ h.table, fun c hc table hcompiled => hmono _ (h.compiled c hc table hcompiled), h.current, h.owned,
      h.follows, fun w hw => among_mono hmono (h.among w hw)⟩
  | works k e w w' hk hown hmoves =>
    have hw := List.mem_of_getElem? hk
    refine ⟨hmono _ h.table, fun c hc table hcompiled => hmono _ (h.compiled c hc table hcompiled),
      fun v hv => ?_, fun v hv => ?_, fun v hv => ?_, fun v hv => ?_⟩
    all_goals rcases List.mem_or_eq_of_mem_set hv with hv | rfl
    · exact h.current v hv
    · exact (table_of_moves hmoves hown).trans (h.current w hw)
    · exact h.owned v hv
    · exact (h.owned w hw).moves hp forwardedHeaders hmoves
    · exact h.follows v hv
    · exact Worker.follows_moves hmoves (h.follows w hw)
    · exact among_mono hmono (h.among v hv)
    · refine (among_mono hmono (h.among w hw)).moves hmoves fun table htable => ?_
      subst htable
      cases hown

theorem served_run {seed : RouteTable m} {workers : ℕ} {steps : List (SystemStep m)} {s : System m}
    (h : systemRun ht cfg hp forwardedHeaders (.start seed workers) steps = some s) :
    Served ht cfg hp forwardedHeaders seed workers steps s := by
  induction steps using List.reverseRecOn generalizing s with
  | nil =>
    obtain rfl : System.start seed workers = s := by simpa [systemRun] using h
    exact served_start seed workers
  | append_singleton steps x ih =>
    obtain ⟨t, hrun, hx⟩ := systemRun_concat h
    exact served_step hrun hx (ih hrun)

/-! ## Where a request goes -/

/-- The address comes from a backend of positive weight of a rule of an accepted route, or the rule has no such
backend and the address is the placeholder. -/
def Backed (cfg : ControllerConfig) (st : ClusterState) (address : Bytes) : Prop :=
  ∃ stored ∈ st.values, ClusterState.routeIsOurs cfg stored = true ∧ ∃ (i : ℕ) (rule : HttpRouteRule),
    stored.spec.rules[i]? = some rule ∧ rule.backendRefs ≠ [] ∧ (Configured st stored.ns rule address ∨
      (∀ b ∈ rule.backendRefs, b.weight.getD 1 ≤ 0) ∧ address = ascii "127.0.0.1:80")

/-- The table selects the address for the request. -/
def Selects (table : RouteTable m) (head : RequestHead) (ticket : ℕ) (address : Bytes) : Prop :=
  ∃ action target, table.lookup head.host (pathOf head.target) = some action ∧
    action.targetGroup.select ticket = some target ∧ target.address = address

/-- A compiled table selects backends of its state only. -/
theorem backed_of_selects (hm : m.Laws) {st : ClusterState} {order : List StoredRoute} {head : RequestHead} {ticket : ℕ}
    {address : Bytes} (horder : order.Perm st.values)
    (h : Selects (st.compile ht m cfg order) head ticket address) : Backed cfg st address := by
  obtain ⟨action, target, hlookup, hselect, rfl⟩ := h
  obtain ⟨stored, hstored, hours, i, rule, hrule, hne, hostname, -, pm, -, k, rfl⟩ := exists_rule_of_lookup hm hlookup
  refine ⟨stored, horder.mem_iff.mp hstored, hours, i, rule, hrule, hne, ?_⟩
  by_cases hlive : ∃ b ∈ rule.backendRefs, 0 < b.weight.getD 1
  · exact .inl ((configured_iff k).mpr hlive ticket target hselect)
  · refine .inr ⟨fun b hb => ?_, ?_⟩
    · by_contra hpos
      exact hlive ⟨b, hb, by omega⟩
    · have hnil : TargetGroup.live (ruleEndpoints st stored.ns rule) = [] := by
        by_contra hlive'
        exact hlive (live_ruleEndpoints_ne_nil.mp hlive')
      have hplaceholder := select_of_live_eq_nil hnil k ticket
      change (TargetGroup.fromEndpoints k (ruleEndpoints st stored.ns rule)).select ticket = some target at hselect
      rw [hplaceholder] at hselect
      rw [← Option.some.inj hselect]

variable (ht cfg hp forwardedHeaders)

/-- **Every request is sent to a backend that a controller knew.**  In every interleaving of the workers, the watches,
the rebuilds and the restarts of the controller: a request that a worker is exchanging uses a connection that was opened
for the address its route selected, from the first table or for a backend of an accepted route in a state that a
controller had before. -/
theorem requests_reach_backends (hm : m.Laws) (seed : RouteTable m) (workers : ℕ) (steps : List (SystemStep m))
    (s : System m) (hrun : systemRun ht cfg hp forwardedHeaders (.start seed workers) steps = some s) :
    ∀ w ∈ s.workers, ∀ i r upstream, w.Holds i r upstream → w.opened[upstream.id]? = some r.address ∧
      (Selects seed r.head r.ticket r.address ∨
        ∃ before after t c, steps = before ++ after ∧
          systemRun ht cfg hp forwardedHeaders (.start seed workers) before = some t ∧ c ∈ t.controllers ∧
            Backed cfg c.cluster r.address) := by
  rintro w hw i r upstream hold
  have hserved := served_run hrun
  obtain ⟨se, hse, htask⟩ := hold
  refine ⟨(hserved.owned w hw).held_address ⟨se, hse, htask⟩, ?_⟩
  have hmem := List.mem_of_getElem? hse
  have hfollows := hserved.follows w hw se hmem
  rw [Worker.Follows, htask] at hfollows
  have hselects : Selects r.table r.head r.ticket r.address := hfollows.2.selected
  have hsourced : Sourced ht cfg hp forwardedHeaders seed workers steps r.table := by
    refine (hserved.among w hw).2 se hmem r.table ?_
    rw [Worker.tables, htask]
    simp
  rcases hsourced with hseed | ⟨before, after, t, c, order, rfl, hbefore, hc, hperm, htable⟩
  · exact .inl (hseed ▸ hselects)
  · rw [htable] at hselects
    exact .inr ⟨before, after, t, c, rfl, hbefore, hc, backed_of_selects hm hperm hselects⟩

/-- The controller is started, both watches list one object, and the rebuild task publishes twice and parks. -/
def converging : List (SystemStep PathRouter.reference) :=
  .supervise :: (listing ++ [TaskStep.store, .poll, .compile [relistRoute], .store, .poll]).map (.task 0)

/-- A client sends one request; there is no idle connection, and the worker opens one. -/
def firstRequest : List (SystemStep PathRouter.reference) :=
  [.worker 0 (.accept ⟨⟨[ascii "GET / HTTP/1.1\r\n\r\n"], .idle, false⟩, ⟨[], none⟩⟩ .sample),
    .worker 0 (.request 0 7 fun _ => 0), .worker 0 (.connected 0 (some ⟨⟨[], .idle, false⟩, ⟨[], none⟩⟩))]

/-- One worker that serves no routes until the controller has converged. -/
def convergedSystem : System PathRouter.reference :=
  (systemRun HeaderTypes.reference anyGateway HeadParser.reference true
    (.start (RouteTableBuilder.buildAll _ []) 1) converging).get (by decide +kernel)

/-- The request is sent upstream. -/
def requestedSystem : System PathRouter.reference :=
  (systemRun HeaderTypes.reference anyGateway HeadParser.reference true convergedSystem firstRequest).get
    (by decide +kernel)

/-- The controller that has converged. -/
def convergedController : Reconciler PathRouter.reference := convergedSystem.controllers.head (by decide +kernel)

/-- The worker of it. -/
def requestedWorker : Worker PathRouter.reference := requestedSystem.workers.head (by decide +kernel)

theorem exists_requested :
    ∃ r upstream, requestedWorker.Holds 0 r upstream ∧ r.address = ascii "10.0.0.1:80" := by
  have hsome : (requestedWorker.sessions[0]?).isSome = true := by decide +kernel
  obtain ⟨se, hse⟩ := Option.isSome_iff_exists.mp hsome
  have hsent : ((requestedWorker.sessions[0]?).bind fun se => se.task.request).map (·.address) =
      some (ascii "10.0.0.1:80") := by
    decide +kernel
  rw [hse] at hsent
  cases htask : se.task with
  | exchanging r upstream =>
    simp only [Option.bind_some, htask, Task.request, Option.map_some, Option.some.injEq] at hsent
    exact ⟨r, upstream, ⟨se, hse, htask⟩, hsent⟩
  | reading | dialling | ended => simp [htask, Task.request] at hsent

theorem requests_reach_backends_first :
    ∃ r upstream, requestedWorker.Holds 0 r upstream ∧ requestedWorker.opened[upstream.id]? = some r.address ∧
      (Selects (RouteTableBuilder.buildAll PathRouter.reference []) r.head r.ticket r.address ∨
        ∃ before after t c, converging ++ firstRequest = before ++ after ∧
          systemRun HeaderTypes.reference anyGateway HeadParser.reference true
            (.start (RouteTableBuilder.buildAll PathRouter.reference []) 1) before = some t ∧ c ∈ t.controllers ∧
            Backed anyGateway c.cluster r.address) := by
  obtain ⟨r, upstream, hold, -⟩ := exists_requested
  refine ⟨r, upstream, hold, requests_reach_backends HeaderTypes.reference anyGateway HeadParser.reference true
    PathRouter.reference_laws _ 1 (converging ++ firstRequest) requestedSystem ?_ requestedWorker
    (List.head_mem _) 0 r upstream hold⟩
  rw [systemRun, List.foldlM_append]
  exact Option.bind_eq_some_iff.mpr ⟨convergedSystem, (Option.some_get _).symm, (Option.some_get _).symm⟩

variable {ht cfg hp forwardedHeaders}

/-! ## New requests after the watches have converged -/

/-- The step of a task of the controller. -/
def SystemStep.ofTask : SystemStep m → Option TaskStep
  | .task _ x => some x
  | _ => none

/-- The steps of the controller in a run. -/
def taskSteps (steps : List (SystemStep m)) : List TaskStep := steps.filterMap SystemStep.ofTask

/-- The step is one of a worker. -/
def SystemStep.ofWorker : SystemStep m → Bool
  | .worker _ _ => true
  | _ => false

/-- The task works on the request, since its backend was selected. -/
def Serves (w : Worker m) (i : ℕ) (r : Routed m) : Prop :=
  ∃ se, w.sessions[i]? = some se ∧ (se.task = .dialling r ∨ ∃ upstream, se.task = .exchanging r upstream)

theorem solo_run {seed : RouteTable m} {workers : ℕ} {steps : List (SystemStep m)} {s : System m}
    (h : systemRun ht cfg hp forwardedHeaders (.start seed workers) steps = some s) (hsolo : s.controllers.length ≤ 1) :
    (s.controllers = [] ∧ s.table = seed ∧ taskSteps steps = []) ∨
      ∃ c, s.controllers = [c] ∧ taskRun ht m cfg (.start m seed) (taskSteps steps) = some c ∧
        s.table = c.published := by
  induction steps using List.reverseRecOn generalizing s with
  | nil =>
    obtain rfl : System.start seed workers = s := by simpa [systemRun] using h
    exact .inl ⟨rfl, rfl, rfl⟩
  | append_singleton steps x ih =>
    obtain ⟨t, hrun, hx⟩ := systemRun_concat h
    have hsame : x.ofTask = none → taskSteps (steps ++ [x]) = taskSteps steps := by
      intro hnone
      simp [taskSteps, hnone]
    -- a step of the only run of the controller
    have hstep : ∀ {c c' : Reconciler m} {g : ℕ} {y : TaskStep}, x = .task g y → t.controllers[g]? = some c →
        t.controllers.length ≤ 1 → taskStep ht m cfg c y = some c' →
          t.controllers.set g c' = [c'] ∧ t.table = c.published ∧
            taskRun ht m cfg (.start m seed) (taskSteps (steps ++ [x])) = some c' := by
      rintro c c' g y rfl hg hlen hy
      have hsteps : taskSteps (steps ++ [.task g y]) = taskSteps steps ++ [y] := by
        simp [taskSteps, SystemStep.ofTask]
      rcases ih hrun hlen with ⟨hnil, -⟩ | ⟨d, hd, hrun', htable⟩
      · rw [hnil] at hg
        cases hg
      · rw [hd, List.getElem?_singleton] at hg
        split at hg
        · rename_i hzero
          obtain rfl := Option.some.inj hg
          refine ⟨by rw [hd, hzero]; rfl, htable, ?_⟩
          rw [hsteps]
          refine run_of_append hrun' ?_
          simpa [taskRun] using hy
        · cases hg
    cases systemMoves_of_step hx with
    | supervise =>
      rw [List.length_append] at hsolo
      rcases ih hrun (by omega) with ⟨hnil, htable, hsteps⟩ | ⟨c, hc, -⟩
      · refine .inr ⟨.start m t.table, by rw [hnil]; rfl, ?_, rfl⟩
        rw [hsame rfl, hsteps, htable]
        rfl
      · rw [hc] at hsolo
        simp at hsolo
    | moves g y c c' hg hy hquiet =>
      rw [List.length_set] at hsolo
      obtain ⟨hset, htable, hrun'⟩ := hstep rfl hg hsolo hy
      refine .inr ⟨c', hset, hrun', htable.trans ?_⟩
      rcases taskStep_cases hy with ⟨hpub, -⟩ | ⟨_, -, -, hpub, -⟩ | ⟨_, rfl, -⟩
      · exact hpub.symm
      · exact hpub.symm
      · cases hquiet
    | stores g c table hg hcompiled =>
      rw [System.publish, List.length_set] at hsolo
      have hy : taskStep ht m cfg c .store = some { c with loop := .polling, published := table } := by
        simp only [taskStep, hcompiled]
      obtain ⟨hset, -, hrun'⟩ := hstep rfl hg hsolo hy
      exact .inr ⟨_, hset, hrun', rfl⟩
    | idles k e | works k e =>
      rw [hsame rfl]
      have hold := ih hrun hsolo
      exact hold

/-- A step of a worker only starts to work on requests that its table routes. -/
theorem serves_of_moves {w w' : Worker m} {e : WorkerEvent m} (h : Worker.Moves hp forwardedHeaders w e w')
    {i : ℕ} {r : Routed m} (hr : Serves w' i r) :
    Serves w i r ∨ (r.table = w.table ∧ Worker.RoutedFrom hp r) := by
  obtain ⟨se, hse, htask⟩ := hr
  -- the session that was replaced works on `r`, or another one does as before
  have hset : ∀ {j : ℕ} {se' : Session m}, (w.sessions.set j se')[i]? = some se →
      (j = i ∧ se' = se) ∨ Serves w i r := by
    intro j se' hat
    rcases getElem?_set_cases hat with ⟨rfl, rfl⟩ | ⟨-, hold⟩
    · exact .inl ⟨rfl, rfl⟩
    · exact .inr ⟨se, hold, htask⟩
  cases h with
  | publish table => exact .inl ⟨se, hse, htask⟩
  | accept client peer =>
    rw [List.getElem?_append] at hse
    split at hse
    · exact .inl ⟨se, hse, htask⟩
    · rw [List.mem_singleton.mp (List.mem_of_getElem? hse)] at htask
      rcases htask with htask | ⟨_, htask⟩ <;> cases htask
  | stops | refused =>
    rcases hset hse with ⟨-, rfl⟩ | hold
    · rcases htask with htask | ⟨_, htask⟩ <;> cases htask
    · exact .inl hold
  | takes j ticket now se' r' upstream pool hj hreading _ htable hrouted =>
    rcases hset hse with ⟨-, rfl⟩ | hold
    · rcases htask with htask | ⟨_, htask⟩
      · cases htask
      · obtain ⟨rfl, -⟩ := Task.exchanging.inj htask
        exact .inr ⟨htable, hrouted⟩
    · exact .inl hold
  | dials j ticket now se' r' hj hreading _ htable hrouted =>
    rcases hset hse with ⟨-, rfl⟩ | hold
    · rcases htask with htask | ⟨_, htask⟩
      · obtain rfl := Task.dialling.inj htask
        exact .inr ⟨htable, hrouted⟩
      · cases htask
    · exact .inl hold
  | connects j conn se' r' hj hdial =>
    rcases hset hse with ⟨rfl, rfl⟩ | hold
    · rcases htask with htask | ⟨_, htask⟩
      · cases htask
      · obtain ⟨rfl, -⟩ := Task.exchanging.inj htask
        exact .inl ⟨se', hj, .inl hdial⟩
    · exact .inl hold
  | finishes j now se' r' upstream hj hex =>
    rcases hset hse with ⟨-, rfl⟩ | hold
    · simp only [Worker.finish, Session.advance] at htask
      split at htask <;> rcases htask with htask | ⟨_, htask⟩ <;> cases htask
    · exact .inl hold

/-- While only workers run, they start to work on requests that the published table routes, and on no others. -/
theorem serves_of_worker_run {s t : System m} {more : List (SystemStep m)} (hcurrent : ∀ w ∈ s.workers, w.table = s.table)
    (hmore : ∀ x ∈ more, x.ofWorker = true) (h : systemRun ht cfg hp forwardedHeaders s more = some t) :
    (t.table = s.table ∧ ∀ w ∈ t.workers, w.table = t.table) ∧
      ∀ (k : ℕ) (w : Worker m), t.workers[k]? = some w → ∀ i r, Serves w i r →
        (∃ w₀, s.workers[k]? = some w₀ ∧ Serves w₀ i r) ∨ Selects s.table r.head r.ticket r.address := by
  induction more using List.reverseRecOn generalizing t with
  | nil =>
    obtain rfl : s = t := by simpa [systemRun] using h
    exact ⟨⟨rfl, hcurrent⟩, fun k w hw i r hr => .inl ⟨w, hw, hr⟩⟩
  | append_singleton more x ih =>
    obtain ⟨u, hrun, hx⟩ := systemRun_concat h
    obtain ⟨⟨htable, hcur⟩, hold⟩ := ih (fun y hy => hmore y (by simp [hy])) hrun
    have hlast : x.ofWorker = true := hmore x (by simp)
    cases systemMoves_of_step hx with
    | supervise | moves | stores => cases hlast
    | idles k e => exact ⟨⟨htable, hcur⟩, hold⟩
    | works k e w w' hk hown hmoves =>
      have hsame := table_of_moves hmoves hown
      refine ⟨⟨htable, fun v hv => ?_⟩, fun j v hv i r hr => ?_⟩
      · rcases List.mem_or_eq_of_mem_set hv with hv | rfl
        · exact hcur v hv
        · exact hsame.trans (hcur w (List.mem_of_getElem? hk))
      · rcases getElem?_set_cases hv with ⟨rfl, rfl⟩ | ⟨-, hv⟩
        · rcases serves_of_moves hmoves hr with hbefore | ⟨hrtable, hrouted⟩
          · exact hold j w hk i r hbefore
          · rw [hcur w (List.mem_of_getElem? hk), htable] at hrtable
            exact .inr (hrtable ▸ hrouted.selected)
        · exact hold j v hv i r hr

variable (ht cfg hp forwardedHeaders)

/-- **New requests reach listed backends only.**  When the controller has run once, both watches have ended with a
listing and called `notify_one`, and the rebuild task is parked, then, however the workers go on, every request they
have started to work on since is sent to a backend of an accepted route in these listings. -/
theorem settled_requests_reach_listed (hm : m.Laws) (seed : RouteTable m) (workers : ℕ)
    (steps more : List (SystemStep m)) (s t : System m) (c : Reconciler m) (routes : List RouteObject)
    (slices : List EndpointSlice)
    (hrun : systemRun ht cfg hp forwardedHeaders (.start seed workers) steps = some s) (hsolo : s.controllers = [c])
    (hroutes : relisting routes <:+ routeEvents (taskSteps steps))
    (hslices : relisting slices <:+ sliceEvents (taskSteps steps)) (hroute : c.routePending = false)
    (hslice : c.slicePending = false) (hparked : c.loop = .parked) (hmore : ∀ x ∈ more, x.ofWorker = true)
    (hgo : systemRun ht cfg hp forwardedHeaders s more = some t) :
    ∀ (k : ℕ) (w : Worker m), t.workers[k]? = some w → ∀ i r, Serves w i r →
      (∃ w₀, s.workers[k]? = some w₀ ∧ Serves w₀ i r) ∨ Backed cfg (listed routes slices) r.address := by
  intro k w hw i r hr
  rcases (serves_of_worker_run (served_run hrun).current hmore hgo).2 k w hw i r hr with hold | hselects
  · exact .inl hold
  · rcases solo_run hrun (by rw [hsolo]; simp) with ⟨hnil, -⟩ | ⟨d, hd, hctrl, htable⟩
    · rw [hnil] at hsolo
      cases hsolo
    · obtain rfl : d = c := by rw [hd] at hsolo; exact (List.cons.inj hsolo).1
      obtain ⟨order, hperm, hpublished⟩ := published_of_settled hctrl hroutes hslices hroute hslice hparked
      rw [htable, hpublished] at hselects
      exact .inr (backed_of_selects hm hperm hselects)

theorem settled_requests_reach_listed_first :
    ∃ r, Serves requestedWorker 0 r ∧ ((∃ w₀, convergedSystem.workers[0]? = some w₀ ∧ Serves w₀ 0 r) ∨
      Backed anyGateway (listed [relistObject] [sampleSlice (ascii "x-1") (ascii "x") (ascii "10.0.0.1")])
        r.address) := by
  obtain ⟨r, upstream, ⟨se, hse, htask⟩, -⟩ := exists_requested
  have hserves : Serves requestedWorker 0 r := ⟨se, hse, .inr ⟨upstream, htask⟩⟩
  refine ⟨r, hserves, settled_requests_reach_listed HeaderTypes.reference anyGateway HeadParser.reference true
    PathRouter.reference_laws (RouteTableBuilder.buildAll _ []) 1 converging firstRequest convergedSystem
    requestedSystem convergedController _ _ (Option.some_get _).symm ?_ ⟨[], rfl⟩ ⟨[], rfl⟩ rfl rfl rfl ?_
    (Option.some_get _).symm 0 requestedWorker ?_ 0 r hserves⟩
  · rfl
  · simp [firstRequest, SystemStep.ofWorker]
  · rfl

end System

end LbProxy
