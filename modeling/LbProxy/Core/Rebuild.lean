import LbProxy.Core.Controller

/-!
# No update is lost on the way to the published table

The rebuild task with its wait taken apart: `notified()` either finds a stored permit or parks the task, and
`notify_one` wakes the parked task or stores the one permit.

* `Reconciler`, `TaskStep`, `taskStep`, `taskRun` — the atomic steps of the three tasks, and `Moves`, the same
  steps as rules;
* `simulated_by_controller` — every run publishes what some run of `Controller` publishes, so what was proved
  of those runs holds here;
* `Completed` — the event at a position of a run was written and its `notify_one` has returned;
* `no_update_lost` — whenever the rebuild task is parked without a stored permit, the published table was
  compiled from a state with every completed event.
-/

namespace LbProxy.Core

open Lib

/-- Where the rebuild task stands. -/
inductive LoopState (m : PathRouter) where
  /-- About to call `notified()`. -/
  | polling
  /-- Parked, without a notification. -/
  | parked
  /-- Notified while it was parked. -/
  | woken
  /-- In the debounce sleep. -/
  | sleeping
  /-- A table is compiled, and not published yet. -/
  | compiled (table : RouteTable m)

/-- The shared state, the stored permit of the `Notify`, and where the tasks stand. -/
structure Reconciler (m : PathRouter) where
  cluster : ClusterState
  permit : Bool
  /-- The HTTPRoute task has written an event and not called `notify_one` yet. -/
  routePending : Bool
  /-- The EndpointSlice task has written an event and not called `notify_one` yet. -/
  slicePending : Bool
  loop : LoopState m
  published : RouteTable m

/-- An atomic step of one of the tasks. -/
inductive TaskStep where
  | routeEvent (e : WatchEvent RouteObject)
  | routeNotify
  | sliceEvent (e : WatchEvent EndpointSlice)
  | sliceNotify
  /-- The rebuild task calls `notified()`. -/
  | poll
  /-- The woken rebuild task runs on. -/
  | resume
  | compile (order : List StoredRoute)
  | store

/-- `notify_one`: wake the parked task, else store the permit. -/
def Reconciler.notifyOne {m : PathRouter} (s : Reconciler m) : Reconciler m :=
  match s.loop with
  | .parked => { s with loop := .woken }
  | _ => { s with permit := true }

section Reconciler

variable (ht : HeaderTypes) (m : PathRouter) (cfg : ControllerConfig)

/-- The tasks when they start, next to a table that is published already. -/
def Reconciler.start (seed : RouteTable m) : Reconciler m := ⟨⟨∅, ∅⟩, false, false, false, .polling, seed⟩

/-- One step; `none` if it is not enabled. -/
def taskStep (s : Reconciler m) : TaskStep → Option (Reconciler m)
  | .routeEvent e =>
    if s.routePending then none
    else some { s with cluster := (watchHttproutes s.cluster e).1, routePending := (watchHttproutes s.cluster e).2 }
  | .routeNotify => if s.routePending then some { s.notifyOne with routePending := false } else none
  | .sliceEvent e =>
    if s.slicePending then none
    else some { s with
      cluster := (watchEndpointslices s.cluster e).1, slicePending := (watchEndpointslices s.cluster e).2 }
  | .sliceNotify => if s.slicePending then some { s.notifyOne with slicePending := false } else none
  | .poll =>
    match s.loop with
    | .polling => if s.permit then some { s with permit := false, loop := .sleeping } else some { s with loop := .parked }
    | _ => none
  | .resume =>
    match s.loop with
    | .woken => some { s with loop := .sleeping }
    | _ => none
  | .compile order =>
    match s.loop with
    | .sleeping =>
      if order.Perm s.cluster.values then some { s with loop := .compiled (s.cluster.compile ht m cfg order) }
      else none
    | _ => none
  | .store =>
    match s.loop with
    | .compiled table => some { s with loop := .polling, published := table }
    | _ => none

/-- A run: the steps of the three tasks in the order in which they interleave. -/
def taskRun (s : Reconciler m) (steps : List TaskStep) : Option (Reconciler m) :=
  steps.foldlM (taskStep ht m cfg) s

variable {ht m cfg}

theorem taskRun_append_singleton {s t : Reconciler m} {a : List TaskStep} {x : TaskStep}
    (h : taskRun ht m cfg s (a ++ [x]) = some t) :
    ∃ u, taskRun ht m cfg s a = some u ∧ taskStep ht m cfg u x = some t := by
  unfold taskRun at h ⊢
  rw [List.foldlM_append] at h
  obtain ⟨u, hu, hx⟩ := Option.bind_eq_some_iff.mp h
  refine ⟨u, hu, ?_⟩
  simpa using hx

/-- The enabled steps and what each of them does. -/
inductive Moves (ht : HeaderTypes) (m : PathRouter) (cfg : ControllerConfig) (s : Reconciler m) :
    TaskStep → Reconciler m → Prop
  | routeEvent (e : WatchEvent RouteObject) (free : s.routePending = false) :
      Moves ht m cfg s (.routeEvent e) { s with
        cluster := (watchHttproutes s.cluster e).1, routePending := (watchHttproutes s.cluster e).2 }
  | sliceEvent (e : WatchEvent EndpointSlice) (free : s.slicePending = false) :
      Moves ht m cfg s (.sliceEvent e) { s with
        cluster := (watchEndpointslices s.cluster e).1, slicePending := (watchEndpointslices s.cluster e).2 }
  | routeWakes (pending : s.routePending = true) (parked : s.loop = .parked) :
      Moves ht m cfg s .routeNotify { s with loop := .woken, routePending := false }
  | routePermits (pending : s.routePending = true) (busy : s.loop ≠ .parked) :
      Moves ht m cfg s .routeNotify { s with permit := true, routePending := false }
  | sliceWakes (pending : s.slicePending = true) (parked : s.loop = .parked) :
      Moves ht m cfg s .sliceNotify { s with loop := .woken, slicePending := false }
  | slicePermits (pending : s.slicePending = true) (busy : s.loop ≠ .parked) :
      Moves ht m cfg s .sliceNotify { s with permit := true, slicePending := false }
  | takesPermit (polling : s.loop = .polling) (permit : s.permit = true) :
      Moves ht m cfg s .poll { s with permit := false, loop := .sleeping }
  | parks (polling : s.loop = .polling) (permit : s.permit = false) :
      Moves ht m cfg s .poll { s with loop := .parked }
  | resume (woken : s.loop = .woken) : Moves ht m cfg s .resume { s with loop := .sleeping }
  | compile (order : List StoredRoute) (sleeping : s.loop = .sleeping) (perm : order.Perm s.cluster.values) :
      Moves ht m cfg s (.compile order) { s with loop := .compiled (s.cluster.compile ht m cfg order) }
  | store (table : RouteTable m) (compiled : s.loop = .compiled table) :
      Moves ht m cfg s .store { s with loop := .polling, published := table }

theorem moves_of_taskStep {s s' : Reconciler m} {x : TaskStep} (h : taskStep ht m cfg s x = some s') :
    Moves ht m cfg s x s' := by
  have hnotify : (s.loop = .parked ∧ s.notifyOne = { s with loop := .woken }) ∨
      (s.loop ≠ .parked ∧ s.notifyOne = { s with permit := true }) := by
    unfold Reconciler.notifyOne
    cases hloop : s.loop <;> simp
  cases x with
  | routeEvent e =>
    simp only [taskStep] at h
    split at h
    · cases h
    · rename_i hfree
      obtain rfl := Option.some.inj h
      exact .routeEvent e (by simpa using hfree)
  | sliceEvent e =>
    simp only [taskStep] at h
    split at h
    · cases h
    · rename_i hfree
      obtain rfl := Option.some.inj h
      exact .sliceEvent e (by simpa using hfree)
  | routeNotify =>
    simp only [taskStep] at h
    split at h
    · rename_i hpending
      obtain rfl := Option.some.inj h
      rcases hnotify with ⟨hparked, heq⟩ | ⟨hbusy, heq⟩
      · rw [heq]
        exact .routeWakes hpending hparked
      · rw [heq]
        exact .routePermits hpending hbusy
    · cases h
  | sliceNotify =>
    simp only [taskStep] at h
    split at h
    · rename_i hpending
      obtain rfl := Option.some.inj h
      rcases hnotify with ⟨hparked, heq⟩ | ⟨hbusy, heq⟩
      · rw [heq]
        exact .sliceWakes hpending hparked
      · rw [heq]
        exact .slicePermits hpending hbusy
    · cases h
  | poll =>
    simp only [taskStep] at h
    split at h
    · rename_i hpolling
      split at h
      · rename_i hpermit
        obtain rfl := Option.some.inj h
        exact .takesPermit hpolling hpermit
      · rename_i hpermit
        obtain rfl := Option.some.inj h
        exact .parks hpolling (by simpa using hpermit)
    · cases h
  | resume =>
    simp only [taskStep] at h
    split at h
    · rename_i hwoken
      obtain rfl := Option.some.inj h
      exact .resume hwoken
    · cases h
  | compile order =>
    simp only [taskStep] at h
    split at h
    · rename_i hsleeping
      split at h
      · rename_i hperm
        obtain rfl := Option.some.inj h
        exact .compile order hsleeping hperm
      · cases h
    · cases h
  | store =>
    simp only [taskStep] at h
    split at h
    · rename_i table hcompiled
      obtain rfl := Option.some.inj h
      exact .store table hcompiled
    · cases h

/-! ## What a step does to the rebuild task -/

/-- A rebuild is due: the permit is stored, or the task is on its way to compile. -/
def Due (s : Reconciler m) : Prop := s.permit = true ∨ s.loop = .woken ∨ s.loop = .sleeping

/-- The step is a `notify_one`. -/
def TaskStep.notifies : TaskStep → Bool
  | .routeNotify | .sliceNotify => true
  | _ => false

/-- No table is compiled and waits to be published. -/
def NotCompiled (s : Reconciler m) : Prop := ∀ table, s.loop ≠ .compiled table

/-- Steps that neither compile nor publish keep a due rebuild due, a `notify_one` makes one due, and `compile`
and `store` hand the table on. -/
theorem taskStep_cases {s s' : Reconciler m} {x : TaskStep} (h : taskStep ht m cfg s x = some s') :
    (s'.published = s.published ∧ (∀ table, s'.loop = .compiled table ↔ s.loop = .compiled table) ∧
        (Due s → Due s') ∧ (x.notifies = true → Due s')) ∨
      (∃ order, x = .compile order ∧ order.Perm s.cluster.values ∧ s'.published = s.published ∧
        s'.loop = .compiled (s.cluster.compile ht m cfg order)) ∨
      (∃ table, x = .store ∧ s.loop = .compiled table ∧ s'.published = table ∧ s'.loop = .polling ∧
        s'.permit = s.permit) := by
  have hfalse : ∀ {l : LoopState m} {table}, s.loop = l → l ≠ .compiled table → s.loop ≠ .compiled table :=
    fun hl hne hc => hne (hl.symm.trans hc)
  cases moves_of_taskStep h with
  | routeEvent e | sliceEvent e =>
    exact Or.inl ⟨rfl, fun _ => Iff.rfl, fun hd => hd, fun hn => by cases hn⟩
  | routeWakes _ hparked | sliceWakes _ hparked =>
    exact Or.inl ⟨rfl, fun table => iff_of_false (by simp) (hfalse hparked (by simp)),
      fun _ => Or.inr (Or.inl rfl), fun _ => Or.inr (Or.inl rfl)⟩
  | routePermits | slicePermits =>
    exact Or.inl ⟨rfl, fun _ => Iff.rfl, fun _ => Or.inl rfl, fun _ => Or.inl rfl⟩
  | takesPermit hpolling _ =>
    exact Or.inl ⟨rfl, fun table => iff_of_false (by simp) (hfalse hpolling (by simp)),
      fun _ => Or.inr (Or.inr rfl), fun hn => by cases hn⟩
  | parks hpolling hpermit =>
    refine Or.inl ⟨rfl, fun table => iff_of_false (by simp) (hfalse hpolling (by simp)), fun hd => ?_,
      fun hn => by cases hn⟩
    -- nothing was due before the task parked
    simp [Due, hpolling, hpermit] at hd
  | resume hwoken =>
    exact Or.inl ⟨rfl, fun table => iff_of_false (by simp) (hfalse hwoken (by simp)),
      fun _ => Or.inr (Or.inr rfl), fun hn => by cases hn⟩
  | compile order _ hperm => exact Or.inr (Or.inl ⟨order, rfl, hperm, rfl, rfl⟩)
  | store table hcompiled => exact Or.inr (Or.inr ⟨table, rfl, hcompiled, rfl, rfl, rfl⟩)

/-! ## The last compiled state has every completed event -/

/-- The event at position `i` was written to the state, and a later `notify_one` of its task has returned. -/
def Completed (steps : List TaskStep) (i : ℕ) : Prop :=
  ∃ j, i < j ∧ (((∃ e, steps[i]? = some (.routeEvent e)) ∧ steps[j]? = some .routeNotify) ∨
    ((∃ e, steps[i]? = some (.sliceEvent e)) ∧ steps[j]? = some .sliceNotify))

theorem Completed.of_append {steps : List TaskStep} {x : TaskStep} {i : ℕ} (h : Completed (steps ++ [x]) i) :
    Completed steps i ∨ x.notifies = true := by
  obtain ⟨j, hij, h⟩ := h
  by_cases hj : j < steps.length
  · refine Or.inl ⟨j, hij, ?_⟩
    rwa [List.getElem?_append_left hj, List.getElem?_append_left (by omega)] at h
  · -- the notification is the last step
    have hlast : ∀ y, (steps ++ [x])[j]? = some y → x = y := by
      intro y hy
      rw [List.getElem?_append_right (not_lt.mp hj), List.getElem?_singleton] at hy
      split at hy
      · exact Option.some.inj hy
      · cases hy
    rcases h with ⟨-, h⟩ | ⟨-, h⟩
    · rw [hlast _ h]
      exact Or.inr rfl
    · rw [hlast _ h]
      exact Or.inr rfl

theorem not_completed_of_last {steps : List TaskStep} {order : List StoredRoute} {i : ℕ}
    (hi : steps.length ≤ i) : ¬ Completed (steps ++ [.compile order]) i := by
  have hat : ∀ y, (steps ++ [.compile order])[i]? = some y → y = .compile order := by
    intro y hy
    rw [List.getElem?_append_right hi, List.getElem?_singleton] at hy
    split at hy
    · exact (Option.some.inj hy).symm
    · cases hy
  rintro ⟨j, -, ⟨⟨e, he⟩, -⟩ | ⟨⟨e, he⟩, -⟩⟩
  · cases hat _ he
  · cases hat _ he

variable (ht cfg) in
/-- The steps so far and the state they lead to: the last compiled table is published, or about to be, and a
rebuild is due if a completed event came after the state it was compiled from. -/
def Covered (seed : RouteTable m) (steps : List TaskStep) (s : Reconciler m) : Prop :=
  (NotCompiled s ∧ ((∃ x ∈ steps, x.notifies = true) → Due s)) ∨
    ∃ n s' order, n ≤ steps.length ∧ taskRun ht m cfg (Reconciler.start m seed) (steps.take n) = some s' ∧
      order.Perm s'.cluster.values ∧
      (s.loop = .compiled (s'.cluster.compile ht m cfg order) ∨
        NotCompiled s ∧ s.published = s'.cluster.compile ht m cfg order) ∧
      ∀ i, n ≤ i → Completed steps i → Due s

theorem covered_step {seed : RouteTable m} {steps : List TaskStep} {s s' : Reconciler m} {x : TaskStep}
    (hrun : taskRun ht m cfg (Reconciler.start m seed) steps = some s)
    (hx : taskStep ht m cfg s x = some s') (h : Covered ht cfg seed steps s) :
    Covered ht cfg seed (steps ++ [x]) s' := by
  rcases taskStep_cases hx with ⟨hpub, hcomp, hdue, hnotify⟩ | ⟨order, rfl, hperm, -, hloop⟩ |
    ⟨table, rfl, hloop, hpub, hpolling, hpermit⟩
  · -- an event, a notification, or a move of the rebuild task
    have hnot : NotCompiled s → NotCompiled s' := fun hn table ht => hn table ((hcomp table).mp ht)
    rcases h with ⟨hn, hd⟩ | ⟨n, u, order, hlen, hu, hperm, htable, hd⟩
    · refine Or.inl ⟨hnot hn, ?_⟩
      rintro ⟨y, hy, hyn⟩
      rcases List.mem_append.mp hy with hy | hy
      · exact hdue (hd ⟨y, hy, hyn⟩)
      · exact hnotify (List.mem_singleton.mp hy ▸ hyn)
    · refine Or.inr ⟨n, u, order, ?_, ?_, hperm, ?_, ?_⟩
      · rw [List.length_append]
        omega
      · rwa [List.take_append_of_le_length hlen]
      · rcases htable with htable | ⟨hn, htable⟩
        · exact Or.inl ((hcomp _).mpr htable)
        · exact Or.inr ⟨hnot hn, hpub.trans htable⟩
      · intro i hi hc
        rcases hc.of_append with hc | hn
        · exact hdue (hd i hi hc)
        · exact hnotify hn
  · -- the state is compiled as it is now
    refine Or.inr ⟨steps.length, s, order, by simp, ?_, hperm, Or.inl hloop, ?_⟩
    · rwa [List.take_left]
    · intro i hi hc
      exact absurd hc (not_completed_of_last hi)
  · -- the compiled table is published
    have hdue : Due s → Due s' := by
      rintro (hd | hd | hd)
      · exact Or.inl (hpermit.trans hd)
      · rw [hloop] at hd
        cases hd
      · rw [hloop] at hd
        cases hd
    have hn' : NotCompiled s' := by
      intro table' htable'
      rw [hpolling] at htable'
      cases htable'
    rcases h with ⟨hn, -⟩ | ⟨n, u, order, hlen, hu, hperm, htable, hd⟩
    · exact absurd hloop (hn table)
    · refine Or.inr ⟨n, u, order, ?_, ?_, hperm, Or.inr ⟨hn', ?_⟩, ?_⟩
      · rw [List.length_append]
        omega
      · rwa [List.take_append_of_le_length hlen]
      · rcases htable with htable | ⟨hn, -⟩
        · rw [hloop] at htable
          rw [hpub]
          exact LoopState.compiled.inj htable
        · exact absurd hloop (hn table)
      · intro i hi hc
        rcases hc.of_append with hc | hn
        · exact hdue (hd i hi hc)
        · cases hn

theorem covered_run {seed : RouteTable m} {steps : List TaskStep} {s : Reconciler m}
    (h : taskRun ht m cfg (Reconciler.start m seed) steps = some s) : Covered ht cfg seed steps s := by
  induction steps using List.reverseRecOn generalizing s with
  | nil =>
    obtain rfl : Reconciler.start m seed = s := by simpa [taskRun] using h
    refine Or.inl ⟨?_, ?_⟩
    · intro table htable
      cases htable
    · rintro ⟨x, hx, -⟩
      simp at hx
  | append_singleton steps x ih =>
    obtain ⟨u, hu, hx⟩ := taskRun_append_singleton h
    exact covered_step hu hx (ih hu)

/-- **No update is lost.**  In every interleaving: when the rebuild task is parked in `notified()` without a
stored permit and some `notify_one` has returned, the published table is the compilation of the state after
some first part of the run, and that part has every event whose `notify_one` has returned. -/
theorem no_update_lost (seed : RouteTable m) (steps : List TaskStep) (s : Reconciler m)
    (h : taskRun ht m cfg (Reconciler.start m seed) steps = some s) (hparked : s.loop = .parked)
    (hpermit : s.permit = false) (hnotified : .routeNotify ∈ steps ∨ .sliceNotify ∈ steps) :
    ∃ n s' order, n ≤ steps.length ∧
      taskRun ht m cfg (Reconciler.start m seed) (steps.take n) = some s' ∧ order.Perm s'.cluster.values ∧
      s.published = s'.cluster.compile ht m cfg order ∧ ∀ i, Completed steps i → i < n := by
  have hidle : ¬ Due s := by
    rintro (hd | hd | hd)
    · rw [hpermit] at hd
      cases hd
    · rw [hparked] at hd
      cases hd
    · rw [hparked] at hd
      cases hd
  rcases covered_run h with ⟨-, hd⟩ | ⟨n, s', order, hlen, hrun, hperm, htable, hd⟩
  · rcases hnotified with hn | hn
    · exact absurd (hd ⟨_, hn, rfl⟩) hidle
    · exact absurd (hd ⟨_, hn, rfl⟩) hidle
  · refine ⟨n, s', order, hlen, hrun, hperm, ?_, ?_⟩
    · rcases htable with htable | ⟨-, htable⟩
      · rw [hparked] at htable
        cases htable
      · exact htable
    · intro i hc
      by_contra hi
      exact hidle (hd i (not_lt.mp hi) hc)

/-- A route wakes the parked task, an EndpointSlice stores the permit before the task runs on, and the task
rebuilds twice. -/
def burst : List TaskStep :=
  [.poll, .routeEvent (.apply relistObject), .routeNotify,
    .sliceEvent (.apply (sampleSlice (ascii "x-1") (ascii "x") (ascii "10.0.0.1"))), .sliceNotify, .resume,
    .compile [relistRoute], .store, .poll, .compile [relistRoute], .store, .poll]

/-- The state after the burst. -/
def burstState : Reconciler PathRouter.reference :=
  (taskRun HeaderTypes.reference PathRouter.reference anyGateway
    (.start _ (RouteTableBuilder.buildAll _ [])) burst).get (by decide)

theorem no_update_lost_burst :
    ∃ n s' order, n ≤ burst.length ∧
      taskRun HeaderTypes.reference PathRouter.reference anyGateway
        (.start _ (RouteTableBuilder.buildAll _ [])) (burst.take n) = some s' ∧
      order.Perm s'.cluster.values ∧
      burstState.published = s'.cluster.compile HeaderTypes.reference _ anyGateway order ∧
      ∀ i, Completed burst i → i < n :=
  no_update_lost (RouteTableBuilder.buildAll _ []) burst burstState (Option.some_get _).symm rfl rfl
    (Or.inl (by simp [burst]))

/-! ## The coarser controller -/

/-- The controller as the other properties of the rebuild see it: a woken task sleeps already. -/
def Reconciler.toController (s : Reconciler m) : Controller m where
  cluster := s.cluster
  permit := s.permit
  routePending := s.routePending
  slicePending := s.slicePending
  rebuild :=
    match s.loop with
    | .polling | .parked => .waiting
    | .woken | .sleeping => .debouncing
    | .compiled table => .compiled table
  published := s.published

/-- The action of the controller that a step shows; the wait of the rebuild task is hidden. -/
def TaskStep.shown : TaskStep → Option Action
  | .routeEvent e => some (.routeEvent e)
  | .routeNotify => some .routeNotify
  | .sliceEvent e => some (.sliceEvent e)
  | .sliceNotify => some .sliceNotify
  | .poll | .resume => none
  | .compile order => some (.compile order)
  | .store => some .store

def Action.isWake : Action → Bool
  | .wake => true
  | _ => false

/-- A task is parked only without a permit. -/
def ParkedIdle (s : Reconciler m) : Prop := s.loop = .parked → s.permit = false

theorem parkedIdle_step {s s' : Reconciler m} {x : TaskStep} (h : taskStep ht m cfg s x = some s')
    (hp : ParkedIdle s) : ParkedIdle s' := by
  cases moves_of_taskStep h with
  | routeEvent e | sliceEvent e => exact hp
  | routePermits _ hbusy | slicePermits _ hbusy => exact fun hparked => absurd hparked hbusy
  | parks _ hpermit => exact fun _ => hpermit
  | routeWakes | sliceWakes | takesPermit | resume | compile | store =>
    intro hparked
    cases hparked

theorem run_singleton (s : Controller m) (x : Action) : run ht m cfg s [x] = step ht m cfg s x := by
  simp [run]

theorem run_pair {s u t : Controller m} {x y : Action} (hx : step ht m cfg s x = some u)
    (hy : step ht m cfg u y = some t) : run ht m cfg s [x, y] = some t := by
  simp [run, hx, hy]

/-- **A step is at most one shown action of the controller and one `wake`.** -/
theorem exists_actions_of_step {s s' : Reconciler m} {x : TaskStep} (h : taskStep ht m cfg s x = some s')
    (hp : ParkedIdle s) :
    ∃ actions, run ht m cfg s.toController actions = some s'.toController ∧
      actions.filter (!·.isWake) = x.shown.toList := by
  cases moves_of_taskStep h with
  | routeEvent e hfree =>
    refine ⟨[.routeEvent e], ?_, rfl⟩
    rw [run_singleton, step]
    exact if_neg (by simp [Reconciler.toController, hfree])
  | sliceEvent e hfree =>
    refine ⟨[.sliceEvent e], ?_, rfl⟩
    rw [run_singleton, step]
    exact if_neg (by simp [Reconciler.toController, hfree])
  | routeWakes hpending hparked =>
    -- the parked task wakes at once
    have hnotify : step ht m cfg s.toController .routeNotify = some _ := if_pos hpending
    refine ⟨[.routeNotify, .wake], run_pair hnotify ?_, rfl⟩
    simp only [step, Reconciler.toController, hparked, if_true, hp hparked]
  | sliceWakes hpending hparked =>
    have hnotify : step ht m cfg s.toController .sliceNotify = some _ := if_pos hpending
    refine ⟨[.sliceNotify, .wake], run_pair hnotify ?_, rfl⟩
    simp only [step, Reconciler.toController, hparked, if_true, hp hparked]
  | routePermits hpending =>
    refine ⟨[.routeNotify], ?_, rfl⟩
    rw [run_singleton, step]
    exact if_pos hpending
  | slicePermits hpending =>
    refine ⟨[.sliceNotify], ?_, rfl⟩
    rw [run_singleton, step]
    exact if_pos hpending
  | takesPermit hpolling hpermit =>
    refine ⟨[.wake], ?_, rfl⟩
    rw [run_singleton]
    simp only [step, Reconciler.toController, hpolling, hpermit, if_true]
  | parks hpolling =>
    refine ⟨[], ?_, rfl⟩
    simp only [run, List.foldlM_nil, Reconciler.toController, hpolling]
    rfl
  | resume hwoken =>
    refine ⟨[], ?_, rfl⟩
    simp only [run, List.foldlM_nil, Reconciler.toController, hwoken]
    rfl
  | compile order hsleeping hperm =>
    refine ⟨[.compile order], ?_, rfl⟩
    rw [run_singleton]
    simp only [step, Reconciler.toController, hsleeping, hperm, if_true]
  | store table hcompiled =>
    refine ⟨[.store], ?_, rfl⟩
    rw [run_singleton]
    simp only [step, Reconciler.toController, hcompiled]

/-- **Every run of the tasks publishes what a run of the controller publishes**: it reaches the state that some run of
`Controller` with the same events, notifications, compilations and stores reaches. -/
theorem simulated_by_controller {seed : RouteTable m} {steps : List TaskStep} {s : Reconciler m}
    (h : taskRun ht m cfg (Reconciler.start m seed) steps = some s) :
    ∃ actions, run ht m cfg (Controller.start m seed) actions = some s.toController ∧
      actions.filter (!·.isWake) = steps.filterMap TaskStep.shown := by
  suffices hboth : ParkedIdle s ∧ ∃ actions, run ht m cfg (Controller.start m seed) actions = some s.toController ∧
      actions.filter (!·.isWake) = steps.filterMap TaskStep.shown from hboth.2
  induction steps using List.reverseRecOn generalizing s with
  | nil =>
    obtain rfl : Reconciler.start m seed = s := by simpa [taskRun] using h
    refine ⟨?_, [], rfl, rfl⟩
    intro hparked
    cases hparked
  | append_singleton steps x ih =>
    obtain ⟨u, hu, hx⟩ := taskRun_append_singleton h
    obtain ⟨hp, before, hbefore, hshown⟩ := ih hu
    obtain ⟨after, hafter, hshown'⟩ := exists_actions_of_step hx hp
    refine ⟨parkedIdle_step hx hp, before ++ after, ?_, ?_⟩
    · rw [run, List.foldlM_append]
      exact Option.bind_eq_some_iff.mpr ⟨_, hbefore, hafter⟩
    · rw [List.filter_append, hshown, hshown', List.filterMap_append]
      cases x <;> rfl

end Reconciler

end LbProxy.Core
