import LbProxy.Core.Backends
import LbProxy.Lib.Runs
import Mathlib.Logic.Function.Basic

/-!
# Requests and rebuilds around the shared cursors

Callers look a route up in the published table and later select from the group they found; a rebuild
publishes a new table, with fresh cursors, while callers hold groups of the old one.

* `Balancer`, `BalancerEvent`, `step`, `run` — the tables, the cursor cells and the callers, in any
  interleaving;
* `Drawn`, `drawn_run` — the selections of one group carry consecutive tickets, whoever made them;
* `selections_fair` — so every window of as many selections as the weights add up to is exactly fair;
* `Undisturbed`, `rebuilds_keep_balance` — rebuilds keep equal endpoints within one request of each other, if
  each is published at the end of a cycle and while no caller holds a group.
-/

namespace LbProxy.Core

open Lib RouteTableBuilder ClusterState TargetGroup

/-! ## The machine -/

/-- What one selection drew and returned. -/
structure Selection where
  generation : ℕ
  cell : ℕ
  ticket : ℕ
  endpoint : Option BackendEndpoint

/-- The published table, how many tables were published before it, the cursor cells of each generation, the
group that each caller has looked up, and the selections so far. -/
structure Balancer (m : PathRouter) where
  table : RouteTable m
  generation : ℕ
  cells : ℕ → ℕ → ℕ
  held : ℕ → Option (ℕ × TargetGroup)
  log : List Selection

inductive BalancerEvent (m : PathRouter) where
  /-- A caller loads the table and looks a route up. -/
  | lookup (caller : ℕ) (host : Option Bytes) (path : Bytes)
  /-- A caller selects from the group it found. -/
  | select (caller : ℕ)
  /-- A new table is published. -/
  | store (table : RouteTable m)

/-- Every policy but the single destination draws a ticket. -/
def TargetGroup.drawsTicket (g : TargetGroup) : Bool :=
  match g.policy with
  | .single _ => false
  | _ => true

namespace Balancer

variable {m : PathRouter}

/-- A table is published, and nobody has asked for anything. -/
def new (table : RouteTable m) : Balancer m := ⟨table, 0, fun _ _ => 0, fun _ => none, []⟩

/-- `fetch_add(1)` on a 64-bit cell. -/
def fetchAdd (cells : ℕ → ℕ → ℕ) (generation cell : ℕ) : ℕ → ℕ → ℕ :=
  Function.update cells generation
    (Function.update (cells generation) cell ((cells generation cell + 1) % 2 ^ 64))

/-- A selection from a group of a generation, by a caller that then holds nothing. -/
def selectFrom (s : Balancer m) (caller generation : ℕ) (g : TargetGroup) : Balancer m :=
  { s with
    cells := if g.drawsTicket then fetchAdd s.cells generation g.cursor else s.cells
    held := Function.update s.held caller none
    log := s.log ++ [⟨generation, g.cursor, s.cells generation g.cursor,
      g.select (s.cells generation g.cursor)⟩] }

/-- One event. -/
def step (s : Balancer m) : BalancerEvent m → Balancer m
  | .lookup caller host path =>
    let found := (s.table.lookup host path).map fun a => (s.generation, a.targetGroup)
    { s with held := Function.update s.held caller found }
  | .select caller =>
    match s.held caller with
    | some (generation, g) => s.selectFrom caller generation g
    | none => s
  | .store table => { s with table := table, generation := s.generation + 1 }

/-- A sequence of events. -/
def run (s : Balancer m) (events : List (BalancerEvent m)) : Balancer m := events.foldl step s

/-- The selections from one group, in the order of their tickets. -/
def drawn (s : Balancer m) (generation cell : ℕ) : List Selection :=
  s.log.filter fun x => x.generation = generation ∧ x.cell = cell

theorem run_append_singleton (s : Balancer m) (events : List (BalancerEvent m)) (e : BalancerEvent m) :
    s.run (events ++ [e]) = (s.run events).step e := by
  simp [run]

theorem drawn_selectFrom (s : Balancer m) (caller generation : ℕ) (g : TargetGroup) (n k : ℕ) :
    (s.selectFrom caller generation g).drawn n k = s.drawn n k ++
      if generation = n ∧ g.cursor = k then
        [⟨generation, g.cursor, s.cells generation g.cursor, g.select (s.cells generation g.cursor)⟩]
      else [] := by
  unfold drawn selectFrom
  rw [List.filter_append]
  by_cases h : generation = n ∧ g.cursor = k
  · simp [h]
  · simp [h]

/-! ## Tickets of one group are consecutive -/

/-- What holds of the selections from the group `g` of a generation: they carry consecutive tickets, and the
cell holds the next one. -/
structure Drawn (generation : ℕ) (g : TargetGroup) (s : Balancer m) : Prop where
  cell : g.drawsTicket = true →
    s.cells generation g.cursor = (s.drawn generation g.cursor).length % 2 ^ 64
  ticket : ∀ j x, (s.drawn generation g.cursor)[j]? = some x →
    (g.drawsTicket = true → x.ticket = j % 2 ^ 64) ∧ x.endpoint = g.select x.ticket

theorem fetchAdd_of_ne {cells : ℕ → ℕ → ℕ} {n k n' k' : ℕ} (h : ¬ (n = n' ∧ k = k')) :
    fetchAdd cells n k n' k' = cells n' k' := by
  unfold fetchAdd
  by_cases hn : n' = n
  · subst hn
    have hk : k' ≠ k := fun hk => h ⟨rfl, hk.symm⟩
    rw [Function.update_self, Function.update_of_ne hk]
  · rw [Function.update_of_ne hn]

theorem Drawn.selectFrom_other {generation : ℕ} {g : TargetGroup} {s : Balancer m}
    (h : Drawn generation g s) {caller n : ℕ} {g' : TargetGroup}
    (hne : ¬ (n = generation ∧ g'.cursor = g.cursor)) : Drawn generation g (s.selectFrom caller n g') := by
  have hdrawn : (s.selectFrom caller n g').drawn generation g.cursor = s.drawn generation g.cursor := by
    rw [drawn_selectFrom, if_neg hne, List.append_nil]
  have hcells : (s.selectFrom caller n g').cells generation g.cursor = s.cells generation g.cursor := by
    unfold selectFrom
    simp only
    split
    · exact fetchAdd_of_ne hne
    · rfl
  constructor
  · rw [hdrawn, hcells]
    exact h.cell
  · rw [hdrawn]
    exact h.ticket

theorem Drawn.selectFrom_self {generation : ℕ} {g : TargetGroup} {s : Balancer m}
    (h : Drawn generation g s) (caller : ℕ) : Drawn generation g (s.selectFrom caller generation g) := by
  have hdrawn : (s.selectFrom caller generation g).drawn generation g.cursor =
      s.drawn generation g.cursor ++ [⟨generation, g.cursor, s.cells generation g.cursor,
        g.select (s.cells generation g.cursor)⟩] := by
    rw [drawn_selectFrom, if_pos ⟨rfl, rfl⟩]
  constructor
  · intro hdraws
    have hcells : (s.selectFrom caller generation g).cells generation g.cursor =
        (s.cells generation g.cursor + 1) % 2 ^ 64 := by
      unfold selectFrom fetchAdd
      simp only [hdraws, if_true, Function.update_self]
    rw [hcells, hdrawn, List.length_append, List.length_singleton, h.cell hdraws]
    omega
  · intro j x hj
    rw [hdrawn] at hj
    by_cases hlt : j < (s.drawn generation g.cursor).length
    · rw [List.getElem?_append_left hlt] at hj
      exact h.ticket j x hj
    · rw [List.getElem?_append_right (not_lt.mp hlt)] at hj
      obtain ⟨hzero, hx⟩ : j - (s.drawn generation g.cursor).length = 0 ∧ _ = x := by
        simpa [List.getElem?_singleton] using hj
      subst hx
      refine ⟨fun hdraws => ?_, rfl⟩
      have hlen : j = (s.drawn generation g.cursor).length := by omega
      simp only
      rw [h.cell hdraws, hlen]

section Run

variable {specs : List RouteSpec}

/-- Callers of the first generation hold groups of the specs. -/
structure Holds (specs : List RouteSpec) (s : Balancer m) : Prop where
  table : s.generation = 0 → s.table = buildAll m specs
  held : ∀ caller g, s.held caller = some (0, g) →
    ∃ k spec, specs[k]? = some spec ∧ g = fromEndpoints k spec.endpoints

theorem holds_step (hm : m.Laws) {s : Balancer m} (h : Holds specs s) (e : BalancerEvent m) :
    Holds specs (s.step e) := by
  cases e with
  | lookup caller host path =>
    refine ⟨h.table, fun c g hg => ?_⟩
    simp only [step] at hg
    by_cases hc : c = caller
    · subst hc
      rw [Function.update_self] at hg
      obtain ⟨a, ha, hpair⟩ := Option.map_eq_some_iff.mp hg
      obtain ⟨hgen, rfl⟩ := Prod.mk.inj hpair
      rw [h.table hgen] at ha
      obtain ⟨k, spec, hk, rfl⟩ := exists_spec_of_lookup hm ha
      exact ⟨k, spec, hk, rfl⟩
    · rw [Function.update_of_ne hc] at hg
      exact h.held c g hg
  | select caller =>
    simp only [step]
    split
    · refine ⟨h.table, fun c g hg => ?_⟩
      simp only [selectFrom] at hg
      by_cases hc : c = caller
      · subst hc
        rw [Function.update_self] at hg
        cases hg
      · rw [Function.update_of_ne hc] at hg
        exact h.held c g hg
    · exact h
  | store table => exact ⟨fun hgen => absurd hgen (Nat.succ_ne_zero _), h.held⟩

theorem drawn_step {s : Balancer m} {k : ℕ} {spec : RouteSpec} (hk : specs[k]? = some spec)
    (hholds : Holds specs s) (h : Drawn 0 (fromEndpoints k spec.endpoints) s) (e : BalancerEvent m) :
    Drawn 0 (fromEndpoints k spec.endpoints) (s.step e) := by
  cases e with
  | lookup caller host path => exact ⟨h.cell, h.ticket⟩
  | store table => exact ⟨h.cell, h.ticket⟩
  | select caller =>
    simp only [step]
    split
    · rename_i n g hheld
      by_cases hsame : n = 0 ∧ g.cursor = k
      · -- the cell tells the group
        obtain ⟨rfl, hcursor⟩ := hsame
        obtain ⟨k', spec', hk', rfl⟩ := hholds.held caller g hheld
        obtain rfl : k' = k := hcursor
        obtain rfl : spec' = spec := Option.some.inj (hk'.symm.trans hk)
        exact h.selectFrom_self caller
      · exact h.selectFrom_other hsame
    · exact h

/-- **In every run the selections of a route carry consecutive tickets.** -/
theorem drawn_run (hm : m.Laws) {k : ℕ} {spec : RouteSpec} (hk : specs[k]? = some spec)
    (events : List (BalancerEvent m)) :
    Holds specs ((new (buildAll m specs)).run events) ∧
      Drawn 0 (fromEndpoints k spec.endpoints) ((new (buildAll m specs)).run events) := by
  induction events using List.reverseRecOn with
  | nil =>
    refine ⟨⟨fun _ => rfl, fun c g hg => by cases hg⟩, ⟨fun _ => rfl, fun j x hx => ?_⟩⟩
    simp [run, new, drawn] at hx
  | append_singleton events e ih =>
    rw [run_append_singleton]
    exact ⟨holds_step hm ih.1 e, drawn_step hk ih.1 ih.2 e⟩

end Run

/-! ## Windows of selections -/

theorem position_eq_of_single {endpoints : List BackendEndpoint} {cursor : ℕ}
    (h : (fromEndpoints cursor endpoints).drawsTicket = false) (t t' : ℕ) :
    position endpoints t = position endpoints t' := by
  have hcycle : (fromEndpoints 0 endpoints).cycle = [0] := by
    have hpolicy : ∀ k, (fromEndpoints k endpoints).policy = policyOf endpoints := fun _ => rfl
    rw [drawsTicket, hpolicy] at h
    rw [cycle, hpolicy]
    cases hp : policyOf endpoints with
    | single ep => rfl
    | roundRobin eps => rw [hp] at h; cases h
    | weighted eps table => rw [hp] at h; cases h
  simp only [position, hcycle, cyclic, List.length_singleton, Nat.mod_one]

/-- A window of selections shows the positions of as many consecutive tickets. -/
theorem Drawn.window {generation cursor : ℕ} {endpoints : List BackendEndpoint} {s : Balancer m}
    (h : Drawn generation (fromEndpoints cursor endpoints) s) {a n : ℕ} (hwrap : a % 2 ^ 64 + n ≤ 2 ^ 64)
    (hlen : a + n ≤ (s.drawn generation cursor).length) (i : ℕ) :
    (((s.drawn generation cursor).drop a).take n).countP (fun x => position endpoints x.ticket = some i) =
      countIn (position endpoints) (a % 2 ^ 64) n (some i) := by
  have hmap : (((s.drawn generation cursor).drop a).take n).map (fun x => position endpoints x.ticket) =
      (List.range' (a % 2 ^ 64) n).map (position endpoints) := by
    refine List.ext_getElem (by simp; omega) ?_
    intro j h₁ h₂
    have hj : j < n := by simpa using h₂
    have haj : a + j < (s.drawn generation cursor).length := by omega
    obtain ⟨hticket, -⟩ := h.ticket (a + j) _ (List.getElem?_eq_getElem haj)
    simp only [List.getElem_map, List.getElem_take, List.getElem_drop, List.getElem_range', one_mul]
    cases hdraws : (fromEndpoints cursor endpoints).drawsTicket with
    | false => exact position_eq_of_single hdraws _ _
    | true =>
      have hmod : (a + j) % 2 ^ 64 = a % 2 ^ 64 + j := by omega
      rw [← hmod, ← hticket hdraws]
  calc (((s.drawn generation cursor).drop a).take n).countP (fun x => position endpoints x.ticket = some i)
      = ((((s.drawn generation cursor).drop a).take n).map fun x => position endpoints x.ticket).countP
          (fun p => decide (p = some i)) := by rw [List.countP_map]; rfl
    _ = countIn (position endpoints) (a % 2 ^ 64) n (some i) := by rw [hmap, List.countP_map]; rfl

/-- **Selection is exactly fair in every interleaving.**  A route with a live endpoint whose weights add up to
at most the cap is added to a table; callers look routes up through any pattern and select in any order, and
other tables may be published meanwhile.  The selections from the group of the route carry consecutive tickets
(a single destination draws none), each finds the endpoint at the position of its ticket, which is not a
drained one, and any `W` consecutive ones whose tickets do not cross the wrap show each position as often as
its weight says. -/
theorem selections_fair (hm : m.Laws) (specs : List RouteSpec) (k : ℕ) (spec : RouteSpec)
    (hk : specs[k]? = some spec) (hlive : ∃ e ∈ spec.endpoints, 0 < e.weight)
    (hcap : (spec.endpoints.map (·.weight)).sum ≤ MAX_WEIGHT_TABLE) (events : List (BalancerEvent m)) :
    let l := ((new (buildAll m specs)).run events).drawn 0 k
    (∀ j x, l[j]? = some x → (fromEndpoints k spec.endpoints).drawsTicket = true → x.ticket = j % 2 ^ 64) ∧
    (∀ x ∈ l, ∃ i e, position spec.endpoints x.ticket = some i ∧ spec.endpoints[i]? = some e ∧
      0 < e.weight ∧ x.endpoint = some e) ∧
    ∀ a, a % 2 ^ 64 + (spec.endpoints.map (·.weight)).sum ≤ 2 ^ 64 →
      a + (spec.endpoints.map (·.weight)).sum ≤ l.length → ∀ i e, spec.endpoints[i]? = some e →
        ((l.drop a).take (spec.endpoints.map (·.weight)).sum).countP
          (fun x => position spec.endpoints x.ticket = some i) = e.weight := by
  intro l
  obtain ⟨-, hdrawn⟩ := drawn_run hm hk events
  refine ⟨fun j x hj => (hdrawn.ticket j x hj).1, fun x hx => ?_, fun a hwrap hlen i e he => ?_⟩
  · obtain ⟨j, hj, hx⟩ := List.mem_iff_getElem.mp hx
    have hend := (hdrawn.ticket j x (by rw [← hx]; exact List.getElem?_eq_getElem hj)).2
    obtain ⟨i, e, hpos, hat, hw, hsel⟩ := select_position hlive hcap k x.ticket
    exact ⟨i, e, hpos, hat, hw, hend.trans hsel⟩
  · rw [hdrawn.window hwrap hlen i]
    exact count_position hlive hcap _ he

/-- A route for `/api` with a drained endpoint between two live ones. -/
def weightedSpec : RouteSpec where
  hostname := none
  path := ascii "/api"
  pathMatch := .pathPrefix
  endpoints := [⟨ascii "10.0.0.1:80", 3⟩, ⟨ascii "10.0.0.2:80", 0⟩, ⟨ascii "10.0.0.3:80", 1⟩]
  filters := ⟨none⟩
  routeName := ascii "api"

/-- Two callers, through two patterns of the route, with their selections interleaved. -/
def interleaved : List (BalancerEvent PathRouter.reference) :=
  [.lookup 0 none (ascii "/api"), .lookup 1 none (ascii "/api/x"), .select 1, .lookup 1 none (ascii "/api/"),
    .select 0, .select 1, .lookup 0 none (ascii "/api/y"), .select 0]

theorem selections_fair_interleaved :
    ((((new (buildAll PathRouter.reference [weightedSpec])).run interleaved).drawn 0 0).take 4).countP
      (fun x => position weightedSpec.endpoints x.ticket = some 0) = 3 := by
  have hlen : 0 + 4 ≤ (((new (buildAll PathRouter.reference [weightedSpec])).run interleaved).drawn 0 0).length := by
    decide +kernel
  exact (selections_fair PathRouter.reference_laws [weightedSpec] 0 weightedSpec rfl
    ⟨⟨ascii "10.0.0.1:80", 3⟩, by decide, by decide⟩ (by decide) interleaved).2.2 0 (by decide) hlen 0 _ rfl

/-! ## Rebuilds of an unchanged state -/

theorem position_of_equal {endpoints : List BackendEndpoint} (hne : endpoints ≠ []) {w : ℕ} (hw : 0 < w)
    (hequal : ∀ e ∈ endpoints, e.weight = w) (t : ℕ) :
    position endpoints t = cyclic (List.range endpoints.length) t := by
  have hfilter : ∀ l : List BackendEndpoint, (∀ e ∈ l, e.weight = w) → l.filter (·.weight > 0) = l := by
    intro l hl
    rw [List.filter_eq_self]
    intro e he
    rw [hl e he]
    simpa using hw
  have hkept : kept endpoints = endpoints.zipIdx := by
    rw [kept, List.filter_eq_self]
    rintro ⟨e, i⟩ he
    have hmem : e ∈ endpoints := List.mem_of_getElem? (List.mem_zipIdx_iff_getElem?.mp he)
    simpa [hequal e hmem] using hw
  have huniform : ∀ l : List BackendEndpoint, (∀ e ∈ l, e.weight = w) → uniform l = true := by
    intro l
    induction l with
    | nil => intro _; rfl
    | cons a l ih =>
      intro hl
      cases l with
      | nil => rfl
      | cons b l =>
        rw [uniform, ih fun e he => hl e (List.mem_cons_of_mem _ he), hl a (by simp), hl b (by simp)]
        simp
  have hcycle : (fromEndpoints 0 endpoints).cycle = List.range endpoints.length := by
    unfold fromEndpoints policyOf
    rw [hfilter endpoints hequal]
    obtain ⟨a, l, rfl⟩ := List.exists_cons_of_ne_nil hne
    cases l with
    | nil => rfl
    | cons b l =>
      simp only
      rw [if_pos (huniform _ hequal)]
      rfl
  have hpos : 0 < endpoints.length := List.length_pos_iff.mpr hne
  have hlt := Nat.mod_lt t hpos
  rw [position, hcycle, hkept]
  simp [cyclic, hlt]

theorem countIn_turn {N : ℕ} {i : ℕ} (hi : i < N) (start q : ℕ) :
    countIn (cyclic (List.range N)) start (N * q) (some i) = q := by
  have h := countIn_cyclic (List.range N) start q i
  rwa [List.length_range, List.count_eq_one_of_mem List.nodup_range (List.mem_range.mpr hi), mul_one] at h

/-- Taken in turn, `n` selections give every endpoint `n / N` of them, or one more. -/
theorem countIn_turn_bounds {N : ℕ} {i : ℕ} (hi : i < N) (n : ℕ) :
    n / N ≤ countIn (cyclic (List.range N)) 0 n (some i) ∧
      countIn (cyclic (List.range N)) 0 n (some i) ≤ n / N + 1 := by
  have hN : 0 < N := by omega
  have hr := Nat.mod_lt n hN
  have hsplit : n = N * (n / N) + n % N := (Nat.div_add_mod n N).symm
  have hwhole := countIn_turn hi 0 (n / N)
  have hrest : countIn (cyclic (List.range N)) (N * (n / N)) (n % N) (some i) ≤ 1 := by
    have hone := countIn_turn hi (N * (n / N)) 1
    have hcut : N * 1 = n % N + (N - n % N) := by omega
    rw [hcut, countIn_add] at hone
    omega
  have htotal : countIn (cyclic (List.range N)) 0 n (some i) =
      n / N + countIn (cyclic (List.range N)) (N * (n / N)) (n % N) (some i) := by
    conv_lhs => rw [hsplit]
    rw [countIn_add, hwhole, Nat.zero_add]
  omega

/-- How many requests were sent to the endpoint at a position of the list the group was made from. -/
def sent (s : Balancer m) (endpoints : List BackendEndpoint) (i : ℕ) : ℕ :=
  s.log.countP fun x => position endpoints x.ticket = some i

/-- A request for one host and path, or a rebuild that publishes the same table. -/
def Rebuilding (table : RouteTable m) (host : Option Bytes) (path : Bytes) : BalancerEvent m → Prop
  | .lookup _ h p => h = host ∧ p = path
  | .select _ => True
  | .store t => t = table

/-- What an event must meet in the state before it: a table is published when the selections from the current
group make up whole cycles and no caller holds a group; a selection draws a ticket that has not wrapped, or
the wrap falls on the end of a cycle. -/
def Undisturbed (cell N : ℕ) (s : Balancer m) : BalancerEvent m → Prop
  | .lookup _ _ _ => True
  | .select caller => ∀ n g, s.held caller = some (n, g) →
      (s.drawn n g.cursor).length < 2 ^ 64 ∨ N ∣ 2 ^ 64
  | .store _ => N ∣ (s.drawn s.generation cell).length ∧ ∀ caller, s.held caller = none

/-- Requests so far are level: all earlier generations gave every endpoint the same number, and the current
one has been through its tickets in turn. -/
structure Level (table : RouteTable m) (endpoints : List BackendEndpoint) (cell : ℕ) (s : Balancer m) :
    Prop where
  table : s.table = table
  held : ∀ caller x, s.held caller = some x → x = (s.generation, fromEndpoints cell endpoints)
  drawn : Drawn s.generation (fromEndpoints cell endpoints) s
  /-- The cells of later generations are untouched. -/
  fresh : ∀ n, s.generation < n → s.cells n cell = 0 ∧ s.drawn n cell = []
  level : ∃ base, ∀ i < endpoints.length, s.sent endpoints i =
    base + countIn (position endpoints) 0 (s.drawn s.generation cell).length (some i)

section Rebuild

variable {table : RouteTable m} {host : Option Bytes} {path : Bytes} {endpoints : List BackendEndpoint}
  {cell : ℕ} {a : RouteAction} (ha : table.lookup host path = some a)
  (hgroup : a.targetGroup = fromEndpoints cell endpoints)
  (hturn : ∀ t, position endpoints t = cyclic (List.range endpoints.length) t)

theorem level_new : Level table endpoints cell (new table) := by
  refine ⟨rfl, ?_, ⟨fun _ => rfl, ?_⟩, fun _ _ => ⟨rfl, rfl⟩, 0, fun i _ => rfl⟩
  · intro caller x hx
    cases hx
  · intro j x hx
    simp [new, drawn] at hx

include hturn in
theorem Level.selectFrom {s : Balancer m} (h : Level table endpoints cell s) (caller : ℕ)
    (hwrap : (s.drawn s.generation cell).length < 2 ^ 64 ∨ endpoints.length ∣ 2 ^ 64) :
    Level table endpoints cell (s.selectFrom caller s.generation (fromEndpoints cell endpoints)) := by
  have hposition : position endpoints (s.cells s.generation cell) =
      position endpoints (s.drawn s.generation cell).length := by
    cases hdraws : (fromEndpoints cell endpoints).drawsTicket with
    | false => exact position_eq_of_single hdraws _ _
    | true =>
      have hcell : s.cells s.generation cell = (s.drawn s.generation cell).length % 2 ^ 64 :=
        h.drawn.cell hdraws
      rw [hcell, hturn, hturn]
      rcases hwrap with hlt | hdvd
      · rw [Nat.mod_eq_of_lt hlt]
      · rw [cyclic, cyclic, List.length_range, Nat.mod_mod_of_dvd _ hdvd]
  have hdrawn := drawn_selectFrom s caller s.generation (fromEndpoints cell endpoints)
  have hcursor : (fromEndpoints cell endpoints).cursor = cell := rfl
  refine ⟨h.table, ?_, h.drawn.selectFrom_self caller, ?_, ?_⟩
  · intro c x hx
    simp only [Balancer.selectFrom] at hx
    by_cases hc : c = caller
    · subst hc
      rw [Function.update_self] at hx
      cases hx
    · rw [Function.update_of_ne hc] at hx
      exact h.held c x hx
  · intro n hn
    have hlater : s.generation < n := hn
    have hne : ¬ (s.generation = n ∧ cell = cell) := by omega
    refine ⟨?_, ?_⟩
    · have hcells : (s.selectFrom caller s.generation (fromEndpoints cell endpoints)).cells n cell =
          s.cells n cell := by
        unfold Balancer.selectFrom
        simp only
        split
        · exact fetchAdd_of_ne hne
        · rfl
      rw [hcells]
      exact (h.fresh n hlater).1
    · rw [hdrawn, hcursor, if_neg hne, (h.fresh n hlater).2, List.append_nil]
  · obtain ⟨base, hbase⟩ := h.level
    refine ⟨base, fun i hi => ?_⟩
    have hlen : ((s.selectFrom caller s.generation (fromEndpoints cell endpoints)).drawn s.generation
        cell).length = (s.drawn s.generation cell).length + 1 := by
      rw [hdrawn, hcursor, if_pos ⟨rfl, rfl⟩, List.length_append, List.length_singleton]
    have hsent : (s.selectFrom caller s.generation (fromEndpoints cell endpoints)).sent endpoints i =
        s.sent endpoints i + if position endpoints (s.cells s.generation cell) = some i then 1 else 0 := by
      simp only [sent, Balancer.selectFrom, List.countP_append, List.countP_cons, List.countP_nil,
        decide_eq_true_eq, hcursor, Nat.zero_add]
    have hcount : countIn (position endpoints) 0 ((s.drawn s.generation cell).length + 1) (some i) =
        countIn (position endpoints) 0 (s.drawn s.generation cell).length (some i) +
          if position endpoints (s.drawn s.generation cell).length = some i then 1 else 0 := by
      rw [countIn_add]
      simp [countIn]
    change _ = base + countIn _ 0 ((s.selectFrom caller s.generation _).drawn s.generation cell).length _
    rw [hlen, hcount, hsent, hbase i hi, hposition]
    omega

include ha hgroup hturn in
/-- **An event that meets the condition keeps the requests level.** -/
theorem level_step {s : Balancer m} (h : Level table endpoints cell s) {e : BalancerEvent m}
    (he : Rebuilding table host path e) (hu : Undisturbed cell endpoints.length s e) :
    Level table endpoints cell (s.step e) := by
  cases e with
  | lookup caller hst p =>
    obtain ⟨rfl, rfl⟩ := he
    refine ⟨h.table, ?_, ⟨h.drawn.cell, h.drawn.ticket⟩, h.fresh, h.level⟩
    intro c x hx
    simp only [step] at hx
    by_cases hc : c = caller
    · subst hc
      rw [Function.update_self, h.table, ha, Option.map_some, hgroup] at hx
      exact (Option.some.inj hx).symm
    · rw [Function.update_of_ne hc] at hx
      exact h.held c x hx
  | select caller =>
    simp only [step]
    split
    · rename_i n g hheld
      obtain ⟨rfl, rfl⟩ := Prod.mk.inj (h.held caller _ hheld)
      exact h.selectFrom hturn caller (hu _ _ hheld)
    · exact h
  | store t =>
    obtain rfl : t = table := he
    obtain ⟨⟨q, hq⟩, hnone⟩ := hu
    obtain ⟨hcell, hempty⟩ := h.fresh (s.generation + 1) (Nat.lt_succ_self _)
    obtain ⟨base, hbase⟩ := h.level
    refine ⟨rfl, ?_, ⟨fun _ => ?_, fun j x hx => ?_⟩, ?_, base + q, fun i hi => ?_⟩
    · intro c x hx
      exact absurd (hx.symm.trans (hnone c)) (by simp)
    · change s.cells (s.generation + 1) cell = (s.drawn (s.generation + 1) cell).length % 2 ^ 64
      rw [hcell, hempty]
      rfl
    · change (s.drawn (s.generation + 1) cell)[j]? = some x at hx
      rw [hempty] at hx
      cases hx
    · intro n hn
      have hlater : s.generation + 1 < n := hn
      exact h.fresh n (by omega)
    · have hbefore := hbase i hi
      have hsame : countIn (position endpoints) 0 (endpoints.length * q) (some i) = q := by
        rw [countIn_congr (fun t => by rw [hturn t]), countIn_turn hi]
      change s.sent endpoints i =
        base + q + countIn (position endpoints) 0 (s.drawn (s.generation + 1) cell).length (some i)
      rw [hbefore, hq, hsame, hempty]
      rfl

include ha hgroup hturn in
theorem level_run {s : Balancer m} (h : Level table endpoints cell s) {events : List (BalancerEvent m)}
    (he : ∀ e ∈ events, Rebuilding table host path e)
    (hu : EveryStep step (Undisturbed cell endpoints.length) s events) :
    Level table endpoints cell (s.run events) :=
  EveryStep.invariant (I := Level table endpoints cell)
    (fun _ _ hc h => level_step ha hgroup hturn h hc.2 hc.1) (hu.and_forall he) h

end Rebuild

/-- No two endpoints are more than one request apart. -/
def Even (s : Balancer m) (endpoints : List BackendEndpoint) : Prop :=
  ∀ i < endpoints.length, ∀ j < endpoints.length, s.sent endpoints i ≤ s.sent endpoints j + 1

theorem even_of_level {table : RouteTable m} {endpoints : List BackendEndpoint} {cell : ℕ} {s : Balancer m}
    (hturn : ∀ t, position endpoints t = cyclic (List.range endpoints.length) t)
    (h : Level table endpoints cell s) : Even s endpoints := by
  intro i hi j hj
  obtain ⟨base, hbase⟩ := h.level
  have hcount : ∀ i, countIn (position endpoints) 0 (s.drawn s.generation cell).length (some i) =
      countIn (cyclic (List.range endpoints.length)) 0 (s.drawn s.generation cell).length (some i) :=
    fun i => countIn_congr (fun t => by rw [hturn t]) _ _
  have hupper := (countIn_turn_bounds hi (s.drawn s.generation cell).length).2
  have hlower := (countIn_turn_bounds hj (s.drawn s.generation cell).length).1
  rw [hbase i hi, hbase j hj, hcount, hcount]
  omega

theorem even_of_drained {endpoints : List BackendEndpoint} (hzero : ∀ e ∈ endpoints, e.weight = 0)
    (s : Balancer m) : Even s endpoints := by
  have hkept : kept endpoints = [] := by
    rw [kept, List.filter_eq_nil_iff]
    rintro ⟨e, i⟩ he
    have hmem : e ∈ endpoints := List.mem_of_getElem? (List.mem_zipIdx_iff_getElem?.mp he)
    simp [hzero e hmem]
  have hsent : ∀ i, s.sent endpoints i = 0 := by
    intro i
    unfold sent
    rw [List.countP_eq_zero]
    intro x _
    simp [position, hkept]
  intro i _ j _
  rw [hsent i]
  omega

/-- **Rebuilds keep the load balanced if they fall between cycles.**  A request for a fixed host and path is
answered by a rule whose endpoints have equal weights.  In every run of such requests and of rebuilds of the
unchanged state, each rebuild published at the end of a cycle and while no caller holds a group, no two
endpoints are ever more than one request apart. -/
theorem rebuilds_keep_balance {ht : HeaderTypes} (hm : m.Laws) (st : ClusterState) (cfg : ControllerConfig)
    (order : List StoredRoute) (horder : order.Perm st.values) (host : Option Bytes) (path : Bytes)
    (a : RouteAction) (h : (ClusterState.compile ht m st cfg order).lookup host path = some a) :
    ∃ stored ∈ st.values, ∃ i rule, stored.spec.rules[i]? = some rule ∧ a.routeName = ruleName stored i ∧
      ∃ cell, a.targetGroup = fromEndpoints cell (ruleEndpoints st stored.ns rule) ∧
        ∀ w, (∀ e ∈ ruleEndpoints st stored.ns rule, e.weight = w) →
          ∀ events, (∀ e ∈ events, Rebuilding (ClusterState.compile ht m st cfg order) host path e) →
            EveryStep step (Undisturbed cell (ruleEndpoints st stored.ns rule).length)
              (new (ClusterState.compile ht m st cfg order)) events →
            Even ((new (ClusterState.compile ht m st cfg order)).run events)
              (ruleEndpoints st stored.ns rule) := by
  obtain ⟨stored, hstored, -, i, rule, hrule, hne, hostname, -, pm, -, cell, rfl⟩ := exists_rule_of_lookup hm h
  refine ⟨stored, horder.mem_iff.mp hstored, i, rule, hrule, rfl, cell, rfl, ?_⟩
  intro w hequal events hevents hsteps
  rcases Nat.eq_zero_or_pos w with rfl | hw
  · exact even_of_drained hequal _
  · have hturn := position_of_equal (fun hnil => hne (ruleEndpoints_eq_nil.mp hnil)) hw hequal
    exact even_of_level hturn (level_run h rfl hturn level_new hevents hsteps)

/-- Two backends of weight one. -/
def twoBackends : List BackendRef := [backendRef "x" none, backendRef "y" none]

/-- Two requests, and a rebuild at the end of the cycle. -/
def rebuiltBetweenCycles : List (BalancerEvent PathRouter.reference) :=
  [.lookup 0 none (ascii "/"), .select 0, .lookup 0 none (ascii "/"), .select 0, .store (backendTable twoBackends ∅)]

/-- The endpoints of the two backends. -/
def twoEndpoints : List BackendEndpoint :=
  ruleEndpoints (soloState (backendRoute twoBackends) ∅) (ascii "default") ⟨[], twoBackends, []⟩

theorem rebuilds_keep_balance_between_cycles :
    Even ((new (backendTable twoBackends ∅)).run rebuiltBetweenCycles) twoEndpoints := by
  cases h : (backendTable twoBackends ∅).lookup none (ascii "/") with
  | none => exact absurd h (by decide +kernel)
  | some a =>
    obtain ⟨stored, hstored, i, rule, hrule, -, cell, hgroup, heven⟩ := rebuilds_keep_balance
      PathRouter.reference_laws (soloState (backendRoute twoBackends) ∅) anyGateway [backendRoute twoBackends]
      (List.Perm.refl _) none (ascii "/") a h
    obtain rfl : stored = backendRoute twoBackends := by
      simpa [soloState, ClusterState.values] using hstored
    obtain ⟨rfl, rfl⟩ : i = 0 ∧ ⟨[], twoBackends, []⟩ = rule := by
      cases i with
      | zero => exact ⟨rfl, Option.some.inj hrule⟩
      | succ i => cases hrule
    obtain rfl : cell = 0 := by
      have hcell : ((backendTable twoBackends ∅).lookup none (ascii "/")).map (·.targetGroup.cursor) = some 0 := by
        decide +kernel
      rw [h, Option.map_some, hgroup] at hcell
      exact Option.some.inj hcell
    refine heven 1 (by decide) rebuiltBetweenCycles ?_ ?_
    · simp [rebuiltBetweenCycles, Rebuilding, backendTable]
    · have hlen : twoEndpoints.length ∣ 2 ^ 64 := by decide +kernel
      have hcycle : twoEndpoints.length ∣ (((new (backendTable twoBackends ∅)).run
          [.lookup 0 none (ascii "/"), .select 0, .lookup 0 none (ascii "/"), .select 0]).drawn 0 0).length := by
        decide +kernel
      refine ⟨trivial, fun _ _ _ => Or.inr hlen, trivial, fun _ _ _ => Or.inr hlen, ⟨hcycle, ?_⟩, trivial⟩
      intro caller
      cases caller with
      | zero => rfl
      | succ n => rfl

/-- A rebuild after every request sends them all to the first endpoint. -/
theorem rebuilds_restart_the_cycle :
    ¬ ∀ events, (∀ e ∈ events, Rebuilding (backendTable twoBackends ∅) none (ascii "/") e) →
      Even ((new (backendTable twoBackends ∅)).run events) twoEndpoints := by
  intro h
  have heven := h [.lookup 0 none (ascii "/"), .select 0, .store (backendTable twoBackends ∅),
    .lookup 0 none (ascii "/"), .select 0] (by simp [Rebuilding]) 0 (by decide) 1 (by decide)
  exact absurd heven (by decide +kernel)

end Balancer

end LbProxy.Core
