import LbProxy.Core.Gateway
import Mathlib.Tactic.Common

/-!
# The endpoint store and the live slices

The store keeps one list of endpoints for each Service, while a Service may own several slices.

* `LiveSlices`, `liveAfter` — the slice objects that are live, by namespace and object name;
* `ResolvesLive` — `resolve` yields the addresses of the live slices of a Service;
* `Exclusive` — the slice of an event is the only one of its Service, and stays with it;
* `run_resolvesLive` — as long as every event is exclusive, the store is the union of the live slices.
-/

namespace LbProxy.Core

open Lib

/-! ## Live slices -/

/-- The identity of a slice object: namespace and name. -/
abbrev SliceId := Option Bytes × Option Bytes

def EndpointSlice.id (slice : EndpointSlice) : SliceId := (slice.ns, slice.name)

/-- The Service that a slice belongs to. -/
def EndpointSlice.serviceKey (slice : EndpointSlice) : Option ServiceKey :=
  slice.ns.bind fun ns =>
    (slice.labels.bind (·.lookup (ascii "kubernetes.io/service-name"))).map fun service => (ns, service)

/-- The live slice objects. -/
abbrev LiveSlices := AList fun _ : SliceId => EndpointSlice

/-- What an event says about the live slices. -/
def liveAfter (live : LiveSlices) : WatchEvent EndpointSlice → LiveSlices
  | .apply slice | .initApply slice => live.insert slice.id slice
  | .delete slice => live.erase slice.id
  | .init => ∅
  | .initDone | .error => live

/-- The live slices after a sequence of events. -/
def liveRun (live : LiveSlices) (events : List (WatchEvent EndpointSlice)) : LiveSlices :=
  events.foldl liveAfter live

/-- The state after `watch_endpointslices` has processed a sequence of events. -/
def endpointsRun (st : ClusterState) (events : List (WatchEvent EndpointSlice)) : ClusterState :=
  events.foldl (fun st e => (watchEndpointslices st e).1) st

/-- A ready endpoint of a live slice of the Service has the address, and the slice lists the port. -/
def LiveAddress (live : LiveSlices) (key : ServiceKey) (port : ℤ) (address : Bytes) : Prop :=
  ∃ id slice, live.lookup id = some slice ∧ slice.serviceKey = some key ∧ port ∈ slice.portList ∧
    ∃ endpoint ∈ slice.endpoints.getD [], endpoint.isReady = true ∧ address ∈ endpoint.addresses

/-- The endpoint of a backend at an address. -/
def BackendRef.endpointAt (backend : BackendRef) (address : Bytes) : BackendEndpoint :=
  ⟨address ++ ascii ":" ++ displayInt (backend.port.getD 80),
    (max 0 (min (backend.weight.getD 1) 1000000)).toNat⟩

/-- The DNS name of the Service of a backend. -/
def BackendRef.dnsName (backend : BackendRef) (ns : Bytes) : Bytes :=
  backend.name ++ ascii "." ++ ns ++ ascii ".svc.cluster.local"

/-- `resolve` yields exactly the live addresses of the Service for the port, and its DNS name only when
there are none. -/
def ResolvesLive (st : ClusterState) (live : LiveSlices) : Prop :=
  ∀ (routeNs : Bytes) (backend : BackendRef) (e : BackendEndpoint),
    let ns := backend.ns.getD routeNs
    let Live := LiveAddress live (ns, backend.name) (backend.port.getD 80)
    e ∈ st.resolve routeNs backend ↔
      (∃ address, Live address ∧ e = backend.endpointAt address) ∨
        ((∀ address, ¬ Live address) ∧ e = backend.endpointAt (backend.dnsName ns))

/-! ## What a slice contributes -/

/-- The ready pairs of a slice. -/
def EndpointSlice.readyPairs (slice : EndpointSlice) : List ReadyEndpoint :=
  if slice.portList.isEmpty then []
  else (slice.endpoints.getD []).flatMap fun endpoint =>
    if endpoint.isReady then
      endpoint.addresses.flatMap fun address => slice.portList.map fun port => ⟨address, port⟩
    else []

theorem parseEndpointSlice_eq (slice : EndpointSlice) :
    parseEndpointSlice slice = slice.serviceKey.map fun key => (key, slice.readyPairs) := by
  unfold parseEndpointSlice EndpointSlice.serviceKey EndpointSlice.readyPairs
  cases slice.ns with
  | none => rfl
  | some ns =>
    simp only [Option.bind_some, Option.map_map]
    congr 1
    funext service
    simp only [Function.comp]
    split <;> rfl

theorem mem_readyPairs {slice : EndpointSlice} {address : Bytes} {port : ℤ} :
    (⟨address, port⟩ : ReadyEndpoint) ∈ slice.readyPairs ↔ port ∈ slice.portList ∧
      ∃ endpoint ∈ slice.endpoints.getD [], endpoint.isReady = true ∧ address ∈ endpoint.addresses := by
  unfold EndpointSlice.readyPairs
  split
  · rename_i h
    rw [List.isEmpty_iff] at h
    simp [h]
  · simp only [List.mem_flatMap, List.mem_ite_nil_right, List.mem_map, ReadyEndpoint.mk.injEq]
    constructor
    · rintro ⟨endpoint, he, hready, a, ha, p, hp, rfl, rfl⟩
      exact ⟨hp, endpoint, he, hready, ha⟩
    · rintro ⟨hp, endpoint, he, hready, ha⟩
      exact ⟨endpoint, he, hready, address, ha, port, hp, rfl, rfl⟩

/-! ## The invariant -/

/-- The slice is the only live one of its Service, and its live version belongs to that Service too. -/
structure Exclusive (live : LiveSlices) (slice : EndpointSlice) : Prop where
  stays : ∀ old, live.lookup slice.id = some old → old.serviceKey = slice.serviceKey
  alone : ∀ id other, id ≠ slice.id → live.lookup id = some other → slice.serviceKey ≠ none →
    other.serviceKey ≠ slice.serviceKey

/-- The slice of the event, if it has one, is exclusive. -/
def ExclusiveEvent (live : LiveSlices) : WatchEvent EndpointSlice → Prop
  | .apply slice | .initApply slice | .delete slice => Exclusive live slice
  | .init | .initDone | .error => True

/-- Every event of the run is exclusive when it arrives. -/
def ExclusiveRun : LiveSlices → List (WatchEvent EndpointSlice) → Prop
  | _, [] => True
  | live, e :: events => ExclusiveEvent live e ∧ ExclusiveRun (liveAfter live e) events

theorem exclusive_iff {live : LiveSlices} {slice : EndpointSlice} :
    Exclusive live slice ↔ ∀ x ∈ live.entries,
      if x.1 = slice.id then x.2.serviceKey = slice.serviceKey
      else slice.serviceKey ≠ none → x.2.serviceKey ≠ slice.serviceKey := by
  have hmem : ∀ {id s}, live.lookup id = some s ↔ ⟨id, s⟩ ∈ live.entries := AList.mem_lookup_iff
  constructor
  · rintro ⟨hstays, halone⟩ ⟨id, s⟩ hx
    by_cases hid : id = slice.id
    · rw [if_pos hid]
      exact hstays s (hmem.mpr (hid ▸ hx))
    · rw [if_neg hid]
      exact halone id s hid (hmem.mpr hx)
  · intro h
    refine ⟨fun old hold => ?_, fun id other hid hother => ?_⟩
    · have := h _ (hmem.mp hold)
      rwa [if_pos rfl] at this
    · have := h _ (hmem.mp hother)
      rwa [if_neg hid] at this

instance (live : LiveSlices) (slice : EndpointSlice) : Decidable (Exclusive live slice) :=
  decidable_of_iff' _ exclusive_iff

instance (live : LiveSlices) : DecidablePred (ExclusiveEvent live)
  | .apply slice | .initApply slice | .delete slice => inferInstanceAs (Decidable (Exclusive live slice))
  | .init | .initDone | .error => inferInstanceAs (Decidable True)

instance decidableExclusiveRun : ∀ live events, Decidable (ExclusiveRun live events)
  | _, [] => inferInstanceAs (Decidable True)
  | live, e :: events =>
    have := decidableExclusiveRun (liveAfter live e) events
    inferInstanceAs (Decidable (ExclusiveEvent live e ∧ ExclusiveRun (liveAfter live e) events))

/-- The store holds, for each Service, the pairs of its one live slice. -/
def Stores (st : ClusterState) (live : LiveSlices) : Prop :=
  ∀ key eps, st.endpoints.lookup key = some eps ↔
    ∃ id slice, live.lookup id = some slice ∧ slice.serviceKey = some key ∧ eps = slice.readyPairs

theorem lookup_insert_cases {α β : Type} [DecidableEq α] {s : AList fun _ : α => β} {a a' : α} {b b' : β} :
    (s.insert a b).lookup a' = some b' ↔ (a' = a ∧ b = b') ∨ (a' ≠ a ∧ s.lookup a' = some b') := by
  by_cases h : a' = a
  · subst h
    simp
  · rw [AList.lookup_insert_ne h]
    simp [h]

theorem lookup_erase_cases {α β : Type} [DecidableEq α] {s : AList fun _ : α => β} {a a' : α} {b' : β} :
    (s.erase a).lookup a' = some b' ↔ a' ≠ a ∧ s.lookup a' = some b' := by
  by_cases h : a' = a
  · subst h
    simp
  · rw [AList.lookup_erase_ne h]
    simp [h]

theorem Exclusive.id_eq {live : LiveSlices} {slice other : EndpointSlice} {id : SliceId} {key : ServiceKey}
    (hex : Exclusive live slice) (hkey : slice.serviceKey = some key) (hother : live.lookup id = some other)
    (hk : other.serviceKey = some key) : id = slice.id := by
  by_contra hne
  exact hex.alone id other hne hother (by simp [hkey]) (hk.trans hkey.symm)

theorem stores_apply {st : ClusterState} {live : LiveSlices} {slice : EndpointSlice}
    (hex : Exclusive live slice) (h : Stores st live) :
    Stores (watchEndpointslices st (.apply slice)).1 (live.insert slice.id slice) := by
  intro key eps
  -- the old version of the object is of the same Service, so it is replaced and nothing else is
  have hold : ∀ key, slice.serviceKey ≠ some key →
      ((∃ id s, (live.insert slice.id slice).lookup id = some s ∧ s.serviceKey = some key ∧
        eps = s.readyPairs) ↔
      ∃ id s, live.lookup id = some s ∧ s.serviceKey = some key ∧ eps = s.readyPairs) := by
    intro key hne
    constructor
    · rintro ⟨id, s, hs, hk, he⟩
      rcases lookup_insert_cases.mp hs with ⟨rfl, rfl⟩ | ⟨-, hs⟩
      · exact absurd hk hne
      · exact ⟨id, s, hs, hk, he⟩
    · rintro ⟨id, s, hs, hk, he⟩
      refine ⟨id, s, lookup_insert_cases.mpr (Or.inr ⟨?_, hs⟩), hk, he⟩
      rintro rfl
      exact hne ((hex.stays s hs).symm.trans hk)
  simp only [watchEndpointslices, parseEndpointSlice_eq]
  cases hkey : slice.serviceKey with
  | none =>
    simp only [Option.map_none]
    rw [hold key (by simp [hkey]), h key eps]
  | some k =>
    simp only [Option.map_some]
    by_cases hk : key = k
    · subst hk
      rw [AList.lookup_insert]
      constructor
      · intro he
        exact ⟨slice.id, slice, AList.lookup_insert _, hkey, (Option.some.inj he).symm⟩
      · rintro ⟨id, s, hs, hsk, rfl⟩
        rcases lookup_insert_cases.mp hs with ⟨-, rfl⟩ | ⟨hid, hs⟩
        · rfl
        · exact absurd (hex.id_eq hkey hs hsk) hid
    · rw [AList.lookup_insert_ne hk, h key eps, hold key]
      rw [hkey]
      exact fun hc => hk (Option.some.inj hc).symm

theorem stores_delete {st : ClusterState} {live : LiveSlices} {slice : EndpointSlice}
    (hex : Exclusive live slice) (h : Stores st live) :
    Stores (watchEndpointslices st (.delete slice)).1 (live.erase slice.id) := by
  intro key eps
  have hold : ∀ key, slice.serviceKey ≠ some key →
      ((∃ id s, (live.erase slice.id).lookup id = some s ∧ s.serviceKey = some key ∧
        eps = s.readyPairs) ↔
      ∃ id s, live.lookup id = some s ∧ s.serviceKey = some key ∧ eps = s.readyPairs) := by
    intro key hne
    constructor
    · rintro ⟨id, s, hs, hk, he⟩
      exact ⟨id, s, (lookup_erase_cases.mp hs).2, hk, he⟩
    · rintro ⟨id, s, hs, hk, he⟩
      refine ⟨id, s, lookup_erase_cases.mpr ⟨?_, hs⟩, hk, he⟩
      rintro rfl
      exact hne ((hex.stays s hs).symm.trans hk)
  simp only [watchEndpointslices, parseEndpointSlice_eq]
  cases hkey : slice.serviceKey with
  | none =>
    simp only [Option.map_none]
    rw [hold key (by simp [hkey]), h key eps]
  | some k =>
    simp only [Option.map_some]
    by_cases hk : key = k
    · subst hk
      rw [AList.lookup_erase]
      refine ⟨(by simp), ?_⟩
      rintro ⟨id, s, hs, hsk, -⟩
      obtain ⟨hid, hs⟩ := lookup_erase_cases.mp hs
      exact absurd (hex.id_eq hkey hs hsk) hid
    · rw [AList.lookup_erase_ne hk, h key eps, hold key]
      rw [hkey]
      exact fun hc => hk (Option.some.inj hc).symm

/-- **An exclusive event keeps the store in step with the live slices.** -/
theorem stores_step {st : ClusterState} {live : LiveSlices} {e : WatchEvent EndpointSlice}
    (hx : ExclusiveEvent live e) (h : Stores st live) :
    Stores (watchEndpointslices st e).1 (liveAfter live e) := by
  cases e with
  | apply slice => exact stores_apply hx h
  | initApply slice => exact stores_apply hx h
  | delete slice => exact stores_delete hx h
  | init =>
    intro key eps
    simp [watchEndpointslices, liveAfter]
  | initDone => exact h
  | error => exact h

theorem stores_run {st : ClusterState} {live : LiveSlices} {events : List (WatchEvent EndpointSlice)}
    (hx : ExclusiveRun live events) (h : Stores st live) :
    Stores (endpointsRun st events) (liveRun live events) := by
  induction events generalizing st live with
  | nil => exact h
  | cons e events ih => exact ih hx.2 (stores_step hx.1 h)

/-! ## Resolution -/

theorem mem_resolve {st : ClusterState} {routeNs : Bytes} {backend : BackendRef} {e : BackendEndpoint}
    {Stored : Bytes → Prop}
    (hstored : ∀ address, Stored address ↔ ∃ eps, st.endpoints.lookup
      (backend.ns.getD routeNs, backend.name) = some eps ∧ ⟨address, backend.port.getD 80⟩ ∈ eps) :
    e ∈ st.resolve routeNs backend ↔ (∃ address, Stored address ∧ e = backend.endpointAt address) ∨
      ((∀ address, ¬ Stored address) ∧
        e = backend.endpointAt (backend.dnsName (backend.ns.getD routeNs))) := by
  have hcolon : ascii ".svc.cluster.local:" = ascii ".svc.cluster.local" ++ ascii ":" := by decide
  have hdns : backend.endpointAt (backend.dnsName (backend.ns.getD routeNs)) =
      ⟨backend.name ++ ascii "." ++ backend.ns.getD routeNs ++ ascii ".svc.cluster.local:" ++
        displayInt (backend.port.getD 80), (max 0 (min (backend.weight.getD 1) 1000000)).toNat⟩ := by
    simp only [BackendRef.endpointAt, BackendRef.dnsName, hcolon, List.append_assoc]
  rw [hdns]
  unfold ClusterState.resolve
  -- no pair with the port: the fallback
  have hfall : (∀ address, ¬ Stored address) → ∀ {x : BackendEndpoint}, e ∈ [x] ↔
      (∃ address, Stored address ∧ e = backend.endpointAt address) ∨
        ((∀ address, ¬ Stored address) ∧ e = x) := by
    intro hno x
    rw [List.mem_singleton]
    constructor
    · exact fun he => Or.inr ⟨hno, he⟩
    · rintro (⟨address, ha, -⟩ | ⟨-, he⟩)
      · exact absurd ha (hno address)
      · exact he
  cases hl : st.endpoints.lookup (backend.ns.getD routeNs, backend.name) with
  | none =>
    simp only [hl]
    refine hfall fun address ha => ?_
    obtain ⟨eps, heps, -⟩ := (hstored address).mp ha
    rw [hl] at heps
    cases heps
  | some eps =>
    have hiff : ∀ address, Stored address ↔ ⟨address, backend.port.getD 80⟩ ∈ eps := by
      intro address
      rw [hstored, hl]
      simp
    simp only [hl]
    split
    · rename_i hany
      obtain ⟨⟨a, p⟩, hmem, hp⟩ := List.any_eq_true.mp hany
      have hp : p = backend.port.getD 80 := by simpa using hp
      have hsome : ¬ ∀ address, ¬ Stored address := fun hno => hno a ((hiff a).mpr (hp ▸ hmem))
      simp only [hsome, false_and, or_false, List.mem_map, List.mem_filter, decide_eq_true_eq]
      constructor
      · rintro ⟨⟨a', p'⟩, ⟨hmem', rfl⟩, rfl⟩
        exact ⟨a', (hiff a').mpr hmem', rfl⟩
      · rintro ⟨a', ha', rfl⟩
        exact ⟨⟨a', backend.port.getD 80⟩, ⟨(hiff a').mp ha', rfl⟩, rfl⟩
    · rename_i hany
      refine hfall fun address ha => hany (List.any_eq_true.mpr ⟨_, (hiff address).mp ha, by simp⟩)

theorem resolvesLive_of_stores {st : ClusterState} {live : LiveSlices} (h : Stores st live) :
    ResolvesLive st live := by
  intro routeNs backend e
  refine mem_resolve fun address => ?_
  constructor
  · rintro ⟨id, slice, hl, hk, hp⟩
    exact ⟨slice.readyPairs, (h _ _).mpr ⟨id, slice, hl, hk, rfl⟩, mem_readyPairs.mpr hp⟩
  · rintro ⟨eps, heps, hmem⟩
    obtain ⟨id, slice, hl, hk, rfl⟩ := (h _ _).mp heps
    exact ⟨id, slice, hl, hk, mem_readyPairs.mp hmem⟩

/-- **The endpoint store is the union of the live slices**, in every state that a run of exclusive events
reaches from an empty store. -/
theorem run_resolvesLive (routes : AList fun _ : ServiceKey => StoredRoute)
    (events : List (WatchEvent EndpointSlice)) (hx : ExclusiveRun ∅ events) :
    ∀ reached, reached <+: events →
      ResolvesLive (endpointsRun ⟨routes, ∅⟩ reached) (liveRun ∅ reached) := by
  rintro reached ⟨rest, rfl⟩
  have hpre : ∀ (l : List (WatchEvent EndpointSlice)) (live : LiveSlices),
      ExclusiveRun live (l ++ rest) → ExclusiveRun live l := by
    intro l
    induction l with
    | nil => exact fun _ _ => trivial
    | cons e l ih => exact fun live h => ⟨h.1, ih _ h.2⟩
  refine resolvesLive_of_stores (stores_run (hpre reached ∅ hx) ?_)
  intro key eps
  simp

theorem run_resolvesLive_one_slice_each :
    ResolvesLive
      (endpointsRun ⟨∅, ∅⟩ [.init, .initApply (sampleSlice (ascii "web-1") (ascii "web") (ascii "10.0.0.1")),
        .initDone, .apply (sampleSlice (ascii "api-1") (ascii "api") (ascii "10.0.0.2")),
        .delete (sampleSlice (ascii "web-1") (ascii "web") (ascii "10.0.0.1"))])
      (liveRun ∅ [.init, .initApply (sampleSlice (ascii "web-1") (ascii "web") (ascii "10.0.0.1")),
        .initDone, .apply (sampleSlice (ascii "api-1") (ascii "api") (ascii "10.0.0.2")),
        .delete (sampleSlice (ascii "web-1") (ascii "web") (ascii "10.0.0.1"))]) := by
  exact run_resolvesLive ∅ _ (by decide) _ (List.prefix_refl _)

/-- Two slices of one Service: the second one overwrites the first. -/
theorem second_slice_hides_first :
    ¬ ResolvesLive
      (endpointsRun ⟨∅, ∅⟩ [.apply (sampleSlice (ascii "web-1") (ascii "web") (ascii "10.0.0.1")),
        .apply (sampleSlice (ascii "web-2") (ascii "web") (ascii "10.0.0.2"))])
      (liveRun ∅ [.apply (sampleSlice (ascii "web-1") (ascii "web") (ascii "10.0.0.1")),
        .apply (sampleSlice (ascii "web-2") (ascii "web") (ascii "10.0.0.2"))]) := by
  intro h
  have hmem := (h (ascii "default") ⟨ascii "web", none, none, none⟩ ⟨ascii "10.0.0.1:80", 1⟩).mpr
  refine absurd (hmem (Or.inl ⟨ascii "10.0.0.1", ?_, by decide⟩)) (by decide)
  exact ⟨(some (ascii "default"), some (ascii "web-1")),
    sampleSlice (ascii "web-1") (ascii "web") (ascii "10.0.0.1"), rfl, by decide, by decide, _,
    List.mem_singleton.mpr rfl, by decide, by decide⟩

end LbProxy.Core
