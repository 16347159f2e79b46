import LbProxy.Core.Soundness

/-!
# Precedence among the specs of a table

* `lookup_add_last` — a spec that is added last answers where nothing did or where it is more specific, and takes
  nothing else away;
* `lookup_of_first_pattern` — a path is answered by the first spec that has it for a pattern;
* `exact_wins_iff` — so an exact spec answers its path exactly if no prefix spec with that pattern was added before it.
-/

namespace LbProxy.Core

open Lib RouteTableBuilder

/-! ## One more spec -/

section AddLast

variable {m : PathRouter} (hm : m.Laws)

theorem tierSpecs_append (specs : List RouteSpec) (s : RouteSpec) (tier : Tier) :
    tierSpecs (specs ++ [s]) tier =
      tierSpecs specs tier ++ if tierOf s.hostname = tier then [(s, specs.length)] else [] := by
  unfold tierSpecs
  rw [List.zipIdx_append, List.filter_append]
  congr 1
  by_cases h : tierOf s.hostname = tier <;> simp [h]

theorem plain_tierEntries {specs : List RouteSpec} (hb : ∀ s ∈ specs, NoBrace s.path) (tier : Tier) :
    ∀ e ∈ (tierSpecs specs tier).flatMap entriesOf, Plain e.1 := by
  intro e he
  obtain ⟨x, hx, he⟩ := List.mem_flatMap.mp he
  obtain ⟨p, hp, rfl⟩ := List.mem_map.mp he
  have hmem := List.mem_of_getElem? (mem_tierSpecs.mp hx).1
  exact (plain_and_ne_nil_of_mem (hb x.1 hmem) hp).1

include hm in
/-- In one tier, the new spec answers or nothing changes. -/
theorem tierHit_add_last {specs : List RouteSpec} {s : RouteSpec} (hb : ∀ s' ∈ specs ++ [s], NoBrace s'.path)
    (tier : Tier) (q : Bytes) :
    (buildAll m (specs ++ [s])).tierHit q tier = (buildAll m specs).tierHit q tier ∨
      (buildAll m (specs ++ [s])).tierHit q tier = some (actionOf specs.length s) := by
  rw [tierHit_buildAll hm, tierHit_buildAll hm, tierSpecs_append]
  by_cases htier : tierOf s.hostname = tier
  · have hplain := plain_tierEntries hb tier
    rw [tierSpecs_append, if_pos htier, List.flatMap_append, List.forall_mem_append] at hplain
    rw [if_pos htier, List.flatMap_append]
    rcases PathRouter.matchAt_append hm hplain.1 hplain.2 q with h | ⟨e, he, h⟩
    · exact Or.inl h
    · obtain ⟨x, hx, he⟩ := List.mem_flatMap.mp he
      obtain rfl := List.mem_singleton.mp hx
      obtain ⟨p, -, rfl⟩ := List.mem_map.mp he
      exact Or.inr h
  · rw [if_neg htier, List.append_nil]
    exact Or.inl rfl

theorem findSome_cases {α β : Type} {f g : α → Option β} {b : β} (l : List α) (h : ∀ t ∈ l, f t = g t ∨ f t = some b) :
    l.findSome? f = l.findSome? g ∨ l.findSome? f = some b := by
  induction l with
  | nil => exact Or.inl rfl
  | cons t l ih =>
    rw [List.findSome?_cons, List.findSome?_cons]
    rcases h t List.mem_cons_self with ht | ht
    · rw [ht]
      cases g t with
      | some a => exact Or.inl rfl
      | none => exact ih fun t' ht' => h t' (List.mem_cons_of_mem _ ht')
    · rw [ht]
      exact Or.inr rfl

include hm in
/-- **Adding a spec last breaks no other.**  Every lookup is what it was or the action of the new spec, so what was
answered still is; and no pattern that was stored is lost. -/
theorem lookup_add_last (specs : List RouteSpec) (s : RouteSpec) (hb : ∀ s' ∈ specs ++ [s], NoBrace s'.path) :
    (∀ host path,
      ((buildAll m (specs ++ [s])).lookup host path = (buildAll m specs).lookup host path ∨
        (buildAll m (specs ++ [s])).lookup host path = some (actionOf specs.length s)) ∧
      ((buildAll m specs).lookup host path ≠ none → (buildAll m (specs ++ [s])).lookup host path ≠ none)) ∧
    ∀ tier, ∀ e ∈ m.accepted [] ((tierSpecs specs tier).flatMap entriesOf),
      e ∈ m.accepted [] ((tierSpecs (specs ++ [s]) tier).flatMap entriesOf) := by
  refine ⟨fun host path => ?_, fun tier e he => ?_⟩
  · have hcases : (buildAll m (specs ++ [s])).lookup host path = (buildAll m specs).lookup host path ∨
        (buildAll m (specs ++ [s])).lookup host path = some (actionOf specs.length s) := by
      rw [lookup_eq_findSome, lookup_eq_findSome]
      exact findSome_cases _ fun tier _ => tierHit_add_last hm hb tier _
    refine ⟨hcases, fun hsome => ?_⟩
    rcases hcases with h | h
    · rwa [h]
    · simp [h]
  · rw [tierSpecs_append, List.flatMap_append, PathRouter.accepted_append]
    exact PathRouter.subset_accepted _ _ e he

end AddLast

/-- A table that is extended by a prefix spec whose patterns are partly taken. -/
theorem lookup_add_last_sample :
    (∀ s ∈ [sampleSpec "*" "/a", sampleSpec "*.b" "/a/c"] ++ [sampleSpec "*" "/a/"], NoBrace s.path) ∧
      (buildAll PathRouter.reference ([sampleSpec "*" "/a", sampleSpec "*.b" "/a/c"] ++ [sampleSpec "*" "/a/"])).lookup none
        (ascii "/a/x") ≠ none := by
  have hb : ∀ s ∈ [sampleSpec "*" "/a", sampleSpec "*.b" "/a/c"] ++ [sampleSpec "*" "/a/"], NoBrace s.path := by decide
  refine ⟨hb, ((lookup_add_last PathRouter.reference_laws _ _ hb).1 none (ascii "/a/x")).2 ?_⟩
  decide +kernel

/-! ## The first spec with a pattern -/

/-- The spec is for exactly the path `p`; an empty path is read as `/`. -/
def ExactFor (p : Bytes) (s : RouteSpec) : Prop :=
  s.pathMatch = .exact ∧ ¬ HasShorthand s.path ∧ orRoot s.path = orRoot p

/-- The spec is for a prefix, and `p` is its base, with a slash behind it or without. -/
def PrefixAt (p : Bytes) (s : RouteSpec) : Prop :=
  (s.pathMatch = .pathPrefix ∨ HasShorthand s.path) ∧ (base s.path = orRoot p ∨ base s.path ++ [47] = orRoot p)

theorem noBrace_orRoot {p : Bytes} (h : NoBrace p) : NoBrace (orRoot p) := by
  unfold orRoot
  split
  · decide
  · exact h

theorem mem_expandPattern_static_iff {p : Bytes} (hp : NoBrace p) (s : RouteSpec) :
    orRoot p ∈ expandPattern s.path s.pathMatch ↔ ExactFor p s ∨ PrefixAt p s := by
  by_cases h : s.pathMatch = .exact ∧ ¬ HasShorthand s.path
  · have hprefix : ¬ (s.pathMatch = .pathPrefix ∨ HasShorthand s.path) := by
      rintro (hk | hs)
      · rw [h.1] at hk
        cases hk
      · exact h.2 hs
    rw [h.1, expandPattern_of_plain h.2, List.mem_singleton]
    constructor
    · exact fun heq => Or.inl ⟨h.1, h.2, heq.symm⟩
    · rintro (he | hat)
      · exact he.2.2.symm
      · exact absurd hat.1 hprefix
  · have hprefix : s.pathMatch = .pathPrefix ∨ HasShorthand s.path := by
      cases hk : s.pathMatch with
      | pathPrefix => exact Or.inl rfl
      | exact =>
        rw [hk] at h
        exact Or.inr (by_contra fun hs => h ⟨rfl, hs⟩)
    have hexact : ¬ ExactFor p s := fun he => h ⟨he.1, he.2.1⟩
    rw [expandPattern_of_not_plain h, mem_expandPattern_iff]
    simp only [hexact, PrefixAt, hprefix, true_and, false_or]
    constructor
    · rintro (⟨heq, -⟩ | heq | heq)
      · exact Or.inl heq.symm
      · exact Or.inr heq.symm
      · exact absurd (heq ▸ noBrace_orRoot hp) (not_noBrace_catchAll _)
    · rintro (heq | heq)
      · exact Or.inl ⟨heq.symm, heq ▸ orRoot_ne_nil p⟩
      · exact Or.inr (Or.inl heq.symm)

section First

variable {m : PathRouter} (hm : m.Laws)

theorem findSome_of_single {α β : Type} {f : α → Option β} {l : List α} {t : α} (ht : t ∈ l)
    (h : ∀ t' ∈ l, t' ≠ t → f t' = none) : l.findSome? f = f t := by
  induction l with
  | nil => simp at ht
  | cons a l ih =>
    rw [List.findSome?_cons]
    by_cases ha : a = t
    · subst ha
      cases hf : f a with
      | some b => rfl
      | none =>
        rw [List.findSome?_eq_none_iff]
        intro t' ht'
        by_cases hne : t' = a
        · rw [hne, hf]
        · exact h t' (List.mem_cons_of_mem _ ht') hne
    · rw [h a List.mem_cons_self ha]
      exact ih ((List.mem_cons.mp ht).resolve_left (Ne.symm ha)) fun t' ht' => h t' (List.mem_cons_of_mem _ ht')

include hm

theorem lookup_one_hostname {specs : List RouteSpec} {hostname host : Option Bytes}
    (hall : ∀ s ∈ specs, s.hostname = hostname)
    (hreach : tierOf hostname ∈ tiersOf (host.map RouteTable.normalizeHost)) (path : Bytes) :
    (buildAll m specs).lookup host path =
      m.matchAt (m.insertAll m.new (specs.zipIdx.flatMap entriesOf)) (orRoot path) := by
  have hmem : ∀ x ∈ specs.zipIdx, x.1.hostname = hostname := by
    intro x hx
    exact hall x.1 (List.mem_of_getElem? (List.mem_zipIdx_iff_getElem?.mp hx))
  have hown : tierSpecs specs (tierOf hostname) = specs.zipIdx := by
    rw [tierSpecs, List.filter_eq_self]
    intro x hx
    simp [hmem x hx]
  rw [lookup_eq_findSome, findSome_of_single hreach, tierHit_buildAll hm, hown]
  · rfl
  · intro t _ hne
    have hnone : tierSpecs specs t = [] := by
      rw [tierSpecs, List.filter_eq_nil_iff]
      intro x hx
      simpa [hmem x hx] using Ne.symm hne
    rw [tierHit_buildAll hm, hnone]
    exact hm.unmatched PathRouter.Built.new (by simp) (by simp) (by simp)

variable (hs : m.StaticLaws)
include hs

/-- **A path is answered by the first spec that has it for a pattern.** -/
theorem lookup_of_first_pattern {pre post : List RouteSpec} {s : RouteSpec} {hostname host : Option Bytes}
    (hall : ∀ s' ∈ pre ++ s :: post, s'.hostname = hostname)
    (hreach : tierOf hostname ∈ tiersOf (host.map RouteTable.normalizeHost)) {p : Bytes} (hp : NoBrace p)
    (hself : ExactFor p s ∨ PrefixAt p s) (hpre : ∀ s' ∈ pre, ¬ (ExactFor p s' ∨ PrefixAt p s')) :
    (buildAll m (pre ++ s :: post)).lookup host p = some (actionOf pre.length s) := by
  have hsplit : (pre ++ s :: post).zipIdx = pre.zipIdx ++ (s, pre.length) :: post.zipIdx (pre.length + 1) := by
    rw [List.zipIdx_append, List.zipIdx_cons, Nat.zero_add]
  rw [lookup_one_hostname hm hall hreach, hsplit]
  refine PathRouter.matchAt_of_find hm hs (noBrace_orRoot hp) (find_entry ?_ ?_)
  · exact (mem_expandPattern_static_iff hp s).mpr hself
  · intro x hx hmem
    have hxpre : x.1 ∈ pre := List.mem_of_getElem? (List.mem_zipIdx_iff_getElem?.mp hx)
    exact hpre x.1 hxpre ((mem_expandPattern_static_iff hp x.1).mp hmem)

/-- **The first exact spec for a path answers it exactly if no prefix spec that has the path for a pattern was added
before it.** -/
theorem exact_wins_iff {pre post : List RouteSpec} {s : RouteSpec} {hostname host : Option Bytes}
    (hall : ∀ s' ∈ pre ++ s :: post, s'.hostname = hostname)
    (hreach : tierOf hostname ∈ tiersOf (host.map RouteTable.normalizeHost)) {p : Bytes} (hp : NoBrace p)
    (hexact : ExactFor p s) (hfirst : ∀ s' ∈ pre, ¬ ExactFor p s') :
    (buildAll m (pre ++ s :: post)).lookup host p = some (actionOf pre.length s) ↔ ∀ s' ∈ pre, ¬ PrefixAt p s' := by
  constructor
  · intro hlook s' hs' hat
    -- the first spec with the pattern answers, and it is an earlier one
    obtain ⟨a, s₀, b, rfl, hs₀, ha⟩ := PathRouter.exists_first ⟨s', hs', hat⟩
    have hbefore : (buildAll m (a ++ s₀ :: (b ++ s :: post))).lookup host p = some (actionOf a.length s₀) := by
      refine lookup_of_first_pattern hm hs (by simpa using hall) hreach hp (Or.inr hs₀) ?_
      rintro s'' hs'' (h | h)
      · exact hfirst s'' (by simp [hs'']) h
      · exact ha s'' hs'' h
    have hlist : (a ++ s₀ :: b) ++ s :: post = a ++ s₀ :: (b ++ s :: post) := by simp
    rw [hlist, hbefore] at hlook
    have hcursor := congrArg (fun x : RouteAction => x.targetGroup.cursor) (Option.some.inj hlook)
    simp [actionOf, TargetGroup.fromEndpoints] at hcursor
  · intro hno
    refine lookup_of_first_pattern hm hs hall hreach hp (Or.inl hexact) ?_
    rintro s' hs' (h | h)
    · exact hfirst s' hs' h
    · exact hno s' hs' h

end First

/-- An exact spec for the path. -/
def sampleExact (path : String) : RouteSpec := { sampleSpec "*" path with pathMatch := .exact, routeName := ascii "exact" }

theorem exact_wins_when_added_first :
    (buildAll PathRouter.reference ([sampleSpec "*" "/"] ++ sampleExact "/p" :: [sampleSpec "*" "/p"])).lookup none
      (ascii "/p") = some (actionOf 1 (sampleExact "/p")) := by
  have hall : ∀ s ∈ [sampleSpec "*" "/"] ++ sampleExact "/p" :: [sampleSpec "*" "/p"],
      s.hostname = some (ascii "*") := by decide
  refine (exact_wins_iff PathRouter.reference_laws PathRouter.reference_staticLaws hall (by decide) (by decide)
    ⟨rfl, by decide, rfl⟩ ?_).mpr ?_
  · rintro s' hs' ⟨hk, -⟩
    obtain rfl := List.mem_singleton.mp hs'
    cases hk
  · rintro s' hs' ⟨-, hat⟩
    obtain rfl := List.mem_singleton.mp hs'
    revert hat
    decide

/-- The prefix `/p` takes the path `/p` from an exact spec that is added after it. -/
theorem prefix_wins_when_added_first :
    ¬ ∀ (specs : List RouteSpec) (i : ℕ) (s : RouteSpec), (∀ s' ∈ specs, s'.hostname = some (ascii "*")) →
      specs[i]? = some s → ExactFor (ascii "/p") s → (∀ j < i, ∀ s', specs[j]? = some s' → ¬ ExactFor (ascii "/p") s') →
        (buildAll PathRouter.reference specs).lookup none (ascii "/p") = some (actionOf i s) := by
  intro h
  have hexact := h [sampleSpec "*" "/p", sampleExact "/p"] 1 (sampleExact "/p") (by decide) rfl
    ⟨rfl, by decide, rfl⟩ ?_
  · revert hexact
    decide +kernel
  · rintro j hj s' hs' ⟨hk, -⟩
    obtain rfl : j = 0 := by omega
    obtain rfl := Option.some.inj hs'
    cases hk

end LbProxy.Core
