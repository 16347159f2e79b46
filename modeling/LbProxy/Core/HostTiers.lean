import LbProxy.Core.Lookup

/-!
# Which hosts every table routes alike

* `canFile` — some hostname is filed under the tier;
* `routingTiers` — the tiers of a host that can have routes, and `lookup_buildAll` — a built table asks only these;
* `lookup_solo` — a table with one prefix route answers exactly if the host has its tier;
* `lookup_eq_iff` — so two hosts are routed alike by every table exactly if they have the same routing tiers.
-/

namespace LbProxy.Core

open Lib RouteTableBuilder

/-! ## The tiers that routes are filed under -/

/-- Some hostname is filed under the tier. -/
def canFile : Tier → Bool
  | .exact host => lowercase host == host && host != ascii "*" && !(ascii "*.").isPrefixOf host
  | .wildcard suffix => lowercase suffix == suffix && suffix.head? == some 46
  | .default => true

theorem lowercase_not_wildcard {h : Bytes} (hstar : h ≠ ascii "*") (hwild : ¬ ascii "*." <+: h) :
    lowercase h ≠ ascii "*" ∧ ¬ ascii "*." <+: lowercase h := by
  have h42 : ∀ b, toLower b = 42 ↔ b = 42 := fun b => toLower_eq_iff (by decide) (by decide)
  have h46 : ∀ b, toLower b = 46 ↔ b = 46 := fun b => toLower_eq_iff (by decide) (by decide)
  have hlit : ascii "*" = [42] ∧ ascii "*." = [42, 46] := by decide
  rw [hlit.1] at hstar ⊢
  rw [hlit.2] at hwild ⊢
  rcases h with _ | ⟨a, _ | ⟨b, t⟩⟩
  · simp
  · simpa [h42] using hstar
  · simp only [List.cons_prefix_cons, List.nil_prefix, and_true, not_and] at hwild
    refine ⟨by simp, ?_⟩
    simp only [lowercase_cons, List.cons_prefix_cons, List.nil_prefix, and_true, not_and]
    intro ha hb
    exact hwild ((h42 a).mp ha.symm).symm ((h46 b).mp hb.symm).symm

theorem canFile_iff {tier : Tier} : canFile tier = true ↔ ∃ hostname, tierOf hostname = tier := by
  constructor
  · intro h
    cases tier with
    | default => exact ⟨none, rfl⟩
    | exact host =>
      simp only [canFile, Bool.and_eq_true, beq_iff_eq, bne_iff_ne, Bool.not_eq_true', ← Bool.not_eq_true,
        List.isPrefixOf_iff_prefix] at h
      obtain ⟨⟨hlow, hstar⟩, hwild⟩ := h
      exact ⟨some host, by simp [tierOf, hstar, hwild, hlow]⟩
    | wildcard suffix =>
      simp only [canFile, Bool.and_eq_true, beq_iff_eq] at h
      obtain ⟨hlow, hdot⟩ := h
      obtain ⟨t, rfl⟩ : ∃ t, suffix = 46 :: t := by
        cases suffix with
        | nil => cases hdot
        | cons b t => exact ⟨t, by simpa using hdot⟩
      refine ⟨some (42 :: 46 :: t), ?_⟩
      have hne : (42 : UInt8) :: 46 :: t ≠ ascii "*" := by
        rw [show ascii "*" = [42] by decide]
        simp
      have hpre : ascii "*." <+: (42 : UInt8) :: 46 :: t := ⟨t, rfl⟩
      simp only [tierOf, if_neg hne, if_pos hpre, List.drop_succ_cons, List.drop_zero, hlow]
  · rintro ⟨hostname, rfl⟩
    cases hostname with
    | none => rfl
    | some h =>
      by_cases hstar : h = ascii "*"
      · simp [tierOf, hstar, canFile]
      · by_cases hwild : ascii "*." <+: h
        · obtain ⟨t, rfl⟩ := hwild
          have hdrop : (ascii "*." ++ t).drop 1 = 46 :: t := rfl
          have hdot : toLower 46 = 46 := by decide
          simp [tierOf, hstar, canFile, hdrop, hdot]
        · obtain ⟨h1, h2⟩ := lowercase_not_wildcard hstar hwild
          simp only [tierOf, if_neg hstar, if_neg hwild, canFile, Bool.and_eq_true, beq_iff_eq, bne_iff_ne,
            Bool.not_eq_true', ← Bool.not_eq_true, List.isPrefixOf_iff_prefix]
          exact ⟨⟨lowercase_lowercase h, h1⟩, h2⟩

/-- The tiers of a host that can have routes, first to last. -/
def routingTiers (host : Option Bytes) : List Tier :=
  (tiersOf (host.map RouteTable.normalizeHost)).filter canFile

/-! ## The order of the tiers -/

/-- How far up a tier stands: longer names come first. -/
def tierRank : Tier → ℕ
  | .exact host => host.length + 1
  | .wildcard suffix => suffix.length
  | .default => 0

theorem dotSuffixes_pairwise (n : Bytes) : (dotSuffixes n).Pairwise fun a b => b.length < a.length := by
  induction n with
  | nil => simp [dotSuffixes]
  | cons b s ih =>
    rw [dotSuffixes_cons]
    split
    · refine List.pairwise_cons.mpr ⟨fun t ht => ?_, ih⟩
      have hsuf : t <:+ s := (List.mem_tails _ _).mp (List.mem_of_mem_filter (show t ∈ dotSuffixes s from ht))
      have := hsuf.length_le
      simp only [List.length_cons]
      omega
    · exact ih

theorem tiersOf_pairwise (n : Option Bytes) : (tiersOf n).Pairwise fun a b => tierRank b < tierRank a := by
  cases n with
  | none => simp [tiersOf]
  | some n =>
    have hsuffix : ∀ s ∈ dotSuffixes n, 0 < s.length ∧ s.length ≤ n.length := by
      intro s hs
      simp only [dotSuffixes, List.mem_filter, List.mem_tails, decide_eq_true_eq] at hs
      refine ⟨?_, hs.1.length_le⟩
      cases s with
      | nil => simp at hs
      | cons b t => simp
    simp only [tiersOf, List.cons_append, List.pairwise_cons, List.mem_append, List.mem_map, List.mem_singleton]
    refine ⟨?_, List.pairwise_append.mpr ⟨?_, List.pairwise_singleton _ _, ?_⟩⟩
    · rintro t (⟨s, hs, rfl⟩ | rfl)
      · have := hsuffix s hs
        simp only [tierRank]
        omega
      · simp [tierRank]
    · exact List.pairwise_map.mpr (dotSuffixes_pairwise n)
    · intro a ha b hb
      obtain ⟨s, hs, rfl⟩ := List.mem_map.mp ha
      rw [List.mem_singleton.mp hb]
      exact (hsuffix s hs).1

/-- Hosts with the same routing tiers have them in the same order. -/
theorem routingTiers_ext {h h' : Option Bytes} (hmem : ∀ tier, tier ∈ routingTiers h ↔ tier ∈ routingTiers h') :
    routingTiers h = routingTiers h' := by
  have hsorted : ∀ h, (routingTiers h).Pairwise fun a b => tierRank b < tierRank a := fun h =>
    (tiersOf_pairwise _).filter _
  have hnodup : ∀ h, (routingTiers h).Nodup := fun h =>
    (hsorted h).imp fun {a b} hlt => by
      rintro rfl
      omega
  have hperm := (List.perm_ext_iff_of_nodup (hnodup h) (hnodup h')).mpr hmem
  refine List.Perm.eq_of_pairwise ?_ (hsorted h) (hsorted h') hperm
  intro a b _ _ h1 h2
  omega

/-! ## One route -/

/-- A route of a hostname for every path. -/
def soloSpec (hostname : Option Bytes) : RouteSpec := ⟨hostname, [47], .pathPrefix, [], ⟨none⟩, []⟩

section Lookup

variable {m : PathRouter} (hm : m.Laws)
include hm

theorem lookup_buildAll (specs : List RouteSpec) (host : Option Bytes) (path : Bytes) :
    (buildAll m specs).lookup host path =
      (routingTiers host).findSome? ((buildAll m specs).tierHit (if path = [] then [47] else path)) := by
  have hskip : ∀ tiers : List Tier, ∀ q, tiers.findSome? ((buildAll m specs).tierHit q) =
      (tiers.filter canFile).findSome? ((buildAll m specs).tierHit q) := by
    intro tiers q
    induction tiers with
    | nil => rfl
    | cons tier tiers ih =>
      rw [List.filter_cons, List.findSome?_cons, ih]
      split
      · rename_i a ha
        have hfile : canFile tier = true := by
          by_contra hno
          have hnone : tierSpecs specs tier = [] := by
            rw [tierSpecs, List.filter_eq_nil_iff]
            intro x _ htier
            exact hno (canFile_iff.mpr ⟨_, of_decide_eq_true htier⟩)
          rw [tierHit_buildAll hm, hnone] at ha
          have hnew : m.matchAt (m.new : m.Router RouteAction) q = none :=
            hm.unmatched PathRouter.Built.new (by simp) (by simp) (by simp)
          rw [show m.insertAll m.new (([] : List (RouteSpec × ℕ)).flatMap entriesOf) = m.new from rfl, hnew] at ha
          cases ha
        rw [if_pos hfile, List.findSome?_cons, ha]
      · rename_i hnone
        split
        · rw [List.findSome?_cons, hnone]
        · rfl
  rw [lookup_eq_findSome, hskip]
  rfl

/-- **A table with one route answers exactly the paths from the root, for the hosts with its tier.** -/
theorem lookup_solo (hostname host : Option Bytes) {path : Bytes} (hpath : path ≠ []) :
    ((buildAll m [soloSpec hostname]).lookup host path).isSome = true ↔
      tierOf hostname ∈ routingTiers host ∧ path.head? = some 47 := by
  have hprefix : ∀ s ∈ [soloSpec hostname], PrefixSpec s := by
    intro s hs
    rw [List.mem_singleton.mp hs]
    exact ⟨rfl, show NoBrace [47] by decide⟩
  have hbase : base (soloSpec hostname).path = [] := show base [47] = [] by decide
  have hcovers : Covers (soloSpec hostname) path ↔ path.head? = some 47 := by
    rw [Covers, hbase]
    cases path with
    | nil => exact absurd rfl hpath
    | cons b t => simp [List.cons_prefix_cons, eq_comm]
  have hhit : ∀ tier, ((buildAll m [soloSpec hostname]).tierHit path tier).isSome = true ↔
      tierOf hostname = tier ∧ path.head? = some 47 := by
    intro tier
    rw [← Option.ne_none_iff_isSome, ne_eq, tierHit_eq_none_iff hm hprefix hpath]
    simp only [List.mem_singleton, forall_eq, ← tierOf_eq_iff, hcovers, not_forall, not_not, exists_prop]
    rfl
  rw [lookup_buildAll hm, if_neg hpath, List.findSome?_isSome_iff]
  constructor
  · rintro ⟨tier, htier, hsome⟩
    obtain ⟨rfl, hhead⟩ := (hhit tier).mp hsome
    exact ⟨htier, hhead⟩
  · rintro ⟨htier, hhead⟩
    exact ⟨_, htier, (hhit _).mpr ⟨rfl, hhead⟩⟩

/-- **Two hosts are routed alike by every table exactly if they have the same routing tiers.** -/
theorem lookup_eq_iff (h h' : Option Bytes) {path : Bytes} (hpath : path.head? = some 47) :
    (∀ specs, (buildAll m specs).lookup h path = (buildAll m specs).lookup h' path) ↔
      routingTiers h = routingTiers h' := by
  have hne : path ≠ [] := by
    rintro rfl
    cases hpath
  constructor
  · intro hall
    refine routingTiers_ext fun tier => ?_
    by_cases hfile : ∃ hostname, tierOf hostname = tier
    · obtain ⟨hostname, rfl⟩ := hfile
      have h1 := lookup_solo hm hostname h hne
      have h2 := lookup_solo hm hostname h' hne
      rw [hall, h2] at h1
      simpa [hpath] using h1.symm
    · have hno : ∀ host, tier ∉ routingTiers host := fun host hmem =>
        hfile (canFile_iff.mp (List.mem_filter.mp hmem).2)
      simp [hno]
  · intro heq specs
    rw [lookup_buildAll hm, lookup_buildAll hm, heq]

end Lookup

end LbProxy.Core
