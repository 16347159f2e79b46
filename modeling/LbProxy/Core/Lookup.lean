import LbProxy.Core.RouteTable
import Mathlib.Data.List.Enum
import Mathlib.Tactic.Common

/-!
# Lookup is longest-prefix routing with host precedence

* `tierRoutes` — what the builder files under a tier, and `tierRoutes_foldl_add`: the patterns of the
  specs of that tier, in the order in which they were added;
* `lookup_eq_findSome` — a lookup asks the tiers of its host one after the other;
* `matchAt_of_best`, `matchAt_of_uncovered` — one tier of prefix routes: the first-added spec with the
  longest base among those that cover the path;
* `lookup_longest_base` — the two together, for tables of prefix routes.
-/

namespace LbProxy.Core

open Lib RouteTableBuilder

/-! ## What the builder files under a tier -/

/-- The patterns filed under a tier, in order. -/
def RouteTableBuilder.tierRoutes (b : RouteTableBuilder) : Tier → List (Bytes × RouteAction)
  | .exact key => (b.exact.lookup key).getD []
  | .wildcard suffix => (b.wildcard.lookup suffix).getD []
  | .default => b.defaultRoutes

/-- The patterns of one route. -/
def entriesOf (x : RouteSpec × ℕ) : List (Bytes × RouteAction) :=
  (expandPattern x.1.path x.1.pathMatch).map fun p => (p, actionOf x.2 x.1)

theorem push_routeCount (b : RouteTableBuilder) (t : Tier) (e : Bytes × RouteAction) :
    (b.push t e).routeCount = b.routeCount := by
  cases t <;> rfl

theorem tierRoutes_push (b : RouteTableBuilder) (t t' : Tier) (e : Bytes × RouteAction) :
    (b.push t e).tierRoutes t' = b.tierRoutes t' ++ if t = t' then [e] else [] := by
  cases t with
  | default => cases t' <;> simp [push, tierRoutes]
  | wildcard s =>
    cases t' with
    | wildcard s' =>
      by_cases h : s = s'
      · subst h; simp [push, tierRoutes]
      · simp [push, tierRoutes, h, AList.lookup_insert_ne (Ne.symm h)]
    | _ => simp [push, tierRoutes]
  | exact k =>
    cases t' with
    | exact k' =>
      by_cases h : k = k'
      · subst h; simp [push, tierRoutes]
      · simp [push, tierRoutes, h, AList.lookup_insert_ne (Ne.symm h)]
    | _ => simp [push, tierRoutes]

theorem foldl_push (spec : RouteSpec) (ps : List Bytes) (b : RouteTableBuilder) (t : Tier) :
    let b' := ps.foldl (fun b p => b.push (tierOf spec.hostname) (p, actionOf b.routeCount spec)) b
    b'.routeCount = b.routeCount ∧
      b'.tierRoutes t = b.tierRoutes t ++
        if tierOf spec.hostname = t then ps.map fun p => (p, actionOf b.routeCount spec) else [] := by
  induction ps generalizing b with
  | nil => simp
  | cons p ps ih =>
    obtain ⟨h1, h2⟩ := ih (b.push (tierOf spec.hostname) (p, actionOf b.routeCount spec))
    simp only [List.foldl_cons]
    refine ⟨h1.trans (push_routeCount _ _ _), ?_⟩
    rw [h2, tierRoutes_push, push_routeCount]
    by_cases h : tierOf spec.hostname = t <;> simp [h]

theorem add_routeCount (b : RouteTableBuilder) (spec : RouteSpec) :
    (b.add spec).routeCount = b.routeCount + 1 := by
  have := (foldl_push spec (expandPattern spec.path spec.pathMatch) b .default).1
  simp only [add, this]

theorem tierRoutes_add (b : RouteTableBuilder) (spec : RouteSpec) (t : Tier) :
    (b.add spec).tierRoutes t = b.tierRoutes t ++
      if tierOf spec.hostname = t then entriesOf (spec, b.routeCount) else [] := by
  have h := (foldl_push spec (expandPattern spec.path spec.pathMatch) b t).2
  have hcount : ∀ (c : RouteTableBuilder) n, ({ c with routeCount := n }).tierRoutes t = c.tierRoutes t := by
    intro c n; cases t <;> rfl
  simp only [add, hcount]
  exact h

/-- **The builder files the patterns of each tier in the order of the specs.** -/
theorem tierRoutes_foldl_add (specs : List RouteSpec) (b : RouteTableBuilder) (t : Tier) :
    (specs.foldl add b).tierRoutes t = b.tierRoutes t ++
      ((specs.zipIdx b.routeCount).filter fun x => tierOf x.1.hostname = t).flatMap entriesOf := by
  induction specs generalizing b with
  | nil => simp
  | cons s specs ih =>
    rw [List.foldl_cons, ih, tierRoutes_add, add_routeCount, List.zipIdx_cons, List.filter_cons]
    by_cases h : tierOf s.hostname = t <;> simp [h]

/-! ## Asking the tiers one after the other -/

section Tiers

variable {m : PathRouter}

theorem lookup_foldl_insert {α β : Type} (f : α → β) (k : Bytes) :
    ∀ (l : List (Sigma fun _ : Bytes => α)) (acc : HostMap β), l.NodupKeys →
      (l.foldl (fun t e => t.insert e.1 (f e.2)) acc).lookup k =
        ((l.dlookup k).map f).or (acc.lookup k)
  | [], acc, _ => by simp
  | e :: l, acc, h => by
    obtain ⟨hne, hl⟩ := List.nodupKeys_cons.mp h
    rw [List.foldl_cons, lookup_foldl_insert f k l _ hl]
    by_cases hk : k = e.1
    · subst hk
      obtain ⟨k', v⟩ := e
      have hnone : l.dlookup k' = none := List.dlookup_eq_none.mpr hne
      simp [hnone]
    · obtain ⟨k', v⟩ := e
      rw [AList.lookup_insert_ne hk, List.dlookup_cons_ne _ _ hk]

theorem lookup_compileHosts (hosts : HostMap (List (Bytes × RouteAction))) (k : Bytes) :
    (compileHosts m hosts).lookup k = (hosts.lookup k).map (compile m) := by
  have h := lookup_foldl_insert (compile m) k hosts.entries ∅ hosts.nodupKeys
  rw [AList.lookup_empty, Option.or_none] at h
  exact h

/-- The action a tier of the table routes a path to. -/
def RouteTable.tierHit (t : RouteTable m) (path : Bytes) : Tier → Option RouteAction
  | .exact host => (t.exactHosts.lookup host).bind (·.matchAt m path)
  | .wildcard suffix => (t.wildcardHosts.lookup suffix).bind (·.matchAt m path)
  | .default => t.defaultRouter.matchAt m path

theorem tierHit_build (hm : m.Laws) (b : RouteTableBuilder) (path : Bytes) (tier : Tier) :
    (build m b).tierHit path tier = m.matchAt (m.insertAll m.new (b.tierRoutes tier)) path := by
  have hnew : ∀ q, m.matchAt (m.new : m.Router RouteAction) q = none := fun q =>
    hm.unmatched PathRouter.Built.new (by simp) (by simp) (by simp)
  cases tier with
  | default => rfl
  | exact host =>
    simp only [RouteTable.tierHit, build, tierRoutes, lookup_compileHosts]
    cases b.exact.lookup host with
    | none => exact (hnew path).symm
    | some l => rfl
  | wildcard suffix =>
    simp only [RouteTable.tierHit, build, tierRoutes, lookup_compileHosts]
    cases b.wildcard.lookup suffix with
    | none => exact (hnew path).symm
    | some l => rfl

/-- The suffixes of a host that start at a dot, longest first. -/
def dotSuffixes (host : Bytes) : List Bytes := host.tails.filter fun s => s.head? = some 46

/-- The tiers that a normalised host passes through. -/
def tiersOf (normalized : Option Bytes) : List Tier :=
  match normalized with
  | none => [.default]
  | some n => .exact n :: (dotSuffixes n).map .wildcard ++ [.default]

theorem dotSuffixes_cons (b : UInt8) (s : Bytes) :
    dotSuffixes (b :: s) = (if b = 46 then [b :: s] else []) ++ dotSuffixes s := by
  unfold dotSuffixes
  rw [List.tails_cons, List.filter_cons]
  by_cases h : b = 46 <;> simp [h]

theorem dotSuffixes_of_findByte_none {s : Bytes} (h : findByte 46 s = none) : dotSuffixes s = [] := by
  induction s with
  | nil => rfl
  | cons b s ih =>
    simp only [findByte, List.findIdx?_cons] at h ih
    split at h
    · simp at h
    · rename_i hb
      rw [dotSuffixes_cons, if_neg (by simpa using hb), ih (by simpa using h)]
      rfl

theorem dotSuffixes_of_findByte {s : Bytes} {dot : ℕ} (h : findByte 46 s = some dot) :
    dotSuffixes s = s.drop dot :: dotSuffixes ((s.drop dot).drop 1) := by
  induction s generalizing dot with
  | nil => simp [findByte] at h
  | cons b s ih =>
    simp only [findByte, List.findIdx?_cons] at h ih
    split at h
    · rename_i hb
      have hb' : b = 46 := by simpa using hb
      obtain rfl : 0 = dot := by simpa using h
      rw [dotSuffixes_cons, if_pos hb']
      rfl
    · rename_i hb
      obtain ⟨d, hd, rfl⟩ := Option.map_eq_some_iff.mp h
      rw [dotSuffixes_cons, if_neg (by simpa using hb), ih hd]
      rfl

theorem wildcardWalk_eq (t : RouteTable m) (path current : Bytes) :
    RouteTable.wildcardWalk t.wildcardHosts path current =
      (dotSuffixes current).findSome? fun s => t.tierHit path (.wildcard s) := by
  induction hn : current.length using Nat.strong_induction_on generalizing current with
  | _ n ih =>
    rw [RouteTable.wildcardWalk.eq_def]
    split
    · rename_i h
      rw [dotSuffixes_of_findByte_none h]
      rfl
    · rename_i dot h
      rw [dotSuffixes_of_findByte h, List.findSome?_cons]
      simp only [RouteTable.tierHit]
      split
      · rename_i a ha
        rw [ha]
      · rename_i ha
        rw [ha]
        split
        · rename_i hlen
          have hnil : (current.drop dot).drop 1 = [] := by
            rw [List.drop_eq_nil_iff]; omega
          rw [hnil]
          rfl
        · rename_i hlen
          have hlt : ((current.drop dot).drop 1).length < n := by
            have : (current.drop dot).length ≤ current.length := by simp
            rw [List.length_drop]; omega
          exact ih _ hlt _ rfl

/-- **A lookup asks the tiers of its host one after the other.** -/
theorem lookup_eq_findSome (t : RouteTable m) (host : Option Bytes) (path : Bytes) :
    t.lookup host path = (tiersOf (host.map RouteTable.normalizeHost)).findSome?
      (t.tierHit (if path = [] then [47] else path)) := by
  cases host with
  | none => simp [RouteTable.lookup, tiersOf, RouteTable.tierHit]
  | some h =>
    simp only [RouteTable.lookup, Option.bind_some, Option.map_some, tiersOf, List.cons_append,
      List.findSome?_cons, List.findSome?_append, List.findSome?_map, List.findSome?_nil]
    generalize (if path = [] then [47] else path) = q
    generalize RouteTable.normalizeHost h = n
    have hwalk : (if t.wildcardHosts.entries.isEmpty then none
        else RouteTable.wildcardWalk t.wildcardHosts q n) =
        (dotSuffixes n).findSome? (t.tierHit q ∘ Tier.wildcard) := by
      split
      · rename_i hemp
        have hno : ∀ s, t.wildcardHosts.lookup s = none := by
          intro s
          rw [AList.lookup, List.isEmpty_iff.mp hemp]
          rfl
        symm
        rw [List.findSome?_eq_none_iff]
        intro s _
        simp [RouteTable.tierHit, hno]
      · exact wildcardWalk_eq t q n
    rw [hwalk]
    simp only [RouteTable.tierHit]
    cases (t.exactHosts.lookup n).bind (·.matchAt m q) with
    | some a => rfl
    | none =>
      simp only
      cases (dotSuffixes n).findSome? (t.tierHit q ∘ Tier.wildcard) with
      | some a => rfl
      | none =>
        simp only [Option.none_or]
        cases t.defaultRouter.matchAt m q <;> rfl

end Tiers

/-! ## The base of a prefix pattern -/

/-- A path without its trailing prefix shorthand. -/
def dropShorthand (path : Bytes) : Bytes :=
  (stripSuffix (ascii "/*catchall") path <|> stripSuffix (ascii "/*path") path <|>
    stripSuffix (ascii "/*") path).getD path

/-- The base of a prefix pattern: no shorthand, no trailing slashes. -/
def base (path : Bytes) : Bytes := trimEnd 47 (dropShorthand path)

/-- A path that is not empty. -/
def orRoot (path : Bytes) : Bytes := if path = [] then [47] else path

theorem orRoot_ne_nil (path : Bytes) : orRoot path ≠ [] := by
  unfold orRoot
  split
  · simp
  · assumption

/-- The spec covers the path: it is the base, or lies below it. -/
def Covers (s : RouteSpec) (q : Bytes) : Prop := q = base s.path ∨ base s.path ++ [47] <+: q

theorem dropShorthand_isPrefix (path : Bytes) : dropShorthand path <+: path := by
  unfold dropShorthand
  have hstrip : ∀ sfx t, stripSuffix sfx path = some t → t <+: path := by
    intro sfx t h
    rw [stripSuffix_eq_some] at h
    exact ⟨sfx, h.symm⟩
  cases h : (stripSuffix (ascii "/*catchall") path <|> stripSuffix (ascii "/*path") path <|>
      stripSuffix (ascii "/*") path) with
  | none => exact List.prefix_refl _
  | some t =>
    simp only [Option.getD_some]
    simp only [Option.orElse_eq_orElse, Option.orElse_eq_or, Option.or_eq_some_iff] at h
    rcases h with h | ⟨-, h | ⟨-, h⟩⟩ <;> exact hstrip _ _ h

theorem noBrace_base {path : Bytes} (h : NoBrace path) : NoBrace (base path) := by
  have hp : base path <+: path := (trimEnd_isPrefix _ _).trans (dropShorthand_isPrefix path)
  obtain ⟨t, ht⟩ := hp
  rw [← ht] at h
  exact h.of_append_left

theorem base_ne_append_slash (path t : Bytes) : base path ≠ t ++ [47] := trimEnd_not_suffix _ _ t

theorem expandPattern_of_base (path : Bytes) :
    expandPattern path .pathPrefix =
      if base path = [] then [[47], catchAll] else [base path, base path ++ [47], base path ++ catchAll] := by
  have hbase : trimEnd 47 (if (stripShorthand path).1 = [] then [47] else (stripShorthand path).1) =
      base path := by
    unfold stripShorthand base dropShorthand
    by_cases hroot : path = ascii "/*"
    · subst hroot
      decide
    · rw [if_neg hroot]
      cases (stripSuffix (ascii "/*catchall") path <|> stripSuffix (ascii "/*path") path <|>
          stripSuffix (ascii "/*") path) with
      | some t =>
        simp only [Option.getD_some]
        by_cases ht : t = []
        · simp [ht, trimEnd]
        · simp [ht]
      | none =>
        simp only [Option.getD_none]
        by_cases ht : path = []
        · simp [ht, trimEnd]
        · simp [ht]
  simp only [expandPattern, reduceCtorEq, false_and, if_false, hbase]

theorem mem_expandPattern_iff {path p : Bytes} :
    p ∈ expandPattern path .pathPrefix ↔
      (p = base path ∧ base path ≠ []) ∨ p = base path ++ [47] ∨ p = base path ++ catchAll := by
  rw [expandPattern_of_base]
  by_cases h : base path = [] <;> simp [h]

theorem plain_of_mem_expandPattern {path p : Bytes} (hb : NoBrace path)
    (hp : p ∈ expandPattern path .pathPrefix) : Plain p := by
  rcases mem_expandPattern_iff.mp hp with ⟨rfl, -⟩ | rfl | rfl
  · exact Or.inl (noBrace_base hb)
  · exact Or.inl ((noBrace_base hb).append (by decide))
  · exact Or.inr ⟨_, (noBrace_base hb), rfl⟩

theorem base_eq_of_shared {path path' p : Bytes} (hb : NoBrace path) (hb' : NoBrace path')
    (hp : p ∈ expandPattern path .pathPrefix) (hp' : p ∈ expandPattern path' .pathPrefix) :
    base path = base path' := by
  have hslash : NoBrace [47] := by decide
  rcases mem_expandPattern_iff.mp hp with ⟨rfl, -⟩ | rfl | rfl <;>
    rcases mem_expandPattern_iff.mp hp' with ⟨h, -⟩ | h | h
  · exact h
  · exact absurd h (base_ne_append_slash _ _)
  · exact absurd h (noBrace_base hb).ne_catchAll
  · exact absurd h.symm (base_ne_append_slash _ _)
  · exact List.append_cancel_right h
  · exact absurd h ((noBrace_base hb).append hslash).ne_catchAll
  · exact absurd h.symm (noBrace_base hb').ne_catchAll
  · exact absurd h.symm ((noBrace_base hb').append hslash).ne_catchAll
  · exact catchAll_inj h

/-- A covered path is the base, the base with a slash, or lies strictly below the base. -/
theorem covers_cases {s : RouteSpec} {q : Bytes} (h : Covers s q) :
    q = base s.path ∨ q = base s.path ++ [47] ∨ Below (base s.path) q := by
  rcases h with h | ⟨t, rfl⟩
  · exact Or.inl h
  · by_cases ht : t = []
    · exact Or.inr (Or.inl (by simp [ht]))
    · exact Or.inr (Or.inr ⟨t, ht, by simp⟩)

theorem Covers.of_below {s : RouteSpec} {q : Bytes} (h : Below (base s.path) q) : Covers s q := by
  obtain ⟨t, -, rfl⟩ := h
  exact Or.inr ⟨t, by simp⟩

/-- The patterns of a prefix route answer its base and what lies below. -/
theorem answers_expandPattern_iff {path q : Bytes} (hb : NoBrace path) (hq : q ≠ []) :
    (∃ p ∈ expandPattern path .pathPrefix, PathRouter.Answers p q) ↔
      q = base path ∨ base path ++ [47] <+: q := by
  have hbase := noBrace_base hb
  have hslash : NoBrace (base path ++ [47]) := hbase.append (by decide)
  constructor
  · rintro ⟨p, hp, hans⟩
    rcases mem_expandPattern_iff.mp hp with ⟨rfl, -⟩ | rfl | rfl
    · rcases hans with ⟨-, rfl⟩ | ⟨b, -, heq, -⟩
      · exact Or.inl rfl
      · exact absurd heq hbase.ne_catchAll
    · rcases hans with ⟨-, rfl⟩ | ⟨b, -, heq, -⟩
      · exact Or.inr (List.prefix_refl _)
      · exact absurd heq hslash.ne_catchAll
    · rcases hans with ⟨hnb, -⟩ | ⟨b, -, heq, t, -, rfl⟩
      · exact absurd hnb (not_noBrace_catchAll _)
      · rw [catchAll_inj heq]
        exact Or.inr ⟨t, by simp⟩
  · rintro (rfl | ⟨t, rfl⟩)
    · exact ⟨_, mem_expandPattern_iff.mpr (Or.inl ⟨rfl, hq⟩), Or.inl ⟨hbase, rfl⟩⟩
    · by_cases ht : t = []
      · subst ht
        rw [List.append_nil]
        exact ⟨_, mem_expandPattern_iff.mpr (Or.inr (Or.inl rfl)), Or.inl ⟨hslash, rfl⟩⟩
      · exact ⟨_, mem_expandPattern_iff.mpr (Or.inr (Or.inr rfl)),
          Or.inr ⟨base path, hbase, rfl, t, ht, by simp⟩⟩

/-! ## One tier of prefix routes -/

section OneTier

variable {m : PathRouter} (hm : m.Laws)

/-- A brace-free prefix route. -/
def PrefixSpec (s : RouteSpec) : Prop := s.pathMatch = .pathPrefix ∧ NoBrace s.path

theorem mem_entriesOf {x : RouteSpec × ℕ} (hx : PrefixSpec x.1) {e : Bytes × RouteAction} :
    e ∈ entriesOf x ↔ e.1 ∈ expandPattern x.1.path .pathPrefix ∧ e.2 = actionOf x.2 x.1 := by
  unfold entriesOf
  rw [hx.1, List.mem_map]
  constructor
  · rintro ⟨p, hp, rfl⟩
    exact ⟨hp, rfl⟩
  · rintro ⟨h1, h2⟩
    exact ⟨e.1, h1, by rw [← h2]⟩

theorem plain_flatMap_entriesOf {l : List (RouteSpec × ℕ)} (hl : ∀ x ∈ l, PrefixSpec x.1) :
    ∀ e ∈ l.flatMap entriesOf, Plain e.1 := by
  intro e he
  obtain ⟨x, hx, hex⟩ := List.mem_flatMap.mp he
  exact plain_of_mem_expandPattern (hl x hx).2 ((mem_entriesOf (hl x hx)).mp hex).1

/-- The first entry of a pattern belongs to the first spec that expands to it. -/
theorem find_entry {pre post : List (RouteSpec × ℕ)} {x : RouteSpec × ℕ} {p : Bytes}
    (hp : p ∈ expandPattern x.1.path x.1.pathMatch)
    (hnew : ∀ y ∈ pre, p ∉ expandPattern y.1.path y.1.pathMatch) :
    ((pre ++ x :: post).flatMap entriesOf).find? (·.1 == p) = some (p, actionOf x.2 x.1) := by
  have h1 : (pre.flatMap entriesOf).find? (·.1 == p) = none := by
    rw [List.find?_eq_none]
    intro e he
    obtain ⟨y, hy, hey⟩ := List.mem_flatMap.mp he
    obtain ⟨p', hp', rfl⟩ := List.mem_map.mp hey
    simpa using fun h : p' = p => hnew y hy (h ▸ hp')
  have h2 : (entriesOf x).find? (·.1 == p) = some (p, actionOf x.2 x.1) := by
    unfold entriesOf
    rw [List.find?_map]
    have : ((fun e : Bytes × RouteAction => e.1 == p) ∘ fun p => (p, actionOf x.2 x.1)) = (· == p) := rfl
    rw [this]
    cases hf : (expandPattern x.1.path x.1.pathMatch).find? (· == p) with
    | none => exact absurd (List.find?_eq_none.mp hf p hp) (by simp)
    | some p' =>
      have := List.find?_some hf
      simp only [beq_iff_eq] at this
      simp [this]
  rw [List.flatMap_append, List.flatMap_cons, List.find?_append, h1, Option.none_or, List.find?_append,
    h2, Option.some_or]

include hm

/-- **The best spec of a tier answers**: it covers the path, no spec behind it has a longer base among
those that cover the path, and every spec before it that covers the path has a shorter one. -/
theorem matchAt_of_best {pre post : List (RouteSpec × ℕ)} {x : RouteSpec × ℕ} {q : Bytes}
    (hspec : ∀ y ∈ pre ++ x :: post, PrefixSpec y.1) (hcov : Covers x.1 q) (hq : q ≠ [])
    (hpre : ∀ y ∈ pre, Covers y.1 q → (base y.1.path).length < (base x.1.path).length)
    (hpost : ∀ y ∈ post, Covers y.1 q → (base y.1.path).length ≤ (base x.1.path).length) :
    m.matchAt (m.insertAll m.new ((pre ++ x :: post).flatMap entriesOf)) q =
      some (actionOf x.2 x.1) := by
  have hplain := plain_flatMap_entriesOf hspec
  have hx := hspec x (by simp)
  have hbuilt := PathRouter.built_insertAll hm (PathRouter.Built.new (m := m))
    ((pre ++ x :: post).flatMap entriesOf)
  have hmem := fun e => PathRouter.mem_accepted_iff_find (m := m) hm (List.forall_mem_nil _) hplain e
  have hacc : ∀ e ∈ m.accepted [] ((pre ++ x :: post).flatMap entriesOf), Plain e.1 := by
    intro e he
    rcases PathRouter.accepted_subset _ _ e he with h | h
    · simp at h
    · exact hplain e h
  have hfrom : ∀ e ∈ m.accepted [] ((pre ++ x :: post).flatMap entriesOf),
      ∃ y ∈ pre ++ x :: post, e.1 ∈ expandPattern y.1.path .pathPrefix := by
    intro e he
    rcases PathRouter.accepted_subset _ _ e he with h | h
    · simp at h
    · obtain ⟨y, hy, hey⟩ := List.mem_flatMap.mp h
      exact ⟨y, hy, ((mem_entriesOf (hspec y hy)).mp hey).1⟩
  -- a pattern of `x` is filed by `x` first: an earlier spec that shares it has the same base
  have hown : ∀ p ∈ expandPattern x.1.path .pathPrefix,
      (p, actionOf x.2 x.1) ∈ m.accepted [] ((pre ++ x :: post).flatMap entriesOf) := by
    intro p hp
    rw [hmem]
    refine Or.inr ⟨by simp, find_entry (by rwa [hx.1]) ?_⟩
    intro y hy hpy
    rw [(hspec y (by simp [hy])).1] at hpy
    have heq := base_eq_of_shared (hspec y (by simp [hy])).2 hx.2 hpy hp
    have hcy : Covers y.1 q := by
      unfold Covers
      rw [heq]
      exact hcov
    have := hpre y hy hcy
    rw [heq] at this
    omega
  -- no spec with a longer base covers the path
  have hmax : ∀ y ∈ pre ++ x :: post, Covers y.1 q → (base y.1.path).length ≤ (base x.1.path).length := by
    intro y hy hc
    rcases List.mem_append.mp hy with h | h
    · exact (hpre y h hc).le
    · rcases List.mem_cons.mp h with rfl | h
      · exact le_rfl
      · exact hpost y h hc
  rcases covers_cases hcov with rfl | rfl | hbelow
  · exact hm.static hbuilt hacc (noBrace_base hx.2) (hown _ (mem_expandPattern_iff.mpr (Or.inl ⟨rfl, hq⟩)))
  · exact hm.static hbuilt hacc ((noBrace_base hx.2).append (by decide))
      (hown _ (mem_expandPattern_iff.mpr (Or.inr (Or.inl rfl))))
  · refine hm.catchAll hbuilt hacc ?_ (noBrace_base hx.2)
      (hown _ (mem_expandPattern_iff.mpr (Or.inr (Or.inr rfl)))) hbelow ?_
    · rintro e he hnb rfl
      obtain ⟨y, hy, hpy⟩ := hfrom e he
      have hlt := hbelow.length_lt
      rcases mem_expandPattern_iff.mp hpy with ⟨h, -⟩ | h | h
      · have := hmax y hy (Or.inl h)
        rw [h] at hlt
        omega
      · have := hmax y hy (Or.inr (by rw [h]))
        rw [h, List.length_append, List.length_singleton] at hlt
        omega
      · exact absurd h hnb.ne_catchAll
    · intro e he b' hb' heq hbel
      obtain ⟨y, hy, hpy⟩ := hfrom e he
      rcases mem_expandPattern_iff.mp hpy with ⟨h, -⟩ | h | h
      · exact absurd (h.symm.trans heq) (noBrace_base (hspec y hy).2).ne_catchAll
      · exact absurd (h.symm.trans heq) ((noBrace_base (hspec y hy).2).append (by decide)).ne_catchAll
      · obtain rfl := catchAll_inj (heq.symm.trans h)
        exact hmax y hy (Covers.of_below hbel)

theorem matchAt_of_uncovered {l : List (RouteSpec × ℕ)} {q : Bytes} (hq : q ≠ [])
    (hspec : ∀ y ∈ l, PrefixSpec y.1) (hno : ∀ y ∈ l, ¬ Covers y.1 q) :
    m.matchAt (m.insertAll m.new (l.flatMap entriesOf)) q = none := by
  rcases PathRouter.matchAt_insertAll_cases hm (plain_flatMap_entriesOf hspec) q with
    ⟨e, he, hans, -⟩ | ⟨hnone, -⟩
  · -- a pattern that matches belongs to a spec that covers the path
    obtain ⟨y, hy, hey⟩ := List.mem_flatMap.mp he
    have hpat := ((mem_entriesOf (hspec y hy)).mp hey).1
    exact absurd ((answers_expandPattern_iff (hspec y hy).2 hq).mp ⟨e.1, hpat, hans⟩) (hno y hy)
  · exact hnone

end OneTier

/-! ## The declarative rule -/

/-- The specs of a tier, by their hostname as written: hosts are compared ignoring ASCII case, a hostname
`*.x` is a wildcard and `*` is no hostname at all. -/
def Serves : Tier → RouteSpec → Prop
  | .exact n, s => ∃ h, s.hostname = some h ∧ h ≠ ascii "*" ∧ ¬ ascii "*." <+: h ∧ lowercase h = n
  | .wildcard x, s => ∃ h, s.hostname = some (ascii "*" ++ h) ∧ ascii "." <+: h ∧ lowercase h = x
  | .default, s => s.hostname = none ∨ s.hostname = some (ascii "*")

/-- The tiers of a `Host` value, first to last. -/
def hostTiers (host : Option Bytes) : List Tier := tiersOf (host.map fun h => lowercase (hostWithoutPort h))

/-- The `i`-th spec is the first-added one with the longest base among the specs of the tier that cover
the path. -/
def Best (specs : List RouteSpec) (tier : Tier) (q : Bytes) (i : ℕ) (s : RouteSpec) : Prop :=
  specs[i]? = some s ∧ Serves tier s ∧ Covers s q ∧
    ∀ (j : ℕ) (s' : RouteSpec), specs[j]? = some s' → Serves tier s' → Covers s' q →
      (base s'.path).length < (base s.path).length ∨ ((base s'.path).length = (base s.path).length ∧ i ≤ j)

theorem tierOf_eq_iff (s : RouteSpec) (tier : Tier) : tierOf s.hostname = tier ↔ Serves tier s := by
  unfold tierOf
  cases hh : s.hostname with
  | none => cases tier <;> simp [Serves, hh]
  | some h =>
    simp only
    by_cases hstar : h = ascii "*"
    · rw [if_pos hstar]
      subst hstar
      cases tier with
      | default => simp [Serves, hh]
      | exact n => simp [Serves, hh]
      | wildcard x =>
        simp only [reduceCtorEq, Serves, hh, Option.some.injEq, false_iff]
        rintro ⟨h, he, ⟨t, rfl⟩, -⟩
        simp [ascii] at he
    · rw [if_neg hstar]
      by_cases hwild : ascii "*." <+: h
      · rw [if_pos hwild]
        obtain ⟨t, rfl⟩ := hwild
        have hsplit : ascii "*." ++ t = ascii "*" ++ (ascii "." ++ t) := rfl
        cases tier with
        | default => simp [Serves, hh, ascii]
        | exact n => simp [Serves, hh]
        | wildcard x =>
          simp only [Serves, hh, Tier.wildcard.injEq, Option.some.injEq]
          constructor
          · rintro rfl
            exact ⟨ascii "." ++ t, hsplit, List.prefix_append _ _, rfl⟩
          · rintro ⟨h, he, -, rfl⟩
            rw [hsplit] at he
            obtain rfl := List.append_cancel_left he
            rfl
      · rw [if_neg hwild]
        cases tier with
        | default => simp [Serves, hh, hstar]
        | exact n => simp [Serves, hh, hstar, hwild]
        | wildcard x =>
          simp only [reduceCtorEq, Serves, hh, Option.some.injEq, false_iff]
          rintro ⟨h', rfl, ⟨t, rfl⟩, -⟩
          exact hwild ⟨t, rfl⟩

theorem exists_first_longest {α : Type} (P : α → Prop) (f : α → ℕ) :
    ∀ l : List α, (∃ x ∈ l, P x) → ∃ pre x post, l = pre ++ x :: post ∧ P x ∧
      (∀ y ∈ pre, P y → f y < f x) ∧ ∀ y ∈ post, P y → f y ≤ f x
  | [], h => by simp at h
  | a :: l, h => by
    by_cases hl : ∃ x ∈ l, P x
    · obtain ⟨pre, x, post, rfl, hx, hpre, hpost⟩ := exists_first_longest P f l hl
      by_cases ha : P a ∧ f x ≤ f a
      · refine ⟨[], a, pre ++ x :: post, rfl, ha.1, by simp, ?_⟩
        intro y hy hyP
        rcases List.mem_append.mp hy with h1 | h1
        · have := hpre y h1 hyP; omega
        · rcases List.mem_cons.mp h1 with rfl | h2
          · exact ha.2
          · have := hpost y h2 hyP; omega
      · refine ⟨a :: pre, x, post, rfl, hx, ?_, hpost⟩
        intro y hy hyP
        rcases List.mem_cons.mp hy with rfl | hy
        · by_contra hlt
          exact ha ⟨hyP, by omega⟩
        · exact hpre y hy hyP
    · obtain ⟨x, hx, hP⟩ := h
      rcases List.mem_cons.mp hx with rfl | hx
      · exact ⟨[], x, l, rfl, hP, by simp, fun y hy hyP => absurd ⟨y, hy, hyP⟩ hl⟩
      · exact absurd ⟨x, hx, hP⟩ hl

section Rule

variable {m : PathRouter} (hm : m.Laws) {specs : List RouteSpec} (hspecs : ∀ s ∈ specs, PrefixSpec s)

/-- The specs of a tier with their positions. -/
def tierSpecs (specs : List RouteSpec) (tier : Tier) : List (RouteSpec × ℕ) :=
  specs.zipIdx.filter fun x => tierOf x.1.hostname = tier

/-- Each tier of a built table answers as the router of the patterns of its specs. -/
theorem tierHit_buildAll (hm : m.Laws) (specs : List RouteSpec) (tier : Tier) (q : Bytes) :
    (buildAll m specs).tierHit q tier =
      m.matchAt (m.insertAll m.new ((tierSpecs specs tier).flatMap entriesOf)) q := by
  have hnew : new.tierRoutes tier = [] := by cases tier <;> rfl
  rw [buildAll, tierHit_build hm, tierRoutes_foldl_add, hnew, List.nil_append]
  rfl

theorem mem_tierSpecs {tier : Tier} {x : RouteSpec × ℕ} :
    x ∈ tierSpecs specs tier ↔ specs[x.2]? = some x.1 ∧ Serves tier x.1 := by
  unfold tierSpecs
  rw [List.mem_filter, List.mem_zipIdx_iff_getElem?]
  simp [tierOf_eq_iff]

theorem tierSpecs_sorted (specs : List RouteSpec) (tier : Tier) :
    (tierSpecs specs tier).Pairwise fun x y => x.2 < y.2 := by
  refine List.Pairwise.filter _ ?_
  have hmap : (specs.zipIdx.map Prod.snd).Pairwise (· < ·) := by
    rw [List.zipIdx_map_snd]
    exact List.pairwise_lt_range'
  exact List.pairwise_map.mp hmap

include hm hspecs

theorem tierHit_of_best {tier : Tier} {q : Bytes} (hq : q ≠ []) {i : ℕ} {s : RouteSpec}
    (h : Best specs tier q i s) : (buildAll m specs).tierHit q tier = some (actionOf i s) := by
  obtain ⟨hi, hserves, hcov, hmax⟩ := h
  obtain ⟨pre, post, hsplit⟩ := List.append_of_mem (mem_tierSpecs.mpr ⟨hi, hserves⟩ :
    ((s, i) : RouteSpec × ℕ) ∈ tierSpecs specs tier)
  have hsorted := tierSpecs_sorted specs tier
  rw [hsplit] at hsorted
  have hmem : ∀ y ∈ pre ++ (s, i) :: post, specs[y.2]? = some y.1 ∧ Serves tier y.1 := by
    intro y hy
    rw [← hsplit] at hy
    exact mem_tierSpecs.mp hy
  have hspec : ∀ y ∈ pre ++ (s, i) :: post, PrefixSpec y.1 := fun y hy =>
    hspecs _ (List.mem_of_getElem? (hmem y hy).1)
  rw [tierHit_buildAll hm, hsplit]
  refine matchAt_of_best hm hspec hcov hq ?_ ?_
  · intro y hy hc
    have hlt : y.2 < i := (List.pairwise_append.mp hsorted).2.2 y hy (s, i) (by simp)
    have hy' := hmem y (by simp [hy])
    rcases hmax y.2 y.1 hy'.1 hy'.2 hc with h | h
    · exact h
    · omega
  · intro y hy hc
    have hy' := hmem y (by simp [hy])
    rcases hmax y.2 y.1 hy'.1 hy'.2 hc with h | h
    · exact h.le
    · exact h.1.le

theorem tierHit_of_uncovered {tier : Tier} {q : Bytes} (hq : q ≠ [])
    (h : ∀ s ∈ specs, Serves tier s → ¬ Covers s q) : (buildAll m specs).tierHit q tier = none := by
  rw [tierHit_buildAll hm]
  refine matchAt_of_uncovered hm hq ?_ ?_
  · intro y hy
    exact hspecs _ (List.mem_of_getElem? (mem_tierSpecs.mp hy).1)
  · intro y hy
    obtain ⟨h1, h2⟩ := mem_tierSpecs.mp hy
    exact h y.1 (List.mem_of_getElem? h1) h2

omit hm hspecs in
theorem exists_best {tier : Tier} {q : Bytes} (h : ∃ s ∈ specs, Serves tier s ∧ Covers s q) :
    ∃ i s, Best specs tier q i s := by
  obtain ⟨s, hs, hserves, hcov⟩ := h
  obtain ⟨i, hi⟩ := List.mem_iff_getElem?.mp hs
  obtain ⟨pre, x, post, hsplit, hx, hpre, hpost⟩ := exists_first_longest
    (fun x : RouteSpec × ℕ => Covers x.1 q) (fun x => (base x.1.path).length) (tierSpecs specs tier)
    ⟨(s, i), mem_tierSpecs.mpr ⟨hi, hserves⟩, hcov⟩
  have hsorted := tierSpecs_sorted specs tier
  rw [hsplit] at hsorted
  have hxmem : x ∈ tierSpecs specs tier := by rw [hsplit]; simp
  obtain ⟨h1, h2⟩ := mem_tierSpecs.mp hxmem
  refine ⟨x.2, x.1, h1, h2, hx, ?_⟩
  intro j s' hj hs' hc
  have hy : ((s', j) : RouteSpec × ℕ) ∈ pre ++ x :: post := by
    rw [← hsplit]
    exact mem_tierSpecs.mpr ⟨hj, hs'⟩
  rcases List.mem_append.mp hy with h | h
  · have hlt := hpre (s', j) h hc
    exact Or.inl hlt
  · rcases List.mem_cons.mp h with h | h
    · obtain ⟨rfl, rfl⟩ := Prod.mk.inj h
      exact Or.inr ⟨rfl, le_rfl⟩
    · have hle := hpost (s', j) h hc
      have hlt : x.2 < j :=
        (List.pairwise_cons.mp (List.pairwise_append.mp hsorted).2.1).1 (s', j) h
      simp only at hle
      omega

theorem tierHit_eq_some_iff {tier : Tier} {q : Bytes} (hq : q ≠ []) (a : RouteAction) :
    (buildAll m specs).tierHit q tier = some a ↔ ∃ i s, Best specs tier q i s ∧ a = actionOf i s := by
  constructor
  · intro h
    by_cases hc : ∃ s ∈ specs, Serves tier s ∧ Covers s q
    · obtain ⟨i, s, hbest⟩ := exists_best hc
      rw [tierHit_of_best hm hspecs hq hbest] at h
      exact ⟨i, s, hbest, (Option.some.inj h).symm⟩
    · push Not at hc
      rw [tierHit_of_uncovered hm hspecs hq hc] at h
      cases h
  · rintro ⟨i, s, hbest, rfl⟩
    exact tierHit_of_best hm hspecs hq hbest

theorem tierHit_eq_none_iff {tier : Tier} {q : Bytes} (hq : q ≠ []) :
    (buildAll m specs).tierHit q tier = none ↔ ∀ s ∈ specs, Serves tier s → ¬ Covers s q := by
  constructor
  · intro h s hs hserves hcov
    obtain ⟨i, s', hbest⟩ := exists_best ⟨s, hs, hserves, hcov⟩
    rw [tierHit_of_best hm hspecs hq hbest] at h
    cases h
  · exact tierHit_of_uncovered hm hspecs hq

end Rule

theorem normalizeHost_of_le {h : Bytes} (hlen : (hostWithoutPort h).length ≤ MAX_HOST_LEN) :
    RouteTable.normalizeHost h = lowercase (hostWithoutPort h) := by
  simp only [RouteTable.normalizeHost, lowercaseAsciiInto]
  rw [if_neg (by omega)]

theorem lookup_eq_hostTiers {m : PathRouter} (t : RouteTable m) {host : Option Bytes}
    (hhost : ∀ h ∈ host, (hostWithoutPort h).length ≤ MAX_HOST_LEN) (path : Bytes) :
    t.lookup host path = (hostTiers host).findSome? (t.tierHit (if path = [] then [47] else path)) := by
  have hnorm : host.map RouteTable.normalizeHost = host.map fun h => lowercase (hostWithoutPort h) := by
    cases host with
    | none => rfl
    | some h => simp [normalizeHost_of_le (hhost h rfl)]
  rw [lookup_eq_findSome, hnorm]
  rfl

/-- **Lookup is longest-prefix routing with host precedence.**  For prefix specs without braces, a host
whose port-stripped form fits `MAX_HOST_LEN` (or none) and every path (an empty one is read as `/`): the
answer is the action of the first-added spec with the longest base among the covering specs of the first
tier of the host that has any, and there is none exactly when no tier has a covering spec. -/
theorem lookup_longest_base {m : PathRouter} (hm : m.Laws) (specs : List RouteSpec)
    (hspecs : ∀ s ∈ specs, s.pathMatch = .pathPrefix ∧ NoBrace s.path) (host : Option Bytes)
    (hhost : ∀ h ∈ host, (hostWithoutPort h).length ≤ MAX_HOST_LEN) (path : Bytes) :
    let q := if path = [] then [47] else path
    (∀ a, (buildAll m specs).lookup host path = some a ↔
      ∃ before tier after i s, hostTiers host = before ++ tier :: after ∧
        (∀ t ∈ before, ∀ s' ∈ specs, Serves t s' → ¬ Covers s' q) ∧ Best specs tier q i s ∧
        a = actionOf i s) ∧
    ((buildAll m specs).lookup host path = none ↔
      ∀ tier ∈ hostTiers host, ∀ s ∈ specs, Serves tier s → ¬ Covers s q) := by
  intro q
  have hq : q ≠ [] := by
    by_cases h : path = [] <;> simp [q, h]
  have hlookup : (buildAll m specs).lookup host path =
      (hostTiers host).findSome? ((buildAll m specs).tierHit q) := lookup_eq_hostTiers _ hhost path
  constructor
  · intro a
    rw [hlookup, List.findSome?_eq_some_iff]
    constructor
    · rintro ⟨before, tier, after, hsplit, hhit, hnone⟩
      obtain ⟨i, s, hbest, rfl⟩ := (tierHit_eq_some_iff hm hspecs hq a).mp hhit
      exact ⟨before, tier, after, i, s, hsplit,
        fun t ht => (tierHit_eq_none_iff hm hspecs hq).mp (hnone t ht), hbest, rfl⟩
    · rintro ⟨before, tier, after, i, s, hsplit, hnone, hbest, rfl⟩
      exact ⟨before, tier, after, hsplit, tierHit_of_best hm hspecs hq hbest,
        fun t ht => (tierHit_eq_none_iff hm hspecs hq).mpr (hnone t ht)⟩
  · rw [hlookup, List.findSome?_eq_none_iff]
    exact forall₂_congr fun tier _ => tierHit_eq_none_iff hm hspecs hq

/-- A prefix route of a host to one backend. -/
def sampleSpec (hostname path : String) : RouteSpec where
  hostname := some (ascii hostname)
  path := ascii path
  pathMatch := .pathPrefix
  endpoints := [⟨ascii "10.0.0.1:80", 1⟩]
  filters := ⟨none⟩
  routeName := ascii path

/-- The rule at two routes of `*.Example.com`. -/
theorem lookup_longest_base_sample :
    (buildAll PathRouter.reference [sampleSpec "*.Example.com" "/", sampleSpec "*.Example.com" "/api/*"]).lookup
      (some (ascii "www.example.com:8080")) (ascii "/api/v1") =
        some (actionOf 1 (sampleSpec "*.Example.com" "/api/*")) := by
  have hrule := lookup_longest_base PathRouter.reference_laws
    [sampleSpec "*.Example.com" "/", sampleSpec "*.Example.com" "/api/*"] (by decide)
    (some (ascii "www.example.com:8080")) (by decide) (ascii "/api/v1")
  refine (hrule.1 _).mpr ⟨[.exact (ascii "www.example.com")], .wildcard (ascii ".example.com"),
    [.wildcard (ascii ".com"), .default], 1, sampleSpec "*.Example.com" "/api/*", by decide, ?_, ?_, rfl⟩
  · intro t ht s hs hserves
    simp only [List.mem_singleton] at ht
    subst ht
    obtain ⟨h, hh, -, hwild, -⟩ := hserves
    simp only [List.mem_cons, List.not_mem_nil, or_false] at hs
    rcases hs with rfl | rfl
    · obtain rfl : ascii "*.Example.com" = h := Option.some.inj hh
      exact absurd (by decide) hwild
    · obtain rfl : ascii "*.Example.com" = h := Option.some.inj hh
      exact absurd (by decide) hwild
  · refine ⟨rfl, ⟨ascii ".Example.com", rfl, by decide, by decide⟩, Or.inr (by decide), ?_⟩
    intro j s' hj _ _
    match j, hj with
    | 0, hj =>
      obtain rfl : sampleSpec "*.Example.com" "/" = s' := Option.some.inj hj
      exact Or.inl (by decide)
    | 1, hj =>
      obtain rfl : sampleSpec "*.Example.com" "/api/*" = s' := Option.some.inj hj
      exact Or.inr ⟨rfl, le_rfl⟩

/-- The tiers with the hostnames of the specs compared as they are written. -/
def servesAsWritten : Tier → RouteSpec → Bool
  | .exact n, s => s.hostname == some n
  | .wildcard x, s => s.hostname == some (ascii "*" ++ x)
  | .default, s => s.hostname == none || s.hostname == some (ascii "*")

/-- A hostname with a capital letter serves its host, although no tier of that host lists it as written. -/
theorem lookup_finds_capitalised_hostname :
    ¬ ((buildAll PathRouter.reference [sampleSpec "API.example.com" "/"]).lookup
        (some (ascii "api.example.com")) (ascii "/") = none ↔
      ∀ tier ∈ hostTiers (some (ascii "api.example.com")), ∀ s ∈ [sampleSpec "API.example.com" "/"],
        servesAsWritten tier s = true → ¬ Covers s (ascii "/")) := by
  have hfound : (buildAll PathRouter.reference [sampleSpec "API.example.com" "/"]).lookup
      (some (ascii "api.example.com")) (ascii "/") ≠ none := by decide +kernel
  have hnone : ∀ tier ∈ hostTiers (some (ascii "api.example.com")),
      ∀ s ∈ [sampleSpec "API.example.com" "/"], servesAsWritten tier s = false := by decide +kernel
  intro h
  refine hfound (h.mpr fun tier ht s hs hserves => ?_)
  rw [hnone tier ht s hs] at hserves
  cases hserves

end LbProxy.Core
