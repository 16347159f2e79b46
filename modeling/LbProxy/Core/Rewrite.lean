import LbProxy.Core.Soundness

/-!
# Rewriting a matched prefix

Routing reads a prefix by its base, segment by segment; rewriting strips the text of the match.

* `applyUrlRewrite_compileFilters` — what the compiled rewrite does to a path;
* `RewriteAgrees` — it replaces the base of the match on the paths that the match covers, and on no other;
* `rewrite_agrees_iff` — when it does.
-/

namespace LbProxy.Core

open Lib ClusterState

/-- The filter replaces the matched prefix by `replacement`. -/
def ReplacesPrefix (f : HttpRouteFilter) (replacement : Bytes) : Prop :=
  f.filterType = ascii "URLRewrite" ∧
    ∃ full, f.urlRewrite = some ⟨some ⟨ascii "ReplacePrefixMatch", some replacement, full⟩⟩

/-- The patterns of the prefix match answer the path. -/
def PrefixMatches (path q : Bytes) : Prop := ∃ p ∈ expandPattern path .pathPrefix, PathRouter.Answers p q

/-- The filters replace the base of the match on the paths that it covers, and leave all others alone. -/
def RewriteAgrees (filters : RouteFilters) (path replacement q : Bytes) : Prop :=
  (PrefixMatches path q → filters.applyUrlRewrite q = orRoot (trimEnd 47 replacement ++ q.drop (base path).length)) ∧
    (¬ PrefixMatches path q → filters.applyUrlRewrite q = q)

/-! ## The base of a match -/

theorem base_of_plain {path : Bytes} (h : ¬ HasShorthand path) : base path = trimEnd 47 path := by
  have hnone : ∀ sfx, sfx = ascii "/*catchall" ∨ sfx = ascii "/*path" ∨ sfx = ascii "/*" →
      stripSuffix sfx path = none := by
    intro sfx hsfx
    rw [stripSuffix_eq_none]
    intro hs
    rcases hsfx with rfl | rfl | rfl
    · exact h (Or.inl hs)
    · exact h (Or.inr (Or.inl hs))
    · exact h (Or.inr (Or.inr hs))
  rw [base, dropShorthand, hnone _ (Or.inl rfl), hnone _ (Or.inr (Or.inl rfl)), hnone _ (Or.inr (Or.inr rfl))]
  rfl

theorem exists_slashes (s : Bytes) : ∃ k, s = trimEnd 47 s ++ List.replicate k 47 := by
  refine ⟨(s.rtakeWhile (· == 47)).length, ?_⟩
  have hslash : ∀ b ∈ s.rtakeWhile (· == 47), b = 47 := fun b hb => by
    simpa using List.mem_rtakeWhile_imp hb
  rw [← List.eq_replicate_of_mem hslash, trimEnd, List.rdropWhile_append_rtakeWhile]

theorem dropShorthand_of_shorthand {path : Bytes} (h : HasShorthand path) :
    ∃ sfx ∈ [ascii "/*catchall", ascii "/*path", ascii "/*"], path = dropShorthand path ++ sfx := by
  unfold dropShorthand
  cases h1 : stripSuffix (ascii "/*catchall") path with
  | some t => exact ⟨_, by simp, stripSuffix_eq_some.mp h1⟩
  | none =>
    cases h2 : stripSuffix (ascii "/*path") path with
    | some t => exact ⟨_, by simp, stripSuffix_eq_some.mp h2⟩
    | none =>
      cases h3 : stripSuffix (ascii "/*") path with
      | some t => exact ⟨_, by simp, stripSuffix_eq_some.mp h3⟩
      | none =>
        rcases h with h | h | h
        · exact absurd h (stripSuffix_eq_none.mp h1)
        · exact absurd h (stripSuffix_eq_none.mp h2)
        · exact absurd h (stripSuffix_eq_none.mp h3)

theorem exists_of_shorthand {path : Bytes} (h : HasShorthand path) :
    trimEnd 47 path = path ∧ ∃ t, t ≠ [] ∧ path = base path ++ 47 :: t := by
  obtain ⟨sfx, hsfx, hpath⟩ := dropShorthand_of_shorthand h
  have hshape : ∀ sfx ∈ [ascii "/*catchall", ascii "/*path", ascii "/*"],
      trimEnd 47 sfx = sfx ∧ sfx.head? = some 47 ∧ sfx.drop 1 ≠ [] := by decide
  obtain ⟨htrim, hhead, htail⟩ := hshape sfx hsfx
  obtain ⟨u, rfl⟩ : ∃ u, sfx = 47 :: u := by
    cases sfx with
    | nil => cases hhead
    | cons b u => exact ⟨u, by rw [Option.some.inj hhead]⟩
  constructor
  · have hne : (47 :: u : Bytes) ≠ [] := by simp
    have hself : ∀ d : Bytes, trimEnd 47 (d ++ 47 :: u) = d ++ 47 :: u := by
      intro d
      rw [trimEnd, List.rdropWhile_eq_self_iff] at htrim ⊢
      intro hp
      rw [List.getLast_append_of_ne_nil hp hne]
      exact htrim hne
    have := hself (dropShorthand path)
    rwa [← hpath] at this
  · obtain ⟨k, hk⟩ := exists_slashes (dropShorthand path)
    have hwhole : path = base path ++ (List.replicate k 47 ++ 47 :: u) :=
      calc path = dropShorthand path ++ 47 :: u := hpath
        _ = (base path ++ List.replicate k 47) ++ 47 :: u := congrArg (· ++ 47 :: u) hk
        _ = base path ++ (List.replicate k 47 ++ 47 :: u) := List.append_assoc _ _ _
    cases k with
    | zero => exact ⟨u, htail, hwhole⟩
    | succ k =>
      rw [List.replicate_succ, List.cons_append] at hwhole
      exact ⟨List.replicate k 47 ++ 47 :: u, by simp, hwhole⟩

/-! ## The rewrite -/

/-- What is put before the rest of a path. -/
def replaced (replacement rest : Bytes) : Bytes :=
  if rest = [] ∨ rest.head? = some 47 then orRoot (trimEnd 47 replacement ++ rest)
  else trimEnd 47 replacement ++ 47 :: rest

theorem length_replaced_le (replacement rest : Bytes) :
    (replaced replacement rest).length ≤ (trimEnd 47 replacement).length + rest.length + 1 := by
  unfold replaced orRoot
  split
  · split
    · simp
    · simp
  · simp only [List.length_append, List.length_cons]
    omega

theorem applyUrlRewrite_replacePrefix {filters : RouteFilters} {pre replacement : Bytes}
    (h : filters.inner.bind (·.urlRewrite) = some (.replacePrefix pre replacement)) (q : Bytes) :
    filters.applyUrlRewrite q = if pre <+: q then replaced replacement (q.drop pre.length) else q := by
  rw [RouteFilters.applyUrlRewrite, h]
  simp only [stripPrefix]
  by_cases hpre : pre <+: q
  · simp only [hpre, if_true, replaced, orRoot]
    generalize q.drop pre.length = rest
    by_cases hrest : rest = []
    · subst hrest
      by_cases hr : trimEnd 47 replacement = [] <;> simp [hr]
    · by_cases hhead : rest.head? = some 47 <;> simp [hrest, hhead]
  · simp only [hpre, if_false]

/-- **What the compiled rewrite does to a path.** -/
theorem applyUrlRewrite_compileFilters (ht : HeaderTypes) {f : HttpRouteFilter} {replacement : Bytes}
    (hf : ReplacesPrefix f replacement) (path q : Bytes) :
    (compileFilters ht [f] path).applyUrlRewrite q =
      if trimEnd 47 path <+: q then replaced replacement (q.drop (trimEnd 47 path).length) else q := by
  obtain ⟨htype, full, hurl⟩ := hf
  have hcompile : compileFilters ht [f] path =
      ⟨some ⟨[], [], some (.replacePrefix (trimEnd 47 path) replacement)⟩⟩ := by
    have h1 : ascii "URLRewrite" ≠ ascii "RequestHeaderModifier" := by decide
    have h2 : ascii "URLRewrite" ≠ ascii "ResponseHeaderModifier" := by decide
    simp [compileFilters, compileFilter, htype, hurl, h1, h2, compileRewrite, RouteFilters.new]
  exact applyUrlRewrite_replacePrefix (by rw [hcompile]; rfl) q

/-! ## Where rewriting and routing agree -/

/-- The match covers the path: it is the base, or lies below it. -/
def CoveredBy (path q : Bytes) : Prop := q = base path ∨ base path ++ [47] <+: q

theorem CoveredBy.base_prefixes {path q : Bytes} (h : CoveredBy path q) : base path <+: q := by
  rcases h with rfl | h
  · exact List.prefix_refl _
  · exact (List.prefix_append _ _).trans h

section Agree

variable (ht : HeaderTypes) {f : HttpRouteFilter} {replacement path q : Bytes}

/-- Without a shorthand, the text that is stripped is the base. -/
theorem rewrite_agrees_plain (hf : ReplacesPrefix f replacement) (hb : NoBrace path) (hq : q ≠ [])
    (hplain : ¬ HasShorthand path) :
    RewriteAgrees (compileFilters ht [f] path) path replacement q ↔ (base path <+: q → CoveredBy path q) := by
  have hmatch : PrefixMatches path q ↔ CoveredBy path q := answers_expandPattern_iff hb hq
  simp only [RewriteAgrees, hmatch, applyUrlRewrite_compileFilters ht hf, ← base_of_plain hplain]
  constructor
  · rintro ⟨-, hother⟩ ⟨rest, rfl⟩
    by_contra hno
    have hrest : ¬ (rest = [] ∨ rest.head? = some 47) := by
      rintro (rfl | hhead)
      · exact hno (Or.inl (by simp))
      · cases rest with
        | nil => cases hhead
        | cons b t =>
          obtain rfl := Option.some.inj hhead
          exact hno (Or.inr ⟨t, by simp⟩)
    have heq := hother hno
    rw [if_pos (List.prefix_append _ _), List.drop_left, replaced, if_neg hrest] at heq
    -- the base does not end in a slash
    have hcut : trimEnd 47 replacement ++ [47] = base path := by
      have : (trimEnd 47 replacement ++ [47]) ++ rest = base path ++ rest := by simpa using heq
      exact List.append_cancel_right this
    exact base_ne_append_slash path _ hcut.symm
  · intro hcover
    refine ⟨fun hc => ?_, fun hno => if_neg fun hpre => hno (hcover hpre)⟩
    obtain ⟨rest, rfl, hrest⟩ : ∃ rest, q = base path ++ rest ∧ (rest = [] ∨ rest.head? = some 47) := by
      rcases hc with rfl | ⟨t, rfl⟩
      · exact ⟨[], by simp, Or.inl rfl⟩
      · exact ⟨47 :: t, by simp, Or.inr rfl⟩
    rw [if_pos (List.prefix_append _ _), List.drop_left, replaced, if_pos hrest]

/-- With a shorthand, what is stripped is the shorthand too. -/
theorem rewrite_agrees_shorthand (hf : ReplacesPrefix f replacement) (hb : NoBrace path) (hq : q.head? = some 47)
    (hshort : HasShorthand path) :
    RewriteAgrees (compileFilters ht [f] path) path replacement q ↔
      (CoveredBy path q → trimEnd 47 replacement = base path ∧ ¬ path <+: q) := by
  obtain ⟨htrim, t, ht', hpath⟩ := exists_of_shorthand hshort
  have hne : q ≠ [] := by
    rintro rfl
    cases hq
  have hmatch : PrefixMatches path q ↔ CoveredBy path q := answers_expandPattern_iff hb hne
  simp only [RewriteAgrees, hmatch, applyUrlRewrite_compileFilters ht hf, htrim]
  have hcovers : path <+: q → CoveredBy path q := by
    rintro ⟨u, rfl⟩
    refine Or.inr ⟨t ++ u, ?_⟩
    nth_rewrite 2 [hpath]
    simp
  constructor
  · rintro ⟨hmatched, -⟩ hc
    have heq := hmatched hc
    obtain ⟨rest, rfl⟩ := hc.base_prefixes
    rw [List.drop_left] at heq
    by_cases hpre : path <+: base path ++ rest
    · -- too much is stripped
      exfalso
      rw [if_pos hpre] at heq
      obtain ⟨u, hu⟩ := hpre
      have hrest : rest = 47 :: (t ++ u) := by
        have : base path ++ rest = base path ++ 47 :: (t ++ u) := by
          rw [← hu]
          nth_rewrite 1 [hpath]
          simp
        exact List.append_cancel_left this
      have hdrop : (base path ++ rest).drop path.length = u := by rw [← hu, List.drop_left]
      have hlen := congrArg List.length heq
      have hle := length_replaced_le replacement u
      have htlen : 0 < t.length := List.length_pos_iff.mpr ht'
      rw [hdrop, hrest, orRoot, if_neg (by simp)] at hlen
      simp only [List.length_append, List.length_cons] at hlen
      omega
    · refine ⟨?_, hpre⟩
      rw [if_neg hpre, orRoot] at heq
      split at heq
      · rename_i hnil
        obtain ⟨-, rfl⟩ := List.append_eq_nil_iff.mp hnil
        rw [List.append_nil] at heq
        exact absurd heq (base_ne_append_slash path [])
      · exact (List.append_cancel_right heq).symm
  · intro h
    refine ⟨fun hc => ?_, fun hno => if_neg fun hpre => hno (hcovers hpre)⟩
    obtain ⟨hrep, hpre⟩ := h hc
    obtain ⟨rest, rfl⟩ := hc.base_prefixes
    rw [if_neg hpre, hrep, List.drop_left, orRoot, if_neg hne]

/-- **Rewriting and routing agree on the prefix exactly if the match has no shorthand and the path does not go on with
the base inside a segment, or it has one and the base is replaced by itself.** -/
theorem rewrite_agrees_iff (hf : ReplacesPrefix f replacement) (hb : NoBrace path) (hq : q.head? = some 47) :
    RewriteAgrees (compileFilters ht [f] path) path replacement q ↔
      (¬ HasShorthand path ∧ (base path <+: q → CoveredBy path q)) ∨
        (HasShorthand path ∧ (CoveredBy path q → trimEnd 47 replacement = base path ∧ ¬ path <+: q)) := by
  have hne : q ≠ [] := by
    rintro rfl
    cases hq
  by_cases hshort : HasShorthand path
  · rw [rewrite_agrees_shorthand ht hf hb hq hshort]
    simp [hshort]
  · rw [rewrite_agrees_plain ht hf hb hne hshort]
    simp [hshort]

end Agree

/-- A filter that replaces the matched prefix by `/v2`. -/
def sampleRewrite : HttpRouteFilter :=
  ⟨ascii "URLRewrite", none, none, some ⟨some ⟨ascii "ReplacePrefixMatch", some (ascii "/v2"), none⟩⟩⟩

theorem sampleRewrite_replaces : ReplacesPrefix sampleRewrite (ascii "/v2") := ⟨rfl, none, rfl⟩

theorem rewrite_agrees_sample :
    RewriteAgrees (compileFilters HeaderTypes.reference [sampleRewrite] (ascii "/api")) (ascii "/api") (ascii "/v2")
      (ascii "/api/users") :=
  (rewrite_agrees_iff HeaderTypes.reference sampleRewrite_replaces (by decide) (by decide)).mpr
    (Or.inl ⟨by decide, fun _ => Or.inr (by decide)⟩)

/-- `/apiary` is not matched by the prefix `/api` and is rewritten all the same; `/api/users` is matched by `/api/*` and
is not rewritten. -/
theorem rewrite_differs_from_routing :
    ¬ (∀ f replacement path q, ReplacesPrefix f replacement → NoBrace path → q.head? = some 47 →
      RewriteAgrees (compileFilters HeaderTypes.reference [f] path) path replacement q) ∧
    (compileFilters HeaderTypes.reference [sampleRewrite] (ascii "/api")).applyUrlRewrite (ascii "/apiary") =
      ascii "/v2/ary" ∧
    (compileFilters HeaderTypes.reference [sampleRewrite] (ascii "/api/*")).applyUrlRewrite (ascii "/api/users") =
      ascii "/api/users" := by
  have hapiary : (compileFilters HeaderTypes.reference [sampleRewrite] (ascii "/api")).applyUrlRewrite
      (ascii "/apiary") = ascii "/v2/ary" := by decide
  refine ⟨fun h => ?_, hapiary, by decide⟩
  have hagree := h sampleRewrite (ascii "/v2") (ascii "/api") (ascii "/apiary") sampleRewrite_replaces (by decide)
    (by decide)
  have hno : ¬ PrefixMatches (ascii "/api") (ascii "/apiary") := by
    rw [PrefixMatches, answers_expandPattern_iff (by decide) (by decide)]
    decide
  have := hagree.2 hno
  rw [hapiary] at this
  revert this
  decide

end LbProxy.Core
