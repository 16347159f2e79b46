import LbProxy.Lib.RouterOrder
import LbProxy.Core.Gateway
import LbProxy.Core.Lookup

/-!
# When compilation does not depend on the iteration order of the routes

* `tierBlock` — what one stored route files under a tier, and `rel_tierHit_compile`: a tier of the
  compiled table answers as the router that is filled with these blocks;
* `Undisputed` — no two routes dispute a pattern of a tier that some host reaches;
* `orderIndependent_of_undisputed` — then every order gives the same lookups;
* `undisputed_of_orderIndependent` — and for match paths without braces only then.
-/

namespace LbProxy.Core

open Lib RouteTableBuilder ClusterState

section Reconcile

variable (ht : HeaderTypes) (m : PathRouter)

/-- Same route name, same endpoints, same filter behaviour. -/
structure SameAction (a b : RouteAction) : Prop where
  routeName : a.routeName = b.routeName
  endpoints : a.targetGroup.endpoints = b.targetGroup.endpoints
  request : ∀ headers n, ht.getAll (a.filters.applyRequestHeaders ht headers) n =
    ht.getAll (b.filters.applyRequestHeaders ht headers) n
  response : ∀ headers n, ht.getAll (a.filters.applyResponseHeaders ht headers) n =
    ht.getAll (b.filters.applyResponseHeaders ht headers) n
  rewrite : ∀ path, a.filters.applyUrlRewrite path = b.filters.applyUrlRewrite path

/-- Any two orders of the stored routes compile to tables that answer alike. -/
def OrderIndependent (st : ClusterState) (cfg : ControllerConfig) : Prop :=
  ∀ o₁ o₂ : List StoredRoute, o₁.Perm st.values → o₂.Perm st.values → ∀ host path,
    Option.Rel (SameAction ht) ((compile ht m st cfg o₁).lookup host path)
      ((compile ht m st cfg o₂).lookup host path)

/-- What a stored route files under a tier, in order; the cursor cells are left out. -/
def tierBlock (st : ClusterState) (cfg : ControllerConfig) (t : Tier) (stored : StoredRoute) :
    List (Bytes × RouteAction) :=
  ((routeSpecs ht st cfg stored).filter fun s => tierOf s.hostname = t).flatMap fun s => entriesOf (s, 0)

/-- Some `Host` value asks the tier. -/
def Reachable (t : Tier) : Prop := ∃ host : Option Bytes, t ∈ tiersOf (host.map RouteTable.normalizeHost)

/-- Two routes never file conflicting patterns under one reachable tier, unless the patterns are equal
and stand for the same action. -/
def Undisputed (st : ClusterState) (cfg : ControllerConfig) : Prop :=
  ∀ t, Reachable t → st.values.Pairwise fun r r' =>
    m.Apart (tierBlock ht st cfg t r) (tierBlock ht st cfg t r') ∧
      m.Agree (SameAction ht) (tierBlock ht st cfg t r) (tierBlock ht st cfg t r')

variable {ht m}

theorem SameAction.refl (a : RouteAction) : SameAction ht a a :=
  ⟨rfl, rfl, fun _ _ => rfl, fun _ _ => rfl, fun _ => rfl⟩

theorem SameAction.symm {a b : RouteAction} (h : SameAction ht a b) : SameAction ht b a :=
  ⟨h.routeName.symm, h.endpoints.symm, fun x n => (h.request x n).symm, fun x n => (h.response x n).symm,
    fun p => (h.rewrite p).symm⟩

/-! ## A compiled tier is a router filled block by block -/

/-- The action with the cell of its cursor left out. -/
def eraseCursor (a : RouteAction) : RouteAction :=
  { a with targetGroup := { a.targetGroup with cursor := 0 } }

theorem sameAction_eraseCursor {a b : RouteAction} :
    SameAction ht (eraseCursor a) (eraseCursor b) ↔ SameAction ht a b :=
  ⟨fun h => ⟨h.routeName, h.endpoints, h.request, h.response, h.rewrite⟩,
    fun h => ⟨h.routeName, h.endpoints, h.request, h.response, h.rewrite⟩⟩

theorem erase_entries (t : Tier) (specs : List RouteSpec) (n : ℕ) :
    (((specs.zipIdx n).filter fun x => tierOf x.1.hostname = t).flatMap entriesOf).map
        (fun e => (e.1, eraseCursor e.2)) =
      (specs.filter fun s => tierOf s.hostname = t).flatMap fun s => entriesOf (s, 0) := by
  have hone : ∀ s n, (entriesOf (s, n)).map (fun e => (e.1, eraseCursor e.2)) = entriesOf (s, 0) := by
    intro s n
    simp only [entriesOf, List.map_map]
    rfl
  induction specs generalizing n with
  | nil => rfl
  | cons s specs ih =>
    rw [List.zipIdx_cons, List.filter_cons, List.filter_cons]
    by_cases h : tierOf s.hostname = t
    · simp only [h, decide_true, if_true, List.flatMap_cons, List.map_append, hone, ih]
    · simp only [h, decide_false, Bool.false_eq_true, if_false, ih]

theorem erase_tierRoutes (st : ClusterState) (cfg : ControllerConfig) (o : List StoredRoute) (t : Tier) :
    (((o.flatMap (routeSpecs ht st cfg)).foldl add new).tierRoutes t).map
        (fun e => (e.1, eraseCursor e.2)) = (o.map (tierBlock ht st cfg t)).flatten := by
  have hnew : new.tierRoutes t = [] := by cases t <;> rfl
  rw [tierRoutes_foldl_add, hnew, List.nil_append, erase_entries]
  induction o with
  | nil => rfl
  | cons r o ih =>
    rw [List.flatMap_cons, List.filter_append, List.flatMap_append, ih, List.map_cons, List.flatten_cons]
    rfl

variable (ht) in
/-- **A tier of the compiled table answers as the router filled with the blocks of the routes.** -/
theorem rel_tierHit_compile (hm : m.Laws) (st : ClusterState) (cfg : ControllerConfig)
    (o : List StoredRoute) (q : Bytes) (t : Tier) :
    Option.Rel (fun a b => eraseCursor a = b) ((compile ht m st cfg o).tierHit q t)
      (m.matchAt (m.insertAll m.new (o.map (tierBlock ht st cfg t)).flatten) q) := by
  rw [ClusterState.compile, buildAll, tierHit_build hm, ← erase_tierRoutes]
  generalize ((o.flatMap (routeSpecs ht st cfg)).foldl add new).tierRoutes t = l
  have hacc := PathRouter.accepted_map (m := m) eraseCursor [] l
  rw [List.map_nil] at hacc
  refine hm.order (PathRouter.built_insertAll hm .new l) (PathRouter.built_insertAll hm .new _) ?_ ?_ q
  · intro e he
    refine ⟨(e.1, eraseCursor e.2), ?_, rfl, rfl⟩
    rw [hacc]
    exact List.mem_map.mpr ⟨e, he, rfl⟩
  · intro e' he'
    rw [hacc] at he'
    obtain ⟨e, he, rfl⟩ := List.mem_map.mp he'
    exact ⟨e, he, rfl, rfl⟩

/-! ## The condition is enough -/

theorem rel_of_erased {x y x' y' : Option RouteAction}
    (hx : Option.Rel (fun a b => eraseCursor a = b) x x') (hy : Option.Rel (fun a b => eraseCursor a = b) y y')
    (h : Option.Rel (SameAction ht) x' y') : Option.Rel (SameAction ht) x y := by
  cases h with
  | none =>
    cases hx
    cases hy
    exact .none
  | some hr =>
    cases hx with
    | some hx =>
      cases hy with
      | some hy =>
        subst hx hy
        exact .some (sameAction_eraseCursor.mp hr)

theorem rel_findSome {α β : Type} {R : β → β → Prop} {f g : α → Option β} {l : List α}
    (h : ∀ t ∈ l, Option.Rel R (f t) (g t)) : Option.Rel R (l.findSome? f) (l.findSome? g) := by
  induction l with
  | nil => exact .none
  | cons t l ih =>
    rw [List.findSome?_cons, List.findSome?_cons]
    have ht := h t (by simp)
    generalize f t = x at ht
    generalize g t = y at ht
    cases ht with
    | some hr => exact .some hr
    | none => exact ih fun t ht => h t (List.mem_cons_of_mem _ ht)

theorem orderIndependent_of_undisputed (hm : m.Laws) {st : ClusterState} {cfg : ControllerConfig}
    (h : Undisputed ht m st cfg) : OrderIndependent ht m st cfg := by
  intro o₁ o₂ h₁ h₂ host path
  rw [lookup_eq_findSome, lookup_eq_findSome]
  refine rel_findSome fun t htier => ?_
  refine rel_of_erased (rel_tierHit_compile ht hm st cfg o₁ _ t)
    (rel_tierHit_compile ht hm st cfg o₂ _ t) ?_
  have hpw := h t ⟨host, htier⟩
  have hpw₁ : o₁.Pairwise fun r r' => m.Apart (tierBlock ht st cfg t r) (tierBlock ht st cfg t r') ∧
      m.Agree (SameAction ht) (tierBlock ht st cfg t r) (tierBlock ht st cfg t r') :=
    (h₁.pairwise_iff fun hr => ⟨hr.1.symm hm, hr.2.symm SameAction.symm⟩).mpr hpw
  refine PathRouter.matchAt_perm hm SameAction.refl SameAction.symm ((h₁.trans h₂.symm).map _) ?_ ?_ _
  · exact List.pairwise_map.mpr (hpw₁.imp fun hr => hr.1)
  · exact List.pairwise_map.mpr (hpw₁.imp fun hr => hr.2)

/-! ## Patterns without braces -/

/-- No match path of a stored route has a brace. -/
def BraceFree (st : ClusterState) : Prop :=
  ∀ r ∈ st.values, ∀ rule ∈ r.spec.rules, ∀ pm ∈ ruleMatches rule, NoBrace pm.1

/-- The pattern ends in one of the prefix shorthands. -/
def HasShorthand (path : Bytes) : Prop :=
  ascii "/*catchall" <:+ path ∨ ascii "/*path" <:+ path ∨ ascii "/*" <:+ path

instance (path : Bytes) : Decidable (HasShorthand path) := inferInstanceAs (Decidable (_ ∨ _))

theorem stripShorthand_snd (path : Bytes) : (stripShorthand path).2 = true ↔ HasShorthand path := by
  have hstrip : ∀ sfx, (∃ t, stripSuffix sfx path = some t) ↔ sfx <:+ path := by
    intro sfx
    simp only [stripSuffix_eq_some]
    exact ⟨fun ⟨t, h⟩ => ⟨t, h.symm⟩, fun ⟨t, h⟩ => ⟨t, h.symm⟩⟩
  have hor : (∃ t, (stripSuffix (ascii "/*catchall") path <|> stripSuffix (ascii "/*path") path <|>
      stripSuffix (ascii "/*") path) = some t) ↔ HasShorthand path := by
    simp only [HasShorthand, ← hstrip, Option.orElse_eq_orElse, Option.orElse_eq_or]
    cases stripSuffix (ascii "/*catchall") path <;> cases stripSuffix (ascii "/*path") path <;>
      cases stripSuffix (ascii "/*") path <;> simp
  unfold stripShorthand
  by_cases hroot : path = ascii "/*"
  · subst hroot
    simp only [if_true, true_iff]
    exact Or.inr (Or.inr (List.suffix_refl _))
  · rw [if_neg hroot, ← hor]
    cases (stripSuffix (ascii "/*catchall") path <|> stripSuffix (ascii "/*path") path <|>
      stripSuffix (ascii "/*") path) <;> simp

theorem expandPattern_of_plain {path : Bytes} (h : ¬ HasShorthand path) :
    expandPattern path .exact = [if path = [] then [47] else path] := by
  have hsnd : (stripShorthand path).2 = false := by
    rw [← Bool.not_eq_true, stripShorthand_snd]
    exact h
  have hfst : (stripShorthand path).1 = path := by
    unfold stripShorthand at hsnd ⊢
    split at hsnd
    · cases hsnd
    · rename_i hroot
      rw [if_neg hroot]
      split at hsnd
      · cases hsnd
      · rfl
  simp [expandPattern, hsnd, hfst]

theorem expandPattern_of_not_plain {path : Bytes} {kind : PathMatch} (h : ¬ (kind = .exact ∧ ¬ HasShorthand path)) :
    expandPattern path kind = expandPattern path .pathPrefix := by
  cases kind with
  | pathPrefix => rfl
  | exact =>
    have hsnd : (stripShorthand path).2 = true := by
      rw [stripShorthand_snd]
      by_contra hno
      exact h ⟨rfl, hno⟩
    simp [expandPattern, hsnd]

theorem plain_and_ne_nil_of_mem {path p : Bytes} {kind : PathMatch} (hb : NoBrace path)
    (hp : p ∈ expandPattern path kind) : Plain p ∧ p ≠ [] := by
  have hprefix : p ∈ expandPattern path .pathPrefix → Plain p ∧ p ≠ [] := by
    intro hp
    refine ⟨plain_of_mem_expandPattern hb hp, ?_⟩
    rcases mem_expandPattern_iff.mp hp with ⟨rfl, hne⟩ | rfl | rfl
    · exact hne
    · simp
    · simp [catchAll, ascii]
  by_cases hexact : kind = .exact ∧ ¬ HasShorthand path
  · obtain ⟨rfl, hshort⟩ := hexact
    rw [expandPattern_of_plain hshort, List.mem_singleton] at hp
    by_cases hnil : path = []
    · rw [if_pos hnil] at hp
      subst hp
      exact ⟨Or.inl (by decide), by simp⟩
    · rw [if_neg hnil] at hp
      subst hp
      exact ⟨Or.inl hb, hnil⟩
  · rw [expandPattern_of_not_plain hexact] at hp
    exact hprefix hp

theorem path_of_mem_routeSpecs {st : ClusterState} {cfg : ControllerConfig} {r : StoredRoute}
    {s : RouteSpec} (h : s ∈ routeSpecs ht st cfg r) :
    ∃ rule ∈ r.spec.rules, ∃ pm ∈ ruleMatches rule, s.path = pm.1 := by
  unfold routeSpecs at h
  split at h
  · obtain ⟨⟨rule, i⟩, hx, hs⟩ := List.mem_flatMap.mp h
    refine ⟨rule, (List.mem_zipIdx' hx).2 ▸ List.getElem_mem _, ?_⟩
    simp only [ruleSpecs] at hs
    split at hs
    · simp at hs
    · obtain ⟨hostname, -, hs⟩ := List.mem_flatMap.mp hs
      obtain ⟨pm, hpm, rfl⟩ := List.mem_map.mp hs
      exact ⟨pm, hpm, rfl⟩
  · simp at h

theorem plain_of_mem_tierBlock {st : ClusterState} {cfg : ControllerConfig} (hb : BraceFree st)
    {t : Tier} {r : StoredRoute} (hr : r ∈ st.values) {e : Bytes × RouteAction}
    (he : e ∈ tierBlock ht st cfg t r) : Plain e.1 ∧ e.1 ≠ [] := by
  obtain ⟨s, hs, he⟩ := List.mem_flatMap.mp he
  obtain ⟨p, hp, rfl⟩ := List.mem_map.mp he
  obtain ⟨rule, hrule, pm, hpm, hpath⟩ := path_of_mem_routeSpecs (List.mem_filter.mp hs).1
  have hnb : NoBrace s.path := hpath ▸ hb r hr rule hrule pm hpm
  exact plain_and_ne_nil_of_mem hnb hp

theorem exists_length_bound {α : Type} (f : α → Bytes) (l : List α) : ∃ N, ∀ a ∈ l, (f a).length < N := by
  induction l with
  | nil => exact ⟨0, by simp⟩
  | cons a l ih =>
    obtain ⟨N, hN⟩ := ih
    refine ⟨max N ((f a).length + 1), ?_⟩
    intro b hb
    rcases List.mem_cons.mp hb with rfl | hb
    · omega
    · have := hN b hb
      omega

theorem exists_path_of_plain (hm : m.Laws) (all : List (Bytes × RouteAction)) {p : Bytes} (hp : Plain p)
    (hne : p ≠ []) :
    ∃ q, q ≠ [] ∧ ∀ (l : List (Bytes × RouteAction)) (v : RouteAction), (∀ e ∈ l, e ∈ all ∧ Plain e.1) →
      (p, v) ∈ m.accepted [] l → m.matchAt (m.insertAll m.new l) q = some v := by
  have hfrom : ∀ (l : List (Bytes × RouteAction)), (∀ e ∈ l, e ∈ all ∧ Plain e.1) →
      ∀ e ∈ m.accepted [] l, e ∈ all ∧ Plain e.1 := by
    intro l hl e he
    rcases PathRouter.accepted_subset _ _ e he with h | h
    · simp at h
    · exact hl e h
  rcases hp with hp | ⟨b, hb, rfl⟩
  · refine ⟨p, hne, fun l v hl hv => ?_⟩
    exact hm.static (PathRouter.built_insertAll hm .new l) (fun e he => (hfrom l hl e he).2) hp hv
  · -- a segment below the base that is longer than every pattern
    obtain ⟨N, hN⟩ := exists_length_bound (·.1) all
    have hbelow : Below b (b ++ 47 :: List.replicate (N + 1) 120) := ⟨_, by simp, rfl⟩
    refine ⟨b ++ 47 :: List.replicate (N + 1) 120, by simp, fun l v hl hv => ?_⟩
    refine hm.catchAll (PathRouter.built_insertAll hm .new l) (fun e he => (hfrom l hl e he).2) ?_ hb hv
      hbelow ?_
    · intro e he _ heq
      have := hN e (hfrom l hl e he).1
      rw [heq, List.length_append, List.length_cons, List.length_replicate] at this
      omega
    · rintro - - b' - - ⟨t, -, heq⟩
      by_contra hlt
      rw [not_le] at hlt
      have h47 : (b' ++ 47 :: t)[b'.length]? = some 47 := by simp
      rw [← heq, List.getElem?_append_right hlt.le, List.getElem?_cons, if_neg (by omega)] at h47
      have := List.mem_of_getElem? h47
      simp [List.mem_replicate] at this

/-! ## A host for every reachable tier -/

/-- What `hostWithoutPort` returns: a bracketed literal up to its bracket, or no colon. -/
def PortFree (x : Bytes) : Prop := if x.head? = some 91 then 93 ∉ x.dropLast else 58 ∉ x

theorem portFree_hostWithoutPort (h : Bytes) : PortFree (hostWithoutPort h) := by
  unfold hostWithoutPort PortFree
  by_cases hb : h.head? = some 91
  · rw [if_pos hb]
    cases hf : findByte 93 h with
    | none =>
      simp only [hb, if_true]
      exact fun hmem => findByte_eq_none.mp hf (List.mem_of_mem_dropLast hmem)
    | some i =>
      obtain ⟨hi, hno⟩ := findByte_eq_some hf
      have hhead : (h.take (i + 1)).head? = some 91 := by
        cases h with
        | nil => simp at hb
        | cons a h => simpa using hb
      simp only [hhead, if_true]
      rw [List.dropLast_eq_take, List.take_take, List.length_take]
      have : min (min (i + 1) h.length - 1) (i + 1) = i := by omega
      rwa [this]
  · rw [if_neg hb]
    cases hf : findByte 58 h with
    | none =>
      simp only [hb, if_false]
      exact findByte_eq_none.mp hf
    | some i =>
      obtain ⟨hi, hno⟩ := findByte_eq_some hf
      have hhead : (h.take i).head? ≠ some 91 := by
        cases h with
        | nil => simp
        | cons a h =>
          cases i with
          | zero => simp
          | succ i => simpa using hb
      simp only [hhead, if_false]
      exact hno

theorem hostWithoutPort_of_portFree {x : Bytes} (h : PortFree x) : hostWithoutPort x = x := by
  unfold PortFree at h
  unfold hostWithoutPort
  split at h
  · rename_i hb
    rw [if_pos hb]
    cases hf : findByte 93 x with
    | none => rfl
    | some i =>
      have hi := (findByte_eq_some hf).1
      have hlast : ¬ i < x.length - 1 := by
        intro hlt
        obtain ⟨hi', hx, -⟩ := List.findIdx?_eq_some_iff_getElem.mp hf
        refine h (List.mem_iff_getElem.mpr ⟨i, by simpa using hlt, ?_⟩)
        rw [List.getElem_dropLast]
        simpa using hx
      simp only
      exact List.take_of_length_le (by omega)
  · rename_i hb
    rw [if_neg hb, findByte_eq_none.mpr h]

theorem portFree_lowercase {x : Bytes} (h : PortFree x) : PortFree (lowercase x) := by
  have hmem : ∀ (c : UInt8) (y : Bytes), ¬ (97 ≤ c ∧ c ≤ 122) → ¬ (65 ≤ c ∧ c ≤ 90) →
      (c ∈ lowercase y ↔ c ∈ y) := by
    intro c y hc hC
    simp only [lowercase, List.mem_map, toLower_eq_iff hc hC, exists_eq_right]
  have hhead : (lowercase x).head? = some 91 ↔ x.head? = some 91 := by
    cases x with
    | nil => rfl
    | cons a x => simpa [lowercase] using toLower_eq_iff (b := a) (c := 91) (by decide) (by decide)
  have hdrop : (lowercase x).dropLast = lowercase x.dropLast := by
    simp [lowercase, List.map_dropLast]
  unfold PortFree at h ⊢
  by_cases hb : x.head? = some 91
  · rw [if_pos hb] at h
    rw [if_pos (hhead.mpr hb), hdrop, hmem 93 _ (by decide) (by decide)]
    exact h
  · rw [if_neg hb] at h
    rw [if_neg (fun hc => hb (hhead.mp hc)), hmem 58 _ (by decide) (by decide)]
    exact h

theorem portFree_normalizeHost (h : Bytes) : PortFree (RouteTable.normalizeHost h) := by
  unfold RouteTable.normalizeHost lowercaseAsciiInto
  simp only
  have := portFree_hostWithoutPort h
  by_cases hlen : MAX_HOST_LEN < (hostWithoutPort h).length
  · rw [if_pos hlen]
    exact this
  · rw [if_neg hlen]
    exact portFree_lowercase this

theorem normalizeHost_of_long {x : Bytes} (h : PortFree x) (hlen : MAX_HOST_LEN < x.length) :
    RouteTable.normalizeHost x = x := by
  unfold RouteTable.normalizeHost lowercaseAsciiInto
  simp only [hostWithoutPort_of_portFree h, if_pos hlen]

theorem dotSuffixes_append_of_no_dot {a : Bytes} (ha : 46 ∉ a) (s : Bytes) :
    dotSuffixes (a ++ s) = dotSuffixes s := by
  induction a with
  | nil => rfl
  | cons b a ih =>
    rw [List.mem_cons, not_or] at ha
    rw [List.cons_append, dotSuffixes_cons, if_neg (Ne.symm ha.1), ih ha.2]
    rfl

/-- A port-free host that ends in the suffix `s` can be replaced by one with a single long label before
the suffix. -/
theorem exists_long_label {n s : Bytes} (hn : PortFree n) (hs : s <:+ n) (hdot : s.head? = some 46)
    (N : ℕ) : ∃ a : Bytes, 46 ∉ a ∧ N < a.length ∧ PortFree (a ++ s) := by
  obtain ⟨pre, rfl⟩ := hs
  have hsne : s ≠ [] := by
    rintro rfl
    simp at hdot
  unfold PortFree at hn
  by_cases hb : (pre ++ s).head? = some 91
  · rw [if_pos hb] at hn
    refine ⟨91 :: List.replicate N 97, by simp [List.mem_replicate], by simp, ?_⟩
    unfold PortFree
    rw [if_pos (by simp)]
    rw [List.dropLast_append_of_ne_nil hsne] at hn ⊢
    simp only [List.mem_append, not_or] at hn ⊢
    exact ⟨by simp [List.mem_replicate], hn.2⟩
  · rw [if_neg hb] at hn
    refine ⟨List.replicate (N + 1) 97, by simp [List.mem_replicate], by simp, ?_⟩
    unfold PortFree
    rw [if_neg (by simp [List.replicate_succ])]
    simp only [List.mem_append, not_or] at hn ⊢
    exact ⟨by simp [List.mem_replicate], hn.2⟩

theorem tierBlock_exact_of_long {st : ClusterState} {cfg : ControllerConfig} {r : StoredRoute} {n : Bytes}
    (h : ∀ s ∈ routeSpecs ht st cfg r, (s.hostname.getD []).length < n.length) :
    tierBlock ht st cfg (.exact n) r = [] := by
  have hnone : (routeSpecs ht st cfg r).filter (fun s => tierOf s.hostname = .exact n) = [] := by
    rw [List.filter_eq_nil_iff]
    intro s hs
    simp only [decide_eq_true_eq]
    intro htier
    have hlen := h s hs
    unfold tierOf at htier
    split at htier
    · cases htier
    · rename_i hn heq
      split at htier
      · cases htier
      · split at htier
        · cases htier
        · have : lowercase hn = n := by simpa using htier
          rw [heq, ← this] at hlen
          simp [lowercase] at hlen
  rw [tierBlock, hnone]
  rfl

variable (ht) in
/-- A reachable tier is the first one with routes for some host. -/
theorem exists_host_of_reachable (st : ClusterState) (cfg : ControllerConfig) {t : Tier} (h : Reachable t) :
    ∃ (host : Option Bytes) (pre post : List Tier),
      tiersOf (host.map RouteTable.normalizeHost) = pre ++ t :: post ∧
        ∀ t' ∈ pre, ∀ r ∈ st.values, tierBlock ht st cfg t' r = [] := by
  obtain ⟨host, hmem⟩ := h
  cases t with
  | default => exact ⟨none, [], [], rfl, by simp⟩
  | exact k =>
    cases host with
    | none => simp [tiersOf] at hmem
    | some h =>
      have hk : k = RouteTable.normalizeHost h := by simpa [tiersOf] using hmem
      exact ⟨some h, [], _, by rw [Option.map_some, tiersOf, ← hk]; rfl, by simp⟩
  | wildcard s =>
    cases host with
    | none => simp [tiersOf] at hmem
    | some h =>
      have hs : s ∈ dotSuffixes (RouteTable.normalizeHost h) := by simpa [tiersOf] using hmem
      obtain ⟨hs, hdot⟩ := List.mem_filter.mp hs
      obtain ⟨N, hN⟩ := exists_length_bound (fun x : RouteSpec => x.hostname.getD [])
        (st.values.flatMap (routeSpecs ht st cfg))
      obtain ⟨a, hadot, halen, hfree⟩ := exists_long_label (portFree_normalizeHost h)
        ((List.mem_tails _ _).mp hs) (by simpa using hdot) (max N MAX_HOST_LEN)
      have hnorm : RouteTable.normalizeHost (a ++ s) = a ++ s :=
        normalizeHost_of_long hfree (by rw [List.length_append]; omega)
      have htail : dotSuffixes s = s :: dotSuffixes s.tail := by
        cases s with
        | nil => simp at hdot
        | cons b s =>
          have hb : b = 46 := by simpa using hdot
          rw [dotSuffixes_cons, if_pos hb]
          rfl
      refine ⟨some (a ++ s), [.exact (a ++ s)], (dotSuffixes s.tail).map .wildcard ++ [.default], ?_, ?_⟩
      · rw [Option.map_some, hnorm, tiersOf, dotSuffixes_append_of_no_dot hadot, htail]
        rfl
      · intro t' ht' r hr
        rw [List.mem_singleton] at ht'
        subst ht'
        refine tierBlock_exact_of_long fun x hx => ?_
        have := hN x (List.mem_flatMap.mpr ⟨r, hr, hx⟩)
        rw [List.length_append]
        omega

/-! ## Without braces the condition is necessary -/

variable (ht) in
/-- A pattern of the first route of an order answers some path of some host, in every order that starts
with that route. -/
theorem lookup_of_first (cfg : ControllerConfig) (hm : m.Laws) {st : ClusterState} (hb : BraceFree st)
    {t : Tier} (hreach : Reachable t) {p : Bytes} (hp : Plain p) (hne : p ≠ []) :
    ∃ host path, ∀ (r : StoredRoute) (o : List StoredRoute) (v : RouteAction), (r :: o).Perm st.values →
      (p, v) ∈ m.accepted [] (tierBlock ht st cfg t r) →
        ∃ a, (compile ht m st cfg (r :: o)).lookup host path = some a ∧ eraseCursor a = v := by
  obtain ⟨host, pre, post, htiers, hpre⟩ := exists_host_of_reachable ht st cfg hreach
  obtain ⟨q, hq, hmatch⟩ := exists_path_of_plain hm (st.values.flatMap (tierBlock ht st cfg t)) hp hne
  refine ⟨host, q, fun r o v hperm hv => ?_⟩
  rw [lookup_eq_findSome, htiers, if_neg hq, List.findSome?_append, List.findSome?_cons]
  have hempty : pre.findSome? ((compile ht m st cfg (r :: o)).tierHit q) = none := by
    rw [List.findSome?_eq_none_iff]
    intro t' ht'
    have hrel := rel_tierHit_compile ht hm st cfg (r :: o) q t'
    have hnil : ((r :: o).map (tierBlock ht st cfg t')).flatten = [] := by
      rw [List.flatten_eq_nil_iff]
      intro B hB
      obtain ⟨r', hr', rfl⟩ := List.mem_map.mp hB
      exact hpre t' ht' r' (hperm.mem_iff.mp hr')
    have hnone : m.matchAt (m.insertAll (m.new : m.Router RouteAction) []) q = none :=
      hm.unmatched PathRouter.Built.new (by simp) (by simp) (by simp)
    rw [hnil, hnone] at hrel
    cases hrel' : (compile ht m st cfg (r :: o)).tierHit q t' with
    | none => rfl
    | some a =>
      rw [hrel'] at hrel
      cases hrel
  have hhit : m.matchAt (m.insertAll m.new ((r :: o).map (tierBlock ht st cfg t)).flatten) q = some v := by
    refine hmatch _ v ?_ ?_
    · intro e he
      obtain ⟨B, hB, he⟩ := List.mem_flatten.mp he
      obtain ⟨r', hr', rfl⟩ := List.mem_map.mp hB
      have hr'' := hperm.mem_iff.mp hr'
      exact ⟨List.mem_flatMap.mpr ⟨r', hr'', he⟩, (plain_of_mem_tierBlock hb hr'' he).1⟩
    · rw [List.map_cons, List.flatten_cons, PathRouter.accepted_append]
      exact PathRouter.subset_accepted _ _ _ hv
  have hrel := rel_tierHit_compile ht hm st cfg (r :: o) q t
  rw [hhit] at hrel
  rw [hempty, Option.none_or]
  cases hx : (compile ht m st cfg (r :: o)).tierHit q t with
  | none =>
    rw [hx] at hrel
    cases hrel
  | some a =>
    rw [hx] at hrel
    cases hrel with
    | some h => exact ⟨a, rfl, h⟩

theorem undisputed_of_orderIndependent (hm : m.Laws) {st : ClusterState} {cfg : ControllerConfig}
    (hb : BraceFree st) (h : OrderIndependent ht m st cfg) : Undisputed ht m st cfg := by
  intro t hreach
  rw [List.pairwise_iff_forall_sublist]
  intro r r' hsub
  obtain ⟨rest, hperm⟩ := hsub.exists_perm_append
  have hr : r ∈ st.values := hsub.subset (by simp)
  have hr' : r' ∈ st.values := hsub.subset (by simp)
  refine ⟨?_, ?_⟩
  · intro e he e' he' _ _ hc
    exact hm.conflict_plain (plain_of_mem_tierBlock hb hr he).1 (plain_of_mem_tierBlock hb hr' he').1 hc
  · rintro ⟨p, v⟩ hv ⟨p', v'⟩ hv' heq
    simp only at heq
    subst heq
    have hmem : (p, v) ∈ tierBlock ht st cfg t r := by
      rcases PathRouter.accepted_subset _ _ _ hv with h | h
      · simp at h
      · exact h
    obtain ⟨hp, hne⟩ := plain_of_mem_tierBlock hb hr hmem
    obtain ⟨host, path, hlook⟩ := lookup_of_first ht cfg hm hb hreach hp hne
    -- the two routes in front, in either order
    have hperm₁ : (r :: r' :: rest).Perm st.values := hperm.symm
    have hperm₂ : (r' :: r :: rest).Perm st.values := (List.Perm.swap r r' rest).trans hperm₁
    obtain ⟨a, ha, rfl⟩ := hlook r _ v hperm₁ hv
    obtain ⟨a', ha', rfl⟩ := hlook r' _ v' hperm₂ hv'
    have hrel := h _ _ hperm₁ hperm₂ host path
    rw [ha, ha'] at hrel
    cases hrel with
    | some hr => exact sameAction_eraseCursor.mpr hr

/-- Routes without braces that share no pattern are undisputed. -/
theorem undisputed_of_disjoint (hm : m.Laws) {st : ClusterState} {cfg : ControllerConfig}
    (hb : BraceFree st)
    (hd : st.values.Pairwise fun r r' => ∀ s ∈ routeSpecs ht st cfg r, ∀ s' ∈ routeSpecs ht st cfg r',
      ∀ p ∈ expandPattern s.path s.pathMatch, p ∉ expandPattern s'.path s'.pathMatch) :
    Undisputed ht m st cfg := by
  have hspec : ∀ {t : Tier} {r : StoredRoute} {e : Bytes × RouteAction}, e ∈ tierBlock ht st cfg t r →
      ∃ s ∈ routeSpecs ht st cfg r, e.1 ∈ expandPattern s.path s.pathMatch := by
    intro t r e he
    obtain ⟨s, hs, he⟩ := List.mem_flatMap.mp he
    obtain ⟨p, hp, rfl⟩ := List.mem_map.mp he
    exact ⟨s, (List.mem_filter.mp hs).1, hp⟩
  intro t _
  refine List.Pairwise.imp_of_mem ?_ hd
  intro r r' hr hr' hrr
  refine ⟨?_, ?_⟩
  · intro e he e' he' _ _ hc
    exact hm.conflict_plain (plain_of_mem_tierBlock hb hr he).1 (plain_of_mem_tierBlock hb hr' he').1 hc
  · intro e he e' he' heq
    have hmem : ∀ {B : List (Bytes × RouteAction)} {e}, e ∈ m.accepted [] B → e ∈ B := fun he =>
      (PathRouter.accepted_subset _ _ _ he).resolve_left (by simp)
    obtain ⟨s, hs, hp⟩ := hspec (hmem he)
    obtain ⟨s', hs', hp'⟩ := hspec (hmem he')
    exact absurd (heq ▸ hp') (hrr s hs s' hs' _ hp)

/-- **Compilation is a function of the cluster state when no pattern is disputed**, and without braces in
the match paths exactly then. -/
theorem compile_order_independent_iff (hm : m.Laws) (st : ClusterState) (cfg : ControllerConfig) :
    (Undisputed ht m st cfg → OrderIndependent ht m st cfg) ∧
      (BraceFree st → (OrderIndependent ht m st cfg ↔ Undisputed ht m st cfg)) :=
  ⟨orderIndependent_of_undisputed hm,
    fun hb => ⟨undisputed_of_orderIndependent hm hb, orderIndependent_of_undisputed hm⟩⟩

end Reconcile

/-- The state that holds the routes `default/a` and `default/b`. -/
def sampleState (a b : StoredRoute) : ClusterState where
  routes := (∅ : AList fun _ : ServiceKey => StoredRoute).insert (ascii "default", ascii "b") b
    |>.insert (ascii "default", ascii "a") a
  endpoints := ∅

theorem compile_order_independent_two_paths :
    OrderIndependent HeaderTypes.reference PathRouter.reference
      (sampleState (sampleRoute (ascii "a") (ascii "/a") (ascii "x"))
        (sampleRoute (ascii "b") (ascii "/b") (ascii "y"))) anyGateway := by
  have hvalues : ∀ a b, (sampleState a b).values = [a, b] := fun _ _ => rfl
  refine (compile_order_independent_iff PathRouter.reference_laws _ anyGateway).1 ?_
  refine undisputed_of_disjoint PathRouter.reference_laws ?_ ?_
  · unfold BraceFree
    rw [hvalues]
    decide
  · rw [hvalues]
    decide

/-- Two routes for `/`: the first one visited takes the traffic. -/
theorem compile_depends_on_order :
    ¬ OrderIndependent HeaderTypes.reference PathRouter.reference
      (sampleState (sampleRoute (ascii "a") (ascii "/") (ascii "x"))
        (sampleRoute (ascii "b") (ascii "/") (ascii "y"))) anyGateway := by
  intro h
  have hrel := h [sampleRoute (ascii "a") (ascii "/") (ascii "x"), sampleRoute (ascii "b") (ascii "/") (ascii "y")]
    [sampleRoute (ascii "b") (ascii "/") (ascii "y"), sampleRoute (ascii "a") (ascii "/") (ascii "x")]
    (List.Perm.refl _) (List.Perm.swap _ _ _) none (ascii "/")
  have hname : ∀ {x y : Option RouteAction}, Option.Rel (SameAction HeaderTypes.reference) x y →
      x.map (·.routeName) = y.map (·.routeName) := by
    rintro _ _ (hs | _)
    · rw [Option.map_some, Option.map_some, hs.routeName]
    · rfl
  exact absurd (hname hrel) (by decide)

end LbProxy.Core
