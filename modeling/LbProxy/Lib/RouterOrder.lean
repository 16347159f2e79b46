import LbProxy.Lib.PathRouter
import Mathlib.Data.List.Pairwise
import Mathlib.Data.List.Perm.Subperm
import Mathlib.Tactic.Common

/-!
# Routers filled block by block

A router is filled with blocks of entries, one block after the other.  If entries of different blocks
conflict only by being the same pattern (`Apart`), then the router holds, for each pattern, the entry
that the first block with that pattern would hold on its own (`mem_accepted_flatten`).  If moreover such
entries carry related values (`Agree`), the order of the blocks does not matter (`matchAt_perm`).  A router
that is filled further answers as before or with a new entry (`matchAt_append`), and a path is routed to the
first entry whose pattern is the path itself (`matchAt_of_find`).
-/

namespace LbProxy.Lib

namespace PathRouter

variable {m : PathRouter} {α : Type}

theorem accepted_append (es l₁ l₂ : List (Bytes × α)) :
    m.accepted es (l₁ ++ l₂) = m.accepted (m.accepted es l₁) l₂ := by
  induction l₁ generalizing es with
  | nil => rfl
  | cons e l₁ ih =>
    simp only [List.cons_append, accepted]
    split
    · exact ih _
    · exact ih _

theorem accepted_map {β : Type} (f : α → β) (es l : List (Bytes × α)) :
    m.accepted (es.map fun e => (e.1, f e.2)) (l.map fun e => (e.1, f e.2)) =
      (m.accepted es l).map fun e => (e.1, f e.2) := by
  induction l generalizing es with
  | nil => rfl
  | cons e l ih =>
    have hiff : (∀ e' ∈ es.map fun e => (e.1, f e.2), ¬ m.Conflict e'.1 e.1) ↔
        ∀ e' ∈ es, ¬ m.Conflict e'.1 e.1 := List.forall_mem_map
    simp only [List.map_cons, accepted]
    by_cases hc : m.Valid e.1 ∧ ∀ e' ∈ es, ¬ m.Conflict e'.1 e.1
    · rw [if_pos ⟨hc.1, hiff.mpr hc.2⟩, if_pos hc, ← ih (es ++ [e]), List.map_append]
      rfl
    · rw [if_neg fun h => hc ⟨h.1, hiff.mp h.2⟩, if_neg hc]
      exact ih es

/-- Entries with the same pattern and related values. -/
def SameEntry {β : Type} (R : α → β → Prop) (e : Bytes × α) (e' : Bytes × β) : Prop := e.1 = e'.1 ∧ R e.2 e'.2

theorem accepted_forall₂ {β : Type} {R : α → β → Prop} {l : List (Bytes × α)} {l' : List (Bytes × β)}
    (hl : List.Forall₂ (SameEntry R) l l') :
    ∀ {es : List (Bytes × α)} {es' : List (Bytes × β)}, List.Forall₂ (SameEntry R) es es' →
      List.Forall₂ (SameEntry R) (m.accepted es l) (m.accepted es' l') := by
  induction hl with
  | nil => exact fun h => h
  | @cons e e' l l' he _ ih =>
    intro es es' hes
    have hkeys : es.map (·.1) = es'.map (·.1) := by
      induction hes with
      | nil => rfl
      | cons h _ ih => rw [List.map_cons, List.map_cons, ih, h.1]
    have hiff : (∀ x ∈ es, ¬ m.Conflict x.1 e.1) ↔ ∀ x ∈ es', ¬ m.Conflict x.1 e'.1 := by
      have hone : (∀ x ∈ es, ¬ m.Conflict x.1 e.1) ↔ ∀ p ∈ es.map (·.1), ¬ m.Conflict p e.1 :=
        (List.forall_mem_map (P := fun p => ¬ m.Conflict p e.1)).symm
      rw [hone, hkeys, he.1]
      exact List.forall_mem_map (P := fun p => ¬ m.Conflict p e'.1)
    simp only [accepted]
    by_cases hc : m.Valid e.1 ∧ ∀ x ∈ es, ¬ m.Conflict x.1 e.1
    · rw [if_pos hc, if_pos ⟨he.1 ▸ hc.1, hiff.mp hc.2⟩]
      exact ih (List.rel_append hes (.cons he .nil))
    · rw [if_neg hc, if_neg fun h => hc ⟨he.1 ▸ h.1, hiff.mpr h.2⟩]
      exact ih hes

/-- Routers filled with the same patterns find related values. -/
theorem rel_matchAt (hm : m.Laws) {R : α → α → Prop} {l l' : List (Bytes × α)}
    (hl : List.Forall₂ (SameEntry R) l l') (q : Bytes) :
    Option.Rel R (m.matchAt (m.insertAll m.new l) q) (m.matchAt (m.insertAll m.new l') q) := by
  have hacc := accepted_forall₂ (m := m) hl .nil
  have hmem : ∀ {es es' : List (Bytes × α)}, List.Forall₂ (SameEntry R) es es' →
      (∀ e ∈ es, ∃ e' ∈ es', e'.1 = e.1 ∧ R e.2 e'.2) ∧ ∀ e' ∈ es', ∃ e ∈ es, e'.1 = e.1 ∧ R e.2 e'.2 := by
    intro es es' h
    induction h with
    | nil => simp
    | @cons e e' es es' he _ ih =>
      refine ⟨List.forall_mem_cons.mpr ⟨⟨e', by simp, he.1.symm, he.2⟩, fun x hx => ?_⟩,
        List.forall_mem_cons.mpr ⟨⟨e, by simp, he.1.symm, he.2⟩, fun x hx => ?_⟩⟩
      · obtain ⟨x', hx', h⟩ := ih.1 x hx
        exact ⟨x', List.mem_cons_of_mem _ hx', h⟩
      · obtain ⟨x', hx', h⟩ := ih.2 x hx
        exact ⟨x', List.mem_cons_of_mem _ hx', h⟩
  exact hm.order (built_insertAll hm .new l) (built_insertAll hm .new l') (hmem hacc).1 (hmem hacc).2 q

theorem accepted_valid {l es : List (Bytes × α)} (hes : ∀ e ∈ es, m.Valid e.1) :
    ∀ e ∈ m.accepted es l, m.Valid e.1 := by
  induction l generalizing es with
  | nil => exact hes
  | cons a l ih =>
    simp only [accepted]
    split
    · rename_i h
      refine ih fun e he => ?_
      rcases List.mem_append.mp he with he | he
      · exact hes e he
      · exact (List.mem_singleton.mp he) ▸ h.1
    · exact ih hes

theorem accepted_nodup (hm : m.Laws) {l es : List (Bytes × α)} (hes : (es.map (·.1)).Nodup) :
    ((m.accepted es l).map (·.1)).Nodup := by
  induction l generalizing es with
  | nil => exact hes
  | cons a l ih =>
    simp only [accepted]
    split
    · rename_i h
      refine ih ?_
      rw [List.map_append, List.nodup_append]
      refine ⟨hes, by simp, ?_⟩
      rintro p hp p' hp' rfl
      obtain ⟨e, he, rfl⟩ := List.mem_map.mp hp
      simp only [List.map_cons, List.map_nil, List.mem_singleton] at hp'
      refine h.2 e he ?_
      rw [hp']
      exact hm.same h.1
    · exact ih hes

theorem accepted_unique (hm : m.Laws) {l : List (Bytes × α)} {p : Bytes} {v v' : α}
    (h : (p, v) ∈ m.accepted [] l) (h' : (p, v') ∈ m.accepted [] l) : v = v' := by
  have hnd : ((m.accepted [] l).map (·.1)).Nodup := accepted_nodup hm (by simp)
  have h1 := (valueOf_eq_some hnd).mpr h
  have h2 := (valueOf_eq_some hnd).mpr h'
  exact Option.some.inj (h1.symm.trans h2)

/-- Entries of the two blocks conflict only by being the same pattern. -/
def Apart (m : PathRouter) (B B' : List (Bytes × α)) : Prop :=
  ∀ e ∈ B, ∀ e' ∈ B', m.Valid e.1 → m.Valid e'.1 → m.Conflict e.1 e'.1 → e.1 = e'.1

/-- Patterns that both blocks would hold on their own carry related values. -/
def Agree (m : PathRouter) (R : α → α → Prop) (B B' : List (Bytes × α)) : Prop :=
  ∀ e ∈ m.accepted [] B, ∀ e' ∈ m.accepted [] B', e.1 = e'.1 → R e.2 e'.2

theorem Apart.symm (hm : m.Laws) {B B' : List (Bytes × α)} (h : m.Apart B B') : m.Apart B' B :=
  fun e he e' he' hv hv' hc => (h e' he' e he hv' hv (hm.symm hv hv' hc)).symm

theorem Agree.symm {R : α → α → Prop} (hR : ∀ {a b}, R a b → R b a) {B B' : List (Bytes × α)}
    (h : m.Agree R B B') : m.Agree R B' B :=
  fun e he e' he' heq => hR (h e' he' e he heq.symm)

open Classical in
/-- A block that is apart from what is stored adds what it would hold on its own, except the patterns that
are stored already. -/
theorem accepted_apart (hm : m.Laws) {es B : List (Bytes × α)} (hval : ∀ e ∈ es, m.Valid e.1)
    (hap : m.Apart es B) :
    m.accepted es B = es ++ (m.accepted [] B).filter fun e => ∀ e' ∈ es, e'.1 ≠ e.1 := by
  -- the invariant of the scan: `X` is the part of the isolated run `Y` that is not stored in `es`
  have key : ∀ (B X Y : List (Bytes × α)), m.Apart es B → (∀ e ∈ Y, m.Valid e.1) →
      X = Y.filter (fun e => ∀ e' ∈ es, e'.1 ≠ e.1) →
      m.accepted (es ++ X) B = es ++ (m.accepted Y B).filter fun e => ∀ e' ∈ es, e'.1 ≠ e.1 := by
    intro B
    induction B with
    | nil => rintro X Y - - rfl; rfl
    | cons a B ih =>
      rintro X Y hap hY rfl
      have hapB : m.Apart es B := fun e he e' he' => hap e he e' (List.mem_cons_of_mem _ he')
      have hnone : ∀ e' ∈ es, m.Valid a.1 → m.Conflict e'.1 a.1 → e'.1 = a.1 := fun e' he' hv hc =>
        hap e' he' a (by simp) (hval e' he') hv hc
      simp only [accepted]
      by_cases hv : m.Valid a.1
      swap
      · rw [if_neg (fun h => hv h.1), if_neg (fun h => hv h.1)]
        exact ih _ _ hapB hY rfl
      have hYa : m.Valid a.1 → ∀ e ∈ Y ++ [a], m.Valid e.1 := by
        intro ha e he
        rcases List.mem_append.mp he with he | he
        · exact hY e he
        · exact (List.mem_singleton.mp he) ▸ ha
      by_cases hin : ∀ e' ∈ es, e'.1 ≠ a.1
      · -- a new pattern: the stored entries do not matter
        have hiff : (∀ e' ∈ es ++ Y.filter (fun e => ∀ e' ∈ es, e'.1 ≠ e.1), ¬ m.Conflict e'.1 a.1) ↔
            ∀ e' ∈ Y, ¬ m.Conflict e'.1 a.1 := by
          constructor
          · intro h y hy hc
            by_cases hyes : ∀ e' ∈ es, e'.1 ≠ y.1
            · exact h y (List.mem_append_right _ (List.mem_filter.mpr ⟨hy, by simpa using hyes⟩)) hc
            · push Not at hyes
              obtain ⟨e', he', heq⟩ := hyes
              exact h e' (List.mem_append_left _ he') (heq ▸ hc)
          · intro h y hy hc
            rcases List.mem_append.mp hy with hy | hy
            · exact hin y hy (hnone y hy hv hc)
            · exact h y (List.mem_filter.mp hy).1 hc
        simp only [hiff, hv, true_and]
        split
        · rw [List.append_assoc]
          refine ih _ _ hapB (hYa hv) ?_
          rw [List.filter_append, List.filter_cons, if_pos (by simpa using hin), List.filter_nil]
        · exact ih _ _ hapB hY rfl
      · -- a stored pattern: rejected here, and dropped by the filter
        push Not at hin
        obtain ⟨e', he', heq⟩ := hin
        have hrej : ¬ (m.Valid a.1 ∧ ∀ e' ∈ es ++ Y.filter (fun e => ∀ e' ∈ es, e'.1 ≠ e.1),
            ¬ m.Conflict e'.1 a.1) :=
          fun h => h.2 e' (List.mem_append_left _ he') (heq ▸ hm.same (heq ▸ hv))
        rw [if_neg hrej]
        split
        · refine ih _ _ hapB (hYa hv) ?_
          rw [List.filter_append, List.filter_cons, if_neg, List.filter_nil, List.append_nil]
          simp only [decide_eq_true_eq]
          exact fun h => h e' he' heq
        · exact ih _ _ hapB hY rfl
  have := key B [] [] hap (by simp) rfl
  rwa [List.append_nil] at this

theorem mem_accepted_blocks (hm : m.Laws) (e : Bytes × α) :
    ∀ (o : List (List (Bytes × α))) (es : List (Bytes × α)), (∀ e ∈ es, m.Valid e.1) →
      (∀ B ∈ o, m.Apart es B) → o.Pairwise m.Apart →
      (e ∈ m.accepted es o.flatten ↔ e ∈ es ∨ ((∀ e' ∈ es, e'.1 ≠ e.1) ∧
        ∃ o₁ B o₂, o = o₁ ++ B :: o₂ ∧ e ∈ m.accepted [] B ∧
          ∀ B' ∈ o₁, ∀ e' ∈ m.accepted [] B', e'.1 ≠ e.1)) := by
  classical
  intro o
  induction o with
  | nil => simp [accepted]
  | cons B o ih =>
    intro es hval hap hpw
    obtain ⟨hapB, hpw⟩ := List.pairwise_cons.mp hpw
    have hes' := accepted_apart hm hval (hap B (by simp))
    have hval' : ∀ e ∈ m.accepted es B, m.Valid e.1 := accepted_valid hval
    have hap' : ∀ B' ∈ o, m.Apart (m.accepted es B) B' := by
      intro B' hB' e he
      rcases accepted_subset _ _ e he with h | h
      · exact hap B' (List.mem_cons_of_mem _ hB') e h
      · exact hapB B' hB' e h
    rw [List.flatten_cons, accepted_append, ih _ hval' hap' hpw, hes']
    simp only [List.mem_append, List.mem_filter, decide_eq_true_eq]
    constructor
    · rintro ((h | ⟨h1, h2⟩) | ⟨h1, o₁, C, o₂, rfl, h2, h3⟩)
      · exact Or.inl h
      · exact Or.inr ⟨h2, [], B, o, rfl, h1, by simp⟩
      · refine Or.inr ⟨fun e' he' => h1 e' (Or.inl he'), B :: o₁, C, o₂, rfl, h2, ?_⟩
        intro B' hB' e' he' heq
        rcases List.mem_cons.mp hB' with rfl | hB'
        · by_cases hnew : ∀ e'' ∈ es, e''.1 ≠ e'.1
          · exact h1 e' (Or.inr ⟨he', hnew⟩) heq
          · push Not at hnew
            obtain ⟨e'', he'', heq''⟩ := hnew
            exact h1 e'' (Or.inl he'') (heq''.trans heq)
        · exact h3 B' hB' e' he' heq
    · rintro (h | ⟨h1, o₁, C, o₂, hsplit, h2, h3⟩)
      · exact Or.inl (Or.inl h)
      · rcases o₁ with _ | ⟨B', o₁⟩
        · obtain ⟨rfl, rfl⟩ := List.cons.inj hsplit
          exact Or.inl (Or.inr ⟨h2, h1⟩)
        · obtain ⟨rfl, rfl⟩ := List.cons.inj hsplit
          refine Or.inr ⟨?_, o₁, C, o₂, rfl, h2, fun D hD => h3 D (List.mem_cons_of_mem _ hD)⟩
          rintro e' (he' | ⟨he', -⟩)
          · exact h1 e' he'
          · exact h3 B (by simp) e' he'

/-- **What blocks that are pairwise apart leave behind**: for each pattern the entry of the first block
that would hold it on its own. -/
theorem mem_accepted_flatten (hm : m.Laws) {o : List (List (Bytes × α))} (hap : o.Pairwise m.Apart)
    (e : Bytes × α) :
    e ∈ m.accepted [] o.flatten ↔ ∃ o₁ B o₂, o = o₁ ++ B :: o₂ ∧ e ∈ m.accepted [] B ∧
      ∀ B' ∈ o₁, ∀ e' ∈ m.accepted [] B', e'.1 ≠ e.1 := by
  rw [mem_accepted_blocks hm e o [] (by simp) (fun B _ e he => by simp at he) hap]
  simp

theorem exists_first {β : Type} {P : β → Prop} {l : List β} (h : ∃ x ∈ l, P x) :
    ∃ a x b, l = a ++ x :: b ∧ P x ∧ ∀ y ∈ a, ¬ P y := by
  induction l with
  | nil => simp at h
  | cons x l ih =>
    by_cases hx : P x
    · exact ⟨[], x, l, rfl, hx, by simp⟩
    · obtain ⟨a, y, b, rfl, hy, ha⟩ := ih (by simpa [hx] using h)
      exact ⟨x :: a, y, b, rfl, hy, by simpa [hx] using ha⟩

theorem exists_first_block {o : List (List (Bytes × α))} {p : Bytes}
    (h : ∃ B ∈ o, ∃ e ∈ m.accepted [] B, e.1 = p) :
    ∃ o₁ B o₂, o = o₁ ++ B :: o₂ ∧ (∃ e ∈ m.accepted [] B, e.1 = p) ∧
      ∀ B' ∈ o₁, ∀ e ∈ m.accepted [] B', e.1 ≠ p := by
  obtain ⟨o₁, B, o₂, ho, hB, hbefore⟩ := exists_first h
  exact ⟨o₁, B, o₂, ho, hB, fun B' hB' e he heq => hbefore B' hB' ⟨e, he, heq⟩⟩

section Order

variable (hm : m.Laws) {R : α → α → Prop} (hrefl : ∀ a, R a a) (hsymm : ∀ {a b}, R a b → R b a)
include hm hrefl hsymm

/-- What one order of the blocks leaves behind, another order leaves behind up to related values. -/
theorem accepted_perm {o o' : List (List (Bytes × α))} (hperm : o.Perm o')
    (hap : o.Pairwise m.Apart) (hag : o.Pairwise (m.Agree R)) :
    ∀ e ∈ m.accepted [] o.flatten, ∃ e' ∈ m.accepted [] o'.flatten, e'.1 = e.1 ∧ R e.2 e'.2 := by
  intro e he
  have hap' : o'.Pairwise m.Apart := (hperm.pairwise_iff fun h => h.symm hm).mp hap
  obtain ⟨o₁, B, o₂, rfl, heB, -⟩ := (mem_accepted_flatten hm hap e).mp he
  have hB : B ∈ o' := hperm.mem_iff.mp (by simp)
  obtain ⟨o₁', B', o₂', rfl, ⟨e', he', heq⟩, hfirst⟩ := exists_first_block ⟨B, hB, e, heB, rfl⟩
  refine ⟨e', (mem_accepted_flatten hm hap' e').mpr ⟨o₁', B', o₂', rfl, he', ?_⟩, heq, ?_⟩
  · intro D hD e'' he''
    rw [heq]
    exact hfirst D hD e'' he''
  · have hB' : B' ∈ o₁ ++ B :: o₂ := hperm.mem_iff.mpr (by simp)
    by_cases hBB : B = B'
    · subst hBB
      obtain ⟨p, v⟩ := e
      obtain ⟨p', v'⟩ := e'
      simp only at heq
      subst heq
      obtain rfl := accepted_unique hm heB he'
      exact hrefl _
    · have : Std.Symm (m.Agree R) := ⟨fun _ _ h => h.symm hsymm⟩
      exact hag.forall (by simp) hB' hBB e heB e' he' heq.symm

/-- **Routing does not depend on the order of the blocks.** -/
theorem matchAt_perm {o o' : List (List (Bytes × α))} (hperm : o.Perm o')
    (hap : o.Pairwise m.Apart) (hag : o.Pairwise (m.Agree R)) (q : Bytes) :
    Option.Rel R (m.matchAt (m.insertAll m.new o.flatten) q)
      (m.matchAt (m.insertAll m.new o'.flatten) q) := by
  have hap' : o'.Pairwise m.Apart := (hperm.pairwise_iff fun h => h.symm hm).mp hap
  have hag' : o'.Pairwise (m.Agree R) := (hperm.pairwise_iff fun h => h.symm hsymm).mp hag
  refine hm.order (built_insertAll hm Built.new _) (built_insertAll hm Built.new _)
    (accepted_perm hm hrefl hsymm hperm hap hag) ?_ q
  intro e' he'
  obtain ⟨e, he, heq, hr⟩ := accepted_perm hm hrefl hsymm hperm.symm hap' hag' e' he'
  exact ⟨e, he, heq.symm, hsymm hr⟩

end Order

/-! ## More entries -/

section More

variable (hm : m.Laws)
include hm

/-- **A router of plain patterns that is filled further answers as before, or with one of the new entries.** -/
theorem matchAt_append {l k : List (Bytes × α)} (hl : ∀ e ∈ l, Plain e.1) (hk : ∀ e ∈ k, Plain e.1) (q : Bytes) :
    m.matchAt (m.insertAll m.new (l ++ k)) q = m.matchAt (m.insertAll m.new l) q ∨
      ∃ e ∈ k, m.matchAt (m.insertAll m.new (l ++ k)) q = some e.2 := by
  have hbuilt := built_insertAll hm Built.new l
  have hbuilt' := built_insertAll hm Built.new (l ++ k)
  have hold : ∀ e ∈ m.accepted [] l, e ∈ m.accepted [] (l ++ k) := by
    rw [accepted_append]
    exact subset_accepted _ _
  have hnew : ∀ e ∈ m.accepted [] (l ++ k), e ∈ m.accepted [] l ∨ e ∈ k := by
    rw [accepted_append]
    exact accepted_subset _ _
  have hplain : ∀ e ∈ m.accepted [] l, Plain e.1 := fun e he =>
    hl e ((accepted_subset _ _ e he).resolve_left (by simp))
  have hplain' : ∀ e ∈ m.accepted [] (l ++ k), Plain e.1 := fun e he => (hnew e he).elim (hplain e) (hk e)
  -- the winner of the fuller router also wins in the old one, if it was there
  by_cases hst : ∃ e ∈ m.accepted [] (l ++ k), NoBrace e.1 ∧ e.1 = q
  · obtain ⟨⟨p, v⟩, he, hb, rfl⟩ := hst
    rw [hm.static hbuilt' hplain' hb he]
    rcases hnew _ he with h | h
    · exact Or.inl (hm.static hbuilt hplain hb h).symm
    · exact Or.inr ⟨_, h, rfl⟩
  push Not at hst
  by_cases hca : ∃ e ∈ m.accepted [] (l ++ k), ∃ b, NoBrace b ∧ e.1 = b ++ Lib.catchAll ∧ Below b q
  · obtain ⟨⟨p, v⟩, he, b, hb, rfl, hq, hmax⟩ := exists_longest_base hca
    rw [hm.catchAll hbuilt' hplain' hst hb he hq hmax]
    rcases hnew _ he with h | h
    · refine Or.inl (hm.catchAll hbuilt hplain (fun e he => hst e (hold e he)) hb h hq ?_).symm
      exact fun e he => hmax e (hold e he)
    · exact Or.inr ⟨_, h, rfl⟩
  push Not at hca
  rw [hm.unmatched hbuilt' hplain' hst hca]
  exact Or.inl (hm.unmatched hbuilt hplain (fun e he => hst e (hold e he)) fun e he => hca e (hold e he)).symm

end More

/-! ## Static patterns among any others -/

/-- What the router documents of static patterns, whatever other patterns it stores. -/
structure StaticLaws (m : PathRouter) : Prop where
  /-- A static pattern conflicts with no other pattern. -/
  conflict_static : ∀ {p p'}, m.Valid p → NoBrace p' → m.Conflict p p' → p = p'
  /-- A static pattern equal to the path wins. -/
  static_wins : ∀ {α : Type} {r : m.Router α} {es q v}, m.Built r es → NoBrace q → (q, v) ∈ es →
    m.matchAt r q = some v

theorem reference_staticLaws : PathRouter.reference.StaticLaws where
  conflict_static {p _} hp hp' hc :=
    reference_laws.conflict_plain ((reference_valid p).mp hp) (Or.inl hp') hc
  static_wins hbuilt hq hmem :=
    reference_laws.static hbuilt (reference_built hbuilt).2.2 hq hmem

section Static

variable (hm : m.Laws) (hs : m.StaticLaws)
include hm hs

theorem mem_accepted_of_find (es : List (Bytes × α)) {l : List (Bytes × α)} {q : Bytes} (hq : NoBrace q)
    (hvalid : ∀ e ∈ es, m.Valid e.1)
    (hes : ∀ e ∈ es, e.1 ≠ q) {e : Bytes × α} (hfind : l.find? (·.1 == q) = some e) : e ∈ m.accepted es l := by
  induction l generalizing es with
  | nil => cases hfind
  | cons a l ih =>
    rw [accepted]
    by_cases ha : a.1 = q
    · rw [List.find?_cons_of_pos (by simpa using ha)] at hfind
      obtain rfl := Option.some.inj hfind
      have hacc : m.Valid a.1 ∧ ∀ e' ∈ es, ¬ m.Conflict e'.1 a.1 := by
        rw [ha]
        exact ⟨hm.valid_plain (Or.inl hq), fun e' he' hc => hes e' he' (hs.conflict_static (hvalid e' he') hq hc)⟩
      rw [if_pos hacc]
      exact subset_accepted _ _ _ (by simp)
    · rw [List.find?_cons_of_neg (by simpa using ha)] at hfind
      split
      · rename_i hacc
        refine ih _ ?_ ?_ hfind
        · intro e' he'
          rcases List.mem_append.mp he' with h | h
          · exact hvalid e' h
          · exact (List.mem_singleton.mp h) ▸ hacc.1
        · intro e' he'
          rcases List.mem_append.mp he' with h | h
          · exact hes e' h
          · exact (List.mem_singleton.mp h) ▸ ha
      · exact ih es hvalid hes hfind

/-- **A path is routed to the first entry whose pattern is the path itself.** -/
theorem matchAt_of_find {l : List (Bytes × α)} {q : Bytes} (hq : NoBrace q) {e : Bytes × α}
    (hfind : l.find? (·.1 == q) = some e) : m.matchAt (m.insertAll m.new l) q = some e.2 := by
  have hmem := mem_accepted_of_find hm hs [] hq (by simp) (by simp) hfind
  have heq : e.1 = q := by simpa using List.find?_some hfind
  refine hs.static_wins (built_insertAll hm Built.new l) hq ?_
  rwa [← heq]

end Static

end PathRouter

end LbProxy.Lib
