import LbProxy.Lib.Bytes
import Mathlib.Data.Option.Basic

/-!
# Path routers: the contract of a radix-trie URL router

* `PathRouter` — an interface (`new`, `insert`, `matchAt`) to a router that stores patterns;
* `Built m r es` — the router `r` was made from `new` by accepting exactly the entries `es`;
* `PathRouter.Laws` — what such a router documents: a rejected insert changes nothing, an insert is
  rejected because of a conflict with one stored pattern, routing does not depend on the order of the
  inserts, and among *plain* patterns (static ones and `base/{*catchall}`) an equal static pattern wins,
  else the catch-all with the longest base;
* `accepted` — the entries a sequence of inserts leaves behind (first wins);
* `matchAt_insertAll_cases` — a router filled with plain entries answers with one that matches, if any does;
* `PathRouter.reference` — a list-backed router that satisfies the contract on plain patterns.
-/

namespace LbProxy.Lib

/-! ## Patterns -/

/-- The tail of a catch-all pattern. -/
def catchAll : Bytes := ascii "/\x7b*catchall\x7d"

/-- No brace occurs, so no segment of the pattern is a parameter. -/
def NoBrace (p : Bytes) : Prop := 123 ∉ p ∧ 125 ∉ p

instance (p : Bytes) : Decidable (NoBrace p) := inferInstanceAs (Decidable (_ ∧ _))

/-- A static pattern, or a catch-all below a static base. -/
def Plain (p : Bytes) : Prop := NoBrace p ∨ ∃ b, NoBrace b ∧ p = b ++ catchAll

/-- `q` lies strictly below `b`: it continues `b` with a slash and at least one more byte. -/
def Below (b q : Bytes) : Prop := ∃ t, t ≠ [] ∧ q = b ++ 47 :: t

theorem NoBrace.append {a b : Bytes} (ha : NoBrace a) (hb : NoBrace b) : NoBrace (a ++ b) := by
  simp only [NoBrace, List.mem_append, not_or] at *
  exact ⟨⟨ha.1, hb.1⟩, ha.2, hb.2⟩

theorem NoBrace.of_append_left {a b : Bytes} (h : NoBrace (a ++ b)) : NoBrace a := by
  simp only [NoBrace, List.mem_append, not_or] at *
  exact ⟨h.1.1, h.2.1⟩

theorem not_noBrace_catchAll (b : Bytes) : ¬ NoBrace (b ++ catchAll) := by
  intro h
  exact h.1 (List.mem_append_right b (by decide))

theorem NoBrace.ne_catchAll {p b : Bytes} (h : NoBrace p) : p ≠ b ++ catchAll :=
  fun he => not_noBrace_catchAll b (he ▸ h)

theorem catchAll_inj {a b : Bytes} (h : a ++ catchAll = b ++ catchAll) : a = b :=
  List.append_cancel_right h

theorem Below.length_lt {b q : Bytes} (h : Below b q) : b.length + 1 < q.length := by
  obtain ⟨t, ht, rfl⟩ := h
  have := List.length_pos_iff.mpr ht
  simp; omega

/-! ## The interface and its contract -/

/-- The interface of a path router: the empty router, insertion of a pattern (the router afterwards and
whether the pattern was accepted), and the value a path is routed to. -/
structure PathRouter where
  Router : Type → Type
  new : {α : Type} → Router α
  insert : {α : Type} → Router α → Bytes → α → Router α × Bool
  matchAt : {α : Type} → Router α → Bytes → Option α

namespace PathRouter

variable (m : PathRouter)

/-- The pattern is accepted by an empty router. -/
def Valid (p : Bytes) : Prop := (m.insert (m.new : m.Router Unit) p ()).2 = true

/-- The pattern `p'` is rejected by a router that holds only `p`. -/
def Conflict (p p' : Bytes) : Prop :=
  (m.insert (m.insert (m.new : m.Router Unit) p ()).1 p' ()).2 = false

/-- `r` was made from the empty router by accepting the entries `es`, in this order. -/
inductive Built {α : Type} : m.Router α → List (Bytes × α) → Prop
  | new : Built m.new []
  | accept {r es p v} : Built r es → (m.insert r p v).2 = true →
      Built (m.insert r p v).1 (es ++ [(p, v)])

/-- What the router documents. -/
structure Laws : Prop where
  /-- A rejected insert leaves the router unchanged. -/
  reject : ∀ {α : Type} {r : m.Router α} {es p v}, m.Built r es → (m.insert r p v).2 = false →
    (m.insert r p v).1 = r
  /-- An insert is rejected for a malformed pattern or a conflict with a stored one, only. -/
  accept : ∀ {α : Type} {r : m.Router α} {es p v}, m.Built r es →
    ((m.insert r p v).2 = true ↔ m.Valid p ∧ ∀ e ∈ es, ¬ m.Conflict e.1 p)
  /-- A stored pattern cannot be stored again. -/
  same : ∀ {p}, m.Valid p → m.Conflict p p
  /-- Conflicts are mutual. -/
  symm : ∀ {p p'}, m.Valid p → m.Valid p' → m.Conflict p p' → m.Conflict p' p
  /-- Routing depends on the stored patterns, not on the order in which they were stored; values are
  only carried. -/
  order : ∀ {α : Type} {R : α → α → Prop} {r r' : m.Router α} {es es'}, m.Built r es → m.Built r' es' →
    (∀ e ∈ es, ∃ e' ∈ es', e'.1 = e.1 ∧ R e.2 e'.2) → (∀ e' ∈ es', ∃ e ∈ es, e'.1 = e.1 ∧ R e.2 e'.2) →
    ∀ q, Option.Rel R (m.matchAt r q) (m.matchAt r' q)
  /-- Plain patterns are well formed, and conflict only when they are the same. -/
  valid_plain : ∀ {p}, Plain p → m.Valid p
  conflict_plain : ∀ {p p'}, Plain p → Plain p' → m.Conflict p p' → p = p'
  /-- A static pattern equal to the path wins. -/
  static : ∀ {α : Type} {r : m.Router α} {es q v}, m.Built r es → (∀ e ∈ es, Plain e.1) → NoBrace q →
    (q, v) ∈ es → m.matchAt r q = some v
  /-- Otherwise the catch-all with the longest base above the path wins. -/
  catchAll : ∀ {α : Type} {r : m.Router α} {es q b v}, m.Built r es → (∀ e ∈ es, Plain e.1) →
    (∀ e ∈ es, NoBrace e.1 → e.1 ≠ q) → NoBrace b → (b ++ catchAll, v) ∈ es → Below b q →
    (∀ e ∈ es, ∀ b', NoBrace b' → e.1 = b' ++ Lib.catchAll → Below b' q → b'.length ≤ b.length) →
    m.matchAt r q = some v
  /-- Otherwise there is no match. -/
  unmatched : ∀ {α : Type} {r : m.Router α} {es q}, m.Built r es → (∀ e ∈ es, Plain e.1) →
    (∀ e ∈ es, NoBrace e.1 → e.1 ≠ q) →
    (∀ e ∈ es, ∀ b', NoBrace b' → e.1 = b' ++ Lib.catchAll → ¬ Below b' q) → m.matchAt r q = none

/-! ## Inserting a sequence of entries -/

/-- Insert the entries in order, skipping those that are rejected. -/
def insertAll {α : Type} (r : m.Router α) (l : List (Bytes × α)) : m.Router α :=
  l.foldl (fun r e => (m.insert r e.1 e.2).1) r

open Classical in
/-- The entries that a sequence of inserts leaves in a router that holds `es`: first wins. -/
noncomputable def accepted {α : Type} (es : List (Bytes × α)) : List (Bytes × α) → List (Bytes × α)
  | [] => es
  | e :: l =>
    if m.Valid e.1 ∧ ∀ e' ∈ es, ¬ m.Conflict e'.1 e.1 then accepted (es ++ [e]) l else accepted es l

variable {m} (hm : m.Laws)
include hm

theorem built_insertAll {α : Type} {r : m.Router α} {es : List (Bytes × α)} (h : m.Built r es) :
    ∀ l, m.Built (m.insertAll r l) (m.accepted es l) := by
  intro l
  induction l generalizing r es with
  | nil => exact h
  | cons e l ih =>
    simp only [insertAll, List.foldl_cons, accepted]
    by_cases ha : (m.insert r e.1 e.2).2 = true
    · rw [if_pos ((hm.accept h).mp ha)]
      exact ih (Built.accept h ha)
    · rw [if_neg (fun hc => ha ((hm.accept h).mpr hc)), hm.reject h (by simpa using ha)]
      exact ih h

omit hm in
theorem accepted_subset {α : Type} (l es : List (Bytes × α)) :
    ∀ e ∈ m.accepted es l, e ∈ es ∨ e ∈ l := by
  induction l generalizing es with
  | nil => intro e he; exact Or.inl he
  | cons a l ih =>
    intro e he
    simp only [accepted] at he
    split at he
    · rcases ih _ e he with h | h
      · rcases List.mem_append.mp h with h | h
        · exact Or.inl h
        · exact Or.inr (by simp_all)
      · exact Or.inr (List.mem_cons_of_mem _ h)
    · rcases ih _ e he with h | h
      · exact Or.inl h
      · exact Or.inr (List.mem_cons_of_mem _ h)

omit hm in
theorem subset_accepted {α : Type} (l es : List (Bytes × α)) : ∀ e ∈ es, e ∈ m.accepted es l := by
  induction l generalizing es with
  | nil => intro e he; exact he
  | cons a l ih =>
    intro e he
    simp only [accepted]
    split
    · exact ih _ e (List.mem_append_left _ he)
    · exact ih _ e he

/-- Among plain patterns, what is left behind is the first entry of each pattern. -/
theorem mem_accepted_iff_find {α : Type} {es l : List (Bytes × α)} (hes : ∀ e ∈ es, Plain e.1)
    (hl : ∀ e ∈ l, Plain e.1) (e : Bytes × α) :
    e ∈ m.accepted es l ↔ e ∈ es ∨ ((∀ e' ∈ es, e'.1 ≠ e.1) ∧ l.find? (·.1 == e.1) = some e) := by
  induction l generalizing es with
  | nil => simp [accepted]
  | cons a l ih =>
    have ha : Plain a.1 := hl a (by simp)
    have hl' : ∀ e ∈ l, Plain e.1 := fun e he => hl e (List.mem_cons_of_mem _ he)
    have hiff : (m.Valid a.1 ∧ ∀ e' ∈ es, ¬ m.Conflict e'.1 a.1) ↔ ∀ e' ∈ es, e'.1 ≠ a.1 := by
      constructor
      · rintro ⟨hv, hc⟩ e' he' heq
        rw [← heq] at hv
        exact hc e' he' (heq ▸ hm.same hv)
      · intro h
        exact ⟨hm.valid_plain ha, fun e' he' hc => h e' he' (hm.conflict_plain (hes e' he') ha hc)⟩
    simp only [accepted, hiff]
    by_cases hnew : ∀ e' ∈ es, e'.1 ≠ a.1
    · have hes' : ∀ e ∈ es ++ [a], Plain e.1 := by
        intro e he
        rcases List.mem_append.mp he with he | he
        · exact hes e he
        · exact (List.mem_singleton.mp he) ▸ ha
      rw [if_pos hnew, ih hes' hl']
      by_cases hae : a.1 = e.1
      · have hnot : ∀ e' ∈ es, e'.1 ≠ e.1 := fun e' he' => hae ▸ hnew e' he'
        rw [List.find?_cons_of_pos (by simpa using hae)]
        simp only [List.mem_append, List.mem_singleton, Option.some.injEq]
        constructor
        · rintro ((h | h) | ⟨h, -⟩)
          · exact Or.inl h
          · exact Or.inr ⟨hnot, h.symm⟩
          · exact absurd hae (h a (by simp))
        · rintro (h | ⟨-, h⟩)
          · exact Or.inl (Or.inl h)
          · exact Or.inl (Or.inr h.symm)
      · rw [List.find?_cons_of_neg (by simpa using hae)]
        have hne : e ≠ a := fun h => hae (by rw [h])
        simp only [List.mem_append, List.mem_singleton, hne, or_false, or_imp, forall_and,
          forall_eq, hae, ne_eq, not_false_eq_true, and_true]
    · rw [if_neg hnew, ih hes hl']
      push Not at hnew
      obtain ⟨e', he', heq⟩ := hnew
      by_cases hae : a.1 = e.1
      · have hold : ¬ ∀ e' ∈ es, e'.1 ≠ e.1 := fun h => h e' he' (heq.trans hae)
        simp only [hold, false_and]
      · rw [List.find?_cons_of_neg (by simpa using hae)]

/-! ## What a match says -/

theorem mem_of_matchAt {α : Type} {r : m.Router α} {es : List (Bytes × α)} (h : m.Built r es) {q : Bytes}
    {v : α} (hv : m.matchAt r q = some v) : ∃ p, (p, v) ∈ es := by
  -- values are only carried, so they can carry where they come from
  have hrel := hm.order (R := fun a b => a = b ∧ ∃ p, (p, a) ∈ es) h h
    (fun e he => ⟨e, he, rfl, rfl, e.1, he⟩) (fun e he => ⟨e, he, rfl, rfl, e.1, he⟩) q
  rw [hv] at hrel
  cases hrel with
  | some h => exact h.2

omit hm in
/-- The plain pattern `p` matches the path `q`. -/
def Answers (p q : Bytes) : Prop := (NoBrace p ∧ p = q) ∨ ∃ b, NoBrace b ∧ p = b ++ Lib.catchAll ∧ Below b q

omit hm in
theorem exists_longest_base {α : Type} {es : List (Bytes × α)} {q : Bytes}
    (h : ∃ e ∈ es, ∃ b, NoBrace b ∧ e.1 = b ++ Lib.catchAll ∧ Below b q) :
    ∃ e ∈ es, ∃ b, NoBrace b ∧ e.1 = b ++ Lib.catchAll ∧ Below b q ∧
      ∀ e' ∈ es, ∀ b', NoBrace b' → e'.1 = b' ++ Lib.catchAll → Below b' q → b'.length ≤ b.length := by
  -- bases above `q` are shorter than `q`, so there is a longest one
  by_contra hno
  push Not at hno
  have hgrow : ∀ n, ∃ e ∈ es, ∃ b, NoBrace b ∧ e.1 = b ++ Lib.catchAll ∧ Below b q ∧ n ≤ b.length := by
    intro n
    induction n with
    | zero =>
      obtain ⟨e, he, b, hb, hp, hq⟩ := h
      exact ⟨e, he, b, hb, hp, hq, Nat.zero_le _⟩
    | succ n ih =>
      obtain ⟨e, he, b, hb, hp, hq, hn⟩ := ih
      obtain ⟨e', he', b', hb', hp', hq', hlt⟩ := hno e he b hb hp hq
      exact ⟨e', he', b', hb', hp', hq', by omega⟩
  obtain ⟨-, -, b, -, -, hq, hlen⟩ := hgrow q.length
  have := hq.length_lt
  omega

/-- **A router of plain patterns answers with an entry whose pattern matches the path**, or no stored
pattern does. -/
theorem matchAt_cases {α : Type} {r : m.Router α} {es : List (Bytes × α)} (h : m.Built r es)
    (hpl : ∀ e ∈ es, Plain e.1) (q : Bytes) :
    (∃ e ∈ es, Answers e.1 q ∧ m.matchAt r q = some e.2) ∨
      (m.matchAt r q = none ∧ ∀ e ∈ es, ¬ Answers e.1 q) := by
  by_cases hst : ∃ e ∈ es, NoBrace e.1 ∧ e.1 = q
  · obtain ⟨⟨p, v⟩, he, hb, rfl⟩ := hst
    exact Or.inl ⟨(p, v), he, Or.inl ⟨hb, rfl⟩, hm.static h hpl hb he⟩
  push Not at hst
  by_cases hca : ∃ e ∈ es, ∃ b, NoBrace b ∧ e.1 = b ++ Lib.catchAll ∧ Below b q
  · obtain ⟨⟨p, v⟩, he, b, hb, rfl, hq, hmax⟩ := exists_longest_base hca
    exact Or.inl ⟨_, he, Or.inr ⟨b, hb, rfl, hq⟩, hm.catchAll h hpl hst hb he hq hmax⟩
  push Not at hca
  refine Or.inr ⟨hm.unmatched h hpl hst hca, ?_⟩
  rintro e he (⟨hb, hq⟩ | ⟨b, hb, hp, hq⟩)
  · exact hst e he hb hq
  · exact hca e he b hb hp hq

/-- A router that was filled with plain entries answers with one of them that matches the path, or none of
them does. -/
theorem matchAt_insertAll_cases {α : Type} {l : List (Bytes × α)} (hl : ∀ e ∈ l, Plain e.1) (q : Bytes) :
    (∃ e ∈ l, Answers e.1 q ∧ m.matchAt (m.insertAll m.new l) q = some e.2) ∨
      (m.matchAt (m.insertAll m.new l) q = none ∧ ∀ e ∈ l, ¬ Answers e.1 q) := by
  have hacc : ∀ e ∈ m.accepted [] l, e ∈ l := fun e he =>
    (accepted_subset l [] e he).resolve_left (by simp)
  rcases matchAt_cases hm (built_insertAll hm .new l) (fun e he => hl e (hacc e he)) q with
    ⟨e, he, hq, hv⟩ | ⟨hnone, hno⟩
  · exact Or.inl ⟨e, hacc e he, hq, hv⟩
  · refine Or.inr ⟨hnone, fun e he hq => ?_⟩
    -- the first entry of the pattern was accepted
    obtain ⟨e', hfind⟩ : ∃ e', l.find? (·.1 == e.1) = some e' :=
      Option.isSome_iff_exists.mp (List.find?_isSome.mpr ⟨e, he, by simp⟩)
    have heq : e'.1 = e.1 := by simpa using List.find?_some hfind
    have hmem : e' ∈ m.accepted [] l := (mem_accepted_iff_find hm (by simp) hl e').mpr
      (Or.inr ⟨by simp, by rw [heq]; exact hfind⟩)
    exact hno e' hmem (by rw [heq]; exact hq)

end PathRouter

/-! ## A list-backed router that keeps the contract -/

/-- The pattern is plain (decided). -/
def isPlain (p : Bytes) : Bool :=
  decide (NoBrace p) ||
    (decide (p = p.take (p.length - catchAll.length) ++ catchAll) &&
      decide (NoBrace (p.take (p.length - catchAll.length))))

theorem isPlain_iff {p : Bytes} : isPlain p = true ↔ Plain p := by
  simp only [isPlain, Bool.or_eq_true, Bool.and_eq_true, decide_eq_true_eq, Plain]
  constructor
  · rintro (h | ⟨h1, h2⟩)
    · exact Or.inl h
    · exact Or.inr ⟨_, h2, h1⟩
  · rintro (h | ⟨b, hb, rfl⟩)
    · exact Or.inl h
    · refine Or.inr ?_
      have : (b ++ catchAll).take ((b ++ catchAll).length - catchAll.length) = b := by simp
      rw [this]
      exact ⟨rfl, hb⟩

/-- The value stored under a pattern. -/
def valueOf {α : Type} (es : List (Bytes × α)) (p : Bytes) : Option α :=
  (es.find? (·.1 == p)).map (·.2)

/-- The catch-all value of `q` among the bases shorter than `n`, longest base first. -/
def catchAllAt {α : Type} (es : List (Bytes × α)) (q : Bytes) : ℕ → Option α
  | 0 => none
  | k + 1 =>
    if q[k]? = some 47 ∧ k + 1 < q.length then
      match valueOf es (q.take k ++ catchAll) with
      | some v => some v
      | none => catchAllAt es q k
    else catchAllAt es q k

/-- The stored entries of the list-backed router. -/
structure ListRouter (α : Type) where
  entries : List (Bytes × α)

/-- Store a plain pattern that is not there yet. -/
def ListRouter.insert {α : Type} (r : ListRouter α) (p : Bytes) (v : α) : ListRouter α × Bool :=
  if isPlain p && !r.entries.any (·.1 == p) then (⟨r.entries ++ [(p, v)]⟩, true) else (r, false)

/-- An equal static pattern, else the longest catch-all. -/
def ListRouter.matchAt {α : Type} (r : ListRouter α) (q : Bytes) : Option α :=
  match if NoBrace q then valueOf r.entries q else none with
  | some v => some v
  | none => catchAllAt r.entries q q.length

/-- The list-backed router. -/
abbrev PathRouter.reference : PathRouter where
  Router := ListRouter
  new := ⟨[]⟩
  insert := ListRouter.insert
  matchAt := ListRouter.matchAt

namespace PathRouter

theorem reference_accept {α : Type} (r : ListRouter α) (p : Bytes) (v : α) :
    (r.insert p v).2 = true ↔ Plain p ∧ ∀ e ∈ r.entries, e.1 ≠ p := by
  have hcond : (isPlain p && !r.entries.any (·.1 == p)) = true ↔ Plain p ∧ ∀ e ∈ r.entries, e.1 ≠ p := by
    simp only [Bool.and_eq_true, Bool.not_eq_true', List.any_eq_false, beq_iff_eq, isPlain_iff, ne_eq]
  rw [← hcond]
  unfold ListRouter.insert
  cases isPlain p && !r.entries.any (·.1 == p) <;> simp

theorem reference_insert_fst {α : Type} {r : ListRouter α} {p : Bytes} {v : α}
    (h : (r.insert p v).2 = true) : (r.insert p v).1 = ⟨r.entries ++ [(p, v)]⟩ := by
  unfold ListRouter.insert at h ⊢
  split at h
  · rw [if_pos ‹_›]
  · simp at h

theorem reference_built {α : Type} {r : reference.Router α} {es : List (Bytes × α)}
    (h : reference.Built r es) : r.entries = es ∧ (es.map (·.1)).Nodup ∧ ∀ e ∈ es, Plain e.1 := by
  induction h with
  | new => exact ⟨rfl, by simp, by simp⟩
  | @accept r es p v _ hacc ih =>
    obtain ⟨rfl, hnd, hpl⟩ := ih
    have hc := (reference_accept r p v).mp hacc
    refine ⟨by rw [reference_insert_fst hacc], ?_, ?_⟩
    · rw [List.map_append, List.nodup_append]
      refine ⟨hnd, by simp, ?_⟩
      intro a ha b hb
      obtain ⟨e, he, rfl⟩ := List.mem_map.mp ha
      simp only [List.map_cons, List.map_nil, List.mem_singleton] at hb
      exact hb ▸ hc.2 e he
    · intro e he
      rcases List.mem_append.mp he with he | he
      · exact hpl e he
      · exact (List.mem_singleton.mp he) ▸ hc.1

theorem reference_valid (p : Bytes) : reference.Valid p ↔ Plain p := by
  have h := reference_accept (⟨[]⟩ : ListRouter Unit) p ()
  simpa [Valid] using h

theorem reference_conflict {p p' : Bytes} (hp : Plain p) :
    reference.Conflict p p' ↔ ¬ (Plain p' ∧ p ≠ p') := by
  have h0 : ((⟨[]⟩ : ListRouter Unit).insert p ()).2 = true := (reference_valid p).mpr hp
  have h2 := reference_accept (⟨[(p, ())]⟩ : ListRouter Unit) p' ()
  show (ListRouter.insert (ListRouter.insert (⟨[]⟩ : ListRouter Unit) p ()).1 p' ()).2 = false ↔ _
  rw [reference_insert_fst h0, ← Bool.not_eq_true]
  simpa using not_congr h2

theorem valueOf_eq_some {α : Type} {es : List (Bytes × α)} (hnd : (es.map (·.1)).Nodup) {p : Bytes}
    {v : α} : valueOf es p = some v ↔ (p, v) ∈ es := by
  induction es with
  | nil => simp [valueOf]
  | cons e es ih =>
    simp only [List.map_cons, List.nodup_cons] at hnd
    have ih := ih hnd.2
    unfold valueOf at ih ⊢
    by_cases he : e.1 = p
    · rw [List.find?_cons_of_pos (by simpa using he)]
      have hno : (p, v) ∉ es := fun h => hnd.1 (List.mem_map.mpr ⟨(p, v), h, he.symm⟩)
      obtain ⟨p', v'⟩ := e
      simp_all [eq_comm]
    · rw [List.find?_cons_of_neg (by simpa using he), ih]
      have : (p, v) ≠ e := fun h => he (by rw [← h])
      simp [this]

theorem valueOf_rel {α : Type} {R : α → α → Prop} {es es' : List (Bytes × α)}
    (hnd : (es.map (·.1)).Nodup) (hnd' : (es'.map (·.1)).Nodup)
    (h : ∀ e ∈ es, ∃ e' ∈ es', e'.1 = e.1 ∧ R e.2 e'.2)
    (h' : ∀ e' ∈ es', ∃ e ∈ es, e'.1 = e.1 ∧ R e.2 e'.2) (p : Bytes) :
    Option.Rel R (valueOf es p) (valueOf es' p) := by
  cases hv : valueOf es p with
  | some v =>
    obtain ⟨e', he', h1, h2⟩ := h _ ((valueOf_eq_some hnd).mp hv)
    have hv' : valueOf es' p = some e'.2 := (valueOf_eq_some hnd').mpr (by
      have h1 : e'.1 = p := h1
      rw [← h1]; exact he')
    rw [hv']
    exact .some h2
  | none =>
    cases hv' : valueOf es' p with
    | none => exact .none
    | some v' =>
      obtain ⟨e, he, h1, -⟩ := h' _ ((valueOf_eq_some hnd').mp hv')
      have : valueOf es p = some e.2 := (valueOf_eq_some hnd).mpr (by
        have h1 : p = e.1 := h1
        rw [h1]; exact he)
      rw [hv] at this
      cases this

theorem catchAllAt_rel {α : Type} {R : α → α → Prop} {es es' : List (Bytes × α)}
    (h : ∀ p, Option.Rel R (valueOf es p) (valueOf es' p)) (q : Bytes) (n : ℕ) :
    Option.Rel R (catchAllAt es q n) (catchAllAt es' q n) := by
  induction n with
  | zero => exact .none
  | succ k ih =>
    unfold catchAllAt
    split
    · have hk := h (q.take k ++ catchAll)
      generalize valueOf es (q.take k ++ catchAll) = x at hk
      generalize valueOf es' (q.take k ++ catchAll) = y at hk
      cases hk with
      | some hr => exact .some hr
      | none => exact ih
    · exact ih

theorem below_take {q : Bytes} {k : ℕ}
    (hk : q[k]? = some 47 ∧ k + 1 < q.length) : Below (q.take k) q := by
  have hlt : k < q.length := by omega
  refine ⟨q.drop (k + 1), by simp; omega, ?_⟩
  have h47 : q[k] = 47 := by simpa [hlt] using hk.1
  conv_lhs => rw [← List.take_append_drop k q, List.drop_eq_getElem_cons hlt, h47]

theorem noBrace_of_plain_catchAll {b : Bytes} (h : Plain (b ++ catchAll)) : NoBrace b := by
  rcases h with h | ⟨b', hb', he⟩
  · exact absurd h (not_noBrace_catchAll b)
  · exact catchAll_inj he ▸ hb'

theorem catchAllAt_none {α : Type} {es : List (Bytes × α)} (hnd : (es.map (·.1)).Nodup)
    (hpl : ∀ e ∈ es, Plain e.1) {q : Bytes} {n : ℕ}
    (hno : ∀ e ∈ es, ∀ b', NoBrace b' → e.1 = b' ++ catchAll → Below b' q → n ≤ b'.length) :
    catchAllAt es q n = none := by
  induction n with
  | zero => rfl
  | succ k ih =>
    unfold catchAllAt
    have hrec := ih fun e he b' hb' h1 h2 => by have := hno e he b' hb' h1 h2; omega
    split
    · rename_i hk
      have hnone : valueOf es (q.take k ++ catchAll) = none := by
        by_contra hc
        obtain ⟨v, hv⟩ := Option.ne_none_iff_exists'.mp hc
        have hmem := (valueOf_eq_some hnd).mp hv
        have := hno _ hmem _ (noBrace_of_plain_catchAll (hpl _ hmem)) rfl (below_take hk)
        rw [List.length_take] at this
        omega
      rw [hnone]
      exact hrec
    · exact hrec

theorem catchAllAt_some {α : Type} {es : List (Bytes × α)} (hnd : (es.map (·.1)).Nodup)
    (hpl : ∀ e ∈ es, Plain e.1) {q b : Bytes} {v : α} (hb : Below b q) (hmem : (b ++ catchAll, v) ∈ es)
    {n : ℕ} (hn : b.length < n)
    (hno : ∀ e ∈ es, ∀ b', NoBrace b' → e.1 = b' ++ catchAll → Below b' q → b'.length ≤ b.length) :
    catchAllAt es q n = some v := by
  induction n with
  | zero => omega
  | succ k ih =>
    unfold catchAllAt
    by_cases hkb : k = b.length
    · have hlt := hb.length_lt
      obtain ⟨t, -, rfl⟩ := hb
      have htake : (b ++ 47 :: t).take k = b := by simp [hkb]
      have hv := (valueOf_eq_some hnd).mpr hmem
      rw [if_pos ⟨by simp [hkb], by omega⟩, htake, hv]
    · have hrec := ih (by omega)
      split
      · rename_i hk
        have hnone : valueOf es (q.take k ++ catchAll) = none := by
          by_contra hc
          obtain ⟨w, hw⟩ := Option.ne_none_iff_exists'.mp hc
          have hm := (valueOf_eq_some hnd).mp hw
          have := hno _ hm _ (noBrace_of_plain_catchAll (hpl _ hm)) rfl (below_take hk)
          rw [List.length_take] at this
          omega
        rw [hnone]
        exact hrec
      · exact hrec

theorem static_none {α : Type} {es : List (Bytes × α)} (hnd : (es.map (·.1)).Nodup) {q : Bytes}
    (hst : ∀ e ∈ es, NoBrace e.1 → e.1 ≠ q) : (if NoBrace q then valueOf es q else none) = none := by
  split
  · rename_i hq
    by_contra hc
    obtain ⟨w, hw⟩ := Option.ne_none_iff_exists'.mp hc
    exact hst _ ((valueOf_eq_some hnd).mp hw) hq rfl
  · rfl

/-- **The list-backed router keeps the contract.** -/
theorem reference_laws : reference.Laws where
  reject {α r es p v} h hrej := by
    simp only [ListRouter.insert] at hrej ⊢
    split at hrej
    · simp at hrej
    · rw [if_neg ‹_›]
  accept {α r es p v} h := by
    obtain ⟨rfl, -, hpl⟩ := reference_built h
    rw [reference_accept, reference_valid]
    refine and_congr_right fun hp => forall₂_congr fun e he => ?_
    rw [reference_conflict (hpl e he)]
    simp [hp]
  same {p} hv := by
    rw [reference_valid] at hv
    simp [reference_conflict hv]
  symm {p p'} hv hv' hc := by
    rw [reference_valid] at hv hv'
    rw [reference_conflict hv] at hc
    rw [reference_conflict hv']
    exact fun h => hc ⟨hv', h.2.symm⟩
  order {α R r r' es es'} h h' h1 h2 q := by
    obtain ⟨rfl, hnd, -⟩ := reference_built h
    obtain ⟨rfl, hnd', -⟩ := reference_built h'
    have hval := valueOf_rel hnd hnd' h1 h2
    have hst : Option.Rel R (if NoBrace q then valueOf r.entries q else none)
        (if NoBrace q then valueOf r'.entries q else none) := by
      split
      · exact hval q
      · exact .none
    simp only [ListRouter.matchAt]
    generalize (if NoBrace q then valueOf r.entries q else none) = x at hst
    generalize (if NoBrace q then valueOf r'.entries q else none) = y at hst
    cases hst with
    | some hr => exact .some hr
    | none => exact catchAllAt_rel hval q q.length
  valid_plain {p} hp := (reference_valid p).mpr hp
  conflict_plain {p p'} hp hp' hc := by
    rw [reference_conflict hp] at hc
    by_contra hne
    exact hc ⟨hp', hne⟩
  static {α r es q v} h _ hq hmem := by
    obtain ⟨rfl, hnd, -⟩ := reference_built h
    simp only [ListRouter.matchAt, hq, if_true]
    rw [(valueOf_eq_some hnd).mpr hmem]
  catchAll {α r es q b v} h hpl hst hb hmem hbelow hmax := by
    obtain ⟨rfl, hnd, -⟩ := reference_built h
    simp only [ListRouter.matchAt]
    rw [static_none hnd hst]
    have := hbelow.length_lt
    exact catchAllAt_some hnd hpl hbelow hmem (by omega) hmax
  unmatched {α r es q} h hpl hst hno := by
    obtain ⟨rfl, hnd, -⟩ := reference_built h
    simp only [ListRouter.matchAt]
    rw [static_none hnd hst]
    exact catchAllAt_none hnd hpl fun e he b' hb' h1 h2 => absurd h2 (hno e he b' hb' h1)

end PathRouter

end LbProxy.Lib
