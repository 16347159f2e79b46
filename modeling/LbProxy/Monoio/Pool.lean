import LbProxy.Lib.Bytes
import Mathlib.Data.List.AList
import Mathlib.Data.List.Count
import Mathlib.Data.Prod.Basic
import Mathlib.Algebra.Order.BigOperators.Group.List
import Mathlib.Algebra.Order.Group.Nat
import Mathlib.Order.Monotone.Defs
import Mathlib.Tactic.Common
import Mathlib.Algebra.GroupWithZero.Nat

/-!
# Per-core upstream connection pool (`pool.rs`)

A pool holds, for each address, the idle connections with the time they were parked at, the newest last.
Instants are counted in nanoseconds.  An operation carries what the clock said each time it looked at it:
`take` looks once for each entry it pops, and `evict_expired` once for each entry, in an order of the addresses
that the hash map chooses.

* `popFresh`, `take`, `put`, `evictExpired` — the operations; `idle` — the entries of an address;
* `Clocked` — the readings of a run are those of a monotone clock;
* `WellFormed` — the entries are ordered, bounded and in the past, which every operation keeps;
* `take_spec`, `idle_put`, `idle_evictExpired` — what an operation does to the entries of each address;
* `pool_fresh_first` — the pool is a fresh-first, bounded stack for each address, after every run.
-/

namespace LbProxy.Monoio

open Lib

/-- Idle connections retained per upstream address. -/
def MAX_IDLE_PER_HOST : ℕ := 8192

/-- Discard idle connections older than this: 45 seconds. -/
def MAX_IDLE_AGE : ℕ := 45 * 1000000000

variable {S : Type}

/-- A parked connection. -/
structure Pooled (S : Type) where
  stream : S
  parkedAt : ℕ
  deriving DecidableEq, Repr

/-- Whether the entry has not outlived the idle window; `elapsed` saturates at zero. -/
def Pooled.isFresh (e : Pooled S) (now : ℕ) : Bool := decide (now - e.parkedAt < MAX_IDLE_AGE)

/-- The idle connections of each address. -/
abbrev ConnectionPool (S : Type) := AList fun _ : Bytes => List (Pooled S)

namespace ConnectionPool

/-- The entries of an address, the newest last. -/
def idle (pool : ConnectionPool S) (address : Bytes) : List (Pooled S) := (pool.lookup address).getD []

/-- Pop until a fresh entry comes up, from the newest on; `now k` is the reading for the `k`-th entry popped. -/
def popFresh (now : ℕ → ℕ) : ℕ → List (Pooled S) → Option S × List (Pooled S)
  | _, [] => (none, [])
  | k, e :: older => if e.isFresh (now k) then (some e.stream, older) else popFresh now (k + 1) older

/-- Take an idle connection for the address, if one is still fresh. -/
def take (pool : ConnectionPool S) (address : Bytes) (now : ℕ → ℕ) : Option S × ConnectionPool S :=
  match pool.lookup address with
  | none => (none, pool)
  | some entries =>
    let (stream, older) := popFresh now 0 entries.reverse
    (stream, pool.insert address older.reverse)

/-- Return a connection for reuse; at capacity it is dropped. -/
def put (pool : ConnectionPool S) (address : Bytes) (stream : S) (now : ℕ) : ConnectionPool S :=
  let entries := pool.idle address
  pool.insert address
    (if entries.length < MAX_IDLE_PER_HOST then entries ++ [⟨stream, now⟩] else entries)

/-- The number of idle connections, across all hosts. -/
def idleCount (pool : ConnectionPool S) : ℕ := (pool.entries.map fun x => x.2.length).sum

example : (((∅ : ConnectionPool ℕ).put (ascii "a:80") 7 1).take (ascii "a:80") fun _ => 2).2.idleCount = 0 := by decide

/-- Drop the expired entries of a list; `now k` is the reading for its `k`-th entry. -/
def retainFresh (now : ℕ → ℕ) (entries : List (Pooled S)) : List (Pooled S) :=
  (entries.zipIdx.filter fun x => x.1.isFresh (now x.2)).map (·.1)

/-- Change the list of each address in place. -/
def mapValues (f : Bytes → List (Pooled S) → List (Pooled S)) (pool : ConnectionPool S) : ConnectionPool S where
  entries := pool.entries.map fun x => ⟨x.1, f x.1 x.2⟩
  nodupKeys := by
    have h := pool.nodupKeys
    rw [List.NodupKeys, List.keys, List.map_map]
    exact h

/-- Drop the addresses without an entry. -/
def retainNonempty (pool : ConnectionPool S) : ConnectionPool S where
  entries := pool.entries.filter fun x => !x.2.isEmpty
  nodupKeys := pool.nodupKeys.sublist List.filter_sublist

/-- Drop every idle connection whose age exceeds the idle window; `now address k` is the reading for the `k`-th
entry of the address. -/
def evictExpired (pool : ConnectionPool S) (now : Bytes → ℕ → ℕ) : ConnectionPool S :=
  (pool.mapValues fun address => retainFresh (now address)).retainNonempty

/-! ## What an operation does to the entries of an address -/

theorem idle_insert (pool : ConnectionPool S) (a b : Bytes) (entries : List (Pooled S)) :
    idle (pool.insert a entries) b = if b = a then entries else pool.idle b := by
  by_cases h : b = a
  · subst h
    rw [idle, AList.lookup_insert, if_pos rfl, Option.getD_some]
  · rw [idle, AList.lookup_insert_ne h, if_neg h, idle]

theorem idle_mapValues (f : Bytes → List (Pooled S) → List (Pooled S)) (hf : ∀ a, f a [] = [])
    (pool : ConnectionPool S) (a : Bytes) : (pool.mapValues f).idle a = f a (pool.idle a) := by
  have hlookup : (pool.mapValues f).lookup a = (pool.lookup a).map (f a) := List.dlookup_map₂ a
  rw [idle, idle, hlookup]
  cases pool.lookup a with
  | none => exact (hf a).symm
  | some entries => rfl

theorem idle_retainNonempty (pool : ConnectionPool S) (a : Bytes) : pool.retainNonempty.idle a = pool.idle a := by
  unfold idle
  cases h : pool.lookup a with
  | none =>
    have hnone : pool.retainNonempty.lookup a = none := by
      rw [AList.lookup_eq_none, AList.mem_keys] at h ⊢
      exact fun hmem => h ((List.filter_sublist.map _).subset hmem)
    rw [hnone]
  | some entries =>
    have hmem : (⟨a, entries⟩ : Sigma fun _ : Bytes => List (Pooled S)) ∈ pool.entries :=
      AList.mem_lookup_iff.mp h
    cases entries with
    | nil =>
      have hnone : pool.retainNonempty.lookup a = none := by
        by_contra hne
        obtain ⟨entries, hsome⟩ := Option.ne_none_iff_exists'.mp hne
        have hin := List.mem_filter.mp (AList.mem_lookup_iff.mp hsome)
        have hsame : some entries = some [] := (AList.mem_lookup_iff.mpr hin.1).symm.trans h
        rw [Option.some.inj hsame] at hin
        simp at hin
      rw [hnone]
      rfl
    | cons e entries =>
      have hsome : pool.retainNonempty.lookup a = some (e :: entries) :=
        AList.mem_lookup_iff.mpr (List.mem_filter.mpr ⟨hmem, rfl⟩)
      rw [hsome]

theorem idle_evictExpired (pool : ConnectionPool S) (now : Bytes → ℕ → ℕ) (a : Bytes) :
    (pool.evictExpired now).idle a = retainFresh (now a) (pool.idle a) := by
  rw [evictExpired, idle_retainNonempty, idle_mapValues _ fun _ => rfl]

theorem idle_put (pool : ConnectionPool S) (a b : Bytes) (stream : S) (now : ℕ) :
    (pool.put a stream now).idle b =
      if b = a ∧ (pool.idle a).length < MAX_IDLE_PER_HOST then pool.idle a ++ [⟨stream, now⟩]
      else pool.idle b := by
  rw [put, idle_insert]
  by_cases hb : b = a
  · subst hb
    by_cases hlen : (pool.idle b).length < MAX_IDLE_PER_HOST <;> simp [hlen]
  · simp [hb]

theorem idle_take (pool : ConnectionPool S) (a b : Bytes) (now : ℕ → ℕ) :
    (pool.take a now).2.idle b =
      if b = a then (popFresh now 0 (pool.idle a).reverse).2.reverse else pool.idle b := by
  unfold take
  cases h : pool.lookup a with
  | none =>
    have hidle : pool.idle a = [] := by rw [idle, h]; rfl
    by_cases hb : b = a
    · rw [if_pos hb, hb, hidle]
      rfl
    · rw [if_neg hb]
  | some entries =>
    have hidle : pool.idle a = entries := by rw [idle, h]; rfl
    rw [hidle]
    exact idle_insert pool a b _

theorem take_fst (pool : ConnectionPool S) (a : Bytes) (now : ℕ → ℕ) :
    (pool.take a now).1 = (popFresh now 0 (pool.idle a).reverse).1 := by
  unfold take idle
  cases pool.lookup a with
  | none => rfl
  | some entries => rfl

/-! ## Popping -/

theorem popFresh_suffix (now : ℕ → ℕ) (k : ℕ) (l : List (Pooled S)) : (popFresh now k l).2 <:+ l := by
  induction l generalizing k with
  | nil => exact List.suffix_rfl
  | cons e older ih =>
    rw [popFresh]
    split
    · exact List.suffix_cons e older
    · exact (ih (k + 1)).trans (List.suffix_cons e older)

theorem popFresh_streams (now : ℕ → ℕ) (k : ℕ) (l : List (Pooled S)) :
    ((popFresh now k l).1.toList ++ (popFresh now k l).2.map (·.stream)).Sublist (l.map (·.stream)) := by
  induction l generalizing k with
  | nil => exact List.Sublist.refl _
  | cons e older ih =>
    rw [popFresh]
    split
    · exact List.Sublist.refl _
    · exact (ih (k + 1)).trans (List.sublist_cons_self _ _)

/-- An entry that is expired stays expired, and so is everything parked before it. -/
theorem isFresh_of_older {e e' : Pooled S} {now now' : ℕ} (hparked : e'.parkedAt ≤ e.parkedAt)
    (hnow : now ≤ now') (h : e'.isFresh now' = true) : e.isFresh now = true := by
  simp only [Pooled.isFresh, decide_eq_true_eq] at h ⊢
  omega

theorem popFresh_expired {now : ℕ → ℕ} {k : ℕ} {l : List (Pooled S)}
    (h : ∀ e ∈ l, ∀ j, k ≤ j → e.isFresh (now j) = false) : popFresh now k l = (none, []) := by
  induction l generalizing k with
  | nil => rfl
  | cons e older ih =>
    rw [popFresh, h e (by simp) k le_rfl]
    exact ih fun e' he' j hj => h e' (List.mem_cons_of_mem _ he') j (by omega)

/-- **The newest entry decides.**  If it has expired then so has every other one when its turn comes. -/
theorem popFresh_cons {now : ℕ → ℕ} (hnow : Monotone now) {e : Pooled S} {older : List (Pooled S)}
    (hordered : ∀ e' ∈ older, e'.parkedAt ≤ e.parkedAt) :
    popFresh now 0 (e :: older) = if e.isFresh (now 0) then (some e.stream, older) else (none, []) := by
  cases hfresh : e.isFresh (now 0) with
  | true => rw [popFresh, hfresh, if_pos rfl, if_pos rfl]
  | false =>
    rw [if_neg Bool.false_ne_true]
    refine popFresh_expired fun e' he' j _ => ?_
    have hparked : e'.parkedAt ≤ e.parkedAt := by
      rcases List.mem_cons.mp he' with rfl | hin
      · exact le_rfl
      · exact hordered e' hin
    by_contra hne
    have := isFresh_of_older hparked (hnow (Nat.zero_le j)) (Bool.not_eq_false _ ▸ hne)
    rw [hfresh] at this
    cases this

/-- The entries are ordered by parking time, at most as many as are retained, and not from the future. -/
structure WellFormed (now : ℕ) (pool : ConnectionPool S) : Prop where
  ordered : ∀ a, (pool.idle a).Pairwise fun e e' => e.parkedAt ≤ e'.parkedAt
  bounded : ∀ a, (pool.idle a).length ≤ MAX_IDLE_PER_HOST
  past : ∀ a, ∀ e ∈ pool.idle a, e.parkedAt ≤ now

/-- **What `take` returns and what it leaves.** -/
theorem take_spec {t : ℕ} {pool : ConnectionPool S} (hwf : WellFormed t pool) (a : Bytes)
    {now : ℕ → ℕ} (hnow : Monotone now) :
    (∀ s, (pool.take a now).1 = some s ↔
        ∃ e, (pool.idle a).getLast? = some e ∧ now 0 - e.parkedAt < MAX_IDLE_AGE ∧ e.stream = s) ∧
      (pool.take a now).2.idle a = if (pool.take a now).1.isSome then (pool.idle a).dropLast else [] := by
  rw [take_fst, idle_take, if_pos rfl]
  have hordered := hwf.ordered a
  rcases List.eq_nil_or_concat (pool.idle a) with hnil | ⟨older, e, hlast⟩
  · rw [hnil]
    simp [popFresh]
  · rw [List.concat_eq_append] at hlast
    rw [hlast, List.pairwise_append] at hordered
    have holder : ∀ e' ∈ older.reverse, e'.parkedAt ≤ e.parkedAt :=
      fun e' he' => hordered.2.2 e' (List.mem_reverse.mp he') e (by simp)
    have hpop := popFresh_cons hnow holder
    rw [hlast, List.reverse_concat, hpop]
    simp only [Pooled.isFresh, decide_eq_true_eq, List.getLast?_append, List.getLast?_singleton]
    split
    · rename_i hfresh
      simp [hfresh]
    · rename_i hfresh
      simp [hfresh]

/-- A connection that `take` returns was idle under the address, and the others under it are left or dropped. -/
theorem take_some {pool pool' : ConnectionPool S} {a : Bytes} {now : ℕ → ℕ} {s : S}
    (h : pool.take a now = (some s, pool')) :
    ((pool'.idle a).map (·.stream) ++ [s]).Sublist ((pool.idle a).map (·.stream)) := by
  have hfst : (popFresh now 0 (pool.idle a).reverse).1 = some s := by rw [← take_fst, h]
  have hleft : pool'.idle a = (popFresh now 0 (pool.idle a).reverse).2.reverse := by
    have hidle := idle_take pool a a now
    rwa [h, if_pos rfl] at hidle
  have hsub := popFresh_streams now 0 (pool.idle a).reverse
  rw [hfst, List.map_reverse, ← List.reverse_sublist, List.reverse_reverse, List.reverse_append] at hsub
  rwa [hleft, List.map_reverse]

/-! ## Runs -/

/-- One operation, with what the clock said while it ran. -/
inductive Event (S : Type)
  | put (address : Bytes) (stream : S) (now : ℕ)
  | take (address : Bytes) (now : ℕ → ℕ)
  | evictExpired (now : Bytes → ℕ → ℕ)

/-- The clock is monotone, and is looked at between `lo` and `hi`. -/
def Event.Within (lo hi : ℕ) : Event S → Prop
  | .put _ _ now => lo ≤ now ∧ now ≤ hi
  | .take _ now => Monotone now ∧ ∀ k, lo ≤ now k ∧ now k ≤ hi
  | .evictExpired now => ∀ a k, lo ≤ now a k ∧ now a k ≤ hi

/-- The readings of a run are those of a monotone clock that has reached `t`. -/
def Clocked : ℕ → List (Event S) → Prop
  | _, [] => True
  | t, e :: events => ∃ t', t ≤ t' ∧ e.Within t t' ∧ Clocked t' events

def step (pool : ConnectionPool S) : Event S → ConnectionPool S
  | .put address stream now => pool.put address stream now
  | .take address now => (pool.take address now).2
  | .evictExpired now => pool.evictExpired now

/-- The pool after a run. -/
def run (pool : ConnectionPool S) (events : List (Event S)) : ConnectionPool S := events.foldl step pool

/-- The connection that an operation hands out, with its address. -/
def handout (pool : ConnectionPool S) : Event S → List (Bytes × S)
  | .take address now => (pool.take address now).1.toList.map fun stream => (address, stream)
  | .put .. | .evictExpired _ => []

/-- The connections that a run hands out. -/
def handouts : ConnectionPool S → List (Event S) → List (Bytes × S)
  | _, [] => []
  | pool, e :: events => pool.handout e ++ handouts (pool.step e) events

/-- The connection that an operation puts, with its address. -/
def Event.parks : Event S → List (Bytes × S)
  | .put address stream _ => [(address, stream)]
  | .take .. | .evictExpired _ => []

/-- What an operation leaves of an address: some of its entries, and perhaps a new one behind them. -/
theorem idle_step (pool : ConnectionPool S) (e : Event S) (b : Bytes) :
    ((pool.step e).idle b).Sublist (pool.idle b) ∨
      ∃ stream now, e = .put b stream now ∧ (pool.idle b).length < MAX_IDLE_PER_HOST ∧
        (pool.step e).idle b = pool.idle b ++ [⟨stream, now⟩] := by
  cases e with
  | put a stream now =>
    rw [step, idle_put]
    split
    · rename_i h
      obtain ⟨rfl, hlen⟩ := h
      exact .inr ⟨stream, now, rfl, hlen, rfl⟩
    · exact .inl (List.Sublist.refl _)
  | take a now =>
    left
    rw [step, idle_take]
    split
    · rename_i h
      rw [h, ← List.reverse_sublist, List.reverse_reverse]
      exact (popFresh_suffix now 0 _).sublist
    · exact List.Sublist.refl _
  | evictExpired now =>
    left
    rw [step, idle_evictExpired, retainFresh]
    have h := (List.filter_sublist (l := (pool.idle b).zipIdx)
      (p := fun x => x.1.isFresh (now b x.2))).map (·.1)
    rwa [List.zipIdx_map_fst] at h

theorem idle_take_sublist (pool : ConnectionPool S) (a b : Bytes) (now : ℕ → ℕ) :
    ((pool.take a now).2.idle b).Sublist (pool.idle b) := by
  rcases pool.idle_step (.take a now) b with hsub | ⟨_, _, hput, -⟩
  · exact hsub
  · cases hput

/-- **Every operation keeps the entries well formed.** -/
theorem WellFormed.step {t t' : ℕ} {pool : ConnectionPool S} (hwf : WellFormed t pool) (ht : t ≤ t')
    {e : Event S} (he : e.Within t t') : WellFormed t' (pool.step e) := by
  refine ⟨fun a => ?_, fun a => ?_, fun a => ?_⟩
  · rcases pool.idle_step e a with hsub | ⟨stream, now, rfl, -, heq⟩
    · exact (hwf.ordered a).sublist hsub
    · rw [heq, List.pairwise_append]
      refine ⟨hwf.ordered a, List.pairwise_singleton _ _, ?_⟩
      intro e he' e' hnew
      rw [List.mem_singleton.mp hnew]
      exact (hwf.past a e he').trans he.1
  · rcases pool.idle_step e a with hsub | ⟨stream, now, rfl, hlen, heq⟩
    · exact hsub.length_le.trans (hwf.bounded a)
    · rw [heq, List.length_append, List.length_singleton]
      omega
  · intro entry hentry
    rcases pool.idle_step e a with hsub | ⟨stream, now, rfl, -, heq⟩
    · exact (hwf.past a entry (hsub.subset hentry)).trans ht
    · rw [heq, List.mem_append, List.mem_singleton] at hentry
      rcases hentry with hold | rfl
      · exact (hwf.past a entry hold).trans ht
      · exact he.2

theorem WellFormed.run {t : ℕ} {pool : ConnectionPool S} (hwf : WellFormed t pool)
    {events : List (Event S)} (h : Clocked t events) : ∃ t', WellFormed t' (pool.run events) := by
  induction events generalizing t pool with
  | nil => exact ⟨t, hwf⟩
  | cons e events ih =>
    obtain ⟨t', ht, he, hrest⟩ := h
    exact ih (hwf.step ht he) hrest

theorem wellFormed_empty (t : ℕ) : WellFormed t (∅ : ConnectionPool S) := by
  have hidle : ∀ a, (∅ : ConnectionPool S).idle a = [] := fun _ => rfl
  refine ⟨fun a => ?_, fun a => ?_, fun a => ?_⟩ <;> simp [hidle]

theorem mem_idle_run {pool : ConnectionPool S} {events : List (Event S)} {a : Bytes} {entry : Pooled S}
    (h : entry ∈ (pool.run events).idle a) :
    entry ∈ pool.idle a ∨ Event.put a entry.stream entry.parkedAt ∈ events := by
  induction events generalizing pool with
  | nil => exact .inl h
  | cons e events ih =>
    rcases ih h with hin | hin
    · rcases pool.idle_step e a with hsub | ⟨stream, now, rfl, -, heq⟩
      · exact .inl (hsub.subset hin)
      · rw [heq, List.mem_append, List.mem_singleton] at hin
        rcases hin with hold | rfl
        · exact .inl hold
        · exact .inr (by simp)
    · exact .inr (List.mem_cons_of_mem _ hin)

section Counting

variable [DecidableEq S]

/-- How often an address holds a connection. -/
def held (pool : ConnectionPool S) (x : Bytes × S) : ℕ := ((pool.idle x.1).map (·.stream)).count x.2

theorem count_popFresh (now : ℕ → ℕ) (k : ℕ) (l : List (Pooled S)) (s : S) :
    (popFresh now k l).1.toList.count s + ((popFresh now k l).2.map (·.stream)).count s ≤
      (l.map (·.stream)).count s := by
  induction l generalizing k with
  | nil => simp [popFresh]
  | cons e older ih =>
    rw [popFresh, List.map_cons, List.count_cons]
    split
    · simp only [Option.toList_some, List.count_cons, List.count_nil]
      omega
    · exact (ih (k + 1)).trans (Nat.le_add_right _ _)

/-- An operation hands out no more than it takes from the pool, and the pool gains no more than is put. -/
theorem held_step (pool : ConnectionPool S) (e : Event S) (x : Bytes × S) :
    (pool.handout e).count x + (pool.step e).held x ≤ pool.held x + e.parks.count x := by
  obtain ⟨b, s⟩ := x
  cases e with
  | put a stream now =>
    simp only [handout, List.count_nil, step, held, idle_put, Event.parks, List.count_singleton, Nat.zero_add]
    split
    · rename_i h
      obtain ⟨rfl, -⟩ := h
      simp [List.count_singleton]
    · omega
  | take a now =>
    simp only [handout, step, held, idle_take, take_fst, Event.parks, List.count_nil, Nat.add_zero]
    split
    · rename_i h
      subst h
      have hpop := count_popFresh now 0 (pool.idle b).reverse s
      rw [List.map_reverse, List.count_reverse] at hpop
      rw [List.map_reverse, List.count_reverse]
      have hinj : Function.Injective fun stream : S => (b, stream) := Prod.mk_right_injective b
      rw [List.count_map_of_injective _ _ hinj]
      exact hpop
    · rename_i h
      have hzero : (((popFresh now 0 (pool.idle a).reverse).1.toList.map fun stream => (a, stream)).count
          (b, s)) = 0 := by
        rw [List.count_eq_zero]
        intro hin
        obtain ⟨stream, -, heq⟩ := List.mem_map.mp hin
        exact h (congrArg Prod.fst heq).symm
      omega
  | evictExpired now =>
    simp only [handout, List.count_nil, Event.parks, Nat.add_zero, Nat.zero_add]
    rcases pool.idle_step (.evictExpired now) b with hsub | ⟨stream, t, hput, -⟩
    · exact (hsub.map (·.stream)).count_le s
    · cases hput

theorem count_handouts (pool : ConnectionPool S) (events : List (Event S)) (x : Bytes × S) :
    (pool.handouts events).count x + (pool.run events).held x ≤
      pool.held x + (events.flatMap Event.parks).count x := by
  induction events generalizing pool with
  | nil => simp [handouts, run]
  | cons e events ih =>
    have hstep := pool.held_step e x
    have hrest := ih (pool.step e)
    rw [handouts, List.flatMap_cons, List.count_append, List.count_append]
    rw [run, List.foldl_cons, ← run]
    omega

/-- **The pool is a fresh-first, bounded stack for each address.**  After every run under a monotone clock the
entries of an address are ordered, bounded and were put under it; `take` returns the newest entry exactly when it
is fresh and otherwise leaves none; `evictExpired` keeps exactly the fresh entries; other addresses are left
alone; and no connection is handed out more often than it was put. -/
theorem pool_fresh_first {t : ℕ} {events : List (Event S)} (h : Clocked t events) :
    let pool := run ∅ events
    (∀ a, (pool.idle a).Pairwise (fun e e' => e.parkedAt ≤ e'.parkedAt) ∧
        (pool.idle a).length ≤ MAX_IDLE_PER_HOST ∧
        ∀ e ∈ pool.idle a, Event.put a e.stream e.parkedAt ∈ events) ∧
      (∀ a now, Monotone now →
        (∀ s, (pool.take a now).1 = some s ↔
          ∃ e, (pool.idle a).getLast? = some e ∧ now 0 - e.parkedAt < MAX_IDLE_AGE ∧ e.stream = s) ∧
        (pool.take a now).2.idle a = (if (pool.take a now).1.isSome then (pool.idle a).dropLast else []) ∧
        ∀ b, b ≠ a → (pool.take a now).2.idle b = pool.idle b) ∧
      (∀ now a, (pool.evictExpired now).idle a =
        ((pool.idle a).zipIdx.filter fun x => decide (now a x.2 - x.1.parkedAt < MAX_IDLE_AGE)).map (·.1)) ∧
      (∀ a s now b, b ≠ a → (pool.put a s now).idle b = pool.idle b) ∧
      ∀ a s, (handouts ∅ events).count (a, s) ≤ (events.flatMap Event.parks).count (a, s) := by
  intro pool
  obtain ⟨t', hwf⟩ := (wellFormed_empty t).run h
  refine ⟨fun a => ⟨hwf.ordered a, hwf.bounded a, fun e he => ?_⟩, fun a now hnow => ?_, ?_, ?_, fun a s => ?_⟩
  · rcases mem_idle_run he with hin | hin
    · cases hin
    · exact hin
  · obtain ⟨hret, hleft⟩ := take_spec hwf a hnow
    exact ⟨hret, hleft, fun b hb => by rw [idle_take, if_neg hb]⟩
  · intro now a
    exact idle_evictExpired pool now a
  · intro a s now b hb
    rw [idle_put, if_neg fun hba => hb hba.1]
  · have hcount := count_handouts (∅ : ConnectionPool S) events (a, s)
    have hempty : (∅ : ConnectionPool S).held (a, s) = 0 := rfl
    omega

/-- Two connections of one address and one of another are put; when those that have expired are evicted, one is left of
the first address, which is handed out, and the other address's expires before it is wanted. -/
def reusedRun : List (Event ℕ) :=
  [.put (ascii "a:80") 7 1, .put (ascii "a:80") 8 3, .put (ascii "b:80") 9 4, .evictExpired fun _ _ => MAX_IDLE_AGE + 2,
    .take (ascii "a:80") fun _ => MAX_IDLE_AGE + 2, .take (ascii "b:80") fun _ => MAX_IDLE_AGE + 4]

theorem pool_fresh_first_reused :
    Clocked 0 reusedRun ∧ handouts ∅ reusedRun = [(ascii "a:80", 8)] ∧
      (∀ a, ((run ∅ reusedRun).idle a).length ≤ MAX_IDLE_PER_HOST) ∧
      (handouts ∅ reusedRun).count (ascii "a:80", 8) ≤ (reusedRun.flatMap Event.parks).count (ascii "a:80", 8) := by
  have hage : MAX_IDLE_AGE = 45000000000 := rfl
  have hclocked : Clocked 0 reusedRun := by
    refine ⟨1, by omega, ⟨by omega, by omega⟩, 3, by omega, ⟨by omega, by omega⟩, 4, by omega, ⟨by omega, by omega⟩,
      MAX_IDLE_AGE + 2, by omega, fun _ _ => ⟨by simp only; omega, le_rfl⟩, MAX_IDLE_AGE + 2, le_rfl, ⟨fun _ _ _ => le_rfl, ?_⟩,
      MAX_IDLE_AGE + 4, by omega, ⟨fun _ _ _ => le_rfl, ?_⟩, trivial⟩
    · exact fun _ => ⟨le_rfl, le_rfl⟩
    · exact fun _ => ⟨by simp only; omega, le_rfl⟩
  have hpool := pool_fresh_first hclocked
  exact ⟨hclocked, by decide +kernel, fun a => (hpool.1 a).2.1, hpool.2.2.2.2 (ascii "a:80") 8⟩

end Counting

end ConnectionPool

end LbProxy.Monoio
