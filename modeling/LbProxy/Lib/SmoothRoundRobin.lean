import Mathlib.Algebra.BigOperators.Ring.Finset
import Mathlib.Algebra.Order.BigOperators.Group.Finset
import Mathlib.Tactic.Linarith
import Mathlib.Tactic.Ring

/-!
# Smooth weighted round robin

Every party holds a credit.  In a round each credit grows by the party's weight, a party with the
greatest credit is served, and it is charged the sum `W` of all weights.

* `Round` — one round; `Rounds` — a sequence of them, with the parties served;
* `Balanced` — the credits add up to zero and each is above `-W`, which a round keeps; so each is below
  `W` for every other party (`Balanced.lt`);
* `Rounds.credit` — a credit is what the weights gave minus what the services cost;
* `Rounds.count_eq_weight` — so after `W` rounds from zero credits each party was served as often as its
  weight says;
* `countIn_of_periodic` — a periodic sequence shows each value equally often in every window of one period;
* `countIn_cyclic` — so a list that is repeated shows its elements in proportion.
-/

namespace LbProxy.Lib.SmoothRoundRobin

open Finset

variable {ι : Type} (s : Finset ι) (w : ι → ℤ)

/-- The sum of the weights. -/
def weightSum : ℤ := ∑ i ∈ s, w i

/-- One round: `best` holds a greatest credit once every credit has grown by its weight, and is charged the
sum of the weights. -/
structure Round (c : ι → ℤ) (best : ι) (c' : ι → ℤ) : Prop where
  mem : best ∈ s
  greatest : ∀ j ∈ s, c j + w j ≤ c best + w best
  charged : c' best = c best + w best - weightSum s w
  others : ∀ j ∈ s, j ≠ best → c' j = c j + w j

/-- A sequence of rounds, with the parties that were served. -/
inductive Rounds : (ι → ℤ) → List ι → (ι → ℤ) → Prop
  | nil (c : ι → ℤ) : Rounds c [] c
  | cons {c c' c'' : ι → ℤ} {best : ι} {served : List ι} :
      Round s w c best c' → Rounds c' served c'' → Rounds c (best :: served) c''

/-- The credits add up to zero, and none is as low as minus the sum of the weights. -/
structure Balanced (c : ι → ℤ) : Prop where
  sum : ∑ i ∈ s, c i = 0
  bound : ∀ i ∈ s, -weightSum s w < c i

variable {s w}

theorem Rounds.mem {c c' : ι → ℤ} {served : List ι} (h : Rounds s w c served c') :
    ∀ i ∈ served, i ∈ s := by
  induction h with
  | nil => simp
  | cons hr _ ih =>
    intro i hi
    rcases List.mem_cons.mp hi with rfl | hi
    · exact hr.mem
    · exact ih i hi

section Counting

variable [DecidableEq ι]

theorem Round.credit {c c' : ι → ℤ} {best i : ι} (h : Round s w c best c') (hi : i ∈ s) :
    c' i = c i + w i - weightSum s w * (if best = i then 1 else 0) := by
  by_cases hb : best = i
  · subst hb
    rw [h.charged, if_pos rfl, mul_one]
  · rw [h.others i hi (Ne.symm hb), if_neg hb, mul_zero, sub_zero]

theorem Round.sum_eq {c c' : ι → ℤ} {best : ι} (h : Round s w c best c') :
    ∑ i ∈ s, c' i = ∑ i ∈ s, c i := by
  have hterm : ∑ i ∈ s, c' i =
      ∑ i ∈ s, (c i + w i - weightSum s w * (if best = i then 1 else 0)) :=
    Finset.sum_congr rfl fun i hi => h.credit hi
  have hone : ∑ i ∈ s, (if best = i then (1 : ℤ) else 0) = 1 := by
    rw [Finset.sum_ite_eq, if_pos h.mem]
  rw [hterm, Finset.sum_sub_distrib, Finset.sum_add_distrib, ← Finset.mul_sum, hone]
  simp only [weightSum]
  ring

/-- **A round keeps the balance.**  The bumped credits add up to `W > 0`, so the greatest is positive and
stays above `-W` after the charge. -/
theorem Round.balanced {c c' : ι → ℤ} {best : ι} (hw : ∀ i ∈ s, 0 < w i) (h : Round s w c best c')
    (hc : Balanced s w c) : Balanced s w c' := by
  have hW : 0 < weightSum s w := Finset.sum_pos hw ⟨best, h.mem⟩
  have hbest : 0 < c best + w best := by
    by_contra hneg
    rw [not_lt] at hneg
    have hle : ∑ i ∈ s, (c i + w i) ≤ 0 :=
      Finset.sum_nonpos fun i hi => (h.greatest i hi).trans hneg
    rw [Finset.sum_add_distrib, hc.sum, zero_add] at hle
    exact absurd hW (not_lt.mpr hle)
  refine ⟨h.sum_eq.trans hc.sum, ?_⟩
  intro i hi
  by_cases hb : i = best
  · subst hb
    rw [h.charged]
    omega
  · rw [h.others i hi hb]
    have := hc.bound i hi
    have := hw i hi
    omega

theorem Rounds.balanced {c c' : ι → ℤ} {served : List ι} (hw : ∀ i ∈ s, 0 < w i)
    (h : Rounds s w c served c') (hc : Balanced s w c) : Balanced s w c' := by
  induction h with
  | nil => exact hc
  | cons hr _ ih => exact ih (hr.balanced hw hc)

/-- Balanced credits are bounded above too: what one party is owed the others have had. -/
theorem Balanced.lt {c : ι → ℤ} (hc : Balanced s w c) {i j : ι} (hi : i ∈ s) (hj : j ∈ s) (hij : j ≠ i) :
    c i < (s.card - 1) * weightSum s w := by
  have hne : (s.erase i).Nonempty := ⟨j, Finset.mem_erase.mpr ⟨hij, hj⟩⟩
  have hothers : ∑ _k ∈ s.erase i, -weightSum s w < ∑ k ∈ s.erase i, c k :=
    Finset.sum_lt_sum_of_nonempty hne fun k hk => hc.bound k (Finset.mem_of_mem_erase hk)
  have hsum : ∑ k ∈ s.erase i, c k + c i = 0 := by rw [Finset.sum_erase_add _ _ hi, hc.sum]
  rw [Finset.sum_const, Finset.card_erase_of_mem hi, nsmul_eq_mul,
    Nat.cast_pred (Finset.card_pos.mpr ⟨i, hi⟩)] at hothers
  linarith

/-- After `n` rounds a credit has grown by `n` weights and paid `W` for each service. -/
theorem Rounds.credit {c c' : ι → ℤ} {served : List ι} {i : ι} (h : Rounds s w c served c')
    (hi : i ∈ s) : c' i = c i + served.length * w i - weightSum s w * served.count i := by
  induction h with
  | nil => simp
  | @cons c c' c'' best served hr _ ih =>
    rw [ih, hr.credit hi, List.count_cons, List.length_cons]
    by_cases hb : best = i
    · simp only [hb, if_true, beq_self_eq_true]
      push_cast
      ring
    · have hb' : ¬ (best == i) = true := by simpa using hb
      simp only [hb, hb', if_false]
      push_cast
      ring

theorem sum_count {served : List ι} (h : ∀ i ∈ served, i ∈ s) :
    ∑ i ∈ s, (served.count i : ℤ) = served.length := by
  induction served with
  | nil => simp
  | cons a served ih =>
    have hrest := ih fun i hi => h i (List.mem_cons_of_mem _ hi)
    have hone : ∑ i ∈ s, (if a = i then (1 : ℤ) else 0) = 1 := by
      rw [Finset.sum_ite_eq, if_pos (h a (by simp))]
    have hterm : ∀ i ∈ s, ((a :: served).count i : ℤ) = served.count i + (if a = i then 1 else 0) := by
      intro i _
      rw [List.count_cons]
      by_cases hai : a = i <;> simp [hai]
    rw [Finset.sum_congr rfl hterm, Finset.sum_add_distrib, hrest, hone, List.length_cons]
    push_cast
    rfl

/-- **One cycle serves every party as often as its weight says.** -/
theorem Rounds.count_eq_weight {c' : ι → ℤ} {served : List ι} (hw : ∀ i ∈ s, 0 < w i)
    (h : Rounds s w (fun _ => 0) served c') (hlen : (served.length : ℤ) = weightSum s w) :
    ∀ i ∈ s, (served.count i : ℤ) = w i := by
  -- no credit is as low as `-W`, so nobody is served more often than its weight
  have hle : ∀ i ∈ s, (served.count i : ℤ) ≤ w i := by
    intro i hi
    have hW : 0 < weightSum s w := Finset.sum_pos hw ⟨i, hi⟩
    have hzero : Balanced s w fun _ => 0 := ⟨by simp, fun _ _ => by omega⟩
    have hbound := (h.balanced hw hzero).bound i hi
    rw [h.credit hi, hlen] at hbound
    have : weightSum s w * (served.count i) < weightSum s w * (w i + 1) := by linarith
    have := lt_of_mul_lt_mul_left this hW.le
    omega
  -- and the services add up to the sum of the weights
  have hsum : ∑ i ∈ s, (served.count i : ℤ) = ∑ i ∈ s, w i := by rw [sum_count h.mem, hlen]; rfl
  exact (Finset.sum_eq_sum_iff_of_le hle).mp hsum

end Counting

end LbProxy.Lib.SmoothRoundRobin

namespace LbProxy.Lib

/-! ## Windows of a periodic sequence -/

/-- How often `f` shows `a` at the `n` positions from `start` on. -/
def countIn {α : Type} [DecidableEq α] (f : ℕ → α) (start n : ℕ) (a : α) : ℕ :=
  (List.range' start n).countP fun i => f i = a

theorem countIn_succ_start {α : Type} [DecidableEq α] (f : ℕ → α) (start n : ℕ) (a : α) :
    countIn f start n a + (if f (start + n) = a then 1 else 0) =
      (if f start = a then 1 else 0) + countIn f (start + 1) n a := by
  have h : List.range' start n ++ [start + n] = start :: List.range' (start + 1) n := by
    rw [← List.range'_succ, List.range'_concat, one_mul]
  have hcount := congrArg (List.countP fun i => decide (f i = a)) h
  simp only [List.countP_append, List.countP_cons, List.countP_nil, decide_eq_true_eq] at hcount
  unfold countIn
  omega

/-- **Every window of one period counts the same.** -/
theorem countIn_of_periodic {α : Type} [DecidableEq α] {f : ℕ → α} {period : ℕ}
    (hf : ∀ n, f (n + period) = f n) (start : ℕ) (a : α) :
    countIn f start period a = countIn f 0 period a := by
  induction start with
  | zero => rfl
  | succ start ih =>
    have h := countIn_succ_start f start period a
    rw [hf start] at h
    omega

theorem countIn_add {α : Type} [DecidableEq α] (f : ℕ → α) (start n k : ℕ) (a : α) :
    countIn f start (n + k) a = countIn f start n a + countIn f (start + n) k a := by
  unfold countIn
  rw [← List.range'_append_1, List.countP_append]

/-- The list `l` repeated without end. -/
def cyclic {α : Type} (l : List α) (n : ℕ) : Option α := l[n % l.length]?

/-- **A window of `k` turns through a list shows each element `k` times as often as the list does.** -/
theorem countIn_cyclic {α : Type} [DecidableEq α] (l : List α) (start k : ℕ) (a : α) :
    countIn (cyclic l) start (l.length * k) (some a) = k * l.count a := by
  have hturn : ∀ start, countIn (cyclic l) start l.length (some a) = l.count a := by
    intro start
    have hperiod : ∀ n, cyclic l (n + l.length) = cyclic l n := by
      intro n
      rw [cyclic, cyclic, Nat.add_mod_right]
    rw [countIn_of_periodic hperiod]
    have hmap : (List.range' 0 l.length).map (cyclic l) = l.map some := by
      refine List.ext_getElem (by simp) ?_
      intro i h₁ h₂
      have hi : i < l.length := by simpa using h₂
      simp [cyclic, Nat.mod_eq_of_lt hi]
    calc countIn (cyclic l) 0 l.length (some a)
        = ((List.range' 0 l.length).map (cyclic l)).countP (fun x => decide (x = some a)) := by
          rw [List.countP_map]; rfl
      _ = l.countP fun x => decide (some x = some a) := by rw [hmap, List.countP_map]; rfl
      _ = l.count a := by
          rw [List.count]
          exact List.countP_congr fun x _ => by simp
  induction k with
  | zero => simp [countIn]
  | succ k ih =>
    rw [Nat.mul_succ, countIn_add, ih, hturn]
    ring

theorem countP_mem_eq_sum {α : Type} [DecidableEq α] (f : ℕ → Option α) (s : Finset α) (start n : ℕ) :
    (List.range' start n).countP (fun i => decide (∃ a ∈ s, f i = some a)) =
      ∑ a ∈ s, countIn f start n (some a) := by
  unfold countIn
  induction List.range' start n with
  | nil => simp
  | cons i l ih =>
    simp only [List.countP_cons, Finset.sum_add_distrib, ih, decide_eq_true_eq]
    congr 1
    cases hf : f i with
    | none => simp
    | some a =>
      simp only [Option.some.injEq, exists_eq_right', Finset.sum_ite_eq]

theorem countIn_congr {α β : Type} [DecidableEq α] [DecidableEq β] {f : ℕ → α} {g : ℕ → β} {a : α} {b : β}
    (h : ∀ n, f n = a ↔ g n = b) (start n : ℕ) : countIn f start n a = countIn g start n b := by
  refine List.countP_congr fun i _ => ?_
  simpa using h i

end LbProxy.Lib
