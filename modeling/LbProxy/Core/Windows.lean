import LbProxy.Lib.Windows
import LbProxy.Core.Balancer
import LbProxy.Core.Smoothness

/-!
# Every stretch of selections is fair up to a constant (`target.rs`)

* `abs_cycle_lt` — in any window of tickets each slot is selected as often as its share says, up to the number of slots;
* `windows_fair` — the same for the selections that callers make in any interleaving, in terms of the weights; so no
  endpoint waits for longer than `m * W / w` selections.
-/

namespace LbProxy.Core

open Lib SmoothRoundRobin RouteTableBuilder TargetGroup

namespace TargetGroup

/-- A slot of a weight table is less than one slot ahead, and behind by less than one for every other index. -/
theorem lead_smoothTable {scaled : List ℤ} (hpos : ∀ w ∈ scaled, 0 < w) (htwo : 2 ≤ scaled.length)
    (hcap : scaled.length ≤ 2 ^ 16) {i : ℕ} (hi : i < scaled.length) {k : ℕ} (hk : k ≤ (smoothTable scaled).length) :
    -((scaled.length - 1) * scaled.sum) < lead (smoothTable scaled) i k ∧ lead (smoothTable scaled) i k < scaled.sum := by
  have hsum := length_le_sum hpos
  have hlen : ((smoothTable scaled).length : ℤ) = scaled.sum := by
    rw [length_smoothTable]
    omega
  obtain ⟨-, hbalanced, hcredit⟩ := credits_spec hpos htwo hcap k
  have hmem := Finset.mem_range.mpr hi
  obtain ⟨j, hj, hji⟩ : ∃ j ∈ Finset.range scaled.length, j ≠ i := by
    rcases Nat.eq_zero_or_pos i with rfl | hi0
    · exact ⟨1, Finset.mem_range.mpr (by omega), one_ne_zero⟩
    · exact ⟨0, Finset.mem_range.mpr (by omega), by omega⟩
  have hlow := hbalanced.bound i hmem
  have hhigh := hbalanced.lt hmem hj hji
  rw [weightSum_range, hcredit i hi] at hlow hhigh
  rw [Finset.card_range] at hhigh
  -- the lead is the credit that was spent
  have htake : (smoothTable scaled).take k = weightRounds scaled scaled.sum k (scaled.map fun _ => 0) := by
    rw [length_smoothTable] at hk
    exact take_weightRounds scaled scaled.sum hk _
  have hcount := (smoothTable_fair hpos (List.ne_nil_of_length_pos (by omega)) hcap).2 i hi
  rw [lead_of_le i hk, htake, hcount, hlen]
  constructor <;> linarith

theorem lead_range {m i k : ℕ} (hi : i < m) (hk : k ≤ m) :
    -(m : ℤ) < lead (List.range m) i k ∧ lead (List.range m) i k < m := by
  have hone : (List.range m).count i = 1 := List.count_eq_one_of_mem List.nodup_range (List.mem_range.mpr hi)
  have htake : (List.range m).take k = List.range k := by rw [List.take_range, Nat.min_eq_left hk]
  rw [lead_of_le i (by rwa [List.length_range]), htake, hone, List.length_range]
  by_cases hik : i < k
  · rw [List.count_eq_one_of_mem List.nodup_range (List.mem_range.mpr hik)]
    omega
  · rw [List.count_eq_zero_of_not_mem (by simpa using hik)]
    omega

/-- **Any window of tickets selects each slot as often as its share says, up to one for every slot.** -/
theorem abs_cycle_lt {endpoints : List BackendEndpoint} (cursor : ℕ) (hfew : (live endpoints).length ≤ 2 ^ 16) {slot : ℕ}
    (hslot : slot < (live endpoints).length) (start n : ℕ) :
    |(countIn (cyclic (fromEndpoints cursor endpoints).cycle) start n (some slot) : ℤ) *
        (fromEndpoints cursor endpoints).cycle.length - n * (fromEndpoints cursor endpoints).cycle.count slot| <
      (live endpoints).length * (fromEndpoints cursor endpoints).cycle.length := by
  have hpos : ∀ e ∈ live endpoints, 0 < e.weight := by
    intro e he
    simpa [live] using (List.mem_filter.mp he).2
  unfold fromEndpoints policyOf
  have hlive : endpoints.filter (·.weight > 0) = live endpoints := rfl
  rw [hlive]
  generalize live endpoints = eps at *
  rcases eps with _ | ⟨e, _ | ⟨b, l⟩⟩
  · exact absurd hslot (Nat.not_lt_zero slot)
  · -- every ticket selects the only slot
    obtain rfl : slot = 0 := by simpa using hslot
    have hturns := countIn_cyclic [0] start n 0
    simp only [List.length_singleton, one_mul, List.count_singleton_self, mul_one] at hturns
    simp [cycle, hturns]
  · simp only
    generalize hm : (e :: b :: l).length = m at hslot hfew
    have htwo : 2 ≤ m := by rw [← hm, List.length_cons, List.length_cons]; omega
    by_cases hu : uniform (e :: b :: l) = true
    · rw [if_pos hu]
      simp only [cycle, hm]
      have hne : List.range m ≠ [] := by
        rw [Ne, List.range_eq_nil]
        omega
      have hwindow := abs_window_lt hne (fun k hk => lead_range hslot (by rwa [List.length_range] at hk)) start n
      rw [List.length_range] at hwindow ⊢
      have hmm : (m : ℤ) + m ≤ m * m := by
        have : (2 : ℤ) ≤ m := by exact_mod_cast htwo
        nlinarith
      exact lt_of_lt_of_le hwindow hmm
    · rw [if_neg hu]
      simp only [cycle]
      rw [expandWeights_eq_smoothTable]
      generalize hscaled : (e :: b :: l).map
        (fun c => scaledWeight ((e :: b :: l).map (·.weight)).sum c.weight) = scaled
      have hlen : scaled.length = m := by rw [← hscaled, List.length_map, hm]
      have hscaledPos : ∀ w ∈ scaled, 0 < w := by
        rw [← hscaled]
        intro w hw
        obtain ⟨c, -, rfl⟩ := List.mem_map.mp hw
        exact scaledWeight_pos _ _
      have hsum := length_le_sum hscaledPos
      have htable : ((smoothTable scaled).length : ℤ) = scaled.sum := by
        rw [length_smoothTable]
        omega
      have hne : smoothTable scaled ≠ [] := List.ne_nil_of_length_pos (by omega)
      have hwindow := abs_window_lt hne (fun k hk =>
        lead_smoothTable hscaledPos (by omega) (by omega) (i := slot) (by omega) hk) start n
      rw [hlen] at hwindow
      rw [htable] at hwindow ⊢
      linarith

section Fair

variable {endpoints : List BackendEndpoint} (hlive : ∃ e ∈ endpoints, 0 < e.weight)
  (hcap : (endpoints.map (·.weight)).sum ≤ MAX_WEIGHT_TABLE)
include hlive hcap

/-- Any window of tickets shows each position as often as its weight says, up to one for every live endpoint. -/
theorem abs_position_lt (start n : ℕ) {i : ℕ} {e : BackendEndpoint} (he : endpoints[i]? = some e) :
    |(countIn (position endpoints) start n (some i) : ℤ) * (endpoints.map (·.weight)).sum - n * e.weight| <
      (live endpoints).length * (endpoints.map (·.weight)).sum := by
  have hne := live_ne_nil hlive
  have hpos : ∀ e ∈ live endpoints, 0 < e.weight := by
    intro e he
    simpa [live] using (List.mem_filter.mp he).2
  have hsum : (live endpoints).length ≤ (endpoints.map (·.weight)).sum := by
    rw [← sum_live]
    exact length_le_sum_weight hpos
  have hfew : (live endpoints).length ≤ 2 ^ 16 := by
    unfold MAX_WEIGHT_TABLE at hcap
    omega
  have hm : 0 < (live endpoints).length := List.length_pos_iff.mpr hne
  by_cases hw : 0 < e.weight
  · obtain ⟨slot, hat, hiff⟩ := exists_slot_of_position hlive hcap he hw
    obtain ⟨-, -, k, hlen, hcount⟩ := cycle_fair 0 hne (by rw [sum_live]; exact hcap)
    rw [sum_live] at hlen
    have hwindow := abs_cycle_lt 0 hfew (List.getElem?_eq_some_iff.mp hat).1 start n
    rw [countIn_congr hiff]
    -- the cycle and the counts in it, times the number of cycles
    have hk : 0 < (k : ℤ) := by
      rcases Nat.eq_zero_or_pos k with rfl | hk
      · have hzero := hcount slot e hat
        omega
      · exact_mod_cast hk
    generalize (endpoints.map (·.weight)).sum = W at hlen ⊢
    have hW : (W : ℤ) = (fromEndpoints 0 endpoints).cycle.length * k := by exact_mod_cast hlen.symm
    have hweight : (e.weight : ℤ) = k * (fromEndpoints 0 endpoints).cycle.count slot := by
      exact_mod_cast (hcount slot e hat).symm
    generalize (countIn (cyclic (fromEndpoints 0 endpoints).cycle) start n (some slot) : ℤ) = c at hwindow ⊢
    generalize ((fromEndpoints 0 endpoints).cycle.length : ℤ) = L at hwindow hW
    generalize ((fromEndpoints 0 endpoints).cycle.count slot : ℤ) = d at hwindow hweight
    rw [hW, hweight]
    calc |c * (L * k) - n * (k * d)| = |c * L - n * d| * k := by
          rw [← abs_of_pos hk, ← abs_mul, abs_of_pos hk]
          congr 1
          ring
      _ < (live endpoints).length * L * k := mul_lt_mul_of_pos_right hwindow hk
      _ = (live endpoints).length * (L * k) := by ring
  · -- a drained endpoint is not selected, and has no share
    have hzero : countIn (position endpoints) start n (some i) = 0 := by
      unfold countIn
      rw [List.countP_eq_zero]
      intro t _
      simpa using position_ne_of_drained hlive hcap he hw t
    have hweight : e.weight = 0 := by omega
    have hW : 0 < (endpoints.map (·.weight)).sum := by omega
    rw [hzero, hweight]
    simp only [Nat.cast_zero, zero_mul, mul_zero, sub_zero, abs_zero]
    positivity

end Fair

end TargetGroup

namespace Balancer

variable {m : PathRouter}

/-- **Every stretch of selections is fair up to a constant.**  Callers look a route up through any pattern and select in
any order, and other tables may be published meanwhile.  Of any `n` consecutive selections from its group whose tickets
do not cross the wrap, each endpoint gets its share by weight up to one selection for every live endpoint; so it gets
one at the latest when its share is as large as that. -/
theorem windows_fair (hm : m.Laws) (specs : List RouteSpec) (k : ℕ) (spec : RouteSpec) (hk : specs[k]? = some spec)
    (hlive : ∃ e ∈ spec.endpoints, 0 < e.weight)
    (hcap : (spec.endpoints.map (·.weight)).sum ≤ MAX_WEIGHT_TABLE) (events : List (BalancerEvent m)) :
    let l := ((new (buildAll m specs)).run events).drawn 0 k
    ∀ a n, a % 2 ^ 64 + n ≤ 2 ^ 64 → a + n ≤ l.length → ∀ i e, spec.endpoints[i]? = some e →
      let hits := ((l.drop a).take n).countP fun x => position spec.endpoints x.ticket = some i
      |(hits : ℤ) * (spec.endpoints.map (·.weight)).sum - n * e.weight| <
          (live spec.endpoints).length * (spec.endpoints.map (·.weight)).sum ∧
        (0 < e.weight → (live spec.endpoints).length * (spec.endpoints.map (·.weight)).sum ≤ n * e.weight → 0 < hits) := by
  intro l a n hwrap hlen i e he hits
  obtain ⟨-, hdrawn⟩ := drawn_run hm hk events
  have hhits : hits = countIn (position spec.endpoints) (a % 2 ^ 64) n (some i) := hdrawn.window hwrap hlen i
  have hbound := abs_position_lt hlive hcap (a % 2 ^ 64) n he
  rw [← hhits] at hbound
  refine ⟨hbound, fun hw hshare => ?_⟩
  rcases Nat.eq_zero_or_pos hits with hzero | hpos
  · -- without a hit the whole share would be missing
    rw [hzero, Nat.cast_zero, zero_mul, zero_sub, abs_neg, abs_of_nonneg (by positivity)] at hbound
    have hshare' : ((live spec.endpoints).length : ℤ) * (spec.endpoints.map (·.weight)).sum ≤ n * e.weight := by
      exact_mod_cast hshare
    linarith
  · exact hpos

theorem windows_fair_interleaved :
    |((((((new (buildAll PathRouter.reference [weightedSpec])).run interleaved).drawn 0 0).drop 1).take 2).countP
      (fun x => position weightedSpec.endpoints x.ticket = some 0) : ℤ) * 4 - 2 * 3| < 2 * 4 := by
  have hlen : 1 + 2 ≤ (((new (buildAll PathRouter.reference [weightedSpec])).run interleaved).drawn 0 0).length := by
    decide +kernel
  exact (windows_fair PathRouter.reference_laws [weightedSpec] 0 weightedSpec rfl
    ⟨⟨ascii "10.0.0.1:80", 3⟩, by decide, by decide⟩ (by decide) interleaved 1 2 (by decide) hlen 0 _ rfl).1

end Balancer

end LbProxy.Core
