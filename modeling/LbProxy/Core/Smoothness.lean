import LbProxy.Core.Fairness
import Mathlib.Algebra.Order.Round
import Mathlib.Algebra.Order.BigOperators.Group.List
import Mathlib.Data.Rat.Floor
import Mathlib.Tactic.FieldSimp
import Mathlib.Tactic.Positivity

/-!
# How even the weight table is (`target.rs`)

* `weight_table_smooth` — every stretch from the start of the table serves each index close to its share;
* `roundingError` — what a slot count gains or loses by rounding and by the floor of one slot;
* `WithinBounds` — the documented bounds of a scaled table: its size, that every endpoint occurs, and the ratio error;
* `withinBounds_iff` — they hold exactly if the rounding errors cancel out; for up to six endpoints it is enough that the
  errors add up to nothing.
-/

namespace LbProxy.Core.TargetGroup

open Lib SmoothRoundRobin

/-! ## Smoothness -/

theorem take_weightRounds (scaled : List ℤ) (total : ℤ) {k n : ℕ} (h : k ≤ n) (current : List ℤ) :
    (weightRounds scaled total n current).take k = weightRounds scaled total k current := by
  induction k generalizing n current with
  | zero => rw [List.take_zero, weightRounds]
  | succ k ih =>
    obtain ⟨n, rfl⟩ := Nat.exists_eq_add_one_of_ne_zero (by omega : n ≠ 0)
    rw [weightRounds, weightRounds, List.take_succ_cons, ih (by omega)]

section Smooth

variable {scaled : List ℤ} (hpos : ∀ w ∈ scaled, 0 < w) (htwo : 2 ≤ scaled.length)
  (hcap : scaled.length ≤ 2 ^ 16)
include hpos htwo hcap

/-- The credits after `k` rounds are balanced, and say how often each index was served. -/
theorem credits_spec (k : ℕ) :
    (creditsAfter scaled scaled.sum k (scaled.map fun _ => 0)).length = scaled.length ∧
      Balanced (Finset.range scaled.length) (creditOf scaled)
        (creditOf (creditsAfter scaled scaled.sum k (scaled.map fun _ => 0))) ∧
      ∀ (i : ℕ) (hi : i < scaled.length),
        creditOf (creditsAfter scaled scaled.sum k (scaled.map fun _ => 0)) i =
          k * scaled[i] - scaled.sum * (weightRounds scaled scaled.sum k (scaled.map fun _ => 0)).count i := by
  have hsum := length_le_sum hpos
  obtain ⟨hlen, hrounds⟩ := rounds_weightRounds (List.length_map (fun _ => (0 : ℤ))) (by omega) hcap k
  rw [creditOf_zero] at hrounds
  have hzero : Balanced (Finset.range scaled.length) (creditOf scaled) fun _ => 0 :=
    ⟨by simp, fun i _ => by rw [weightSum_range]; omega⟩
  refine ⟨hlen, hrounds.balanced (creditOf_pos hpos) hzero, fun i hi => ?_⟩
  rw [hrounds.credit (Finset.mem_range.mpr hi), length_weightRounds, weightSum_range, creditOf_getElem hi, zero_add]

/-- **The weight table is smooth.**  After `k` slots no index is a full slot ahead of its share, and none lags by as
much as one slot for every other index; a whole table later all credits are back at zero. -/
theorem weight_table_smooth :
    ((smoothTable scaled).length : ℤ) = scaled.sum ∧
      (∀ k ≤ (smoothTable scaled).length, ∀ (i : ℕ) (hi : i < scaled.length),
        (((smoothTable scaled).take k).count i : ℤ) * scaled.sum < k * scaled[i] + scaled.sum ∧
          k * scaled[i] - (scaled.length - 1) * scaled.sum < ((smoothTable scaled).take k).count i * scaled.sum) ∧
      creditsAfter scaled scaled.sum (smoothTable scaled).length (scaled.map fun _ => 0) = scaled.map (fun _ => 0) ∧
      ∀ eps : List BackendEndpoint, (eps.map fun e => scaledWeight (eps.map (·.weight)).sum e.weight) = scaled →
        expandWeights eps = smoothTable scaled := by
  have hsum := length_le_sum hpos
  have hlen : ((smoothTable scaled).length : ℤ) = scaled.sum := by
    rw [length_smoothTable]
    omega
  refine ⟨hlen, fun k hk i hi => ?_, ?_, fun eps heps => by rw [expandWeights_eq_smoothTable, heps]⟩
  · obtain ⟨-, hbalanced, hcredit⟩ := credits_spec hpos htwo hcap k
    have htake : (smoothTable scaled).take k = weightRounds scaled scaled.sum k (scaled.map fun _ => 0) := by
      rw [length_smoothTable] at hk
      exact take_weightRounds scaled scaled.sum hk _
    have hmem := Finset.mem_range.mpr hi
    have hlow := hbalanced.bound i hmem
    -- some other index
    obtain ⟨j, hj, hji⟩ : ∃ j ∈ Finset.range scaled.length, j ≠ i := by
      rcases Nat.eq_zero_or_pos i with rfl | hi0
      · exact ⟨1, Finset.mem_range.mpr (by omega), one_ne_zero⟩
      · exact ⟨0, Finset.mem_range.mpr (by omega), by omega⟩
    have hhigh := hbalanced.lt hmem hj hji
    rw [weightSum_range, hcredit i hi] at hlow hhigh
    rw [Finset.card_range] at hhigh
    rw [htake]
    constructor <;> linarith
  · obtain ⟨hclen, -, hcredit⟩ := credits_spec hpos htwo hcap (smoothTable scaled).length
    refine List.ext_getElem (by rw [hclen, List.length_map]) fun i h₁ h₂ => ?_
    have hi : i < scaled.length := by rwa [List.length_map] at h₂
    have hcount := (smoothTable_fair hpos (List.ne_nil_of_length_pos (by omega)) hcap).2 i hi
    have htable : weightRounds scaled scaled.sum (smoothTable scaled).length (scaled.map fun _ => 0) =
        smoothTable scaled := by rw [length_smoothTable, smoothTable]
    rw [← creditOf_getElem h₁, hcredit i hi, htable, hcount, hlen, List.getElem_map]
    ring

end Smooth

/-- Weights `5`, `1` and `1`: the first index is served early, but never a full slot ahead. -/
theorem weight_table_smooth_five_one_one :
    (smoothTable [5, 1, 1]).take 2 = [0, 0] ∧ (((smoothTable [5, 1, 1]).take 2).count 0 : ℤ) * 7 < 2 * 5 + 7 := by
  have h := (@weight_table_smooth [5, 1, 1] (by decide) (by decide) (by decide)).2.1 2 (by decide) 0 (by decide)
  exact ⟨by decide, h.1⟩

/-! ## The bounds of a scaled table -/

/-- What the slots of a weight gain or lose by rounding its share of the table, and by the floor of one slot. -/
def roundingError (total w : ℕ) : ℚ :=
  max 1 (round ((MAX_WEIGHT_TABLE * w : ℚ) / total) : ℚ) - MAX_WEIGHT_TABLE * w / total

/-- The rounding errors of a list of weights add up to nothing or less, and that of each weight is close to its share
of what they add up to. -/
structure ErrorsCancel (weights : List ℕ) : Prop where
  total : (weights.map (roundingError weights.sum)).sum ≤ 0
  each : ∀ w ∈ weights,
    |roundingError weights.sum w - (weights.map (roundingError weights.sum)).sum * (w / weights.sum)| <
      (MAX_WEIGHT_TABLE + (weights.map (roundingError weights.sum)).sum) / 1000

/-- The documented bounds: the table is capped, every endpoint occurs in it, and its share of the table is its share
of the weights up to one part in a thousand. -/
def WithinBounds (eps : List BackendEndpoint) : Prop :=
  (expandWeights eps).length ≤ MAX_WEIGHT_TABLE ∧ ∀ i e, eps[i]? = some e → i ∈ expandWeights eps ∧
    |((expandWeights eps).count i : ℚ) / (expandWeights eps).length - e.weight / ((eps.map (·.weight)).sum : ℕ)| <
      1 / 1000

theorem scaledWeight_eq {total w : ℕ} (htotal : MAX_WEIGHT_TABLE < total) :
    (scaledWeight total w : ℚ) = MAX_WEIGHT_TABLE * w / total + roundingError total w := by
  have hpos : (0 : ℚ) < total := by exact_mod_cast Nat.lt_of_le_of_lt (Nat.zero_le _) htotal
  have hround : round ((MAX_WEIGHT_TABLE * w : ℚ) / total) =
      ((2 * w * MAX_WEIGHT_TABLE + total) / (2 * total) : ℕ) := by
    have hhalf : (MAX_WEIGHT_TABLE * w : ℚ) / total + 1 / 2 =
        ((2 * w * MAX_WEIGHT_TABLE + total : ℕ) : ℚ) / ((2 * total : ℕ) : ℚ) := by
      push_cast
      field_simp
    rw [round_eq, hhalf, Rat.floor_natCast_div_natCast]
    rfl
  rw [scaledWeight, if_pos htotal, roundingError, hround]
  push_cast
  ring

theorem sum_scaledWeight {weights : List ℕ} (htotal : MAX_WEIGHT_TABLE < weights.sum) :
    ((weights.map (scaledWeight weights.sum)).sum : ℚ) =
      MAX_WEIGHT_TABLE + (weights.map (roundingError weights.sum)).sum := by
  have hpos : (0 : ℚ) < weights.sum := by exact_mod_cast Nat.lt_of_le_of_lt (Nat.zero_le _) htotal
  have hshare : (weights.map fun w : ℕ => (MAX_WEIGHT_TABLE * w : ℚ) / weights.sum).sum = MAX_WEIGHT_TABLE := by
    have hfactor : (weights.map fun w : ℕ => (MAX_WEIGHT_TABLE * w : ℚ) / weights.sum).sum =
        MAX_WEIGHT_TABLE / weights.sum * (weights.map fun w : ℕ => (w : ℚ)).sum := by
      rw [← List.sum_map_mul_left]
      congr 1
      exact List.map_congr_left fun w _ => by ring
    rw [hfactor, ← Nat.cast_list_sum]
    field_simp
  rw [Int.cast_list_sum, List.map_map, ← hshare, ← List.sum_map_add]
  exact congrArg List.sum (List.map_congr_left fun w _ => by
    rw [Function.comp_apply, scaledWeight_eq htotal])

theorem scaledWeight_pos (total w : ℕ) : 0 < scaledWeight total w := by
  unfold scaledWeight
  split <;> exact lt_max_of_lt_left one_pos

theorem scaled_pos (weights : List ℕ) : ∀ w ∈ weights.map (scaledWeight weights.sum), 0 < w := by
  intro w hw
  obtain ⟨v, -, rfl⟩ := List.mem_map.mp hw
  exact scaledWeight_pos _ _

section Scaled

variable {eps : List BackendEndpoint} {weights : List ℕ} (hweights : weights = eps.map (·.weight))
include hweights

theorem expandWeights_eq_scaled : expandWeights eps = smoothTable (weights.map (scaledWeight weights.sum)) := by
  rw [expandWeights_eq_smoothTable, hweights, List.map_map]
  rfl

theorem length_scaled :
    ((expandWeights eps).length : ℤ) = (weights.map (scaledWeight weights.sum)).sum ∧
      weights.length ≤ (expandWeights eps).length := by
  have hle := length_le_sum (scaled_pos weights)
  rw [List.length_map] at hle
  rw [expandWeights_eq_scaled hweights, length_smoothTable]
  omega

theorem count_scaled (hcap : (expandWeights eps).length ≤ MAX_WEIGHT_TABLE) {i : ℕ} {e : BackendEndpoint}
    (he : eps[i]? = some e) : ((expandWeights eps).count i : ℤ) = scaledWeight weights.sum e.weight := by
  obtain ⟨hi, rfl⟩ := List.getElem?_eq_some_iff.mp he
  have hlen := (length_scaled hweights).2
  have hfew : (weights.map (scaledWeight weights.sum)).length ≤ 2 ^ 16 := by
    unfold MAX_WEIGHT_TABLE at hcap
    rw [List.length_map]
    omega
  have hi' : i < (weights.map (scaledWeight weights.sum)).length := by simpa [hweights] using hi
  have hne : weights.map (scaledWeight weights.sum) ≠ [] := List.ne_nil_of_length_pos (by omega)
  rw [expandWeights_eq_scaled hweights, (smoothTable_fair (scaled_pos weights) hne hfew).2 i hi']
  simp [hweights]

variable (htotal : MAX_WEIGHT_TABLE < weights.sum)
include htotal

theorem length_scaled_eq : ((expandWeights eps).length : ℚ) =
    MAX_WEIGHT_TABLE + (weights.map (roundingError weights.sum)).sum := by
  rw [← sum_scaledWeight htotal, ← (length_scaled hweights).1]
  rfl

theorem length_scaled_pos : (0 : ℚ) < (expandWeights eps).length := by
  have hne : weights ≠ [] := by
    rintro rfl
    exact absurd htotal (by decide)
  have hpos := List.length_pos_iff.mpr hne
  have hlen := (length_scaled hweights).2
  exact_mod_cast (by omega : 0 < (expandWeights eps).length)

/-- An endpoint of a table within the cap occurs in it, and its share is off by its rounding error, less its part of all
rounding errors. -/
theorem share_scaled_iff (hcap : (expandWeights eps).length ≤ MAX_WEIGHT_TABLE) {i : ℕ} {e : BackendEndpoint}
    (he : eps[i]? = some e) :
    (i ∈ expandWeights eps ∧
        |((expandWeights eps).count i : ℚ) / (expandWeights eps).length - e.weight / (weights.sum : ℕ)| < 1 / 1000) ↔
      |roundingError weights.sum e.weight - (weights.map (roundingError weights.sum)).sum * (e.weight / weights.sum)| <
        (MAX_WEIGHT_TABLE + (weights.map (roundingError weights.sum)).sum) / 1000 := by
  have hcount := count_scaled hweights hcap he
  have hmem : i ∈ expandWeights eps := by
    have := scaledWeight_pos weights.sum e.weight
    exact List.count_pos_iff.mp (by omega)
  have hlen := length_scaled_eq hweights htotal
  have hpos := length_scaled_pos hweights htotal
  rw [hlen] at hpos
  have hcountQ : ((expandWeights eps).count i : ℚ) =
      MAX_WEIGHT_TABLE * e.weight / weights.sum + roundingError weights.sum e.weight := by
    rw [← scaledWeight_eq htotal, ← hcount]
    rfl
  have hdiff : ((expandWeights eps).count i : ℚ) / (expandWeights eps).length - e.weight / (weights.sum : ℕ) =
      (roundingError weights.sum e.weight - (weights.map (roundingError weights.sum)).sum * (e.weight / weights.sum)) /
        (MAX_WEIGHT_TABLE + (weights.map (roundingError weights.sum)).sum) := by
    rw [hcountQ, hlen, eq_div_iff hpos.ne', sub_mul, div_mul_cancel₀ _ hpos.ne']
    ring
  rw [and_iff_right hmem, hdiff, abs_div, abs_of_pos hpos, div_lt_div_iff₀ hpos (by norm_num),
    lt_div_iff₀ (by norm_num : (0 : ℚ) < 1000), one_mul]

end Scaled

/-! ### Few endpoints -/

theorem roundingError_bounds (total w : ℕ) : -(1 / 2) ≤ roundingError total w ∧ roundingError total w ≤ 1 := by
  have hx : (0 : ℚ) ≤ MAX_WEIGHT_TABLE * w / total := by positivity
  unfold roundingError
  generalize (MAX_WEIGHT_TABLE * w / total : ℚ) = x at hx
  have habs := abs_le.mp (abs_sub_round x)
  have hge : (round x : ℚ) ≤ max 1 (round x : ℚ) := le_max_right _ _
  refine ⟨by linarith, ?_⟩
  rcases max_choice (1 : ℚ) (round x : ℚ) with h | h
  · rw [h]
    linarith
  · rw [h]
    linarith

/-- For up to six endpoints only the size of the table is at stake. -/
theorem cancel_of_few {weights : List ℕ} (hfew : weights.length ≤ 6)
    (h : (weights.map (roundingError weights.sum)).sum ≤ 0) : ErrorsCancel weights := by
  refine ⟨h, fun w hw => ?_⟩
  obtain ⟨E, hE⟩ : ∃ E, E = (weights.map (roundingError weights.sum)).sum := ⟨_, rfl⟩
  rw [← hE] at h ⊢
  have hlow : -3 ≤ E := by
    have hsum := List.card_nsmul_le_sum (weights.map (roundingError weights.sum)) (-(1 / 2)) fun e he => by
      obtain ⟨v, -, rfl⟩ := List.mem_map.mp he
      exact (roundingError_bounds _ v).1
    have hlen : ((weights.map (roundingError weights.sum)).length : ℚ) ≤ 6 := by
      rw [List.length_map]
      exact_mod_cast hfew
    rw [← hE, nsmul_eq_mul] at hsum
    linarith
  have hshare : (0 : ℚ) ≤ w / weights.sum ∧ (w : ℚ) / weights.sum ≤ 1 := by
    have hle : (w : ℚ) ≤ weights.sum := by exact_mod_cast List.single_le_sum (fun _ _ => Nat.zero_le _) w hw
    exact ⟨by positivity, div_le_one_of_le₀ hle (by positivity)⟩
  obtain ⟨herr, herr'⟩ := roundingError_bounds weights.sum w
  have hpart : 0 ≤ -E * ((w : ℚ) / weights.sum) := mul_nonneg (by linarith) hshare.1
  have hpart' : -E * ((w : ℚ) / weights.sum) ≤ 3 := by nlinarith [hshare.1, hshare.2]
  have hcap : (MAX_WEIGHT_TABLE : ℚ) = 4096 := rfl
  rw [hcap, abs_lt]
  constructor <;> linarith

/-! ### The bounds -/

/-- **The documented bounds hold exactly if the rounding errors cancel out**; for up to six endpoints it is enough that
they add up to nothing. -/
theorem withinBounds_iff {eps : List BackendEndpoint} (htotal : MAX_WEIGHT_TABLE < (eps.map (·.weight)).sum) :
    (WithinBounds eps ↔ ErrorsCancel (eps.map (·.weight))) ∧
      (eps.length ≤ 6 →
        (WithinBounds eps ↔ ((eps.map (·.weight)).map (roundingError (eps.map (·.weight)).sum)).sum ≤ 0)) := by
  have hsize : (expandWeights eps).length ≤ MAX_WEIGHT_TABLE ↔
      ((eps.map (·.weight)).map (roundingError (eps.map (·.weight)).sum)).sum ≤ 0 := by
    rw [← Nat.cast_le (α := ℚ), length_scaled_eq rfl htotal]
    constructor <;> intro h <;> linarith
  have hbounds : WithinBounds eps ↔ ErrorsCancel (eps.map (·.weight)) := by
    constructor
    · rintro ⟨hle, hall⟩
      refine ⟨hsize.mp hle, fun w hw => ?_⟩
      obtain ⟨e, he, rfl⟩ := List.mem_map.mp hw
      obtain ⟨i, hi⟩ := List.mem_iff_getElem?.mp he
      exact (share_scaled_iff rfl htotal hle hi).mp (hall i e hi)
    · rintro ⟨hle, hall⟩
      refine ⟨hsize.mpr hle, fun i e he => (share_scaled_iff rfl htotal (hsize.mpr hle) he).mpr (hall e.weight ?_)⟩
      exact List.mem_map.mpr ⟨e, List.mem_of_getElem? he, rfl⟩
  refine ⟨hbounds, fun hfew => hbounds.trans ⟨fun h => h.1, fun h => cancel_of_few ?_ h⟩⟩
  rwa [List.length_map]

/-- Endpoints with these weights. -/
def withWeights (weights : List ℕ) : List BackendEndpoint := weights.map fun w => ⟨ascii "a:80", w⟩

/-- Two endpoints of weight 1 beside one of 8190 take half a slot each and get a whole one. -/
theorem scaled_table_exceeds_cap :
    ¬ ∀ eps : List BackendEndpoint, 2 ≤ eps.length → (∀ e ∈ eps, 0 < e.weight ∧ e.weight < 2 ^ 32) →
      uniform eps = false → MAX_WEIGHT_TABLE < (eps.map (·.weight)).sum → WithinBounds eps := by
  intro h
  have hbounds := h (withWeights [1, 1, 8190]) (by decide) (by decide) (by decide) (by decide)
  have hlen : (expandWeights (withWeights [1, 1, 8190])).length = 4097 := by
    rw [expandWeights_eq_smoothTable, length_smoothTable]
    decide
  have hcap := hbounds.1
  rw [hlen] at hcap
  exact absurd hcap (by decide)

theorem withinBounds_iff_two : WithinBounds (withWeights [5000, 1]) ↔ ErrorsCancel [5000, 1] :=
  (withinBounds_iff (by decide)).1

end LbProxy.Core.TargetGroup
