import LbProxy.Core.Target
import LbProxy.Lib.SmoothRoundRobin
import Mathlib.Data.List.Count

/-!
# One cycle of a target group is fair (`target.rs`)

* `creditLoop_spec`, `round_weightRound`, `rounds_weightRounds` — the double loop of `expandWeights` is a
  sequence of rounds of smooth weighted round robin;
* `smoothTable_fair` — so its table holds each index as often as the scaled weight says;
* `TargetGroup.cycle` — the slots of one cycle of a group, for each of the three policies, and `select_eq`;
* `cycle_fair` — a cycle holds each slot in proportion to its weight;
* `position` — the position of the selected endpoint in the list the group was made from;
* `select_position`, `count_position` — a selection never fails, never shows a drained endpoint, and every
  window of as many tickets as the weights add up to shows each position as often as its weight says.
-/

namespace LbProxy.Core

open Lib SmoothRoundRobin

namespace TargetGroup

/-! ## The credit loop is a round -/

/-- What the inner loop has done before the index `k`. -/
structure CreditInv (scaled current : List ℤ) (k : ℕ) (state : List ℤ × ℕ) : Prop where
  length : state.1.length = current.length
  /-- The credits before `k` have grown. -/
  bumped : ∀ j < k, state.1.getD j 0 = current.getD j 0 + scaled.getD j 0
  /-- The others have not. -/
  rest : ∀ j, k ≤ j → state.1.getD j 0 = current.getD j 0
  /-- The best index was looked at, if there was any. -/
  best_le : state.2 < max k 1
  greatest : ∀ j < k, state.1.getD j 0 ≤ state.1.getD state.2 0

theorem getD_set {l : List ℤ} {i j : ℕ} {x : ℤ} (hi : i < l.length) :
    (l.set i x).getD j 0 = if i = j then x else l.getD j 0 := by
  by_cases hij : i = j
  · subst hij
    simp [List.getD_eq_getElem?_getD, hi]
  · rw [if_neg hij, List.getD_eq_getElem?_getD, List.getElem?_set_ne hij, ← List.getD_eq_getElem?_getD]

theorem creditLoop_spec (scaled current : List ℤ) :
    CreditInv scaled current current.length (creditLoop scaled current) := by
  unfold creditLoop
  have hgen : ∀ k ≤ current.length, CreditInv scaled current k ((List.range k).foldl
      (fun (s : List ℤ × ℕ) i =>
        let cur := s.1.set i (s.1.getD i 0 + scaled.getD i 0)
        if cur.getD i 0 > cur.getD s.2 0 then (cur, i) else (cur, s.2)) (current, 0)) := by
    intro k hk
    induction k with
    | zero => exact ⟨rfl, by simp, by simp, by simp, by simp⟩
    | succ k ih =>
      have inv := ih (by omega)
      rw [List.range_succ, List.foldl_append, List.foldl_cons, List.foldl_nil]
      generalize (List.range k).foldl _ (current, 0) = s at inv
      have hlt : k < s.1.length := by rw [inv.length]; omega
      have hset : ∀ j, (s.1.set k (s.1.getD k 0 + scaled.getD k 0)).getD j 0 =
          if k = j then s.1.getD k 0 + scaled.getD k 0 else s.1.getD j 0 := fun j => getD_set hlt
      have hbumped : ∀ j < k + 1, (s.1.set k (s.1.getD k 0 + scaled.getD k 0)).getD j 0 =
          current.getD j 0 + scaled.getD j 0 := by
        intro j hj
        rw [hset]
        by_cases hkj : k = j
        · subst hkj
          rw [if_pos rfl, inv.rest k le_rfl]
        · rw [if_neg hkj, inv.bumped j (by omega)]
      have hrest : ∀ j, k + 1 ≤ j →
          (s.1.set k (s.1.getD k 0 + scaled.getD k 0)).getD j 0 = current.getD j 0 := by
        intro j hj
        rw [hset, if_neg (by omega), inv.rest j (by omega)]
      have hlen : (s.1.set k (s.1.getD k 0 + scaled.getD k 0)).length = current.length := by
        rw [List.length_set, inv.length]
      have hbest := inv.best_le
      -- credits before `k` are as they were, and the best one is among them
      have hbelow : ∀ j < k, (s.1.set k (s.1.getD k 0 + scaled.getD k 0)).getD j 0 ≤
          (s.1.set k (s.1.getD k 0 + scaled.getD k 0)).getD s.2 0 := by
        intro j hj
        rw [hset, hset, if_neg (by omega), if_neg (by omega)]
        exact inv.greatest j hj
      simp only
      split
      · rename_i hgt
        refine ⟨hlen, hbumped, hrest, by simp, ?_⟩
        intro j hj
        by_cases hjk : j = k
        · rw [hjk]
        · exact (hbelow j (by omega)).trans hgt.le
      · rename_i hle
        refine ⟨hlen, hbumped, hrest, by simp only; omega, ?_⟩
        intro j hj
        by_cases hjk : j = k
        · rw [hjk]
          exact not_lt.mp hle
        · exact hbelow j (by omega)
  exact hgen current.length le_rfl

/-- The credits as a function of the index. -/
def creditOf (l : List ℤ) (i : ℕ) : ℤ := l.getD i 0

theorem weightSum_range (scaled : List ℤ) :
    weightSum (Finset.range scaled.length) (creditOf scaled) = scaled.sum := by
  unfold weightSum creditOf
  induction scaled with
  | nil => rfl
  | cons a l ih =>
    rw [List.length_cons, Finset.sum_range_succ', List.sum_cons, ← ih]
    simp only [List.getD_cons_succ, List.getD_cons_zero]
    ring

/-- **One round of the source is one round of smooth weighted round robin.** -/
theorem round_weightRound {scaled current : List ℤ} (hlen : current.length = scaled.length)
    (hpos : 0 < scaled.length) (hcap : scaled.length ≤ 2 ^ 16) :
    (weightRound scaled scaled.sum current).1.length = scaled.length ∧
      Round (Finset.range scaled.length) (creditOf scaled) (creditOf current)
        (weightRound scaled scaled.sum current).2 (creditOf (weightRound scaled scaled.sum current).1) := by
  have inv := creditLoop_spec scaled current
  rw [hlen] at inv
  unfold weightRound
  generalize creditLoop scaled current = s at inv
  obtain ⟨cur, best⟩ := s
  have hbest : best < scaled.length := by
    have := inv.best_le
    simp only at this
    omega
  have hcurlen : cur.length = scaled.length := by rw [← hlen]; exact inv.length
  have hbump : ∀ j < scaled.length, cur.getD j 0 = creditOf current j + creditOf scaled j := inv.bumped
  have hset : ∀ j, (cur.set best (cur.getD best 0 - scaled.sum)).getD j 0 =
      if best = j then cur.getD best 0 - scaled.sum else cur.getD j 0 :=
    fun j => getD_set (by rw [hcurlen]; exact hbest)
  simp only
  rw [if_pos (by omega : best < 2 ^ 16)]
  refine ⟨by rw [List.length_set, hcurlen], ⟨Finset.mem_range.mpr hbest, ?_, ?_, ?_⟩⟩
  · intro j hj
    have hj := Finset.mem_range.mp hj
    rw [← hbump j hj, ← hbump best hbest]
    exact inv.greatest j hj
  · rw [weightSum_range, creditOf, hset, if_pos rfl, hbump best hbest]
  · intro j hj hne
    rw [creditOf, hset, if_neg (Ne.symm hne), hbump j (Finset.mem_range.mp hj)]

theorem length_weightRounds (scaled : List ℤ) (total : ℤ) (n : ℕ) (current : List ℤ) :
    (weightRounds scaled total n current).length = n := by
  induction n generalizing current with
  | zero => rfl
  | succ n ih => rw [weightRounds, List.length_cons, ih]

/-- The credits after `n` rounds. -/
def creditsAfter (scaled : List ℤ) (total : ℤ) : ℕ → List ℤ → List ℤ
  | 0, current => current
  | n + 1, current => creditsAfter scaled total n (weightRound scaled total current).1

theorem rounds_weightRounds {scaled current : List ℤ} (hlen : current.length = scaled.length)
    (hpos : 0 < scaled.length) (hcap : scaled.length ≤ 2 ^ 16) (n : ℕ) :
    (creditsAfter scaled scaled.sum n current).length = scaled.length ∧
      Rounds (Finset.range scaled.length) (creditOf scaled) (creditOf current)
        (weightRounds scaled scaled.sum n current) (creditOf (creditsAfter scaled scaled.sum n current)) := by
  induction n generalizing current with
  | zero => exact ⟨hlen, .nil _⟩
  | succ n ih =>
    obtain ⟨hlen', hround⟩ := round_weightRound hlen hpos hcap
    obtain ⟨hlen'', hrest⟩ := ih hlen'
    exact ⟨hlen'', .cons hround hrest⟩

/-! ## The table of a list of scaled weights -/

/-- The table that `expandWeights` makes of the scaled weights. -/
def smoothTable (scaled : List ℤ) : List ℕ :=
  weightRounds scaled scaled.sum scaled.sum.toNat (scaled.map fun _ => 0)

theorem expandWeights_eq_smoothTable (eps : List BackendEndpoint) :
    expandWeights eps = smoothTable (eps.map fun e => scaledWeight (eps.map (·.weight)).sum e.weight) := by
  unfold expandWeights smoothTable
  rw [List.map_map]
  rfl

theorem creditOf_zero (scaled : List ℤ) : creditOf (scaled.map fun _ => 0) = fun _ => 0 := by
  funext i
  unfold creditOf
  rw [List.getD_eq_getElem?_getD, List.getElem?_map]
  cases scaled[i]? <;> rfl

theorem creditOf_getElem {scaled : List ℤ} {i : ℕ} (hi : i < scaled.length) : creditOf scaled i = scaled[i] := by
  rw [creditOf, List.getD_eq_getElem?_getD, List.getElem?_eq_getElem hi, Option.getD_some]

theorem length_smoothTable (scaled : List ℤ) : (smoothTable scaled).length = scaled.sum.toNat :=
  length_weightRounds ..

section Scaled

variable {scaled : List ℤ} (hpos : ∀ w ∈ scaled, 0 < w)
include hpos

theorem creditOf_pos : ∀ i ∈ Finset.range scaled.length, 0 < creditOf scaled i := by
  intro i hi
  have hi := Finset.mem_range.mp hi
  rw [creditOf_getElem hi]
  exact hpos _ (List.getElem_mem hi)

theorem length_le_sum : (scaled.length : ℤ) ≤ scaled.sum := by
  induction scaled with
  | nil => simp
  | cons w l ih =>
    have := ih fun w hw => hpos w (List.mem_cons_of_mem _ hw)
    have := hpos w (by simp)
    rw [List.length_cons, List.sum_cons]
    push_cast
    omega

/-- **The table holds each index as often as its scaled weight says.** -/
theorem smoothTable_fair (hne : scaled ≠ []) (hcap : scaled.length ≤ 2 ^ 16) :
    (∀ i ∈ smoothTable scaled, i < scaled.length) ∧
      ∀ (i : ℕ) (hi : i < scaled.length), ((smoothTable scaled).count i : ℤ) = scaled[i] := by
  have hlen : 0 < scaled.length := List.length_pos_iff.mpr hne
  have hle := length_le_sum hpos
  obtain ⟨-, hrounds⟩ := rounds_weightRounds (List.length_map (fun _ => (0 : ℤ))) hlen hcap scaled.sum.toNat
  rw [creditOf_zero] at hrounds
  refine ⟨fun i hi => Finset.mem_range.mp (hrounds.mem i hi), fun i hi => ?_⟩
  rw [← creditOf_getElem hi]
  refine hrounds.count_eq_weight (creditOf_pos hpos) ?_ i (Finset.mem_range.mpr hi)
  rw [length_weightRounds, weightSum_range]
  omega

end Scaled

/-! ## The slots of one cycle -/

/-- The indices that one cycle of the cursor runs through. -/
def cycle (g : TargetGroup) : List ℕ :=
  match g.policy with
  | .single _ => [0]
  | .roundRobin eps => List.range eps.length
  | .weighted _ table => table

/-- The endpoints that receive traffic. -/
def live (endpoints : List BackendEndpoint) : List BackendEndpoint := endpoints.filter (·.weight > 0)

theorem select_eq (g : TargetGroup) (ticket : ℕ) :
    g.select ticket = (cyclic g.cycle ticket).bind fun slot => g.endpoints[slot]? := by
  unfold select cycle endpoints cyclic
  cases g.policy with
  | single ep => simp [Nat.mod_one]
  | weighted eps table => rfl
  | roundRobin eps =>
    simp only [List.length_range]
    by_cases hlt : ticket % eps.length < eps.length
    · simp [List.getElem?_range hlt]
    · have : (List.range eps.length)[ticket % eps.length]? = none := by simpa using hlt
      rw [this, List.getElem?_eq_none (not_lt.mp hlt)]
      rfl

theorem weight_of_uniform {a : BackendEndpoint} {l : List BackendEndpoint} (h : uniform (a :: l) = true) :
    ∀ e ∈ l, e.weight = a.weight := by
  induction l generalizing a with
  | nil => simp
  | cons b l ih =>
    simp only [uniform, Bool.and_eq_true, beq_iff_eq] at h
    intro e he
    rcases List.mem_cons.mp he with rfl | he
    · exact h.1.symm
    · rw [ih h.2 e he, h.1]

theorem scaledWeight_of_le {total w : ℕ} (htotal : total ≤ MAX_WEIGHT_TABLE) (hw : 0 < w) :
    scaledWeight total w = w := by
  unfold scaledWeight
  rw [if_neg (by omega)]
  omega

theorem length_le_sum_weight {eps : List BackendEndpoint} (hpos : ∀ e ∈ eps, 0 < e.weight) :
    eps.length ≤ (eps.map (·.weight)).sum := by
  induction eps with
  | nil => simp
  | cons a l ih =>
    have := ih fun e he => hpos e (List.mem_cons_of_mem _ he)
    have := hpos a (by simp)
    rw [List.length_cons, List.map_cons, List.sum_cons]
    omega

/-- **The expanded table holds each index as often as its weight says.** -/
theorem expandWeights_fair {eps : List BackendEndpoint} (hne : eps ≠ []) (hpos : ∀ e ∈ eps, 0 < e.weight)
    (hcap : (eps.map (·.weight)).sum ≤ MAX_WEIGHT_TABLE) :
    (expandWeights eps).length = (eps.map (·.weight)).sum ∧ (∀ i ∈ expandWeights eps, i < eps.length) ∧
      ∀ i e, eps[i]? = some e → (expandWeights eps).count i = e.weight := by
  have hle := length_le_sum_weight hpos
  have hscaled : (eps.map fun e => scaledWeight (eps.map (·.weight)).sum e.weight) =
      eps.map fun e => (e.weight : ℤ) :=
    List.map_congr_left fun e he => scaledWeight_of_le hcap (hpos e he)
  have hsum : (eps.map fun e => (e.weight : ℤ)).sum = ((eps.map (·.weight)).sum : ℕ) := by
    rw [Nat.cast_list_sum, List.map_map]
    rfl
  rw [expandWeights_eq_smoothTable, hscaled]
  have hweights : ∀ w ∈ eps.map fun e => (e.weight : ℤ), 0 < w := by simpa using fun e he => hpos e he
  obtain ⟨hmem, hcount⟩ := smoothTable_fair hweights (by simpa using hne)
    (by rw [List.length_map]; unfold MAX_WEIGHT_TABLE at hcap; omega)
  refine ⟨by rw [length_smoothTable, hsum, Int.toNat_natCast], fun i hi => by simpa using hmem i hi, ?_⟩
  intro i e he
  obtain ⟨hi, rfl⟩ := List.getElem?_eq_some_iff.mp he
  have hcount := hcount i (by simpa using hi)
  rw [List.getElem_map] at hcount
  exact_mod_cast hcount

theorem endpoints_fromEndpoints (cursor : ℕ) {endpoints : List BackendEndpoint} (hne : live endpoints ≠ []) :
    (fromEndpoints cursor endpoints).endpoints = live endpoints := by
  unfold fromEndpoints policyOf
  have hlive : endpoints.filter (·.weight > 0) = live endpoints := rfl
  rw [hlive]
  generalize live endpoints = eps at hne
  match eps, hne with
  | [e], _ => rfl
  | a :: b :: l, _ =>
    simp only
    by_cases hu : uniform (a :: b :: l) = true
    · rw [if_pos hu]
      rfl
    · rw [if_neg hu]
      rfl

/-- **A cycle is fair.**  Some number of cycles is as long as the weights add up to, and shows each slot as
often as the weight of its endpoint says. -/
theorem cycle_fair {endpoints : List BackendEndpoint} (cursor : ℕ) (hne : live endpoints ≠ [])
    (hcap : ((live endpoints).map (·.weight)).sum ≤ MAX_WEIGHT_TABLE) :
    (fromEndpoints cursor endpoints).cycle ≠ [] ∧
      (∀ i ∈ (fromEndpoints cursor endpoints).cycle, i < (live endpoints).length) ∧
      ∃ k, (fromEndpoints cursor endpoints).cycle.length * k = ((live endpoints).map (·.weight)).sum ∧
        ∀ i e, (live endpoints)[i]? = some e → k * (fromEndpoints cursor endpoints).cycle.count i = e.weight := by
  have hpos : ∀ e ∈ live endpoints, 0 < e.weight := by
    intro e he
    simpa [live] using (List.mem_filter.mp he).2
  unfold fromEndpoints policyOf
  have hlive : endpoints.filter (·.weight > 0) = live endpoints := rfl
  rw [hlive]
  generalize live endpoints = eps at *
  match eps, hne with
  | [e], _ =>
    refine ⟨by simp [cycle], by simp [cycle], e.weight, by simp [cycle], ?_⟩
    intro i e' he'
    cases i with
    | zero =>
      have : e = e' := by simpa using he'
      simp [cycle, this]
    | succ i => simp at he'
  | a :: b :: l, _ =>
    simp only
    by_cases hu : uniform (a :: b :: l) = true
    · rw [if_pos hu]
      have hw := weight_of_uniform hu
      have hall : ∀ e ∈ a :: b :: l, e.weight = a.weight := by
        intro e he
        rcases List.mem_cons.mp he with rfl | he
        · rfl
        · exact hw e he
      refine ⟨by simp [cycle], by simp [cycle], a.weight, ?_, ?_⟩
      · have hconst : (a :: b :: l).map (·.weight) = (a :: b :: l).map fun _ => a.weight :=
          List.map_congr_left hall
        rw [hconst, List.map_const', List.sum_replicate_nat]
        simp only [cycle, List.length_range]
      · intro i e he
        have hi : i < (a :: b :: l).length := (List.getElem?_eq_some_iff.mp he).1
        have hone : (List.range (a :: b :: l).length).count i = 1 :=
          List.count_eq_one_of_mem List.nodup_range (List.mem_range.mpr hi)
        rw [hall e (List.mem_of_getElem? he)]
        simp only [cycle, hone, mul_one]
    · rw [if_neg hu]
      obtain ⟨hlen, hlt, hcount⟩ := expandWeights_fair (by simp) hpos hcap
      have hsum := length_le_sum_weight hpos
      refine ⟨?_, hlt, 1, by rw [mul_one]; exact hlen, ?_⟩
      · intro hnil
        have : (expandWeights (a :: b :: l)).length = 0 := by
          simp only [cycle] at hnil
          rw [hnil]
          rfl
        rw [List.length_cons] at hsum
        omega
      · intro i e he
        rw [one_mul]
        exact hcount i e he

/-! ## Positions in the list a group was made from -/

/-- The endpoints that receive traffic, with their positions. -/
def kept (endpoints : List BackendEndpoint) : List (BackendEndpoint × ℕ) :=
  endpoints.zipIdx.filter (·.1.weight > 0)

/-- The position, in the list the group was made from, of the endpoint that a ticket selects. -/
def position (endpoints : List BackendEndpoint) (ticket : ℕ) : Option ℕ :=
  (cyclic (fromEndpoints 0 endpoints).cycle ticket).bind fun slot => (kept endpoints)[slot]?.map (·.2)

theorem live_eq_kept (endpoints : List BackendEndpoint) : live endpoints = (kept endpoints).map (·.1) := by
  have h : ∀ n, endpoints.filter (·.weight > 0) =
      ((endpoints.zipIdx n).filter (·.1.weight > 0)).map (·.1) := by
    induction endpoints with
    | nil => intro n; rfl
    | cons a l ih =>
      intro n
      rw [List.zipIdx_cons, List.filter_cons, List.filter_cons]
      by_cases hw : a.weight > 0
      · simp only [hw, decide_true, if_true, List.map_cons, ih (n + 1)]
      · simp only [hw, decide_false, Bool.false_eq_true, if_false, ih (n + 1)]
  exact h 0

theorem nodup_kept (endpoints : List BackendEndpoint) : ((kept endpoints).map (·.2)).Nodup := by
  have hsub : ((kept endpoints).map (·.2)).Sublist (endpoints.zipIdx.map (·.2)) :=
    List.filter_sublist.map _
  refine hsub.nodup ?_
  rw [List.zipIdx_map_snd]
  exact List.nodup_range'

theorem mem_kept {endpoints : List BackendEndpoint} {e : BackendEndpoint} {i : ℕ} :
    (e, i) ∈ kept endpoints ↔ endpoints[i]? = some e ∧ 0 < e.weight := by
  rw [kept, List.mem_filter, List.mem_zipIdx_iff_getElem?]
  simp

theorem sum_live (endpoints : List BackendEndpoint) :
    ((live endpoints).map (·.weight)).sum = (endpoints.map (·.weight)).sum := by
  induction endpoints with
  | nil => rfl
  | cons a l ih =>
    unfold live at ih ⊢
    rw [List.filter_cons]
    by_cases hw : a.weight > 0
    · simp only [hw, decide_true, if_true, List.map_cons, List.sum_cons, ih]
    · simp only [hw, decide_false, Bool.false_eq_true, if_false, ih, List.map_cons, List.sum_cons]
      omega

section Fair

variable {endpoints : List BackendEndpoint} (hlive : ∃ e ∈ endpoints, 0 < e.weight)
  (hcap : (endpoints.map (·.weight)).sum ≤ MAX_WEIGHT_TABLE)
include hlive hcap

omit hcap in
theorem live_ne_nil : live endpoints ≠ [] := by
  obtain ⟨e, he, hw⟩ := hlive
  exact List.ne_nil_of_mem (List.mem_filter.mpr ⟨he, by simpa using hw⟩)

theorem exists_slot (ticket : ℕ) : ∃ slot, cyclic (fromEndpoints 0 endpoints).cycle ticket = some slot ∧
    slot < (kept endpoints).length := by
  obtain ⟨hne, hlt, -⟩ := cycle_fair 0 (live_ne_nil hlive) (by rw [sum_live]; exact hcap)
  have hpos : 0 < (fromEndpoints 0 endpoints).cycle.length := List.length_pos_iff.mpr hne
  have hslot := Nat.mod_lt ticket hpos
  refine ⟨_, List.getElem?_eq_getElem hslot, ?_⟩
  have := hlt _ (List.getElem_mem hslot)
  rwa [live_eq_kept, List.length_map] at this

/-- **A selection succeeds**: it finds the endpoint at the position of its ticket, and its weight is
positive. -/
theorem select_position (cursor ticket : ℕ) : ∃ i e, position endpoints ticket = some i ∧
    endpoints[i]? = some e ∧ 0 < e.weight ∧ (fromEndpoints cursor endpoints).select ticket = some e := by
  obtain ⟨slot, hslot, hlt⟩ := exists_slot hlive hcap ticket
  have heps := endpoints_fromEndpoints cursor (live_ne_nil hlive)
  have hmem : ((kept endpoints)[slot].1, (kept endpoints)[slot].2) ∈ kept endpoints := List.getElem_mem hlt
  obtain ⟨hat, hw⟩ := mem_kept.mp hmem
  refine ⟨(kept endpoints)[slot].2, (kept endpoints)[slot].1, ?_, hat, hw, ?_⟩
  · rw [position, hslot, Option.bind_some, List.getElem?_eq_getElem hlt, Option.map_some]
  · have hcycle : (fromEndpoints cursor endpoints).cycle = (fromEndpoints 0 endpoints).cycle := rfl
    rw [select_eq, hcycle, hslot, heps, live_eq_kept, Option.bind_some, List.getElem?_map,
      List.getElem?_eq_getElem hlt, Option.map_some]

/-- The slot of a position that receives traffic is the only one that shows it. -/
theorem exists_slot_of_position {i : ℕ} {e : BackendEndpoint} (he : endpoints[i]? = some e) (hw : 0 < e.weight) :
    ∃ slot, (live endpoints)[slot]? = some e ∧
      ∀ ticket, position endpoints ticket = some i ↔ cyclic (fromEndpoints 0 endpoints).cycle ticket = some slot := by
  obtain ⟨slot, hlt, hslot⟩ := List.mem_iff_getElem.mp (mem_kept.mpr ⟨he, hw⟩)
  refine ⟨slot, ?_, fun ticket => ?_⟩
  · rw [live_eq_kept, List.getElem?_map, List.getElem?_eq_getElem hlt, hslot]
    rfl
  · obtain ⟨slot', hslot', hlt'⟩ := exists_slot hlive hcap ticket
    rw [position, hslot', Option.bind_some, List.getElem?_eq_getElem hlt', Option.map_some,
      Option.some.injEq, Option.some.injEq]
    have h₁ : slot' < ((kept endpoints).map (·.2)).length := by simpa using hlt'
    have h₂ : slot < ((kept endpoints).map (·.2)).length := by simpa using hlt
    have hinj : ((kept endpoints).map (·.2))[slot'] = ((kept endpoints).map (·.2))[slot] ↔ slot' = slot :=
      (nodup_kept endpoints).getElem_inj_iff
    rw [List.getElem_map, List.getElem_map, hslot] at hinj
    exact hinj

theorem position_ne_of_drained {i : ℕ} {e : BackendEndpoint} (he : endpoints[i]? = some e) (hw : ¬ 0 < e.weight)
    (ticket : ℕ) : position endpoints ticket ≠ some i := by
  intro hpos
  obtain ⟨j, e', hj, hat, hw', -⟩ := select_position hlive hcap 0 ticket
  have hij : j = i := Option.some.inj (hj.symm.trans hpos)
  rw [hij, he] at hat
  exact hw (Option.some.inj hat ▸ hw')

/-- The number of cycles that is as long as the weights add up to, and how often a cycle shows each
position, wherever it starts. -/
theorem exists_turns : ∃ k, 0 < k ∧
    (fromEndpoints 0 endpoints).cycle.length * k = (endpoints.map (·.weight)).sum ∧
    ∀ i e, endpoints[i]? = some e → ∃ c, k * c = e.weight ∧ ∀ start turns,
      countIn (position endpoints) start ((fromEndpoints 0 endpoints).cycle.length * turns) (some i) =
        turns * c := by
  obtain ⟨-, -, k, hlen, hcount⟩ := cycle_fair 0 (live_ne_nil hlive) (by rw [sum_live]; exact hcap)
  rw [sum_live] at hlen
  have hk : 0 < k := by
    obtain ⟨e, he, hw⟩ := hlive
    have hle := List.single_le_sum (l := endpoints.map (·.weight)) (by simp) e.weight
      (List.mem_map.mpr ⟨e, he, rfl⟩)
    rcases Nat.eq_zero_or_pos k with rfl | hk
    · omega
    · exact hk
  refine ⟨k, hk, hlen, ?_⟩
  intro i e he
  by_cases hw : 0 < e.weight
  · obtain ⟨slot, hat, hiff⟩ := exists_slot_of_position hlive hcap he hw
    refine ⟨_, hcount slot e hat, fun start turns => ?_⟩
    rw [countIn_congr hiff, countIn_cyclic]
  · -- a drained endpoint has no slot
    refine ⟨0, by omega, fun start turns => ?_⟩
    unfold countIn
    rw [mul_zero, List.countP_eq_zero]
    intro t _
    simpa using position_ne_of_drained hlive hcap he hw t

/-- **Every window as long as the sum of the weights shows each position as often as its weight says.** -/
theorem count_position (start : ℕ) {i : ℕ} {e : BackendEndpoint} (he : endpoints[i]? = some e) :
    countIn (position endpoints) start (endpoints.map (·.weight)).sum (some i) = e.weight := by
  obtain ⟨k, -, hlen, hturns⟩ := exists_turns hlive hcap
  obtain ⟨c, hc, hcount⟩ := hturns i e he
  rw [← hlen, hcount, hc]

end Fair

end TargetGroup

end LbProxy.Core
