import LbProxy.Lib.Tokens
import LbProxy.Core.Proxy

/-!
# The headers that are not forwarded

* `Listed` — the names that values list, in terms of their texts, and `Nominated`, those that visible ones list;
* `mem_connectionNominated_iff` — they are the ones that are collected;
* `Stripped` — the names that are taken out; `mem_keys_strip`, `getAll_strip_of_not_stripped` — everything else is left
  as it is;
* `getAll_strip_strip` — stripping twice is stripping once.
-/

namespace LbProxy.Core

open Lib

/-- One of the values lists the name `n`, in any case; `close` and `keep-alive` are no names. -/
def Listed (values : List Bytes) (n : Bytes) : Prop :=
  ∃ value ∈ values, ∃ t, Element value t ∧ n = lowercase t ∧ n ≠ ascii "close" ∧ n ≠ ascii "keep-alive"

/-- The name `n` is nominated by the `Connection` values: a visible one lists it. -/
def Nominated (values : List Bytes) (n : Bytes) : Prop := Listed (values.filter fun v => v.all isVisible) n

/-- The name `n` is not forwarded. -/
def Stripped (values : List Bytes) (n : Bytes) : Prop := n = CONNECTION ∨ n ∈ HOP_BY_HOP ∨ Nominated values n

theorem listed_append (a b : List Bytes) (n : Bytes) : Listed (a ++ b) n ↔ Listed a n ∨ Listed b n := by
  simp only [Listed, List.mem_append, or_and_right, exists_or]

theorem listed_iff_trimmed (values : List Bytes) (n : Bytes) :
    Listed values n ↔ ∃ value ∈ values, ∃ t ∈ (splitByte 44 value).map trimBlank,
      t ≠ [] ∧ t.all isToken = true ∧ n = lowercase t ∧ n ≠ ascii "close" ∧ n ≠ ascii "keep-alive" := by
  refine exists_congr fun value => and_congr_right fun _ => exists_congr fun t => ?_
  rw [List.mem_map]
  constructor
  · rintro ⟨helem, hn⟩
    exact ⟨(exists_trimmed_iff helem.1 helem.2.1).mpr helem, helem.1, helem.2.1, hn⟩
  · rintro ⟨hp, hne, htoken, hn⟩
    exact ⟨(exists_trimmed_iff hne htoken).mp hp, hn⟩

instance (values : List Bytes) (n : Bytes) : Decidable (Listed values n) :=
  decidable_of_iff _ (listed_iff_trimmed values n).symm

instance (values : List Bytes) (n : Bytes) : Decidable (Nominated values n) := inferInstanceAs (Decidable (Listed _ _))

instance (values : List Bytes) (n : Bytes) : Decidable (Stripped values n) := inferInstanceAs (Decidable (_ ∨ _ ∨ _))

theorem listed_iff (values : List Bytes) (n : Bytes) :
    Listed values n ↔ Nominated values n ∨ Listed (values.filter fun v => !v.all isVisible) n := by
  simp only [Nominated, Listed, List.mem_filter, ← exists_or, ← or_and_right, ← and_or_left]
  refine exists_congr fun value => and_congr_left fun _ => ?_
  cases value.all isVisible <;> simp

section Strip

variable {ht : HeaderTypes} (hl : ht.Laws)
include hl

theorem mem_nominatedFromValue_iff {value : Bytes} (hvis : value.all isVisible = true) (n : Bytes) :
    n ∈ nominatedFromValue ht value ↔
      ∃ t, Element value t ∧ n = lowercase t ∧ n ≠ ascii "close" ∧ n ≠ ascii "keep-alive" := by
  have htrim : ∀ p ∈ splitByte 44 value, trim p = trimBlank p := by
    intro p hp
    refine trim_visible fun b hb => List.all_eq_true.mp hvis b ?_
    exact ((mem_splitByte_iff 44 value p).mp hp).subset b hb
  have hclose : lowercase (ascii "close") = ascii "close" := by decide
  have hkeep : lowercase (ascii "keep-alive") = ascii "keep-alive" := by decide
  simp only [nominatedFromValue, List.mem_filterMap, List.mem_filter, List.mem_map, hl.name, eqIgnoreAsciiCase, hclose,
    hkeep, Bool.and_eq_true, Bool.not_eq_true', beq_eq_false_iff_ne, decide_eq_true_eq]
  constructor
  · rintro ⟨t, ⟨⟨p, hp, rfl⟩, ⟨-, hc⟩, hk⟩, hname⟩
    split at hname
    · rename_i hvalid
      obtain rfl := Option.some.inj hname
      refine ⟨trim p, ?_, rfl, hc, hk⟩
      exact (exists_trimmed_iff hvalid.1 hvalid.2).mp ⟨p, hp, (htrim p hp).symm⟩
    · cases hname
  · rintro ⟨t, helem, rfl, hc, hk⟩
    obtain ⟨p, hp, ht⟩ := (exists_trimmed_iff helem.1 helem.2.1).mpr helem
    exact ⟨t, ⟨⟨p, hp, (htrim p hp).trans ht⟩, ⟨helem.1, hc⟩, hk⟩, if_pos ⟨helem.1, helem.2.1⟩⟩

/-- **The nominated names are the ones that the values list.** -/
theorem mem_connectionNominated_iff (m : ht.Map) (n : Bytes) :
    n ∈ connectionNominated ht m ↔ Nominated (ht.getAll m CONNECTION) n := by
  simp only [connectionNominated, List.mem_flatMap, Nominated, Listed, List.mem_filter, and_assoc]
  refine exists_congr fun value => and_congr_right fun _ => ?_
  rw [hl.toStr]
  by_cases hvis : value.all isVisible = true
  · rw [if_pos hvis]
    simp only [hvis, true_and]
    exact mem_nominatedFromValue_iff hl hvis n
  · rw [if_neg hvis]
    simp [hvis]

theorem getAll_strip_of_stripped {m : ht.Map} {n : Bytes} (h : Stripped (ht.getAll m CONNECTION) n) :
    ht.getAll (stripHopByHop ht m) n = [] := by
  rw [getAll_stripHopByHop hl, if_pos]
  rwa [mem_connectionNominated_iff hl]

theorem getAll_strip_of_not_stripped {m : ht.Map} {n : Bytes} (h : ¬ Stripped (ht.getAll m CONNECTION) n) :
    ht.getAll (stripHopByHop ht m) n = ht.getAll m n := by
  rw [getAll_stripHopByHop hl, if_neg]
  rwa [mem_connectionNominated_iff hl]

/-- **What is left of a map.** -/
theorem mem_keys_strip (m : ht.Map) (n : Bytes) :
    n ∈ ht.keys (stripHopByHop ht m) ↔ n ∈ ht.keys m ∧ ¬ Stripped (ht.getAll m CONNECTION) n := by
  rw [hl.mem_keys, hl.mem_keys]
  by_cases h : Stripped (ht.getAll m CONNECTION) n
  · simp [getAll_strip_of_stripped hl h, h]
  · simp [getAll_strip_of_not_stripped hl h, h]

theorem getAll_strip_eq_self_iff (m : ht.Map) (n : Bytes) :
    ht.getAll (stripHopByHop ht m) n = ht.getAll m n ↔
      Stripped (ht.getAll m CONNECTION) n → ht.getAll m n = [] := by
  by_cases h : Stripped (ht.getAll m CONNECTION) n
  · rw [getAll_strip_of_stripped hl h]
    exact ⟨fun e _ => e.symm, fun e => (e h).symm⟩
  · simp [getAll_strip_of_not_stripped hl h, h]

theorem not_nominated_strip (m : ht.Map) (n : Bytes) :
    ¬ Nominated (ht.getAll (stripHopByHop ht m) CONNECTION) n := by
  rintro ⟨value, hmem, -⟩
  rw [getAll_strip_of_stripped hl (Or.inl rfl)] at hmem
  simp at hmem

theorem getAll_strip_strip (m : ht.Map) (n : Bytes) :
    ht.getAll (stripHopByHop ht (stripHopByHop ht m)) n = ht.getAll (stripHopByHop ht m) n := by
  rw [getAll_strip_eq_self_iff hl]
  rintro (h | h | h)
  · exact getAll_strip_of_stripped hl (Or.inl h)
  · exact getAll_strip_of_stripped hl (Or.inr (Or.inl h))
  · exact absurd h (not_nominated_strip hl m n)

end Strip

end LbProxy.Core
