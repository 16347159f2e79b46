import LbProxy.Lib.Head

/-!
# Comma-separated lists

* `Piece` — what stands between two separators, and `mem_splitByte_iff`: splitting finds exactly the pieces;
* `trim_visible` — on visible ASCII, Unicode trimming removes blanks only;
* `Element` — a token of a comma-separated list, with blanks around it;
* `exists_trimmed_iff` — the pieces that are tokens after trimming are the elements.
-/

namespace LbProxy.Lib

/-! ## Pieces -/

/-- `p` stands in `s` between two separators, or between one of them and an end of `s`. -/
def Piece (sep : UInt8) (s p : Bytes) : Prop :=
  sep ∉ p ∧ ∃ a b, s = a ++ p ++ b ∧ (a = [] ∨ ∃ a', a = a' ++ [sep]) ∧ (b = [] ∨ ∃ b', b = sep :: b')

theorem splitByte_of_not_mem {sep : UInt8} {s : Bytes} (h : sep ∉ s) : splitByte sep s = [s] := by
  induction s with
  | nil => rfl
  | cons b s ih =>
    have hb : b ≠ sep := fun e => h (by simp [e])
    rw [splitByte, if_neg hb, ih fun hs => h (List.mem_cons_of_mem _ hs)]

theorem splitByte_append (sep : UInt8) (a rest : Bytes) :
    splitByte sep (a ++ sep :: rest) = splitByte sep a ++ splitByte sep rest := by
  induction a with
  | nil => simp [splitByte]
  | cons b a ih =>
    by_cases hb : b = sep
    · simp [splitByte, hb, ih]
    · have hne : splitByte sep a ≠ [] := by
        cases a with
        | nil => simp [splitByte]
        | cons c a =>
          rw [splitByte]
          split
          · simp
          · split <;> simp
      obtain ⟨p, ps, hps⟩ := List.exists_cons_of_ne_nil hne
      rw [List.cons_append, splitByte, if_neg hb, ih, splitByte, if_neg hb, hps]
      rfl

theorem exists_first_sep (sep : UInt8) (s : Bytes) : sep ∉ s ∨ ∃ a rest, sep ∉ a ∧ s = a ++ sep :: rest := by
  by_cases h : sep ∈ s
  · obtain ⟨a, rest, rfl, hfirst⟩ := List.eq_append_cons_of_mem h
    exact Or.inr ⟨a, rest, hfirst, rfl⟩
  · exact Or.inl h

/-- **Splitting finds exactly the pieces.** -/
theorem mem_splitByte_iff (sep : UInt8) (s p : Bytes) : p ∈ splitByte sep s ↔ Piece sep s p := by
  constructor
  · -- the text before the first separator is a piece; the others are pieces of what follows it
    intro h
    induction hn : s.length using Nat.strong_induction_on generalizing s with
    | _ n ih =>
      rcases exists_first_sep sep s with hno | ⟨a, rest, ha, rfl⟩
      · rw [splitByte_of_not_mem hno, List.mem_singleton] at h
        exact ⟨h ▸ hno, [], [], by simp [h], Or.inl rfl, Or.inl rfl⟩
      · rw [splitByte_append_sep ha, List.mem_cons] at h
        rcases h with rfl | h
        · exact ⟨ha, [], sep :: rest, by simp, Or.inl rfl, Or.inr ⟨rest, rfl⟩⟩
        · have hlt : rest.length < n := by
            rw [← hn]
            simp only [List.length_append, List.length_cons]
            omega
          obtain ⟨hsep, a', b', rfl, hleft, hright⟩ := ih _ hlt rest h rfl
          refine ⟨hsep, a ++ sep :: a', b', by simp, Or.inr ?_, hright⟩
          rcases hleft with rfl | ⟨a'', rfl⟩
          · exact ⟨a, rfl⟩
          · exact ⟨a ++ sep :: a'', by simp⟩
  · rintro ⟨hsep, a, b, rfl, hleft, hright⟩
    have hmem : p ∈ splitByte sep (p ++ b) := by
      rcases hright with rfl | ⟨b', rfl⟩
      · rw [List.append_nil, splitByte_of_not_mem hsep]
        exact List.mem_singleton.mpr rfl
      · rw [splitByte_append_sep hsep]
        exact List.mem_cons_self
    rcases hleft with rfl | ⟨a', rfl⟩
    · exact hmem
    · rw [List.append_assoc, List.append_assoc, List.singleton_append, splitByte_append]
      exact List.mem_append_right _ hmem

/-! ## Trimming visible text -/

/-- A text without the blanks at its ends. -/
def trimBlank (s : Bytes) : Bytes := (s.dropWhile isBlank).rdropWhile isBlank

theorem singleton_mem_whiteSpace {b : UInt8} (h : isBlank b = true) : [b] ∈ whiteSpace := by
  simp only [isBlank, Bool.or_eq_true, beq_iff_eq] at h
  rcases h with rfl | rfl <;> decide

theorem whiteSpace_visible {w : Bytes} (hw : w ∈ whiteSpace) {b : UInt8} (hb : isVisible b = true)
    (h : w.head? = some b ∨ w.getLast? = some b) : isBlank b = true ∧ w = [b] := by
  have hall : ∀ w ∈ whiteSpace, ∀ c ∈ w.head?.toList ++ w.getLast?.toList,
      isVisible c = true → isBlank c = true ∧ w = [c] := by decide +kernel
  refine hall w hw b ?_ hb
  rcases h with h | h <;> simp [h]

theorem find_whiteSpace {p : Bytes → Bool} {b : UInt8} (hb : isVisible b = true) (hself : p [b] = true)
    (hend : ∀ w ∈ whiteSpace, p w = true → w.head? = some b ∨ w.getLast? = some b) :
    whiteSpace.find? p = if isBlank b then some [b] else none := by
  split
  · rename_i hblank
    cases hf : whiteSpace.find? p with
    | none => exact absurd hself (List.find?_eq_none.mp hf _ (singleton_mem_whiteSpace hblank))
    | some w =>
      have hw := List.mem_of_find?_eq_some hf
      rw [(whiteSpace_visible hw hb (hend w hw (List.find?_some hf))).2]
  · rename_i hblank
    rw [List.find?_eq_none]
    intro w hw hp
    exact hblank (whiteSpace_visible hw hb (hend w hw hp)).1

theorem nil_not_mem_whiteSpace {w : Bytes} (hw : w ∈ whiteSpace) : w ≠ [] := by
  rintro rfl
  revert hw
  decide

theorem trimStartWs_visible {s : Bytes} (h : ∀ b ∈ s, isVisible b = true) {fuel : ℕ} (hfuel : s.length ≤ fuel) :
    trimStartWs fuel s = s.dropWhile isBlank := by
  induction s generalizing fuel with
  | nil =>
    cases fuel with
    | zero => rfl
    | succ fuel =>
      have hnone : whiteSpace.find? (·.isPrefixOf ([] : Bytes)) = none := by decide
      simp only [trimStartWs, hnone, List.dropWhile_nil]
  | cons b s ih =>
    obtain ⟨fuel, rfl⟩ : ∃ n, fuel = n + 1 := ⟨fuel - 1, by simp only [List.length_cons] at hfuel; omega⟩
    have hfind : whiteSpace.find? (·.isPrefixOf (b :: s)) = if isBlank b then some [b] else none := by
      refine find_whiteSpace (h b List.mem_cons_self) (by simp) fun w hw hpre => Or.inl ?_
      obtain ⟨c, w, rfl⟩ := List.exists_cons_of_ne_nil (nil_not_mem_whiteSpace hw)
      have : c :: w <+: b :: s := List.isPrefixOf_iff_prefix.mp hpre
      rw [List.head?_cons, (List.cons_prefix_cons.mp this).1]
    rw [trimStartWs, hfind, List.dropWhile_cons]
    cases isBlank b with
    | true =>
      simp only [if_true]
      exact ih (fun c hc => h c (List.mem_cons_of_mem _ hc)) (by simpa using hfuel)
    | false => rfl

theorem trimEndWs_visible {s : Bytes} (h : ∀ b ∈ s, isVisible b = true) {fuel : ℕ} (hfuel : s.length ≤ fuel) :
    trimEndWs fuel s = s.rdropWhile isBlank := by
  induction s using List.reverseRecOn generalizing fuel with
  | nil =>
    cases fuel with
    | zero => rfl
    | succ fuel =>
      have hnone : whiteSpace.find? (·.isSuffixOf ([] : Bytes)) = none := by decide
      simp only [trimEndWs, hnone, List.rdropWhile_nil]
  | append_singleton s b ih =>
    obtain ⟨fuel, rfl⟩ : ∃ n, fuel = n + 1 := ⟨fuel - 1, by simp at hfuel; omega⟩
    have hfind : whiteSpace.find? (·.isSuffixOf (s ++ [b])) = if isBlank b then some [b] else none := by
      refine find_whiteSpace (h b (by simp)) (List.isSuffixOf_iff_suffix.mpr (List.suffix_append s [b]))
        fun w hw hsuf => Or.inr ?_
      obtain ⟨t, ht⟩ : w <:+ s ++ [b] := List.isSuffixOf_iff_suffix.mp hsuf
      have hlast := congrArg List.getLast? ht
      rw [List.getLast?_append_of_ne_nil _ (nil_not_mem_whiteSpace hw)] at hlast
      simpa using hlast
    rw [trimEndWs, hfind, List.rdropWhile_concat]
    cases isBlank b with
    | true =>
      simp only [if_true]
      have htake : (s ++ [b]).take ((s ++ [b]).length - [b].length) = s := by simp
      rw [htake]
      exact ih (fun c hc => h c (by simp [hc])) (by simpa using hfuel)
    | false => rfl

/-- **Of visible text, the blanks are trimmed.** -/
theorem trim_visible {s : Bytes} (h : ∀ b ∈ s, isVisible b = true) :
    trim s = trimBlank s := by
  have hstart := trimStartWs_visible h le_rfl
  have hmid : ∀ b ∈ s.dropWhile isBlank, isVisible b = true := fun b hb => h b ((List.dropWhile_suffix _).subset hb)
  rw [trim, hstart]
  exact trimEndWs_visible hmid le_rfl

/-! ## Elements of a list -/

/-- The token `t` is an element of the comma-separated list `s`. -/
def Element (s t : Bytes) : Prop :=
  t ≠ [] ∧ t.all isToken = true ∧ ∃ w w', Piece 44 s (w ++ t ++ w') ∧ w.all isBlank = true ∧ w'.all isBlank = true

theorem isBlank_of_isToken {b : UInt8} (h : isToken b = true) : isBlank b = false := by
  by_contra hblank
  simp only [Bool.not_eq_false, isBlank, Bool.or_eq_true, beq_iff_eq] at hblank
  rcases hblank with rfl | rfl <;> revert h <;> decide

theorem rdropWhile_append_of_all {P : UInt8 → Bool} (s : Bytes) {w : Bytes} (hw : ∀ b ∈ w, P b = true) :
    (s ++ w).rdropWhile P = s.rdropWhile P := by
  rw [List.rdropWhile, List.reverse_append, List.dropWhile_append_of_pos (by simpa using hw)]
  rfl

theorem trimBlank_padded {w w' : Bytes} (hw : ∀ b ∈ w, isBlank b = true) (hw' : ∀ b ∈ w', isBlank b = true)
    (s : Bytes) : trimBlank (w ++ s ++ w') = trimBlank s := by
  rw [trimBlank, List.append_assoc, List.dropWhile_append_of_pos hw, trimBlank, List.dropWhile_append]
  split
  · rename_i h
    have hs : s.dropWhile isBlank = [] := by simpa using h
    rw [hs, List.dropWhile_eq_nil_iff.mpr hw']
  · exact rdropWhile_append_of_all _ hw'

theorem trimBlank_of_token {t : Bytes} (hne : t ≠ []) (ht : ∀ b ∈ t, isToken b = true) : trimBlank t = t := by
  have hblank : ∀ b ∈ t, isBlank b = false := fun b hb => isBlank_of_isToken (ht b hb)
  have hfront : t.dropWhile isBlank = t := by
    obtain ⟨b, t, rfl⟩ := List.exists_cons_of_ne_nil hne
    rw [List.dropWhile_cons, hblank b List.mem_cons_self, if_neg (by decide)]
  rw [trimBlank, hfront, List.rdropWhile_eq_self_iff]
  intro h
  simp [hblank _ (List.getLast_mem h)]

theorem trimmed_eq_iff {p t : Bytes} (hne : t ≠ []) (ht : t.all isToken = true) :
    trimBlank p = t ↔ ∃ w w', p = w ++ t ++ w' ∧ w.all isBlank = true ∧ w'.all isBlank = true := by
  constructor
  · rintro rfl
    refine ⟨p.takeWhile isBlank, (p.dropWhile isBlank).rtakeWhile isBlank, ?_, ?_, ?_⟩
    · rw [trimBlank, List.append_assoc, List.rdropWhile_append_rtakeWhile, List.takeWhile_append_dropWhile]
    · exact List.all_takeWhile
    · rw [List.rtakeWhile, List.all_reverse]
      exact List.all_takeWhile
  · rintro ⟨w, w', rfl, hw, hw'⟩
    rw [trimBlank_padded (List.all_eq_true.mp hw) (List.all_eq_true.mp hw')]
    exact trimBlank_of_token hne (List.all_eq_true.mp ht)

/-- **The pieces that are tokens between blanks are the elements.** -/
theorem exists_trimmed_iff {s t : Bytes} (hne : t ≠ []) (ht : t.all isToken = true) :
    (∃ p ∈ splitByte 44 s, trimBlank p = t) ↔ Element s t := by
  constructor
  · rintro ⟨p, hp, htrim⟩
    obtain ⟨w, w', rfl, hw, hw'⟩ := (trimmed_eq_iff hne ht).mp htrim
    exact ⟨hne, ht, w, w', (mem_splitByte_iff 44 s _).mp hp, hw, hw'⟩
  · rintro ⟨-, -, w, w', hpiece, hw, hw'⟩
    exact ⟨w ++ t ++ w', (mem_splitByte_iff 44 s _).mpr hpiece, (trimmed_eq_iff hne ht).mpr ⟨w, w', rfl, hw, hw'⟩⟩

theorem map_trimBlank_padded {w w' : Bytes} (hw : ∀ b ∈ w, isBlank b = true) (hw' : ∀ b ∈ w', isBlank b = true)
    (s : Bytes) : (splitByte 44 (w ++ s ++ w')).map trimBlank = (splitByte 44 s).map trimBlank := by
  have hcomma : ∀ {w : Bytes}, (∀ b ∈ w, isBlank b = true) → 44 ∉ w := fun h hm => absurd (h 44 hm) (by decide)
  have hnil : ∀ b ∈ ([] : Bytes), isBlank b = true := by simp
  -- the blanks behind the list belong to its last piece, those before it to its first
  have hback : ∀ s : Bytes, (splitByte 44 (s ++ w')).map trimBlank = (splitByte 44 s).map trimBlank := by
    intro s
    induction hn : s.length using Nat.strong_induction_on generalizing s with
    | _ n ih =>
      rcases exists_first_sep 44 s with hno | ⟨a, rest, ha, rfl⟩
      · have := trimBlank_padded hnil hw' s
        rw [splitByte_of_not_mem (by simp [hno, hcomma hw']), splitByte_of_not_mem hno]
        simpa using this
      · have hlt : rest.length < n := by
          rw [← hn]
          simp only [List.length_append, List.length_cons]
          omega
        rw [List.append_assoc, List.cons_append, splitByte_append_sep ha, splitByte_append_sep ha, List.map_cons,
          ih _ hlt rest rfl, List.map_cons]
  rw [hback]
  have hpad := fun s => trimBlank_padded hw hnil s
  rcases exists_first_sep 44 s with hno | ⟨a, rest, ha, rfl⟩
  · rw [splitByte_of_not_mem (by simp [hno, hcomma hw]), splitByte_of_not_mem hno]
    simpa using hpad s
  · have ha' : 44 ∉ w ++ a := by simp [ha, hcomma hw]
    rw [← List.append_assoc, splitByte_append_sep ha', splitByte_append_sep ha]
    simpa using hpad a

theorem element_padded {w w' : Bytes} (hw : ∀ b ∈ w, isBlank b = true) (hw' : ∀ b ∈ w', isBlank b = true)
    (s t : Bytes) : Element (w ++ s ++ w') t ↔ Element s t := by
  by_cases ht : t ≠ [] ∧ t.all isToken = true
  · rw [← exists_trimmed_iff ht.1 ht.2, ← exists_trimmed_iff ht.1 ht.2]
    have hmap := map_trimBlank_padded hw hw' s
    simp only [← List.mem_map, hmap]
  · exact ⟨fun h => absurd ⟨h.1, h.2.1⟩ ht, fun h => absurd ⟨h.1, h.2.1⟩ ht⟩

theorem Piece.subset {sep : UInt8} {s p : Bytes} (h : Piece sep s p) : ∀ b ∈ p, b ∈ s := by
  obtain ⟨-, a, b, rfl, -, -⟩ := h
  intro c hc
  simp [hc]

end LbProxy.Lib
