import LbProxy.Core.HopByHop
import LbProxy.Monoio.Values

/-!
# Hop-by-hop hygiene on raw lines

The data plane nominates and drops headers on the bytes of their lines, the others on a header map.

* `nominatedLine`, `mem_nominatedLine_iff` — the names that a line nominates are the ones that its value lists;
* `mem_flatMap_nominatedLine_iff` — so it is for a list of lines;
* `excludes_iff` — the fields that are dropped;
* `drops_alike_iff` — when both implementations drop the same fields.
-/

namespace LbProxy.Monoio

open Lib LbProxy.Core

/-! ## Tokens in lower case -/

theorem isToken_toLower (b : UInt8) : isToken (toLower b) = isToken b := by
  unfold toLower
  split
  · rename_i h
    have hb : isToken b = true := by simp [isToken, h.1, h.2]
    have hlow : isToken (b + 32) = true := by
      simp only [UInt8.le_iff_toNat_le, UInt8.toNat_ofNat] at h
      have hadd : (b + 32).toNat = b.toNat + 32 := by
        rw [UInt8.toNat_add]
        simp only [UInt8.toNat_ofNat] at *
        omega
      simp only [isToken, Bool.or_eq_true, Bool.and_eq_true, decide_eq_true_eq, UInt8.le_iff_toNat_le, hadd]
      left; right
      simp only [UInt8.toNat_ofNat] at *
      omega
    rw [hb, hlow]
  · rfl

theorem all_isToken_lowercase (s : Bytes) : (lowercase s).all isToken = s.all isToken := by
  rw [lowercase, List.all_map]
  congr 1
  funext b
  exact isToken_toLower b

/-! ## What a line nominates -/

/-- The names that one line nominates. -/
def nominatedLine (line : Bytes) : List Bytes :=
  match splitColon line with
  | some (name, value) => if eqCi name (ascii "connection") then (nominatedTokens value).map lowercase else []
  | none => []

theorem connectionNominated_eq (block : Bytes) :
    connectionNominated block = (splitHeaderLines block).flatMap nominatedLine := rfl

/-- Among the names that a value nominates, those that a field can have are the ones that it lists. -/
theorem mem_nominatedTokens_iff {value : Bytes} (hbytes : ∀ b ∈ value, isFieldByte b) {n : Bytes} (hne : n ≠ [])
    (htoken : n.all isToken = true) :
    n ∈ (nominatedTokens value).map lowercase ↔ Listed [value] n := by
  have htrim : ∀ p ∈ splitByte 44 value, trimAscii p = trimBlank p := fun p hp =>
    trimAscii_eq_trimBlank fun b hb => hbytes b (((mem_splitByte_iff 44 value p).mp hp).subset b hb)
  have hvalid : ∀ t, lowercase t = n → t ≠ [] ∧ t.all isToken = true := by
    rintro t rfl
    refine ⟨?_, by rwa [← all_isToken_lowercase]⟩
    rintro rfl
    exact hne rfl
  have heq : ∀ {t m : Bytes}, lowercase t = n → lowercase m = m → (eqCi t m = false ↔ n ≠ m) := by
    intro t m ht hm
    rw [eqCi_of_token (List.all_eq_true.mp (hvalid t ht).2), eqIgnoreAsciiCase, ht, hm, beq_eq_false_iff_ne]
  simp only [nominatedTokens, List.mem_map, List.mem_filter, Listed, List.mem_singleton, exists_eq_left, Bool.and_eq_true,
    Bool.not_eq_true', decide_eq_true_eq]
  constructor
  · rintro ⟨t, ⟨⟨p, hp, rfl⟩, ⟨-, hc⟩, hk⟩, hlow⟩
    obtain ⟨htne, httok⟩ := hvalid _ hlow
    refine ⟨trimAscii p, ?_, hlow.symm, (heq hlow (by decide)).mp hc, (heq hlow (by decide)).mp hk⟩
    exact (exists_trimmed_iff htne httok).mp ⟨p, hp, (htrim p hp).symm⟩
  · rintro ⟨t, helem, hlow, hc, hk⟩
    obtain ⟨p, hp, ht⟩ := (exists_trimmed_iff helem.1 helem.2.1).mpr helem
    refine ⟨t, ⟨⟨p, hp, (htrim p hp).trans ht⟩, ⟨helem.1, ?_⟩, ?_⟩, hlow.symm⟩
    · exact (heq hlow.symm (by decide)).mpr hc
    · exact (heq hlow.symm (by decide)).mpr hk

theorem listed_singleton_padded {w w' : Bytes} (hw : ∀ b ∈ w, isBlank b) (hw' : ∀ b ∈ w', isBlank b) (value n : Bytes) :
    Listed [w ++ value ++ w'] n ↔ Listed [value] n := by
  simp only [Listed, List.mem_singleton, exists_eq_left, element_padded hw hw']

theorem listed_trimAscii {value : Bytes} (hbytes : ∀ b ∈ value, isFieldByte b) (n : Bytes) :
    Listed [trimAscii value] n ↔ Listed [value] n := by
  have hsplit : value = value.takeWhile isBlank ++ trimBlank value ++ (value.dropWhile isBlank).rtakeWhile isBlank := by
    rw [trimBlank, List.append_assoc, List.rdropWhile_append_rtakeWhile, List.takeWhile_append_dropWhile]
  have hfront : ∀ b ∈ value.takeWhile isBlank, isBlank b := fun b hb => List.mem_takeWhile_imp hb
  have hback : ∀ b ∈ (value.dropWhile isBlank).rtakeWhile isBlank, isBlank b := fun b hb => List.mem_rtakeWhile_imp hb
  rw [trimAscii_eq_trimBlank hbytes]
  conv_rhs => rw [hsplit]
  exact (listed_singleton_padded hfront hback _ _).symm

theorem mem_nominatedLine_iff {line : Bytes} (hbytes : ∀ b ∈ line, isFieldByte b) {n : Bytes} (hne : n ≠ [])
    (htoken : n.all isToken = true) :
    n ∈ nominatedLine line ↔ ∃ x, readField line = some x ∧ lowercase x.1 = CONNECTION ∧ Listed [x.2] n := by
  cases hc : splitColon line with
  | none => simp [nominatedLine, readField, hc]
  | some x =>
    obtain ⟨name, value⟩ := x
    have hvalue : ∀ b ∈ value, isFieldByte b := by
      obtain ⟨colon, -, hx⟩ := Option.map_eq_some_iff.mp hc
      obtain ⟨-, rfl⟩ := Prod.mk.inj hx
      exact fun b hb => hbytes b (List.mem_of_mem_drop hb)
    have hconn : eqCi name (ascii "connection") = true ↔ lowercase (trimAscii name) = CONNECTION := by
      rw [eqCi, eqIgnoreAsciiCase, beq_iff_eq]
      rfl
    have hread : readField line = some (trimAscii name, trimAscii value) := by rw [readField, hc]; rfl
    simp only [hread, Option.some.injEq, exists_eq_left', listed_trimAscii hvalue]
    rw [nominatedLine, hc]
    by_cases hname : lowercase (trimAscii name) = CONNECTION
    · simp only [hconn.mpr hname, if_true, hname, true_and]
      exact mem_nominatedTokens_iff hvalue hne htoken
    · simp [hconn, hname]

/-- **The names that lines nominate are the ones that their `Connection` values list.** -/
theorem mem_flatMap_nominatedLine_iff {lines : List Bytes} (hbytes : ∀ line ∈ lines, ∀ b ∈ line, isFieldByte b)
    {n : Bytes} (hne : n ≠ []) (htoken : n.all isToken = true) :
    n ∈ lines.flatMap nominatedLine ↔ Listed (valuesOf (lines.filterMap readField) CONNECTION) n := by
  induction lines with
  | nil => simp [Listed]
  | cons line lines ih =>
    have ih := ih fun line hline => hbytes line (List.mem_cons_of_mem _ hline)
    have hline := mem_nominatedLine_iff (hbytes line List.mem_cons_self) hne htoken
    rw [List.flatMap_cons, List.mem_append, ih, hline]
    cases hread : readField line with
    | none => simp [hread]
    | some x =>
      rw [List.filterMap_cons_some hread, valuesOf_cons, listed_append]
      by_cases hc : lowercase x.1 = CONNECTION
      · simp [hc]
      · simp [hc, Listed]

theorem splitHeaderLines_fields {fields : List FieldLayout} (hwf : ∀ f ∈ fields, f.WF) (last : Eol) :
    splitHeaderLines (renderFields fields ++ last.bytes) = fields.map FieldLayout.line := by
  have hbytes : ∀ x ∈ fields.map (fun f => (f.line, f.eol)) ++ [([], last)], ∀ b ∈ x.1, isLineByte b := by
    intro x hx b hb
    simp only [List.mem_append, List.mem_map, List.mem_singleton] at hx
    rcases hx with ⟨f, hf, rfl⟩ | rfl
    · exact isLineByte_of_isFieldByte (isFieldByte_of_mem_fieldLine (hwf f hf) hb)
    · simp at hb
  have hrender : renderFields fields ++ last.bytes =
      renderLines (fields.map (fun f => (f.line, f.eol)) ++ [([], last)]) := by simp
  rw [hrender, splitHeaderLines_renderLines hbytes]
  show lineTexts _ = _
  simp

/-! ## The fields that are dropped -/

/-- The field is dropped for being hop-by-hop, by the lines of the block. -/
def excludes (block name : Bytes) : Bool := isHopByHop name || (connectionNominated block).any (eqCi name)

/-- The values of the `Connection` fields of a header list. -/
def connectionValues (fields : List FieldLayout) : List Bytes := valuesOf (fields.map FieldLayout.field) CONNECTION

/-- The value has a byte that is not ASCII. -/
def hasObsText (value : Bytes) : Bool := value.any (128 ≤ ·)

section Drops

variable {fields : List FieldLayout} (hwf : ∀ f ∈ fields, f.WF)
include hwf

theorem lowercase_name_ne {f : FieldLayout} (hf : f ∈ fields) : lowercase f.name ≠ [] := by
  simpa [lowercase] using (hwf f hf).name_ne

theorem lowercase_name_token {f : FieldLayout} (hf : f ∈ fields) : (lowercase f.name).all isToken = true := by
  rw [all_isToken_lowercase]
  exact List.all_eq_true.mpr (hwf f hf).name_token

theorem excludes_iff (last : Eol) {f : FieldLayout} (hf : f ∈ fields) :
    excludes (renderFields fields ++ last.bytes) f.name = true ↔
      lowercase f.name = CONNECTION ∨ lowercase f.name ∈ Core.HOP_BY_HOP ∨
        Listed (connectionValues fields) (lowercase f.name) := by
  have htoken := (hwf f hf).name_token
  have hbytes : ∀ line ∈ fields.map FieldLayout.line, ∀ b ∈ line, isFieldByte b := by
    intro line hline b hb
    obtain ⟨g, hg, rfl⟩ := List.mem_map.mp hline
    exact isFieldByte_of_mem_fieldLine (hwf g hg) hb
  rw [excludes, Bool.or_eq_true, isHopByHop_iff htoken, any_eqCi_iff (fun m hm => lowercase_connectionNominated hm) htoken,
    connectionNominated_eq, splitHeaderLines_fields hwf,
    mem_flatMap_nominatedLine_iff hbytes (lowercase_name_ne hwf hf) (lowercase_name_token hwf hf),
    filterMap_readField hwf, mem_hopByHop, or_assoc]
  rfl

omit hwf in
theorem getAll_strip_fields_iff {ht : HeaderTypes} (hl : ht.Laws) {f : FieldLayout} (hf : f ∈ fields) :
    ht.getAll (Core.stripHopByHop ht (ht.ofFields (fields.map FieldLayout.field))) (lowercase f.name) = [] ↔
      Stripped (connectionValues fields) (lowercase f.name) := by
  have hconn : ht.getAll (ht.ofFields (fields.map FieldLayout.field)) CONNECTION = connectionValues fields :=
    HeaderTypes.getAll_ofFields hl _ _
  have hvalue : f.value ∈ ht.getAll (ht.ofFields (fields.map FieldLayout.field)) (lowercase f.name) := by
    rw [HeaderTypes.getAll_ofFields hl, valuesOf]
    exact List.mem_map.mpr ⟨f.field, List.mem_filter.mpr ⟨List.mem_map_of_mem hf, by simp [FieldLayout.field]⟩, rfl⟩
  rw [← hconn]
  by_cases h : Stripped (ht.getAll (ht.ofFields (fields.map FieldLayout.field)) CONNECTION) (lowercase f.name)
  · simp only [getAll_strip_of_stripped hl h, h]
  · simp only [getAll_strip_of_not_stripped hl h, h, iff_false]
    exact List.ne_nil_of_mem hvalue

theorem filter_not_visible :
    ((connectionValues fields).filter fun v => !v.all isVisible) = (connectionValues fields).filter hasObsText := by
  have hbyte : ∀ b : UInt8, isFieldByte b = true → (!isVisible b) = decide (128 ≤ b) := by
    intro b hb
    rw [Bool.eq_iff_iff, Bool.not_eq_true', Bool.eq_false_iff]
    simp only [isFieldByte, isVisible, Bool.or_eq_true, Bool.and_eq_true, decide_eq_true_eq, beq_iff_eq, bne_iff_ne,
      UInt8.le_iff_toNat_le, ← UInt8.toNat_inj, UInt8.toNat_ofNat, ne_eq] at hb ⊢
    omega
  refine List.filter_congr fun v hv => ?_
  simp only [connectionValues, valuesOf, List.mem_map, List.mem_filter] at hv
  obtain ⟨x, ⟨⟨f, hf, rfl⟩, -⟩, rfl⟩ := hv
  rw [List.not_all_eq_any_not, hasObsText, Bool.eq_iff_iff, List.any_eq_true, List.any_eq_true]
  refine exists_congr fun b => and_congr_right fun hb => ?_
  rw [hbyte b ((hwf f hf).value_bytes b hb)]

/-- **Both implementations drop the same fields exactly if every field that a `Connection` value with a byte that is not
ASCII lists is dropped without it.** -/
theorem drops_alike_iff {ht : HeaderTypes} (hl : ht.Laws) (last : Eol) :
    (∀ f ∈ fields, excludes (renderFields fields ++ last.bytes) f.name = true ↔
      ht.getAll (Core.stripHopByHop ht (ht.ofFields (fields.map FieldLayout.field))) (lowercase f.name) = []) ↔
    ∀ f ∈ fields, Listed ((connectionValues fields).filter hasObsText) (lowercase f.name) →
      Stripped (connectionValues fields) (lowercase f.name) := by
  refine forall₂_congr fun f hf => ?_
  rw [excludes_iff hwf last hf, getAll_strip_fields_iff hl hf, Stripped, listed_iff, filter_not_visible hwf]
  tauto

end Drops

/-- A header list whose `Connection` value has a byte that is not ASCII behind the name it lists. -/
def obsTextFields : List FieldLayout :=
  [⟨ascii "Connection", [32], ascii "X-Id, " ++ [0xE9], [], .crlf⟩, ⟨ascii "X-Id", [32], ascii "7", [], .crlf⟩]

theorem obsTextFields_wf : ∀ f ∈ obsTextFields, f.WF := by decide

/-- The field is dropped on one side and kept on the other. -/
theorem obsTextFields_differ :
    (∀ f ∈ obsTextFields, f.WF) ∧
    ¬ ∀ f ∈ obsTextFields, excludes (renderFields obsTextFields ++ Eol.crlf.bytes) f.name = true ↔
      HeaderTypes.reference.getAll (Core.stripHopByHop HeaderTypes.reference
        (HeaderTypes.reference.ofFields (obsTextFields.map FieldLayout.field))) (lowercase f.name) = [] := by
  refine ⟨obsTextFields_wf, fun h => ?_⟩
  have hid := h ⟨ascii "X-Id", [32], ascii "7", [], .crlf⟩ (by decide)
  revert hid
  decide +kernel

theorem drops_alike_obsTextFields :
    (∀ f ∈ obsTextFields, f.WF) ∧
    ((∀ f ∈ obsTextFields, excludes (renderFields obsTextFields ++ Eol.crlf.bytes) f.name = true ↔
      HeaderTypes.reference.getAll (Core.stripHopByHop HeaderTypes.reference
        (HeaderTypes.reference.ofFields (obsTextFields.map FieldLayout.field))) (lowercase f.name) = []) ↔
    ∀ f ∈ obsTextFields, Listed ((connectionValues obsTextFields).filter hasObsText) (lowercase f.name) →
      Stripped (connectionValues obsTextFields) (lowercase f.name)) :=
  ⟨obsTextFields_wf, drops_alike_iff obsTextFields_wf HeaderTypes.reference_laws .crlf⟩

end LbProxy.Monoio
