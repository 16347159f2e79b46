import LbProxy.Core.Proxy
import LbProxy.Monoio.Ambiguity

/-!
# The values of a name in a forwarded head

* `readFields` — the fields of the header block;
* `existingXff_eq` — the kept `X-Forwarded-For` value is the last one among them;
* `valuesOf_forward` — the values of a name in a forwarded head.
-/

namespace LbProxy.Monoio

open Lib LbProxy.Core

/-! ## Lists of fields -/

theorem valuesOf_append (a b : List (Bytes × Bytes)) (n : Bytes) :
    valuesOf (a ++ b) n = valuesOf a n ++ valuesOf b n := by
  simp [valuesOf]

theorem valuesOf_cons (x : Bytes × Bytes) (a : List (Bytes × Bytes)) (n : Bytes) :
    valuesOf (x :: a) n = (if lowercase x.1 = n then [x.2] else []) ++ valuesOf a n := by
  by_cases h : lowercase x.1 = n <;> simp [valuesOf, h]

@[simp] theorem valuesOf_nil (n : Bytes) : valuesOf [] n = [] := rfl

theorem valuesOf_filter {keep : Bytes × Bytes → Bool} {fields : List (Bytes × Bytes)} {n : Bytes} {p : Prop}
    [Decidable p] (h : ∀ x ∈ fields, lowercase x.1 = n → (keep x = true ↔ p)) :
    valuesOf (fields.filter keep) n = if p then valuesOf fields n else [] := by
  induction fields with
  | nil => simp
  | cons x fields ih =>
    have ih := ih fun y hy => h y (List.mem_cons_of_mem _ hy)
    have hx := h x List.mem_cons_self
    rw [List.filter_cons, valuesOf_cons]
    by_cases hn : lowercase x.1 = n
    · by_cases hp : p
      · rw [if_pos ((hx hn).mpr hp), valuesOf_cons, ih, if_pos hp, if_pos hp]
      · rw [if_neg (fun hk => hp ((hx hn).mp hk)), ih, if_neg hp, if_neg hp]
    · by_cases hk : keep x = true
      · rw [if_pos hk, valuesOf_cons, ih, if_neg hn, List.nil_append, List.nil_append]
      · rw [if_neg hk, ih, if_neg hn, List.nil_append]

theorem mem_hopByHop {n : Bytes} : n ∈ HOP_BY_HOP ↔ n = CONNECTION ∨ n ∈ Core.HOP_BY_HOP :=
  List.mem_cons

/-! ## The fields of the header block -/

/-- The field that a line of the header block is read as. -/
def readField (line : Bytes) : Option (Bytes × Bytes) := (splitColon line).map fun x => (trimAscii x.1, trimAscii x.2)

/-- The fields of the header block as they are read, the request line among them if a CRLF stands before it. -/
def readFields (l : RequestLayout) : List (Bytes × Bytes) := (splitHeaderLines (headerBlock l)).filterMap readField

theorem readField_fieldLine {f : FieldLayout} (hwf : f.WF) : readField f.line = some f.field := by
  rw [readField, splitColon_fieldLine hwf, Option.map_some, trimAscii_of_token hwf.name_token, trimAscii_value hwf]
  rfl

theorem filterMap_readField {fields : List FieldLayout} (hwf : ∀ f ∈ fields, f.WF) :
    (fields.map FieldLayout.line).filterMap readField = fields.map FieldLayout.field := by
  rw [List.filterMap_map, ← List.filterMap_eq_map]
  exact List.filterMap_congr fun f hf => readField_fieldLine (hwf f hf)

theorem readFields_eq {l : RequestLayout} (hwf : l.WF) :
    readFields l = (strayLines l).filterMap readField ++ (visibleFields l).map FieldLayout.field := by
  rw [readFields, splitHeaderLines_headerBlock hwf, List.filterMap_append,
    filterMap_readField fun f hf => hwf.fields_wf f ((visibleFields_suffix l).subset hf)]

theorem filterMap_xffOf {nominated : List Bytes} (hlow : ∀ m ∈ nominated, lowercase m = m) (lines : List Bytes) :
    lines.filterMap (xffOf nominated) =
      if FORWARDED_FOR ∈ nominated then [] else valuesOf (lines.filterMap readField) FORWARDED_FOR := by
  induction lines with
  | nil => simp
  | cons line lines ih =>
    cases hc : splitColon line with
    | none => simpa [xffOf, readField, hc] using ih
    | some x =>
      obtain ⟨name, value⟩ := x
      have hread : readField line = some (trimAscii name, trimAscii value) := by rw [readField, hc]; rfl
      have hxff : eqCi name (ascii "x-forwarded-for") = true ↔ lowercase (trimAscii name) = FORWARDED_FOR := by
        rw [eqCi, eqIgnoreAsciiCase, beq_iff_eq]
        rfl
      rw [List.filterMap_cons_some hread, valuesOf_cons]
      by_cases hname : lowercase (trimAscii name) = FORWARDED_FOR
      · have hdrops : dropsName nominated name = true ↔ FORWARDED_FOR ∈ nominated := by
          have hhop : isHopByHop name = true ↔ lowercase (trimAscii name) ∈ HOP_BY_HOP :=
            any_eqCi_iff_trim (by decide) name
          have hhost : eqCi name (ascii "host") = false := by
            rw [eqCi, eqIgnoreAsciiCase, hname]
            decide
          rw [dropsName, Bool.or_eq_true, Bool.or_eq_true, hhop, any_eqCi_iff_trim hlow, hhost, hname]
          simp [show FORWARDED_FOR ∉ HOP_BY_HOP by decide]
        by_cases hn : FORWARDED_FOR ∈ nominated
        · have hx : xffOf nominated line = none := by simp [xffOf, hc, hdrops.mpr hn]
          rw [List.filterMap_cons_none hx, ih, if_pos hn, if_pos hn]
        · have hd : dropsName nominated name = false := by rw [← Bool.not_eq_true, hdrops]; exact hn
          have hx : xffOf nominated line = some (trimAscii value) := by simp [xffOf, hc, hd, hxff.mpr hname]
          rw [List.filterMap_cons_some hx, ih, if_neg hn, if_neg hn, if_pos hname]
          rfl
      · have heq : eqCi name (ascii "x-forwarded-for") = false := by rw [← Bool.not_eq_true, hxff]; exact hname
        have hx : xffOf nominated line = none := by simp [xffOf, hc, heq]
        rw [List.filterMap_cons_none hx, ih, if_neg hname, List.nil_append]

/-- **The kept `X-Forwarded-For` value is the last one.** -/
theorem existingXff_eq (l : RequestLayout) :
    existingXff l = (forwardable (nominatedNames l) (readFields l) FORWARDED_FOR).getLast? := by
  have hhop : ¬ (FORWARDED_FOR = CONNECTION ∨ FORWARDED_FOR ∈ Core.HOP_BY_HOP) := by decide
  rw [existingXff, foldl_forwardLine_snd, Option.or_none,
    filterMap_xffOf fun m (hm : m ∈ nominatedNames l) => lowercase_connectionNominated hm]
  simp only [forwardable, readFields, ← or_assoc, hhop, false_or]

/-! ## The forwarded head -/

section Forward

variable {l : RequestLayout} (hwf : l.WF) (hblanks : l.blanks = []) (heol : l.eol = .crlf)

include hblanks in
theorem strayLines_plain : strayLines l = [] := by simp [strayLines, hblanks]

include heol in
theorem visibleFields_plain : visibleFields l = l.fields := by simp [visibleFields, heol]

include hblanks in
theorem copiedStray_plain : copiedStray l = [] := by simp [copiedStray, strayLines_plain hblanks]

include hwf hblanks heol in
theorem readFields_plain : readFields l = reported l := by
  rw [readFields_eq hwf, strayLines_plain hblanks, visibleFields_plain heol]
  rfl

include hwf in
/-- **The values of a name in a forwarded head**, if the request line is not copied as a field of that name. -/
theorem valuesOf_forward {target host : Bytes} (htarget : ∀ b ∈ target, isLineByte b) (hhost : ∀ b ∈ host, isPrintable b)
    (peer : PeerAddr) (f : Framing) (pos : ℕ) (rest : Bytes) {n : Bytes}
    (hstray : valuesOf ((copiedStray l).filterMap fieldOf) n = []) :
    valuesOf (fieldsOf (writeForwardHead (l.render ++ rest) (headOf l f pos) target host (some peer))) n =
      if n = HOST then [host]
      else if n = FORWARDED_FOR then [chainOf (existingXff l) peer]
      else if n = FORWARDED_PROTO then
        forwardable (nominatedNames l) ((visibleFields l).map FieldLayout.field) n ++ [ascii "http"]
      else forwardable (nominatedNames l) ((visibleFields l).map FieldLayout.field) n := by
  have hline : ∀ b ∈ host, isLineByte b := fun b hb => isLineByte_of_isFieldByte (printable_bytes (hhost b hb)).1
  have hadded : ((addedFields l host (some peer)).map FieldLayout.line).filterMap fieldOf =
      [(ascii "Host", host), (ascii "X-Forwarded-For", chainOf (existingXff l) peer),
        (ascii "X-Forwarded-Proto", ascii "http")] := by
    rw [filterMap_fieldOf (addedFields_wf hwf hhost (some peer))]
    rfl
  -- the copied fields keep all the values of a name, or none
  have hcopied : valuesOf ((forwardedFields l).map FieldLayout.field) n =
      if n = HOST ∨ n = FORWARDED_FOR then []
      else forwardable (nominatedNames l) ((visibleFields l).map FieldLayout.field) n := by
    have hkeep : ∀ x ∈ (visibleFields l).map FieldLayout.field, lowercase x.1 = n → (keepsField l x = true ↔
        ¬ (n = HOST ∨ n = FORWARDED_FOR ∨ n = CONNECTION ∨ n ∈ Core.HOP_BY_HOP ∨ n ∈ nominatedNames l)) := by
      intro x hx hn
      obtain ⟨g, hg, rfl⟩ := List.mem_map.mp hx
      rw [keepsField_iff_lowercase (hwf.fields_wf g ((visibleFields_suffix l).subset hg)).name_token, hn, mem_hopByHop,
        HOST, FORWARDED_FOR]
      tauto
    rw [map_field_forwardedFields, valuesOf_filter hkeep, forwardable]
    by_cases h1 : n = HOST
    · simp [h1]
    · by_cases h2 : n = FORWARDED_FOR
      · simp [h2]
      · simp only [h1, h2, false_or, ite_not, if_false]
  rw [fieldsOf_forward hwf htarget hline, hadded]
  simp only [List.nil_append, valuesOf_append, valuesOf_cons, valuesOf_nil, hstray, hcopied,
    show lowercase (ascii "Host") = HOST by decide, show lowercase (ascii "X-Forwarded-For") = FORWARDED_FOR by decide,
    show lowercase (ascii "X-Forwarded-Proto") = FORWARDED_PROTO by decide]
  by_cases h1 : n = HOST
  · subst h1
    simp [show FORWARDED_FOR ≠ HOST by decide, show FORWARDED_PROTO ≠ HOST by decide]
  · by_cases h2 : n = FORWARDED_FOR
    · subst h2
      simp [Ne.symm h1, h1, show FORWARDED_PROTO ≠ FORWARDED_FOR by decide]
    · by_cases h3 : n = FORWARDED_PROTO
      · subst h3
        simp [h1, h2, Ne.symm h1, Ne.symm h2]
      · simp [h1, h2, h3, Ne.symm h1, Ne.symm h2, Ne.symm h3]

end Forward

end LbProxy.Monoio
