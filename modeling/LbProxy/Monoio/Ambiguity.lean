import LbProxy.Lib.Tokens
import LbProxy.Monoio.Forward

/-!
# Ambiguous framing

* `fieldsOf` — the fields of a head, by its lines;
* `Unambiguous` — they do not contradict each other, nor the body that is relayed;
* `mem_fieldsOf_forward` — the framing fields of a forwarded head are those copied from the old one;
* `contentLengthOf_digits` — plain digits are read as what they say;
* `forward_unambiguous_iff` — when a forwarded head is unambiguous.
-/

namespace LbProxy.Monoio

open Lib LbProxy.Core

/-! ## The fields of a head -/

/-- The field of a line. -/
def fieldOf (line : Bytes) : Option (Bytes × Bytes) := (splitColon line).map fun x => (x.1, trimAscii x.2)

/-- The fields of a head, by its lines. -/
def fieldsOf (head : Bytes) : List (Bytes × Bytes) :=
  (splitHeaderLines (head.drop (headersStart head))).filterMap fieldOf

/-- One or more decimal digits, and nothing else. -/
def PlainDigits (v : Bytes) : Prop := v ≠ [] ∧ ∀ b ∈ v, isDigit b = true

/-- The framing fields of a head do not contradict each other, nor the body. -/
structure Unambiguous (head : Bytes) (body : BodyLength) : Prop where
  notBoth : ¬ ((∃ x ∈ fieldsOf head, isCoding x = true) ∧ ∃ x ∈ fieldsOf head, isLength x = true)
  lengths : ∃ n, ∀ x ∈ fieldsOf head, isLength x = true → PlainDigits x.2 ∧ digitsValue x.2 = n
  fixed : ∀ n, body = .fixed n → ∀ x ∈ fieldsOf head, isLength x = true → digitsValue x.2 = n
  coding : (∃ x ∈ fieldsOf head, isCoding x = true) → body = .chunked

theorem isAsciiWhitespace_eq_isBlank {b : UInt8} (h : isFieldByte b) : isAsciiWhitespace b = isBlank b := by
  have h10 : (b == 10) = false := by
    rw [beq_eq_false_iff_ne]
    rintro rfl
    exact absurd h (by decide)
  have h12 : (b == 12) = false := by
    rw [beq_eq_false_iff_ne]
    rintro rfl
    exact absurd h (by decide)
  have h13 : (b == 13) = false := by
    rw [beq_eq_false_iff_ne]
    rintro rfl
    exact absurd h (by decide)
  simp [isAsciiWhitespace, isBlank, h10, h12, h13]

theorem dropWhile_congr_of_mem {P Q : UInt8 → Bool} {s : Bytes} (h : ∀ b ∈ s, P b = Q b) :
    s.dropWhile P = s.dropWhile Q := by
  induction s with
  | nil => rfl
  | cons b s ih =>
    rw [List.dropWhile_cons, List.dropWhile_cons, h b List.mem_cons_self, ih fun c hc => h c (List.mem_cons_of_mem _ hc)]

theorem trimAscii_eq_trimBlank {s : Bytes} (h : ∀ b ∈ s, isFieldByte b) : trimAscii s = trimBlank s := by
  have hws : ∀ b ∈ s, isAsciiWhitespace b = isBlank b := fun b hb => isAsciiWhitespace_eq_isBlank (h b hb)
  rw [trimAscii, trimBlank, dropWhile_congr_of_mem hws, List.rdropWhile, List.rdropWhile, dropWhile_congr_of_mem]
  intro b hb
  exact hws b ((List.dropWhile_suffix _).subset (List.mem_reverse.mp hb))

theorem trimAscii_value {f : FieldLayout} (hwf : f.WF) : trimAscii (f.before ++ f.value ++ f.after) = f.value := by
  have hbytes : ∀ b ∈ f.before ++ f.value ++ f.after, isFieldByte b := by
    intro b hb
    refine isFieldByte_of_mem_fieldLine hwf (b := b) ?_
    rw [FieldLayout.line]
    exact List.mem_append_right _ (List.mem_cons_of_mem _ hb)
  have htrim := trimBlanks_eq hwf.before_blank hwf.after_blank hwf.value_head hwf.value_last hwf.after_nil
  rw [trimAscii_eq_trimBlank hbytes]
  exact congrArg (fun x => x.2.1) htrim

theorem fieldOf_fieldLine {f : FieldLayout} (hwf : f.WF) : fieldOf f.line = some f.field := by
  rw [fieldOf, splitColon_fieldLine hwf, Option.map_some, trimAscii_value hwf]
  rfl

theorem filterMap_fieldOf {fs : List FieldLayout} (h : ∀ f ∈ fs, f.WF) :
    (fs.map FieldLayout.line).filterMap fieldOf = fs.map FieldLayout.field := by
  rw [List.filterMap_map, ← List.filterMap_eq_map]
  exact List.filterMap_congr fun f hf => fieldOf_fieldLine (h f hf)

/-! ## The fields of a forwarded head -/

theorem fieldOf_name {f : FieldLayout} (hname : 58 ∉ f.name) : ∃ v, fieldOf f.line = some (f.name, v) := by
  rw [fieldOf, splitColon, FieldLayout.line, findByte_append hname]
  exact ⟨_, by simp; rfl⟩

theorem fieldOf_line {l : RequestLayout} (hwf : l.WF) {x : Bytes × Bytes} (h : fieldOf l.line = some x) :
    32 ∈ x.1 := by
  have hm : (58 : UInt8) ∉ l.method ++ [32] := by
    intro hmem
    rcases List.mem_append.mp hmem with hmem | hmem
    · exact absurd (hwf.method_token 58 hmem) (by decide)
    · exact absurd hmem (by decide)
  obtain ⟨y, hy, rfl⟩ := Option.map_eq_some_iff.mp h
  obtain ⟨colon, hcolon, rfl⟩ := Option.map_eq_some_iff.mp hy
  obtain ⟨hi, hcol, -⟩ := List.findIdx?_eq_some_iff_getElem.mp hcolon
  have hline : l.line = (l.method ++ [32]) ++ (l.target ++ 32 :: versionBytes l.minor) := by
    simp [RequestLayout.line]
  -- the colon stands behind the space
  have hle : (l.method ++ [32]).length ≤ colon := by
    by_contra hlt
    have hmem : l.line[colon] ∈ l.method ++ [32] := by
      simp only [hline]
      rw [List.getElem_append_left (by omega)]
      exact List.getElem_mem _
    rw [beq_iff_eq.mp hcol] at hmem
    exact hm hmem
  have hpre : l.method ++ [32] <+: l.line.take colon := by
    rw [List.prefix_take_iff]
    exact ⟨hline ▸ List.prefix_append _ _, hle⟩
  exact hpre.subset (by simp)

theorem space_mem_of_copiedStray {l : RequestLayout} (hwf : l.WF) {x : Bytes × Bytes}
    (hx : x ∈ (copiedStray l).filterMap fieldOf) : 32 ∈ x.1 ∧ 32 ∈ lowercase x.1 := by
  obtain ⟨line, hline, hfield⟩ := List.mem_filterMap.mp hx
  rw [mem_copiedStray hline] at hfield
  have hspace := fieldOf_line hwf hfield
  have hlower : toLower 32 ∈ lowercase x.1 := List.mem_map_of_mem hspace
  exact ⟨hspace, hlower⟩

/-- The lines of a forwarded head. -/
def forwardLines (l : RequestLayout) (target host : Bytes) (peer : Option PeerAddr) : List (Bytes × Eol) :=
  (l.method ++ 32 :: (target ++ 32 :: versionBytes 1), .crlf) ::
    ((copiedStray l).map (fun line => (line, .crlf)) ++
      ((forwardedFields l ++ addedFields l host peer).map (fun f => (f.line, f.eol)) ++ [([], .crlf)]))

theorem writeForwardHead_eq_renderLines {l : RequestLayout} (hwf : l.WF) (f : Framing) (pos : ℕ)
    (rest target host : Bytes) (peer : Option PeerAddr) :
    writeForwardHead (l.render ++ rest) (headOf l f pos) target host peer =
      renderLines (forwardLines l target host peer) := by
  have hstray : renderLines ((copiedStray l).map fun line => (line, .crlf)) =
      (copiedStray l).flatMap (· ++ [13, 10]) := by
    simp only [renderLines, List.flatMap_map]
    rfl
  rw [writeForwardHead_eq hwf]
  simp only [forwardLines, renderLines_cons, renderLines_append, renderLines_fields, hstray, renderLines_nil,
    List.append_assoc, List.cons_append, List.nil_append, List.append_nil]

section Forwarded

variable {l : RequestLayout} (hwf : l.WF) {target host : Bytes} (htarget : ∀ b ∈ target, isLineByte b)
  (hhost : ∀ b ∈ host, isLineByte b) (peer : Option PeerAddr)
include hwf

include hhost in
theorem isLineByte_of_mem_addedFields {f : FieldLayout} (hf : f ∈ addedFields l host peer) :
    ∀ b ∈ f.line, isLineByte b := by
  have hplain : ∀ name value : Bytes, (∀ b ∈ name, isLineByte b) → (∀ b ∈ value, isLineByte b) →
      ∀ b ∈ (⟨name, [32], value, [], .crlf⟩ : FieldLayout).line, isLineByte b := by
    intro name value hname hvalue b hb
    simp only [FieldLayout.line, List.append_nil, List.mem_append, List.mem_cons, List.not_mem_nil, or_false] at hb
    rcases hb with hb | rfl | rfl | hb
    · exact hname b hb
    · decide
    · decide
    · exact hvalue b hb
  simp only [addedFields, List.mem_cons, List.mem_append, List.not_mem_nil, or_false] at hf
  rcases hf with rfl | hf | rfl
  · exact hplain _ _ (List.all_eq_true.mp (by decide)) hhost
  · cases peer with
    | none => simp at hf
    | some ip =>
      simp only [List.mem_cons, List.not_mem_nil, or_false] at hf
      subst hf
      refine hplain _ _ (List.all_eq_true.mp (by decide)) fun b hb => ?_
      rcases List.mem_append.mp hb with hb | hb
      · cases hx : existingXff l with
        | none => simp [hx] at hb
        | some prev =>
          simp only [hx, List.mem_append] at hb
          rcases hb with hb | hb
          · exact isLineByte_of_isFieldByte ((existingXff_bytes hwf hx).1 b hb)
          · have hsep : (ascii ", ").all isLineByte = true := by decide
            exact List.all_eq_true.mp hsep b hb
      · exact isLineByte_of_isFieldByte (peer_bytes ip b hb).1
  · exact hplain _ _ (List.all_eq_true.mp (by decide)) (List.all_eq_true.mp (by decide))

include htarget hhost in
theorem isLineByte_of_mem_forwardLines : ∀ x ∈ forwardLines l target host peer, ∀ b ∈ x.1, isLineByte b := by
  intro x hx b hb
  simp only [forwardLines, List.mem_cons, List.mem_append, List.mem_map, List.not_mem_nil, or_false] at hx
  rcases hx with rfl | ⟨line, hline, rfl⟩ | ⟨f, hf, rfl⟩ | rfl
  · simp only [List.mem_append, List.mem_cons] at hb
    rcases hb with hb | rfl | hb | rfl | hb
    · exact isLineByte_of_isFieldByte (isFieldByte_of_isToken (hwf.method_token b hb))
    · decide
    · exact htarget b hb
    · decide
    · exact isLineByte_of_isFieldByte (isFieldByte_of_mem_version hb)
  · rw [mem_copiedStray hline] at hb
    exact isLineByte_of_isFieldByte (isFieldByte_of_mem_line hwf hb)
  · rcases hf with hf | hf
    · exact isLineByte_of_isFieldByte (isFieldByte_of_mem_fieldLine (forwardedFields_wf hwf f hf) hb)
    · exact isLineByte_of_mem_addedFields hwf hhost peer hf b hb
  · simp at hb

include htarget hhost in
theorem fieldsOf_forward (f : Framing) (pos : ℕ) (rest : Bytes) :
    fieldsOf (writeForwardHead (l.render ++ rest) (headOf l f pos) target host peer) =
      (copiedStray l).filterMap fieldOf ++ ((forwardedFields l).map FieldLayout.field ++
        ((addedFields l host peer).map FieldLayout.line).filterMap fieldOf) := by
  have hbytes := isLineByte_of_mem_forwardLines hwf htarget hhost peer
  have hstray : lineTexts ((copiedStray l).map fun line => (line, Eol.crlf)) = copiedStray l := by
    rw [lineTexts, List.map_map, List.filter_eq_self.mpr]
    · exact List.map_id _
    · intro line hline
      obtain ⟨line, hmem, rfl⟩ := List.mem_map.mp hline
      simpa [mem_copiedStray hmem] using line_ne_nil hwf
  have hfields := filterMap_fieldOf (forwardedFields_wf hwf)
  rw [fieldsOf, writeForwardHead_eq_renderLines hwf, drop_headersStart hbytes, splitHeaderLines_renderLines]
  · show (lineTexts (((forwardLines l target host peer).dropWhile endsInLf).drop 1)).filterMap fieldOf = _
    simp only [forwardLines, List.dropWhile_cons, show endsInLf (_, Eol.crlf) = false from rfl]
    simp [hstray, hfields]
  · intro x hx
    exact hbytes x ((List.dropWhile_suffix _).subset ((List.drop_suffix 1 _).subset hx))

omit hwf in
theorem name_addedFields {f : FieldLayout} (hf : f ∈ addedFields l host peer) :
    f.name ∈ [ascii "Host", ascii "X-Forwarded-For", ascii "X-Forwarded-Proto"] := by
  simp only [addedFields, List.mem_cons, List.mem_append, List.not_mem_nil, or_false] at hf
  rcases hf with rfl | hf | rfl
  · simp
  · cases peer with
    | none => simp at hf
    | some ip =>
      simp only [List.mem_cons, List.not_mem_nil, or_false] at hf
      subst hf
      simp
  · simp

include htarget hhost in
/-- **The framing fields of a forwarded head are copied ones**: those in the header block whose name is not
nominated. -/
theorem mem_fieldsOf_forward (f : Framing) (pos : ℕ) (rest : Bytes) {n : Bytes} (hlow : lowercase n = n)
    (hhop : HOP_BY_HOP.any (· == n) = false) (hspace : 32 ∉ n)
    (hadded : n ∉ [ascii "host", ascii "x-forwarded-for", ascii "x-forwarded-proto"]) (x : Bytes × Bytes) :
    (x ∈ fieldsOf (writeForwardHead (l.render ++ rest) (headOf l f pos) target host peer) ∧ named n x = true) ↔
      n ∉ nominatedNames l ∧ named n x = true ∧ ∃ g ∈ visibleFields l, g.field = x := by
  simp only [List.mem_cons, List.not_mem_nil, or_false, not_or] at hadded
  rw [fieldsOf_forward hwf htarget hhost peer]
  have htoken : ∀ g ∈ visibleFields l, ∀ b ∈ g.field.1, isToken b := fun g hg =>
    (hwf.fields_wf g ((visibleFields_suffix l).subset hg)).name_token
  constructor
  · rintro ⟨hx, hn⟩
    simp only [named, eqIgnoreAsciiCase, beq_iff_eq, hlow] at hn
    rcases List.mem_append.mp hx with hx | hx
    · -- the request line has a space in its name
      exact absurd (hn ▸ (space_mem_of_copiedStray hwf hx).2) hspace
    rcases List.mem_append.mp hx with hx | hx
    · rw [map_field_forwardedFields] at hx
      obtain ⟨hx, hkeep⟩ := List.mem_filter.mp hx
      obtain ⟨g, hg, rfl⟩ := List.mem_map.mp hx
      have hname : named n g.field = true := by simp [named, eqIgnoreAsciiCase, hn, hlow]
      exact ⟨(keepsField_iff hlow hhop hadded.1 hadded.2.1 (htoken g hg) hname).mp hkeep, hname, g, hg, rfl⟩
    · -- the added fields have other names
      obtain ⟨line, hline, hfield⟩ := List.mem_filterMap.mp hx
      obtain ⟨g, hg, rfl⟩ := List.mem_map.mp hline
      have hname := name_addedFields peer hg
      have hcolon : (58 : UInt8) ∉ g.name := by
        have hall : ∀ m ∈ [ascii "Host", ascii "X-Forwarded-For", ascii "X-Forwarded-Proto"], (58 : UInt8) ∉ m := by
          decide
        exact hall _ hname
      obtain ⟨v, hv⟩ := fieldOf_name hcolon
      rw [hv] at hfield
      obtain rfl := Option.some.inj hfield
      simp only [List.mem_cons, List.not_mem_nil, or_false] at hname
      rw [← hn] at hadded
      rcases hname with h | h | h <;> rw [h] at hadded
      · exact absurd rfl hadded.1
      · exact absurd rfl hadded.2.1
      · exact absurd rfl hadded.2.2
  · rintro ⟨hnom, hn, g, hg, rfl⟩
    refine ⟨List.mem_append_right _ (List.mem_append_left _ ?_), hn⟩
    rw [map_field_forwardedFields]
    exact List.mem_filter.mpr ⟨List.mem_map_of_mem hg,
      (keepsField_iff hlow hhop hadded.1 hadded.2.1 (htoken g hg) hn).mpr hnom⟩

include htarget hhost in
/-- A forwarded head has a field of this name exactly if one reaches it. -/
theorem reaches_forward (f : Framing) (pos : ℕ) (rest : Bytes) {n : Bytes} (hlow : lowercase n = n)
    (hhop : HOP_BY_HOP.any (· == n) = false) (hspace : 32 ∉ n)
    (hadded : n ∉ [ascii "host", ascii "x-forwarded-for", ascii "x-forwarded-proto"]) :
    (∃ x ∈ fieldsOf (writeForwardHead (l.render ++ rest) (headOf l f pos) target host peer), named n x = true) ↔
      Reaches l n (named n) := by
  have hmem := mem_fieldsOf_forward hwf htarget hhost peer f pos rest hlow hhop hspace hadded
  constructor
  · rintro ⟨x, hx, hn⟩
    obtain ⟨hnom, -, g, hg, rfl⟩ := (hmem x).mp ⟨hx, hn⟩
    exact ⟨hnom, g, hg, hn⟩
  · rintro ⟨hnom, g, hg, hn⟩
    exact ⟨g.field, (hmem g.field).mpr ⟨hnom, hn, g, hg, rfl⟩⟩

end Forwarded

/-! ## Plain lengths -/

theorem trim_digits {v : Bytes} (h : ∀ b ∈ v, isDigit b = true) : trim v = v := by
  have hws : ∀ w ∈ whiteSpace, ∃ b ∈ w.head?, isDigit b = false := by decide
  have hws' : ∀ w ∈ whiteSpace, ∃ b ∈ w.getLast?, isDigit b = false := by decide
  have hstart : ∀ n, trimStartWs n v = v := by
    intro n
    cases n with
    | zero => rfl
    | succ n =>
      have hnone : whiteSpace.find? (·.isPrefixOf v) = none := by
        rw [List.find?_eq_none]
        intro w hw hpre
        obtain ⟨b, hb, hdigit⟩ := hws w hw
        have := h b ((List.isPrefixOf_iff_prefix.mp hpre).subset (List.mem_of_mem_head? hb))
        rw [this] at hdigit
        cases hdigit
      simp only [trimStartWs, hnone]
  have hend : ∀ n, trimEndWs n v = v := by
    intro n
    cases n with
    | zero => rfl
    | succ n =>
      have hnone : whiteSpace.find? (·.isSuffixOf v) = none := by
        rw [List.find?_eq_none]
        intro w hw hsuf
        obtain ⟨b, hb, hdigit⟩ := hws' w hw
        have := h b ((List.isSuffixOf_iff_suffix.mp hsuf).subset (List.mem_of_getLast? hb))
        rw [this] at hdigit
        cases hdigit
      simp only [trimEndWs, hnone]
  rw [trim, hstart]
  exact hend _

/-- **Plain digits are read as what they say.** -/
theorem contentLengthOf_digits {v : Bytes} (h : PlainDigits v) {n : ℕ} (hn : contentLengthOf v = some n) :
    digitsValue v = n := by
  obtain ⟨t, ht, hparse⟩ := Option.bind_eq_some_iff.mp hn
  have hv : t = v := by
    unfold validateUtf8 at ht
    split at ht
    · exact (Option.some.inj ht).symm
    · cases ht
  have hplus : v.head? ≠ some 43 := by
    intro hhead
    exact absurd (h.2 43 (List.mem_of_mem_head? hhead)) (by decide)
  rw [hv, trim_digits h.2, parseU64] at hparse
  simp only [if_neg hplus] at hparse
  split at hparse
  · exact Option.some.inj hparse
  · cases hparse

/-! ## The equivalence -/

/-- The framing fields that reach the new head do not contradict each other, and a transfer coding reaches it only
if the last readable one of the head is chunked. -/
structure ClearFraming (l : RequestLayout) : Prop where
  notBoth : ¬ (Reaches l (ascii "transfer-encoding") isCoding ∧ Reaches l (ascii "content-length") isLength)
  lengths : ascii "content-length" ∉ nominatedNames l →
    ∃ n, ∀ g ∈ visibleFields l, isLength g.field = true → PlainDigits g.value ∧ digitsValue g.value = n
  coding : Reaches l (ascii "transfer-encoding") isCoding →
    ∃ h, lastOf isReadableCoding (reported l) = some h ∧ endsInChunked h.2 = true

theorem requestBody_eq_chunked {f : Framing} : requestBody f = .chunked ↔ f.chunked = true := by
  unfold requestBody
  cases hc : f.chunked with
  | true => simp
  | false =>
    rw [if_neg (by decide)]
    split <;> simp

theorem requestBody_eq_fixed {f : Framing} {n : ℕ} (h : requestBody f = .fixed n) : f.contentLength = some n := by
  unfold requestBody at h
  split at h
  · cases h
  · split at h
    · cases h
    · cases h
    · rename_i hn
      rw [hn, BodyLength.fixed.inj h]

/-- **A forwarded head is unambiguous exactly if the framing fields that reach it are.** -/
theorem forward_unambiguous_iff {hp : HeadParser} (hl : hp.Laws) {buf : Bytes} {h : RequestHead}
    (hparse : parseRequest hp buf = .complete h) :
    (∃ (l : RequestLayout) (rest : Bytes), l.WF ∧ l.fields.length ≤ MAX_HEADERS ∧ buf = l.render ++ rest) ∧
    ∀ (l : RequestLayout) (rest : Bytes), l.WF → l.fields.length ≤ MAX_HEADERS → buf = l.render ++ rest →
      ∀ (target host : Bytes) (peer : Option PeerAddr), (∀ b ∈ target, isLineByte b) → (∀ b ∈ host, isLineByte b) →
        (Unambiguous (writeForwardHead buf h target host peer) h.body ↔ ClearFraming l) := by
  refine ⟨?_, ?_⟩
  · obtain ⟨l, rest, -, -, hwf, hlen, hbuf, -⟩ := parseRequest_complete hl hparse
    exact ⟨l, rest, hwf, hlen, hbuf⟩
  rintro l rest hwf hlen rfl target host peer htarget hhost
  obtain ⟨f, pos, hf, -, rfl⟩ := parseRequest_layout hl hwf hlen hparse
  have hreads := framingOf_reads hf
  have hmemL := mem_fieldsOf_forward hwf htarget hhost peer f pos rest (n := ascii "content-length") (by decide)
    (by decide) (by decide) (by decide)
  have hlenReach := reaches_forward hwf htarget hhost peer f pos rest (n := ascii "content-length") (by decide)
    (by decide) (by decide) (by decide)
  have hcodReach := reaches_forward hwf htarget hhost peer f pos rest (n := ascii "transfer-encoding") (by decide)
    (by decide) (by decide) (by decide)
  have hchunked : (headOf l f pos).body = .chunked ↔
      ∃ h, lastOf isReadableCoding (reported l) = some h ∧ endsInChunked h.2 = true := by
    show requestBody f = .chunked ↔ _
    rw [requestBody_eq_chunked, hreads.chunked]
    show (lastOf isReadableCoding (reported l)).elim false _ = true ↔ _
    cases lastOf isReadableCoding (reported l) <;> simp
  constructor
  · rintro ⟨hboth, ⟨n, hlens⟩, -, hcod⟩
    refine ⟨fun h => hboth ⟨hcodReach.mpr h.1, hlenReach.mpr h.2⟩, fun hnom => ⟨n, fun g hg hn => ?_⟩,
      fun h => hchunked.mp (hcod (hcodReach.mpr h))⟩
    exact hlens g.field ((hmemL g.field).mpr ⟨hnom, hn, g, hg, rfl⟩).1 hn
  · rintro ⟨hboth, hlens, hcod⟩
    refine ⟨fun h => hboth ⟨hcodReach.mp h.1, hlenReach.mp h.2⟩, ?_, ?_,
      fun h => hchunked.mpr (hcod (hcodReach.mp h))⟩
    · by_cases hnom : ascii "content-length" ∈ nominatedNames l
      · exact ⟨0, fun x hx hn => absurd hnom ((hmemL x).mp ⟨hx, hn⟩).1⟩
      · obtain ⟨n, hall⟩ := hlens hnom
        refine ⟨n, fun x hx hn => ?_⟩
        obtain ⟨-, -, g, hg, rfl⟩ := (hmemL x).mp ⟨hx, hn⟩
        exact hall g hg hn
    · intro n hbody x hx hn
      obtain ⟨hnom, -, g, hg, rfl⟩ := (hmemL x).mp ⟨hx, hn⟩
      obtain ⟨m, hall⟩ := hlens hnom
      -- the last length of the header block is the last one of the head
      have hlast : lastOf isLength ((visibleFields l).map FieldLayout.field) = lastOf isLength (reported l) :=
        lastOf_suffix ((visibleFields_suffix l).map _) ⟨g.field, List.mem_map_of_mem hg, hn⟩
      have hcl := hreads.contentLength
      rw [requestBody_eq_fixed hbody] at hcl
      change some n = (lastOf isLength (reported l)).elim none _ at hcl
      rw [← hlast] at hcl
      cases hl' : lastOf isLength ((visibleFields l).map FieldLayout.field) with
      | none =>
        rw [hl'] at hcl
        cases hcl
      | some y =>
        rw [hl'] at hcl
        obtain ⟨hy, hyn⟩ := lastOf_eq_some hl'
        obtain ⟨g', hg', rfl⟩ := List.mem_map.mp hy
        have hlast' := hall g' hg' hyn
        show digitsValue g.value = n
        rw [(hall g hg hn).2, ← hlast'.2]
        exact contentLengthOf_digits hlast'.1 hcl.symm

theorem forward_unambiguous_upload :
    Unambiguous (writeForwardHead (sampleUploadLayout.render ++ ascii "hi")
      ⟨71, ascii "POST", ascii "/a", none, .fixed 2, false, (5, 7)⟩ (ascii "/a") (ascii "10.0.0.1:80") none)
      (.fixed 2) := by
  refine ((forward_unambiguous_iff HeadParser.reference_laws
    (h := ⟨71, ascii "POST", ascii "/a", none, .fixed 2, false, (5, 7)⟩) (by decide +kernel)).2 sampleUploadLayout
    (ascii "hi") sampleUploadLayout_wf (by decide) rfl _ _ _ (List.all_eq_true.mp (by decide))
    (List.all_eq_true.mp (by decide))).mpr ⟨?_, ?_, ?_⟩
  · rintro ⟨⟨-, f, hf, hcod⟩, -⟩
    revert f
    decide
  · intro _
    have hall : ∀ g ∈ visibleFields sampleUploadLayout, isLength g.field = true → g.value = ascii "2" := by decide
    refine ⟨2, fun g hg hn => ?_⟩
    rw [hall g hg hn]
    exact ⟨⟨by decide, List.all_eq_true.mp (by decide)⟩, by decide⟩
  · rintro ⟨-, f, hf, hcod⟩
    exfalso
    revert f
    decide

/-- A request with both kinds of framing. -/
def sampleBoth : Bytes :=
  ascii "POST /a HTTP/1.1\r\nContent-Length: 5\r\nTransfer-Encoding: chunked\r\n\r\n"

/-- Both fields are forwarded. -/
theorem both_framings_forwarded :
    parseRequest .reference sampleBoth =
        .complete ⟨67, ascii "POST", ascii "/a", none, .chunked, false, (5, 7)⟩ ∧
      ¬ Unambiguous (writeForwardHead sampleBoth ⟨67, ascii "POST", ascii "/a", none, .chunked, false, (5, 7)⟩
        (ascii "/a") (ascii "10.0.0.1:80") none) .chunked := by
  refine ⟨by decide +kernel, fun h => h.notBoth ⟨⟨(ascii "Transfer-Encoding", ascii "chunked"), ?_, by decide⟩,
    (ascii "Content-Length", ascii "5"), ?_, by decide⟩⟩
  · decide +kernel
  · decide +kernel

end LbProxy.Monoio
