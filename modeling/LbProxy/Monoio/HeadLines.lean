import LbProxy.Monoio.Heads

/-!
# The lines of a head

The writers do not use what the head parser reports of the fields; they cut the head into lines themselves.

* `renderLines` — lines with their line ends, and `headLines`, the lines of a request head;
* `drop_headersStart`, `take_headersStart` — the header block starts behind the first line that ends in CRLF;
* `splitHeaderLines_renderLines` — the lines that are found in it;
* `lineTexts_headerBlock` — so the header block of a head has all its fields if a CRLF stands before or behind
  its first line, and the first line too if it stands before it; else it starts with the field behind the first one
  that ends in CRLF.
-/

namespace LbProxy.Monoio

open Lib LbProxy.Core

/-! ## Lines -/

/-- Lines with their line ends. -/
def renderLines (ls : List (Bytes × Eol)) : Bytes := ls.flatMap fun x => x.1 ++ x.2.bytes

/-- The bytes of a line. -/
def isLineByte (b : UInt8) : Bool := b != 10 && b != 13

theorem isLineByte_of_isFieldByte {b : UInt8} (h : isFieldByte b) : isLineByte b := by
  simp only [isLineByte, Bool.and_eq_true, bne_iff_ne]
  constructor <;> rintro rfl <;> revert h <;> decide

@[simp] theorem renderLines_nil : renderLines [] = [] := rfl

@[simp] theorem renderLines_cons (x : Bytes × Eol) (ls : List (Bytes × Eol)) :
    renderLines (x :: ls) = x.1 ++ (x.2.bytes ++ renderLines ls) := by
  simp [renderLines]

@[simp] theorem renderLines_append (a b : List (Bytes × Eol)) :
    renderLines (a ++ b) = renderLines a ++ renderLines b := by
  simp [renderLines]

theorem splitHeaderLines_renderLines {ls : List (Bytes × Eol)} (h : ∀ x ∈ ls, ∀ b ∈ x.1, isLineByte b) :
    splitHeaderLines (renderLines ls) = (ls.map Prod.fst).filter (· ≠ []) := by
  induction ls with
  | nil => simp [splitHeaderLines, splitByte, stripSuffix]
  | cons x ls ih =>
    obtain ⟨line, e⟩ := x
    have hline : ∀ b ∈ line, isLineByte b := h (line, e) List.mem_cons_self
    have h10 : (10 : UInt8) ∉ line := fun hm => absurd (hline 10 hm) (by decide)
    have h13 : (13 : UInt8) ∉ line := fun hm => absurd (hline 13 hm) (by decide)
    have hstrip : stripSuffix [13] line = none := by
      rw [stripSuffix_eq_none]
      rintro ⟨t, rfl⟩
      exact h13 (by simp)
    have hcr : stripSuffix [13] (line ++ [13]) = some line := stripSuffix_eq_some.mpr rfl
    have ih := ih fun y hy => h y (List.mem_cons_of_mem _ hy)
    cases e with
    | lf =>
      have hsplit : splitByte 10 (renderLines ((line, .lf) :: ls)) = line :: splitByte 10 (renderLines ls) := by
        rw [renderLines_cons]
        exact splitByte_append_sep h10 _
      rw [splitHeaderLines, hsplit, List.map_cons, List.filter_cons, hstrip, Option.getD_none]
      rw [splitHeaderLines] at ih
      rw [ih, List.map_cons, List.filter_cons]
    | crlf =>
      have hsplit : splitByte 10 (renderLines ((line, .crlf) :: ls)) =
          (line ++ [13]) :: splitByte 10 (renderLines ls) := by
        rw [renderLines_cons]
        show splitByte 10 (line ++ ([13, 10] ++ renderLines ls)) = _
        have h10' : (10 : UInt8) ∉ line ++ [13] := by simp [h10]
        have := splitByte_append_sep h10' (renderLines ls)
        simpa using this
      rw [splitHeaderLines, hsplit, List.map_cons, List.filter_cons, hcr, Option.getD_some]
      rw [splitHeaderLines] at ih
      rw [ih, List.map_cons, List.filter_cons]

/-! ## The header block -/

theorem findSubslice_crlf {a : Bytes} (h : 13 ∉ a) (rest : Bytes) :
    findSubslice [13, 10] (a ++ 13 :: 10 :: rest) = some a.length := by
  induction a with
  | nil => simp [findSubslice]
  | cons b a ih =>
    have hb : b ≠ 13 := fun e => h (by simp [e])
    have hpre : ¬ [13, 10] <+: b :: (a ++ 13 :: 10 :: rest) := by
      rintro ⟨t, ht⟩
      exact hb (List.cons.inj ht).1.symm
    rw [List.cons_append, findSubslice, if_neg hpre, ih fun hm => h (List.mem_cons_of_mem _ hm)]
    rfl

theorem findSubslice_crlf_none {a : Bytes} (h : 13 ∉ a) : findSubslice [13, 10] a = none := by
  induction a with
  | nil => rfl
  | cons b a ih =>
    have hb : b ≠ 13 := fun e => h (by simp [e])
    have hpre : ¬ [13, 10] <+: b :: a := by
      rintro ⟨t, ht⟩
      exact hb (List.cons.inj ht).1.symm
    rw [findSubslice, if_neg hpre, ih fun hm => h (List.mem_cons_of_mem _ hm)]
    rfl

/-- The line ends in a bare line feed. -/
def endsInLf (x : Bytes × Eol) : Bool := x.2 == .lf

theorem not_mem_renderLines_of_lf {ls : List (Bytes × Eol)} (h : ∀ x ∈ ls, ∀ b ∈ x.1, isLineByte b)
    (hlf : ∀ x ∈ ls, endsInLf x) : 13 ∉ renderLines ls := by
  induction ls with
  | nil => simp
  | cons x ls ih =>
    have hx : x.2 = .lf := by simpa [endsInLf] using hlf x List.mem_cons_self
    have h13 : (13 : UInt8) ∉ x.1 := fun hm => absurd (h x List.mem_cons_self 13 hm) (by decide)
    have ih := ih (fun y hy => h y (List.mem_cons_of_mem _ hy)) fun y hy => hlf y (List.mem_cons_of_mem _ hy)
    rw [renderLines_cons, hx]
    simp [Eol.bytes, h13, ih]

/-- **The header block starts behind the first line that ends in CRLF.** -/
theorem drop_headersStart {ls : List (Bytes × Eol)} (h : ∀ x ∈ ls, ∀ b ∈ x.1, isLineByte b) :
    (renderLines ls).drop (headersStart (renderLines ls)) = renderLines ((ls.dropWhile endsInLf).drop 1) := by
  have hsplit := List.takeWhile_append_dropWhile (p := endsInLf) (l := ls)
  have hmem : ∀ x ∈ ls.takeWhile endsInLf, ∀ b ∈ x.1, isLineByte b := fun x hx =>
    h x (List.takeWhile_prefix _ |>.subset hx)
  have hlf : 13 ∉ renderLines (ls.takeWhile endsInLf) :=
    not_mem_renderLines_of_lf hmem fun x hx => List.mem_takeWhile_imp hx
  cases hd : ls.dropWhile endsInLf with
  | nil =>
    rw [hd, List.append_nil] at hsplit
    rw [hsplit] at hlf
    simp [headersStart, findSubslice_crlf_none hlf]
  | cons x rest =>
    obtain ⟨line, e⟩ := x
    have hx : (line, e) ∈ ls := by
      rw [← hsplit, hd]
      simp
    have he : e = .crlf := by
      have := List.head?_dropWhile_not endsInLf ls
      rw [hd] at this
      cases e with
      | crlf => rfl
      | lf => simp [endsInLf] at this
    have h13 : (13 : UInt8) ∉ renderLines (ls.takeWhile endsInLf) ++ line := by
      have : (13 : UInt8) ∉ line := fun hm => absurd (h _ hx 13 hm) (by decide)
      simp [hlf, this]
    have hrender : renderLines ls =
        (renderLines (ls.takeWhile endsInLf) ++ line) ++ 13 :: 10 :: renderLines rest := by
      have := congrArg renderLines hsplit
      rw [hd, he, renderLines_append, renderLines_cons] at this
      rw [← this]
      simp [Eol.bytes]
    rw [hrender, headersStart, findSubslice_crlf h13]
    simp only [List.drop_succ_cons, List.drop_zero]
    rw [← List.drop_drop, List.drop_left]
    rfl

/-- A list up to the first element without the property, with that element. -/
def cutAt {α : Type} (p : α → Bool) (l : List α) : List α := l.takeWhile p ++ (l.dropWhile p).take 1

section CutAt

variable {α β : Type} {p : α → Bool}

theorem cutAt_append_drop (p : α → Bool) (l : List α) : cutAt p l ++ (l.dropWhile p).drop 1 = l := by
  rw [cutAt, List.append_assoc, List.take_append_drop, List.takeWhile_append_dropWhile]

theorem cutAt_append_of_all {a : List α} (h : ∀ x ∈ a, p x = true) (b : List α) : cutAt p (a ++ b) = a ++ cutAt p b := by
  rw [cutAt, List.takeWhile_append_of_pos h, List.dropWhile_append_of_pos h, List.append_assoc]
  rfl

theorem cutAt_append_of_exists {a : List α} (h : ∃ x ∈ a, p x = false) (b : List α) : cutAt p (a ++ b) = cutAt p a := by
  induction a with
  | nil => simp at h
  | cons x a ih =>
    cases hx : p x with
    | false => simp [cutAt, hx]
    | true =>
      have hex : ∃ y ∈ a, p y = false := by simpa [hx] using h
      have := ih hex
      simp only [cutAt] at this
      simp only [cutAt, List.cons_append, List.takeWhile_cons_of_pos hx, List.dropWhile_cons_of_pos hx, this]

theorem cutAt_eq_self {l : List α} (h : ∀ x ∈ l, p x = true) : cutAt p l = l := by
  have := cutAt_append_of_all h []
  simpa [cutAt] using this

theorem cutAt_map (g : β → α) (l : List β) : cutAt p (l.map g) = (cutAt (p ∘ g) l).map g := by
  rw [cutAt, List.takeWhile_map, List.dropWhile_map, ← List.map_take, ← List.map_append]
  rfl

end CutAt

/-- What stands before the header block: the lines up to the first one that ends in CRLF. -/
theorem take_headersStart {ls : List (Bytes × Eol)} (h : ∀ x ∈ ls, ∀ b ∈ x.1, isLineByte b) :
    (renderLines ls).take (headersStart (renderLines ls)) = renderLines (cutAt endsInLf ls) := by
  have hwhole : renderLines (cutAt endsInLf ls) ++ renderLines ((ls.dropWhile endsInLf).drop 1) = renderLines ls := by
    rw [← renderLines_append, cutAt_append_drop]
  have hsplit := List.take_append_drop (headersStart (renderLines ls)) (renderLines ls)
  rw [drop_headersStart h] at hsplit
  exact List.append_cancel_right (hsplit.trans hwhole.symm)

/-! ## The lines of a request head -/

/-- The lines of a request head, with the empty ones around it. -/
def headLines (l : RequestLayout) : List (Bytes × Eol) :=
  l.blanks.map (fun e => ([], e)) ++
    (l.line, l.eol) :: (l.fields.map (fun f => (f.line, f.eol)) ++ [([], l.last)])

@[simp] theorem renderLines_fields (fs : List FieldLayout) :
    renderLines (fs.map fun f => (f.line, f.eol)) = renderFields fs := by
  simp only [renderLines, renderFields, List.flatMap_map]
  rfl

@[simp] theorem renderLines_blanks (es : List Eol) : renderLines (es.map fun e => ([], e)) = renderEols es := by
  simp [renderLines, renderEols, List.flatMap_map]

theorem renderLines_headLines (l : RequestLayout) : renderLines (headLines l) = l.render := by
  simp [headLines, RequestLayout.render]

theorem isFieldByte_of_isToken {b : UInt8} (h : isToken b) : isFieldByte b := by
  simp only [isToken, isFieldByte, Bool.or_eq_true, Bool.and_eq_true, decide_eq_true_eq, List.contains_iff_mem,
    bne_iff_ne, UInt8.le_iff_toNat_le, beq_iff_eq] at h ⊢
  right
  rcases h with ((h | h) | h) | h
  · refine ⟨by simp at h ⊢; omega, ?_⟩
    rintro rfl
    simp at h
  · refine ⟨by simp at h ⊢; omega, ?_⟩
    rintro rfl
    simp at h
  · refine ⟨by simp at h ⊢; omega, ?_⟩
    rintro rfl
    simp at h
  · have hall : (ascii "!#$%&'*+-.^_\x60|~").all (fun b => 32 ≤ b && b != 127) = true := by decide
    simpa [UInt8.le_iff_toNat_le] using List.all_eq_true.mp hall b h

theorem isFieldByte_of_isTargetByte {b : UInt8} (h : isTargetByte b) : isFieldByte b := by
  simp only [isTargetByte, isFieldByte, Bool.or_eq_true, Bool.and_eq_true, decide_eq_true_eq,
    UInt8.le_iff_toNat_le] at h ⊢
  exact Or.inr ⟨le_trans (by decide) h.1, h.2⟩

theorem isFieldByte_of_mem_version {minor : Fin 2} {b : UInt8} (h : b ∈ versionBytes minor) : isFieldByte b := by
  have hall : ∀ minor : Fin 2, (versionBytes minor).all isFieldByte = true := by decide
  exact List.all_eq_true.mp (hall minor) b h

theorem isFieldByte_of_mem_line {l : RequestLayout} (hwf : l.WF) {b : UInt8} (h : b ∈ l.line) : isFieldByte b := by
  simp only [RequestLayout.line, List.mem_append, List.mem_cons] at h
  rcases h with h | rfl | h | rfl | h
  · exact isFieldByte_of_isToken (hwf.method_token b h)
  · decide
  · exact isFieldByte_of_isTargetByte (hwf.target_bytes b h)
  · decide
  · exact isFieldByte_of_mem_version h

theorem isFieldByte_of_mem_fieldLine {f : FieldLayout} (hwf : f.WF) {b : UInt8} (h : b ∈ f.line) : isFieldByte b := by
  simp only [FieldLayout.line, List.mem_append, List.mem_cons] at h
  rcases h with h | rfl | (h | h) | h
  · exact isFieldByte_of_isToken (hwf.name_token b h)
  · decide
  · exact isFieldByte_of_isBlank (hwf.before_blank b h)
  · exact hwf.value_bytes b h
  · exact isFieldByte_of_isBlank (hwf.after_blank b h)

theorem isLineByte_of_mem_headLines {l : RequestLayout} (hwf : l.WF) :
    ∀ x ∈ headLines l, ∀ b ∈ x.1, isLineByte b := by
  intro x hx b hb
  simp only [headLines, List.mem_append, List.mem_map, List.mem_cons, List.not_mem_nil, or_false] at hx
  rcases hx with ⟨e, -, rfl⟩ | rfl | ⟨f, hf, rfl⟩ | rfl
  · simp at hb
  · exact isLineByte_of_isFieldByte (isFieldByte_of_mem_line hwf hb)
  · exact isLineByte_of_isFieldByte (isFieldByte_of_mem_fieldLine (hwf.fields_wf f hf) hb)
  · simp at hb

/-- The bytes behind the first CRLF of a head. -/
def headerBlock (l : RequestLayout) : Bytes := l.render.drop (headersStart l.render)

/-- The request line, if it stands in the header block: when a CRLF stands before it. -/
def strayLines (l : RequestLayout) : List Bytes := if .crlf ∈ l.blanks then [l.line] else []

/-- The fields in the header block: when the request line ends in a bare line feed and none before it ends in CRLF,
they start behind the first one that does. -/
def visibleFields (l : RequestLayout) : List FieldLayout :=
  if .crlf ∈ l.blanks ∨ l.eol = .crlf then l.fields else (l.fields.dropWhile (·.eol == .lf)).drop 1

theorem line_ne_nil {l : RequestLayout} (hwf : l.WF) : l.line ≠ [] := by
  simp [RequestLayout.line, hwf.method_ne]

theorem fieldLine_ne_nil (f : FieldLayout) : f.line ≠ [] := by simp [FieldLayout.line]

/-- The lines that are not empty. -/
def lineTexts (ls : List (Bytes × Eol)) : List Bytes := (ls.map Prod.fst).filter (· ≠ [])

@[simp] theorem lineTexts_append (a b : List (Bytes × Eol)) : lineTexts (a ++ b) = lineTexts a ++ lineTexts b := by
  simp [lineTexts]

@[simp] theorem lineTexts_blanks (es : List Eol) : lineTexts (es.map fun e => ([], e)) = [] := by
  simp [lineTexts]

@[simp] theorem lineTexts_empty (e : Eol) : lineTexts [([], e)] = [] := by simp [lineTexts]

@[simp] theorem lineTexts_fields (fs : List FieldLayout) :
    lineTexts (fs.map fun f => (f.line, f.eol)) = fs.map FieldLayout.line := by
  rw [lineTexts, List.map_map, List.filter_eq_self.mpr]
  · rfl
  · intro x hx
    obtain ⟨f, -, rfl⟩ := List.mem_map.mp hx
    simpa using fieldLine_ne_nil f

theorem lineTexts_cons {line : Bytes} (h : line ≠ []) (e : Eol) (ls : List (Bytes × Eol)) :
    lineTexts ((line, e) :: ls) = line :: lineTexts ls := by
  simp [lineTexts, h]

theorem lineTexts_behind_blank {es : List Eol} (h : .crlf ∈ es) (ls : List (Bytes × Eol)) :
    lineTexts (((es.map (fun e => (([] : Bytes), e)) ++ ls).dropWhile endsInLf).drop 1) = lineTexts ls := by
  induction es with
  | nil => simp at h
  | cons e es ih =>
    cases e with
    | lf =>
      have hes : .crlf ∈ es := by simpa using h
      simpa [endsInLf] using ih hes
    | crlf => simp [endsInLf]

theorem dropWhile_blanks {es : List Eol} (h : .crlf ∉ es) (ls : List (Bytes × Eol)) :
    (es.map (fun e => (([] : Bytes), e)) ++ ls).dropWhile endsInLf = ls.dropWhile endsInLf := by
  induction es with
  | nil => rfl
  | cons e es ih =>
    cases e with
    | lf => simpa [endsInLf] using ih (by simpa using h)
    | crlf => simp at h

theorem lineTexts_behind_field (fs : List FieldLayout) (last : Eol) :
    lineTexts (((fs.map (fun f : FieldLayout => (f.line, f.eol)) ++ [([], last)]).dropWhile endsInLf).drop 1) =
      ((fs.dropWhile (·.eol == .lf)).drop 1).map FieldLayout.line := by
  induction fs with
  | nil => cases last <;> rfl
  | cons f fs ih =>
    cases he : f.eol with
    | lf => simpa [endsInLf, he] using ih
    | crlf => simp [endsInLf, he]

/-- **What is found in the header block** of a head: the first line if a CRLF stands before it, and the fields. -/
theorem lineTexts_headerBlock (blanks : List Eol) {line : Bytes} (hne : line ≠ []) (eol : Eol)
    (fields : List FieldLayout) (last : Eol) :
    lineTexts (((blanks.map (fun e => (([] : Bytes), e)) ++
      (line, eol) :: (fields.map (fun f => (f.line, f.eol)) ++ [([], last)])).dropWhile endsInLf).drop 1) =
      (if .crlf ∈ blanks then [line] else []) ++
        (if .crlf ∈ blanks ∨ eol = .crlf then fields else (fields.dropWhile (·.eol == .lf)).drop 1).map
          FieldLayout.line := by
  by_cases hblanks : .crlf ∈ blanks
  · rw [lineTexts_behind_blank hblanks, lineTexts_cons hne]
    simp [hblanks]
  · rw [dropWhile_blanks hblanks]
    cases heol : eol with
    | crlf => simp [endsInLf, hblanks]
    | lf =>
      rw [List.dropWhile_cons_of_pos (by simp [endsInLf]), lineTexts_behind_field]
      simp [hblanks]

/-- **The lines of the header block.** -/
theorem splitHeaderLines_headerBlock {l : RequestLayout} (hwf : l.WF) :
    splitHeaderLines (headerBlock l) = strayLines l ++ (visibleFields l).map FieldLayout.line := by
  have hbytes := isLineByte_of_mem_headLines hwf
  have hrest : ∀ x ∈ ((headLines l).dropWhile endsInLf).drop 1, ∀ b ∈ x.1, isLineByte b := fun x hx =>
    hbytes x ((List.dropWhile_suffix _).subset ((List.drop_suffix 1 _).subset hx))
  rw [headerBlock, ← renderLines_headLines, drop_headersStart hbytes, splitHeaderLines_renderLines hrest]
  exact lineTexts_headerBlock l.blanks (line_ne_nil hwf) l.eol l.fields l.last

end LbProxy.Monoio
