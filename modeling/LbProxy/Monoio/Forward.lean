import LbProxy.Lib.HeadParser
import LbProxy.Monoio.HeadLines
import LbProxy.Monoio.Framing

/-!
# What `write_forward_head` writes

* `foldl_forwardLine_fst`, `foldl_forwardLine_snd` — the lines that are copied, and the kept `X-Forwarded-For`
  value;
* `forwardedFields`, `addedFields` — the fields of the new head;
* `writeForwardHead_eq` — the new head, line by line;
* `writeForwardHead_eq_render` — it is a head again, unless the request line was copied (`not_complete_of_stray`);
* `framingOf_forwardLayout` — the framing that the fields of the new head are read with;
* `forward_preserves_iff` — the new head says what the old one said exactly if the field that frames the body is
  copied.
-/

namespace LbProxy.Monoio

open Lib LbProxy.Core

/-! ## Lines and names -/

theorem trimAscii_of_token {name : Bytes} (h : ∀ b ∈ name, isToken b) : trimAscii name = name := by
  have hno : ∀ b ∈ name, isAsciiWhitespace b = false := by
    intro b hb
    by_contra hws
    have htok := h b hb
    simp only [Bool.not_eq_false, isAsciiWhitespace, Bool.or_eq_true, beq_iff_eq] at hws
    rcases hws with (((rfl | rfl) | rfl) | rfl) | rfl <;> revert htok <;> decide
  have hdrop : name.dropWhile isAsciiWhitespace = name := by
    cases name with
    | nil => rfl
    | cons b s => rw [List.dropWhile_cons, hno b List.mem_cons_self, if_neg (by decide)]
  rw [trimAscii, hdrop, List.rdropWhile_eq_self_iff]
  intro hne
  simp [hno _ (List.getLast_mem hne)]

theorem eqCi_of_token {name : Bytes} (h : ∀ b ∈ name, isToken b) (n : Bytes) :
    eqCi name n = eqIgnoreAsciiCase name n := by
  rw [eqCi, trimAscii_of_token h]

theorem splitColon_fieldLine {f : FieldLayout} (hwf : f.WF) :
    splitColon f.line = some (f.name, f.before ++ f.value ++ f.after) := by
  have hcolon := hwf.colon_not_mem_name
  rw [splitColon, FieldLayout.line, findByte_append hcolon]
  simp

/-! ## The copied lines -/

/-- The line is dropped for its name. -/
def dropsName (nominated : List Bytes) (name : Bytes) : Bool :=
  isHopByHop name || eqCi name (ascii "host") || nominated.any (eqCi name)

/-- The line is copied. -/
def copiesLine (nominated : List Bytes) (line : Bytes) : Bool :=
  match splitColon line with
  | some (name, _) => !dropsName nominated name && !eqCi name (ascii "x-forwarded-for")
  | none => false

theorem foldl_forwardLine_fst (nominated : List Bytes) (lines : List Bytes) (acc : Bytes × Option Bytes) :
    (lines.foldl (forwardLine nominated) acc).1 =
      acc.1 ++ (lines.filter (copiesLine nominated)).flatMap (· ++ [13, 10]) := by
  induction lines generalizing acc with
  | nil => simp
  | cons line lines ih =>
    rw [List.foldl_cons, ih, List.filter_cons]
    cases hc : splitColon line with
    | none => simp [forwardLine, copiesLine, hc]
    | some x =>
      obtain ⟨name, value⟩ := x
      cases hd : dropsName nominated name with
      | true =>
        have hd' := hd
        rw [dropsName] at hd'
        simp [forwardLine, copiesLine, hc, hd, hd']
      | false =>
        have hd' := hd
        rw [dropsName] at hd'
        by_cases hx : eqCi name (ascii "x-forwarded-for") <;>
          simp [forwardLine, copiesLine, hc, hd, hd', hx]

/-- The `X-Forwarded-For` value of a line that is not dropped. -/
def xffOf (nominated : List Bytes) (line : Bytes) : Option Bytes :=
  match splitColon line with
  | some (name, value) =>
    if !dropsName nominated name && eqCi name (ascii "x-forwarded-for") then some (trimAscii value) else none
  | none => none

theorem foldl_forwardLine_snd (nominated : List Bytes) (lines : List Bytes) (acc : Bytes × Option Bytes) :
    (lines.foldl (forwardLine nominated) acc).2 = (lines.filterMap (xffOf nominated)).getLast?.or acc.2 := by
  induction lines generalizing acc with
  | nil => rfl
  | cons line lines ih =>
    have hcons : (forwardLine nominated acc line).2 = (xffOf nominated line).or acc.2 := by
      unfold forwardLine xffOf
      cases splitColon line with
      | none => rfl
      | some x =>
        obtain ⟨name, value⟩ := x
        show (if dropsName nominated name then acc else _).2 = _
        by_cases hd : dropsName nominated name <;> by_cases hx : eqCi name (ascii "x-forwarded-for") <;> simp [hd, hx]
    rw [List.foldl_cons, ih, hcons]
    cases hx : xffOf nominated line with
    | none => simp [hx]
    | some v => simp [hx, List.getLast?_cons]

theorem xffOf_eq_some {nominated : List Bytes} {line prev : Bytes} (h : xffOf nominated line = some prev) :
    ∃ name value, splitColon line = some (name, value) ∧ prev = trimAscii value := by
  unfold xffOf at h
  split at h
  · rename_i name value hsplit
    split at h
    · exact ⟨name, value, hsplit, (Option.some.inj h).symm⟩
    · cases h
  · cases h

/-! ## The new head -/

/-- The names that the `Connection` lines of a head nominate. -/
def nominatedNames (l : RequestLayout) : List Bytes := connectionNominated (headerBlock l)

/-- The field is copied. -/
def survives (l : RequestLayout) (f : FieldLayout) : Bool :=
  !dropsName (nominatedNames l) f.name && !eqCi f.name (ascii "x-forwarded-for")

/-- The fields that are copied; their lines end in CRLF then. -/
def forwardedFields (l : RequestLayout) : List FieldLayout :=
  ((visibleFields l).filter (survives l)).map fun f => { f with eol := .crlf }

/-- The value of the kept `X-Forwarded-For` line. -/
def existingXff (l : RequestLayout) : Option Bytes :=
  ((splitHeaderLines (headerBlock l)).foldl (forwardLine (nominatedNames l)) ([], none)).2

/-- The fields that are added. -/
def addedFields (l : RequestLayout) (host : Bytes) (peer : Option PeerAddr) : List FieldLayout :=
  ⟨ascii "Host", [32], host, [], .crlf⟩ ::
    ((match peer with
      | some ip => [⟨ascii "X-Forwarded-For", [32], (match existingXff l with
          | some prev => prev ++ ascii ", "
          | none => []) ++ ip.text, [], .crlf⟩]
      | none => []) ++
      [⟨ascii "X-Forwarded-Proto", [32], ascii "http", [], .crlf⟩])

/-- The new head, if the request line is not among the copied lines. -/
def forwardLayout (l : RequestLayout) (target host : Bytes) (peer : Option PeerAddr) : RequestLayout :=
  ⟨[], l.method, target, 1, .crlf, forwardedFields l ++ addedFields l host peer, .crlf⟩

/-- The request line, if it is copied like a field. -/
def copiedStray (l : RequestLayout) : List Bytes := (strayLines l).filter (copiesLine (nominatedNames l))

theorem mem_copiedStray {l : RequestLayout} {line : Bytes} (h : line ∈ copiedStray l) : line = l.line := by
  have hmem : line ∈ strayLines l := List.mem_of_mem_filter h
  unfold strayLines at hmem
  split at hmem
  · simpa using hmem
  · simp at hmem

theorem copiesLine_fieldLine {l : RequestLayout} {f : FieldLayout} (hwf : f.WF) :
    copiesLine (nominatedNames l) f.line = survives l f := by
  simp only [copiesLine, splitColon_fieldLine hwf, survives]

theorem visibleFields_suffix (l : RequestLayout) : visibleFields l <:+ l.fields := by
  unfold visibleFields
  split
  · exact List.suffix_refl _
  · exact (List.drop_suffix 1 _).trans (List.dropWhile_suffix _)

theorem copied_lines {l : RequestLayout} (hwf : l.WF) :
    ((splitHeaderLines (headerBlock l)).foldl (forwardLine (nominatedNames l)) ([], none)).1 =
      (copiedStray l).flatMap (· ++ [13, 10]) ++ renderFields (forwardedFields l) := by
  have hvis : ∀ fs : List FieldLayout, (∀ f ∈ fs, f.WF) →
      ((fs.map FieldLayout.line).filter (copiesLine (nominatedNames l))).flatMap (· ++ [13, 10]) =
        renderFields ((fs.filter (survives l)).map fun f => { f with eol := .crlf }) := by
    intro fs hfs
    induction fs with
    | nil => rfl
    | cons f fs ih =>
      have ih := ih fun g hg => hfs g (List.mem_cons_of_mem _ hg)
      rw [List.map_cons, List.filter_cons, List.filter_cons, copiesLine_fieldLine (hfs f List.mem_cons_self)]
      split
      · rw [List.flatMap_cons, ih, List.map_cons]
        rfl
      · exact ih
  rw [foldl_forwardLine_fst, splitHeaderLines_headerBlock hwf, List.filter_append, List.flatMap_append,
    hvis _ fun f hf => hwf.fields_wf f ((visibleFields_suffix l).subset hf)]
  rfl

theorem renderFields_addedFields (l : RequestLayout) (host : Bytes) (peer : Option PeerAddr) :
    renderFields (addedFields l host peer) =
      ascii "Host: " ++ host ++ [13, 10] ++
        (match peer with
          | some ip => ascii "X-Forwarded-For: " ++ (match existingXff l with
              | some prev => prev ++ ascii ", "
              | none => []) ++ ip.text ++ [13, 10]
          | none => []) ++ ascii "X-Forwarded-Proto: http\r\n" := by
  have hhost : ascii "Host: " = ascii "Host" ++ [58, 32] := by decide
  have hxff : ascii "X-Forwarded-For: " = ascii "X-Forwarded-For" ++ [58, 32] := by decide
  have hproto : ascii "X-Forwarded-Proto: http\r\n" =
      ascii "X-Forwarded-Proto" ++ [58, 32] ++ ascii "http" ++ [13, 10] := by decide
  rw [hhost, hxff, hproto]
  cases peer <;>
    simp [addedFields, renderFields, FieldLayout.render, FieldLayout.line, Eol.bytes]

/-- **The new head, line by line.** -/
theorem writeForwardHead_eq {l : RequestLayout} (hwf : l.WF) (f : Framing) (pos : ℕ) (rest target host : Bytes)
    (peer : Option PeerAddr) :
    writeForwardHead (l.render ++ rest) (headOf l f pos) target host peer =
      l.method ++ 32 :: (target ++ 32 :: (versionBytes 1 ++ (Eol.crlf.bytes ++
        ((copiedStray l).flatMap (· ++ [13, 10]) ++
          (renderFields (forwardedFields l ++ addedFields l host peer) ++ Eol.crlf.bytes))))) := by
  have hhead : (l.render ++ rest).take l.render.length = l.render := List.take_left
  have hcopied := copied_lines hwf
  have hxff : ((splitHeaderLines (headerBlock l)).foldl (forwardLine (nominatedNames l)) ([], none)).2 =
      existingXff l := rfl
  rw [headerBlock, nominatedNames, headerBlock] at hcopied hxff
  have hsp : ascii " " = [32] := by decide
  have hversion : ascii " HTTP/1.1\r\n" = 32 :: (versionBytes 1 ++ Eol.crlf.bytes) := by decide
  have hadded := renderFields_addedFields l host peer
  have hfields : renderFields (forwardedFields l ++ addedFields l host peer) =
      renderFields (forwardedFields l) ++ renderFields (addedFields l host peer) := by simp [renderFields]
  rw [hfields, hadded]
  simp only [writeForwardHead, hhead, hcopied, hxff, hsp, hversion, headOf, List.append_assoc, List.cons_append,
    List.nil_append]
  cases peer <;> rfl

/-! ## The added fields are well-formed -/

/-- Printable ASCII without the space. -/
def isPrintable (b : UInt8) : Bool := 33 ≤ b && b ≤ 126

theorem printable_bytes {b : UInt8} (h : isPrintable b) :
    isFieldByte b = true ∧ isBlank b = false ∧ isTargetByte b = true ∧ b < 0x80 := by
  simp only [isPrintable, Bool.and_eq_true, decide_eq_true_eq, UInt8.le_iff_toNat_le, UInt8.toNat_ofNat] at h
  have hne : ∀ c : UInt8, c.toNat < 33 ∨ 126 < c.toNat → b ≠ c := by
    rintro c hc rfl
    omega
  have h127 : b ≠ 127 := hne 127 (by decide)
  refine ⟨?_, ?_, ?_, ?_⟩
  · simp only [isFieldByte, Bool.or_eq_true, Bool.and_eq_true, decide_eq_true_eq, bne_iff_ne,
      UInt8.le_iff_toNat_le, UInt8.toNat_ofNat]
    exact Or.inr ⟨by omega, h127⟩
  · simp only [isBlank, Bool.or_eq_false_iff, beq_eq_false_iff_ne]
    exact ⟨hne 32 (by decide), hne 9 (by decide)⟩
  · simp only [isTargetByte, Bool.and_eq_true, decide_eq_true_eq, bne_iff_ne, UInt8.le_iff_toNat_le,
      UInt8.toNat_ofNat]
    exact ⟨h.1, h127⟩
  · rw [UInt8.lt_iff_toNat_lt]
    exact lt_of_le_of_lt h.2 (by decide)

theorem plainField_wf {name value : Bytes} (hne : name ≠ []) (hname : ∀ b ∈ name, isToken b)
    (hbytes : ∀ b ∈ value, isFieldByte b) (hhead : ∀ b ∈ value.head?, isBlank b = false)
    (hlast : ∀ b ∈ value.getLast?, isBlank b = false) :
    (⟨name, [32], value, [], .crlf⟩ : FieldLayout).WF where
  name_ne := hne
  name_token := hname
  before_blank := by simp [isBlank]
  after_blank := by simp
  value_bytes := hbytes
  value_head := hhead
  value_last := hlast
  after_nil := fun _ => rfl

theorem isFieldByte_of_mem_headerLines {l : RequestLayout} (hwf : l.WF) {line : Bytes}
    (h : line ∈ splitHeaderLines (headerBlock l)) : ∀ b ∈ line, isFieldByte b := by
  rw [splitHeaderLines_headerBlock hwf, List.mem_append, List.mem_map] at h
  rcases h with h | ⟨f, hf, rfl⟩
  · unfold strayLines at h
    split at h
    · rw [List.mem_singleton] at h
      exact fun b hb => isFieldByte_of_mem_line hwf (h ▸ hb)
    · simp at h
  · exact fun b hb => isFieldByte_of_mem_fieldLine (hwf.fields_wf f ((visibleFields_suffix l).subset hf)) hb

theorem isBlank_eq_false {b : UInt8} (h : isAsciiWhitespace b = false) : isBlank b = false := by
  simp only [isAsciiWhitespace, Bool.or_eq_false_iff] at h
  simp [isBlank, h]

theorem existingXff_bytes {l : RequestLayout} (hwf : l.WF) {prev : Bytes} (h : existingXff l = some prev) :
    (∀ b ∈ prev, isFieldByte b) ∧ ∀ b ∈ prev.head?, isBlank b = false := by
  rw [existingXff, foldl_forwardLine_snd, Option.or_none] at h
  obtain ⟨line, hline, hx⟩ := List.mem_filterMap.mp (List.mem_of_getLast? h)
  obtain ⟨name, value, hsplit, rfl⟩ := xffOf_eq_some hx
  refine ⟨fun b hb => ?_, fun b hb => isBlank_eq_false (head_trim hb)⟩
  refine isFieldByte_of_mem_headerLines hwf hline b ?_
  obtain ⟨colon, -, hx⟩ := Option.map_eq_some_iff.mp hsplit
  have hvalue : value = line.drop (colon + 1) := (Prod.mk.inj hx).2.symm
  have hb' : b ∈ value :=
    (List.dropWhile_suffix _).subset ((List.rdropWhile_prefix _ _).subset hb)
  exact List.mem_of_mem_drop (hvalue ▸ hb')

theorem peer_bytes (ip : PeerAddr) : ∀ b ∈ ip.text, isFieldByte b = true ∧ isBlank b = false := by
  intro b hb
  have hp : isPrintable b := by
    simp only [isPrintable, Bool.and_eq_true, decide_eq_true_eq, UInt8.le_iff_toNat_le, UInt8.toNat_ofNat]
    rcases ip.text_bytes b hb with h | h | rfl | rfl
    · simp only [isDigit, Bool.and_eq_true, decide_eq_true_eq, UInt8.le_iff_toNat_le, UInt8.toNat_ofNat] at h
      omega
    · simp only [UInt8.le_iff_toNat_le, UInt8.toNat_ofNat] at h
      omega
    · decide
    · decide
  exact ⟨(printable_bytes hp).1, (printable_bytes hp).2.1⟩

theorem addedFields_wf {l : RequestLayout} (hwf : l.WF) {host : Bytes} (hhost : ∀ b ∈ host, isPrintable b)
    (peer : Option PeerAddr) : ∀ f ∈ addedFields l host peer, f.WF := by
  intro f hf
  simp only [addedFields, List.mem_cons, List.mem_append, List.not_mem_nil, or_false] at hf
  rcases hf with rfl | hf | rfl
  · exact plainField_wf (by decide) (List.all_eq_true.mp (by decide)) (fun b hb => (printable_bytes (hhost b hb)).1)
      (fun b hb => (printable_bytes (hhost b (List.mem_of_mem_head? hb))).2.1)
      fun b hb => (printable_bytes (hhost b (List.mem_of_getLast? hb))).2.1
  · cases peer with
    | none => simp at hf
    | some ip =>
      simp only [List.mem_cons, List.not_mem_nil, or_false] at hf
      subst hf
      have hip := peer_bytes ip
      refine plainField_wf (by decide) (List.all_eq_true.mp (by decide)) ?_ ?_ ?_
      · intro b hb
        rcases List.mem_append.mp hb with hb | hb
        · cases hx : existingXff l with
          | none => simp [hx] at hb
          | some prev =>
            simp only [hx, List.mem_append] at hb
            rcases hb with hb | hb
            · exact (existingXff_bytes hwf hx).1 b hb
            · have hsep : (ascii ", ").all isFieldByte = true := by decide
              exact List.all_eq_true.mp hsep b hb
        · exact (hip b hb).1
      · intro b hb
        cases hx : existingXff l with
        | none =>
          simp only [hx, List.nil_append] at hb
          exact (hip b (List.mem_of_mem_head? hb)).2
        | some prev =>
          cases hprev : prev with
          | nil =>
            simp only [hx, hprev] at hb
            obtain rfl : 44 = b := Option.some.inj hb
            decide
          | cons c s =>
            simp only [hx, hprev] at hb
            obtain rfl : c = b := Option.some.inj hb
            exact (existingXff_bytes hwf hx).2 c (by rw [hprev]; rfl)
      · intro b hb
        have hlast : b ∈ ip.text.getLast? := by
          rw [List.getLast?_append, List.getLast?_eq_getLast_of_ne_nil ip.text_ne, Option.some_or] at hb
          rwa [List.getLast?_eq_getLast_of_ne_nil ip.text_ne]
        exact (hip b (List.mem_of_getLast? hlast)).2
  · decide

/-! ## The new head is read again -/

theorem forwardedFields_wf {l : RequestLayout} (hwf : l.WF) : ∀ f ∈ forwardedFields l, f.WF := by
  intro f hf
  obtain ⟨g, hg, rfl⟩ := List.mem_map.mp hf
  have hgwf := hwf.fields_wf g ((visibleFields_suffix l).subset (List.mem_of_mem_filter hg))
  exact ⟨hgwf.name_ne, hgwf.name_token, hgwf.before_blank, hgwf.after_blank, hgwf.value_bytes, hgwf.value_head,
    hgwf.value_last, hgwf.after_nil⟩

theorem forwardLayout_wf {l : RequestLayout} (hwf : l.WF) {target host : Bytes} (hne : target ≠ [])
    (htarget : ∀ b ∈ target, isPrintable b) (hhost : ∀ b ∈ host, isPrintable b) (peer : Option PeerAddr) :
    (forwardLayout l target host peer).WF where
  method_ne := hwf.method_ne
  method_token := hwf.method_token
  target_ne := hne
  target_bytes := fun b hb => (printable_bytes (htarget b hb)).2.2.1
  target_utf8 := isUtf8_of_ascii fun b hb => (printable_bytes (htarget b hb)).2.2.2
  fields_wf := by
    intro f hf
    rcases List.mem_append.mp hf with hf | hf
    · exact forwardedFields_wf hwf f hf
    · exact addedFields_wf hwf hhost peer f hf

theorem length_forwardLayout_fields (l : RequestLayout) (target host : Bytes) (peer : Option PeerAddr) :
    (forwardLayout l target host peer).fields.length ≤ l.fields.length + 3 := by
  have h1 : (forwardedFields l).length ≤ l.fields.length := by
    rw [forwardedFields, List.length_map]
    exact (List.length_filter_le _ _).trans (visibleFields_suffix l).length_le
  have h2 : (addedFields l host peer).length ≤ 3 := by cases peer <;> simp [addedFields]
  simp only [forwardLayout, List.length_append]
  omega

/-- The new head, if the request line is not copied. -/
theorem writeForwardHead_eq_render {l : RequestLayout} (hwf : l.WF) (hstray : copiedStray l = []) (f : Framing)
    (pos : ℕ) (rest target host : Bytes) (peer : Option PeerAddr) :
    writeForwardHead (l.render ++ rest) (headOf l f pos) target host peer =
      (forwardLayout l target host peer).render := by
  rw [writeForwardHead_eq hwf, hstray]
  simp [forwardLayout, RequestLayout.render, RequestLayout.line, renderEols]

/-- What a name is dropped for. -/
def keepsField (l : RequestLayout) (h : Bytes × Bytes) : Bool :=
  !dropsName (nominatedNames l) h.1 && !eqCi h.1 (ascii "x-forwarded-for")

theorem map_field_forwardedFields (l : RequestLayout) :
    (forwardedFields l).map FieldLayout.field = ((visibleFields l).map FieldLayout.field).filter (keepsField l) := by
  rw [forwardedFields, List.map_map, List.filter_map]
  rfl

theorem lowercase_connectionNominated {block n : Bytes} (h : n ∈ connectionNominated block) : lowercase n = n := by
  simp only [connectionNominated, List.mem_flatMap] at h
  obtain ⟨line, -, h⟩ := h
  split at h
  · split at h
    · obtain ⟨token, -, rfl⟩ := List.mem_map.mp h
      exact lowercase_lowercase token
    · simp at h
  · simp at h

theorem any_eqCi_iff_trim {names : List Bytes} (hlow : ∀ m ∈ names, lowercase m = m) (name : Bytes) :
    names.any (eqCi name) = true ↔ lowercase (trimAscii name) ∈ names := by
  rw [List.any_eq_true]
  constructor
  · rintro ⟨m, hm, heq⟩
    rw [eqCi, eqIgnoreAsciiCase, beq_iff_eq, hlow m hm] at heq
    exact heq ▸ hm
  · intro hm
    exact ⟨_, hm, by simp [eqCi, eqIgnoreAsciiCase]⟩

theorem any_eqCi_iff {names : List Bytes} (hlow : ∀ m ∈ names, lowercase m = m) {name : Bytes}
    (htoken : ∀ b ∈ name, isToken b) : names.any (eqCi name) = true ↔ lowercase name ∈ names := by
  rw [any_eqCi_iff_trim hlow, trimAscii_of_token htoken]

theorem isHopByHop_iff {name : Bytes} (htoken : ∀ b ∈ name, isToken b) :
    isHopByHop name = true ↔ lowercase name ∈ HOP_BY_HOP := any_eqCi_iff (by decide) htoken

theorem keepsField_iff_lowercase {l : RequestLayout} {h : Bytes × Bytes} (htoken : ∀ b ∈ h.1, isToken b) :
    keepsField l h = true ↔ lowercase h.1 ∉ HOP_BY_HOP ∧ lowercase h.1 ≠ ascii "host" ∧
      lowercase h.1 ∉ nominatedNames l ∧ lowercase h.1 ≠ ascii "x-forwarded-for" := by
  have heq : ∀ m, lowercase m = m → (eqCi h.1 m = false ↔ lowercase h.1 ≠ m) := by
    intro m hm
    rw [eqCi_of_token htoken, eqIgnoreAsciiCase, hm, beq_eq_false_iff_ne]
  have hhop := (isHopByHop_iff htoken).not
  have hnom := (any_eqCi_iff (fun m (hm : m ∈ nominatedNames l) => lowercase_connectionNominated hm) htoken).not
  rw [Bool.not_eq_true] at hhop hnom
  simp only [keepsField, dropsName, Bool.and_eq_true, Bool.not_eq_true', Bool.or_eq_false_iff, hhop, hnom,
    heq (ascii "host") (by decide), heq (ascii "x-forwarded-for") (by decide), and_assoc]

theorem lowercase_of_named {n : Bytes} (hlow : lowercase n = n) {h : Bytes × Bytes} (hname : named n h = true) :
    lowercase h.1 = n := by
  simp only [named, eqIgnoreAsciiCase, beq_iff_eq, hlow] at hname
  exact hname

theorem not_mem_hopByHop {n : Bytes} (h : HOP_BY_HOP.any (· == n) = false) : n ∉ HOP_BY_HOP := by
  intro hm
  rw [List.any_eq_false] at h
  exact h n hm (by simp)

theorem keepsField_iff {l : RequestLayout} {n : Bytes} (hlow : lowercase n = n) (hhop : HOP_BY_HOP.any (· == n) = false)
    (hhost : n ≠ ascii "host") (hxff : n ≠ ascii "x-forwarded-for") {h : Bytes × Bytes}
    (htoken : ∀ b ∈ h.1, isToken b) (hname : named n h = true) :
    keepsField l h = true ↔ n ∉ nominatedNames l := by
  rw [keepsField_iff_lowercase htoken, lowercase_of_named hlow hname]
  exact ⟨fun h => h.2.2.1, fun h => ⟨not_mem_hopByHop hhop, hhost, h, hxff⟩⟩

/-! ## The framing of the new head -/

/-- The reported fields of a head and of the new head. -/
def reported (l : RequestLayout) : List (Bytes × Bytes) := l.fields.map FieldLayout.field

/-- A field of a kind reaches the new head: it stands in the header block and its name is not nominated. -/
def Reaches (l : RequestLayout) (name : Bytes) (p : Bytes × Bytes → Bool) : Prop :=
  name ∉ nominatedNames l ∧ ∃ f ∈ visibleFields l, p f.field = true

/-- The last field of a kind in the new head is that of the old one, or there is none. -/
theorem lastOf_forwarded {l : RequestLayout} (hwf : l.WF) {n : Bytes} {p : Bytes × Bytes → Bool}
    (hp : ∀ h, p h = true → named n h = true) (hlow : lowercase n = n) (hhop : HOP_BY_HOP.any (· == n) = false)
    (hhost : n ≠ ascii "host") (hxff : n ≠ ascii "x-forwarded-for") {added : List (Bytes × Bytes)}
    (hadded : lastOf p added = none) :
    (Reaches l n p → lastOf p ((forwardedFields l).map FieldLayout.field ++ added) = lastOf p (reported l)) ∧
      (¬ Reaches l n p → lastOf p ((forwardedFields l).map FieldLayout.field ++ added) = none) := by
  have htoken : ∀ h ∈ (visibleFields l).map FieldLayout.field, ∀ b ∈ h.1, isToken b := by
    intro h hh
    obtain ⟨f, hf, rfl⟩ := List.mem_map.mp hh
    exact (hwf.fields_wf f ((visibleFields_suffix l).subset hf)).name_token
  have hkeep : ∀ h ∈ (visibleFields l).map FieldLayout.field, p h = true →
      (keepsField l h = true ↔ n ∉ nominatedNames l) := fun h hh hph =>
    keepsField_iff hlow hhop hhost hxff (htoken h hh) (hp h hph)
  rw [lastOf_append, hadded, Option.none_or, map_field_forwardedFields]
  constructor
  · rintro ⟨hnom, f, hf, hpf⟩
    rw [lastOf_filter fun h hh hph => (hkeep h hh hph).mpr hnom]
    exact lastOf_suffix ((visibleFields_suffix l).map _) ⟨f.field, List.mem_map_of_mem hf, hpf⟩
  · intro hno
    rw [lastOf_eq_none]
    intro h hh
    obtain ⟨hmem, hkeeps⟩ := List.mem_filter.mp hh
    by_contra hph
    rw [Bool.not_eq_false] at hph
    obtain ⟨f, hf, rfl⟩ := List.mem_map.mp hmem
    exact hno ⟨(hkeep _ hmem hph).mp hkeeps, f, hf, hph⟩

theorem lastOf_addedFields (l : RequestLayout) (host : Bytes) (peer : Option PeerAddr) :
    lastOf isLength ((addedFields l host peer).map FieldLayout.field) = none ∧
      lastOf isReadableCoding ((addedFields l host peer).map FieldLayout.field) = none ∧
      lastOf isHost ((addedFields l host peer).map FieldLayout.field) = some (ascii "Host", host) := by
  cases peer with
  | none =>
    refine ⟨lastOf_eq_none.mpr ?_, lastOf_eq_none.mpr ?_, ?_⟩
    · simp only [addedFields, List.nil_append, List.map_cons, List.map_nil, List.mem_cons, List.not_mem_nil, or_false,
        FieldLayout.field]
      rintro h (rfl | rfl) <;> rfl
    · simp only [addedFields, List.nil_append, List.map_cons, List.map_nil, List.mem_cons, List.not_mem_nil, or_false,
        FieldLayout.field]
      rintro h (rfl | rfl) <;> rfl
    · rfl
  | some ip =>
    refine ⟨lastOf_eq_none.mpr ?_, lastOf_eq_none.mpr ?_, ?_⟩
    · simp only [addedFields, List.cons_append, List.nil_append, List.map_cons, List.map_nil, List.mem_cons,
        List.not_mem_nil, or_false, FieldLayout.field]
      rintro h (rfl | rfl | rfl) <;> rfl
    · simp only [addedFields, List.cons_append, List.nil_append, List.map_cons, List.map_nil, List.mem_cons,
        List.not_mem_nil, or_false, FieldLayout.field]
      rintro h (rfl | rfl | rfl) <;> rfl
    · rfl

/-- **The framing that the new head is read with.** -/
theorem framingOf_forwardLayout {l : RequestLayout} (hwf : l.WF) {f : Framing} (hf : framingOf l = some f)
    (target : Bytes) {host : Bytes} (hhost : ∀ b ∈ host, isPrintable b) (peer : Option PeerAddr) :
    ∃ f', framingOf (forwardLayout l target host peer) = some f' ∧ f'.host = some host ∧
      (Reaches l (ascii "transfer-encoding") isReadableCoding → f'.chunked = f.chunked) ∧
      (¬ Reaches l (ascii "transfer-encoding") isReadableCoding → f'.chunked = false) ∧
      (Reaches l (ascii "content-length") isLength → f'.contentLength = f.contentLength) ∧
      (¬ Reaches l (ascii "content-length") isLength → f'.contentLength = none) := by
  have hreads := framingOf_reads hf
  obtain ⟨hlen, hcod, hhostLast⟩ := lastOf_addedFields l host peer
  have hfields : (forwardLayout l target host peer).fields.map FieldLayout.field =
      (forwardedFields l).map FieldLayout.field ++ (addedFields l host peer).map FieldLayout.field := by
    simp [forwardLayout]
  have hvalid : ∀ h ∈ (forwardLayout l target host peer).fields.map FieldLayout.field, isLength h = true →
      ∃ n, contentLengthOf h.2 = some n := by
    intro h hh hl
    rw [hfields, List.mem_append, map_field_forwardedFields] at hh
    rcases hh with hh | hh
    · obtain ⟨g, hg, rfl⟩ := List.mem_map.mp (List.mem_of_mem_filter hh)
      exact hreads.lengths _ (List.mem_map_of_mem ((visibleFields_suffix l).subset hg)) hl
    · rw [lastOf_eq_none.mp hlen h hh] at hl
      cases hl
  obtain ⟨f', hf'⟩ := foldlM_requestField_isSome (Framing.init (some ((1 : Fin 2) : ℕ) != some 0)) hvalid
  have hreads' := foldlM_requestField hf'
  rw [hfields] at hreads'
  have hlast := lastOf_forwarded hwf (n := ascii "content-length") (p := isLength) (fun _ h => h) (by decide) (by decide)
    (by decide) (by decide) hlen
  have hlast' := lastOf_forwarded hwf (n := ascii "transfer-encoding") (p := isReadableCoding)
    (fun _ h => (Bool.and_eq_true_iff.mp h).1) (by decide) (by decide) (by decide) (by decide) hcod
  refine ⟨f', hf', ?_, ?_, ?_, ?_, ?_⟩
  · have hutf : isUtf8 host = true := isUtf8_of_ascii fun b hb => (printable_bytes (hhost b hb)).2.2.2
    rw [hreads'.host, lastOf_append, hhostLast]
    simp [validateUtf8, hutf]
  · intro hr
    rw [hreads'.chunked, hlast'.1 hr, hreads.chunked]
    rfl
  · intro hr
    rw [hreads'.chunked, hlast'.2 hr]
    rfl
  · intro hr
    rw [hreads'.contentLength, hlast.1 hr, hreads.contentLength]
    rfl
  · intro hr
    rw [hreads'.contentLength, hlast.2 hr]
    rfl

/-- The body is framed alike exactly if the field that frames it reaches the new head. -/
theorem requestBody_eq_iff {f f' : Framing} {coding length : Prop} (h1 : coding → f'.chunked = f.chunked)
    (h2 : ¬ coding → f'.chunked = false) (h3 : length → f'.contentLength = f.contentLength)
    (h4 : ¬ length → f'.contentLength = none) :
    requestBody f' = requestBody f ↔
      (requestBody f = .chunked → coding) ∧ ∀ n, requestBody f = .fixed n → length := by
  cases hc : f.chunked with
  | true =>
    have hbody : requestBody f = .chunked := by simp [requestBody, hc]
    rw [hbody]
    by_cases hcod : coding
    · simp [requestBody, h1 hcod, hc, hcod]
    · have hno : f'.chunked = false := h2 hcod
      simp only [hcod, imp_false, not_true_eq_false, false_and, iff_false]
      unfold requestBody
      rw [hno, if_neg (by decide)]
      split <;> simp
  | false =>
    have hno : f'.chunked = false := by
      by_cases hcod : coding
      · rw [h1 hcod, hc]
      · exact h2 hcod
    have hbody : requestBody f ≠ .chunked := by
      unfold requestBody
      rw [hc, if_neg (by decide)]
      split <;> simp
    simp only [hbody, false_imp_iff, true_and]
    by_cases hlen : length
    · simp [requestBody, hno, hc, h3 hlen, hlen]
    · have hempty : requestBody f' = .empty := by simp [requestBody, hno, h4 hlen]
      rw [hempty]
      simp only [hlen, imp_false]
      unfold requestBody
      rw [hc, if_neg (by decide)]
      split
      · simp
      · simp
      · rename_i n _ _
        simp

/-! ## A copied request line -/

theorem token_span {a t : Bytes} {c : UInt8} (ha : ∀ b ∈ a, isToken b) (hc : isToken c = false) :
    (a ++ c :: t).dropWhile isToken = c :: t := by
  rw [List.dropWhile_append_of_pos ha, List.dropWhile_cons, hc, if_neg (by decide)]

theorem cons_ne_eol {b : UInt8} (hb : isToken b) (e : Eol) (s t : Bytes) : b :: t ≠ e.bytes ++ s := by
  intro h
  cases e with
  | crlf =>
    obtain rfl := (List.cons.inj h).1
    exact absurd hb (by decide)
  | lf =>
    obtain rfl := (List.cons.inj h).1
    exact absurd hb (by decide)

/-- A head that goes on with a request line is not one. -/
theorem not_complete_of_stray {hp : HeadParser} (hl : hp.Laws) {l : RequestLayout} (hwf : l.WF)
    (hstray : copiedStray l ≠ []) {target : Bytes} (htarget : ∀ b ∈ target, isPrintable b) (tail : Bytes)
    (h' : RequestHead) :
    parseRequest hp (l.method ++ 32 :: (target ++ 32 :: (versionBytes 1 ++ (Eol.crlf.bytes ++
      ((copiedStray l).flatMap (· ++ [13, 10]) ++ tail))))) ≠ .complete h' := by
  intro h
  obtain ⟨l', rest, f', pos, hwf', -, hout, -, -, -⟩ := parseRequest_complete hl h
  -- the copied line is the request line
  obtain ⟨tail', hline⟩ : ∃ tail', (copiedStray l).flatMap (· ++ [13, 10]) ++ tail = l.method ++ 32 :: tail' := by
    obtain ⟨line, ls, hls⟩ := List.exists_cons_of_ne_nil hstray
    have hline : line = l.line := mem_copiedStray (by rw [hls]; exact List.mem_cons_self)
    rw [hls, hline]
    exact ⟨_, by simp only [List.flatMap_cons, RequestLayout.line, List.append_assoc, List.cons_append]; rfl⟩
  rw [hline] at hout
  obtain ⟨b, m, hm⟩ := List.exists_cons_of_ne_nil hwf.method_ne
  have hb : isToken b := hwf.method_token b (by rw [hm]; exact List.mem_cons_self)
  have hblanks : l'.blanks = [] := by
    cases he : l'.blanks with
    | nil => rfl
    | cons e es =>
      rw [RequestLayout.render, he, hm, renderEols, List.flatMap_cons] at hout
      simp only [List.append_assoc] at hout
      exact absurd hout (cons_ne_eol hb e _ _)
  have hrend : l'.render ++ rest = l'.method ++ 32 :: (l'.target ++ 32 :: (versionBytes l'.minor ++
      (l'.eol.bytes ++ (renderFields l'.fields ++ (l'.last.bytes ++ rest))))) := by
    simp [RequestLayout.render, RequestLayout.line, hblanks, renderEols]
  rw [hrend] at hout
  have hm1 := hwf.space_not_mem_method
  have hm2 := hwf'.space_not_mem_method
  have ht1 : 32 ∉ target := fun hmem => absurd (htarget 32 hmem) (by decide)
  have ht2 := hwf'.space_not_mem_target
  obtain ⟨-, hout⟩ := append_sep_inj hm1 hm2 hout
  obtain ⟨-, hout⟩ := append_sep_inj ht1 ht2 hout
  obtain ⟨-, hout⟩ := List.append_inj hout (by rfl)
  have hrest : l.method ++ 32 :: tail' = renderFields l'.fields ++ (l'.last.bytes ++ rest) := by
    cases he : l'.eol with
    | crlf =>
      rw [he] at hout
      exact List.append_cancel_left hout
    | lf =>
      rw [he] at hout
      exact absurd (List.cons.inj hout).1 (by decide)
  cases hfs : l'.fields with
  | nil =>
    -- the head ends where the line starts
    rw [hfs, hm] at hrest
    exact absurd hrest (cons_ne_eol hb l'.last _ _)
  | cons g gs =>
    -- the first field has its colon where the line has a space
    have hg := hwf'.fields_wf g (by rw [hfs]; exact List.mem_cons_self)
    rw [hfs] at hrest
    have hfield : l.method ++ 32 :: tail' = g.name ++ 58 :: ((g.before ++ g.value ++ g.after) ++ (g.eol.bytes ++
        (renderFields gs ++ (l'.last.bytes ++ rest)))) := by
      rw [hrest]
      simp [renderFields, FieldLayout.render, FieldLayout.line]
    have hdrop := congrArg (·.dropWhile isToken) hfield
    rw [token_span hwf.method_token (by decide), token_span hg.name_token (by decide)] at hdrop
    exact absurd (List.cons.inj hdrop).1 (by decide)

/-! ## The equivalence -/

/-- The new head is read as the request that the proxy understood: same method and body, with the new target and
host, and nothing behind it. -/
def PreservesRequest (hp : HeadParser) (out : Bytes) (h : RequestHead) (target host : Bytes) : Prop :=
  ∃ h', parseRequest hp out = .complete h' ∧ h'.headLen = out.length ∧ h'.method = h.method ∧
    h'.target = target ∧ h'.host = some host ∧ h'.body = h.body

/-- The request line is not copied, and the field that frames the body is. -/
structure KeepsFraming (l : RequestLayout) (body : BodyLength) : Prop where
  requestLine : ∀ line ∈ strayLines l, copiesLine (nominatedNames l) line = false
  chunked : body = .chunked → Reaches l (ascii "transfer-encoding") isReadableCoding
  fixed : ∀ n, body = .fixed n → Reaches l (ascii "content-length") isLength

theorem copiedStray_eq_nil {l : RequestLayout} :
    copiedStray l = [] ↔ ∀ line ∈ strayLines l, copiesLine (nominatedNames l) line = false := by
  simp [copiedStray, List.filter_eq_nil_iff]

/-- For a head with the layout `l`, the new head is read as the same request exactly if its framing is kept. -/
theorem preservesRequest_iff {hp : HeadParser} (hl : hp.Laws) {l : RequestLayout} (hwf : l.WF) {rest : Bytes}
    (hlen : l.fields.length ≤ MAX_HEADERS - 3) {h : RequestHead}
    (hparse : parseRequest hp (l.render ++ rest) = .complete h) {target host : Bytes} (hne : target ≠ [])
    (htarget : ∀ b ∈ target, isPrintable b) (hhost : ∀ b ∈ host, isPrintable b) (peer : Option PeerAddr) :
    PreservesRequest hp (writeForwardHead (l.render ++ rest) h target host peer) h target host ↔
      KeepsFraming l h.body := by
  have hslots : MAX_HEADERS = 96 := rfl
  obtain ⟨f, pos, hf, -, rfl⟩ := parseRequest_layout hl hwf (by omega) hparse
  by_cases hstray : copiedStray l = []
  · obtain ⟨f', hf', hhost', h1, h2, h3, h4⟩ := framingOf_forwardLayout hwf hf target hhost peer
    have hcount := length_forwardLayout_fields l target host peer
    obtain ⟨pos', hparse'⟩ := parseRequest_of_layout hl (forwardLayout_wf hwf hne htarget hhost peer) (by omega) hf' []
    rw [List.append_nil] at hparse'
    rw [writeForwardHead_eq_render hwf hstray]
    have hbody : requestBody f' = requestBody f ↔ _ := requestBody_eq_iff h1 h2 h3 h4
    constructor
    · rintro ⟨h', hp', -, -, -, -, hb⟩
      rw [hparse'] at hp'
      obtain rfl := Parsed.complete.inj hp'
      obtain ⟨hc, hfix⟩ := hbody.mp hb
      exact ⟨copiedStray_eq_nil.mp hstray, hc, hfix⟩
    · rintro ⟨-, hc, hfix⟩
      exact ⟨_, hparse', rfl, rfl, rfl, hhost', hbody.mpr ⟨hc, hfix⟩⟩
  · constructor
    · rintro ⟨h', hp', -⟩
      rw [writeForwardHead_eq hwf] at hp'
      exact absurd hp' (not_complete_of_stray hl hwf hstray htarget _ h')
    · intro hk
      exact absurd (copiedStray_eq_nil.mpr hk.requestLine) hstray

/-- **The new head says what the old one said exactly if the request line is not copied like a field and the field
that frames the body reaches it.** -/
theorem forward_preserves_iff {hp : HeadParser} (hl : hp.Laws) {buf : Bytes} {h : RequestHead}
    (hparse : parseRequest hp buf = .complete h) :
    (∃ (l : RequestLayout) (rest : Bytes), l.WF ∧ buf = l.render ++ rest) ∧
    ∀ (l : RequestLayout) (rest : Bytes), l.WF → buf = l.render ++ rest → l.fields.length ≤ MAX_HEADERS - 3 →
      ∀ (target host : Bytes) (peer : Option PeerAddr), target ≠ [] → (∀ b ∈ target, isPrintable b) →
        host ≠ [] → (∀ b ∈ host, isPrintable b) →
        (PreservesRequest hp (writeForwardHead buf h target host peer) h target host ↔ KeepsFraming l h.body) := by
  refine ⟨?_, ?_⟩
  · obtain ⟨l, rest, -, -, hwf, -, hbuf, -⟩ := parseRequest_complete hl hparse
    exact ⟨l, rest, hwf, hbuf⟩
  rintro l rest hwf rfl hlen target host peer hne htarget - hhost
  exact preservesRequest_iff hl hwf hlen hparse hne htarget hhost peer

/-- An upload that nominates a field of its own. -/
def sampleUploadLayout : RequestLayout :=
  ⟨[], ascii "POST", ascii "/a", 1, .crlf, [⟨ascii "Connection", [32], ascii "x-trace", [], .crlf⟩,
    ⟨ascii "Content-Length", [32], ascii "2", [], .crlf⟩, ⟨ascii "X-Trace", [32], ascii "7", [], .lf⟩], .crlf⟩

theorem sampleUploadLayout_wf : sampleUploadLayout.WF := by decide

theorem forward_preserves_upload :
    PreservesRequest .reference
      (writeForwardHead (sampleUploadLayout.render ++ ascii "hi")
        ⟨71, ascii "POST", ascii "/a", none, .fixed 2, false, (5, 7)⟩ (ascii "/b") (ascii "10.0.0.1:80") none)
      ⟨71, ascii "POST", ascii "/a", none, .fixed 2, false, (5, 7)⟩ (ascii "/b") (ascii "10.0.0.1:80") := by
  refine ((forward_preserves_iff HeadParser.reference_laws (by decide +kernel)).2 sampleUploadLayout (ascii "hi")
    sampleUploadLayout_wf rfl (by decide) _ _ _ (by decide) (List.all_eq_true.mp (by decide))
    (by decide) (List.all_eq_true.mp (by decide))).mpr ⟨?_, ?_, ?_⟩
  · simp [strayLines, sampleUploadLayout]
  · intro h
    cases h
  · intro n _
    exact ⟨by decide +kernel, by decide +kernel⟩

/-- A request whose `Connection` field nominates its own length. -/
def sampleNominated : Bytes :=
  ascii "POST /a HTTP/1.1\r\nConnection: content-length\r\nContent-Length: 2\r\n\r\n"

/-- The body is relayed, but the upstream is not told of it. -/
theorem nominated_length_is_lost :
    parseRequest .reference sampleNominated =
        .complete ⟨67, ascii "POST", ascii "/a", none, .fixed 2, false, (5, 7)⟩ ∧
      ¬ PreservesRequest .reference
        (writeForwardHead sampleNominated ⟨67, ascii "POST", ascii "/a", none, .fixed 2, false, (5, 7)⟩ (ascii "/a")
          (ascii "10.0.0.1:80") none)
        ⟨67, ascii "POST", ascii "/a", none, .fixed 2, false, (5, 7)⟩ (ascii "/a") (ascii "10.0.0.1:80") := by
  refine ⟨by decide +kernel, ?_⟩
  rintro ⟨h', hparse, -, -, -, -, hbody⟩
  have hout : parseRequest .reference
      (writeForwardHead sampleNominated ⟨67, ascii "POST", ascii "/a", none, .fixed 2, false, (5, 7)⟩ (ascii "/a")
        (ascii "10.0.0.1:80") none) =
      .complete ⟨64, ascii "POST", ascii "/a", some (ascii "10.0.0.1:80"), .empty, false, (5, 7)⟩ := by
    decide +kernel
  rw [hout] at hparse
  obtain rfl := Parsed.complete.inj hparse
  cases hbody

end LbProxy.Monoio
