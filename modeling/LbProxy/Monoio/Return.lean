import LbProxy.Monoio.Values

/-!
# When a returned head says what the response said

`write_return_head` looks for the end of the status line itself, at the first CRLF of the head.

* `writeReturnHead_lines` — the returned head: what stands before the header block, the lines of the block that are
  passed on, and the `Connection` field;
* `valuesOf_return` — the values of a name in it, if all fields stand in the header block;
* `StatusLineKept` — the status line comes first in it again; `writeReturnHead_eq_render` — then it is a head, and
  `not_returned_of_lost` — else it is none, or ends too early;
* `codingOf_returned`, `lengthOf_returned` — the framing of the fields that are returned;
* `ReadBack` — what is read of the returned head; `return_preserves_iff` — when it says what the response said.
-/

namespace LbProxy.Monoio

open Lib LbProxy.Core

/-! ## The lines of a response head -/

theorem isLineByte_codeBytes (code : Fin 1000) : ∀ b ∈ codeBytes code, isLineByte b := by
  have hdigit : ∀ d < 10, isLineByte (48 + UInt8.ofNat d) = true := by decide
  have hcode := code.isLt
  intro b hb
  simp only [codeBytes, List.mem_cons, List.not_mem_nil, or_false] at hb
  rcases hb with rfl | rfl | rfl
  · exact hdigit _ (by omega)
  · exact hdigit _ (by omega)
  · exact hdigit _ (by omega)

theorem isLineByte_of_mem_statusLine {r : ResponseLayout} (hwf : r.WF) : ∀ b ∈ r.line, isLineByte b := by
  intro b hb
  simp only [ResponseLayout.line, List.mem_append, List.mem_cons] at hb
  rcases hb with hb | rfl | hb | hb
  · exact isLineByte_of_isFieldByte (isFieldByte_of_mem_version hb)
  · decide
  · exact isLineByte_codeBytes _ b hb
  · cases hr : r.reason with
    | none => simp [hr] at hb
    | some reason =>
      simp only [hr, List.mem_cons] at hb
      rcases hb with rfl | hb
      · decide
      · exact isLineByte_of_isFieldByte (hwf.reason_bytes reason hr b hb)

/-- The lines of a response head, with the empty ones around it. -/
def responseLines (r : ResponseLayout) : List (Bytes × Eol) :=
  r.blanks.map (fun e => ([], e)) ++
    (r.line, r.eol) :: (r.fields.map (fun f => (f.line, f.eol)) ++ [([], r.last)])

theorem renderLines_responseLines (r : ResponseLayout) : renderLines (responseLines r) = r.render := by
  simp [responseLines, ResponseLayout.render]

theorem isLineByte_of_mem_responseLines {r : ResponseLayout} (hwf : r.WF) :
    ∀ x ∈ responseLines r, ∀ b ∈ x.1, isLineByte b := by
  intro x hx b hb
  simp only [responseLines, List.mem_append, List.mem_map, List.mem_cons, List.not_mem_nil, or_false] at hx
  rcases hx with ⟨e, -, rfl⟩ | rfl | ⟨f, hf, rfl⟩ | rfl
  · simp at hb
  · exact isLineByte_of_mem_statusLine hwf b hb
  · exact isLineByte_of_isFieldByte (isFieldByte_of_mem_fieldLine (hwf.fields_wf f hf) hb)
  · simp at hb

/-- The bytes behind the first CRLF of a response head. -/
def responseBlock (r : ResponseLayout) : Bytes := r.render.drop (headersStart r.render)

/-- The names that the `Connection` lines of the header block nominate. -/
def blockNominated (r : ResponseLayout) : List Bytes := connectionNominated (responseBlock r)

/-- The status line, if it stands in the header block: when a CRLF stands before it. -/
def strayStatus (r : ResponseLayout) : List Bytes := if .crlf ∈ r.blanks then [r.line] else []

/-- The fields in the header block. -/
def blockFields (r : ResponseLayout) : List FieldLayout :=
  if .crlf ∈ r.blanks ∨ r.eol = .crlf then r.fields else (r.fields.dropWhile (·.eol == .lf)).drop 1

/-- The fields before the header block, which are returned as they stand. -/
def verbatimFields (r : ResponseLayout) : List FieldLayout :=
  if .crlf ∈ r.blanks ∨ r.eol = .crlf then [] else cutAt (·.eol == .lf) r.fields

theorem verbatimFields_append (r : ResponseLayout) : verbatimFields r ++ blockFields r = r.fields := by
  unfold verbatimFields blockFields
  split
  · rfl
  · exact cutAt_append_drop _ _

theorem statusLine_ne_nil (r : ResponseLayout) : r.line ≠ [] := by simp [ResponseLayout.line]

theorem splitHeaderLines_responseBlock {r : ResponseLayout} (hwf : r.WF) :
    splitHeaderLines (responseBlock r) = strayStatus r ++ (blockFields r).map FieldLayout.line := by
  have hbytes := isLineByte_of_mem_responseLines hwf
  have hrest : ∀ x ∈ ((responseLines r).dropWhile endsInLf).drop 1, ∀ b ∈ x.1, isLineByte b := fun x hx =>
    hbytes x ((List.dropWhile_suffix _).subset ((List.drop_suffix 1 _).subset hx))
  rw [responseBlock, ← renderLines_responseLines, drop_headersStart hbytes, splitHeaderLines_renderLines hrest]
  exact lineTexts_headerBlock r.blanks (statusLine_ne_nil r) r.eol r.fields r.last

theorem take_responseBlock {r : ResponseLayout} (hwf : r.WF) :
    r.render.take (headersStart r.render) = renderLines (cutAt endsInLf (responseLines r)) := by
  rw [← renderLines_responseLines]
  exact take_headersStart (isLineByte_of_mem_responseLines hwf)

/-! ## The lines that are passed on -/

/-- The line is passed on. -/
def returnsLine (nominated : List Bytes) (line : Bytes) : Bool :=
  match splitColon line with
  | some (name, _) => !(isHopByHop name || nominated.any (eqCi name))
  | none => false

/-- The fields of the header block that are passed on; their lines end in CRLF then. -/
def passedFields (r : ResponseLayout) : List FieldLayout :=
  ((blockFields r).filter fun f => returnsLine (blockNominated r) f.line).map fun f => { f with eol := .crlf }

/-- The `Connection` field that is added. -/
def dispositionField (keepAlive : Bool) : FieldLayout :=
  ⟨ascii "Connection", [32], if keepAlive then ascii "keep-alive" else ascii "close", [], .crlf⟩

theorem flatMap_eq_filter {α β : Type} {g : α → List β} (p : α → Bool) (f : α → List β)
    (h : ∀ x, g x = if p x = true then f x else []) (l : List α) : l.flatMap g = (l.filter p).flatMap f := by
  induction l with
  | nil => rfl
  | cons x l ih =>
    rw [List.flatMap_cons, ih, List.filter_cons, h]
    cases p x with
    | true => rfl
    | false => rfl

/-- **The returned head.** -/
theorem writeReturnHead_lines {r : ResponseLayout} (hwf : r.WF) {head : ResponseHead}
    (hlen : head.headLen = r.render.length) (keepAlive : Bool) (rest : Bytes) :
    writeReturnHead (r.render ++ rest) head keepAlive =
      renderLines (cutAt endsInLf (responseLines r)) ++
        (((strayStatus r).filter (returnsLine (blockNominated r))).flatMap (· ++ [13, 10]) ++
          (renderFields (passedFields r ++ [dispositionField keepAlive]) ++ [13, 10])) := by
  have hhead : (r.render ++ rest).take head.headLen = r.render := by rw [hlen, List.take_left]
  have hconn : ∀ b : Bool, (if b then ascii "Connection: keep-alive\r\n\r\n" else ascii "Connection: close\r\n\r\n") =
      renderFields [dispositionField b] ++ [13, 10] := by decide
  have hpassed : (((blockFields r).map FieldLayout.line).filter (returnsLine (blockNominated r))).flatMap
      (· ++ [13, 10]) = renderFields (passedFields r) := by
    rw [List.filter_map, List.flatMap_map, passedFields, renderFields, List.flatMap_map]
    rfl
  simp only [writeReturnHead, hhead]
  rw [← responseBlock, ← blockNominated, take_responseBlock hwf, hconn]
  rw [flatMap_eq_filter (returnsLine (blockNominated r)) (· ++ [13, 10]), splitHeaderLines_responseBlock hwf,
    List.filter_append, List.flatMap_append, hpassed]
  · simp [renderFields]
  · intro line
    cases hc : splitColon line with
    | none => simp [returnsLine, hc]
    | some x =>
      obtain ⟨name, value⟩ := x
      cases hd : isHopByHop name || (blockNominated r).any (eqCi name) <;> simp [returnsLine, hc, hd]

/-! ## The values of a returned head

Without empty lines before it and with a status line that ends in CRLF, all fields stand in the header block. -/

/-- The names that the `Connection` lines of a response head nominate. -/
def returnNominated (r : ResponseLayout) : List Bytes := connectionNominated (renderFields r.fields ++ r.last.bytes)

/-- The values of a name in a returned head: what is passed on of it, and the proxy's own `Connection`. -/
def returnedValues (r : ResponseLayout) (keepAlive : Bool) (n : Bytes) : List Bytes :=
  if n = CONNECTION then [if keepAlive then ascii "keep-alive" else ascii "close"]
  else forwardable (returnNominated r) (r.fields.map FieldLayout.field) n

/-- The field is returned. -/
def returnsField (r : ResponseLayout) (f : FieldLayout) : Bool :=
  !(isHopByHop f.name || (returnNominated r).any (eqCi f.name))

/-- The lines of a returned head. -/
def returnLines (r : ResponseLayout) (keepAlive : Bool) : List (Bytes × Eol) :=
  (r.line, .crlf) :: ((r.fields.filter (returnsField r)).map (fun f => (f.line, .crlf)) ++
    [(ascii "Connection: " ++ if keepAlive then ascii "keep-alive" else ascii "close", .crlf), ([], .crlf)])

section Return

variable {r : ResponseLayout} (hwf : r.WF) (hblanks : r.blanks = []) (heol : r.eol = .crlf)

include hwf hblanks heol in
/-- **The returned head, line by line.** -/
theorem writeReturnHead_eq {head : ResponseHead} (hlen : head.headLen = r.render.length) (keepAlive : Bool)
    (rest : Bytes) : writeReturnHead (r.render ++ rest) head keepAlive = renderLines (returnLines r keepAlive) := by
  have hcut : cutAt endsInLf (responseLines r) = [(r.line, .crlf)] := by
    simp [responseLines, hblanks, heol, cutAt, endsInLf]
  have hblock : responseBlock r = renderFields r.fields ++ r.last.bytes := by
    rw [responseBlock, ← renderLines_responseLines, drop_headersStart (isLineByte_of_mem_responseLines hwf)]
    simp [responseLines, hblanks, heol, endsInLf]
  have hnom : blockNominated r = returnNominated r := by rw [blockNominated, hblock, returnNominated]
  have hfields : blockFields r = r.fields := by simp [blockFields, heol]
  have hkept : (blockFields r).filter (fun f => returnsLine (blockNominated r) f.line) =
      r.fields.filter (returnsField r) := by
    rw [hfields, hnom]
    refine List.filter_congr fun f hf => ?_
    rw [returnsLine, splitColon_fieldLine (hwf.fields_wf f hf), returnsField]
  have hpassed : renderFields (passedFields r) =
      renderLines ((r.fields.filter (returnsField r)).map fun f => (f.line, .crlf)) := by
    rw [passedFields, hkept, renderFields, renderLines, List.flatMap_map, List.flatMap_map]
    rfl
  have hconn : renderFields [dispositionField keepAlive] = renderLines
      [(ascii "Connection: " ++ if keepAlive then ascii "keep-alive" else ascii "close", .crlf)] := by
    cases keepAlive <;> decide
  have hsplit : renderFields (passedFields r ++ [dispositionField keepAlive]) =
      renderFields (passedFields r) ++ renderFields [dispositionField keepAlive] := by simp [renderFields]
  rw [writeReturnHead_lines hwf hlen, hcut, hsplit, hpassed, hconn]
  simp [strayStatus, hblanks, returnLines, Eol.bytes]

include hwf in
theorem isLineByte_of_mem_returnLines (keepAlive : Bool) : ∀ x ∈ returnLines r keepAlive, ∀ b ∈ x.1, isLineByte b := by
  intro x hx b hb
  simp only [returnLines, List.mem_append, List.mem_map, List.mem_cons, List.not_mem_nil, or_false] at hx
  rcases hx with rfl | ⟨f, hf, rfl⟩ | rfl | rfl
  · exact isLineByte_of_mem_statusLine hwf b hb
  · exact isLineByte_of_isFieldByte (isFieldByte_of_mem_fieldLine (hwf.fields_wf f (List.mem_of_mem_filter hf)) hb)
  · have hall : ∀ keep : Bool, (ascii "Connection: " ++ if keep then ascii "keep-alive" else ascii "close").all
        isLineByte = true := by decide
    exact List.all_eq_true.mp (hall keepAlive) b hb
  · simp at hb

include hwf in
theorem fieldsOf_returnLines (keepAlive : Bool) :
    fieldsOf (renderLines (returnLines r keepAlive)) =
      (r.fields.filter (returnsField r)).map FieldLayout.field ++
        [(ascii "Connection", if keepAlive then ascii "keep-alive" else ascii "close")] := by
  have hbytes := isLineByte_of_mem_returnLines hwf keepAlive
  have hkept : lineTexts ((r.fields.filter (returnsField r)).map fun f => (f.line, Eol.crlf)) =
      (r.fields.filter (returnsField r)).map FieldLayout.line := by
    rw [lineTexts, List.map_map, List.filter_eq_self.mpr]
    · rfl
    · intro x hx
      obtain ⟨f, -, rfl⟩ := List.mem_map.mp hx
      simpa using fieldLine_ne_nil f
  have hne : ∀ s, ascii "Connection: " ++ s ≠ [] := fun s h => absurd (List.append_eq_nil_iff.mp h).1 (by decide)
  have hconn : ∀ b : Bool, fieldOf (ascii "Connection: " ++ if b then ascii "keep-alive" else ascii "close") =
      some (ascii "Connection", if b then ascii "keep-alive" else ascii "close") := by decide
  rw [fieldsOf, drop_headersStart hbytes, splitHeaderLines_renderLines]
  · show (lineTexts (((returnLines r keepAlive).dropWhile endsInLf).drop 1)).filterMap fieldOf = _
    rw [returnLines, List.dropWhile_cons, show endsInLf (r.line, Eol.crlf) = false from rfl, if_neg (by decide),
      List.drop_succ_cons, List.drop_zero, lineTexts_append, hkept, lineTexts_cons (hne _), lineTexts_empty,
      List.filterMap_append, filterMap_fieldOf fun f hf => hwf.fields_wf f (List.mem_of_mem_filter hf),
      List.filterMap_cons, hconn]
    rfl
  · intro x hx
    exact hbytes x ((List.dropWhile_suffix _).subset ((List.drop_suffix 1 _).subset hx))

include hwf in
theorem valuesOf_returned (n : Bytes) :
    valuesOf ((r.fields.filter (returnsField r)).map FieldLayout.field) n =
      forwardable (returnNominated r) (r.fields.map FieldLayout.field) n := by
  have hmap : (r.fields.filter (returnsField r)).map FieldLayout.field =
      (r.fields.map FieldLayout.field).filter fun x => !(isHopByHop x.1 || (returnNominated r).any (eqCi x.1)) := by
    rw [List.filter_map]
    rfl
  rw [hmap, valuesOf_filter (p := ¬ (n = CONNECTION ∨ n ∈ Core.HOP_BY_HOP ∨ n ∈ returnNominated r)), ite_not]
  · rfl
  · intro x hx hn
    have htoken : ∀ b ∈ x.1, isToken b := by
      obtain ⟨f, hf, rfl⟩ := List.mem_map.mp hx
      exact (hwf.fields_wf f hf).name_token
    rw [Bool.not_eq_true', ← Bool.not_eq_true, Bool.or_eq_true, isHopByHop_iff htoken, mem_hopByHop, or_assoc,
      any_eqCi_iff (fun m (hm : m ∈ returnNominated r) => lowercase_connectionNominated hm) htoken, hn]

include hwf hblanks heol in
/-- **The values of a name in a returned head.** -/
theorem valuesOf_return {head : ResponseHead} (hlen : head.headLen = r.render.length) (keepAlive : Bool)
    (rest n : Bytes) :
    valuesOf (fieldsOf (writeReturnHead (r.render ++ rest) head keepAlive)) n = returnedValues r keepAlive n := by
  rw [writeReturnHead_eq hwf hblanks heol hlen, fieldsOf_returnLines hwf, valuesOf_append, valuesOf_returned hwf,
    valuesOf_cons, valuesOf_nil, List.append_nil, show lowercase (ascii "Connection") = CONNECTION by decide,
    returnedValues]
  by_cases h : n = CONNECTION
  · simp [h, forwardable]
  · simp [h, Ne.symm h]

end Return

/-! ## The returned head as a head -/

/-- The status line stands first in the returned head, and the header block starts before the end of the head. -/
structure StatusLineKept (r : ResponseLayout) : Prop where
  /-- A status line behind a CRLF is passed on like a field. -/
  copied : .crlf ∈ r.blanks → returnsLine (blockNominated r) r.line = true
  /-- A status line that ends in a bare line feed is followed by a field that ends in CRLF. -/
  ended : .crlf ∉ r.blanks → r.eol = .lf → ∃ f ∈ r.fields, f.eol = .crlf

/-- The fields of the returned head. -/
def returnedFields (r : ResponseLayout) (keepAlive : Bool) : List FieldLayout :=
  verbatimFields r ++ (passedFields r ++ [dispositionField keepAlive])

/-- The returned head. -/
def returnLayout (r : ResponseLayout) (keepAlive : Bool) : ResponseLayout :=
  ⟨cutAt (· == .lf) r.blanks, r.minor, r.code, r.reason, if .crlf ∈ r.blanks then .crlf else r.eol,
    returnedFields r keepAlive, .crlf⟩

theorem cutAt_responseLines_blank {r : ResponseLayout} (h : .crlf ∈ r.blanks) :
    cutAt endsInLf (responseLines r) = (cutAt (· == .lf) r.blanks).map fun e => ([], e) := by
  rw [responseLines, cutAt_append_of_exists ⟨([], .crlf), List.mem_map_of_mem h, rfl⟩, cutAt_map]
  rfl

theorem cutAt_responseLines_line {r : ResponseLayout} (h : .crlf ∉ r.blanks) :
    cutAt endsInLf (responseLines r) = r.blanks.map (fun e => ([], e)) ++
      cutAt endsInLf ((r.line, r.eol) :: (r.fields.map (fun f => (f.line, f.eol)) ++ [([], r.last)])) := by
  rw [responseLines, cutAt_append_of_all]
  intro x hx
  obtain ⟨e, he, rfl⟩ := List.mem_map.mp hx
  cases e with
  | lf => rfl
  | crlf => exact absurd he h

theorem cutAt_responseLines_field {r : ResponseLayout} (h : .crlf ∉ r.blanks) (heol : r.eol = .lf)
    (hfield : ∃ f ∈ r.fields, f.eol = .crlf) :
    cutAt endsInLf (responseLines r) = r.blanks.map (fun e => ([], e)) ++
      (r.line, r.eol) :: (verbatimFields r).map fun f => (f.line, f.eol) := by
  obtain ⟨f, hf, hcrlf⟩ := hfield
  have hex : ∃ x ∈ r.fields.map (fun f => (f.line, f.eol)), endsInLf x = false :=
    ⟨_, List.mem_map_of_mem hf, by simp [endsInLf, hcrlf]⟩
  have hcut : ∀ ls, cutAt endsInLf ((r.line, r.eol) :: ls) = (r.line, r.eol) :: cutAt endsInLf ls := fun ls =>
    cutAt_append_of_all (a := [(r.line, r.eol)]) (by simp [endsInLf, heol]) ls
  rw [cutAt_responseLines_line h, hcut, cutAt_append_of_exists hex, cutAt_map, verbatimFields,
    if_neg (by simp [h, heol])]
  rfl

/-- **A status line that is kept starts a head again.** -/
theorem writeReturnHead_eq_render {r : ResponseLayout} (hwf : r.WF) (hkept : StatusLineKept r) {head : ResponseHead}
    (hlen : head.headLen = r.render.length) (keepAlive : Bool) (rest : Bytes) :
    writeReturnHead (r.render ++ rest) head keepAlive = (returnLayout r keepAlive).render := by
  have hline : (returnLayout r keepAlive).line = r.line := rfl
  rw [writeReturnHead_lines hwf hlen, ResponseLayout.render, hline]
  by_cases hblanks : .crlf ∈ r.blanks
  · have hverb : verbatimFields r = [] := by simp [verbatimFields, hblanks]
    rw [cutAt_responseLines_blank hblanks]
    simp [strayStatus, hblanks, hkept.copied hblanks, returnLayout, returnedFields, hverb, Eol.bytes]
  · have hself : cutAt (· == .lf) r.blanks = r.blanks := by
      refine cutAt_eq_self fun e he => ?_
      cases e with
      | lf => rfl
      | crlf => exact absurd he hblanks
    cases heol : r.eol with
    | crlf =>
      have hverb : verbatimFields r = [] := by simp [verbatimFields, heol]
      have hcut : ∀ ls, cutAt endsInLf ((r.line, Eol.crlf) :: ls) = [(r.line, .crlf)] := fun ls => by
        simp [cutAt, endsInLf]
      rw [cutAt_responseLines_line hblanks, heol, hcut]
      simp [strayStatus, hblanks, returnLayout, returnedFields, hverb, hself, heol, Eol.bytes]
    | lf =>
      rw [cutAt_responseLines_field hblanks heol (hkept.ended hblanks heol)]
      simp [strayStatus, hblanks, returnLayout, returnedFields, hself, heol, Eol.bytes, renderFields]

/-! ## A status line that is lost -/

theorem dropWhile_renderEols (es : List Eol) {b : UInt8} (hb : isLineByte b) (t : Bytes) :
    (renderEols es ++ b :: t).dropWhile (!isLineByte ·) = b :: t := by
  have heols : ∀ c ∈ renderEols es, (!isLineByte c) = true := by
    intro c hc
    obtain ⟨e, -, hc⟩ := List.mem_flatMap.mp hc
    have hall : ∀ e : Eol, e.bytes.all (!isLineByte ·) = true := by rintro (_ | _) <;> decide
    exact List.all_eq_true.mp (hall e) c hc
  rw [List.dropWhile_append_of_pos heols, List.dropWhile_cons_of_neg (by simp [hb])]

/-- A text that starts with a field is no response head. -/
theorem not_complete_of_field {hp : HeadParser} (hl : hp.Laws) (es : List Eol) {g : FieldLayout} (hg : g.WF)
    (tail method : Bytes) (h' : ResponseHead) :
    parseResponse hp (renderEols es ++ (g.render ++ tail)) method ≠ .complete h' := by
  intro h
  obtain ⟨raw, hraw, -⟩ := parseResponse_eq h
  obtain ⟨l', rest, -, -, hout, -, -⟩ := hl.response_sound hraw
  obtain ⟨b, name, hname⟩ := List.exists_cons_of_ne_nil hg.name_ne
  have htoken : isToken b := hg.name_token b (by rw [hname]; exact List.mem_cons_self)
  have hb : isLineByte b := isLineByte_of_isFieldByte (isFieldByte_of_isToken htoken)
  -- behind the line ends one text starts with a name and a colon, the other with the name of the protocol
  have hleft : g.render ++ tail = b :: (name ++ 58 :: (g.before ++ g.value ++ g.after ++ (g.eol.bytes ++ tail))) := by
    simp [FieldLayout.render, FieldLayout.line, hname]
  obtain ⟨t, hright⟩ : ∃ t, l'.render ++ rest = renderEols l'.blanks ++ (ascii "HTTP" ++ 47 :: t) := by
    rw [ResponseLayout.render, ResponseLayout.line, versionBytes,
      show ascii "HTTP/1." = ascii "HTTP" ++ 47 :: ascii "1." by decide]
    simp only [List.append_assoc, List.cons_append]
    exact ⟨_, rfl⟩
  rw [hleft, hright] at hout
  have hstrip := congrArg (·.dropWhile (!isLineByte ·)) hout
  rw [dropWhile_renderEols es hb, show ascii "HTTP" ++ 47 :: t = 72 :: (ascii "TTP" ++ 47 :: t) by rfl,
    dropWhile_renderEols _ (by decide)] at hstrip
  have hspan : (g.name ++ 58 :: (g.before ++ g.value ++ g.after ++ (g.eol.bytes ++ tail))).dropWhile isToken =
      (ascii "HTTP" ++ 47 :: t).dropWhile isToken := by
    rw [hname]
    exact congrArg (·.dropWhile isToken) hstrip
  rw [token_span hg.name_token (by decide), token_span (List.all_eq_true.mp (by decide)) (by decide)] at hspan
  exact absurd (List.cons.inj hspan).1 (by decide)

theorem dispositionField_wf (keepAlive : Bool) : (dispositionField keepAlive).WF := by
  cases keepAlive <;> decide

theorem passedFields_wf {r : ResponseLayout} (hwf : r.WF) : ∀ f ∈ passedFields r, f.WF := by
  intro f hf
  obtain ⟨g, hg, rfl⟩ := List.mem_map.mp hf
  have hmem : g ∈ r.fields := by
    rw [← verbatimFields_append r]
    exact List.mem_append_right _ (List.mem_of_mem_filter hg)
  obtain ⟨h1, h2, h3, h4, h5, h6, h7, h8⟩ := hwf.fields_wf g hmem
  exact ⟨h1, h2, h3, h4, h5, h6, h7, h8⟩

/-- **A status line that is lost**: the returned head is no head, or a head that ends before its `Connection` field. -/
theorem not_returned_of_lost {hp : HeadParser} (hl : hp.Laws) {r : ResponseLayout} (hwf : r.WF)
    (hslots : r.fields.length ≤ MAX_HEADERS) (hlost : ¬ StatusLineKept r) {head : ResponseHead}
    (hlen : head.headLen = r.render.length) (keepAlive : Bool) (rest method : Bytes) (h' : ResponseHead)
    (h : parseResponse hp (writeReturnHead (r.render ++ rest) head keepAlive) method = .complete h') :
    h'.headLen ≠ (writeReturnHead (r.render ++ rest) head keepAlive).length := by
  rw [writeReturnHead_lines hwf hlen] at h ⊢
  by_cases hblanks : .crlf ∈ r.blanks
  · have hdropped : returnsLine (blockNominated r) r.line = false := by
      by_contra hcopied
      exact hlost ⟨fun _ => by simpa using hcopied, fun hno => absurd hblanks hno⟩
    have hstray : (strayStatus r).filter (returnsLine (blockNominated r)) = [] := by
      simp [strayStatus, hblanks, hdropped]
    obtain ⟨g, gs, hfields⟩ : ∃ g gs, passedFields r ++ [dispositionField keepAlive] = g :: gs :=
      List.exists_cons_of_ne_nil (by simp)
    have hg : g.WF := by
      have hmem : g ∈ passedFields r ++ [dispositionField keepAlive] := by
        rw [hfields]
        exact List.mem_cons_self
      rcases List.mem_append.mp hmem with hmem | hmem
      · exact passedFields_wf hwf g hmem
      · rw [List.mem_singleton.mp hmem]
        exact dispositionField_wf keepAlive
    rw [cutAt_responseLines_blank hblanks, hstray, hfields, renderLines_blanks, renderFields, List.flatMap_cons,
      List.flatMap_nil, List.nil_append, List.append_assoc] at h
    exact absurd h (not_complete_of_field hl _ hg _ _ h')
  · have hlf : r.eol = .lf ∧ ∀ f ∈ r.fields, f.eol = .lf := by
      by_contra hcrlf
      refine hlost ⟨fun hb => absurd hb hblanks, fun _ heol => ?_⟩
      by_contra hno
      refine hcrlf ⟨heol, fun f hf => ?_⟩
      cases he : f.eol with
      | lf => rfl
      | crlf => exact absurd ⟨f, hf, he⟩ hno
    -- the whole head stands before the block, and what is added stands behind its end
    have hwhole : cutAt endsInLf (responseLines r) = responseLines r := by
      rw [cutAt_responseLines_line hblanks, ← List.cons_append, cutAt_append_of_all, responseLines, List.cons_append]
      · cases r.last <;> rfl
      · intro x hx
        rcases List.mem_cons.mp hx with rfl | hx
        · simp [endsInLf, hlf.1]
        · obtain ⟨f, hf, rfl⟩ := List.mem_map.mp hx
          simp [endsInLf, hlf.2 f hf]
    rw [hwhole, renderLines_responseLines] at h ⊢
    obtain ⟨raw, hraw, -⟩ := parseResponse_eq h
    rw [hl.response_complete _ hwf hslots] at hraw
    rw [← (HeadStatus.complete.inj hraw).1]
    simp only [List.length_append]
    simp

/-! ## The framing of the returned head -/

theorem returnLayout_wf {r : ResponseLayout} (hwf : r.WF) (keepAlive : Bool) : (returnLayout r keepAlive).WF where
  reason_bytes := hwf.reason_bytes
  fields_wf := by
    intro f hf
    simp only [returnLayout, returnedFields, List.mem_append, List.mem_singleton] at hf
    rcases hf with hf | hf | rfl
    · refine hwf.fields_wf f ?_
      rw [← verbatimFields_append r]
      exact List.mem_append_left _ hf
    · exact passedFields_wf hwf f hf
    · exact dispositionField_wf keepAlive

theorem length_returnedFields_le (r : ResponseLayout) (keepAlive : Bool) :
    (returnedFields r keepAlive).length ≤ r.fields.length + 1 := by
  have hfields := congrArg List.length (verbatimFields_append r)
  have hpassed : (passedFields r).length ≤ (blockFields r).length := by
    rw [passedFields, List.length_map]
    exact List.length_filter_le _ _
  simp only [returnedFields, List.length_append, List.length_singleton] at hfields ⊢
  omega

theorem returnsLine_iff {r : ResponseLayout} {n : Bytes} (hlow : lowercase n = n)
    (hhop : HOP_BY_HOP.any (· == n) = false) {f : FieldLayout} (hf : f.WF) (hname : named n f.field = true) :
    returnsLine (blockNominated r) f.line = true ↔ n ∉ blockNominated r := by
  have hlower : lowercase f.name = n := lowercase_of_named hlow hname
  have hhop' : isHopByHop f.name = false := by
    rw [← Bool.not_eq_true, isHopByHop_iff hf.name_token, hlower]
    exact not_mem_hopByHop hhop
  have hnom := any_eqCi_iff (fun m (hm : m ∈ blockNominated r) => lowercase_connectionNominated hm) hf.name_token
  rw [hlower] at hnom
  rw [returnsLine, splitColon_fieldLine hf, ← hnom]
  simp [hhop']

/-- **The last field of a kind in the returned head**: the last one of the response, or, if its name is nominated, the
last one before the header block. -/
theorem lastOf_returned {r : ResponseLayout} (hwf : r.WF) (keepAlive : Bool) {n : Bytes} {p : Bytes × Bytes → Bool}
    (hp : ∀ h, p h = true → named n h = true) (hlow : lowercase n = n) (hhop : HOP_BY_HOP.any (· == n) = false)
    (hdisp : p (dispositionField keepAlive).field = false) :
    lastOf p ((returnedFields r keepAlive).map FieldLayout.field) =
      lastOf p ((if n ∈ blockNominated r then verbatimFields r else r.fields).map FieldLayout.field) := by
  have hpassed : (passedFields r).map FieldLayout.field =
      ((blockFields r).filter fun f => returnsLine (blockNominated r) f.line).map FieldLayout.field := by
    rw [passedFields, List.map_map]
    rfl
  have hkeep : ∀ f ∈ blockFields r, p f.field = true →
      (returnsLine (blockNominated r) f.line = true ↔ n ∉ blockNominated r) := by
    intro f hf hpf
    refine returnsLine_iff hlow hhop (hwf.fields_wf f ?_) (hp _ hpf)
    rw [← verbatimFields_append r]
    exact List.mem_append_right _ hf
  have hlast : lastOf p [(dispositionField keepAlive).field] = none := by simp [lastOf, hdisp]
  simp only [returnedFields, List.map_append, List.map_cons, List.map_nil, lastOf_append, hlast, Option.none_or, hpassed]
  split
  · rename_i hnom
    have hnone : lastOf p (((blockFields r).filter fun f => returnsLine (blockNominated r) f.line).map
        FieldLayout.field) = none := by
      rw [lastOf_eq_none]
      intro x hx
      obtain ⟨f, hf, rfl⟩ := List.mem_map.mp hx
      obtain ⟨hmem, hreturns⟩ := List.mem_filter.mp hf
      by_contra hpf
      rw [Bool.not_eq_false] at hpf
      exact (hkeep f hmem hpf).mp hreturns hnom
    rw [hnone, Option.none_or]
  · rename_i hnom
    have hsame : lastOf p (((blockFields r).filter fun f => returnsLine (blockNominated r) f.line).map
        FieldLayout.field) = lastOf p ((blockFields r).map FieldLayout.field) := by
      simp only [lastOf, List.filter_map, List.filter_filter]
      congr 2
      refine List.filter_congr fun f hf => ?_
      cases hpf : p f.field with
      | false => simp [hpf]
      | true => simp [hpf, (hkeep f hf hpf).mpr hnom]
    rw [hsame, ← lastOf_append, ← List.map_append, verbatimFields_append]

theorem codingOf_returned {r : ResponseLayout} (hwf : r.WF) (keepAlive : Bool) :
    codingOf ((returnedFields r keepAlive).map FieldLayout.field) =
      codingOf ((if ascii "transfer-encoding" ∈ blockNominated r then verbatimFields r else r.fields).map
        FieldLayout.field) := by
  have hlast := lastOf_returned hwf keepAlive (n := ascii "transfer-encoding") (p := isReadableCoding)
    (fun _ h => (Bool.and_eq_true_iff.mp h).1) (by decide) (by decide) (by cases keepAlive <;> decide)
  rw [codingOf, codingOf, hlast]

theorem lengthOf_returned {r : ResponseLayout} (hwf : r.WF) (keepAlive : Bool) :
    lengthOf ((returnedFields r keepAlive).map FieldLayout.field) =
      lengthOf ((if ascii "content-length" ∈ blockNominated r then verbatimFields r else r.fields).map
        FieldLayout.field) := by
  have hlast := lastOf_returned hwf keepAlive (n := ascii "content-length") (p := isLength) (fun _ h => h) (by decide)
    (by decide) (by cases keepAlive <;> decide)
  rw [lengthOf, lengthOf, hlast]

/-- A response to `HEAD`, or with a status that has no body. -/
def isBodyless (method : Bytes) (status : ℕ) : Bool :=
  eqIgnoreAsciiCase method (ascii "HEAD") || status == 204 || status == 304 || (100 ≤ status && status < 200)

/-- The body that a length announces. -/
def bodyOfLength : Option ℕ → BodyLength
  | some 0 => .empty
  | some n => .fixed n
  | none => .untilClose

/-- Two framings mean the same body exactly if there is none, or both are chunked, or neither is and they have the
same length. -/
theorem responseBody_eq_iff {method : Bytes} {status : ℕ} {f f' : Framing} :
    responseBody method status f' = responseBody method status f ↔
      (isBodyless method status = false → f'.chunked = f.chunked ∧
        (f.chunked = false → f'.contentLength = f.contentLength)) := by
  cases hb : isBodyless method status with
  | true =>
    have hempty : ∀ f, responseBody method status f = .empty := fun f => by
      rw [isBodyless] at hb
      simp only [responseBody, hb, if_true]
    simp [hempty]
  | false =>
    have hbody : ∀ f, responseBody method status f = if f.chunked then .chunked else bodyOfLength f.contentLength :=
      fun f => if_neg (c := isBodyless method status = true) (by simp [hb])
    have hinj : ∀ a b : Option ℕ, bodyOfLength a = bodyOfLength b → a = b := by
      rintro (_ | _ | a) (_ | _ | b) h <;> simp_all [bodyOfLength]
    simp only [hbody, true_imp_iff]
    cases hc : f.chunked <;> cases hc' : f'.chunked
    · simp only [Bool.false_eq_true, if_false, true_and, true_imp_iff]
      exact ⟨hinj _ _, fun h => by rw [h]⟩
    · simp only [Bool.false_eq_true, if_false, if_true, Bool.true_eq_false, false_and, iff_false]
      rcases f.contentLength with _ | _ | n <;> simp [bodyOfLength]
    · simp only [Bool.false_eq_true, if_false, if_true, false_and, iff_false]
      rcases f'.contentLength with _ | _ | n <;> simp [bodyOfLength]
    · simp

/-- The framing that the fields of a response head fold to. -/
def responseFraming (r : ResponseLayout) : Framing :=
  (r.fields.map FieldLayout.field).foldl responseField (Framing.init (some (r.minor : ℕ) != some 0))

theorem responseFraming_chunked (r : ResponseLayout) :
    (responseFraming r).chunked = codingOf (r.fields.map FieldLayout.field) := (foldl_responseField _ _).1

theorem responseFraming_contentLength (r : ResponseLayout) :
    (responseFraming r).contentLength = lengthOf (r.fields.map FieldLayout.field) := (foldl_responseField _ _).2

theorem parseResponse_layout {hp : HeadParser} (hl : hp.Laws) {r : ResponseLayout} (hwf : r.WF)
    (hslots : r.fields.length ≤ MAX_HEADERS) (rest method : Bytes) :
    parseResponse hp (r.render ++ rest) method =
      .complete ⟨r.render.length, r.code, responseBody method r.code (responseFraming r),
        (responseFraming r).closeRequested⟩ := by
  simp only [parseResponse, hl.response_complete rest hwf hslots, ResponseLayout.raw]
  rfl

/-- The `Connection` field comes last, so it decides. -/
theorem closeRequested_returnLayout (r : ResponseLayout) (keepAlive : Bool) :
    (responseFraming (returnLayout r keepAlive)).closeRequested = !keepAlive := by
  have hlast : ∀ (keep : Bool) (f : Framing), (responseField f (dispositionField keep).field).closeRequested = !keep := by
    intro keep f
    have hfield : ∀ keep close : Bool, connectionField close (dispositionField keep).value = !keep := by
      decide +kernel
    have hname : named (ascii "content-length") (ascii "Connection", []) = false ∧
        named (ascii "transfer-encoding") (ascii "Connection", []) = false ∧
        named (ascii "connection") (ascii "Connection", []) = true := by decide
    obtain ⟨h1, h2, h3⟩ := hname
    simp only [named] at h1 h2 h3
    simp only [responseField, FieldLayout.field, dispositionField, h1, h2, h3, Bool.false_eq_true, if_false, if_true]
    exact hfield keep f.closeRequested
  simp only [responseFraming, returnLayout, returnedFields, List.map_append, List.map_cons, List.map_nil,
    List.foldl_append, List.foldl_cons, List.foldl_nil, hlast]

/-! ## The equivalence -/

/-- The returned head is read as the response that the proxy understood, with nothing behind it, and with the
disposition that the proxy intends. -/
def PreservesResponse (hp : HeadParser) (out : Bytes) (h : ResponseHead) (method : Bytes) (keepAlive : Bool) : Prop :=
  ∃ h', parseResponse hp out method = .complete h' ∧ h'.headLen = out.length ∧ h'.status = h.status ∧
    h'.body = h.body ∧ h'.closeRequested = !keepAlive

/-- The status line is kept, and a response that may have a body has the field that frames it returned: if the header
block nominates the name of a framing field, the fields of this name before the block say the same as all of them. -/
structure ReturnsFraming (r : ResponseLayout) (method : Bytes) : Prop where
  statusLine : StatusLineKept r
  coding : isBodyless method r.code = false → ascii "transfer-encoding" ∈ blockNominated r →
    codingOf ((verbatimFields r).map FieldLayout.field) = codingOf (r.fields.map FieldLayout.field)
  length : isBodyless method r.code = false → codingOf (r.fields.map FieldLayout.field) = false →
    ascii "content-length" ∈ blockNominated r →
    lengthOf ((verbatimFields r).map FieldLayout.field) = lengthOf (r.fields.map FieldLayout.field)

/-- For a head with the layout `r`, the returned head is read as the same response exactly if its framing is
returned. -/
theorem preservesResponse_iff {hp : HeadParser} (hl : hp.Laws) {r : ResponseLayout} (hwf : r.WF) {rest method : Bytes}
    (hslots : r.fields.length < MAX_HEADERS) {h : ResponseHead}
    (hparse : parseResponse hp (r.render ++ rest) method = .complete h) (keepAlive : Bool) :
    PreservesResponse hp (writeReturnHead (r.render ++ rest) h keepAlive) h method keepAlive ↔
      ReturnsFraming r method := by
  rw [parseResponse_layout hl hwf hslots.le] at hparse
  obtain rfl := Parsed.complete.inj hparse
  by_cases hkept : StatusLineKept r
  · have hcount := length_returnedFields_le r keepAlive
    have hparse' := parseResponse_layout hl (returnLayout_wf hwf keepAlive)
      (show (returnedFields r keepAlive).length ≤ MAX_HEADERS by omega) [] method
    rw [List.append_nil] at hparse'
    have hbody : responseBody method r.code (responseFraming (returnLayout r keepAlive)) =
        responseBody method r.code (responseFraming r) ↔ _ := responseBody_eq_iff
    rw [responseFraming_chunked, responseFraming_chunked, responseFraming_contentLength, responseFraming_contentLength,
      show (returnLayout r keepAlive).fields = returnedFields r keepAlive from rfl, codingOf_returned hwf,
      lengthOf_returned hwf] at hbody
    rw [writeReturnHead_eq_render hwf hkept rfl]
    constructor
    · rintro ⟨h', hp', -, -, hb, -⟩
      rw [hparse'] at hp'
      obtain rfl := Parsed.complete.inj hp'
      have hframing := hbody.mp hb
      refine ⟨hkept, fun hno hnom => ?_, fun hno hplain hnom => ?_⟩
      · have := (hframing hno).1
        rwa [if_pos hnom] at this
      · have := (hframing hno).2 hplain
        rwa [if_pos hnom] at this
    · rintro ⟨-, hcod, hlen⟩
      refine ⟨_, hparse', rfl, rfl, hbody.mpr fun hno => ⟨?_, fun hplain => ?_⟩, closeRequested_returnLayout r keepAlive⟩
      · split
        · exact hcod hno ‹_›
        · rfl
      · split
        · exact hlen hno hplain ‹_›
        · rfl
  · constructor
    · rintro ⟨h', hp', hlen, -⟩
      exact absurd hlen (not_returned_of_lost hl hwf hslots.le hkept rfl keepAlive rest method h' hp')
    · intro hr
      exact absurd hr.statusLine hkept

/-- What is read of the head that is returned for a response: the response, with the disposition that the proxy
intends, exactly if its framing is returned. -/
def ReadBack (hp : HeadParser) (buf : Bytes) (h : ResponseHead) (method : Bytes) (keepAlive : Bool) : Prop :=
  ∀ (r : ResponseLayout) (rest : Bytes), r.WF → buf = r.render ++ rest → r.fields.length < MAX_HEADERS →
    (PreservesResponse hp (writeReturnHead buf h keepAlive) h method keepAlive ↔ ReturnsFraming r method)

theorem readBack_of_parsed {hp : HeadParser} (hl : hp.Laws) {buf method : Bytes} {h : ResponseHead}
    (hparse : parseResponse hp buf method = .complete h) (keepAlive : Bool) : ReadBack hp buf h method keepAlive := by
  rintro r rest hwf rfl hslots
  exact preservesResponse_iff hl hwf hslots hparse keepAlive

/-- **A returned head says what the response said exactly if the status line is kept and the framing fields are
returned.** -/
theorem return_preserves_iff {hp : HeadParser} (hl : hp.Laws) {buf method : Bytes} {h : ResponseHead}
    (hparse : parseResponse hp buf method = .complete h) :
    (∃ (r : ResponseLayout) (rest : Bytes), r.WF ∧ buf = r.render ++ rest) ∧
    ∀ (r : ResponseLayout) (rest : Bytes), r.WF → buf = r.render ++ rest → r.fields.length < MAX_HEADERS →
      ∀ keepAlive : Bool,
        (PreservesResponse hp (writeReturnHead buf h keepAlive) h method keepAlive ↔ ReturnsFraming r method) := by
  refine ⟨?_, ?_⟩
  · obtain ⟨raw, hraw, -⟩ := parseResponse_eq hparse
    obtain ⟨r, rest, hwf, -, hbuf, -, -⟩ := hl.response_sound hraw
    exact ⟨r, rest, hwf, hbuf⟩
  intro r rest hwf hbuf hslots keepAlive
  exact readBack_of_parsed hl hparse keepAlive r rest hwf hbuf hslots

/-- A response whose status line ends in a bare line feed, and its length in CRLF. -/
def sampleMixedLayout : ResponseLayout :=
  ⟨[.lf], 1, 200, some (ascii "OK"), .lf, [⟨ascii "Content-Length", [32], ascii "2", [], .crlf⟩,
    ⟨ascii "Connection", [32], ascii "x-trace", [], .crlf⟩, ⟨ascii "X-Trace", [32], ascii "7", [], .lf⟩], .crlf⟩

theorem return_preserves_mixed :
    PreservesResponse .reference
      (writeReturnHead (sampleMixedLayout.render ++ ascii "hi") ⟨70, 200, .fixed 2, false⟩ true)
      ⟨70, 200, .fixed 2, false⟩ (ascii "GET") true := by
  refine ((return_preserves_iff HeadParser.reference_laws (by decide +kernel)).2 sampleMixedLayout (ascii "hi")
    (by decide) rfl (by decide) true).mpr ⟨⟨?_, ?_⟩, ?_, ?_⟩
  · decide
  · decide
  · exact fun _ hnom => absurd hnom (by decide +kernel)
  · exact fun _ _ hnom => absurd hnom (by decide +kernel)

/-- A response head without a CRLF. -/
def sampleBareLf : Bytes := ascii "HTTP/1.1 200 OK\nContent-Length: 2\n\n"

/-- The `Connection` field is written behind the end of the head, where the client reads the body. -/
theorem bare_head_is_not_returned :
    parseResponse .reference sampleBareLf (ascii "GET") = .complete ⟨35, 200, .fixed 2, false⟩ ∧
      ¬ PreservesResponse .reference (writeReturnHead sampleBareLf ⟨35, 200, .fixed 2, false⟩ true)
        ⟨35, 200, .fixed 2, false⟩ (ascii "GET") true := by
  refine ⟨by decide +kernel, ?_⟩
  rintro ⟨h', hparse, hlen, -⟩
  have hout : parseResponse .reference (writeReturnHead sampleBareLf ⟨35, 200, .fixed 2, false⟩ true) (ascii "GET") =
      .complete ⟨35, 200, .fixed 2, false⟩ := by
    decide +kernel
  rw [hout] at hparse
  obtain rfl := Parsed.complete.inj hparse
  exact absurd hlen (by decide +kernel)

end LbProxy.Monoio
