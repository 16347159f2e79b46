import LbProxy.Monoio.Http1

/-!
# What `parse_request` and `parse_response` report, in terms of the layout of the head

* `parseRequest_complete` — a head is reported only for the layout of one, with the framing that its fields fold to;
* `parseRequest_of_layout` — and such a layout is reported;
* `parseRequest_append`, `parseResponse_append` — a reported head stays what it is when more bytes arrive;
* `parseResponse_part` — and is not reported before it is complete.
-/

namespace LbProxy.Monoio

open Lib LbProxy.Core

/-- The framing that the fields of a head fold to; `none` is an invalid `Content-Length`. -/
def framingOf (l : RequestLayout) : Option Framing :=
  (l.fields.map FieldLayout.field).foldlM requestField (Framing.init (some (l.minor : ℕ) != some 0))

/-- What is reported of a head with this framing, with the target at `pos`. -/
def headOf (l : RequestLayout) (f : Framing) (pos : ℕ) : RequestHead :=
  ⟨l.render.length, l.method, l.target, f.host, requestBody f, f.closeRequested, (pos, pos + l.target.length)⟩

theorem splitTarget_withQuery {path : Bytes} (h : 63 ∉ path) (query : Option Bytes) :
    splitTarget (withQuery path query) = (path, query) ∧ pathOf (withQuery path query) = path := by
  cases query with
  | none =>
    have hnone := findByte_eq_none.mpr h
    simp [withQuery, splitTarget, pathOf, hnone]
  | some q =>
    have hfind : findByte 63 (path ++ ascii "?" ++ q) = some path.length := by
      rw [List.append_assoc]
      exact findByte_append h q
    simp only [withQuery, splitTarget, pathOf, hfind]
    simp [show ascii "?" = [63] by decide]

variable {hp : HeadParser}

theorem parseResponse_eq {buf method : Bytes} {head : ResponseHead}
    (h : parseResponse hp buf method = .complete head) :
    ∃ raw, hp.response MAX_HEADERS buf = .complete head.headLen raw ∧
      ∀ buf', hp.response MAX_HEADERS buf' = .complete head.headLen raw →
        parseResponse hp buf' method = .complete head := by
  unfold parseResponse at h
  cases hr : hp.response MAX_HEADERS buf with
  | incomplete =>
    rw [hr] at h
    cases h
  | error =>
    rw [hr] at h
    cases h
  | complete n raw =>
    rw [hr] at h
    simp only at h
    cases hc : raw.code with
    | none =>
      rw [hc] at h
      cases h
    | some status =>
      rw [hc] at h
      have hhead := Parsed.complete.inj h
      subst hhead
      refine ⟨raw, rfl, fun buf' hr' => ?_⟩
      simp only [parseResponse, hr', hc]

variable (hl : hp.Laws)
include hl

theorem parseRequest_layout {l : RequestLayout} {rest : Bytes} {h : RequestHead} (hwf : l.WF)
    (hlen : l.fields.length ≤ MAX_HEADERS) (hparse : parseRequest hp (l.render ++ rest) = .complete h) :
    ∃ f pos, framingOf l = some f ∧ findSubslice l.target (l.render ++ rest) = some pos ∧ h = headOf l f pos := by
  simp only [parseRequest, hl.request_complete rest hwf hlen, RequestLayout.raw] at hparse
  cases hpos : findSubslice l.target (l.render ++ rest) with
  | none =>
    rw [hpos] at hparse
    cases hparse
  | some pos =>
    cases hf : framingOf l with
    | none =>
      rw [framingOf] at hf
      simp only [hpos, hf] at hparse
      cases hparse
    | some f =>
      rw [framingOf] at hf
      simp only [hpos, hf, Parsed.complete.injEq] at hparse
      exact ⟨f, pos, rfl, rfl, hparse.symm⟩

/-- **Only the layout of a head is reported.** -/
theorem parseRequest_complete {buf : Bytes} {head : RequestHead} (h : parseRequest hp buf = .complete head) :
    ∃ (l : RequestLayout) (rest : Bytes) (f : Framing) (pos : ℕ), l.WF ∧ l.fields.length ≤ MAX_HEADERS ∧
      buf = l.render ++ rest ∧ framingOf l = some f ∧ findSubslice l.target buf = some pos ∧
      head = headOf l f pos := by
  cases hr : hp.request MAX_HEADERS buf with
  | incomplete => simp [parseRequest, hr] at h
  | error => simp [parseRequest, hr] at h
  | complete n raw =>
    obtain ⟨l, rest, hwf, hlen, rfl, -, -⟩ := hl.request_sound hr
    obtain ⟨f, pos, hf, hpos, hhead⟩ := parseRequest_layout hl hwf hlen h
    exact ⟨l, rest, f, pos, hwf, hlen, rfl, hf, hpos, hhead⟩

/-- The layout of a head is reported, whatever follows it. -/
theorem parseRequest_of_layout {l : RequestLayout} {f : Framing} (hwf : l.WF) (hlen : l.fields.length ≤ MAX_HEADERS)
    (hf : framingOf l = some f) (rest : Bytes) :
    ∃ pos, parseRequest hp (l.render ++ rest) = .complete (headOf l f pos) := by
  obtain ⟨pos, hpos⟩ : ∃ pos, findSubslice l.target (l.render ++ rest) = some pos := by
    have := findSubslice_isSome l.target (renderEols l.blanks ++ (l.method ++ [32]))
      (32 :: versionBytes l.minor ++ (l.eol.bytes ++ (renderFields l.fields ++ l.last.bytes)) ++ rest)
    simpa [RequestLayout.render, RequestLayout.line] using this
  refine ⟨pos, ?_⟩
  rw [framingOf] at hf
  simp only [parseRequest, hl.request_complete rest hwf hlen, RequestLayout.raw, hpos, hf]
  rfl

/-- A reported head stays what it is when more bytes arrive, and lies within the bytes. -/
theorem parseRequest_append {buf : Bytes} {head : RequestHead} (h : parseRequest hp buf = .complete head)
    (more : Bytes) : parseRequest hp (buf ++ more) = .complete head ∧ head.headLen ≤ buf.length := by
  obtain ⟨l, rest, f, pos, hwf, hlen, rfl, hf, hpos, rfl⟩ := parseRequest_complete hl h
  refine ⟨?_, by simp [headOf]⟩
  have hpos' := findSubslice_append hpos more
  rw [framingOf] at hf
  rw [List.append_assoc] at hpos' ⊢
  simp only [parseRequest, hl.request_complete _ hwf hlen, RequestLayout.raw, hpos', hf]
  rfl

theorem parseResponse_append {buf method : Bytes} {head : ResponseHead}
    (h : parseResponse hp buf method = .complete head) (more : Bytes) :
    parseResponse hp (buf ++ more) method = .complete head ∧ head.headLen ≤ buf.length := by
  obtain ⟨raw, hraw, hsame⟩ := parseResponse_eq h
  refine ⟨hsame _ (HeadParser.response_append hl hraw more), ?_⟩
  obtain ⟨l, rest, -, -, rfl, hn, -⟩ := hl.response_sound hraw
  rw [hn, List.length_append]
  omega

/-- Of a stream whose head is complete, a part that holds the head reports it, and a shorter one needs more. -/
theorem parseResponse_part {buf method : Bytes} {head : ResponseHead}
    (h : parseResponse hp buf method = .complete head) {part : Bytes} (hpart : part <+: buf) :
    0 < head.headLen ∧ (head.headLen ≤ part.length → parseResponse hp part method = .complete head) ∧
      (part.length < head.headLen → parseResponse hp part method = .needMore) := by
  obtain ⟨raw, hraw, hsame⟩ := parseResponse_eq h
  obtain ⟨l, rest, hwf, hlen, rfl, hn, rfl⟩ := hl.response_sound hraw
  have hpos : 0 < l.last.bytes.length := by cases l.last <;> decide
  refine ⟨?_, fun hle => ?_, fun hlt => ?_⟩
  · rw [hn]
    simp only [ResponseLayout.render, List.length_append]
    omega
  · obtain ⟨more, rfl⟩ : l.render <+: part :=
      List.prefix_of_prefix_length_le (List.prefix_append _ _) hpart (hn ▸ hle)
    exact hsame _ (hn ▸ hl.response_complete more hwf hlen)
  · have hstrict : part <+: l.render :=
      List.prefix_of_prefix_length_le hpart (List.prefix_append _ _) (by omega)
    have hne : part ≠ l.render := by
      rintro rfl
      omega
    simp only [parseResponse, hl.response_incomplete hwf hlen hstrict hne]

end LbProxy.Monoio
