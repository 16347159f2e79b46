import LbProxy.Monoio.Relay

/-!
# When the chunked relay stops at the end of the body

`relay_chunked` writes every read to the end and stops behind the first read that contains the five bytes
`0 CR LF CR LF`, or at end of stream.

* `StopsAtEnd` — the body ends with such a read, or with the stream;
* `chunked_relay_exact_iff` — exactly then the relay takes the body and nothing else, for requests and for
  responses.
-/

namespace LbProxy.Monoio

open Lib LbProxy.Core

/-! ## Bodies of requests and responses -/

/-- The body that is left to read ends with the first read that contains the terminator, or with the
stream. -/
def StopsAtEnd (src : Source) (cap : ℕ) (left : Bytes) : Prop :=
  (∃ taken rest, StopsAfter (src.reads cap) taken rest ∧ taken.flatten = left) ∨
    (src.ending = .closed ∧ left = src.bytes ∧ ∀ r ∈ src.reads cap, hasTerminator r = false)

theorem relayChunked_writes_iff {src : Source} {dst : Sink} {buf : Buf} (hfit : buf.data.length ≤ buf.cap)
    (hlim : dst.limit = none) (left : Bytes) :
    (∃ src' buf', relayChunked src dst buf = .done (src', extend dst left, buf')) ↔
      StopsAtEnd src (relayCap buf) left := by
  have hcap : (relayBuf buf).cap ≠ 0 := relayCap_ne_zero hfit
  constructor
  · rintro ⟨src', buf', h⟩
    have hinj : ∀ {a b : Bytes}, extend dst a = extend dst b → a = b := by
      intro a b hab
      simpa [extend] using hab
    rcases relayChunkedLoop_done hcap h with ⟨taken, rest, hs, heq, -⟩ | ⟨hno, hend, heq, -⟩
    · exact Or.inl ⟨taken, rest, hs, (hinj heq).symm⟩
    · exact Or.inr ⟨hend, hinj heq, hno⟩
  · rintro (⟨taken, rest, hs, rfl⟩ | ⟨hend, rfl, hno⟩)
    · obtain ⟨src', buf', h, -⟩ := relayChunkedLoop_of_terminator hcap hlim hs
      exact ⟨src', buf', h⟩
    · obtain ⟨src', buf', h, -⟩ := relayChunkedLoop_of_closed hcap hlim hend hno
      exact ⟨src', buf', h⟩

/-- A chunked relay loses no bytes: it writes them or leaves them unread. -/
theorem relayChunked_conserves {src src' : Source} {dst dst' : Sink} {buf buf' : Buf}
    (hfit : buf.data.length ≤ buf.cap) (h : relayChunked src dst buf = .done (src', dst', buf')) :
    ∃ left, dst' = extend dst left ∧ src.bytes = left ++ src'.bytes := by
  have hcap : (relayBuf buf).cap ≠ 0 := relayCap_ne_zero hfit
  rcases relayChunkedLoop_done hcap h with ⟨taken, rest, hs, heq, hb, -⟩ | ⟨-, -, heq, hb, -⟩
  · refine ⟨taken.flatten, heq, ?_⟩
    rw [hb, ← List.flatten_append, ← hs.split, Source.flatten_reads hcap]
  · exact ⟨src.bytes, heq, by rw [hb, List.append_nil]⟩

/-- The relay of a chunked request writes exactly `body` behind the head, and the next head is parsed from
`rest`. -/
def RelaysRequest (src : Source) (dst : Sink) (buf : Buf) (head : RequestHead) (filled : ℕ)
    (body rest : Bytes) : Prop :=
  ∃ src' dst' buf' leftover, relayRequestBody src dst buf head filled = .done (src', dst', buf', leftover) ∧
    dst'.written = dst.written ++ body ∧
    let (buf'', filled') := keepPipelined buf' head filled leftover
    buf''.data.take filled' ++ src'.bytes = rest

/-- The relay of a chunked response writes exactly `body` behind the head, and leaves `rest` unread. -/
def RelaysResponse (src : Source) (dst : Sink) (buf : Buf) (head : ResponseHead) (filled : ℕ)
    (body rest : Bytes) : Prop :=
  ∃ src' dst', relayResponseBody src dst buf head filled = .done (src', dst') ∧
    dst'.written = dst.written ++ body ∧ src'.bytes = rest

/-- Both relays first write what is buffered, then relay from the stream. -/
theorem chunked_relay_iff {src : Source} {dst : Sink} {buf : Buf} {buffered body rest : Bytes}
    (hfit : buf.data.length ≤ buf.cap) (hlim : dst.limit = none)
    (hstream : buffered ++ src.bytes = body ++ rest) :
    (∃ src' dst' buf', relayChunked src (extend dst buffered) buf = .done (src', dst', buf') ∧
      dst'.written = dst.written ++ body ∧ src'.bytes = rest) ↔
    ∃ left, body = buffered ++ left ∧ StopsAtEnd src (relayCap buf) left := by
  have hlim' : (extend dst buffered).limit = none := hlim
  constructor
  · rintro ⟨src', dst', buf', h, hw, -⟩
    obtain ⟨left, rfl, -⟩ := relayChunked_conserves hfit h
    have hbody : body = buffered ++ left := by simpa [extend] using hw.symm
    exact ⟨left, hbody, (relayChunked_writes_iff hfit hlim' left).mp ⟨src', buf', h⟩⟩
  · rintro ⟨left, rfl, hstop⟩
    obtain ⟨src', buf', h⟩ := (relayChunked_writes_iff hfit hlim' left).mpr hstop
    refine ⟨src', _, buf', h, by simp [extend], ?_⟩
    obtain ⟨left', heq, hbytes⟩ := relayChunked_conserves hfit h
    obtain rfl : left = left' := by simpa [extend] using heq
    rw [hbytes, ← List.append_assoc] at hstream
    exact List.append_cancel_left hstream

theorem relayRequestBody_chunked {src : Source} {dst : Sink} {buf : Buf} {head : RequestHead} {filled : ℕ}
    (hbody : head.body = .chunked) (hlim : dst.limit = none) :
    relayRequestBody src dst buf head filled =
      (relayChunked src (extend dst (bufferedBody buf head.headLen filled)) buf).bind
        fun (src, dst, buf) => .done (src, dst, buf, 0) := by
  simp only [relayRequestBody, hbody, bufferedBody, List.drop_take]
  by_cases h : filled - head.headLen > 0
  · rw [if_pos h, writeAll_of_unlimited hlim]
    rfl
  · have h0 : filled - head.headLen = 0 := by omega
    rw [if_neg h, h0, List.take_zero]
    simp [extend, Outcome.bind]

theorem relaysRequest_iff {src : Source} {dst : Sink} {buf : Buf} {head : RequestHead} {filled : ℕ}
    {body rest : Bytes} (hbody : head.body = .chunked) (hlen : head.headLen ≤ filled)
    (hlim : dst.limit = none) :
    RelaysRequest src dst buf head filled body rest ↔
      ∃ src' dst' buf', relayChunked src (extend dst (bufferedBody buf head.headLen filled)) buf =
        .done (src', dst', buf') ∧ dst'.written = dst.written ++ body ∧ src'.bytes = rest := by
  have hkeep : ∀ buf', keepPipelined buf' head filled 0 = (buf', 0) := by
    intro buf'
    have hstart : head.headLen + bodyPrefixLen head (filled - head.headLen) = filled := by
      simp only [bodyPrefixLen, hbody]
      omega
    simp [keepPipelined, hstart]
  unfold RelaysRequest
  rw [relayRequestBody_chunked hbody hlim]
  constructor
  · rintro ⟨src', dst', buf', leftover, h, hw, hrest⟩
    obtain ⟨⟨s, d, b⟩, hr, hx⟩ := Outcome.bind_eq_done.mp h
    simp only [Outcome.done.injEq, Prod.mk.injEq] at hx
    obtain ⟨rfl, rfl, rfl, rfl⟩ := hx
    rw [hkeep] at hrest
    exact ⟨s, d, b, hr, hw, by simpa using hrest⟩
  · rintro ⟨src', dst', buf', h, hw, hrest⟩
    refine ⟨src', dst', buf', 0, by rw [h]; rfl, hw, ?_⟩
    rw [hkeep]
    simpa using hrest

theorem relaysResponse_iff {src : Source} {dst : Sink} {buf : Buf} {head : ResponseHead} {filled : ℕ}
    {body rest : Bytes} (hbody : head.body = .chunked) (hlim : dst.limit = none) :
    RelaysResponse src dst buf head filled body rest ↔
      ∃ src' dst' buf', relayChunked src (extend dst (bufferedBody buf head.headLen filled)) buf =
        .done (src', dst', buf') ∧ dst'.written = dst.written ++ body ∧ src'.bytes = rest := by
  unfold RelaysResponse
  rw [relayResponseBody_chunked hbody hlim]
  constructor
  · rintro ⟨src', dst', h, hw, hrest⟩
    obtain ⟨⟨s, d, b⟩, hr, hx⟩ := Outcome.bind_eq_done.mp h
    simp only [Outcome.done.injEq, Prod.mk.injEq] at hx
    obtain ⟨rfl, rfl⟩ := hx
    exact ⟨s, d, b, hr, hw, hrest⟩
  · rintro ⟨src', dst', buf', h, hw, hrest⟩
    exact ⟨src', dst', by rw [h]; rfl, hw, hrest⟩

/-- **The chunked relay stops exactly at the end of the body if and only if** what is buffered is a part of
the body and the rest of the body ends with the first read that contains the terminator (or with the
stream): for a request, and for a response.  `body` and `rest` may be any bytes. -/
theorem chunked_relay_exact_iff (src : Source) (dst : Sink) (buf : Buf) (filled : ℕ) (body rest : Bytes)
    (hfit : buf.data.length ≤ buf.cap) (hlim : dst.limit = none) :
    (∀ head : RequestHead, head.body = .chunked → head.headLen ≤ filled →
      bufferedBody buf head.headLen filled ++ src.bytes = body ++ rest →
      (RelaysRequest src dst buf head filled body rest ↔
        ∃ left, body = bufferedBody buf head.headLen filled ++ left ∧
          StopsAtEnd src (relayCap buf) left)) ∧
    (∀ head : ResponseHead, head.body = .chunked → head.headLen ≤ filled →
      bufferedBody buf head.headLen filled ++ src.bytes = body ++ rest →
      (RelaysResponse src dst buf head filled body rest ↔
        ∃ left, body = bufferedBody buf head.headLen filled ++ left ∧
          StopsAtEnd src (relayCap buf) left)) := by
  refine ⟨fun head hbody hlen hstream => ?_, fun head hbody _ hstream => ?_⟩
  · rw [relaysRequest_iff hbody hlen hlim]
    exact chunked_relay_iff hfit hlim hstream
  · rw [relaysResponse_iff hbody hlim]
    exact chunked_relay_iff hfit hlim hstream

/-- A chunked upload whose head takes the first two bytes of the buffer. -/
def sampleUpload : RequestHead := ⟨2, ascii "POST", ascii "/", none, .chunked, false, (0, 0)⟩

theorem chunked_relay_exact_split :
    RelaysRequest ⟨[ascii "lo\r\n0\r\n\r\n", ascii "GET"], .idle, false⟩ ⟨[], none⟩ ⟨ascii "..5\r\nhel", 4096⟩
      sampleUpload 8 (ascii "5\r\nhello\r\n0\r\n\r\n") (ascii "GET") := by
  refine ((chunked_relay_exact_iff _ _ _ _ _ _ (by decide) rfl).1 sampleUpload rfl (by decide)
    (by decide)).mpr ⟨ascii "lo\r\n0\r\n\r\n", by decide, Or.inl ⟨[ascii "lo\r\n0\r\n\r\n"], [ascii "GET"],
      ⟨by decide +kernel, by decide, _, rfl, by decide⟩, by decide⟩⟩

theorem sample_chunked_body : ChunkedBody (ascii "5\r\nhello\r\n0\r\n\r\n") := by
  have hlast : ChunkedBody (ascii "0\r\n\r\n") :=
    .last [48] [] [] (by decide) (by simp) (by simp [ChunkExt]) (by simp)
  exact .chunk (ascii "5") [] (ascii "hello") _ (by decide) (List.all_eq_true.mp (by decide)) (by simp [ChunkExt])
    (by decide) (by decide) hlast

/-- A body that arrives together with its head: the relay waits for bytes that never come. -/
theorem chunked_relay_waits_beyond_body :
    ChunkedBody (ascii "5\r\nhello\r\n0\r\n\r\n") ∧
      ¬ RelaysRequest ⟨[], .idle, false⟩ ⟨[], none⟩ ⟨ascii "..5\r\nhello\r\n0\r\n\r\n", 4096⟩ sampleUpload 17
        (ascii "5\r\nhello\r\n0\r\n\r\n") [] := by
  refine ⟨sample_chunked_body, ?_⟩
  rintro ⟨src', dst', buf', leftover, h, -⟩
  have hblocked : relayRequestBody ⟨[], .idle, false⟩ ⟨[], none⟩ ⟨ascii "..5\r\nhello\r\n0\r\n\r\n", 4096⟩
      sampleUpload 17 = .blocked := by decide +kernel
  rw [hblocked] at h
  cases h

end LbProxy.Monoio
