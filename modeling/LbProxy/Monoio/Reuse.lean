import LbProxy.Lib.HeadParser
import LbProxy.Monoio.Exchange
import LbProxy.Monoio.Heads
import LbProxy.Monoio.Relay

/-!
# Which upstream connections are put back to the pool

* `OneFinalResponse` — bytes that are exactly one complete final response to a request;
* `CleanPut` — whatever connection is put back has delivered just that;
* `CleanStream` — the read that completes the head brings no byte beyond the body, the head is final, and a
  chunked body ends with the first read that contains the terminator;
* `serveConnection_put_clean` — exactly then the connection is clean.
-/

namespace LbProxy.Monoio

open Lib LbProxy.Core

section Reuse

variable (hp : HeadParser)

/-- The bytes are a complete body of the framing; without a length there is none before the end. -/
def CompleteBody (kind : BodyLength) (body : Bytes) : Prop :=
  match kind with
  | .empty => body = []
  | .fixed n => body.length = n
  | .chunked => ChunkedBody body
  | .untilClose => False

/-- The bytes are one complete final response to a request with this method. -/
def OneFinalResponse (method consumed : Bytes) : Prop :=
  ∃ head, parseResponse hp consumed method = .complete head ∧ ¬ (100 ≤ head.status ∧ head.status < 200) ∧
    CompleteBody head.body (consumed.drop head.headLen)

/-- Whenever `relay_response` reports the upstream connection reusable, so that it is put to the pool, the
bytes taken from it are one complete final response and it has not ended. -/
def CleanPut (method : Bytes) (up : Source) : Prop :=
  ∀ (down : Sink) (keepAlive : Bool) (up' : Source) (down' : Sink) (outcome : RelayOutcome),
    relayResponse hp up down method keepAlive = .done (up', down', outcome) →
    outcome.upstreamReusable = true →
    ∃ consumed, up.bytes = consumed ++ up'.bytes ∧ OneFinalResponse hp method consumed ∧ up'.ended = false

/-- The body that starts with the buffered bytes does not end before them, and if it is chunked, it is
complete when the first read with the terminator is. -/
def BodyEndsCleanly (src : Source) (buf : Buf) (head : ResponseHead) (filled : ℕ) : Prop :=
  let buffered := bufferedBody buf head.headLen filled
  match head.body with
  | .empty => buffered = []
  | .fixed n => buffered.length ≤ n
  | .chunked =>
    (∀ taken rest, StopsAfter (src.reads (relayCap buf)) taken rest → ChunkedBody (buffered ++ taken.flatten)) ∧
      ((∀ r ∈ src.reads (relayCap buf), hasTerminator r = false) → src.ending ≠ .closed)
  | .untilClose => True

/-- When the head of a response that does not close is complete, it is final and its body ends cleanly. -/
def CleanStream (method : Bytes) (up : Source) : Prop :=
  ∀ head src buf filled,
    readResponseHead hp method up (Buf.withCapacity IO_BUF_INITIAL) 0 = .head head src buf filled →
    head.closeRequested = false → head.body ≠ .untilClose →
      ¬ (100 ≤ head.status ∧ head.status < 200) ∧ BodyEndsCleanly src buf head filled

variable {hp}

/-! ## The head -/

theorem final_of_body {buf method : Bytes} {head : ResponseHead}
    (h : parseResponse hp buf method = .complete head) (hbody : head.body ≠ .empty) :
    ¬ (100 ≤ head.status ∧ head.status < 200) := by
  unfold parseResponse at h
  split at h
  · cases h
  · cases h
  · split at h
    · cases h
    · obtain rfl := Parsed.complete.inj h
      rintro ⟨h1, h2⟩
      refine hbody ?_
      simp only at h1 h2
      simp [responseBody, h1, h2]

/-- **What the head loop has read when it finds a head.** -/
theorem readResponseHead_spec {method : Bytes} {up : Source} {buf : Buf} {filled : ℕ} (hfit : buf.Fits filled)
    {head : ResponseHead} {src : Source} {buf' : Buf} {filled' : ℕ}
    (h : readResponseHead hp method up buf filled = .head head src buf' filled') :
    parseResponse hp (buf'.data.take filled') method = .complete head ∧ buf'.Fits filled' ∧
      src.ended = up.ended ∧ ∃ more, up.bytes = more ++ src.bytes ∧
        buf'.data.take filled' = buf.data.take filled ++ more := by
  fun_induction readResponseHead hp method up buf filled with
  | case1 up buf filled parsed hd hparsed =>
    obtain ⟨rfl, rfl, rfl, rfl⟩ := ResponseOutcome.head.inj h
    simp only [parsed] at hparsed
    split at hparsed
    · exact ⟨hparsed, hfit, rfl, [], by simp, by simp⟩
    · cases hparsed
  | case3 up buf filled parsed hparsed bytes hne buf₁ src₁ hread ih =>
    obtain ⟨hbytes, -, hended, htake, hfit₁⟩ := readMore_data hfit hread
    obtain ⟨hparse, hfit', hended', more, hmore, htake'⟩ := ih hfit₁ h
    refine ⟨hparse, hfit', hended'.trans hended, bytes ++ more, ?_, ?_⟩
    · rw [hbytes, hmore, List.append_assoc]
    · rw [htake', htake, List.append_assoc]
  | _ => cases h

/-! ## The body -/

theorem length_bufferedBody {buf : Buf} {filled headLen : ℕ} (hfit : buf.Fits filled) :
    (bufferedBody buf headLen filled).length = filled - headLen := by
  rw [bufferedBody, List.length_drop, List.length_take, min_eq_left hfit.filled_le]

theorem relayResponseBody_fixed_done {src src' : Source} {dst dst' : Sink} {buf : Buf} {head : ResponseHead}
    {filled n : ℕ} (hfit : buf.Fits filled) (hbody : head.body = .fixed n)
    (h : relayResponseBody src dst buf head filled = .done (src', dst'))
    (hle : (bufferedBody buf head.headLen filled).length ≤ n) :
    ∃ taken : Bytes, src.bytes = taken ++ src'.bytes ∧
      (bufferedBody buf head.headLen filled).length + taken.length = n ∧ src'.ended = src.ended := by
  rw [length_bufferedBody hfit] at hle ⊢
  simp only [relayResponseBody, hbody, min_eq_left hle] at h
  obtain ⟨dst₁, -, h⟩ := Outcome.bind_eq_done.mp h
  split at h
  · obtain ⟨⟨s, d, b⟩, hr, hx⟩ := Outcome.bind_eq_done.mp h
    simp only [Outcome.done.injEq, Prod.mk.injEq] at hx
    obtain ⟨rfl, rfl⟩ := hx
    obtain ⟨bs, hlen, hb, -, he⟩ := relayExact_done hr
    exact ⟨bs, hb, by omega, he⟩
  · simp only [Outcome.done.injEq, Prod.mk.injEq] at h
    obtain ⟨rfl, rfl⟩ := h
    exact ⟨[], rfl, by simp; omega, rfl⟩

theorem relayResponseBody_chunked_done {src src' : Source} {dst dst' : Sink} {buf : Buf} {head : ResponseHead}
    {filled : ℕ} (hfit : buf.Fits filled) (hbody : head.body = .chunked)
    (h : relayResponseBody src dst buf head filled = .done (src', dst')) :
    (∃ taken rest, StopsAfter (src.reads (relayCap buf)) taken rest ∧
      src.bytes = taken.flatten ++ src'.bytes ∧ src'.ended = src.ended) ∨
    ((∀ r ∈ src.reads (relayCap buf), hasTerminator r = false) ∧ src.ending = .closed) := by
  simp only [relayResponseBody, hbody] at h
  obtain ⟨dst₁, -, h⟩ := Outcome.bind_eq_done.mp h
  obtain ⟨⟨s, d, b⟩, hr, hx⟩ := Outcome.bind_eq_done.mp h
  simp only [Outcome.done.injEq, Prod.mk.injEq] at hx
  obtain ⟨rfl, rfl⟩ := hx
  have hcap : (relayBuf buf).cap ≠ 0 := relayCap_ne_zero hfit.length_le
  rcases relayChunkedLoop_done hcap hr with ⟨taken, rest, hs, -, hb, he⟩ | ⟨hno, hend, -⟩
  · refine Or.inl ⟨taken, rest, hs, ?_, he⟩
    rw [hb, ← List.flatten_append, ← hs.split, Source.flatten_reads hcap]
  · exact Or.inr ⟨hno, hend⟩

theorem drop_consumed {buf : Buf} {head : ResponseHead} {filled : ℕ} (taken : Bytes)
    (hlen : head.headLen ≤ (buf.data.take filled).length) :
    (buf.data.take filled ++ taken).drop head.headLen = bufferedBody buf head.headLen filled ++ taken := by
  rw [bufferedBody, List.drop_append_of_le_length hlen]

/-! ## The response -/

/-- What a response whose connection is put back went through. -/
theorem relayResponse_put {up up' : Source} {down down' : Sink} {method : Bytes} {keepAlive : Bool}
    {outcome : RelayOutcome} (h : relayResponse hp up down method keepAlive = .done (up', down', outcome))
    (hput : outcome.upstreamReusable = true) :
    ∃ head src buf filled down₁,
      readResponseHead hp method up (Buf.withCapacity IO_BUF_INITIAL) 0 = .head head src buf filled ∧
      head.closeRequested = false ∧ head.body ≠ .untilClose ∧
      relayResponseBody src down₁ buf head filled = .done (up', down') := by
  unfold relayResponse at h
  split at h
  · simp only [Outcome.done.injEq, Prod.mk.injEq] at h
    obtain ⟨-, -, rfl⟩ := h
    cases hput
  · simp only [Outcome.done.injEq, Prod.mk.injEq] at h
    obtain ⟨-, -, rfl⟩ := h
    cases hput
  · cases h
  · cases h
  · rename_i head src buf filled hread
    simp only at h
    split at h
    · cases h
    · rename_i down₁ hwrite
      obtain ⟨⟨s, d⟩, hbody, hx⟩ := Outcome.bind_eq_done.mp h
      simp only [Outcome.done.injEq, Prod.mk.injEq] at hx
      obtain ⟨rfl, rfl, rfl⟩ := hx
      simp only [Bool.and_eq_true, Bool.not_eq_true', bne_iff_ne, ne_eq] at hput
      exact ⟨head, src, buf, filled, down₁, hread, hput.1, hput.2, hbody⟩

/-- The client's connection behind the head of a response that is returned to a fresh sink. -/
def returned (buf : Buf) (filled : ℕ) (head : ResponseHead) : Sink :=
  extend ⟨[], none⟩ (writeReturnHead (buf.data.take filled) head true)

theorem relayResponse_of_body {up src : Source} {method : Bytes} {head : ResponseHead} {buf : Buf}
    {filled : ℕ} (hread : readResponseHead hp method up (Buf.withCapacity IO_BUF_INITIAL) 0 =
      .head head src buf filled) (hclose : head.closeRequested = false) (hbody : head.body ≠ .untilClose)
    {up' : Source} {down' : Sink}
    (h : relayResponseBody src (returned buf filled head) buf head filled = .done (up', down')) :
    relayResponse hp up ⟨[], none⟩ method true = .done (up', down', ⟨true, true⟩) := by
  have hreuse : (head.body != .untilClose) = true := by simpa using hbody
  simp only [relayResponse, hread, hclose, hreuse, Bool.not_false, Bool.and_self]
  rw [writeAll_of_unlimited rfl]
  show (relayResponseBody src (returned buf filled head) buf head filled).bind _ = _
  rw [h]
  rfl

/-! ## The equivalence -/

/-- If the connection is clean, a relayed body is a complete one of a final response. -/
theorem completeBody_of_cleanPut (hl : hp.Laws) {method : Bytes} {up src up' : Source}
    (hput : CleanPut hp method up) {head : ResponseHead} {buf : Buf} {filled : ℕ} {taken : Bytes}
    (hread : readResponseHead hp method up (Buf.withCapacity IO_BUF_INITIAL) 0 = .head head src buf filled)
    (hclose : head.closeRequested = false) (hbody : head.body ≠ .untilClose)
    (htaken : src.bytes = taken ++ up'.bytes)
    (hdone : ∃ down', relayResponseBody src (returned buf filled head) buf head filled = .done (up', down')) :
    up'.ended = false ∧ ¬ (100 ≤ head.status ∧ head.status < 200) ∧
      CompleteBody head.body (bufferedBody buf head.headLen filled ++ taken) := by
  obtain ⟨hparse, -, -, more, hmore, htake⟩ := readResponseHead_spec fits_start hread
  obtain ⟨down', hdone⟩ := hdone
  obtain ⟨consumed, hcons, ⟨head', hparse', hfinal, hshape⟩, he⟩ :=
    hput _ _ _ _ _ (relayResponse_of_body hread hclose hbody hdone) rfl
  have heq : consumed = buf.data.take filled ++ taken := by
    have hall : up.bytes = buf.data.take filled ++ taken ++ up'.bytes := by
      rw [hmore, htake, htaken, List.append_assoc]
      rfl
    rw [hall] at hcons
    exact (List.append_cancel_right hcons).symm
  obtain ⟨hsame, hlen⟩ := parseResponse_append hl hparse taken
  rw [heq, hsame] at hparse'
  obtain rfl := Parsed.complete.inj hparse'
  rw [heq, drop_consumed taken hlen] at hshape
  exact ⟨he, hfinal, hshape⟩

theorem cleanStream_of_cleanPut (hl : hp.Laws) {method : Bytes} {up : Source}
    (hput : CleanPut hp method up) : CleanStream hp method up := by
  intro head src buf filled hread hclose hbody
  obtain ⟨hparse, hfit, -⟩ := readResponseHead_spec fits_start hread
  cases hkind : head.body with
  | untilClose => exact absurd hkind hbody
  | empty =>
    obtain ⟨-, hfinal, hshape⟩ := completeBody_of_cleanPut hl hput hread hclose hbody
      (show src.bytes = [] ++ src.bytes from rfl) ⟨_, by simp only [relayResponseBody, hkind]; rfl⟩
    exact ⟨hfinal, by simpa [BodyEndsCleanly, CompleteBody, hkind] using hshape⟩
  | fixed n =>
    refine ⟨final_of_body hparse (by simp [hkind]), ?_⟩
    simp only [BodyEndsCleanly, hkind]
    by_contra hgt
    have hlen : (bufferedBody buf head.headLen filled).length = filled - head.headLen :=
      length_bufferedBody hfit
    -- the whole body is buffered, so nothing is read and the surplus is lost
    have hdone : ∃ down', relayResponseBody src (returned buf filled head) buf head filled =
        .done (src, down') := by
      have hmin : min (filled - head.headLen) n = n := by omega
      simp only [relayResponseBody, hkind, hmin, Nat.sub_self, gt_iff_lt, lt_irrefl, if_false]
      by_cases hn : 0 < n
      · rw [if_pos hn, writeAll_of_unlimited rfl]
        exact ⟨_, rfl⟩
      · rw [if_neg hn]
        exact ⟨_, rfl⟩
    obtain ⟨-, -, hshape⟩ := completeBody_of_cleanPut hl hput hread hclose hbody
      (show src.bytes = [] ++ src.bytes from rfl) hdone
    rw [hkind, CompleteBody, List.append_nil] at hshape
    omega
  | chunked =>
    refine ⟨final_of_body hparse (by simp [hkind]), ?_⟩
    have hcap : (relayBuf buf).cap ≠ 0 := relayCap_ne_zero hfit.length_le
    have hlim : (extend (returned buf filled head) (bufferedBody buf head.headLen filled)).limit = none := rfl
    simp only [BodyEndsCleanly, hkind]
    refine ⟨fun taken rest hs => ?_, fun hno hend => ?_⟩
    · obtain ⟨src', buf', hdone, hb, -⟩ := relayChunkedLoop_of_terminator hcap hlim hs
      have htaken : src.bytes = taken.flatten ++ src'.bytes := by
        rw [hb, ← List.flatten_append, ← hs.split, relayCap, Source.flatten_reads hcap]
      obtain ⟨-, -, hshape⟩ := completeBody_of_cleanPut hl hput hread hclose hbody htaken
        ⟨_, by rw [relayResponseBody_chunked hkind rfl, relayChunked, hdone]; rfl⟩
      rwa [hkind] at hshape
    · obtain ⟨src', buf', hdone, hb, hended⟩ := relayChunkedLoop_of_closed hcap hlim hend hno
      obtain ⟨he, -, -⟩ := completeBody_of_cleanPut hl hput hread hclose hbody
        (show src.bytes = src.bytes ++ src'.bytes by rw [hb, List.append_nil])
        ⟨_, by rw [relayResponseBody_chunked hkind rfl, relayChunked, hdone]; rfl⟩
      rw [hended] at he
      cases he

theorem cleanPut_of_cleanStream (hl : hp.Laws) {method : Bytes} {up : Source} (hup : up.ended = false)
    (hclean : CleanStream hp method up) : CleanPut hp method up := by
  intro down keepAlive up' down' outcome hrel hput
  obtain ⟨head, src, buf, filled, down₁, hread, hclose, hbody, hdone⟩ := relayResponse_put hrel hput
  obtain ⟨hfinal, hends⟩ := hclean head src buf filled hread hclose hbody
  obtain ⟨hparse, hfit, hended, more, hmore, htake⟩ := readResponseHead_spec fits_start hread
  have hone : ∀ taken, src.bytes = taken ++ up'.bytes → up'.ended = src.ended →
      CompleteBody head.body (bufferedBody buf head.headLen filled ++ taken) →
      ∃ consumed, up.bytes = consumed ++ up'.bytes ∧ OneFinalResponse hp method consumed ∧
        up'.ended = false := by
    intro taken htaken he hshape
    obtain ⟨hsame, hlen⟩ := parseResponse_append hl hparse taken
    refine ⟨buf.data.take filled ++ taken, ?_, ⟨head, hsame, hfinal, ?_⟩, by rw [he, hended, hup]⟩
    · rw [hmore, htake, htaken, List.append_assoc]
      rfl
    · rwa [drop_consumed taken hlen]
  cases hkind : head.body with
  | untilClose => exact absurd hkind hbody
  | empty =>
    simp only [BodyEndsCleanly, hkind] at hends
    simp only [relayResponseBody, hkind, Outcome.done.injEq, Prod.mk.injEq] at hdone
    obtain ⟨rfl, -⟩ := hdone
    exact hone [] rfl rfl (by simpa [CompleteBody, hkind] using hends)
  | fixed n =>
    simp only [BodyEndsCleanly, hkind] at hends
    obtain ⟨taken, htaken, hlen, he⟩ := relayResponseBody_fixed_done hfit hkind hdone hends
    exact hone taken htaken he (by simpa [CompleteBody, hkind] using hlen)
  | chunked =>
    simp only [BodyEndsCleanly, hkind] at hends
    rcases relayResponseBody_chunked_done hfit hkind hdone with ⟨taken, rest, hs, htaken, he⟩ | ⟨hno, hend⟩
    · exact hone taken.flatten htaken he (by rw [hkind]; exact hends.1 taken rest hs)
    · exact absurd hend (hends.2 hno)

/-- **A connection that is put back has delivered exactly one complete final response if and only if** its
stream is clean; so when the streams of all its exchanges are, a connection puts only such upstreams back. -/
theorem serveConnection_put_clean (hl : hp.Laws) :
    (∀ (method : Bytes) (up : Source), up.ended = false → (CleanPut hp method up ↔ CleanStream hp method up)) ∧
    ∀ (m : PathRouter) (env : Env m) (downstream : Conn),
      (∀ e ∈ (serveConnection hp env downstream).1, ∀ k up, env.upstream k e.address = some up →
        up.source.ended = false ∧ CleanStream hp e.request.method up.source) →
      ∀ e ∈ (serveConnection hp env downstream).1, ∀ conn, e.put = some conn →
        ∃ k up consumed, env.upstream k e.address = some up ∧ up.source.bytes = consumed ++ conn.source.bytes ∧
          OneFinalResponse hp e.request.method consumed ∧ conn.source.ended = false := by
  refine ⟨fun method up hup => ⟨cleanStream_of_cleanPut hl, cleanPut_of_cleanStream hl hup⟩, ?_⟩
  intro m env downstream hclean e he conn hput
  obtain ⟨k, buffered, hexchanged⟩ := serveConnection_exchanged downstream e he
  obtain ⟨up, sink, keepAlive, src, sink', outcome, hup, hresp, hreuse⟩ := hexchanged.upstream
  obtain ⟨hreusable, hsrc⟩ := hreuse conn hput
  obtain ⟨hended, hstream⟩ := hclean e he k up hup
  obtain ⟨consumed, hbytes, hone, hopen⟩ :=
    cleanPut_of_cleanStream hl hended hstream sink keepAlive src sink' outcome hresp hreusable
  rw [← hsrc] at hbytes hopen
  exact ⟨k, up, consumed, hup, hbytes, hone, hopen⟩

/-! ## Sample streams -/

theorem cleanStream_of_whole (hl : hp.Laws) {method : Bytes} {up : Source} {head : ResponseHead} {n : ℕ}
    (hparse : parseResponse hp up.bytes method = .complete head) (hbody : head.body = .fixed n)
    (hlen : up.bytes.length = head.headLen + n) : CleanStream hp method up := by
  intro head' src buf filled hread _ _
  obtain ⟨hparse', hfit, -, more, hmore, htake⟩ := readResponseHead_spec fits_start hread
  have htake : buf.data.take filled = more := htake
  have hsame := (parseResponse_append hl hparse' src.bytes).1
  rw [htake, ← hmore, hparse] at hsame
  obtain rfl := Parsed.complete.inj hsame
  refine ⟨final_of_body hparse (by simp [hbody]), ?_⟩
  simp only [BodyEndsCleanly, hbody, length_bufferedBody hfit]
  have hle : filled ≤ up.bytes.length := by
    rw [hmore, ← htake, List.length_append, List.length_take, min_eq_left hfit.filled_le]
    omega
  omega

end Reuse

/-- A response with its body, cut in the middle of the head. -/
def sampleResponse : Source :=
  ⟨[ascii "HTTP/1.1 200 OK\r\nContent-Le", ascii "ngth: 2\r\n\r\nhi"], .idle, false⟩

theorem parseResponse_sampleResponse :
    parseResponse .reference sampleResponse.bytes (ascii "GET") = .complete ⟨38, 200, .fixed 2, false⟩ := by
  decide +kernel

theorem put_clean_two_reads : CleanPut .reference (ascii "GET") sampleResponse :=
  ((serveConnection_put_clean HeadParser.reference_laws).1 _ _ rfl).mpr
    (cleanStream_of_whole HeadParser.reference_laws parseResponse_sampleResponse rfl (by decide))

/-- An interim response before the final one. -/
def sampleInterim : Source :=
  ⟨[ascii "HTTP/1.1 100 Continue\r\n\r\n", ascii "HTTP/1.1 200 OK\r\nContent-Length: 2\r\n\r\nhi"], .idle, false⟩

/-- The connection is put back with the final response still to come. -/
theorem interim_response_put : ¬ CleanPut .reference (ascii "POST") sampleInterim := by
  intro h
  obtain ⟨consumed, hcons, ⟨head, hparse, hfinal, -⟩, -⟩ := h ⟨[], none⟩ true
    ⟨[[], ascii "HTTP/1.1 200 OK\r\nContent-Length: 2\r\n\r\nhi"], .idle, false⟩
    ⟨ascii "HTTP/1.1 100 Continue\r\nConnection: keep-alive\r\n\r\n", none⟩ ⟨true, true⟩
    (by decide +kernel) rfl
  have hinterim : consumed = ascii "HTTP/1.1 100 Continue\r\n\r\n" := by
    refine (List.append_cancel_right (hcons.symm.trans ?_))
    decide
  have hstatus : parseResponse .reference consumed (ascii "POST") = .complete ⟨25, 100, .empty, false⟩ := by
    rw [hinterim]
    decide +kernel
  rw [hstatus] at hparse
  obtain rfl := Parsed.complete.inj hparse
  exact hfinal (by decide)

end LbProxy.Monoio
