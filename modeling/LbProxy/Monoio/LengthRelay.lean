import LbProxy.Monoio.Return
import LbProxy.Monoio.Reuse

/-!
# Responses with a length, and responses that end with the connection

* `readResponseHead_of_stream` — the head of a response is found, however its bytes are cut;
* `relayResponseBody_spec` — the body behind it is relayed in order, up to its length or to the end of the stream;
* `response_relayed_exactly` — the response as a whole, and what the client is told of its connection.
-/

namespace LbProxy.Monoio

open Lib LbProxy.Core

/-! ## The body -/

/-- The body is delimited by a length, or by the end of the stream. -/
def LengthOrClose (kind : BodyLength) : Prop := (∃ n, kind = .fixed n) ∨ kind = .untilClose

/-- What of the bytes behind the head is the body. -/
def bodyOf (kind : BodyLength) (rest : Bytes) : Bytes :=
  match kind with
  | .fixed n => rest.take n
  | .untilClose => rest
  | _ => []

/-- The stream delivers the whole body. -/
def BodyArrives (kind : BodyLength) (rest : Bytes) (ending : StreamEnd) : Prop :=
  match kind with
  | .fixed n => n ≤ rest.length
  | .untilClose => ending = .closed
  | _ => True

instance (kind : BodyLength) (rest : Bytes) (ending : StreamEnd) : Decidable (BodyArrives kind rest ending) := by
  unfold BodyArrives
  split <;> infer_instance

theorem ofOption_writeAll_cases {dst : Sink} {n : ℕ} {bytes : Bytes} (hlen : bytes.length = n) :
    (if n > 0 then Outcome.ofOption (dst.writeAll bytes) else .done dst) = .failed ∨
      (if n > 0 then Outcome.ofOption (dst.writeAll bytes) else .done dst) = .done (extend dst bytes) := by
  split
  · cases hw : dst.writeAll bytes with
    | none => exact Or.inl rfl
    | some dst₁ => exact Or.inr (by rw [writeAll_eq hw]; rfl)
  · have hnil : bytes = [] := List.eq_nil_of_length_eq_zero (by omega)
    exact Or.inr (by simp [hnil, extend])

section Body

variable (src : Source) (dst : Sink) {buf : Buf} {head : ResponseHead} {filled : ℕ}

theorem take_bufferedBody {n : ℕ} :
    (buf.data.drop head.headLen).take (min (filled - head.headLen) n) =
      (bufferedBody buf head.headLen filled).take n := by
  rw [bufferedBody, List.drop_take, List.take_take, min_comm]

theorem length_take_bufferedBody (hfit : buf.Fits filled) (n : ℕ) :
    ((bufferedBody buf head.headLen filled).take n).length = min (filled - head.headLen) n := by
  rw [List.length_take, length_bufferedBody hfit, min_comm]

theorem relayResponseBody_fixed (hfit : buf.Fits filled) {n : ℕ} (hbody : head.body = .fixed n) :
    let rest := bufferedBody buf head.headLen filled ++ src.bytes
    (∀ src' dst', relayResponseBody src dst buf head filled = .done (src', dst') →
      n ≤ rest.length ∧ dst' = extend dst (rest.take n)) ∧
    (n ≤ rest.length → dst.limit = none →
      ∃ src', relayResponseBody src dst buf head filled = .done (src', extend dst (rest.take n))) ∧
    (rest.length < n → src.ending ≠ .idle → relayResponseBody src dst buf head filled = .failed) := by
  have hlen : (bufferedBody buf head.headLen filled).length = filled - head.headLen := length_bufferedBody hfit
  have hpart : ((bufferedBody buf head.headLen filled).take n).length = min (filled - head.headLen) n :=
    length_take_bufferedBody hfit n
  have hrem : n - min (filled - head.headLen) n = n - (filled - head.headLen) := by omega
  simp only [relayResponseBody, hbody, take_bufferedBody, List.length_append, hlen, List.take_append, hrem]
  refine ⟨fun src' dst' h => ?_, fun hle hlim => ?_, fun hshort hend => ?_⟩
  · rcases ofOption_writeAll_cases hpart with hwrite | hwrite <;> rw [hwrite] at h
    · cases h
    simp only [Outcome.bind] at h
    split at h
    · obtain ⟨⟨s, d, b⟩, hr, hx⟩ := Outcome.bind_eq_done.mp h
      simp only [Outcome.done.injEq, Prod.mk.injEq] at hx
      obtain ⟨rfl, rfl⟩ := hx
      obtain ⟨bs, hbs, hb, rfl, -⟩ := relayExact_done hr
      refine ⟨?_, ?_⟩
      · rw [hb, List.length_append]
        omega
      · rw [extend_extend, hb, ← hbs, List.take_left]
    · simp only [Outcome.done.injEq, Prod.mk.injEq] at h
      obtain ⟨rfl, rfl⟩ := h
      rw [show n - (filled - head.headLen) = 0 by omega, List.take_zero, List.append_nil]
      exact ⟨by omega, rfl⟩
  · rw [ofOption_writeAll hlim hpart]
    simp only [Outcome.bind]
    split
    · obtain ⟨src', dst', buf', hr, -⟩ := relayExact_of_enough hfit.length_le
        (show (extend dst ((bufferedBody buf head.headLen filled).take n)).limit = none from hlim)
        (show n - (filled - head.headLen) ≤ src.bytes.length by omega)
      obtain ⟨bs, hbs, hb, rfl, -⟩ := relayExact_done hr
      rw [hr]
      exact ⟨src', by rw [extend_extend, hb, ← hbs, List.take_left]⟩
    · rw [show n - (filled - head.headLen) = 0 by omega, List.take_zero, List.append_nil]
      exact ⟨src, rfl⟩
  · rcases ofOption_writeAll_cases hpart with hwrite | hwrite <;> rw [hwrite]
    · rfl
    simp only [Outcome.bind]
    rw [if_pos (by omega), relayExact_of_short hfit.length_le hend (by omega)]

theorem relayResponseBody_untilClose (hfit : buf.Fits filled) (hbody : head.body = .untilClose) :
    let rest := bufferedBody buf head.headLen filled ++ src.bytes
    (∀ src' dst', relayResponseBody src dst buf head filled = .done (src', dst') →
      src.ending = .closed ∧ dst' = extend dst rest) ∧
    (src.ending = .closed → dst.limit = none →
      ∃ src', relayResponseBody src dst buf head filled = .done (src', extend dst rest)) ∧
    (src.ending = .failed → relayResponseBody src dst buf head filled = .failed) := by
  have hlen : (bufferedBody buf head.headLen filled).length = filled - head.headLen := length_bufferedBody hfit
  have hcap : (relayBuf buf).cap ≠ 0 := relayCap_ne_zero hfit.length_le
  obtain ⟨hdone, hclosed, hfailed⟩ := relayUntilCloseLoop_spec src
    (extend dst (bufferedBody buf head.headLen filled)) hcap
  simp only [relayResponseBody, hbody]
  rw [← bufferedBody]
  refine ⟨fun src' dst' h => ?_, fun hend hlim => ?_, fun hend => ?_⟩
  · rcases ofOption_writeAll_cases hlen with hwrite | hwrite <;> rw [hwrite] at h
    · cases h
    change (relayUntilClose src (extend dst (bufferedBody buf head.headLen filled)) buf).bind _ = _ at h
    obtain ⟨⟨s, d, b⟩, hr, hx⟩ := Outcome.bind_eq_done.mp h
    simp only [Outcome.done.injEq, Prod.mk.injEq] at hx
    obtain ⟨rfl, rfl⟩ := hx
    obtain ⟨hend, rfl⟩ := hdone _ _ _ hr
    exact ⟨hend, by rw [extend_extend]⟩
  · obtain ⟨src', buf', hr⟩ := hclosed hend hlim
    rw [ofOption_writeAll hlim hlen]
    refine ⟨src', ?_⟩
    rw [← extend_extend]
    simp only [Outcome.bind, relayUntilClose, hr]
  · rcases ofOption_writeAll_cases hlen with hwrite | hwrite <;> rw [hwrite]
    · rfl
    simp only [Outcome.bind, relayUntilClose, hfailed hend]

/-- **What the relay of a body does**: it returns only when the whole body was written, it does return then, and it
fails when the stream ends before. -/
theorem relayResponseBody_spec (hfit : buf.Fits filled) (hbody : LengthOrClose head.body) :
    let rest := bufferedBody buf head.headLen filled ++ src.bytes
    (∀ src' dst', relayResponseBody src dst buf head filled = .done (src', dst') →
      BodyArrives head.body rest src.ending ∧ dst' = extend dst (bodyOf head.body rest)) ∧
    (BodyArrives head.body rest src.ending → dst.limit = none →
      ∃ src', relayResponseBody src dst buf head filled = .done (src', extend dst (bodyOf head.body rest))) ∧
    (¬ BodyArrives head.body rest src.ending → src.ending ≠ .idle →
      relayResponseBody src dst buf head filled = .failed) := by
  rcases hbody with ⟨n, hn⟩ | hclose
  · obtain ⟨h1, h2, h3⟩ := relayResponseBody_fixed src dst hfit hn
    simp only [hn, BodyArrives, bodyOf, not_le]
    exact ⟨h1, h2, h3⟩
  · obtain ⟨h1, h2, h3⟩ := relayResponseBody_untilClose src dst hfit hclose
    simp only [hclose, BodyArrives, bodyOf]
    refine ⟨h1, h2, fun hopen hidle => h3 ?_⟩
    cases hend : src.ending with
    | idle => exact absurd hend hidle
    | closed => exact absurd hend hopen
    | failed => rfl

end Body

/-! ## The head -/

section Response

variable {hp : HeadParser}

theorem parsed_of_stream (hl : hp.Laws) {method : Bytes} {up : Source} {buf : Buf} {filled : ℕ} (hfit : buf.Fits filled)
    {head : ResponseHead} (hparse : parseResponse hp (buf.data.take filled ++ up.bytes) method = .complete head) :
    (if filled > 0 then parseResponse hp (buf.data.take filled) method else .needMore) = .complete head ∨
      (if filled > 0 then parseResponse hp (buf.data.take filled) method else .needMore) = .needMore ∧ up.bytes ≠ [] := by
  have hlen : (buf.data.take filled).length = filled := by
    rw [List.length_take]
    exact min_eq_left hfit.filled_le
  obtain ⟨hpos, hfound, hmore⟩ := parseResponse_part hl hparse (List.prefix_append (buf.data.take filled) up.bytes)
  rw [hlen] at hfound hmore
  by_cases hle : head.headLen ≤ filled
  · exact Or.inl (by rw [if_pos (show filled > 0 by omega), hfound hle])
  · refine Or.inr ⟨?_, fun hdrained => ?_⟩
    · split
      · exact hmore (by omega)
      · rfl
    · -- a drained stream would have left the whole head in the buffer
      have := (parseResponse_append hl hparse []).2
      rw [hdrained, List.append_nil, hlen] at this
      exact hle this

/-- **The head is found**, however the bytes of the stream are cut. -/
theorem readResponseHead_of_stream (hl : hp.Laws) {method : Bytes} {up : Source} {buf : Buf} {filled : ℕ}
    (hfit : buf.Fits filled) {head : ResponseHead}
    (hparse : parseResponse hp (buf.data.take filled ++ up.bytes) method = .complete head) :
    ∃ src buf' filled', readResponseHead hp method up buf filled = .head head src buf' filled' ∧
      src.ending = up.ending := by
  have hparsed := parsed_of_stream hl hfit hparse
  fun_induction readResponseHead hp method up buf filled with
  | case1 up buf filled parsed hd hc =>
    rcases hparsed with hhead | ⟨hmore, -⟩
    · obtain rfl := Parsed.complete.inj (hc.symm.trans hhead)
      exact ⟨up, buf, filled, rfl, rfl⟩
    · cases hc.symm.trans hmore
  | case2 up buf filled parsed reason hc =>
    rcases hparsed with hhead | ⟨hmore, -⟩
    · cases hc.symm.trans hhead
    · cases hc.symm.trans hmore
  | case3 up buf filled parsed hc bytes hne buf₁ src₁ hread ih =>
    obtain ⟨hbytes, hend, -, htake, hfit₁⟩ := readMore_data hfit hread
    rw [hbytes, ← List.append_assoc, ← htake] at hparse
    obtain ⟨src, buf', filled', hresult, hend'⟩ := ih hfit₁ hparse (parsed_of_stream hl hfit₁ hparse)
    exact ⟨src, buf', filled', hresult, hend'.trans hend⟩
  | case4 up buf filled parsed hc buf₁ src₁ hread =>
    exact absurd (readMore_other hfit hread (by simp)).1 (hparsed.resolve_left fun hd => by cases hc.symm.trans hd).2
  | case5 up buf filled parsed hc buf₁ src₁ hread =>
    exact absurd (readMore_other hfit hread (by simp)).1 (hparsed.resolve_left fun hd => by cases hc.symm.trans hd).2
  | case6 up buf filled parsed hc buf₁ src₁ hread =>
    exact absurd (readMore_other hfit hread (by simp)).1 (hparsed.resolve_left fun hd => by cases hc.symm.trans hd).2

theorem writeReturnHead_congr {a b : Bytes} {head : ResponseHead} (h : a.take head.headLen = b.take head.headLen)
    (keep : Bool) : writeReturnHead a head keep = writeReturnHead b head keep := by
  simp only [writeReturnHead, h]

/-- The returned head ends in a `Connection` field that keeps the connection open. -/
def SaysKeepAlive (head : Bytes) : Prop := ascii "Connection: keep-alive\r\n\r\n" <:+ head

theorem saysKeepAlive_writeReturnHead (original : Bytes) (head : ResponseHead) (keep : Bool) :
    SaysKeepAlive (writeReturnHead original head keep) ↔ keep = true := by
  constructor
  · intro h
    cases keep with
    | true => rfl
    | false =>
      -- both dispositions would end the same bytes, so one would end the other
      have hclose : ascii "Connection: close\r\n\r\n" <:+ writeReturnHead original head false :=
        List.suffix_append _ _
      have := List.suffix_of_suffix_length_le hclose h (by decide)
      exact absurd this (by decide)
  · rintro rfl
    exact List.suffix_append _ _

/-! ## The response -/

/-- What is written of a response. -/
def returnedResponse (stream : Bytes) (head : ResponseHead) (keep : Bool) : Bytes :=
  writeReturnHead stream head keep ++ bodyOf head.body (stream.drop head.headLen)

/-- Whether the client's connection may stay open behind this response. -/
def returnKeeps (head : ResponseHead) (keepAlive : Bool) : Bool := keepAlive && head.body != .untilClose

/-- **What the relay of a response does.** -/
theorem relayResponse_spec (hl : hp.Laws) {method : Bytes} {up : Source} {head : ResponseHead}
    (hparse : parseResponse hp up.bytes method = .complete head) (hbody : LengthOrClose head.body)
    (down : Sink) (keepAlive : Bool) :
    (∀ up' down' outcome, relayResponse hp up down method keepAlive = .done (up', down', outcome) →
      BodyArrives head.body (up.bytes.drop head.headLen) up.ending ∧
        down' = extend down (returnedResponse up.bytes head (returnKeeps head keepAlive)) ∧
        outcome.downstreamReusable = returnKeeps head keepAlive) ∧
    (BodyArrives head.body (up.bytes.drop head.headLen) up.ending → down.limit = none →
      ∃ up' outcome, relayResponse hp up down method keepAlive =
        .done (up', extend down (returnedResponse up.bytes head (returnKeeps head keepAlive)), outcome)) ∧
    (¬ BodyArrives head.body (up.bytes.drop head.headLen) up.ending → up.ending ≠ .idle →
      relayResponse hp up down method keepAlive = .failed) := by
  obtain ⟨src, buf, filled, hread, hend⟩ := readResponseHead_of_stream hl fits_start
    (show parseResponse hp ((Buf.withCapacity IO_BUF_INITIAL).data.take 0 ++ up.bytes) method = .complete head from
      hparse)
  obtain ⟨hparse', hfit, -, more, hmore, htake⟩ := readResponseHead_spec fits_start hread
  obtain rfl : buf.data.take filled = more := htake
  have hlen := (parseResponse_append hl hparse' src.bytes).2
  have hrest : up.bytes.drop head.headLen = bufferedBody buf head.headLen filled ++ src.bytes := by
    rw [hmore, bufferedBody, List.drop_append_of_le_length hlen]
  have hhead : ∀ keep, writeReturnHead (buf.data.take filled) head keep = writeReturnHead up.bytes head keep := by
    intro keep
    refine writeReturnHead_congr ?_ keep
    rw [hmore, List.take_append_of_le_length hlen]
  rw [hrest, ← hend]
  simp only [relayResponse, hread, hhead, returnedResponse, hrest]
  rw [← returnKeeps]
  cases hw : down.writeAll (writeReturnHead up.bytes head (returnKeeps head keepAlive)) with
  | none =>
    refine ⟨fun _ _ _ h => (by cases h), fun _ hlim => ?_, fun _ _ => rfl⟩
    rw [writeAll_of_unlimited hlim] at hw
    cases hw
  | some down₁ =>
    obtain rfl := writeAll_eq hw
    dsimp only
    obtain ⟨hdone, hreturns, hfails⟩ :=
      relayResponseBody_spec src (extend down (writeReturnHead up.bytes head (returnKeeps head keepAlive))) hfit hbody
    refine ⟨fun up' down' outcome h => ?_, fun harrives hlim => ?_, fun hshort hidle => ?_⟩
    · obtain ⟨⟨s, d⟩, hr, hx⟩ := Outcome.bind_eq_done.mp h
      simp only [Outcome.done.injEq, Prod.mk.injEq] at hx
      obtain ⟨rfl, rfl, rfl⟩ := hx
      obtain ⟨harrives, rfl⟩ := hdone _ _ hr
      exact ⟨harrives, by rw [extend_extend], rfl⟩
    · obtain ⟨src', hr⟩ := hreturns harrives hlim
      rw [extend_extend] at hr
      exact ⟨src', _, by rw [hr]; rfl⟩
    · rw [hfails hshort hidle]
      rfl

/-! ## The connection -/

variable {m : PathRouter} {env : Env m}

/-- The connection goes on behind the exchange `e`: the next round reads another request from the state `s'`. -/
structure ReadsNext (hp : HeadParser) (env : Env m) (s : ConnState) (e : Exchange) (s' : ConnState) : Prop where
  next : serveRound hp env s = .next e s'
  served_lt : s'.served < MAX_REQUESTS_PER_CONNECTION
  loop : serveLoop hp env (MAX_REQUESTS_PER_CONNECTION - s.served) s =
    (e :: (serveLoop hp env (MAX_REQUESTS_PER_CONNECTION - s'.served) s').1,
      (serveLoop hp env (MAX_REQUESTS_PER_CONNECTION - s'.served) s').2)

theorem readsNext_of_next {s s' : ConnState} {e : Exchange} (h : serveRound hp env s = .next e s')
    (hserved : s'.served = s.served + 1) (hlt : s'.served < MAX_REQUESTS_PER_CONNECTION) :
    ReadsNext hp env s e s' := by
  refine ⟨h, hlt, ?_⟩
  have hfuel : MAX_REQUESTS_PER_CONNECTION - s.served = MAX_REQUESTS_PER_CONNECTION - s'.served + 1 := by omega
  rw [hfuel, serveLoop, h]

/-- **When a round goes on**: when the request and the response let the connection stay open. -/
theorem readsNext_iff {s : ConnState} {e : Exchange} (h : e ∈ exchanges (serveRound hp env s)) :
    ∃ up upSrc sink outcome, env.upstream s.served e.address = some up ∧
      relayResponse hp up.source s.downstream.sink e.request.method (keepsAlive s e.request) =
        .done (upSrc, sink, outcome) ∧
      ((∃ s', ReadsNext hp env s e s' ∧ s'.downstream.sink = sink) ↔
        (keepsAlive s e.request && outcome.downstreamReusable) = true) := by
  unfold serveRound at h
  split at h
  · rename_i head src buf filled hread
    have hround : serveRound hp env s = exchange hp env s src buf filled head := by
      simp only [serveRound, hread]
    obtain ⟨-, up, upSrc, sink, outcome, -, hup, rfl, hresp, -, hgo⟩ := exchange_cases h
    refine ⟨up, upSrc, sink, outcome, hup, hresp, ?_⟩
    split at hgo
    · rename_i hkeep
      obtain ⟨s', hnext, hsink, hserved⟩ := hgo
      have hlt : s.served + 1 < MAX_REQUESTS_PER_CONNECTION := by
        have := (Bool.and_eq_true_iff.mp hkeep).1
        simp only [keepsAlive, Bool.and_eq_true, decide_eq_true_eq] at this
        exact this.2
      exact ⟨fun _ => hkeep, fun _ =>
        ⟨s', readsNext_of_next (hround.trans hnext) hserved (hserved ▸ hlt), hsink⟩⟩
    · rename_i hkeep
      refine ⟨fun hreads => ?_, fun h => absurd h hkeep⟩
      obtain ⟨s', hreads, -⟩ := hreads
      rw [hreads.next, hgo] at hround
      cases hround
  all_goals simp [exchanges] at h

/-- **Responses with a length and responses that end with the connection are relayed exactly**, however the stream is
cut: a relay that returns has written the rewritten head and the body; it returns if the stream delivers the body, and
fails if the stream ends before.  The head that the client receives keeps the connection open exactly when the connection
goes on to another request, and so does what is read of it if the framing of the response is returned. -/
theorem response_relayed_exactly (hl : hp.Laws) (method : Bytes) (up : Source) (head : ResponseHead)
    (hparse : parseResponse hp up.bytes method = .complete head) (hbody : LengthOrClose head.body) :
    (∀ (down : Sink) (keepAlive : Bool),
      (∀ up' down' outcome, relayResponse hp up down method keepAlive = .done (up', down', outcome) →
        BodyArrives head.body (up.bytes.drop head.headLen) up.ending ∧
          down' = extend down (returnedResponse up.bytes head (returnKeeps head keepAlive))) ∧
      (BodyArrives head.body (up.bytes.drop head.headLen) up.ending → down.limit = none →
        ∃ up' down' outcome, relayResponse hp up down method keepAlive = .done (up', down', outcome)) ∧
      (¬ BodyArrives head.body (up.bytes.drop head.headLen) up.ending → up.ending ≠ .idle →
        relayResponse hp up down method keepAlive = .failed)) ∧
    ∀ (m : PathRouter) (env : Env m) (s : ConnState) (e : Exchange), e ∈ exchanges (serveRound hp env s) →
      e.request.method = method → (∀ conn, env.upstream s.served e.address = some conn → conn.source = up) →
      ∃ keep up' down' outcome,
        relayResponse hp up s.downstream.sink method (keepsAlive s e.request) = .done (up', down', outcome) ∧
        down' = extend s.downstream.sink (returnedResponse up.bytes head keep) ∧
        (SaysKeepAlive (writeReturnHead up.bytes head keep) ↔
          ∃ s', ReadsNext hp env s e s' ∧ s'.downstream.sink = down') ∧
        ∀ (r : ResponseLayout) (rest : Bytes), r.WF → up.bytes = r.render ++ rest → r.fields.length < MAX_HEADERS →
          ReturnsFraming r method →
          ∃ h', parseResponse hp (writeReturnHead up.bytes head keep) method = .complete h' ∧
            h'.headLen = (writeReturnHead up.bytes head keep).length ∧ h'.status = head.status ∧ h'.body = head.body ∧
            (h'.closeRequested = false ↔ ∃ s', ReadsNext hp env s e s' ∧ s'.downstream.sink = down') := by
  refine ⟨fun down keepAlive => ?_, fun m env s e he hmethod hconn => ?_⟩
  · obtain ⟨hdone, hreturns, hfails⟩ := relayResponse_spec hl hparse hbody down keepAlive
    refine ⟨fun up' down' outcome h => ?_, fun harrives hlim => ?_, hfails⟩
    · obtain ⟨harrives, hdown, -⟩ := hdone up' down' outcome h
      exact ⟨harrives, hdown⟩
    · obtain ⟨up', outcome, h⟩ := hreturns harrives hlim
      exact ⟨up', _, outcome, h⟩
  · obtain ⟨conn, up', down', outcome, hup, hresp, hgo⟩ := readsNext_iff he
    rw [hconn conn hup, hmethod] at hresp
    obtain ⟨-, hdown, hkeep⟩ := (relayResponse_spec hl hparse hbody _ _).1 up' down' outcome hresp
    have hreads : (∃ s', ReadsNext hp env s e s' ∧ s'.downstream.sink = down') ↔
        returnKeeps head (keepsAlive s e.request) = true := by
      rw [hgo, hkeep, returnKeeps]
      cases keepsAlive s e.request <;> simp
    refine ⟨returnKeeps head (keepsAlive s e.request), up', down', outcome, hresp, hdown, ?_,
      fun r rest hwf hbytes hslots hframing => ?_⟩
    · rw [saysKeepAlive_writeReturnHead, hreads]
    · obtain ⟨h', hp', hlen, hstatus, hbody', hclose⟩ :=
        (readBack_of_parsed hl hparse _ r rest hwf hbytes hslots).mpr hframing
      refine ⟨h', hp', hlen, hstatus, hbody', ?_⟩
      rw [hclose, hreads, Bool.not_eq_false']

end Response

theorem response_relayed_exactly_two_reads :
    ∃ up' down' outcome,
      relayResponse .reference sampleResponse ⟨[], none⟩ (ascii "GET") true = .done (up', down', outcome) ∧
      down'.written = ascii "HTTP/1.1 200 OK\r\nContent-Length: 2\r\nConnection: keep-alive\r\n\r\nhi" := by
  obtain ⟨hdone, hreturns, -⟩ := (response_relayed_exactly HeadParser.reference_laws (ascii "GET") sampleResponse
    ⟨38, 200, .fixed 2, false⟩ parseResponse_sampleResponse (Or.inl ⟨2, rfl⟩)).1 ⟨[], none⟩ true
  obtain ⟨up', down', outcome, h⟩ := hreturns (by decide) rfl
  refine ⟨up', down', outcome, h, ?_⟩
  rw [(hdone up' down' outcome h).2]
  decide +kernel

end LbProxy.Monoio
