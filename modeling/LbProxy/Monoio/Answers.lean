import LbProxy.Monoio.ChunkedRelay
import LbProxy.Monoio.LengthRelay
import LbProxy.Monoio.Pipeline

/-!
# What the client receives

* `Answers` — the bytes of one response as it is returned: a rewritten head, and the body that the relay of its framing
  takes of the upstream's bytes behind the head;
* `relayResponse_answers` — a relay that returns has written one response, the error response, or nothing;
* `connection_answered` — the stream that the client receives on a connection, whatever it sends and whatever its
  upstreams answer;
* `pipelined_answered` — pipelined requests are all answered, in order.
-/

namespace LbProxy.Monoio

open Lib LbProxy.Core

/-! ## One response -/

/-- What is relayed as the body of a response of which this is buffered behind the head, and the rest is still to be
read: for a chunked body, what is buffered and the reads up to the first one that contains the terminator. -/
def Relayed (kind : BodyLength) (buffered : Bytes) (src : Source) (cap : ℕ) (body : Bytes) : Prop :=
  match kind with
  | .empty => body = []
  | .fixed n => n ≤ (buffered ++ src.bytes).length ∧ body = (buffered ++ src.bytes).take n
  | .chunked => ∃ left, body = buffered ++ left ∧ StopsAtEnd src cap left
  | .untilClose => body = buffered ++ src.bytes ∧ src.ending = .closed

/-- The head ends in a `Connection` field that closes the connection. -/
def SaysClose (head : Bytes) : Prop := ascii "Connection: close\r\n\r\n" <:+ head

theorem saysClose_errorResponse (status : ℕ) (reason : Bytes) : SaysClose (errorResponse status reason) := by
  refine (?_ : ascii "Connection: close\r\n\r\n" <:+ ascii "\r\nContent-Length: 0\r\nConnection: close\r\n\r\n").trans
    (List.suffix_append _ _)
  decide

/-- The head tells the client what happens to its connection. -/
def SaysKeep (keep : Bool) (head : Bytes) : Prop := if keep then SaysKeepAlive head else SaysClose head

theorem saysKeep_writeReturnHead (original : Bytes) (head : ResponseHead) (keep : Bool) :
    SaysKeep keep (writeReturnHead original head keep) := by
  cases keep with
  | true => exact (saysKeepAlive_writeReturnHead original head true).mpr rfl
  | false => exact List.suffix_append _ _

section Response

variable (hp : HeadParser)

/-- The bytes are the response of this upstream as it is returned: its rewritten head, which says whether the client's
connection stays open, and is read as saying so if the framing of the response is returned, and the body behind it; a
response that keeps the connection open has an end of its own. -/
def Answers (method : Bytes) (up : Source) (keep : Bool) (answer : Bytes) : Prop :=
  ∃ head src buf filled body,
    readResponseHead hp method up (Buf.withCapacity IO_BUF_INITIAL) 0 = .head head src buf filled ∧
    parseResponse hp up.bytes method = .complete head ∧
    bufferedBody buf head.headLen filled ++ src.bytes = up.bytes.drop head.headLen ∧ src.ending = up.ending ∧
    Relayed head.body (bufferedBody buf head.headLen filled) src (relayCap buf) body ∧
    (keep = true → head.body ≠ .untilClose) ∧ SaysKeep keep (writeReturnHead up.bytes head keep) ∧
    ReadBack hp up.bytes head method keep ∧ answer = writeReturnHead up.bytes head keep ++ body

variable {hp}

theorem eq_extend_of_ofOption {dst dst' : Sink} {n : ℕ} {bytes : Bytes} (hlen : bytes.length = n)
    (h : (if n > 0 then Outcome.ofOption (dst.writeAll bytes) else .done dst) = .done dst') :
    dst' = extend dst bytes := by
  have hcases := @ofOption_writeAll_cases dst n bytes hlen
  rcases hcases with hw | hw
  · rw [hw] at h
    cases h
  · rw [hw] at h
    exact (Outcome.done.inj h).symm

/-- **A relay that returns has written the body that its framing takes.** -/
theorem relayed_of_done {src src' : Source} {dst dst' : Sink} {buf : Buf} {head : ResponseHead} {filled : ℕ}
    (hfit : buf.Fits filled) (h : relayResponseBody src dst buf head filled = .done (src', dst')) :
    ∃ body, Relayed head.body (bufferedBody buf head.headLen filled) src (relayCap buf) body ∧
      dst' = extend dst body := by
  cases hbody : head.body with
  | empty =>
    simp only [relayResponseBody, hbody, Outcome.done.injEq, Prod.mk.injEq] at h
    exact ⟨[], rfl, by rw [← h.2]; simp [extend]⟩
  | fixed n =>
    obtain ⟨hle, rfl⟩ := (relayResponseBody_fixed src dst hfit hbody).1 src' dst' h
    exact ⟨_, ⟨hle, rfl⟩, rfl⟩
  | untilClose =>
    obtain ⟨hend, rfl⟩ := (relayResponseBody_untilClose src dst hfit hbody).1 src' dst' h
    exact ⟨_, ⟨rfl, hend⟩, rfl⟩
  | chunked =>
    simp only [relayResponseBody, hbody] at h
    rw [← bufferedBody] at h
    obtain ⟨dst₁, hwrite, h⟩ := Outcome.bind_eq_done.mp h
    obtain rfl := eq_extend_of_ofOption (length_bufferedBody hfit) hwrite
    obtain ⟨⟨s, d, b⟩, hrelay, hx⟩ := Outcome.bind_eq_done.mp h
    simp only [Outcome.done.injEq, Prod.mk.injEq] at hx
    obtain ⟨rfl, rfl⟩ := hx
    have hcap : (relayBuf buf).cap ≠ 0 := relayCap_ne_zero hfit.length_le
    rcases relayChunkedLoop_done hcap hrelay with ⟨taken, rest, hstops, rfl, -, -⟩ | ⟨hno, hend, rfl, -, -⟩
    · exact ⟨_, ⟨taken.flatten, rfl, .inl ⟨taken, rest, hstops, rfl⟩⟩, extend_extend ..⟩
    · exact ⟨_, ⟨src.bytes, rfl, .inr ⟨hend, rfl, hno⟩⟩, extend_extend ..⟩

/-- **What a relay that returns has written**: one response, which closes the client's connection if the request does, or,
when the connection is closed anyway, the error response or nothing. -/
theorem relayResponse_answers (hl : hp.Laws) {method : Bytes} {up up' : Source} {down down' : Sink} {keepAlive : Bool}
    {outcome : RelayOutcome} (h : relayResponse hp up down method keepAlive = .done (up', down', outcome)) :
    (∃ answer, Answers hp method up outcome.downstreamReusable answer ∧ down' = extend down answer ∧
      (outcome.downstreamReusable = true → keepAlive = true)) ∨
      outcome.downstreamReusable = false ∧
        (down' = extend down (errorResponse 502 (ascii "Bad Gateway")) ∨ down' = down) := by
  unfold relayResponse at h
  split at h
  · simp only [Outcome.done.injEq, Prod.mk.injEq] at h
    obtain ⟨-, rfl, rfl⟩ := h
    refine Or.inr ⟨rfl, ?_⟩
    cases hw : down.writeAll (errorResponse 502 (ascii "Bad Gateway")) with
    | none => exact Or.inr rfl
    | some down₁ => exact Or.inl (writeAll_eq hw)
  · simp only [Outcome.done.injEq, Prod.mk.injEq] at h
    obtain ⟨-, rfl, rfl⟩ := h
    exact Or.inr ⟨rfl, Or.inr rfl⟩
  · cases h
  · cases h
  · rename_i head src buf filled hread
    obtain ⟨hparse, hfit, -, more, hmore, htake⟩ := readResponseHead_spec fits_start hread
    obtain rfl : buf.data.take filled = more := htake
    obtain ⟨hall, hlen⟩ := parseResponse_append hl hparse src.bytes
    rw [← hmore] at hall
    obtain ⟨src', buf', filled', hread', hend⟩ := readResponseHead_of_stream hl fits_start
      (show parseResponse hp ((Buf.withCapacity IO_BUF_INITIAL).data.take 0 ++ up.bytes) method = .complete head from
        hall)
    obtain ⟨-, rfl, rfl, rfl⟩ := ResponseOutcome.head.inj (hread.symm.trans hread')
    have hhead : ∀ keep, writeReturnHead (buf.data.take filled) head keep = writeReturnHead up.bytes head keep := by
      intro keep
      refine writeReturnHead_congr ?_ keep
      rw [hmore, List.take_append_of_le_length hlen]
    simp only [hhead] at h
    split at h
    · cases h
    · rename_i down₁ hwrite
      obtain rfl := writeAll_eq hwrite
      obtain ⟨⟨s, d⟩, hbody, hx⟩ := Outcome.bind_eq_done.mp h
      simp only [Outcome.done.injEq, Prod.mk.injEq] at hx
      obtain ⟨rfl, rfl, rfl⟩ := hx
      obtain ⟨body, hrelayed, rfl⟩ := relayed_of_done hfit hbody
      refine Or.inl ⟨_, ⟨head, src, buf, filled, body, hread, hall, ?_, hend, hrelayed, fun h => ?_,
        saysKeep_writeReturnHead .., readBack_of_parsed hl hall _, rfl⟩, extend_extend .., fun h => ?_⟩
      · rw [hmore, List.drop_append_of_le_length hlen, ← bufferedBody]
      · simpa using (Bool.and_eq_true_iff.mp h).2
      · exact (Bool.and_eq_true_iff.mp h).1

end Response

/-! ## One round -/

/-- What is written when a connection ends without an exchange is an error response that says so, if anything. -/
def RepliesError (ending : ServeEnd) : Prop :=
  ∀ response, ending = .replied response →
    SaysClose response ∧ ∃ status reason, response = errorResponse status reason

theorem repliesError_replied (status : ℕ) (reason : Bytes) : RepliesError (.replied (errorResponse status reason)) := by
  rintro _ ⟨⟩
  exact ⟨saysClose_errorResponse status reason, status, reason, rfl⟩

theorem repliesError_of_silent {ending : ServeEnd} (h : ∀ response, ending ≠ .replied response) :
    RepliesError ending :=
  fun response hreplied => absurd hreplied (h response)

section Round

variable {hp : HeadParser} {m : PathRouter} {env : Env m}

theorem checkHead_reply {served : ℕ} {buffered response : Bytes} (h : checkHead hp served buffered = .reply response) :
    ∃ status reason, response = errorResponse status reason := by
  simp only [checkHead] at h
  split at h
  · cases h
  · split at h
    · cases h
    · cases h
    · split at h
      · cases h
      · exact ⟨_, _, (HeadCheck.reply.inj h).symm⟩
      · split at h
        · exact ⟨_, _, (HeadCheck.reply.inj h).symm⟩
        · cases h

theorem readHead_reply {served : ℕ} {src : Source} {buf : Buf} {filled : ℕ} {response : Bytes}
    (h : readHead hp served src buf filled = .reply response) :
    ∃ status reason, response = errorResponse status reason := by
  fun_induction readHead hp served src buf filled with
  | case3 src buf filled response' hcheck =>
    obtain rfl := HeadOutcome.reply.inj h
    exact checkHead_reply hcheck
  | case4 src buf filled hcheck bytes hne buf₁ src₁ hread ih => exact ih h
  | _ => cases h

/-- An exchange is reported, or the connection ends. -/
theorem exchange_ends (s : ConnState) (src : Source) (buf : Buf) (filled : ℕ) (head : RequestHead) :
    (∃ ending, exchange hp env s src buf filled head = .stop [] ending ∧ RepliesError ending) ∨
      ∃ e, e ∈ exchanges (exchange hp env s src buf filled head) := by
  have hfailed : RepliesError .failed := repliesError_of_silent (by simp)
  have hblocked : RepliesError .blocked := repliesError_of_silent (by simp)
  unfold exchange
  simp only
  split
  · exact Or.inl ⟨_, rfl, repliesError_replied _ _⟩
  split
  · exact Or.inl ⟨_, rfl, hfailed⟩
  split
  · exact Or.inl ⟨_, rfl, repliesError_replied _ _⟩
  split
  · exact Or.inl ⟨_, rfl, hfailed⟩
  split
  · exact Or.inl ⟨_, rfl, hfailed⟩
  · exact Or.inl ⟨_, rfl, hblocked⟩
  split
  · exact Or.inl ⟨_, rfl, hfailed⟩
  · exact Or.inl ⟨_, rfl, hblocked⟩
  · refine Or.inr ?_
    split <;> exact ⟨_, List.mem_singleton_self _⟩

/-- **What a round does**: it ends the connection without an exchange, or it relays a response, and the connection goes on
if both sides let it. -/
theorem serveRound_cases (s : ConnState) :
    (∃ ending, serveRound hp env s = .stop [] ending ∧ RepliesError ending) ∨
      ∃ e up upSrc sink outcome, env.upstream s.served e.address = some up ∧
        relayResponse hp up.source s.downstream.sink e.request.method (keepsAlive s e.request) =
          .done (upSrc, sink, outcome) ∧
        if keepsAlive s e.request && outcome.downstreamReusable then
          ∃ s', serveRound hp env s = .next e s' ∧ s'.downstream.sink = sink ∧ s'.served = s.served + 1
        else serveRound hp env s = .stop [e] .returned := by
  have ends : ∀ ending, serveRound hp env s = .stop [] ending → (∀ response, ending ≠ .replied response) →
      ∃ ending, serveRound hp env s = .stop [] ending ∧ RepliesError ending :=
    fun ending hstop hsilent => ⟨ending, hstop, repliesError_of_silent hsilent⟩
  cases hread : readHead hp s.served s.downstream.source s.buf s.filled with
  | head head src buf filled =>
    have hround : serveRound hp env s = exchange hp env s src buf filled head := by simp only [serveRound, hread]
    rcases exchange_ends s src buf filled head with ⟨ending, hstop, hends⟩ | ⟨e, he⟩
    · exact Or.inl ⟨ending, hround.trans hstop, hends⟩
    · obtain ⟨-, up, upSrc, sink, outcome, -, hup, rfl, hresp, -, hgo⟩ := exchange_cases he
      exact Or.inr ⟨e, up, upSrc, sink, outcome, hup, hresp, by rw [hround]; exact hgo⟩
  | reply response =>
    obtain ⟨status, reason, rfl⟩ := readHead_reply hread
    exact Or.inl ⟨_, by simp only [serveRound, hread], repliesError_replied status reason⟩
  | upgrade buffered src => exact Or.inl (ends (.upgraded buffered src) (by simp only [serveRound, hread]) (by simp))
  | closed => exact Or.inl (ends .returned (by simp only [serveRound, hread]) (by simp))
  | failed => exact Or.inl (ends .failed (by simp only [serveRound, hread]) (by simp))
  | blocked => exact Or.inl (ends .blocked (by simp only [serveRound, hread]) (by simp))

variable (hp env)

/-- The exchange of the `k`-th request returns this response of its upstream. -/
def Returns (keep : Bool) (k : ℕ) (e : Exchange) (answer : Bytes) : Prop :=
  ∃ up, env.upstream k e.address = some up ∧ Answers hp e.request.method up.source keep answer

/-- What the last round of a connection writes to the client: an error response or nothing, or, behind its exchange, a
response that closes the connection, the error response or nothing.  What a round writes that breaks off is left open. -/
inductive LastRound (s : ConnState) : List Exchange → ServeEnd → Prop
  | breaksOff {ending : ServeEnd} (broken : ending = .failed ∨ ending = .blocked) : LastRound s [] ending
  | ends {ending : ServeEnd} (replies : RepliesError ending) (whole : ending ≠ .failed ∧ ending ≠ .blocked) :
      LastRound s [] ending
  | answers {e : Exchange} {up : Conn} {upSrc : Source} {sink : Sink} {outcome : RelayOutcome}
      (upstream : env.upstream s.served e.address = some up)
      (relays : relayResponse hp up.source s.downstream.sink e.request.method (keepsAlive s e.request) =
        .done (upSrc, sink, outcome))
      (closes : (∃ answer, Returns hp env false s.served e answer ∧ sink = extend s.downstream.sink answer) ∨
        sink = extend s.downstream.sink (errorResponse 502 (ascii "Bad Gateway")) ∨ sink = s.downstream.sink) :
      LastRound s [e] .returned

variable {hp env}

/-- The step: a round that goes on has returned one response in full, which keeps the connection open. -/
theorem serveRound_returns (hl : hp.Laws) (s : ConnState) :
    (∃ e s' answer, serveRound hp env s = .next e s' ∧ Returns hp env true s.served e answer ∧
      s'.downstream.sink = extend s.downstream.sink answer ∧ s'.served = s.served + 1 ∧
        s'.served < MAX_REQUESTS_PER_CONNECTION) ∨
      ∃ done ending, serveRound hp env s = .stop done ending ∧ LastRound hp env s done ending := by
  rcases serveRound_cases s with ⟨ending, hstop, hends⟩ |
    ⟨e, up, upSrc, sink, outcome, hup, hresp, hgo⟩
  · by_cases hbroken : ending = .failed ∨ ending = .blocked
    · exact Or.inr ⟨[], ending, hstop, .breaksOff hbroken⟩
    · exact Or.inr ⟨[], ending, hstop, .ends hends (not_or.mp hbroken)⟩
  have hwritten := relayResponse_answers hl hresp
  split at hgo
  · rename_i hkeep
    obtain ⟨hkeeps, hreusable⟩ := Bool.and_eq_true_iff.mp hkeep
    obtain ⟨s', hnext, rfl, hserved⟩ := hgo
    have hlt : s.served + 1 < MAX_REQUESTS_PER_CONNECTION := by
      simp only [keepsAlive, Bool.and_eq_true, decide_eq_true_eq] at hkeeps
      exact hkeeps.2
    rw [hreusable] at hwritten
    rcases hwritten with ⟨answer, hanswers, hsink, -⟩ | ⟨hclosed, -⟩
    · exact Or.inl ⟨e, s', answer, hnext, ⟨up, hup, hanswers⟩, hsink, hserved, hserved ▸ hlt⟩
    · cases hclosed
  · rename_i hkeep
    refine Or.inr ⟨[e], .returned, hgo, .answers hup hresp ?_⟩
    rcases hwritten with ⟨answer, hanswers, hsink, hkeeps⟩ | ⟨-, hsink⟩
    · have hclosed : outcome.downstreamReusable = false := by
        cases h : outcome.downstreamReusable with
        | false => rfl
        | true => simp [h, hkeeps h] at hkeep
      exact Or.inl ⟨answer, ⟨up, hup, hclosed ▸ hanswers⟩, hsink⟩
    · exact Or.inr hsink

end Round

/-! ## The connection -/

section Run

variable {hp : HeadParser} {m : PathRouter} (env : Env m)

/-- The connection goes on from one state to another, over these exchanges. -/
inductive Continues (hp : HeadParser) : ConnState → List Exchange → ConnState → Prop
  | nil (s : ConnState) : Continues hp s [] s
  | cons {s s' s'' : ConnState} {e : Exchange} {es : List Exchange} (next : serveRound hp env s = .next e s')
      (more : Continues hp s' es s'') : Continues hp s (e :: es) s''

variable {env}

theorem Continues.serveLoop_eq {s s' : ConnState} {es : List Exchange} (h : Continues env hp s es s') (fuel : ℕ) :
    serveLoop hp env (es.length + fuel) s =
      (es ++ (serveLoop hp env fuel s').1, (serveLoop hp env fuel s').2) := by
  induction h with
  | nil s => simp
  | cons next more ih =>
    rw [List.length_cons, Nat.add_right_comm, serveLoop, next]
    simp only [ih, List.cons_append]

/-- The run: from any state, the rounds that go on return one response each, and the round that does not is the last. -/
theorem exists_rounds (hl : hp.Laws) (s : ConnState) (hmax : s.served < MAX_REQUESTS_PER_CONNECTION) :
    ∃ es s' answers done ending, Continues env hp s es s' ∧
      s'.served = s.served + es.length ∧ s'.served < MAX_REQUESTS_PER_CONNECTION ∧
      List.Forall₂ (fun x answer => Returns hp env true x.2 x.1 answer) (es.zipIdx s.served) answers ∧
      s'.downstream.sink = extend s.downstream.sink answers.flatten ∧
      serveRound hp env s' = .stop done ending ∧ LastRound hp env s' done ending := by
  -- by the requests that the connection can still serve
  obtain ⟨n, hn⟩ : ∃ n, MAX_REQUESTS_PER_CONNECTION - s.served = n := ⟨_, rfl⟩
  induction n generalizing s with
  | zero => omega
  | succ n ih =>
    rcases serveRound_returns hl s with ⟨e, s', answer, hnext, hreturns, hsink, hserved, hlt⟩ |
      ⟨done, ending, hstop, hlast⟩
    · obtain ⟨es, s'', answers, done, ending, hrun, hcount, hlt', hall, hsink', hstop, hlast⟩ := ih s' hlt (by omega)
      refine ⟨e :: es, s'', answer :: answers, done, ending, .cons hnext hrun, ?_, hlt', ?_, ?_, hstop, hlast⟩
      · rw [hcount, hserved, List.length_cons]
        omega
      · rw [List.zipIdx_cons, ← hserved]
        exact .cons hreturns hall
      · rw [hsink', hsink, extend_extend, List.flatten_cons]
    · exact ⟨[], s, [], done, ending, .nil s, rfl, hmax, .nil, by simp [extend], hstop, hlast⟩

/-- **What the client receives on a connection**, whatever it sends, however its bytes are cut, and whatever its upstreams
answer: the loop ends within the number of requests it may serve; each exchange but the last has written the head of one
response of its upstream, in the order of the requests, which keeps the connection open, and the body that the relay of
its framing takes; and the last round, unless it breaks off, writes at most one more response, which closes the
connection. -/
theorem connection_answered (hl : hp.Laws) (env : Env m) (downstream : Conn) :
    ∃ es s answers done ending, serveConnection hp env downstream = (es ++ done, ending) ∧
      Continues env hp (.start downstream) es s ∧ es.length < MAX_REQUESTS_PER_CONNECTION ∧
      List.Forall₂ (fun x answer => Returns hp env true x.2 x.1 answer) es.zipIdx answers ∧
      s.downstream.sink = extend downstream.sink answers.flatten ∧
      serveRound hp env s = .stop done ending ∧ LastRound hp env s done ending := by
  obtain ⟨es, s, answers, done, ending, hrun, hcount, hlt, hall, hsink, hstop, hlast⟩ :=
    exists_rounds hl (.start downstream) (show 0 < MAX_REQUESTS_PER_CONNECTION by decide)
  have hlen : es.length < MAX_REQUESTS_PER_CONNECTION := by
    have : s.served = 0 + es.length := hcount
    omega
  refine ⟨es, s, answers, done, ending, ?_, hrun, hlen, hall, hsink, hstop, hlast⟩
  obtain ⟨fuel, hfuel⟩ : ∃ fuel, MAX_REQUESTS_PER_CONNECTION = es.length + (fuel + 1) :=
    ⟨MAX_REQUESTS_PER_CONNECTION - es.length - 1, by omega⟩
  rw [serveConnection, hfuel, hrun.serveLoop_eq, serveLoop, hstop]

/-- Two requests whose bytes are cut in their heads and in the body. -/
def sampleClient : Conn :=
  ⟨⟨[ascii "GET /a HT", ascii "TP/1.1\r\n\r\nPOST /b HTTP/1.1\r\nContent-", ascii "Length: 2\r\n\r\nh", ascii "i"],
    .closed, false⟩, ⟨[], none⟩⟩

theorem connection_answered_sample :
    ∃ (answers : List Bytes) (es done : List Exchange) (s : ConnState) (ending : ServeEnd),
      serveConnection .reference sampleEnv sampleClient = (es ++ done, ending) ∧
      Continues sampleEnv .reference (.start sampleClient) es s ∧ s.downstream.sink.written = answers.flatten ∧
      LastRound .reference sampleEnv s done ending := by
  obtain ⟨es, s, answers, done, ending, hserve, hrun, -, -, hsink, -, hlast⟩ :=
    connection_answered HeadParser.reference_laws sampleEnv sampleClient
  exact ⟨answers, es, done, s, ending, hserve, hrun, by rw [hsink]; rfl, hlast⟩

/-! ## Pipelined requests -/

variable (env)

/-- The `k`-th request is routed, its upstream takes what is written, and answers with a response whose end does not
depend on the connection's; `answer` is what is returned of it. -/
def Replied (k : ℕ) (r : PlainRequest hp) (answer : Bytes) : Prop :=
  ∃ action target upstream head,
    (env.table k).lookup r.head.host (pathOf r.head.target) = some action ∧
    action.targetGroup.select (env.ticket k) = some target ∧
    env.upstream k target.address = some upstream ∧ upstream.sink.limit = none ∧
    parseResponse hp upstream.source.bytes r.head.method = .complete head ∧
    (head.body = .empty ∨ ∃ n, head.body = .fixed n) ∧
    BodyArrives head.body (upstream.source.bytes.drop head.headLen) upstream.source.ending ∧
    answer = returnedResponse upstream.source.bytes head true

variable {env}

theorem relayResponse_of_arrives (hl : hp.Laws) {method : Bytes} {up : Source} {head : ResponseHead}
    (hparse : parseResponse hp up.bytes method = .complete head) (hbody : head.body = .empty ∨ ∃ n, head.body = .fixed n)
    (harrives : BodyArrives head.body (up.bytes.drop head.headLen) up.ending) {down : Sink} (hlim : down.limit = none) :
    ∃ up' reusable, relayResponse hp up down method true =
      .done (up', extend down (returnedResponse up.bytes head true), ⟨reusable, true⟩) := by
  rcases hbody with hempty | ⟨n, hfixed⟩
  · obtain ⟨src, buf, filled, hread, -⟩ := readResponseHead_of_stream hl fits_start
      (show parseResponse hp ((Buf.withCapacity IO_BUF_INITIAL).data.take 0 ++ up.bytes) method = .complete head from
        hparse)
    obtain ⟨hparse', -, -, more, hmore, htake⟩ := readResponseHead_spec fits_start hread
    obtain rfl : buf.data.take filled = more := htake
    have hhead : writeReturnHead (buf.data.take filled) head true = writeReturnHead up.bytes head true := by
      refine writeReturnHead_congr ?_ true
      rw [hmore, List.take_append_of_le_length (parseResponse_append hl hparse' src.bytes).2]
    have hopen : (BodyLength.empty != .untilClose) = true := rfl
    refine ⟨src, !head.closeRequested, ?_⟩
    simp only [relayResponse, hread, hempty, hopen, Bool.and_true, hhead, writeAll_of_unlimited hlim, relayResponseBody,
      Outcome.bind, returnedResponse, bodyOf, List.append_nil]
  · obtain ⟨hdone, hreturns, -⟩ := relayResponse_spec hl hparse (Or.inl ⟨n, hfixed⟩) down true
    obtain ⟨up', ⟨reusable, open'⟩, hresp⟩ := hreturns harrives hlim
    have hkeeps : returnKeeps head true = true := by rw [returnKeeps, hfixed]; rfl
    obtain ⟨-, -, hopen⟩ := hdone _ _ _ hresp
    rw [hkeeps] at hresp hopen
    simp only at hopen
    exact ⟨up', reusable, hopen ▸ hresp⟩

/-- The run: what is left of the requests is answered. -/
theorem exists_answered (hl : hp.Laws) {rs : List (PlainRequest hp)} {answers : List Bytes} {s : ConnState}
    {rest : Bytes} (hfit : s.buf.Fits s.filled) (hunread : s.unread = streamOf rs ++ rest)
    (hmax : s.served + rs.length < MAX_REQUESTS_PER_CONNECTION) (hlim : s.downstream.sink.limit = none)
    (hreplied : List.Forall₂ (fun x answer => Replied env x.2 x.1 answer) (rs.zipIdx s.served) answers) :
    ∃ es s', Continues env hp s es s' ∧ es.length = rs.length ∧
      (∀ i r, rs[i]? = some r → ∃ e, es[i]? = some e ∧
        Forwards env (s.served + i) r (streamOf (rs.drop (i + 1)) ++ rest) e) ∧
      s'.unread = rest ∧ s'.downstream.sink = extend s.downstream.sink answers.flatten := by
  induction rs generalizing s answers with
  | nil =>
    cases hreplied
    exact ⟨[], s, .nil s, rfl, by simp, by simpa [streamOf] using hunread, by simp [extend]⟩
  | cons r rs ih =>
    rw [List.zipIdx_cons] at hreplied
    obtain ⟨answer, answers, hone, hall, rfl⟩ := List.forall₂_cons_left_iff.mp hreplied
    obtain ⟨action, target, upstream, head, hlookup, hselect, hup, huplim, hparse, hbody, harrives, rfl⟩ := hone
    obtain ⟨upSrc, reusable, hresp⟩ := relayResponse_of_arrives hl hparse hbody harrives hlim
    have hstream : s.unread = r.bytes ++ (r.body ++ (streamOf rs ++ rest)) := by
      rw [hunread, streamOf, List.flatMap_cons, List.append_assoc, List.append_assoc]
      rfl
    rw [List.length_cons] at hmax
    obtain ⟨e, s', hround, hforwards, hfit', hrest, hserved, hsink⟩ :=
      serveRound_of_relay env hl r hfit hstream (by omega) hlookup hselect hup huplim hresp
    obtain ⟨es, s'', hrun, hlen, hes, hleft, hwritten⟩ :=
      ih hfit' hrest (by omega) (by rw [hsink]; exact hlim) (hserved ▸ hall)
    refine ⟨e :: es, s'', .cons hround hrun, by simp [hlen], fun i r' hi => ?_, hleft, ?_⟩
    · cases i with
      | zero =>
        obtain rfl := Option.some.inj hi
        exact ⟨e, rfl, hforwards⟩
      | succ i =>
        obtain ⟨e', he', hforw⟩ := hes i r' hi
        exact ⟨e', he', by rwa [hserved, Nat.add_assoc, Nat.add_comm 1] at hforw⟩
    · rw [hwritten, hsink, extend_extend, List.flatten_cons]

/-- **Pipelined requests are all answered, in order.**  Fewer requests than a connection may serve, back to back in any
cut, each answered by its upstream with a response whose body is empty or of known length: the connection forwards each
with exactly its own body and a head that is read as the request if its framing is kept, has written exactly their
returned responses to the client, one behind the other, and goes on with the first byte behind the last request. -/
theorem pipelined_answered (hl : hp.Laws) (rs : List (PlainRequest hp)) (answers : List Bytes) (rest : Bytes)
    (hmax : rs.length < MAX_REQUESTS_PER_CONNECTION) (downstream : Conn) (hlim : downstream.sink.limit = none)
    (hbytes : downstream.source.bytes = streamOf rs ++ rest)
    (hreplied : List.Forall₂ (fun x answer => Replied env x.2 x.1 answer) rs.zipIdx answers) :
    ∃ es s, Continues env hp (.start downstream) es s ∧ es.length = rs.length ∧
      es <+: (serveConnection hp env downstream).1 ∧
      (∀ i r, rs[i]? = some r → ∃ e, es[i]? = some e ∧
        Forwards env i r (streamOf (rs.drop (i + 1)) ++ rest) e ∧ ReadUpstream env i r e) ∧
      s.unread = rest ∧ s.downstream.sink = extend downstream.sink answers.flatten := by
  obtain ⟨es, s, hrun, hlen, hes, hleft, hsink⟩ :=
    exists_answered hl (s := .start downstream) ⟨Nat.zero_le _, Nat.zero_le _⟩ hbytes
      (by rw [show (ConnState.start downstream).served = 0 from rfl]; omega) hlim hreplied
  refine ⟨es, s, hrun, hlen, ?_, fun i r hi => ?_, hleft, hsink⟩
  · obtain ⟨fuel, hfuel⟩ : ∃ fuel, MAX_REQUESTS_PER_CONNECTION = es.length + fuel :=
      ⟨MAX_REQUESTS_PER_CONNECTION - es.length, by omega⟩
    rw [serveConnection, hfuel, hrun.serveLoop_eq]
    exact List.prefix_append _ _
  · obtain ⟨e, he, hforwards⟩ := hes i r hi
    rw [show (ConnState.start downstream).served + i = i from Nat.zero_add i] at hforwards
    exact ⟨e, he, hforwards, hforwards.readUpstream hl⟩

end Run

theorem pipelined_answered_sample :
    ∃ es s, Continues sampleEnv .reference (.start sampleClient) es s ∧ es.length = 2 ∧ s.unread = [] ∧
      s.downstream.sink.written = sampleAnswer ++ sampleAnswer := by
  have hreplied : List.Forall₂ (fun x answer => Replied sampleEnv x.2 x.1 answer) [(sampleGet, 0), (samplePost, 1)]
      [sampleAnswer, sampleAnswer] := by
    refine .cons ?_ (.cons ?_ .nil)
    · exact ⟨RouteTableBuilder.actionOf 0 sampleSpecAll, ⟨ascii "10.0.0.1:80", 1⟩, _, ⟨27, 204, .empty, false⟩,
        by decide +kernel, by decide +kernel, rfl, rfl, by decide +kernel, .inl rfl, by decide, by decide +kernel⟩
    · exact ⟨RouteTableBuilder.actionOf 0 sampleSpecAll, ⟨ascii "10.0.0.1:80", 1⟩, _, ⟨27, 204, .empty, false⟩,
        by decide +kernel, by decide +kernel, rfl, rfl, by decide +kernel, .inl rfl, by decide, by decide +kernel⟩
  obtain ⟨es, s, hrun, hlen, -, -, hrest, hsink⟩ := pipelined_answered HeadParser.reference_laws [sampleGet, samplePost]
    [sampleAnswer, sampleAnswer] [] (by decide +kernel) sampleClient rfl (by decide +kernel) hreplied
  exact ⟨es, s, hrun, hlen, hrest, by rw [hsink]; decide +kernel⟩

end LbProxy.Monoio
