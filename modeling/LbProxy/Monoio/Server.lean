import LbProxy.Lib.Stream
import LbProxy.Core.RouteTable
import LbProxy.Monoio.Http1

/-!
# The Monoio data plane (`server.rs`)

One downstream connection: reading request heads, routing, forwarding, and relaying bodies in both
directions.  The environment supplies what other tasks share: the table loaded for each request, the
ticket of its selection, and the upstream connection that `acquire_upstream` returns.
-/

namespace LbProxy.Monoio

open Lib LbProxy.Core

def IO_BUF_SIZE : ℕ := 32 * 1024

def IO_BUF_INITIAL : ℕ := 4 * 1024

def MAX_REQUESTS_PER_CONNECTION : ℕ := 100000

/-! ## Relaying bodies -/

/-- The buffer of a relay has at least `IO_BUF_SIZE` bytes. -/
def relayBuf (buf : Buf) : Buf := if buf.data.length < IO_BUF_SIZE then buf.resize IO_BUF_SIZE else buf

/-- The loop of `relay_exact`. -/
def relayExactLoop (src : Source) (dst : Sink) (buf : Buf) (remaining : ℕ) : Outcome (Source × Sink × Buf) :=
  if _hrem : remaining = 0 then .done (src, dst, buf)
  else
    let want := min remaining buf.data.length
    match src.readInto buf 0 want with
    | (.data bytes _hne, buf', src') =>
      match dst.writeAll (buf'.data.take bytes.length) with
      | some dst' => relayExactLoop src' dst' buf' (remaining - bytes.length)
      | none => .failed
    | (.zero, _, _) => .failed
    | (.failed, _, _) => .failed
    | (.pending, _, _) => .blocked
termination_by remaining
decreasing_by
  have := List.length_pos_iff.mpr _hne
  omega

/-- Relay exactly `remaining` bytes. -/
def relayExact (src : Source) (dst : Sink) (buf : Buf) (remaining : ℕ) : Outcome (Source × Sink × Buf) :=
  relayExactLoop src dst (relayBuf buf) remaining

/-- The terminator that `relay_chunked` looks for. -/
def terminator : Bytes := ascii "0\r\n\r\n"

/-- The loop of `relay_chunked`. -/
def relayChunkedLoop (src : Source) (dst : Sink) (buf : Buf) : Outcome (Source × Sink × Buf) :=
  match _h : src.readInto buf 0 buf.cap with
  | (.data bytes _, buf', src') =>
    let sawTerminator := (findSubslice terminator (buf'.data.take bytes.length)).isSome
    match dst.writeAll (buf'.data.take bytes.length) with
    | some dst' => if sawTerminator then .done (src', dst', buf') else relayChunkedLoop src' dst' buf'
    | none => .failed
  | (.zero, buf', src') => .done (src', dst, buf')
  | (.failed, _, _) => .failed
  | (.pending, _, _) => .blocked
termination_by src.bytes.length
decreasing_by exact Source.length_lt_of_readInto _h

/-- Relay a chunked body until a read contains the terminator. -/
def relayChunked (src : Source) (dst : Sink) (buf : Buf) : Outcome (Source × Sink × Buf) :=
  relayChunkedLoop src dst (relayBuf buf)

/-- The loop of `relay_until_close`. -/
def relayUntilCloseLoop (src : Source) (dst : Sink) (buf : Buf) : Outcome (Source × Sink × Buf) :=
  match _h : src.readInto buf 0 buf.cap with
  | (.data bytes _, buf', src') =>
    match dst.writeAll (buf'.data.take bytes.length) with
    | some dst' => relayUntilCloseLoop src' dst' buf'
    | none => .failed
  | (.zero, buf', src') => .done (src', dst, buf')
  | (.failed, _, _) => .failed
  | (.pending, _, _) => .blocked
termination_by src.bytes.length
decreasing_by exact Source.length_lt_of_readInto _h

/-- Relay until the source closes. -/
def relayUntilClose (src : Source) (dst : Sink) (buf : Buf) : Outcome (Source × Sink × Buf) :=
  relayUntilCloseLoop src dst (relayBuf buf)

/-- Ensure room for another read past `filled`. -/
def growForRead (buf : Buf) (filled : ℕ) : Buf :=
  let headroom := buf.data.length - filled
  if headroom ≥ IO_BUF_INITIAL then buf
  else if buf.data.length < IO_BUF_INITIAL then buf.resize IO_BUF_INITIAL
  else
    let target := min (buf.data.length * 2) (filled + IO_BUF_SIZE)
    buf.resize (max target (filled + IO_BUF_INITIAL))

/-- Grow the buffer and read past `filled`. -/
def readMore (src : Source) (buf : Buf) (filled : ℕ) : ReadResult × Buf × Source :=
  let buf := growForRead buf filled
  src.readInto buf filled buf.cap

/-- How many of the bytes after the head belonged to the body. -/
def bodyPrefixLen (head : RequestHead) (available : ℕ) : ℕ :=
  match head.body with
  | .empty => 0
  | .fixed n => min n available
  | _ => available

/-! ## The request -/

def H2_PREFACE : Bytes := ascii "PRI * HTTP/2.0\r\n\r\nSM\r\n\r\n"

/-- Whether the bytes are, or could still become, the HTTP/2 preface. -/
def detectH2 (buf : Bytes) : Option Bool :=
  let n := min buf.length H2_PREFACE.length
  if buf.take n ≠ H2_PREFACE.take n then some false
  else if buf.length ≥ H2_PREFACE.length then some true
  else none

/-- How the reading of a request head ends. -/
inductive HeadOutcome where
  | head (h : RequestHead) (src : Source) (buf : Buf) (filled : ℕ)
  /-- The connection is handed to HTTP/2 with the buffered bytes. -/
  | upgrade (buffered : Bytes) (src : Source)
  /-- An error response is written and the connection ends. -/
  | reply (response : Bytes)
  /-- The client closed. -/
  | closed
  | failed
  | blocked

section Serve

variable (hp : HeadParser)

/-- What the buffered bytes say before another read. -/
inductive HeadCheck where
  | head (h : RequestHead)
  | upgrade
  | reply (response : Bytes)
  | readMore
  deriving DecidableEq, Repr

/-- The checks of the head loop on the buffered bytes. -/
def checkHead (served : ℕ) (buffered : Bytes) : HeadCheck :=
  if buffered.length = 0 then .readMore
  else
    let h2 := if served = 0 then detectH2 buffered else some false
    match h2 with
    | some true => .upgrade
    | none => .readMore
    | some false =>
      match parseRequest hp buffered with
      | .complete head => .head head
      | .invalid _ => .reply (errorResponse 400 (ascii "Bad Request"))
      | .needMore =>
        if buffered.length ≥ MAX_HEAD_SIZE then
          .reply (errorResponse 431 (ascii "Request Header Fields Too Large"))
        else .readMore

/-- Read a complete request head. -/
def readHead (served : ℕ) (src : Source) (buf : Buf) (filled : ℕ) : HeadOutcome :=
  match checkHead hp served (buf.data.take filled) with
  | .head h => .head h src buf filled
  | .upgrade => .upgrade (buf.data.take filled) src
  | .reply response => .reply response
  | .readMore =>
    match _h : readMore src buf filled with
    | (.data bytes _, buf', src') => readHead served src' buf' (filled + bytes.length)
    | (.zero, _, _) => .closed
    | (.failed, _, _) => .failed
    | (.pending, _, _) => .blocked
termination_by src.bytes.length
decreasing_by exact Source.length_lt_of_readInto _h

/-- Relay the request body: the streams and the buffer afterwards, and the bytes of the buffer that were
not taken. -/
def relayRequestBody (src : Source) (dst : Sink) (buf : Buf) (head : RequestHead) (filled : ℕ) :
    Outcome (Source × Sink × Buf × ℕ) :=
  let consumed := head.headLen
  let leftover := filled - consumed
  match head.body with
  | .empty => .done (src, dst, buf, leftover)
  | .fixed len =>
    let already := min leftover len
    (if already > 0 then Outcome.ofOption (dst.writeAll ((buf.data.drop consumed).take already))
      else .done dst).bind fun dst =>
    let leftover := leftover - already
    let remaining := len - already
    if remaining > 0 then
      (relayExact src dst buf remaining).bind fun (src, dst, buf) => .done (src, dst, buf, 0)
    else .done (src, dst, buf, leftover)
  | .chunked =>
    (if leftover > 0 then Outcome.ofOption (dst.writeAll ((buf.data.drop consumed).take leftover))
      else .done dst).bind fun dst =>
    (relayChunked src dst buf).bind fun (src, dst, buf) => .done (src, dst, buf, 0)
  | .untilClose => .done (src, dst, buf, leftover)

/-- Move what belongs to the next request to the front of the buffer. -/
def keepPipelined (buf : Buf) (head : RequestHead) (filled leftover : ℕ) : Buf × ℕ :=
  let consumed := head.headLen
  if leftover > 0 then
    (buf.copyToFront (consumed + (filled - consumed - leftover)) filled, leftover)
  else
    let pipelinedStart := consumed + bodyPrefixLen head (filled - consumed)
    if pipelinedStart < filled then (buf.copyToFront pipelinedStart filled, filled - pipelinedStart)
    else (buf, 0)

/-! ## The response -/

structure RelayOutcome where
  upstreamReusable : Bool
  downstreamReusable : Bool
  deriving DecidableEq, Repr

/-- How the reading of a response head ends. -/
inductive ResponseOutcome where
  | head (h : ResponseHead) (src : Source) (buf : Buf) (filled : ℕ)
  /-- The head is malformed. -/
  | invalid (src : Source)
  /-- The upstream closed before a complete head. -/
  | closed (src : Source)
  | failed
  | blocked

/-- Read a complete response head. -/
def readResponseHead (method : Bytes) (src : Source) (buf : Buf) (filled : ℕ) : ResponseOutcome :=
  let parsed := if filled > 0 then parseResponse hp (buf.data.take filled) method else .needMore
  match parsed with
  | .complete h => .head h src buf filled
  | .invalid _ => .invalid src
  | .needMore =>
    match _h : readMore src buf filled with
    | (.data bytes _, buf', src') => readResponseHead method src' buf' (filled + bytes.length)
    | (.zero, _, src') => .closed src'
    | (.failed, _, _) => .failed
    | (.pending, _, _) => .blocked
termination_by src.bytes.length
decreasing_by exact Source.length_lt_of_readInto _h

/-- Relay the response body behind the head. -/
def relayResponseBody (src : Source) (dst : Sink) (buf : Buf) (head : ResponseHead) (filled : ℕ) :
    Outcome (Source × Sink) :=
  let bodyStart := head.headLen
  let bufferedBody := filled - bodyStart
  match head.body with
  | .empty => .done (src, dst)
  | .fixed len =>
    let already := min bufferedBody len
    (if already > 0 then Outcome.ofOption (dst.writeAll ((buf.data.drop bodyStart).take already))
      else .done dst).bind fun dst =>
    let remaining := len - already
    if remaining > 0 then (relayExact src dst buf remaining).bind fun (src, dst, _) => .done (src, dst)
    else .done (src, dst)
  | .chunked =>
    (if bufferedBody > 0 then Outcome.ofOption (dst.writeAll ((buf.data.take filled).drop bodyStart))
      else .done dst).bind fun dst =>
    (relayChunked src dst buf).bind fun (src, dst, _) => .done (src, dst)
  | .untilClose =>
    (if bufferedBody > 0 then Outcome.ofOption (dst.writeAll ((buf.data.take filled).drop bodyStart))
      else .done dst).bind fun dst =>
    (relayUntilClose src dst buf).bind fun (src, dst, _) => .done (src, dst)

/-- Read the response head from upstream and relay head and body downstream. -/
def relayResponse (upstream : Source) (downstream : Sink) (method : Bytes) (keepAlive : Bool) :
    Outcome (Source × Sink × RelayOutcome) :=
  match readResponseHead hp method upstream (Buf.withCapacity IO_BUF_INITIAL) 0 with
  | .invalid src =>
    -- the error response may fail to be written
    .done (src, (downstream.writeAll (errorResponse 502 (ascii "Bad Gateway"))).getD downstream, ⟨false, false⟩)
  | .closed src => .done (src, downstream, ⟨false, false⟩)
  | .failed => .failed
  | .blocked => .blocked
  | .head head src buf filled =>
    let upstreamReusable := !head.closeRequested && head.body != .untilClose
    let downstreamKeep := keepAlive && head.body != .untilClose
    match downstream.writeAll (writeReturnHead (buf.data.take filled) head downstreamKeep) with
    | none => .failed
    | some downstream =>
      (relayResponseBody src downstream buf head filled).bind fun (src, downstream) =>
        .done (src, downstream, ⟨upstreamReusable, downstreamKeep⟩)

/-! ## The connection -/

/-- What the rest of the worker supplies to the `k`-th request of a connection. -/
structure Env (m : PathRouter) where
  table : ℕ → RouteTable m
  ticket : ℕ → ℕ
  upstream : ℕ → Bytes → Option Conn
  /-- The text of the client's address. -/
  peer : PeerAddr
  forwardedHeaders : Bool

/-- A downstream connection between two requests. -/
structure ConnState where
  downstream : Conn
  buf : Buf
  filled : ℕ
  served : ℕ

/-- The bytes of the client that no request has taken yet: the next head is parsed from their start. -/
def ConnState.unread (s : ConnState) : Bytes := s.buf.data.take s.filled ++ s.downstream.source.bytes

/-- What one request did. -/
structure Exchange where
  request : RequestHead
  address : Bytes
  /-- The head written upstream. -/
  head : Bytes
  /-- What was written upstream behind the head. -/
  body : Bytes
  /-- What the next head is parsed from. -/
  unread : Bytes
  /-- The upstream connection that was put back to the pool. -/
  put : Option Conn

/-- How a connection ends. -/
inductive ServeEnd where
  | returned
  /-- An error response is written. -/
  | replied (response : Bytes)
  | failed
  | blocked
  | upgraded (buffered : Bytes) (src : Source)

/-- The result of one round of the serve loop. -/
inductive Round where
  | stop (done : List Exchange) (ending : ServeEnd)
  | next (e : Exchange) (s : ConnState)

variable {m : PathRouter} (env : Env m)

/-- The target a request is forwarded with. -/
def forwardTarget (action : RouteAction) (target : Bytes) : Bytes :=
  if action.filters.rewritesPath then
    let (path, query) := splitTarget target
    let rewritten := action.filters.applyUrlRewrite path
    match query with
    | some q => rewritten ++ ascii "?" ++ q
    | none => rewritten
  else target

/-- Forward one request and relay its response. -/
def exchange (s : ConnState) (src : Source) (buf : Buf) (filled : ℕ) (head : RequestHead) : Round :=
  let served := s.served + 1
  let sink := s.downstream.sink
  match (env.table s.served).lookup head.host (pathOf head.target) with
  | none => .stop [] (.replied (errorResponse 404 (ascii "Not Found")))
  | some action =>
    match action.targetGroup.select (env.ticket s.served) with
    | none => .stop [] .failed
    | some target =>
      let address := target.address
      let forwarded := writeForwardHead (buf.data.take filled) head (forwardTarget action head.target)
        address (if env.forwardedHeaders then some env.peer else none)
      match env.upstream s.served address with
      | none => .stop [] (.replied (errorResponse 502 (ascii "Bad Gateway")))
      | some upstream =>
        match upstream.sink.writeAll forwarded with
        | none => .stop [] .failed
        | some up =>
          match relayRequestBody src up buf head filled with
          | .failed => .stop [] .failed
          | .blocked => .stop [] .blocked
          | .done (src, up', buf, leftover) =>
            let (buf, filled) := keepPipelined buf head filled leftover
            let keepAlive := !head.closeRequested && decide (served < MAX_REQUESTS_PER_CONNECTION)
            match relayResponse hp upstream.source sink head.method keepAlive with
            | .failed => .stop [] .failed
            | .blocked => .stop [] .blocked
            | .done (upSrc, sink, outcome) =>
              let s' : ConnState := ⟨⟨src, sink⟩, buf, filled, served⟩
              let e : Exchange := ⟨head, address, forwarded, up'.written.drop up.written.length, s'.unread,
                if outcome.upstreamReusable then some ⟨upSrc, up'⟩ else none⟩
              if !keepAlive || !outcome.downstreamReusable then .stop [e] .returned else .next e s'

/-- One round of the serve loop: a head, then its exchange. -/
def serveRound (s : ConnState) : Round :=
  match readHead hp s.served s.downstream.source s.buf s.filled with
  | .head head src buf filled => exchange hp env s src buf filled head
  | .upgrade buffered src => .stop [] (.upgraded buffered src)
  | .reply response => .stop [] (.replied response)
  | .closed => .stop [] .returned
  | .failed => .stop [] .failed
  | .blocked => .stop [] .blocked

/-- The serve loop, for at most `fuel` requests. -/
def serveLoop : ℕ → ConnState → List Exchange × ServeEnd
  | 0, _ => ([], .returned)
  | fuel + 1, s =>
    match serveRound hp env s with
    | .stop done ending => (done, ending)
    | .next e s' =>
      let (rest, ending) := serveLoop fuel s'
      (e :: rest, ending)

/-- A connection that was just accepted. -/
def ConnState.start (downstream : Conn) : ConnState := ⟨downstream, Buf.withCapacity IO_BUF_INITIAL, 0, 0⟩

/-- Serve one downstream connection; the last request it can serve closes it. -/
def serveConnection (downstream : Conn) : List Exchange × ServeEnd :=
  serveLoop hp env MAX_REQUESTS_PER_CONNECTION (ConnState.start downstream)

end Serve

end LbProxy.Monoio
