import LbProxy.Lib.Head
import LbProxy.Core.Gateway
import LbProxy.Core.Proxy

/-!
# HTTP/1.1 framing of the Monoio data plane (`http1.rs`)

The parsing of request and response heads on top of a head parser, and the rewriting of heads for
forwarding and for return.  The `String` fields hold the bytes of the text.
-/

namespace LbProxy.Monoio

open Lib LbProxy.Core

/-- Maximum bytes of request head that are buffered. -/
def MAX_HEAD_SIZE : ℕ := 64 * 1024

/-- Header slots offered to the head parser. -/
def MAX_HEADERS : ℕ := 96

/-- How a message body is framed. -/
inductive BodyLength where
  | fixed (n : ℕ)
  | chunked
  | untilClose
  | empty
  deriving DecidableEq, Repr

structure RequestHead where
  headLen : ℕ
  method : Bytes
  target : Bytes
  host : Option Bytes
  body : BodyLength
  closeRequested : Bool
  targetSpan : ℕ × ℕ
  deriving DecidableEq, Repr

structure ResponseHead where
  headLen : ℕ
  status : ℕ
  body : BodyLength
  closeRequested : Bool
  deriving DecidableEq, Repr

/-- Outcome of trying to parse a head out of a partially filled buffer. -/
inductive Parsed (α : Type) where
  | complete (head : α)
  | needMore
  | invalid (reason : String)
  deriving DecidableEq, Repr

/-! ## Reading the fields of a head -/

/-- The framing fields seen so far; each one is overwritten by the next field of that name. -/
structure Framing where
  host : Option Bytes
  contentLength : Option ℕ
  chunked : Bool
  closeRequested : Bool
  deriving DecidableEq, Repr

def Framing.init (http11 : Bool) : Framing := ⟨none, none, false, !http11⟩

/-- `v.trim().parse::<u64>()` on the text of a value. -/
def contentLengthOf (value : Bytes) : Option ℕ := (validateUtf8 value).bind fun v => parseU64 (trim v)

/-- Whether the last coding that a `Transfer-Encoding` value lists is `chunked`. -/
def endsInChunked (v : Bytes) : Bool :=
  match (splitByte 44 v).getLast? with
  | some last => eqIgnoreAsciiCase (trim last) (ascii "chunked")
  | none => false

/-- What a `Transfer-Encoding` field makes of the flag. -/
def transferEncoding (chunked : Bool) (value : Bytes) : Bool :=
  match validateUtf8 value with
  | some v => endsInChunked v
  | none => chunked

/-- What one token of a `Connection` field makes of the flag. -/
def connectionToken (close : Bool) (token : Bytes) : Bool :=
  if eqIgnoreAsciiCase (trim token) (ascii "close") then true
  else if eqIgnoreAsciiCase (trim token) (ascii "keep-alive") then false
  else close

/-- What a `Connection` field makes of the flag. -/
def connectionField (close : Bool) (value : Bytes) : Bool :=
  match validateUtf8 value with
  | some v => (splitByte 44 v).foldl connectionToken close
  | none => close

/-- One field of a request head; `none` is an invalid `Content-Length`. -/
def requestField (f : Framing) (h : Bytes × Bytes) : Option Framing :=
  if eqIgnoreAsciiCase h.1 (ascii "host") then some { f with host := validateUtf8 h.2 }
  else if eqIgnoreAsciiCase h.1 (ascii "content-length") then
    (contentLengthOf h.2).map fun n => { f with contentLength := some n }
  else if eqIgnoreAsciiCase h.1 (ascii "transfer-encoding") then
    some { f with chunked := transferEncoding f.chunked h.2 }
  else if eqIgnoreAsciiCase h.1 (ascii "connection") then
    some { f with closeRequested := connectionField f.closeRequested h.2 }
  else some f

/-- One field of a response head. -/
def responseField (f : Framing) (h : Bytes × Bytes) : Framing :=
  if eqIgnoreAsciiCase h.1 (ascii "content-length") then { f with contentLength := contentLengthOf h.2 }
  else if eqIgnoreAsciiCase h.1 (ascii "transfer-encoding") then
    { f with chunked := transferEncoding f.chunked h.2 }
  else if eqIgnoreAsciiCase h.1 (ascii "connection") then
    { f with closeRequested := connectionField f.closeRequested h.2 }
  else f

/-- Transfer-Encoding wins over Content-Length. -/
def requestBody (f : Framing) : BodyLength :=
  if f.chunked then .chunked
  else match f.contentLength with
    | some 0 | none => .empty
    | some n => .fixed n

/-- The framing of a response, without a length the body runs to the end of the connection. -/
def responseBody (method : Bytes) (status : ℕ) (f : Framing) : BodyLength :=
  let bodyless := eqIgnoreAsciiCase method (ascii "HEAD") || status == 204 || status == 304 ||
    (100 ≤ status && status < 200)
  if bodyless then .empty
  else if f.chunked then .chunked
  else match f.contentLength with
    | some 0 => .empty
    | some n => .fixed n
    | none => .untilClose

section Parse

variable (hp : HeadParser)

/-- Parse a request head. -/
def parseRequest (buf : Bytes) : Parsed RequestHead :=
  match hp.request MAX_HEADERS buf with
  | .incomplete => .needMore
  | .error => .invalid "malformed request head"
  | .complete headLen req =>
    match req.method, req.path with
    | none, _ => .invalid "missing method"
    | some _, none => .invalid "missing request target"
    | some method, some target =>
      match findSubslice target buf with
      | none => .invalid "request target not found in buffer"
      | some targetStart =>
        match req.headers.foldlM requestField (Framing.init (req.version != some 0)) with
        | none => .invalid "invalid Content-Length"
        | some f => .complete
          { headLen := headLen
            method := method
            target := target
            host := f.host
            body := requestBody f
            closeRequested := f.closeRequested
            targetSpan := (targetStart, targetStart + target.length) }

/-- Parse a response head; a response to `HEAD` has no body. -/
def parseResponse (buf : Bytes) (requestMethod : Bytes) : Parsed ResponseHead :=
  match hp.response MAX_HEADERS buf with
  | .incomplete => .needMore
  | .error => .invalid "malformed response head"
  | .complete headLen resp =>
    match resp.code with
    | none => .invalid "missing status code"
    | some status =>
      let f := resp.headers.foldl responseField (Framing.init (resp.version != some 0))
      .complete ⟨headLen, status, responseBody requestMethod status f, f.closeRequested⟩

end Parse

/-! ## Rewriting heads -/

/-- Split a header block into lines, without their line ends and without empty lines. -/
def splitHeaderLines (block : Bytes) : List Bytes :=
  ((splitByte 10 block).map fun line => (stripSuffix [13] line).getD line).filter (· ≠ [])

/-- `eq_ci`: the left side is trimmed. -/
def eqCi (a b : Bytes) : Bool := eqIgnoreAsciiCase (trimAscii a) b

/-- The name of a header line and what follows its colon. -/
def splitColon (line : Bytes) : Option (Bytes × Bytes) :=
  (findByte 58 line).map fun colon => (line.take colon, line.drop (colon + 1))

/-- The names that one `Connection` line nominates. -/
def nominatedTokens (value : Bytes) : List Bytes :=
  ((splitByte 44 value).map trimAscii).filter fun token =>
    token ≠ [] && !eqCi token (ascii "close") && !eqCi token (ascii "keep-alive")

/-- Header names nominated as hop-by-hop by a `Connection` header of the block. -/
def connectionNominated (block : Bytes) : List Bytes :=
  (splitHeaderLines block).flatMap fun line =>
    match splitColon line with
    | some (name, value) =>
      if eqCi name (ascii "connection") then (nominatedTokens value).map lowercase else []
    | none => []

def HOP_BY_HOP : List Bytes :=
  [ascii "connection", ascii "keep-alive", ascii "proxy-authenticate", ascii "proxy-authorization",
    ascii "proxy-connection", ascii "te", ascii "trailer", ascii "upgrade"]

def isHopByHop (name : Bytes) : Bool := HOP_BY_HOP.any (eqCi name)

/-- Where the header block starts: behind the first CRLF of the head. -/
def headersStart (head : Bytes) : ℕ :=
  match findSubslice [13, 10] head with
  | some pos => pos + 2
  | none => head.length

/-- What one line adds to the copied lines, and to the last `X-Forwarded-For` value. -/
def forwardLine (nominated : List Bytes) (acc : Bytes × Option Bytes) (line : Bytes) : Bytes × Option Bytes :=
  match splitColon line with
  | none => acc
  | some (name, value) =>
    if isHopByHop name || eqCi name (ascii "host") || nominated.any (eqCi name) then acc
    else if eqCi name (ascii "x-forwarded-for") then (acc.1, some (trimAscii value))
    else (acc.1 ++ line ++ [13, 10], acc.2)

/-- Rewrite a request head for forwarding. -/
def writeForwardHead (original : Bytes) (head : RequestHead) (target upstreamHost : Bytes)
    (peer : Option PeerAddr) : Bytes :=
  let originalHead := original.take head.headLen
  let block := originalHead.drop (headersStart originalHead)
  let (lines, existingXff) :=
    (splitHeaderLines block).foldl (forwardLine (connectionNominated block)) ([], none)
  let forwardedFor := match peer with
    | some ip =>
      ascii "X-Forwarded-For: " ++ (match existingXff with
        | some prev => prev ++ ascii ", "
        | none => []) ++ ip.text ++ [13, 10]
    | none => []
  head.method ++ ascii " " ++ target ++ ascii " HTTP/1.1\r\n" ++ lines ++
    ascii "Host: " ++ upstreamHost ++ [13, 10] ++ forwardedFor ++
    ascii "X-Forwarded-Proto: http\r\n" ++ [13, 10]

/-- Rewrite a response head for return to the client. -/
def writeReturnHead (original : Bytes) (head : ResponseHead) (keepAlive : Bool) : Bytes :=
  let originalHead := original.take head.headLen
  let statusLineEnd := headersStart originalHead
  let block := originalHead.drop statusLineEnd
  let nominated := connectionNominated block
  let lines := (splitHeaderLines block).flatMap fun line =>
    match splitColon line with
    | none => []
    | some (name, _) => if isHopByHop name || nominated.any (eqCi name) then [] else line ++ [13, 10]
  originalHead.take statusLineEnd ++ lines ++
    (if keepAlive then ascii "Connection: keep-alive\r\n\r\n" else ascii "Connection: close\r\n\r\n")

/-- A response the proxy generates itself. -/
def errorResponse (status : ℕ) (reason : Bytes) : Bytes :=
  ascii "HTTP/1.1 " ++ displayNat status ++ ascii " " ++ reason ++
    ascii "\r\nContent-Length: 0\r\nConnection: close\r\n\r\n"

/-- The path of a request target, without the query. -/
def pathOf (target : Bytes) : Bytes :=
  match findByte 63 target with
  | some pos => target.take pos
  | none => target

/-- Split a request target into path and query. -/
def splitTarget (target : Bytes) : Bytes × Option Bytes :=
  match findByte 63 target with
  | some pos => (target.take pos, some (target.drop (pos + 1)))
  | none => (target, none)

end LbProxy.Monoio
