import LbProxy.Lib.HeadParser
import LbProxy.Monoio.Forward
import LbProxy.Monoio.Heads
import LbProxy.Monoio.Relay
import LbProxy.Monoio.Sniff

/-!
# Pipelined requests

* `PlainRequest` — a request whose head is reported and whose body is empty or of known length;
* `checkHead_of_parsed`, `checkHead_of_strictPart` — what the buffered bytes of a head say, however it is cut;
* `readHead_spec`, `relayRequestBody_spec` — one head, and one body;
* `serveRound_spec` — one request takes its own bytes from the stream and leaves the rest;
* `Forwards` — what becomes of a request, and `ReadUpstream`, what the upstream reads of its head;
* `serveConnection_pipelined` — all requests are forwarded, in order, each with its own body.
-/

namespace LbProxy.Monoio

open Lib LbProxy.Core

/-! ## Heads and the HTTP/2 preface -/

/-- No head of an HTTP/1 request starts the way HTTP/2 does. -/
theorem preface_ne_head {l : RequestLayout} (hwf : l.WF) (t rest : Bytes) :
    H2_PREFACE ++ t ≠ l.render ++ rest := by
  intro h
  have hblanks : l.blanks = [] := by
    cases hb : l.blanks with
    | nil => rfl
    | cons e es =>
      rw [RequestLayout.render, hb] at h
      cases e <;> exact absurd (List.cons.inj h).1 (by decide)
  have hpref : H2_PREFACE ++ t = ascii "PRI" ++ 32 :: (ascii "*" ++ 32 :: (ascii "HTTP/2.0\r\n\r\nSM\r\n\r\n" ++ t)) := rfl
  have hrend : l.render ++ rest = l.method ++ 32 :: (l.target ++ 32 ::
      (versionBytes l.minor ++ (l.eol.bytes ++ (renderFields l.fields ++ l.last.bytes) ++ rest))) := by
    simp [RequestLayout.render, RequestLayout.line, hblanks, renderEols]
  rw [hpref, hrend] at h
  obtain ⟨-, h⟩ := append_sep_inj (by decide) hwf.space_not_mem_method h
  obtain ⟨-, h⟩ := append_sep_inj (by decide) hwf.space_not_mem_target h
  -- the versions differ
  have := congrArg (·.take 6) h
  simp [versionBytes, ascii] at this

theorem detectH2_of_head {l : RequestLayout} (hwf : l.WF) (rest : Bytes) :
    detectH2 (l.render ++ rest) = some false := by
  have hpre : ¬ H2_PREFACE <+: l.render ++ rest := by
    rintro ⟨u, hu⟩
    exact preface_ne_head hwf u rest hu
  have hpart : ¬ l.render ++ rest <+: H2_PREFACE := by
    rintro ⟨u, hu⟩
    exact preface_ne_head hwf [] (rest ++ u) (by rw [List.append_nil, ← hu, List.append_assoc])
  rw [detectH2_eq, if_neg hpre, if_neg hpart]

theorem detectH2_of_part {l : RequestLayout} (hwf : l.WF) {q : Bytes} (hq : q <+: l.render) :
    detectH2 q ≠ some true := by
  rw [ne_eq, detectH2_eq_true_iff]
  intro hpre
  obtain ⟨u, hu⟩ := hpre.trans hq
  exact preface_ne_head hwf u [] (by rw [hu, List.append_nil])

/-! ## The checks on a head -/

section Check

variable {hp : HeadParser}

theorem length_render_pos {l : RequestLayout} (hwf : l.WF) : 0 < l.render.length := by
  obtain ⟨b, m, hm⟩ := List.exists_cons_of_ne_nil hwf.method_ne
  rw [RequestLayout.render, RequestLayout.line, hm]
  simp only [List.length_append, List.length_cons]
  omega

theorem checkHead_of_parsed {l : RequestLayout} (hwf : l.WF) (served : ℕ) {extra : Bytes} {head : RequestHead}
    (h : parseRequest hp (l.render ++ extra) = .complete head) :
    checkHead hp served (l.render ++ extra) = .head head := by
  have hh2 : (if served = 0 then detectH2 (l.render ++ extra) else some false) = some false := by
    split
    · exact detectH2_of_head hwf extra
    · rfl
  have hne : (l.render ++ extra).length ≠ 0 := by
    have := length_render_pos hwf
    rw [List.length_append]
    omega
  simp only [checkHead, if_neg hne, hh2, h]

theorem checkHead_of_strictPart (hl : hp.Laws) {l : RequestLayout} (hwf : l.WF) (hlen : l.fields.length ≤ MAX_HEADERS)
    (served : ℕ) {q : Bytes} (hq : q <+: l.render) (hne : q ≠ l.render) :
    checkHead hp served q = if MAX_HEAD_SIZE ≤ q.length then
      .reply (errorResponse 431 (ascii "Request Header Fields Too Large")) else .readMore := by
  have hneed : parseRequest hp q = .needMore := by
    simp only [parseRequest, hl.request_incomplete hwf hlen hq hne]
  have hmax : MAX_HEAD_SIZE = 65536 := rfl
  unfold checkHead
  split
  · rw [if_neg (by omega)]
  · simp only
    split
    · rename_i h
      split at h
      · exact absurd h (detectH2_of_part hwf hq)
      · cases h
    · rename_i h
      split at h
      · -- a part of the preface is short
        have hpre := ((detectH2_eq_none_iff q).mp h).1.length_le
        have hlen24 : H2_PREFACE.length = 24 := by decide
        rw [if_neg (by omega)]
      · cases h
    · simp only [hneed, ge_iff_le]

end Check

/-! ## Plain requests -/

/-- A request with an empty body or one of known length, that keeps the connection open. -/
structure PlainRequest (hp : HeadParser) where
  /-- The bytes of its head. -/
  bytes : Bytes
  body : Bytes
  head : RequestHead
  parsed : parseRequest hp bytes = .complete head
  /-- Nothing stands behind the head. -/
  headLen_eq : head.headLen = bytes.length
  length_lt : bytes.length < MAX_HEAD_SIZE
  framed : (head.body = .empty ∧ body = []) ∨ head.body = .fixed body.length
  persistent : head.closeRequested = false

/-- The bytes of requests that are sent back to back. -/
def streamOf {hp : HeadParser} (rs : List (PlainRequest hp)) : Bytes := rs.flatMap fun r => r.bytes ++ r.body

section Pipeline

variable {hp : HeadParser} (hl : hp.Laws)
include hl

theorem PlainRequest.layout (r : PlainRequest hp) :
    ∃ l : RequestLayout, l.WF ∧ l.fields.length ≤ MAX_HEADERS ∧ r.bytes = l.render := by
  obtain ⟨l, rest, f, pos, hwf, hlen, hbytes, -, -, hhead⟩ := parseRequest_complete hl r.parsed
  have hrest : rest = [] := by
    have h := r.headLen_eq
    rw [hbytes, hhead, headOf, List.length_append] at h
    exact List.eq_nil_of_length_eq_zero (by simp only at h; omega)
  exact ⟨l, hwf, hlen, by rw [hbytes, hrest, List.append_nil]⟩

theorem checkHead_of_part (r : PlainRequest hp) (served : ℕ) {q : Bytes} (hq : q <+: r.bytes)
    (hne : q ≠ r.bytes) : checkHead hp served q = .readMore := by
  obtain ⟨l, hwf, hlen, hbytes⟩ := r.layout hl
  have hlt := r.length_lt
  have hle := hq.length_le
  rw [hbytes] at hq hne
  rw [checkHead_of_strictPart hl hwf hlen served hq hne, if_neg (by omega)]

theorem checkHead_of_head (r : PlainRequest hp) (served : ℕ) (extra : Bytes) :
    checkHead hp served (r.bytes ++ extra) = .head r.head := by
  obtain ⟨l, hwf, -, hbytes⟩ := r.layout hl
  have hparse := (parseRequest_append hl r.parsed extra).1
  rw [hbytes] at hparse ⊢
  exact checkHead_of_parsed hwf served hparse

/-- While a stream that starts with the request is read, the head is found or there is more to read. -/
theorem checkHead_of_stream (r : PlainRequest hp) (served : ℕ) {q t rest : Bytes} (h : q ++ t = r.bytes ++ rest) :
    (checkHead hp served q = .head r.head ∧ r.bytes.length ≤ q.length) ∨
      (checkHead hp served q = .readMore ∧ t ≠ []) := by
  have hq : q <+: r.bytes ++ rest := h ▸ List.prefix_append q t
  rcases le_or_gt r.bytes.length q.length with hle | hlt
  · obtain ⟨extra, rfl⟩ := List.prefix_of_prefix_length_le (List.prefix_append r.bytes rest) hq hle
    exact Or.inl ⟨checkHead_of_head hl r served extra, hle⟩
  · have hpart : q <+: r.bytes := List.prefix_of_prefix_length_le hq (List.prefix_append r.bytes rest) hlt.le
    have hne : q ≠ r.bytes := fun heq => absurd (congrArg List.length heq) hlt.ne
    refine Or.inr ⟨checkHead_of_part hl r served hpart hne, ?_⟩
    rintro rfl
    have := congrArg List.length h
    rw [List.append_nil, List.length_append] at this
    omega

/-- **The head loop stops as soon as the head is there, and loses nothing.** -/
theorem readHead_spec (r : PlainRequest hp) (served : ℕ) {src : Source} {buf : Buf} {filled : ℕ}
    (hfit : buf.Fits filled) {rest : Bytes} (h : buf.data.take filled ++ src.bytes = r.bytes ++ rest) :
    ∃ src' buf' filled', readHead hp served src buf filled = .head r.head src' buf' filled' ∧
      buf'.Fits filled' ∧ buf'.data.take filled' ++ src'.bytes = r.bytes ++ rest ∧ r.bytes.length ≤ filled' := by
  have hmore : ∀ q t, q ++ t = r.bytes ++ rest → checkHead hp served q = .readMore → t ≠ [] := by
    intro q t hq hcheck
    rcases checkHead_of_stream hl r served hq with ⟨hhead, -⟩ | ⟨-, ht⟩
    · rw [hcheck] at hhead
      cases hhead
    · exact ht
  obtain ⟨src', buf', filled', hsame, hfit', hstream, hdecided⟩ := readHead_decides hmore hfit h
  obtain ⟨hhead, hle⟩ := (checkHead_of_stream hl r served hstream).resolve_right fun hno => hdecided hno.1
  rw [List.length_take, min_eq_left hfit'.filled_le] at hle
  exact ⟨src', buf', filled', by rw [hsame, readHead_step, hhead], hfit', hstream, hle⟩

end Pipeline

/-! ## The body of a plain request -/

theorem take_copyToFront {buf : Buf} {start filled : ℕ} (hfit : buf.Fits filled) (hle : start ≤ filled) :
    (buf.copyToFront start filled).data.take (filled - start) = (buf.data.take filled).drop start ∧
      (buf.copyToFront start filled).Fits (filled - start) := by
  have hf := hfit.filled_le
  have hlen : ((buf.data.take filled).drop start).length = filled - start := by
    rw [List.length_drop, List.length_take, min_eq_left hf]
  refine ⟨?_, ?_, ?_⟩
  · show ((buf.data.take filled).drop start ++ _).take (filled - start) = _
    rw [List.take_append_of_le_length hlen.ge, List.take_of_length_le hlen.le]
  · show filled - start ≤ ((buf.data.take filled).drop start ++ _).length
    rw [List.length_append, hlen]
    omega
  · show ((buf.data.take filled).drop start ++ buf.data.drop (filled - start)).length ≤ buf.cap
    have := hfit.length_le
    rw [List.length_append, hlen, List.length_drop]
    omega

theorem keepPipelined_none {buf : Buf} {head : RequestHead} {filled : ℕ} (hle : head.headLen ≤ filled)
    (hcut : bodyPrefixLen head (filled - head.headLen) = filled - head.headLen) :
    keepPipelined buf head filled 0 = (buf, 0) := by
  have hstart : ¬ head.headLen + (filled - head.headLen) < filled := by omega
  simp only [keepPipelined, gt_iff_lt, lt_irrefl, if_false, hcut, if_neg hstart]

theorem keepPipelined_rest {buf : Buf} {head : RequestHead} {start filled : ℕ} (hfit : buf.Fits filled)
    (hhead : head.headLen ≤ start) (hle : start ≤ filled)
    (hcut : bodyPrefixLen head (filled - head.headLen) = start - head.headLen) :
    ∃ buf' filled', keepPipelined buf head filled (filled - start) = (buf', filled') ∧ buf'.Fits filled' ∧
      buf'.data.take filled' = (buf.data.take filled).drop start := by
  rcases Nat.lt_or_ge start filled with hlt | hge
  · have hpos : filled - start > 0 := by omega
    have hfrom : head.headLen + (filled - head.headLen - (filled - start)) = start := by omega
    obtain ⟨htake, hfit'⟩ := take_copyToFront hfit hle
    refine ⟨buf.copyToFront start filled, filled - start, ?_, hfit', htake⟩
    simp only [keepPipelined, if_pos hpos, hfrom]
  · have heq : filled = start := by omega
    refine ⟨buf, 0, ?_, ⟨Nat.zero_le _, hfit.length_le⟩, ?_⟩
    · rw [heq, Nat.sub_self]
      exact keepPipelined_none hhead (heq ▸ hcut)
    · rw [List.take_zero, List.drop_eq_nil_of_le]
      rw [List.length_take, heq]
      exact min_le_left _ _

section Body

variable {hp : HeadParser} (r : PlainRequest hp)

theorem relayRequestBody_buffered {src : Source} {dst : Sink} {buf : Buf} {filled : ℕ} (hlim : dst.limit = none)
    {extra : Bytes} (hbuf : buf.data.take filled = r.bytes ++ (r.body ++ extra)) (hfit : buf.Fits filled) :
    relayRequestBody src dst buf r.head filled =
      .done (src, extend dst r.body, buf, filled - (r.bytes.length + r.body.length)) := by
  have hlen : filled = r.bytes.length + (r.body.length + extra.length) := by
    have := congrArg List.length hbuf
    rwa [List.length_take, min_eq_left hfit.filled_le, List.length_append, List.length_append] at this
  have hmin : min (filled - r.bytes.length) r.body.length = r.body.length := by omega
  have hbody : (buf.data.drop r.bytes.length).take r.body.length = r.body := by
    have h1 : (buf.data.take filled).drop r.bytes.length = r.body ++ extra := by
      rw [hbuf, List.drop_left]
    rw [List.drop_take] at h1
    have h2 : ((buf.data.drop r.bytes.length).take (filled - r.bytes.length)).take r.body.length = r.body := by
      rw [h1, List.take_left]
    rwa [List.take_take, min_eq_left (by omega)] at h2
  unfold relayRequestBody
  simp only [r.headLen_eq]
  rcases r.framed with ⟨hempty, hnil⟩ | hfixed
  · simp only [hempty, hnil, extend, List.append_nil, List.length_nil, Nat.add_zero]
  · simp only [hfixed, hmin, hbody, ofOption_writeAll hlim rfl, Outcome.bind, Nat.sub_self, gt_iff_lt, lt_irrefl,
      if_false, Nat.sub_sub]

theorem relayRequestBody_missing {src : Source} {dst : Sink} {buf : Buf} {filled : ℕ} (hlim : dst.limit = none)
    {part left rest : Bytes} (hbody : r.body = part ++ left) (hne : left ≠ [])
    (hbuf : buf.data.take filled = r.bytes ++ part) (hsrc : src.bytes = left ++ rest) (hfit : buf.Fits filled) :
    ∃ src' buf', relayRequestBody src dst buf r.head filled = .done (src', extend dst r.body, buf', 0) ∧
      src'.bytes = rest ∧ buf'.data.length ≤ buf'.cap := by
  have hlen : filled = r.bytes.length + part.length := by
    have := congrArg List.length hbuf
    rwa [List.length_take, min_eq_left hfit.filled_le, List.length_append] at this
  have hpos := List.length_pos_iff.mpr hne
  have hblen : r.body.length = part.length + left.length := by rw [hbody, List.length_append]
  have hpart : (buf.data.drop r.bytes.length).take part.length = part := by
    have h1 : (buf.data.take filled).drop r.bytes.length = part := by rw [hbuf, List.drop_left]
    rwa [List.drop_take, show filled - r.bytes.length = part.length by omega] at h1
  have hfixed : r.head.body = .fixed r.body.length := by
    rcases r.framed with ⟨-, hnil⟩ | hfixed
    · rw [hnil] at hblen
      simp only [List.length_nil] at hblen
      omega
    · exact hfixed
  have hlim' : (extend dst part).limit = none := hlim
  have henough : left.length ≤ src.bytes.length := by
    rw [hsrc, List.length_append]
    omega
  obtain ⟨src', dst', buf', hrelay, hfit', -⟩ := relayExact_of_enough hfit.length_le hlim' henough
  obtain ⟨bs, hbs, hb, rfl, -⟩ := relayExact_done hrelay
  rw [hsrc] at hb
  obtain ⟨rfl, hrest⟩ := List.append_inj hb hbs.symm
  refine ⟨src', buf', ?_, hrest.symm, hfit'⟩
  have hmin : min (filled - r.bytes.length) r.body.length = part.length := by omega
  have hrem : r.body.length - part.length = left.length := by omega
  unfold relayRequestBody
  simp only [r.headLen_eq, hfixed, hmin, hpart, ofOption_writeAll hlim rfl, Outcome.bind, hrem, gt_iff_lt, hpos,
    if_true, hrelay, extend_extend, ← hbody]

/-- **One body takes its own bytes, and the buffer keeps what follows.** -/
theorem relayRequestBody_spec {src : Source} {dst : Sink} {buf : Buf} {filled : ℕ} (hlim : dst.limit = none)
    {rest : Bytes} (hfit : buf.Fits filled) (h : buf.data.take filled ++ src.bytes = r.bytes ++ (r.body ++ rest))
    (hle : r.bytes.length ≤ filled) :
    ∃ src' buf₁ leftover buf' filled',
      relayRequestBody src dst buf r.head filled = .done (src', extend dst r.body, buf₁, leftover) ∧
      keepPipelined buf₁ r.head filled leftover = (buf', filled') ∧ buf'.Fits filled' ∧
      buf'.data.take filled' ++ src'.bytes = rest := by
  have hlen : (buf.data.take filled).length = filled := by rw [List.length_take, min_eq_left hfit.filled_le]
  obtain ⟨buffered, hbuf⟩ : r.bytes <+: buf.data.take filled :=
    List.prefix_of_prefix_length_le (List.prefix_append _ _) (h ▸ List.prefix_append _ _) (by omega)
  have hcount : filled = r.bytes.length + buffered.length := by rw [← hlen, ← hbuf, List.length_append]
  rw [← hbuf, List.append_assoc] at h
  have hsplit : buffered ++ src.bytes = r.body ++ rest := List.append_cancel_left h
  have hcut : bodyPrefixLen r.head (filled - r.head.headLen) = min r.body.length buffered.length := by
    rw [r.headLen_eq, show filled - r.bytes.length = buffered.length by omega]
    rcases r.framed with ⟨hempty, hnil⟩ | hfixed
    · simp only [bodyPrefixLen, hempty, hnil, List.length_nil, Nat.zero_min]
    · simp only [bodyPrefixLen, hfixed]
  rcases le_or_gt r.body.length buffered.length with hall | hpart
  · -- the body is buffered
    obtain ⟨extra, rfl⟩ : r.body <+: buffered :=
      List.prefix_of_prefix_length_le (List.prefix_append _ rest) (hsplit ▸ List.prefix_append _ _) hall
    rw [List.append_assoc] at hsplit
    have hextra : extra ++ src.bytes = rest := List.append_cancel_left hsplit
    have hstart : r.bytes.length + r.body.length ≤ filled := by
      rw [List.length_append] at hcount
      omega
    obtain ⟨buf', filled', hkeep, hfit', htake⟩ := keepPipelined_rest hfit
      (show r.head.headLen ≤ r.bytes.length + r.body.length by rw [r.headLen_eq]; omega) hstart
      (by rw [hcut, min_eq_left hall, r.headLen_eq]; omega)
    refine ⟨src, buf, _, buf', filled', relayRequestBody_buffered r hlim hbuf.symm hfit, hkeep, hfit', ?_⟩
    rw [htake, ← hbuf, ← List.append_assoc, ← List.length_append, List.drop_left, hextra]
  · -- the rest of the body is still to come
    obtain ⟨left, hleft⟩ : buffered <+: r.body :=
      List.prefix_of_prefix_length_le (hsplit ▸ List.prefix_append _ _) (List.prefix_append _ rest) hpart.le
    have hsrc : src.bytes = left ++ rest := by
      rw [← hleft, List.append_assoc] at hsplit
      exact List.append_cancel_left hsplit
    have hne : left ≠ [] := by
      rintro rfl
      rw [List.append_nil] at hleft
      rw [hleft] at hpart
      omega
    obtain ⟨src', buf', hrelay, hrest, hcap⟩ := relayRequestBody_missing r hlim hleft.symm hne hbuf.symm hsrc hfit
    refine ⟨src', buf', 0, buf', 0, hrelay, ?_, ⟨Nat.zero_le _, hcap⟩, by simp [hrest]⟩
    refine keepPipelined_none (by rw [r.headLen_eq]; exact hle) ?_
    rw [hcut, min_eq_right hpart.le, r.headLen_eq]
    omega

end Body

/-! ## One request -/

theorem writeForwardHead_congr {a b : Bytes} {head : RequestHead} (h : a.take head.headLen = b.take head.headLen)
    (target host : Bytes) (peer : Option PeerAddr) :
    writeForwardHead a head target host peer = writeForwardHead b head target host peer := by
  simp only [writeForwardHead, h]

section Run

variable {hp : HeadParser} {m : PathRouter} (env : Env m)

/-- The `k`-th request is routed, its upstream takes what is written, and it answers with a response that leaves
both connections reusable. -/
def Served (k : ℕ) (r : PlainRequest hp) (sink sink' : Sink) : Prop :=
  ∃ action target upstream upSrc,
    (env.table k).lookup r.head.host (pathOf r.head.target) = some action ∧
    action.targetGroup.select (env.ticket k) = some target ∧
    env.upstream k target.address = some upstream ∧ upstream.sink.limit = none ∧
    relayResponse hp upstream.source sink r.head.method true = .done (upSrc, sink', ⟨true, true⟩)

/-- All of them are, one after the other. -/
def ServedAll : ℕ → List (PlainRequest hp) → Sink → Prop
  | _, [], _ => True
  | k, r :: rs, sink => ∃ sink', Served env k r sink sink' ∧ ServedAll (k + 1) rs sink'

/-- The head that the `k`-th request is forwarded with. -/
def forwardedHead (k : ℕ) (r : PlainRequest hp) : Option Bytes :=
  ((env.table k).lookup r.head.host (pathOf r.head.target)).bind fun action =>
    (action.targetGroup.select (env.ticket k)).map fun target =>
      writeForwardHead r.bytes r.head (forwardTarget action r.head.target) target.address
        (if env.forwardedHeaders then some env.peer else none)

/-- The exchange forwards the request with its body, and the next head is parsed from `rest`. -/
structure Forwards (k : ℕ) (r : PlainRequest hp) (rest : Bytes) (e : Exchange) : Prop where
  request : e.request = r.head
  head : forwardedHead env k r = some e.head
  body : e.body = r.body
  unread : e.unread = rest

/-- What the upstream reads of the head that the `k`-th request is forwarded with: the request, with its new target and
host, exactly if its framing is kept. -/
def ReadUpstream (k : ℕ) (r : PlainRequest hp) (e : Exchange) : Prop :=
  ∀ (action : RouteAction) (target : BackendEndpoint) (l : RequestLayout),
    (env.table k).lookup r.head.host (pathOf r.head.target) = some action →
    action.targetGroup.select (env.ticket k) = some target →
    l.WF → r.bytes = l.render → l.fields.length ≤ MAX_HEADERS - 3 →
    forwardTarget action r.head.target ≠ [] → (∀ b ∈ forwardTarget action r.head.target, isPrintable b) →
    (∀ b ∈ target.address, isPrintable b) →
    (PreservesRequest hp e.head r.head (forwardTarget action r.head.target) target.address ↔ KeepsFraming l r.head.body)

/-- The exchanges forward exactly these requests, in order. -/
def ForwardsAll : ℕ → List (PlainRequest hp) → List Exchange → Prop
  | _, [], [] => True
  | k, r :: rs, e :: es => Forwards env k r (streamOf rs) e ∧ ForwardsAll (k + 1) rs es
  | _, _, _ => False

variable (hl : hp.Laws)
include hl

variable {env} in
theorem Forwards.readUpstream {k : ℕ} {r : PlainRequest hp} {rest : Bytes} {e : Exchange}
    (h : Forwards env k r rest e) : ReadUpstream env k r e := by
  intro action target l hlookup hselect hwf hbytes hlen hne htarget haddress
  have hhead := h.head
  simp only [forwardedHead, hlookup, hselect, Option.bind_some, Option.map_some, Option.some.injEq] at hhead
  have hparse := r.parsed
  rw [← hhead, hbytes, ← List.append_nil l.render]
  rw [hbytes, ← List.append_nil l.render] at hparse
  exact preservesRequest_iff hl hwf hlen hparse hne htarget haddress _

/-- A request whose response leaves the client's connection open takes its own bytes from the connection. -/
theorem serveRound_of_relay (r : PlainRequest hp) {s : ConnState} {rest : Bytes} (hfit : s.buf.Fits s.filled)
    (hunread : s.unread = r.bytes ++ (r.body ++ rest)) (hmax : s.served + 1 < MAX_REQUESTS_PER_CONNECTION)
    {action : RouteAction} (hlookup : (env.table s.served).lookup r.head.host (pathOf r.head.target) = some action)
    {target : BackendEndpoint} (hselect : action.targetGroup.select (env.ticket s.served) = some target)
    {upstream : Conn} (hup : env.upstream s.served target.address = some upstream) (hlim : upstream.sink.limit = none)
    {upSrc : Source} {sink' : Sink} {reusable : Bool} (hresp : relayResponse hp upstream.source s.downstream.sink
      r.head.method true = .done (upSrc, sink', ⟨reusable, true⟩)) :
    ∃ e s', serveRound hp env s = .next e s' ∧ Forwards env s.served r rest e ∧ s'.buf.Fits s'.filled ∧
      s'.unread = rest ∧ s'.served = s.served + 1 ∧ s'.downstream.sink = sink' := by
  obtain ⟨src, buf, filled, hread, hfit₁, hstream, hle⟩ := readHead_spec hl r s.served hfit hunread
  have hhead : (buf.data.take filled).take r.head.headLen = r.bytes.take r.head.headLen := by
    have hlen : (buf.data.take filled).length = filled := by rw [List.length_take, min_eq_left hfit₁.filled_le]
    rw [r.headLen_eq, List.take_length]
    have := congrArg (·.take r.bytes.length) hstream
    simpa [List.take_append_of_le_length (hlen ▸ hle)] using this
  obtain ⟨forwarded, hfwd⟩ : ∃ forwarded, writeForwardHead r.bytes r.head (forwardTarget action r.head.target)
      target.address (if env.forwardedHeaders then some env.peer else none) = forwarded := ⟨_, rfl⟩
  have hlim' : (extend upstream.sink forwarded).limit = none := hlim
  obtain ⟨src', buf₁, leftover, buf', filled', hbody, hkeep, hfit', hrest⟩ :=
    relayRequestBody_spec r hlim' hfit₁ hstream hle
  have hkeepAlive : (!r.head.closeRequested && decide (s.served + 1 < MAX_REQUESTS_PER_CONNECTION)) = true := by
    simp [r.persistent, hmax]
  refine ⟨⟨r.head, target.address, forwarded, r.body, rest,
      if reusable then some ⟨upSrc, extend (extend upstream.sink forwarded) r.body⟩ else none⟩,
    ⟨⟨src', sink'⟩, buf', filled', s.served + 1⟩, ?_, ⟨rfl, ?_, rfl, rfl⟩, hfit', hrest, rfl, rfl⟩
  · have hdrop : (extend (extend upstream.sink forwarded) r.body).written.drop
        (extend upstream.sink forwarded).written.length = r.body := by
      simp [extend]
    have hunread' : ConnState.unread ⟨⟨src', sink'⟩, buf', filled', s.served + 1⟩ = rest := hrest
    simp only [serveRound, hread, exchange, hlookup, hselect, hup, writeForwardHead_congr hhead, hfwd,
      writeAll_of_unlimited hlim, hbody, hkeep, hkeepAlive, hresp, hdrop, hunread', Bool.not_true,
      Bool.or_self, Bool.false_eq_true, if_false]
  · simp only [forwardedHead, hlookup, hselect, Option.bind_some, Option.map_some, hfwd]

/-- **One request takes its own bytes from the connection.** -/
theorem serveRound_spec (r : PlainRequest hp) {s : ConnState} {rest : Bytes} {sink' : Sink}
    (hfit : s.buf.Fits s.filled) (hunread : s.unread = r.bytes ++ (r.body ++ rest))
    (hmax : s.served + 1 < MAX_REQUESTS_PER_CONNECTION) (hserved : Served env s.served r s.downstream.sink sink') :
    ∃ e s', serveRound hp env s = .next e s' ∧ Forwards env s.served r rest e ∧ s'.buf.Fits s'.filled ∧
      s'.unread = rest ∧ s'.served = s.served + 1 ∧ s'.downstream.sink = sink' := by
  obtain ⟨action, target, upstream, upSrc, hlookup, hselect, hup, hlim, hresp⟩ := hserved
  exact serveRound_of_relay env hl r hfit hunread hmax hlookup hselect hup hlim hresp

omit hl in
theorem serveRound_drained {s : ConnState} (hfit : s.buf.Fits s.filled) (hunread : s.unread = []) :
    ∃ ending, serveRound hp env s = .stop [] ending := by
  obtain ⟨hbuf, hsrc⟩ := List.append_eq_nil_iff.mp hunread
  have hcheck : checkHead hp s.served (s.buf.data.take s.filled) = .readMore := by simp [hbuf, checkHead]
  rw [serveRound, readHead.eq_def, hcheck]
  simp only
  rcases hr : readMore s.downstream.source s.buf s.filled with ⟨res, buf₁, src₁⟩
  cases res with
  | data bytes hne =>
    have := (readMore_data hfit hr).1
    rw [hsrc] at this
    exact absurd (List.append_eq_nil_iff.mp this.symm).1 hne
  | zero => exact ⟨_, rfl⟩
  | failed => exact ⟨_, rfl⟩
  | pending => exact ⟨_, rfl⟩

/-- The serve loop forwards what is left of the requests. -/
theorem serveLoop_forwards {rs : List (PlainRequest hp)} {s : ConnState} {fuel : ℕ} (hfit : s.buf.Fits s.filled)
    (hunread : s.unread = streamOf rs) (hfuel : rs.length < fuel)
    (hmax : s.served + rs.length < MAX_REQUESTS_PER_CONNECTION)
    (hserved : ServedAll env s.served rs s.downstream.sink) :
    ForwardsAll env s.served rs (serveLoop hp env fuel s).1 := by
  induction rs generalizing s fuel with
  | nil =>
    obtain ⟨fuel, rfl⟩ : ∃ k, fuel = k + 1 := ⟨fuel - 1, by omega⟩
    obtain ⟨ending, hstop⟩ : ∃ ending, serveRound hp env s = .stop [] ending := serveRound_drained env hfit hunread
    simp only [serveLoop, hstop, ForwardsAll]
  | cons r rs ih =>
    obtain ⟨fuel, rfl⟩ : ∃ k, fuel = k + 1 := ⟨fuel - 1, by omega⟩
    obtain ⟨sink', hone, hall⟩ := hserved
    have hstream : s.unread = r.bytes ++ (r.body ++ streamOf rs) := by
      rw [hunread, streamOf, List.flatMap_cons, List.append_assoc]
      rfl
    simp only [List.length_cons] at hfuel hmax
    obtain ⟨e, s', hround, hforw, hfit', hrest, hk, hsink⟩ :=
      serveRound_spec env hl r hfit hstream (by omega) hone
    have hnext := ih hfit' hrest (show rs.length < fuel by omega) (by omega) (by rw [hk, hsink]; exact hall)
    simp only [serveLoop, hround, ForwardsAll]
    exact ⟨hforw, hk ▸ hnext⟩

/-- **Pipelined requests are forwarded in order, each with exactly its own body, and each next head is parsed from
the first byte behind it**, however the stream is cut into reads. -/
theorem serveConnection_pipelined (rs : List (PlainRequest hp)) (hmax : rs.length < MAX_REQUESTS_PER_CONNECTION)
    (downstream : Conn) (hbytes : downstream.source.bytes = streamOf rs)
    (hserved : ServedAll env 0 rs downstream.sink) :
    ForwardsAll env 0 rs (serveConnection hp env downstream).1 := by
  refine serveLoop_forwards env hl (s := ConnState.start downstream) ⟨Nat.zero_le _, Nat.zero_le _⟩ ?_ hmax ?_ hserved
  · show [] ++ downstream.source.bytes = streamOf rs
    rw [List.nil_append, hbytes]
  · show 0 + rs.length < MAX_REQUESTS_PER_CONNECTION
    omega

end Run

/-- A route for every request. -/
def sampleSpecAll : RouteSpec :=
  ⟨none, ascii "/", .pathPrefix, [⟨ascii "10.0.0.1:80", 1⟩], ⟨none⟩, ascii "default/a#0"⟩

/-- A worker with one route, whose upstream answers every request without a body. -/
def sampleEnv : Env PathRouter.reference where
  table _ := RouteTableBuilder.buildAll _ [sampleSpecAll]
  ticket k := k
  upstream _ _ := some ⟨⟨[ascii "HTTP/1.1 204 No Content\r\n\r\n"], .idle, false⟩, ⟨[], none⟩⟩
  peer := .sample
  forwardedHeaders := true

def sampleGet : PlainRequest .reference where
  bytes := ascii "GET /a HTTP/1.1\r\n\r\n"
  body := []
  head := ⟨19, ascii "GET", ascii "/a", none, .empty, false, (4, 6)⟩
  parsed := by decide +kernel
  headLen_eq := by decide
  length_lt := by decide
  framed := .inl ⟨rfl, rfl⟩
  persistent := rfl

def samplePost : PlainRequest .reference where
  bytes := ascii "POST /b HTTP/1.1\r\nContent-Length: 2\r\n\r\n"
  body := ascii "hi"
  head := ⟨39, ascii "POST", ascii "/b", none, .fixed 2, false, (5, 7)⟩
  parsed := by decide +kernel
  headLen_eq := by decide
  length_lt := by decide
  framed := .inr rfl
  persistent := rfl

/-- The answer as it is returned. -/
def sampleAnswer : Bytes := ascii "HTTP/1.1 204 No Content\r\nConnection: keep-alive\r\n\r\n"

theorem serveConnection_pipelined_two :
    ForwardsAll sampleEnv 0 [sampleGet, samplePost]
      (serveConnection .reference sampleEnv ⟨⟨[ascii "GET /a HT", ascii "TP/1.1\r\n\r\nPOST /b HTTP/1.1\r\nContent-",
        ascii "Length: 2\r\n\r\nh", ascii "i"], .closed, false⟩, ⟨[], none⟩⟩).1 := by
  refine serveConnection_pipelined sampleEnv HeadParser.reference_laws _ (by decide +kernel) _ (by decide +kernel)
    ⟨⟨sampleAnswer, none⟩, ?_, ⟨sampleAnswer ++ sampleAnswer, none⟩, ?_, trivial⟩
  · exact ⟨RouteTableBuilder.actionOf 0 sampleSpecAll, ⟨ascii "10.0.0.1:80", 1⟩, _, ⟨[[]], .idle, false⟩,
      by decide +kernel, by decide +kernel, rfl, rfl, by decide +kernel⟩
  · exact ⟨RouteTableBuilder.actionOf 0 sampleSpecAll, ⟨ascii "10.0.0.1:80", 1⟩, _, ⟨[[]], .idle, false⟩,
      by decide +kernel, by decide +kernel, rfl, rfl, by decide +kernel⟩

end LbProxy.Monoio
