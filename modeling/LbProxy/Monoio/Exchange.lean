import LbProxy.Monoio.Server

/-!
# What one exchange does, and what holds of all exchanges of a connection

* `Exchanged` — everything an exchange has done when it is reported;
* `readHead_parsed` — the head of a request was parsed from what was buffered;
* `exchanged_of_mem` — an exchange that a round reports has done so;
* `serveConnection_exchanged` — and so has every exchange of a connection.
-/

namespace LbProxy.Monoio

open Lib LbProxy.Core

variable {m : PathRouter}

/-- The target and the head that a request is forwarded with. -/
def forwarded (table : RouteTable m) (ticket : ℕ) (peer : Option PeerAddr) (buffered : Bytes) (head : RequestHead) :
    Option (Bytes × Bytes) :=
  (table.lookup head.host (pathOf head.target)).bind fun action =>
    (action.targetGroup.select ticket).map fun endpoint =>
      (forwardTarget action head.target,
        writeForwardHead buffered head (forwardTarget action head.target) endpoint.address peer)

/-- The exchanges of one round. -/
def exchanges : Round → List Exchange
  | .stop done _ => done
  | .next e _ => [e]

variable {hp : HeadParser} {env : Env m}

/-- What the `k`-th exchange of a connection has done: a head was forwarded to an acquired upstream, its response was
returned, and the upstream was put back if the response left it reusable. -/
structure Exchanged (hp : HeadParser) (env : Env m) (k : ℕ) (buffered : Bytes) (e : Exchange) : Prop where
  parsed : parseRequest hp buffered = .complete e.request
  head : ∃ target, forwarded (env.table k) (env.ticket k) (if env.forwardedHeaders then some env.peer else none)
    buffered e.request = some (target, e.head)
  upstream : ∃ up sink keepAlive src sink' outcome, env.upstream k e.address = some up ∧
    relayResponse hp up.source sink e.request.method keepAlive = .done (src, sink', outcome) ∧
    ∀ conn, e.put = some conn → outcome.upstreamReusable = true ∧ conn.source = src

theorem checkHead_head {served : ℕ} {buffered : Bytes} {head : RequestHead}
    (h : checkHead hp served buffered = .head head) : parseRequest hp buffered = .complete head := by
  simp only [checkHead] at h
  split at h
  · cases h
  · split at h
    · cases h
    · cases h
    · split at h
      · rename_i hparse
        rw [hparse, HeadCheck.head.inj h]
      · cases h
      · split at h <;> cases h

theorem readHead_parsed {served : ℕ} {src src' : Source} {buf buf' : Buf} {filled filled' : ℕ} {head : RequestHead}
    (h : readHead hp served src buf filled = .head head src' buf' filled') :
    parseRequest hp (buf'.data.take filled') = .complete head := by
  fun_induction readHead hp served src buf filled with
  | case1 src buf filled head' hcheck =>
    obtain ⟨rfl, rfl, rfl, rfl⟩ := HeadOutcome.head.inj h
    exact checkHead_head hcheck
  | case4 src buf filled hcheck bytes hne buf₁ src₁ hread ih => exact ih h
  | _ => cases h

/-- Whether the client's connection may stay open behind the response to this request. -/
def keepsAlive (s : ConnState) (head : RequestHead) : Bool :=
  !head.closeRequested && decide (s.served + 1 < MAX_REQUESTS_PER_CONNECTION)

/-- **What has happened when an exchange is reported**: the request was routed and forwarded, its response was relayed,
and the connection goes on if both sides let it. -/
theorem exchange_cases {s : ConnState} {src : Source} {buf : Buf} {filled : ℕ} {head : RequestHead} {e : Exchange}
    (h : e ∈ exchanges (exchange hp env s src buf filled head)) :
    ∃ target up upSrc sink outcome,
      forwarded (env.table s.served) (env.ticket s.served) (if env.forwardedHeaders then some env.peer else none)
        (buf.data.take filled) head = some (target, e.head) ∧
      env.upstream s.served e.address = some up ∧ e.request = head ∧
      relayResponse hp up.source s.downstream.sink head.method (keepsAlive s head) = .done (upSrc, sink, outcome) ∧
      (∀ conn, e.put = some conn → outcome.upstreamReusable = true ∧ conn.source = upSrc) ∧
      if keepsAlive s head && outcome.downstreamReusable then
        ∃ s', exchange hp env s src buf filled head = .next e s' ∧ s'.downstream.sink = sink ∧ s'.served = s.served + 1
      else exchange hp env s src buf filled head = .stop [e] .returned := by
  cases hroute : (env.table s.served).lookup head.host (pathOf head.target) with
  | none => simp [exchange, hroute, exchanges] at h
  | some action =>
  cases hselect : action.targetGroup.select (env.ticket s.served) with
  | none => simp [exchange, hroute, hselect, exchanges] at h
  | some endpoint =>
  cases hup : env.upstream s.served endpoint.address with
  | none => simp [exchange, hroute, hselect, hup, exchanges] at h
  | some up =>
  cases hwrite : up.sink.writeAll (writeForwardHead (buf.data.take filled) head (forwardTarget action head.target)
      endpoint.address (if env.forwardedHeaders then some env.peer else none)) with
  | none => simp [exchange, hroute, hselect, hup, hwrite, exchanges] at h
  | some up₁ =>
  cases hbody : relayRequestBody src up₁ buf head filled with
  | failed => simp [exchange, hroute, hselect, hup, hwrite, hbody, exchanges] at h
  | blocked => simp [exchange, hroute, hselect, hup, hwrite, hbody, exchanges] at h
  | done r =>
  obtain ⟨src', up', buf', leftover⟩ := r
  have hforwarded : forwarded (env.table s.served) (env.ticket s.served)
      (if env.forwardedHeaders then some env.peer else none) (buf.data.take filled) head =
        some (forwardTarget action head.target, writeForwardHead (buf.data.take filled) head
          (forwardTarget action head.target) endpoint.address
          (if env.forwardedHeaders then some env.peer else none)) := by
    simp [forwarded, hroute, hselect]
  simp only [exchange, hroute, hselect, hup, hwrite, hbody] at h ⊢
  rw [← keepsAlive] at h ⊢
  cases hresp : relayResponse hp up.source s.downstream.sink head.method (keepsAlive s head) with
  | failed => simp [hresp, exchanges] at h
  | blocked => simp [hresp, exchanges] at h
  | done r =>
  obtain ⟨upSrc, sink, outcome⟩ := r
  have hput : ∀ conn, (if outcome.upstreamReusable then some (⟨upSrc, up'⟩ : Conn) else none) = some conn →
      outcome.upstreamReusable = true ∧ conn.source = upSrc := by
    intro conn hconn
    split at hconn
    · rename_i hreuse
      exact ⟨hreuse, by rw [← Option.some.inj hconn]⟩
    · cases hconn
  simp only [hresp] at h ⊢
  rw [show (!keepsAlive s head || !outcome.downstreamReusable) = !(keepsAlive s head && outcome.downstreamReusable) by
    simp] at h ⊢
  cases hgo : keepsAlive s head && outcome.downstreamReusable with
  | true =>
    simp only [hgo, Bool.not_true, Bool.false_eq_true, if_false, exchanges, List.mem_singleton] at h
    subst h
    refine ⟨_, up, upSrc, sink, outcome, hforwarded, hup, rfl, hresp, hput, ?_⟩
    simp only [hgo, Bool.not_true, Bool.false_eq_true, if_false, if_true]
    exact ⟨_, rfl, rfl, rfl⟩
  | false =>
    simp only [hgo, Bool.not_false, if_true, exchanges, List.mem_singleton] at h
    subst h
    refine ⟨_, up, upSrc, sink, outcome, hforwarded, hup, rfl, hresp, hput, ?_⟩
    simp only [hgo, Bool.not_false, if_true, Bool.false_eq_true, if_false]

theorem exchanged_of_exchange {s : ConnState} {src : Source} {buf : Buf} {filled : ℕ} {head : RequestHead}
    (hparsed : parseRequest hp (buf.data.take filled) = .complete head) {e : Exchange}
    (h : e ∈ exchanges (exchange hp env s src buf filled head)) :
    Exchanged hp env s.served (buf.data.take filled) e := by
  obtain ⟨target, up, upSrc, sink, outcome, hforwarded, hup, rfl, hresp, hput, -⟩ := exchange_cases h
  exact ⟨hparsed, ⟨target, hforwarded⟩, up, _, _, upSrc, sink, outcome, hup, hresp, hput⟩

/-- **What a round reports.** -/
theorem exchanged_of_mem {s : ConnState} {e : Exchange} (h : e ∈ exchanges (serveRound hp env s)) :
    ∃ buffered, Exchanged hp env s.served buffered e := by
  unfold serveRound at h
  split at h
  · rename_i head src buf filled hread
    exact ⟨_, exchanged_of_exchange (readHead_parsed hread) h⟩
  all_goals simp [exchanges] at h

/-- What holds of the exchanges of every round holds of all exchanges of the loop. -/
theorem forall_serveLoop {P : Exchange → Prop} (h : ∀ s, ∀ e ∈ exchanges (serveRound hp env s), P e) (fuel : ℕ)
    (s : ConnState) : ∀ e ∈ (serveLoop hp env fuel s).1, P e := by
  induction fuel generalizing s with
  | zero => simp [serveLoop]
  | succ fuel ih =>
    intro e he
    have hs := h s
    rw [serveLoop] at he
    cases hround : serveRound hp env s with
    | stop done ending =>
      rw [hround] at he hs
      exact hs e he
    | next e' s' =>
      rw [hround] at he hs
      rcases List.mem_cons.mp he with rfl | he
      · exact hs e (List.mem_singleton_self _)
      · exact ih s' e he

/-- **What the exchanges of a connection have done.** -/
theorem serveConnection_exchanged (downstream : Conn) :
    ∀ e ∈ (serveConnection hp env downstream).1, ∃ k buffered, Exchanged hp env k buffered e :=
  forall_serveLoop (fun s _ he => ⟨s.served, exchanged_of_mem he⟩) _ _

end LbProxy.Monoio
