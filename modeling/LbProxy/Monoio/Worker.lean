import LbProxy.Lib.Runs
import LbProxy.Monoio.Exchange
import LbProxy.Monoio.Pipeline
import LbProxy.Monoio.Pool
import LbProxy.Monoio.Silence

/-!
# One worker: its connections, its pool and the published table (`run_worker`, `acquire_upstream`)

The tasks of a worker run on one thread and interleave where they wait: for a request head, for a connection to an
upstream, and for the end of an exchange.  A task whose read never completes stays where it waits.  The tasks share the
pool of upstream connections and the published table.  An upstream connection is numbered when it is opened; the number
is for the statements only.

* `Worker`, `WorkerEvent`, `step`, `run` — the tasks, and the atomic steps in which they interleave;
* `pending` — the read that a task waits for never completes;
* `Owned` — every open upstream connection is in one place, and was opened for the address it is used for;
* `upstreams_owned_once` — this holds in every state that a worker reaches;
* `Follows` — a task has done what `serve_connection` does with what the worker supplied so far;
* `session_serves` — every task of every run serves its client as `serveConnection` does in some environment.
-/

namespace LbProxy.Monoio

open Lib LbProxy.Core

/-- An upstream connection and its number. -/
structure Upstream where
  id : ℕ
  conn : Conn

/-- What a task was supplied with for one request. -/
structure Supply (m : PathRouter) where
  table : RouteTable m
  ticket : ℕ
  /-- What `acquire_upstream` returned. -/
  upstream : Option Conn

/-- A request whose backend is selected. -/
structure Routed (m : PathRouter) where
  /-- The connection before the request. -/
  state : ConnState
  src : Source
  buf : Buf
  filled : ℕ
  head : RequestHead
  table : RouteTable m
  ticket : ℕ
  address : Bytes

/-- Where the task of a downstream connection waits. -/
inductive Task (m : PathRouter) where
  | reading (s : ConnState)
  | dialling (r : Routed m)
  | exchanging (r : Routed m) (upstream : Upstream)
  | ended (ending : ServeEnd)

/-- A downstream connection, with what its task was supplied with and has done. -/
structure Session (m : PathRouter) where
  client : Conn
  peer : PeerAddr
  supplied : List (Supply m)
  done : List Exchange
  task : Task m

structure Worker (m : PathRouter) where
  /-- The published table. -/
  table : RouteTable m
  pool : ConnectionPool Upstream
  sessions : List (Session m)
  /-- The address that each upstream connection was opened for. -/
  opened : List Bytes

/-- An atomic step of a worker; the clock is read as the pool says. -/
inductive WorkerEvent (m : PathRouter) where
  | publish (table : RouteTable m)
  | accept (client : Conn) (peer : PeerAddr)
  /-- The task reads a head, is routed with the ticket it draws, and looks into the pool. -/
  | request (i ticket : ℕ) (now : ℕ → ℕ)
  /-- The connection attempt of the task ends. -/
  | connected (i : ℕ) (conn : Option Conn)
  /-- The exchange of the task ends. -/
  | finish (i now : ℕ)

namespace Session

variable {m : PathRouter}

def start (client : Conn) (peer : PeerAddr) : Session m := ⟨client, peer, [], [], .reading (.start client)⟩

/-- The task ends without an exchange. -/
def stop (se : Session m) (supply : Option (Supply m)) (ending : ServeEnd) : Session m :=
  { se with supplied := se.supplied ++ supply.toList, task := .ended ending }

/-- The task goes on as a round of the serve loop says. -/
def advance (se : Session m) (supply : Supply m) : Round → Session m
  | .stop done ending =>
    { se with supplied := se.supplied ++ [supply], done := se.done ++ done, task := .ended ending }
  | .next e s => { se with supplied := se.supplied ++ [supply], done := se.done ++ [e], task := .reading s }

end Session

/-- How a task ends when no connection to its backend can be opened. -/
def badGateway : ServeEnd := .replied (errorResponse 502 (ascii "Bad Gateway"))

/-- The upstream connection that a round gives back. -/
def givenBack (round : Round) : Option Conn := ((exchanges round).head?).bind (·.put)

namespace Worker

variable {m : PathRouter} (hp : HeadParser) (forwardedHeaders : Bool)

def start (table : RouteTable m) : Worker m := ⟨table, ∅, [], []⟩

/-- What the exchange of a task sees of the worker. -/
def envOf (se : Session m) (r : Routed m) (upstream : Conn) : Env m :=
  ⟨fun _ => r.table, fun _ => r.ticket, fun _ _ => some upstream, se.peer, forwardedHeaders⟩

/-- The task reads a request head and looks for an upstream connection: the task and the pool afterwards. -/
def request (w : Worker m) (se : Session m) (s : ConnState) (ticket : ℕ) (now : ℕ → ℕ) :
    Session m × ConnectionPool Upstream :=
  match readHead hp s.served s.downstream.source s.buf s.filled with
  | .head head src buf filled =>
    match w.table.lookup head.host (pathOf head.target) with
    | none => (se.stop (some ⟨w.table, ticket, none⟩) (.replied (errorResponse 404 (ascii "Not Found"))), w.pool)
    | some action =>
      match action.targetGroup.select ticket with
      | none => (se.stop (some ⟨w.table, ticket, none⟩) .failed, w.pool)
      | some target =>
        let r : Routed m := ⟨s, src, buf, filled, head, w.table, ticket, target.address⟩
        match w.pool.take target.address now with
        | (some upstream, pool) => ({ se with task := .exchanging r upstream }, pool)
        | (none, pool) => ({ se with task := .dialling r }, pool)
  | .upgrade buffered src => (se.stop none (.upgraded buffered src), w.pool)
  | .reply response => (se.stop none (.replied response), w.pool)
  | .closed => (se.stop none .returned, w.pool)
  | .failed => (se.stop none .failed, w.pool)
  | .blocked => (se, w.pool)

/-- The exchange of the task ends: the task and the pool afterwards. -/
def finish (w : Worker m) (se : Session m) (r : Routed m) (upstream : Upstream) (now : ℕ) :
    Session m × ConnectionPool Upstream :=
  let round := exchange hp (envOf forwardedHeaders se r upstream.conn) r.state r.src r.buf r.filled r.head
  (se.advance ⟨r.table, r.ticket, some upstream.conn⟩ round,
    match givenBack round with
    | some conn => w.pool.put r.address ⟨upstream.id, conn⟩ now
    | none => w.pool)

/-- The read that the task waits for never completes. -/
def pending (se : Session m) : Bool :=
  match se.task with
  | .reading s =>
    match readHead hp s.served s.downstream.source s.buf s.filled with
    | .blocked => true
    | _ => false
  | .exchanging r upstream =>
    match exchange hp (envOf forwardedHeaders se r upstream.conn) r.state r.src r.buf r.filled r.head with
    | .stop _ .blocked => true
    | _ => false
  | .dialling _ | .ended _ => false

/-- A step of the worker; a step of a task that waits for something else, or for ever, does nothing. -/
def step (w : Worker m) : WorkerEvent m → Worker m
  | .publish table => { w with table := table }
  | .accept client peer => { w with sessions := w.sessions ++ [.start client peer] }
  | .request i ticket now =>
    match w.sessions[i]? with
    | some se =>
      if pending hp forwardedHeaders se then w
      else match se.task with
      | .reading s =>
        let (se, pool) := request hp w se s ticket now
        { w with sessions := w.sessions.set i se, pool := pool }
      | _ => w
    | none => w
  | .connected i conn =>
    match w.sessions[i]? with
    | some se =>
      match se.task with
      | .dialling r =>
        match conn with
        | some conn =>
          let se := { se with task := .exchanging r ⟨w.opened.length, conn⟩ }
          { w with sessions := w.sessions.set i se, opened := w.opened ++ [r.address] }
        | none =>
          { w with sessions := w.sessions.set i (se.stop (some ⟨r.table, r.ticket, none⟩) badGateway) }
      | _ => w
    | none => w
  | .finish i now =>
    match w.sessions[i]? with
    | some se =>
      if pending hp forwardedHeaders se then w
      else match se.task with
      | .exchanging r upstream =>
        let (se, pool) := finish hp forwardedHeaders w se r upstream now
        { w with sessions := w.sessions.set i se, pool := pool }
      | _ => w
    | none => w

/-- The worker after a run. -/
def run (w : Worker m) (events : List (WorkerEvent m)) : Worker m := events.foldl (step hp forwardedHeaders) w

/-! ## Every upstream connection is in one place -/

/-- The task holds this upstream connection. -/
def Holds (w : Worker m) (i : ℕ) (r : Routed m) (upstream : Upstream) : Prop :=
  ∃ se, w.sessions[i]? = some se ∧ se.task = .exchanging r upstream

/-- No open upstream connection is in two places, and each was opened for the address it is filed or used under. -/
structure Owned (w : Worker m) : Prop where
  /-- No two tasks hold one. -/
  held_once : ∀ {i j r r' upstream upstream'}, w.Holds i r upstream → w.Holds j r' upstream' →
    upstream.id = upstream'.id → i = j
  /-- None that a task holds is idle. -/
  held_busy : ∀ {i r upstream a e}, w.Holds i r upstream → e ∈ w.pool.idle a → e.stream.id ≠ upstream.id
  /-- None is idle twice. -/
  idle_once : ∀ a, ((w.pool.idle a).map (·.stream)).Pairwise fun u u' => u.id ≠ u'.id
  held_address : ∀ {i r upstream}, w.Holds i r upstream → w.opened[upstream.id]? = some r.address
  idle_address : ∀ {a e}, e ∈ w.pool.idle a → w.opened[e.stream.id]? = some a

theorem owned_start (table : RouteTable m) : Owned (start table) where
  held_once := by
    rintro i j r r' upstream upstream' ⟨se, hse, -⟩
    cases hse
  held_busy := by
    rintro i r upstream a e ⟨se, hse, -⟩
    cases hse
  idle_once a := List.Pairwise.nil
  held_address := by
    rintro i r upstream ⟨se, hse, -⟩
    cases hse
  idle_address h := by cases h

theorem holds_set {w w' : Worker m} {i : ℕ} {se : Session m} (hw : w'.sessions = w.sessions.set i se) {j : ℕ}
    {r : Routed m} {upstream : Upstream} (h : w'.Holds j r upstream) :
    (j = i ∧ se.task = .exchanging r upstream) ∨ (j ≠ i ∧ w.Holds j r upstream) := by
  obtain ⟨se', hse', htask⟩ := h
  rw [hw] at hse'
  rcases getElem?_set_cases hse' with ⟨rfl, rfl⟩ | ⟨hji, hold⟩
  · exact .inl ⟨rfl, htask⟩
  · exact .inr ⟨hji, se', hold, htask⟩

theorem Owned.release {w w' : Worker m} (hw : Owned w) {i : ℕ} {se : Session m}
    (hsessions : w'.sessions = w.sessions.set i se) (hse : ∀ r upstream, se.task ≠ .exchanging r upstream)
    (hpool : ∀ a, (w'.pool.idle a).Sublist (w.pool.idle a)) (hopened : w'.opened = w.opened) : Owned w' := by
  have hkeeps : ∀ {j r upstream}, w'.Holds j r upstream → w.Holds j r upstream := by
    intro j r upstream h
    rcases holds_set hsessions h with ⟨-, htask⟩ | ⟨-, hold⟩
    · exact absurd htask (hse r upstream)
    · exact hold
  refine ⟨fun h h' => hw.held_once (hkeeps h) (hkeeps h'), fun h he => hw.held_busy (hkeeps h) ((hpool _).subset he),
    fun a => (hw.idle_once a).sublist ((hpool a).map _), fun h => ?_, fun he => ?_⟩
  · rw [hopened]
    exact hw.held_address (hkeeps h)
  · rw [hopened]
    exact hw.idle_address ((hpool _).subset he)

theorem Owned.acquire {w w' : Worker m} (hw : Owned w) {i : ℕ} {se : Session m} {r : Routed m} {upstream : Upstream}
    (hsessions : w'.sessions = w.sessions.set i se) (hse : se.task = .exchanging r upstream)
    (hpool : ∀ a, (w'.pool.idle a).Sublist (w.pool.idle a)) (hopened : w.opened <+: w'.opened)
    (hfree : ∀ {j r' upstream'}, w.Holds j r' upstream' → upstream'.id ≠ upstream.id)
    (hidle : ∀ {a e}, e ∈ w'.pool.idle a → e.stream.id ≠ upstream.id)
    (haddress : w'.opened[upstream.id]? = some r.address) : Owned w' := by
  have hholds : ∀ {j r' upstream'}, w'.Holds j r' upstream' →
      (j = i ∧ r' = r ∧ upstream' = upstream) ∨ (j ≠ i ∧ w.Holds j r' upstream') := by
    intro j r' upstream' h
    rcases holds_set hsessions h with ⟨hj, htask⟩ | hold
    · rw [hse] at htask
      obtain ⟨rfl, rfl⟩ := Task.exchanging.inj htask
      exact .inl ⟨hj, rfl, rfl⟩
    · exact .inr hold
  have hgrow : ∀ {n : ℕ} {a : Bytes}, w.opened[n]? = some a → w'.opened[n]? = some a := by
    intro n a h
    obtain ⟨more, hmore⟩ := hopened
    rw [← hmore, List.getElem?_append_left (List.getElem?_eq_some_iff.mp h).1, h]
  refine ⟨fun h h' hid => ?_, fun h he => ?_, fun a => (hw.idle_once a).sublist ((hpool a).map _), fun h => ?_,
    fun he => hgrow (hw.idle_address ((hpool _).subset he))⟩
  · rcases hholds h with ⟨rfl, rfl, rfl⟩ | ⟨hj, hold⟩
    · rcases hholds h' with ⟨rfl, -, -⟩ | ⟨-, hold'⟩
      · rfl
      · exact absurd hid.symm (hfree hold')
    · rcases hholds h' with ⟨rfl, rfl, rfl⟩ | ⟨-, hold'⟩
      · exact absurd hid (hfree hold)
      · exact hw.held_once hold hold' hid
  · rcases hholds h with ⟨rfl, rfl, rfl⟩ | ⟨-, hold⟩
    · exact hidle he
    · exact hw.held_busy hold ((hpool _).subset he)
  · rcases hholds h with ⟨rfl, rfl, rfl⟩ | ⟨-, hold⟩
    · exact haddress
    · exact hgrow (hw.held_address hold)

theorem Owned.giveBack {w w' : Worker m} (hw : Owned w) {i : ℕ} {se : Session m} {r : Routed m}
    {upstream : Upstream} {conn : Conn} {now : ℕ} (hold : w.Holds i r upstream)
    (hsessions : w'.sessions = w.sessions.set i se) (hse : ∀ r upstream, se.task ≠ .exchanging r upstream)
    (hpool : w'.pool = w.pool.put r.address ⟨upstream.id, conn⟩ now) (hopened : w'.opened = w.opened) : Owned w' := by
  have hkeeps : ∀ {j r' upstream'}, w'.Holds j r' upstream' → j ≠ i ∧ w.Holds j r' upstream' := by
    intro j r' upstream' h
    rcases holds_set hsessions h with ⟨-, htask⟩ | hold'
    · exact absurd htask (hse r' upstream')
    · exact hold'
  -- an idle entry was idle before, or is the connection that is put back
  have hidle : ∀ {a e}, e ∈ w'.pool.idle a →
      e ∈ w.pool.idle a ∨ (a = r.address ∧ e.stream = ⟨upstream.id, conn⟩) := by
    intro a e he
    rw [hpool, ConnectionPool.idle_put] at he
    split at he
    · rename_i ha
      rcases List.mem_append.mp he with he | he
      · exact .inl (ha.1 ▸ he)
      · exact .inr ⟨ha.1, by rw [List.mem_singleton.mp he]⟩
    · exact .inl he
  refine ⟨fun h h' => hw.held_once (hkeeps h).2 (hkeeps h').2, fun h he => ?_, fun a => ?_, fun h => ?_, fun he => ?_⟩
  · obtain ⟨hj, hold'⟩ := hkeeps h
    rcases hidle he with he | ⟨-, he⟩
    · exact hw.held_busy hold' he
    · rw [he]
      exact fun hid => hj (hw.held_once hold' hold hid.symm)
  · rw [hpool, ConnectionPool.idle_put]
    split
    · rename_i ha
      rw [List.map_append, List.pairwise_append]
      refine ⟨hw.idle_once _, List.pairwise_singleton _ _, ?_⟩
      intro u hu u' hu'
      obtain ⟨e, he, rfl⟩ := List.mem_map.mp hu
      rw [List.mem_singleton.mp hu']
      show e.stream.id ≠ upstream.id
      exact hw.held_busy hold he
    · exact hw.idle_once a
  · rw [hopened]
    exact hw.held_address (hkeeps h).2
  · rw [hopened]
    rcases hidle he with hbefore | ⟨rfl, hback⟩
    · exact hw.idle_address hbefore
    · rw [hback]
      exact (hw.held_address hold : w.opened[upstream.id]? = some r.address)

/-! ## What a step does to a session -/

/-- The environment supplies this to the `k`-th request of a connection. -/
def Supplies (env : Env m) (k : ℕ) (supply : Supply m) : Prop :=
  env.table k = supply.table ∧ env.ticket k = supply.ticket ∧ ∀ address, env.upstream k address = supply.upstream

/-- The request was read from the connection, and its address is that of the backend selected for it. -/
structure RoutedFrom (r : Routed m) : Prop where
  read : readHead hp r.state.served r.state.downstream.source r.state.buf r.state.filled =
    .head r.head r.src r.buf r.filled
  selected : ∃ action target, r.table.lookup r.head.host (pathOf r.head.target) = some action ∧
    action.targetGroup.select r.ticket = some target ∧ target.address = r.address

/-- **What a request does** whose head is read: the task ends as the round ends, or its backend is selected and it takes
an idle connection, or it dials. -/
theorem request_cases (w : Worker m) (se : Session m) (s : ConnState) (ticket : ℕ) (now : ℕ → ℕ)
    (hlive : readHead hp s.served s.downstream.source s.buf s.filled ≠ .blocked) :
    (∃ supply ending, request hp w se s ticket now = (se.stop supply ending, w.pool) ∧ ending ≠ .blocked ∧
        (∀ x ∈ supply, x.table = w.table) ∧
        ∀ env : Env m, (∀ x ∈ supply, Supplies env s.served x) → serveRound hp env s = .stop [] ending) ∨
      ∃ r : Routed m, r.state = s ∧ r.table = w.table ∧ RoutedFrom hp r ∧
        ((∃ upstream pool, w.pool.take r.address now = (some upstream, pool) ∧
            request hp w se s ticket now = ({ se with task := .exchanging r upstream }, pool)) ∨
          request hp w se s ticket now = ({ se with task := .dialling r }, (w.pool.take r.address now).2)) := by
  cases hread : readHead hp s.served s.downstream.source s.buf s.filled with
  | head head src buf filled =>
    cases hroute : w.table.lookup head.host (pathOf head.target) with
    | none =>
      refine .inl ⟨some ⟨w.table, ticket, none⟩, .replied (errorResponse 404 (ascii "Not Found")), ?_, by simp, ?_,
        fun env henv => ?_⟩
      · simp only [request, hread, hroute]
      · rintro x ⟨⟩
        rfl
      · obtain ⟨htable, -, -⟩ := henv _ rfl
        simp only [serveRound, hread, exchange, htable, hroute]
    | some action =>
      cases hselect : action.targetGroup.select ticket with
      | none =>
        refine .inl ⟨some ⟨w.table, ticket, none⟩, .failed, ?_, by simp, ?_, fun env henv => ?_⟩
        · simp only [request, hread, hroute, hselect]
        · rintro x ⟨⟩
          rfl
        · obtain ⟨htable, hticket, -⟩ := henv _ rfl
          simp only [serveRound, hread, exchange, htable, hroute, hticket, hselect]
      | some target =>
        refine .inr ⟨⟨s, src, buf, filled, head, w.table, ticket, target.address⟩, rfl, rfl,
          ⟨hread, action, target, hroute, hselect, rfl⟩, ?_⟩
        rcases htake : w.pool.take target.address now with ⟨_ | upstream, pool⟩
        · right
          simp only [request, hread, hroute, hselect, htake]
        · exact .inl ⟨upstream, pool, rfl, by simp only [request, hread, hroute, hselect, htake]⟩
  | upgrade buffered src =>
    refine .inl ⟨none, .upgraded buffered src, ?_, by simp, by simp, fun env _ => ?_⟩
    · simp only [request, hread]
    · simp only [serveRound, hread]
  | reply response =>
    refine .inl ⟨none, .replied response, ?_, by simp, by simp, fun env _ => ?_⟩
    · simp only [request, hread]
    · simp only [serveRound, hread]
  | closed =>
    refine .inl ⟨none, .returned, ?_, by simp, by simp, fun env _ => ?_⟩
    · simp only [request, hread]
    · simp only [serveRound, hread]
  | failed =>
    refine .inl ⟨none, .failed, ?_, by simp, by simp, fun env _ => ?_⟩
    · simp only [request, hread]
    · simp only [serveRound, hread]
  | blocked => exact absurd hread hlive

/-- The steps that are enabled and what each of them does. -/
inductive Moves (hp : HeadParser) (forwardedHeaders : Bool) (w : Worker m) : WorkerEvent m → Worker m → Prop
  | publish (table : RouteTable m) : Moves hp forwardedHeaders w (.publish table) { w with table := table }
  | accept (client : Conn) (peer : PeerAddr) :
      Moves hp forwardedHeaders w (.accept client peer) { w with sessions := w.sessions ++ [.start client peer] }
  | stops (i ticket : ℕ) (now : ℕ → ℕ) (se : Session m) (s : ConnState) (supply : Option (Supply m))
      (ending : ServeEnd) (at_i : w.sessions[i]? = some se) (reading : se.task = .reading s)
      (live : pending hp forwardedHeaders se = false) (ends : ending ≠ .blocked)
      (supplied : ∀ x ∈ supply, x.table = w.table)
      (round : ∀ env : Env m, (∀ x ∈ supply, Supplies env s.served x) → serveRound hp env s = .stop [] ending) :
      Moves hp forwardedHeaders w (.request i ticket now)
        { w with sessions := w.sessions.set i (se.stop supply ending) }
  | takes (i ticket : ℕ) (now : ℕ → ℕ) (se : Session m) (r : Routed m) (upstream : Upstream)
      (pool : ConnectionPool Upstream) (at_i : w.sessions[i]? = some se) (reading : se.task = .reading r.state)
      (live : pending hp forwardedHeaders se = false) (table : r.table = w.table) (routed : RoutedFrom hp r) (take : w.pool.take r.address now = (some upstream, pool)) :
      Moves hp forwardedHeaders w (.request i ticket now)
        { w with sessions := w.sessions.set i { se with task := .exchanging r upstream }, pool := pool }
  | dials (i ticket : ℕ) (now : ℕ → ℕ) (se : Session m) (r : Routed m) (at_i : w.sessions[i]? = some se)
      (reading : se.task = .reading r.state) (live : pending hp forwardedHeaders se = false)
      (table : r.table = w.table) (routed : RoutedFrom hp r) :
      Moves hp forwardedHeaders w (.request i ticket now)
        { w with
          sessions := w.sessions.set i { se with task := .dialling r }, pool := (w.pool.take r.address now).2 }
  | connects (i : ℕ) (conn : Conn) (se : Session m) (r : Routed m) (at_i : w.sessions[i]? = some se)
      (dialling : se.task = .dialling r) :
      Moves hp forwardedHeaders w (.connected i (some conn))
        { w with
          sessions := w.sessions.set i { se with task := .exchanging r ⟨w.opened.length, conn⟩ }
          opened := w.opened ++ [r.address] }
  | refused (i : ℕ) (se : Session m) (r : Routed m) (at_i : w.sessions[i]? = some se)
      (dialling : se.task = .dialling r) :
      Moves hp forwardedHeaders w (.connected i none)
        { w with sessions := w.sessions.set i (se.stop (some ⟨r.table, r.ticket, none⟩) badGateway) }
  | finishes (i now : ℕ) (se : Session m) (r : Routed m) (upstream : Upstream)
      (at_i : w.sessions[i]? = some se) (exchanging : se.task = .exchanging r upstream)
      (live : pending hp forwardedHeaders se = false) :
      Moves hp forwardedHeaders w (.finish i now)
        { w with
          sessions := w.sessions.set i (finish hp forwardedHeaders w se r upstream now).1
          pool := (finish hp forwardedHeaders w se r upstream now).2 }

/-- A task whose read never completes waits for a head, or for the end of an exchange. -/
theorem pending_cases {se : Session m} (h : pending hp forwardedHeaders se = true) :
    (∃ s, se.task = .reading s ∧ readHead hp s.served s.downstream.source s.buf s.filled = .blocked) ∨
      ∃ r upstream, se.task = .exchanging r upstream ∧ exchange hp (envOf forwardedHeaders se r upstream.conn) r.state
        r.src r.buf r.filled r.head = .stop [] .blocked := by
  unfold pending at h
  split at h
  · rename_i s hread
    split at h
    · rename_i hblocked
      exact .inl ⟨s, hread, hblocked⟩
    · cases h
  · rename_i r upstream hex
    split at h
    · rename_i done hblocked
      obtain rfl := (exchange_blocked hblocked).1
      exact .inr ⟨r, upstream, hex, hblocked⟩
    · cases h
  · cases h
  · cases h

theorem readHead_of_live {se : Session m} {s : ConnState} (hread : se.task = .reading s)
    (hlive : pending hp forwardedHeaders se = false) :
    readHead hp s.served s.downstream.source s.buf s.filled ≠ .blocked := by
  intro hblocked
  simp [pending, hread, hblocked] at hlive

theorem exchange_of_live {se : Session m} {r : Routed m} {upstream : Upstream} (hex : se.task = .exchanging r upstream)
    (hlive : pending hp forwardedHeaders se = false) (done : List Exchange) :
    exchange hp (envOf forwardedHeaders se r upstream.conn) r.state r.src r.buf r.filled r.head ≠
      .stop done .blocked := by
  intro hblocked
  simp [pending, hex, hblocked] at hlive

/-- A step is one of the moves, or does nothing. -/
theorem moves_of_step (w : Worker m) (e : WorkerEvent m) :
    step hp forwardedHeaders w e = w ∨ Moves hp forwardedHeaders w e (step hp forwardedHeaders w e) := by
  cases e with
  | publish table => exact .inr (.publish table)
  | accept client peer => exact .inr (.accept client peer)
  | request i ticket now =>
    cases hse : w.sessions[i]? with
    | none => exact .inl (by simp only [step, hse])
    | some se =>
      cases hlive : pending hp forwardedHeaders se with
      | true => exact .inl (by simp only [step, hse, hlive, if_true])
      | false =>
      cases htask : se.task with
      | reading s =>
        right
        simp only [step, hse, hlive, htask, Bool.false_eq_true, if_false]
        rcases request_cases hp w se s ticket now (readHead_of_live hp forwardedHeaders htask hlive) with
          ⟨supply, ending, hreq, hends, htable, hround⟩ |
          ⟨r, rfl, htable, hrouted, ⟨upstream, pool, htake, hreq⟩ | hreq⟩
        · rw [hreq]
          exact .stops i ticket now se s supply ending hse htask hlive hends htable hround
        · rw [hreq]
          exact .takes i ticket now se r upstream pool hse htask hlive htable hrouted htake
        · rw [hreq]
          exact .dials i ticket now se r hse htask hlive htable hrouted
      | dialling | exchanging | ended =>
        exact .inl (by simp only [step, hse, hlive, htask, Bool.false_eq_true, if_false])
  | connected i conn =>
    cases hse : w.sessions[i]? with
    | none => exact .inl (by simp only [step, hse])
    | some se =>
      cases htask : se.task with
      | dialling r =>
        right
        simp only [step, hse, htask]
        cases conn with
        | some conn => exact .connects i conn se r hse htask
        | none => exact .refused i se r hse htask
      | reading s => exact .inl (by simp only [step, hse, htask])
      | exchanging r upstream => exact .inl (by simp only [step, hse, htask])
      | ended ending => exact .inl (by simp only [step, hse, htask])
  | finish i now =>
    cases hse : w.sessions[i]? with
    | none => exact .inl (by simp only [step, hse])
    | some se =>
      cases hlive : pending hp forwardedHeaders se with
      | true => exact .inl (by simp only [step, hse, hlive, if_true])
      | false =>
      cases htask : se.task with
      | exchanging r upstream =>
        right
        simp only [step, hse, hlive, htask, Bool.false_eq_true, if_false]
        exact .finishes i now se r upstream hse htask hlive
      | reading | dialling | ended =>
        exact .inl (by simp only [step, hse, hlive, htask, Bool.false_eq_true, if_false])

/-- **Every move keeps every upstream connection in one place.** -/
theorem Owned.moves {w w' : Worker m} {e : WorkerEvent m} (hw : Owned w) (h : Moves hp forwardedHeaders w e w') :
    Owned w' := by
  cases h with
  | publish table => exact ⟨hw.held_once, hw.held_busy, hw.idle_once, hw.held_address, hw.idle_address⟩
  | accept client peer =>
    have hkeeps : ∀ {j r upstream},
        Holds { w with sessions := w.sessions ++ [.start client peer] } j r upstream → w.Holds j r upstream := by
      rintro j r upstream ⟨se, hse, htask⟩
      rw [List.getElem?_append] at hse
      split at hse
      · exact ⟨se, hse, htask⟩
      · rw [List.mem_singleton.mp (List.mem_of_getElem? hse)] at htask
        cases htask
    exact ⟨fun h h' => hw.held_once (hkeeps h) (hkeeps h'), fun h => hw.held_busy (hkeeps h), hw.idle_once,
      fun h => hw.held_address (hkeeps h), hw.idle_address⟩
  | stops i ticket now se s supply ending hi =>
    exact hw.release (i := i) rfl (by rintro _ _ ⟨⟩) (fun _ => List.Sublist.refl _) rfl
  | dials i ticket now se r hi =>
    exact hw.release rfl (fun _ _ h => by cases h) (fun b => w.pool.idle_take_sublist r.address b now) rfl
  | refused i se r hi =>
    exact hw.release (i := i) rfl (by rintro _ _ ⟨⟩) (fun _ => List.Sublist.refl _) rfl
  | connects i conn se r hi =>
    -- the number is new
    have hnew : ∀ {n : ℕ} {a : Bytes}, w.opened[n]? = some a → n ≠ w.opened.length := by
      intro n a hn
      exact ((List.getElem?_eq_some_iff.mp hn).1).ne
    exact hw.acquire rfl rfl (fun _ => List.Sublist.refl _) (List.prefix_append _ _)
      (fun h => hnew (hw.held_address h)) (fun he => hnew (hw.idle_address he)) (by simp)
  | takes i ticket now se r upstream pool hi _ _ _ _ htake =>
    have hpool : ∀ a, (pool.idle a).Sublist (w.pool.idle a) := fun b => by
      have := w.pool.idle_take_sublist r.address b now
      rwa [htake] at this
    have htaken := ConnectionPool.take_some htake
    obtain ⟨entry, hentry, rfl⟩ : ∃ e ∈ w.pool.idle r.address, e.stream = upstream :=
      List.mem_map.mp (htaken.subset (by simp))
    refine hw.acquire rfl rfl hpool (List.prefix_refl _) (fun h hid => hw.held_busy h hentry hid.symm) ?_
      (hw.idle_address hentry)
    intro a e he hid
    have haddress := hw.idle_address ((hpool a).subset he)
    rw [hid, hw.idle_address hentry] at haddress
    obtain rfl := Option.some.inj haddress
    -- what is left of this address does not have the connection that was taken
    have honce := (hw.idle_once r.address).sublist htaken
    rw [List.pairwise_append] at honce
    exact honce.2.2 _ (List.mem_map_of_mem he) _ (List.mem_singleton_self _) hid
  | finishes i now se r upstream hi hex =>
    have hends : ∀ r' upstream', (finish hp forwardedHeaders w se r upstream now).1.task ≠
        .exchanging r' upstream' := by
      intro r' upstream' h
      simp only [finish, Session.advance] at h
      split at h <;> cases h
    cases hput : givenBack (exchange hp (envOf forwardedHeaders se r upstream.conn) r.state r.src r.buf r.filled
        r.head) with
    | none =>
      refine hw.release rfl hends (fun a => ?_) rfl
      simp only [finish, hput]
      exact List.Sublist.refl _
    | some conn =>
      have hpool : (finish hp forwardedHeaders w se r upstream now).2 =
          w.pool.put r.address ⟨upstream.id, conn⟩ now := by
        simp only [finish, hput]
      exact hw.giveBack ⟨se, hi, hex⟩ rfl hends hpool rfl

/-! ## Every task serves its connection as the sequential loop does -/

/-- The environment agrees with what the task was supplied with so far. -/
structure Extends (se : Session m) (env : Env m) : Prop where
  peer : env.peer = se.peer
  forwarded : env.forwardedHeaders = forwardedHeaders
  supplied : ∀ k supply, se.supplied[k]? = some supply → Supplies env k supply

/-- The environment that supplies what the task was supplied with, and this table for the requests after. -/
def suppliedEnv (se : Session m) (table : RouteTable m) : Env m :=
  ⟨fun k => (se.supplied[k]?).elim table (·.table), fun k => (se.supplied[k]?).elim 0 (·.ticket),
    fun k _ => (se.supplied[k]?).elim none (·.upstream), se.peer, forwardedHeaders⟩

theorem extends_suppliedEnv (se : Session m) (table : RouteTable m) :
    Extends forwardedHeaders se (suppliedEnv forwardedHeaders se table) := by
  refine ⟨rfl, rfl, fun k supply hk => ⟨?_, ?_, fun address => ?_⟩⟩ <;> simp [suppliedEnv, hk]

/-- The loop has done this already and goes on from the state. -/
def resumed (env : Env m) (done : List Exchange) (s : ConnState) : List Exchange × ServeEnd :=
  (done ++ (serveLoop hp env (MAX_REQUESTS_PER_CONNECTION - s.served) s).1,
    (serveLoop hp env (MAX_REQUESTS_PER_CONNECTION - s.served) s).2)

/-- The task waits in the loop of `serve_connection`, before this request. -/
structure Waits (se : Session m) (s : ConnState) : Prop where
  served : s.served = se.supplied.length
  more : s.served < MAX_REQUESTS_PER_CONNECTION
  loop : ∀ env, Extends forwardedHeaders se env → serveConnection hp env se.client = resumed hp env se.done s

/-- The task has done what `serve_connection` does in every environment that agrees with its supplies. -/
def Follows (se : Session m) : Prop :=
  match se.task with
  | .reading s => Waits hp forwardedHeaders se s
  | .dialling r | .exchanging r _ => Waits hp forwardedHeaders se r.state ∧ RoutedFrom hp r
  | .ended ending =>
    ending ≠ .blocked ∧ ∀ env, Extends forwardedHeaders se env → serveConnection hp env se.client = (se.done, ending)

variable {hp forwardedHeaders}

/-- An exchange looks at what the environment supplies for its own request only. -/
theorem exchange_congr {env env' : Env m} {s : ConnState} (src : Source) (buf : Buf) (filled : ℕ) (head : RequestHead)
    (htable : env.table s.served = env'.table s.served) (hticket : env.ticket s.served = env'.ticket s.served)
    (hupstream : env.upstream s.served = env'.upstream s.served) (hpeer : env.peer = env'.peer)
    (hforwarded : env.forwardedHeaders = env'.forwardedHeaders) :
    exchange hp env s src buf filled head = exchange hp env' s src buf filled head := by
  simp only [exchange, htable, hticket, hupstream, hpeer, hforwarded]

theorem Extends.earlier {se : Session m} {supply : List (Supply m)} {env : Env m}
    (h : Extends forwardedHeaders { se with supplied := se.supplied ++ supply } env) : Extends forwardedHeaders se env :=
  ⟨h.peer, h.forwarded, fun k sup hk =>
    h.supplied k sup (by rw [List.getElem?_append_left (List.getElem?_eq_some_iff.mp hk).1, hk])⟩

theorem Extends.forget {se : Session m} {task : Task m} {env : Env m}
    (h : Extends forwardedHeaders { se with task := task } env) : Extends forwardedHeaders se env :=
  ⟨h.peer, h.forwarded, h.supplied⟩

theorem Waits.waitFor {se : Session m} {s : ConnState} (h : Waits hp forwardedHeaders se s) (task : Task m) :
    Waits hp forwardedHeaders { se with task := task } s :=
  ⟨h.served, h.more, fun env henv => h.loop env henv.forget⟩

theorem Waits.stop {se : Session m} {s : ConnState} (h : Waits hp forwardedHeaders se s) {supply : List (Supply m)}
    {env : Env m} {done : List Exchange} {ending : ServeEnd}
    (henv : Extends forwardedHeaders { se with supplied := se.supplied ++ supply } env)
    (hround : serveRound hp env s = .stop done ending) :
    serveConnection hp env se.client = (se.done ++ done, ending) := by
  obtain ⟨fuel, hfuel⟩ : ∃ fuel, MAX_REQUESTS_PER_CONNECTION - s.served = fuel + 1 :=
    ⟨MAX_REQUESTS_PER_CONNECTION - s.served - 1, by have := h.more; omega⟩
  rw [h.loop env henv.earlier, resumed, hfuel, serveLoop, hround]

theorem Waits.next {se : Session m} {s s' : ConnState} (h : Waits hp forwardedHeaders se s) {supply : List (Supply m)}
    {env : Env m} {e : Exchange} (henv : Extends forwardedHeaders { se with supplied := se.supplied ++ supply } env)
    (hround : serveRound hp env s = .next e s') (hserved : s'.served = s.served + 1) :
    serveConnection hp env se.client = resumed hp env (se.done ++ [e]) s' := by
  have hfuel : MAX_REQUESTS_PER_CONNECTION - s.served = MAX_REQUESTS_PER_CONNECTION - s'.served + 1 := by
    have := h.more
    omega
  rw [h.loop env henv.earlier, resumed, hfuel, serveLoop, hround, resumed]
  simp

theorem Waits.supplies {se : Session m} {s : ConnState} (h : Waits hp forwardedHeaders se s) {supply : Supply m}
    {env : Env m} (henv : Extends forwardedHeaders { se with supplied := se.supplied ++ [supply] } env) :
    Supplies env s.served supply :=
  henv.supplied _ _ (by rw [h.served]; exact List.getElem?_concat_length)

theorem served_of_next {env : Env m} {s s' : ConnState} {src : Source} {buf : Buf} {filled : ℕ} {head : RequestHead}
    {e : Exchange} (h : exchange hp env s src buf filled head = .next e s') :
    s'.served = s.served + 1 ∧ s.served + 1 < MAX_REQUESTS_PER_CONNECTION := by
  have hmem : e ∈ exchanges (exchange hp env s src buf filled head) := by
    rw [h]
    exact List.mem_singleton_self e
  obtain ⟨_, _, _, _, outcome, -, -, -, -, -, hgo⟩ := exchange_cases hmem
  rw [h] at hgo
  by_cases hkeep : (keepsAlive s head && outcome.downstreamReusable) = true
  · rw [if_pos hkeep] at hgo
    obtain ⟨s'', hs'', -, hserved⟩ := hgo
    obtain ⟨-, rfl⟩ := Round.next.inj hs''
    have hkeeps : keepsAlive s head = true := (Bool.and_eq_true_iff.mp hkeep).1
    simp only [keepsAlive, Bool.and_eq_true, decide_eq_true_eq] at hkeeps
    exact ⟨hserved, hkeeps.2⟩
  · rw [if_neg hkeep] at hgo
    cases hgo

/-- An environment with the supply of the request sees the exchange that the task waits for. -/
theorem Waits.serveRound_eq {se : Session m} {r : Routed m} {upstream : Conn} {env : Env m}
    (h : Waits hp forwardedHeaders se r.state) (hrouted : RoutedFrom hp r) (henv : Extends forwardedHeaders
      { se with supplied := se.supplied ++ [⟨r.table, r.ticket, some upstream⟩] } env) :
    serveRound hp env r.state =
      exchange hp (envOf forwardedHeaders se r upstream) r.state r.src r.buf r.filled r.head := by
  obtain ⟨htable, hticket, hup⟩ := h.supplies henv
  simp only [serveRound, hrouted.read]
  exact exchange_congr r.src r.buf r.filled r.head htable hticket (funext hup) henv.peer henv.forwarded

/-- A task that waits for the exchange of its request finishes it as the loop does. -/
theorem Follows.advance {se : Session m} {r : Routed m} {upstream : Conn} (h : Waits hp forwardedHeaders se r.state)
    (hrouted : RoutedFrom hp r) (hlive : ∀ done, exchange hp (envOf forwardedHeaders se r upstream) r.state r.src r.buf
      r.filled r.head ≠ .stop done .blocked) :
    Follows hp forwardedHeaders (se.advance ⟨r.table, r.ticket, some upstream⟩
      (exchange hp (envOf forwardedHeaders se r upstream) r.state r.src r.buf r.filled r.head)) := by
  have hround := fun (env : Env m) (henv : Extends forwardedHeaders
    { se with supplied := se.supplied ++ [⟨r.table, r.ticket, some upstream⟩] } env) => h.serveRound_eq hrouted henv
  cases hex : exchange hp (envOf forwardedHeaders se r upstream) r.state r.src r.buf r.filled r.head with
  | stop done ending =>
    refine ⟨?_, fun env henv => ?_⟩
    · rintro rfl
      exact hlive done hex
    have henv' := (⟨henv.peer, henv.forwarded, henv.supplied⟩ : Extends forwardedHeaders
      { se with supplied := se.supplied ++ [⟨r.table, r.ticket, some upstream⟩] } env)
    exact h.stop henv' ((hround env henv').trans hex)
  | next e s' =>
    obtain ⟨hserved, hmore⟩ := served_of_next hex
    refine ⟨?_, hserved ▸ hmore, fun env henv => ?_⟩
    · simp only [Session.advance, List.length_append, List.length_singleton, hserved, h.served]
    · have henv' := (⟨henv.peer, henv.forwarded, henv.supplied⟩ : Extends forwardedHeaders
        { se with supplied := se.supplied ++ [⟨r.table, r.ticket, some upstream⟩] } env)
      exact h.next henv' ((hround env henv').trans hex) hserved

theorem Follows.done_prefix {se : Session m} {env : Env m} (h : Follows hp forwardedHeaders se)
    (henv : Extends forwardedHeaders se env) : se.done <+: (serveConnection hp env se.client).1 := by
  cases htask : se.task with
  | reading s =>
    rw [Follows, htask] at h
    rw [h.loop env henv]
    exact List.prefix_append _ _
  | dialling r =>
    rw [Follows, htask] at h
    rw [h.1.loop env henv]
    exact List.prefix_append _ _
  | exchanging r upstream =>
    rw [Follows, htask] at h
    rw [h.1.loop env henv]
    exact List.prefix_append _ _
  | ended ending =>
    rw [Follows, htask] at h
    rw [h.2 env henv]

/-- What a task is supplied with for the exchange that it waits for. -/
def current (se : Session m) : List (Supply m) :=
  match se.task with
  | .exchanging r upstream => [⟨r.table, r.ticket, some upstream.conn⟩]
  | .reading _ | .dialling _ | .ended _ => []

/-- A task whose read never completes has done what the loop does, which waits for ever as well. -/
theorem Follows.pending {se : Session m} {env : Env m} (h : Follows hp forwardedHeaders se)
    (hpending : pending hp forwardedHeaders se = true)
    (henv : Extends forwardedHeaders { se with supplied := se.supplied ++ current se } env) :
    serveConnection hp env se.client = (se.done, .blocked) := by
  rcases pending_cases hp forwardedHeaders hpending with ⟨s, hread, hblocked⟩ | ⟨r, upstream, hex, hblocked⟩
  · rw [Follows, hread] at h
    have hround : serveRound hp env s = .stop [] .blocked := by simp only [serveRound, hblocked]
    rw [h.stop henv hround, List.append_nil]
  · rw [Follows, hex] at h
    have hcurrent : current se = [⟨r.table, r.ticket, some upstream.conn⟩] := by simp only [current, hex]
    rw [hcurrent] at henv
    rw [h.1.stop henv ((h.1.serveRound_eq h.2 henv).trans hblocked), List.append_nil]

theorem Follows.start (client : Conn) (peer : PeerAddr) :
    Follows hp forwardedHeaders (Session.start client peer : Session m) := by
  have hmore : 0 < MAX_REQUESTS_PER_CONNECTION := by decide
  refine ⟨rfl, hmore, fun env _ => ?_⟩
  simp only [resumed, Session.start, ConnState.start, List.nil_append, Nat.sub_zero]
  rfl

/-- **Every move keeps the tasks in step with the loop.** -/
theorem follows_moves {w w' : Worker m} {e : WorkerEvent m} (h : Moves hp forwardedHeaders w e w')
    (hw : ∀ se ∈ w.sessions, Follows hp forwardedHeaders se) : ∀ se ∈ w'.sessions, Follows hp forwardedHeaders se := by
  have hset : ∀ {i : ℕ} {se : Session m}, Follows hp forwardedHeaders se →
      ∀ se' ∈ w.sessions.set i se, Follows hp forwardedHeaders se' := by
    intro i se hse se' hmem
    rcases List.mem_or_eq_of_mem_set hmem with hold | rfl
    · exact hw se' hold
    · exact hse
  cases h with
  | publish table => exact hw
  | accept client peer =>
    intro se hse
    rcases List.mem_append.mp hse with hold | hnew
    · exact hw se hold
    · rw [List.mem_singleton.mp hnew]
      exact .start client peer
  | stops i ticket now se s supply ending hi hread _ hends _ hround =>
    have hold := hw se (List.mem_of_getElem? hi)
    rw [Follows, hread] at hold
    refine hset ⟨hends, fun env henv => ?_⟩
    have henv' : Extends forwardedHeaders { se with supplied := se.supplied ++ supply.toList } env := henv.forget
    have hsupplied : ∀ x ∈ supply, Supplies env s.served x := by
      rintro x rfl
      exact hold.supplies henv'
    have hstop := hold.stop henv' (hround env hsupplied)
    rwa [List.append_nil] at hstop
  | takes i ticket now se r upstream pool hi hread _ htable hrouted =>
    have hold := hw se (List.mem_of_getElem? hi)
    rw [Follows, hread] at hold
    exact hset ⟨hold.waitFor _, hrouted⟩
  | dials i ticket now se r hi hread _ htable hrouted =>
    have hold := hw se (List.mem_of_getElem? hi)
    rw [Follows, hread] at hold
    exact hset ⟨hold.waitFor _, hrouted⟩
  | connects i conn se r hi hdial =>
    have hold := hw se (List.mem_of_getElem? hi)
    rw [Follows, hdial] at hold
    exact hset ⟨hold.1.waitFor _, hold.2⟩
  | refused i se r hi hdial =>
    have hold := hw se (List.mem_of_getElem? hi)
    rw [Follows, hdial] at hold
    refine hset ⟨by simp [badGateway], fun env henv => ?_⟩
    have henv' : Extends forwardedHeaders { se with supplied := se.supplied ++ [⟨r.table, r.ticket, none⟩] } env :=
      henv.forget
    obtain ⟨htable, hticket, hup⟩ := hold.1.supplies henv'
    obtain ⟨action, target, hroute, hselect, haddress⟩ := hold.2.selected
    have hround : serveRound hp env r.state = .stop [] badGateway := by
      simp only [serveRound, hold.2.read, exchange, htable, hroute, hticket, hselect, hup]
      rfl
    have hstop := hold.1.stop henv' hround
    rwa [List.append_nil] at hstop
  | finishes i now se r upstream hi hex hlive =>
    have hold := hw se (List.mem_of_getElem? hi)
    rw [Follows, hex] at hold
    exact hset (Follows.advance hold.1 hold.2 (exchange_of_live hp forwardedHeaders hex hlive))

/-- The tables that a task got so far. -/
def tables (se : Session m) : List (RouteTable m) :=
  se.supplied.map (·.table) ++
    match se.task with
    | .dialling r | .exchanging r _ => [r.table]
    | .reading _ | .ended _ => []

theorem mem_tables {se : Session m} {supply : Supply m} (h : supply ∈ se.supplied ++ current se) :
    supply.table ∈ tables se := by
  rcases List.mem_append.mp h with hold | hnew
  · exact List.mem_append_left _ (List.mem_map_of_mem hold)
  · unfold current at hnew
    split at hnew
    · rename_i r upstream hex
      obtain rfl := List.mem_singleton.mp hnew
      simp [tables, hex]
    · cases hnew
    · cases hnew
    · cases hnew

/-- The published table and those that the tasks got are among these. -/
def Among (P : RouteTable m → Prop) (w : Worker m) : Prop :=
  P w.table ∧ ∀ se ∈ w.sessions, ∀ table ∈ tables se, P table

theorem tables_advance (se : Session m) (supply : Supply m) (round : Round) :
    tables (se.advance supply round) = se.supplied.map (·.table) ++ [supply.table] := by
  cases round <;> simp [tables, Session.advance]

theorem tables_stop (se : Session m) (supply : Option (Supply m)) (ending : ServeEnd) :
    tables (se.stop supply ending) = se.supplied.map (·.table) ++ (supply.map (·.table)).toList := by
  cases supply <;> simp [tables, Session.stop]

theorem Among.moves {P : RouteTable m → Prop} {w w' : Worker m} {e : WorkerEvent m}
    (h : Moves hp forwardedHeaders w e w') (hw : Among P w) (he : ∀ table, e = .publish table → P table) :
    Among P w' := by
  have hset : ∀ {i : ℕ} {se se' : Session m}, w.sessions[i]? = some se →
      (∀ table ∈ tables se', table ∈ tables se ∨ table = w.table) →
        ∀ x ∈ w.sessions.set i se', ∀ table ∈ tables x, P table := by
    intro i se se' hi hse x hx table htable
    rcases List.mem_or_eq_of_mem_set hx with hold | rfl
    · exact hw.2 x hold table htable
    · rcases hse table htable with hold | rfl
      · exact hw.2 se (List.mem_of_getElem? hi) table hold
      · exact hw.1
  cases h with
  | publish table => exact ⟨he table rfl, hw.2⟩
  | accept client peer =>
    refine ⟨hw.1, fun se hse table htable => ?_⟩
    rcases List.mem_append.mp hse with hold | hnew
    · exact hw.2 se hold table htable
    · rw [List.mem_singleton.mp hnew] at htable
      simp [tables, Session.start] at htable
  | stops i ticket now se s supply ending hi hread _ _ hsupply =>
    refine ⟨hw.1, hset hi fun table htable => ?_⟩
    rw [tables_stop] at htable
    rcases List.mem_append.mp htable with hold | hnew
    · exact .inl (List.mem_append_left _ hold)
    · obtain ⟨x, hx, rfl⟩ := Option.map_eq_some_iff.mp (Option.mem_toList.mp hnew)
      exact .inr (hsupply x hx)
  | takes i ticket now se r upstream pool hi hread _ htable =>
    refine ⟨hw.1, hset hi fun table hmem => ?_⟩
    rcases List.mem_append.mp hmem with hold | hnew
    · exact .inl (List.mem_append_left _ hold)
    · exact .inr ((List.mem_singleton.mp hnew).trans htable)
  | dials i ticket now se r hi hread _ htable =>
    refine ⟨hw.1, hset hi fun table hmem => ?_⟩
    rcases List.mem_append.mp hmem with hold | hnew
    · exact .inl (List.mem_append_left _ hold)
    · exact .inr ((List.mem_singleton.mp hnew).trans htable)
  | connects i conn se r hi hdial =>
    refine ⟨hw.1, hset hi fun table hmem => .inl ?_⟩
    rw [tables, hdial]
    exact hmem
  | refused i se r hi hdial =>
    refine ⟨hw.1, hset hi fun table hmem => .inl ?_⟩
    rw [tables_stop] at hmem
    rw [tables, hdial]
    exact hmem
  | finishes i now se r upstream hi hex =>
    refine ⟨hw.1, hset hi fun table hmem => .inl ?_⟩
    rw [finish, tables_advance] at hmem
    rw [tables, hex]
    exact hmem

/-- The tables that a run publishes, the first one included. -/
def published (table : RouteTable m) (events : List (WorkerEvent m)) : List (RouteTable m) :=
  table :: events.filterMap fun
    | .publish table => some table
    | _ => none

variable (hp forwardedHeaders) in
/-- What the moves keep holds in every state that a worker reaches. -/
theorem run_invariant {I : Worker m → Prop} {events : List (WorkerEvent m)} {w : Worker m}
    (hmove : ∀ w w' e, e ∈ events → Moves hp forwardedHeaders w e w' → I w → I w') (hw : I w) :
    I (run hp forwardedHeaders w events) := by
  induction events generalizing w with
  | nil => exact hw
  | cons e events ih =>
    refine ih (fun w w' e' he' => hmove w w' e' (List.mem_cons_of_mem _ he')) ?_
    rcases moves_of_step hp forwardedHeaders w e with h | h
    · rw [h]
      exact hw
    · exact hmove w _ e (by simp) h hw

variable (hp forwardedHeaders)

/-- Every task of a run has done what the serve loop does. -/
theorem follows_run (table : RouteTable m) (events : List (WorkerEvent m)) :
    ∀ se ∈ (run hp forwardedHeaders (start table) events).sessions, Follows hp forwardedHeaders se :=
  run_invariant hp forwardedHeaders (I := fun w => ∀ se ∈ w.sessions, Follows hp forwardedHeaders se)
    (fun _ _ _ _ h hw => follows_moves h hw) (by simp [start])

/-- **No upstream connection is ever used by two requests at once.**  In every interleaving of the tasks of a worker:
a connection that a task holds is held by no other task and is not idle; none is idle twice; and each was opened for
the address that its request was routed to, or that it is idle under. -/
theorem upstreams_owned_once (table : RouteTable m) (events : List (WorkerEvent m)) :
    Owned (run hp forwardedHeaders (start table) events) :=
  run_invariant hp forwardedHeaders (fun _ _ _ _ h hw => hw.moves hp forwardedHeaders h) (owned_start table)

/-- **Every task of a worker serves its client as the sequential loop does.**  In every interleaving there is, for
each task, an environment of tables published in the run with which `serveConnection` does what the task has done:
it is all of it when the task has ended, or when its read never completes, and its first exchanges before. -/
theorem session_serves (table : RouteTable m) (events : List (WorkerEvent m)) :
    ∀ se ∈ (run hp forwardedHeaders (start table) events).sessions,
      ∃ env : Env m, Extends forwardedHeaders se env ∧ (∀ k, env.table k ∈ published table events) ∧
        se.done <+: (serveConnection hp env se.client).1 ∧
          (∀ ending, se.task = .ended ending → serveConnection hp env se.client = (se.done, ending)) ∧
            (pending hp forwardedHeaders se = true → serveConnection hp env se.client = (se.done, .blocked)) := by
  intro se hse
  have hamong : Among (· ∈ published table events) (run hp forwardedHeaders (start table) events) := by
    refine run_invariant hp forwardedHeaders ?_ ⟨by simp [start, published], by simp [start]⟩
    refine fun _ _ _ he h hw => hw.moves h fun table' htable' => ?_
    subst htable'
    exact List.mem_cons_of_mem _ (List.mem_filterMap.mpr ⟨_, he, rfl⟩)
  have hfollows := follows_run hp forwardedHeaders table events se hse
  have htables := hamong.2 se hse
  have hlater := extends_suppliedEnv forwardedHeaders { se with supplied := se.supplied ++ current se } table
  have henv := hlater.earlier
  refine ⟨_, henv, fun k => ?_, ?_, fun ending hended => ?_, fun hpending => hfollows.pending hpending hlater⟩
  · cases hk : (se.supplied ++ current se)[k]? with
    | none => simp [suppliedEnv, hk, published]
    | some supply =>
      have hmem := mem_tables (List.mem_of_getElem? hk)
      simpa [suppliedEnv, hk] using htables _ hmem
  · exact hfollows.done_prefix henv
  · rw [Follows, hended] at hfollows
    exact hfollows.2 _ henv

/-- A table is published, and a client's request is exchanged over a connection that is opened for it. -/
def exchangedRun : List (WorkerEvent PathRouter.reference) :=
  [.publish (RouteTableBuilder.buildAll _ [sampleSpecAll]),
    .accept ⟨⟨[ascii "GET / HTTP/1.1\r\n\r\n"], .idle, false⟩, ⟨[], none⟩⟩ .sample, .request 0 7 fun _ => 0,
    .connected 0 (some ⟨⟨[ascii "HTTP/1.1 204 No Content\r\n\r\n"], .idle, false⟩, ⟨[], none⟩⟩), .finish 0 3]

theorem session_serves_exchanged :
    ∃ se ∈ (run .reference true (start (RouteTableBuilder.buildAll _ [])) exchangedRun).sessions, se.done.length = 1 ∧
      ∃ env : Env PathRouter.reference, Extends true se env ∧ se.done <+: (serveConnection .reference env se.client).1 := by
  have hdone : ((run .reference true (start (RouteTableBuilder.buildAll _ [])) exchangedRun).sessions[0]?).map
      (·.done.length) = some 1 := by decide +kernel
  obtain ⟨se, hse, hlen⟩ := Option.map_eq_some_iff.mp hdone
  have hmem := List.mem_of_getElem? hse
  obtain ⟨env, hextends, -, hserves, -⟩ :=
    session_serves .reference true (RouteTableBuilder.buildAll _ []) exchangedRun se hmem
  exact ⟨se, hmem, hlen, env, hextends, hserves⟩

end Worker

end LbProxy.Monoio
