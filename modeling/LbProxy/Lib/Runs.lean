import Mathlib.Data.List.Basic

/-!
# Runs of a deterministic machine

* `EveryStep` — every event of a run meets a condition in the state before it;
* `EveryStep.invariant` — what such events preserve holds in the state that the run reaches;
* `getElem?_set_cases` — the components of a state in which one was replaced.
-/

namespace LbProxy.Lib

variable {S E : Type} (step : S → E → S) (P : S → E → Prop)

/-- Every event of the run meets the condition in the state before it. -/
def EveryStep (s : S) : List E → Prop
  | [] => True
  | e :: events => P s e ∧ EveryStep (step s e) events

variable {step P}

/-- **An invariant of the events that meet the condition holds after every run of them.** -/
theorem EveryStep.invariant {I : S → Prop} (hstep : ∀ s e, P s e → I s → I (step s e)) {s : S}
    {events : List E} (h : EveryStep step P s events) (hs : I s) : I (events.foldl step s) := by
  induction events generalizing s with
  | nil => exact hs
  | cons e events ih => exact ih h.2 (hstep s e h.1 hs)

theorem EveryStep.and_forall {Q : E → Prop} {s : S} {events : List E} (h : EveryStep step P s events)
    (hq : ∀ e ∈ events, Q e) : EveryStep step (fun s e => P s e ∧ Q e) s events := by
  induction events generalizing s with
  | nil => trivial
  | cons e events ih =>
    exact ⟨⟨h.1, hq e (by simp)⟩, ih h.2 fun e' he' => hq e' (List.mem_cons_of_mem _ he')⟩

/-- A component of a state in which one was replaced is the new one, or another one as before. -/
theorem getElem?_set_cases {α : Type} {l : List α} {i j : ℕ} {a b : α} (h : (l.set i a)[j]? = some b) :
    (j = i ∧ b = a) ∨ (j ≠ i ∧ l[j]? = some b) := by
  rw [List.getElem?_set] at h
  by_cases hij : i = j
  · rw [if_pos hij] at h
    split at h
    · exact .inl ⟨hij.symm, (Option.some.inj h).symm⟩
    · cases h
  · rw [if_neg hij] at h
    exact .inr ⟨Ne.symm hij, h⟩

end LbProxy.Lib
