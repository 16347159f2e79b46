import Mathlib.Data.List.Induction

/-!
# Edits of a list of values

What a sequence of edits (set, add, remove) leaves of the values of one key.

* `run_batch` — a batch in the order sets, adds, removes: a removal leaves nothing, otherwise the last set replaces the
  values and the added ones stand behind;
* `Overwrites` — the edits give the key these values, whatever it had; `run_eq_self_iff`, `run_eq_nil_iff` — when a
  sequence leaves the values as they are, and when it leaves none.
-/

namespace LbProxy.Lib

variable {V : Type}

/-- An edit of the values of one key. -/
inductive Edit (V : Type) where
  | set (v : V)
  | add (v : V)
  | remove

namespace Edit

def act (values : List V) : Edit V → List V
  | .set v => [v]
  | .add v => values ++ [v]
  | .remove => []

/-- One edit after the other. -/
def run (edits : List (Edit V)) (values : List V) : List V := edits.foldl act values

@[simp] theorem run_nil (values : List V) : run [] values = values := rfl

@[simp] theorem run_cons (e : Edit V) (edits : List (Edit V)) (values : List V) :
    run (e :: edits) values = run edits (act values e) := rfl

theorem run_append (a b : List (Edit V)) (values : List V) : run (a ++ b) values = run b (run a values) :=
  List.foldl_append

theorem run_sets (vs values : List V) : run (vs.map .set) values = (vs.getLast?.map fun v => [v]).getD values := by
  induction vs using List.reverseRecOn with
  | nil => rfl
  | append_singleton vs v _ => simp [run_append, act]

theorem run_adds (vs values : List V) : run (vs.map .add) values = values ++ vs := by
  induction vs generalizing values with
  | nil => simp
  | cons v vs ih => simp [ih, act]

theorem run_removes (k : ℕ) (values : List V) : run (List.replicate k .remove) values = if k = 0 then values else [] := by
  induction k generalizing values with
  | zero => rfl
  | succ k ih => simp [List.replicate_succ, ih, act]

/-- **A batch of edits.** -/
theorem run_batch (sets adds : List V) (k : ℕ) (values : List V) :
    run (sets.map .set ++ adds.map .add ++ List.replicate k .remove) values =
      if k = 0 then (sets.getLast?.map fun v => [v]).getD values ++ adds else [] := by
  rw [run_append, run_append, run_sets, run_adds, run_removes]

/-- The edit replaces the values, or removes them. -/
def replaces : Edit V → Bool
  | .add _ => false
  | _ => true

/-- The edits give the key these values, whatever it had. -/
def Overwrites (edits : List (Edit V)) (values : List V) : Prop :=
  (∃ e ∈ edits, e.replaces = true) ∧ run edits [] = values

theorem run_of_replaces {edits : List (Edit V)} (h : ∃ e ∈ edits, e.replaces = true) (a b : List V) :
    run edits a = run edits b := by
  induction edits generalizing a b with
  | nil => simp at h
  | cons e edits ih =>
    by_cases hrest : ∃ e ∈ edits, e.replaces = true
    · exact ih hrest _ _
    · have he : e.replaces = true := by
        obtain ⟨e', he', hr⟩ := h
        rcases List.mem_cons.mp he' with rfl | hmem
        · exact hr
        · exact absurd ⟨e', hmem, hr⟩ hrest
      cases e with
      | set v => rfl
      | add v => cases he
      | remove => rfl

theorem run_of_adds {edits : List (Edit V)} (h : ¬ ∃ e ∈ edits, e.replaces = true) (values : List V) :
    ∃ vs : List V, vs.length = edits.length ∧ run edits values = values ++ vs := by
  induction edits generalizing values with
  | nil => exact ⟨[], rfl, by simp⟩
  | cons e edits ih =>
    cases e with
    | set v => exact absurd ⟨_, List.mem_cons_self, rfl⟩ h
    | remove => exact absurd ⟨_, List.mem_cons_self, rfl⟩ h
    | add v =>
      obtain ⟨vs, hlen, hrun⟩ := ih (fun ⟨e, he, hr⟩ => h ⟨e, List.mem_cons_of_mem _ he, hr⟩) (values ++ [v])
      exact ⟨v :: vs, by simp [hlen], by rw [run_cons, act, hrun, List.append_assoc, List.singleton_append]⟩

/-- **Edits leave the values as they are** if there are none, or they give the key just these. -/
theorem run_eq_self_iff {edits : List (Edit V)} {values : List V} :
    run edits values = values ↔ edits = [] ∨ Overwrites edits values := by
  by_cases h : ∃ e ∈ edits, e.replaces = true
  · have hne : edits ≠ [] := by
      rintro rfl
      simp at h
    simp only [Overwrites, h, hne, true_and, false_or]
    rw [run_of_replaces h values []]
  · obtain ⟨vs, hlen, hrun⟩ := run_of_adds h values
    rw [hrun, List.append_right_eq_self, ← List.length_eq_zero_iff, hlen, List.length_eq_zero_iff]
    simp [Overwrites, h]

/-- **Edits leave no value** if there are none and the key has none, or they remove what it has. -/
theorem run_eq_nil_iff {edits : List (Edit V)} {values : List V} :
    run edits values = [] ↔ (edits = [] ∧ values = []) ∨ Overwrites edits [] := by
  by_cases h : ∃ e ∈ edits, e.replaces = true
  · have hne : edits ≠ [] := by
      rintro rfl
      simp at h
    simp only [Overwrites, h, hne, false_and, true_and, false_or]
    rw [run_of_replaces h values []]
  · obtain ⟨vs, hlen, hrun⟩ := run_of_adds h values
    rw [hrun, List.append_eq_nil_iff, and_comm, ← List.length_eq_zero_iff (l := vs), hlen, List.length_eq_zero_iff]
    simp [Overwrites, h]

end Edit

end LbProxy.Lib
