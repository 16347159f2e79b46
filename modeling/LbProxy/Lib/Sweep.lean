import Mathlib.Data.List.Forall2
import Mathlib.Data.List.Nodup
import Mathlib.Data.List.Perm.Basic
import Mathlib.Tactic.Common

/-!
# Loops with effects, and their results

* `attempt` — the error of a computation as a value, for what has to happen in any case;
* `Sweep` — a computation returned for one element after another, the states in between included;
* `sweep_of_mapM`, `sweep_of_flatMapM` — what a loop, and a loop of loops, has done when it returns;
* `perm_zipWith_of_keys` — a search by key pairs off the results of two sweeps, in whatever order they are.
-/

namespace LbProxy.Lib

namespace Effect

variable {ε σ α β γ : Type}

/-! ## Sequences -/

theorem bind_eq_ok {x : EStateM ε σ α} {f : α → EStateM ε σ β} {s s'' : σ} {b : β} :
    (x >>= f) s = .ok b s'' ↔ ∃ a s', x s = .ok a s' ∧ f a s' = .ok b s'' := by
  change EStateM.bind x f s = .ok b s'' ↔ _
  unfold EStateM.bind
  cases x s <;> simp

theorem pure_eq_ok {a b : α} {s s' : σ} : (pure a : EStateM ε σ α) s = .ok b s' ↔ a = b ∧ s = s' := by
  change EStateM.Result.ok a s = .ok b s' ↔ _
  rw [EStateM.Result.ok.injEq]

theorem modify_eq_ok {g : σ → σ} {s s' : σ} {u : PUnit} :
    (modify g : EStateM ε σ PUnit) s = .ok u s' ↔ g s = s' := by
  change EStateM.Result.ok _ (g s) = .ok u s' ↔ _
  rw [EStateM.Result.ok.injEq, and_iff_right rfl]

/-- The error of a computation as a value. -/
def attempt (x : EStateM ε σ α) : EStateM ε σ (Except ε α) := fun s =>
  match x s with
  | .ok a s' => .ok (.ok a) s'
  | .error e s' => .ok (.error e) s'

theorem attempt_eq_ok {x : EStateM ε σ α} {s s' : σ} {a : α} :
    attempt x s = .ok (.ok a) s' ↔ x s = .ok a s' := by
  unfold attempt
  cases x s <;> simp

theorem attempt_eq_error {x : EStateM ε σ α} {s s' : σ} {e : ε} :
    attempt x s = .ok (.error e) s' ↔ x s = .error e s' := by
  unfold attempt
  cases x s <;> simp

/-- The value of an attempt, or its error thrown again. -/
def resume : Except ε α → EStateM ε σ α
  | .ok a => pure a
  | .error e => throw e

theorem resume_eq_ok {r : Except ε α} {s s' : σ} {a : α} :
    (resume r : EStateM ε σ α) s = .ok a s' ↔ r = .ok a ∧ s = s' := by
  cases r with
  | ok b => rw [resume, pure_eq_ok, Except.ok.injEq]
  | error e =>
    constructor
    · intro h
      cases h
    · rintro ⟨h, -⟩
      cases h

end Effect

/-! ## Loops -/

open Effect

/-- `f` returned for the elements of the list, one after another, from state to state. -/
inductive Sweep {ε σ α β : Type} (f : α → EStateM ε σ β) : σ → List α → List β → σ → Prop
  | nil (s : σ) : Sweep f s [] [] s
  | cons {s t u : σ} {x : α} {y : β} {xs : List α} {ys : List β} :
    f x s = .ok y t → Sweep f t xs ys u → Sweep f s (x :: xs) (y :: ys) u

namespace Sweep

variable {ε σ α β γ : Type} {f : α → EStateM ε σ β} {s t u : σ} {xs xs' : List α} {ys ys' : List β}

theorem append (h : Sweep f s xs ys t) (h' : Sweep f t xs' ys' u) : Sweep f s (xs ++ xs') (ys ++ ys') u := by
  induction h with
  | nil s => exact h'
  | cons hx _ ih => exact .cons hx (ih h')

theorem of_map {g : γ → α} {zs : List γ} (h : Sweep (fun z => f (g z)) s zs ys t) : Sweep f s (zs.map g) ys t := by
  induction h with
  | nil s => exact .nil s
  | cons hx _ ih => exact .cons hx ih

theorem map_eq {κ : Type} {key : β → κ} {key' : α → κ} (hf : ∀ {x s y t}, f x s = .ok y t → key y = key' x)
    (h : Sweep f s xs ys t) : ys.map key = xs.map key' := by
  induction h with
  | nil s => rfl
  | cons hx _ ih => rw [List.map_cons, List.map_cons, hf hx, ih]

theorem forall_mem {P : β → Prop} (hf : ∀ {x s y t}, f x s = .ok y t → P y) (h : Sweep f s xs ys t) :
    ∀ y ∈ ys, P y := by
  induction h with
  | nil s => exact List.forall_mem_nil _
  | cons hx _ ih => exact List.forall_mem_cons.mpr ⟨hf hx, ih⟩

end Sweep

section Loops

variable {ε σ α β γ : Type} {s t : σ}

theorem sweep_of_mapM {f : α → EStateM ε σ β} {xs : List α} {ys : List β} (h : xs.mapM f s = .ok ys t) :
    Sweep f s xs ys t := by
  induction xs generalizing s ys with
  | nil =>
    rw [List.mapM_nil, pure_eq_ok] at h
    obtain ⟨rfl, rfl⟩ := h
    exact .nil s
  | cons x xs ih =>
    simp only [List.mapM_cons, bind_eq_ok, pure_eq_ok] at h
    obtain ⟨y, s', hx, ys, s'', hxs, rfl, rfl⟩ := h
    exact .cons hx (ih hxs)

/-- What a loop of loops has done when it returns, where each of its loops is a sweep. -/
theorem sweep_of_flatMapM {f : α → EStateM ε σ (List β)} {g : γ → EStateM ε σ β} {items : α → List γ}
    (hf : ∀ {x s ys t}, f x s = .ok ys t → Sweep g s (items x) ys t) {xs : List α} {ys : List β}
    (h : xs.flatMapM f s = .ok ys t) : Sweep g s (xs.flatMap items) ys t := by
  induction xs generalizing s ys with
  | nil =>
    rw [List.flatMapM_nil, pure_eq_ok] at h
    obtain ⟨rfl, rfl⟩ := h
    exact .nil s
  | cons x xs ih =>
    simp only [List.flatMapM_cons, bind_eq_ok, pure_eq_ok] at h
    obtain ⟨y, s', hx, ys, s'', hxs, rfl, rfl⟩ := h
    rw [List.flatMap_cons]
    exact (hf hx).append (ih hxs)

end Loops

/-! ## Pairs -/

section Pairs

variable {α β γ κ : Type}

theorem filterMap_eq_zipWith {F : α → Option γ} {g : α → β → γ} {as : List α} {bs : List β}
    (h : List.Forall₂ (fun a b => F a = some (g a b)) as bs) : as.filterMap F = List.zipWith g as bs := by
  induction h with
  | nil => rfl
  | cons hab _ ih => rw [List.filterMap_cons_some hab, List.zipWith_cons_cons, ih]

theorem find?_of_nodup_keys [DecidableEq κ] {key : β → κ} {bs : List β} (hnodup : (bs.map key).Nodup) {b : β}
    (hb : b ∈ bs) : bs.find? (fun y => key y = key b) = some b := by
  have hsome : (bs.find? fun y => key y = key b).isSome := by
    rw [List.find?_isSome]
    exact ⟨b, hb, by simp⟩
  obtain ⟨y, hy⟩ := Option.isSome_iff_exists.mp hsome
  have hkey : key y = key b := by simpa using List.find?_some hy
  rw [hy, List.inj_on_of_nodup_map hnodup (List.mem_of_find?_eq_some hy) hb hkey]

/-- **A search by key pairs off two lists with the same keys**, in whatever order the lists are searched. -/
theorem perm_zipWith_of_keys [DecidableEq κ] {key : α → κ} (g : α → α → γ) {as bs as' bs' : List α}
    (hkeys : bs.map key = as.map key) (hnodup : (as.map key).Nodup) (has : as'.Perm as) (hbs : bs'.Perm bs) :
    (as'.filterMap fun a => (bs'.find? fun b => key b = key a).map (g a)).Perm (List.zipWith g as bs) := by
  have hnodup' : (bs'.map key).Nodup := (hbs.map key).nodup_iff.mpr (hkeys ▸ hnodup)
  refine (has.filterMap _).trans (List.Perm.of_eq (filterMap_eq_zipWith ?_))
  have hmem : ∀ b ∈ bs, b ∈ bs' := fun b hb => hbs.mem_iff.mpr hb
  have hforall : List.Forall₂ (fun a b => key b = key a) as bs := by
    have heq := List.forall₂_eq_eq_eq.symm ▸ hkeys
    exact (List.forall₂_map_right_iff.mp (List.forall₂_map_left_iff.mp heq)).flip
  clear hnodup has hbs hkeys
  -- the element with the key of `a` is the one behind it
  induction hforall with
  | nil => exact .nil
  | @cons a b as bs hab _ ih =>
    refine .cons ?_ (ih fun b hb => hmem b (List.mem_cons_of_mem _ hb))
    rw [← hab, find?_of_nodup_keys hnodup' (hmem b List.mem_cons_self), Option.map_some]

end Pairs

end LbProxy.Lib
