import Mathlib.Data.List.Basic
import Mathlib.Logic.Function.Basic

/-!
# Hashing by mixing words into a state

* `Mixer` — a step that loses nothing, of the state or of the word;
* `absorb_injective` — then neither does a sequence of words lose anything of the state;
* `absorb_ne_of_one` — and two sequences of words that differ at one position never end in the same state;
* `rotateLeft_injective`, `mul_injective` — steps of such a mixer.
-/

namespace LbProxy.Lib

open Function

/-- A step that loses nothing, of the state or of the word. -/
structure Mixer (σ ω : Type) where
  step : σ → ω → σ
  keeps_state : ∀ w, Injective fun s => step s w
  keeps_word : ∀ s, Injective (step s)

/-- Sequences of one length that differ at the position `k` and nowhere else. -/
structure DifferAt {ω : Type} (a b : List ω) (k : ℕ) : Prop where
  length : a.length = b.length
  here : a[k]? ≠ b[k]?
  elsewhere : ∀ j ≠ k, a[j]? = b[j]?

namespace Mixer

variable {σ ω : Type} (mx : Mixer σ ω)

def absorb (s : σ) (words : List ω) : σ := words.foldl mx.step s

theorem absorb_append (s : σ) (a b : List ω) : mx.absorb s (a ++ b) = mx.absorb (mx.absorb s a) b := List.foldl_append

/-- **What is behind never merges two states.** -/
theorem absorb_injective (words : List ω) : Injective fun s => mx.absorb s words := by
  induction words with
  | nil => exact fun _ _ h => h
  | cons w words ih => exact fun s s' h => mx.keeps_state w (ih h)

theorem absorb_ne_of_word {pre post : List ω} {w w' : ω} (hne : w ≠ w') (s : σ) :
    mx.absorb s (pre ++ w :: post) ≠ mx.absorb s (pre ++ w' :: post) := by
  intro h
  rw [absorb_append, absorb_append] at h
  exact hne (mx.keeps_word _ (mx.absorb_injective post h))

/-- **Sequences that differ at one position end in different states.** -/
theorem absorb_ne_of_one {a b : List ω} {k : ℕ} (h : DifferAt a b k) (s : σ) : mx.absorb s a ≠ mx.absorb s b := by
  have hka : k < a.length := by
    by_contra hk
    exact h.here (by rw [List.getElem?_eq_none (by omega), List.getElem?_eq_none (by rw [← h.length]; omega)])
  have hkb : k < b.length := h.length ▸ hka
  have htake : a.take k = b.take k := by
    refine List.ext_getElem? fun j => ?_
    rw [List.getElem?_take, List.getElem?_take]
    split
    · exact h.elsewhere j (by omega)
    · rfl
  have hdrop : a.drop (k + 1) = b.drop (k + 1) := by
    refine List.ext_getElem? fun j => ?_
    rw [List.getElem?_drop, List.getElem?_drop]
    exact h.elsewhere _ (by omega)
  have hsplit : ∀ {l : List ω} (hl : k < l.length), l = l.take k ++ l[k] :: l.drop (k + 1) := fun hl => by
    rw [List.getElem_cons_drop, List.take_append_drop]
  have hne : a[k] ≠ b[k] := by
    intro heq
    exact h.here (by rw [List.getElem?_eq_getElem hka, List.getElem?_eq_getElem hkb, heq])
  rw [hsplit hka, hsplit hkb, htake, hdrop]
  exact mx.absorb_ne_of_word hne s

end Mixer

/-! ## Steps on words -/

theorem rotateLeft_injective {w : ℕ} (r : ℕ) : Injective fun x : BitVec w => x.rotateLeft r := by
  intro x y h
  -- a bit `j` of the result is the bit of the argument that moved there
  have hbit : ∀ j, (x.rotateLeft r).getLsbD j = (y.rotateLeft r).getLsbD j := fun j =>
    congrArg (fun v : BitVec w => v.getLsbD j) h
  refine BitVec.eq_of_getLsbD_eq fun i hi => ?_
  have hr : r % w < w := Nat.mod_lt _ (by omega)
  rcases Nat.lt_or_ge (i + r % w) w with hlt | hge
  · have hmoved := hbit (i + r % w)
    have hlow : ¬ i + r % w < r % w := by omega
    simpa [hlow, hlt, ← BitVec.getLsbD_eq_getElem] using hmoved
  · have hmoved := hbit (i + r % w - w)
    have hlow : i + r % w - w < r % w := by omega
    have hback : w - r % w + (i + r % w - w) = i := by omega
    simpa [hlow, hback] using hmoved

theorem mul_injective {w : ℕ} {c d : BitVec w} (h : c * d = 1#w) : Injective fun x : BitVec w => x * c := by
  intro x y hxy
  have hback := congrArg (fun v => v * d) hxy
  simpa only [BitVec.mul_assoc, h, BitVec.mul_one] using hback

end LbProxy.Lib
