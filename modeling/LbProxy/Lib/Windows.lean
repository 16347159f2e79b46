import LbProxy.Lib.SmoothRoundRobin

/-!
# Short windows of a list that is repeated without end

* `lead` — how far the first positions are ahead of an element's share, which is periodic (`lead_turns`);
* `abs_window_lt` — bounds on the lead within one turn bound the error of every window.
-/

namespace LbProxy.Lib

variable {α : Type} [DecidableEq α]

/-- How far the first `n` positions are ahead of the share of `a`; a whole position counts as the length of the list. -/
def lead (l : List α) (a : α) (n : ℕ) : ℤ := countIn (cyclic l) 0 n (some a) * l.length - n * l.count a

theorem lead_of_le {l : List α} (a : α) {n : ℕ} (h : n ≤ l.length) :
    lead l a n = (l.take n).count a * l.length - n * l.count a := by
  have hmap : (List.range' 0 n).map (cyclic l) = (l.take n).map some := by
    refine List.ext_getElem (by simp [h]) ?_
    intro i h₁ h₂
    have hi : i < n := by simpa using h₁
    simp [cyclic, Nat.mod_eq_of_lt (lt_of_lt_of_le hi h), lt_of_lt_of_le hi h]
  have hcount : countIn (cyclic l) 0 n (some a) = (l.take n).count a := by
    calc countIn (cyclic l) 0 n (some a)
        = ((List.range' 0 n).map (cyclic l)).countP (fun x => decide (x = some a)) := by
          rw [List.countP_map]
          rfl
      _ = (l.take n).countP fun x => decide (some x = some a) := by
          rw [hmap, List.countP_map]
          rfl
      _ = (l.take n).count a := by
          rw [List.count]
          exact List.countP_congr fun x _ => by simp
  rw [lead, hcount]

theorem lead_turns (l : List α) (a : α) (turns r : ℕ) : lead l a (l.length * turns + r) = lead l a r := by
  have hshift : ∀ start n, countIn (cyclic l) (l.length * turns + start) n (some a) =
      countIn (cyclic l) start n (some a) := by
    intro start n
    unfold countIn
    rw [← List.map_add_range', List.countP_map]
    refine List.countP_congr fun i _ => ?_
    have hone : cyclic l (l.length * turns + i) = cyclic l i := by rw [cyclic, cyclic, Nat.mul_add_mod]
    rw [Function.comp_apply, hone]
  have hsplit : countIn (cyclic l) 0 (l.length * turns + r) (some a) =
      turns * l.count a + countIn (cyclic l) 0 r (some a) := by
    rw [countIn_add, countIn_cyclic, zero_add]
    exact congrArg _ (hshift 0 r)
  rw [lead, lead, hsplit]
  push_cast
  ring

/-- The error of a window is the lead that is gained in it. -/
theorem window_eq_lead (l : List α) (a : α) (start n : ℕ) :
    (countIn (cyclic l) start n (some a) : ℤ) * l.length - n * l.count a = lead l a (start + n) - lead l a start := by
  have hsplit := countIn_add (cyclic l) 0 start n (some a)
  rw [zero_add] at hsplit
  rw [lead, lead, hsplit]
  push_cast
  ring

/-- **Bounds within one turn bound every window.** -/
theorem abs_window_lt {l : List α} {a : α} {low high : ℤ} (hne : l ≠ [])
    (h : ∀ k ≤ l.length, -low < lead l a k ∧ lead l a k < high) (start n : ℕ) :
    |(countIn (cyclic l) start n (some a) : ℤ) * l.length - n * l.count a| < low + high := by
  have hall : ∀ k, -low < lead l a k ∧ lead l a k < high := by
    intro k
    have hpos := List.length_pos_iff.mpr hne
    have hturns := lead_turns l a (k / l.length) (k % l.length)
    rw [Nat.div_add_mod] at hturns
    rw [hturns]
    exact h _ (Nat.mod_lt _ hpos).le
  have hto := hall (start + n)
  have hfrom := hall start
  rw [window_eq_lead, abs_lt]
  constructor <;> linarith

end LbProxy.Lib
