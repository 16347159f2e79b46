import Mathlib.Order.Bounds.Basic
import Mathlib.Tactic.Common

/-!
# Binary search for the last number that passes

* `searchLast` — the loop, whose test may have no answer;
* `searchLast_spec` — it stops at a number that passes and whose successor does not, or at the end;
* `searchLast_greatest` — which is the greatest one that passes when all below one that passes do.
-/

namespace LbProxy.Lib

/-- `while lo < hi { let mid = (lo + hi).div_ceil(2); if passes(mid) { lo = mid } else { hi = mid - 1 } } lo`. -/
def searchLast (passes : ℕ → Option Bool) (lo hi : ℕ) : Option ℕ :=
  if lo < hi then do
    let mid := (lo + hi + 1) / 2
    if ← passes mid then searchLast passes mid hi else searchLast passes lo (mid - 1)
  else some lo
termination_by hi - lo
decreasing_by all_goals omega

variable {passes : ℕ → Option Bool} {p : ℕ → Bool}

theorem searchLast_step {lo hi mid : ℕ} (hlt : lo < hi) (hmid : mid = (lo + hi + 1) / 2) {b : Bool}
    (hb : passes mid = some b) :
    searchLast passes lo hi = if b = true then searchLast passes mid hi else searchLast passes lo (mid - 1) := by
  rw [searchLast, if_pos hlt]
  simp only [← hmid, hb, Option.bind_eq_bind, Option.bind_some]

theorem searchLast_done {lo hi : ℕ} (h : ¬ lo < hi) : searchLast passes lo hi = some lo := by
  rw [searchLast, if_neg h]

/-- **Where the search stops**: at a number that passes, and at the end or before one that does not. -/
theorem searchLast_spec {lo hi : ℕ} (hle : lo ≤ hi) (hpasses : ∀ c, lo ≤ c → c ≤ hi → passes c = some (p c))
    (hlo : p lo = true) :
    ∃ n, searchLast passes lo hi = some n ∧ lo ≤ n ∧ n ≤ hi ∧ p n = true ∧ (n = hi ∨ p (n + 1) = false) := by
  induction hn : hi - lo using Nat.strongRecOn generalizing lo hi with
  | ind n ih =>
    subst hn
    by_cases hlt : lo < hi
    · obtain ⟨mid, hmid⟩ : ∃ mid, mid = (lo + hi + 1) / 2 := ⟨_, rfl⟩
      have hlomid : lo < mid := by omega
      have hmidhi : mid ≤ hi := by omega
      rw [searchLast_step hlt hmid (hpasses mid hlomid.le hmidhi)]
      cases hp : p mid with
      | true =>
        obtain ⟨n, hn, hle', hstop⟩ := ih (hi - mid) (by omega) hmidhi
          (fun c h₁ h₂ => hpasses c (hlomid.le.trans h₁) h₂) hp rfl
        exact ⟨n, hn, hlomid.le.trans hle', hstop⟩
      | false =>
        obtain ⟨n, hn, hle', hhi, hpn, hstop⟩ := ih (mid - 1 - lo) (by omega) (by omega : lo ≤ mid - 1)
          (fun c h₁ h₂ => hpasses c h₁ (by omega)) hlo rfl
        refine ⟨n, hn, hle', by omega, hpn, Or.inr ?_⟩
        rcases hstop with rfl | hstop
        · -- the number after the new end is the one that was tried
          rwa [Nat.sub_add_cancel (by omega)]
        · exact hstop
    · exact ⟨lo, searchLast_done hlt, le_rfl, hle, hlo, Or.inl (by omega)⟩

/-- **The search finds the greatest number that passes**, when every number below one that passes does too. -/
theorem searchLast_greatest {lo hi : ℕ} (hle : lo ≤ hi) (hpasses : ∀ c, lo ≤ c → c ≤ hi → passes c = some (p c))
    (hlo : p lo = true) (hmono : ∀ c c', lo ≤ c' → c' ≤ c → c ≤ hi → p c = true → p c' = true) :
    ∃ n, searchLast passes lo hi = some n ∧ IsGreatest {c | lo ≤ c ∧ c ≤ hi ∧ passes c = some true} n := by
  obtain ⟨n, hn, hlen, hhi, hpn, hstop⟩ := searchLast_spec hle hpasses hlo
  refine ⟨n, hn, ⟨hlen, hhi, by rw [hpasses n hlen hhi, hpn]⟩, ?_⟩
  rintro c ⟨hloc, hchi, hc⟩
  rw [hpasses c hloc hchi, Option.some_inj] at hc
  by_contra hlt
  rcases hstop with rfl | hstop
  · exact hlt hchi
  · have := hmono c (n + 1) (by omega) (by omega) hchi hc
    rw [hstop] at this
    exact Bool.false_ne_true this

end LbProxy.Lib
