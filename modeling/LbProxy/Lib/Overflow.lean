import Mathlib.Tactic.Common
import Mathlib.Order.Basic
import Mathlib.Algebra.GroupWithZero.Nat

/-!
# Machine arithmetic that wraps or panics

* `u64` — an operation on `u64` by its exact value: it wraps, or panics in a build with overflow checks;
* `saturate` — a conversion that stops at the ends of the type;
* `Computes` — a computation has an exact value, which it gives when that fits, and a build with overflow checks
  gives no other.
-/

namespace LbProxy.Lib

/-- The result of a `u64` operation with this exact value; `none` is a panic. -/
def u64 (overflowChecks : Bool) (x : ℕ) : Option UInt64 :=
  if overflowChecks = true ∧ 2 ^ 64 ≤ x then none else some (UInt64.ofNat x)

/-- A conversion to `u64` of a number that is not negative. -/
def saturate (x : ℕ) : UInt64 := UInt64.ofNat (min x (2 ^ 64 - 1))

theorem toNat_ofNat_of_lt {x : ℕ} (h : x < 2 ^ 64) : (UInt64.ofNat x).toNat = x := by
  rw [UInt64.toNat_ofNat', Nat.mod_eq_of_lt h]

theorem toNat_saturate (x : ℕ) : (saturate x).toNat = min x (2 ^ 64 - 1) := toNat_ofNat_of_lt (by omega)

theorem u64_unchecked (x : ℕ) : u64 false x = some (UInt64.ofNat x) := if_neg fun h => Bool.false_ne_true h.1

theorem u64_of_lt (overflowChecks : Bool) {x : ℕ} (h : x < 2 ^ 64) :
    u64 overflowChecks x = some (UInt64.ofNat x) :=
  if_neg fun hc => absurd hc.2 (by omega)

theorem isSome_u64 {overflowChecks : Bool} {x : ℕ} (h : overflowChecks = false ∨ x < 2 ^ 64) :
    (u64 overflowChecks x).isSome := by
  rcases h with rfl | h
  · rw [u64_unchecked]
    rfl
  · rw [u64_of_lt overflowChecks h]
    rfl

theorem u64_checked_eq_none {x : ℕ} : u64 true x = none ↔ 2 ^ 64 ≤ x := by
  unfold u64
  split
  · rename_i h
    exact ⟨fun _ => h.2, fun _ => rfl⟩
  · rename_i h
    exact ⟨fun hnone => absurd hnone (Option.some_ne_none _), fun hx => absurd ⟨rfl, hx⟩ h⟩

/-- A computation of the exact value `n`. -/
structure Computes (overflowChecks : Bool) (o : Option UInt64) (n : ℕ) : Prop where
  of_lt : n < 2 ^ 64 → o = some (UInt64.ofNat n)
  lt_of_checked : overflowChecks = true → o.isSome → n < 2 ^ 64
  isSome_unchecked : overflowChecks = false → o.isSome

namespace Computes

variable {overflowChecks : Bool} {o o' : Option UInt64} {n n' : ℕ}

theorem u64 (overflowChecks : Bool) (n : ℕ) : Computes overflowChecks (Lib.u64 overflowChecks n) n where
  of_lt h := u64_of_lt overflowChecks h
  lt_of_checked hc h := by
    subst hc
    by_contra hn
    rw [u64_checked_eq_none.mpr (by omega)] at h
    exact Bool.false_ne_true h
  isSome_unchecked hc := isSome_u64 (Or.inl hc)

theorem pure {x : UInt64} (h : x.toNat = n) : Computes overflowChecks (some x) n where
  of_lt _ := by rw [← h, UInt64.ofNat_toNat]
  lt_of_checked _ _ := h ▸ x.toNat_lt
  isSome_unchecked _ := rfl

theorem bind (h : Computes overflowChecks o n) (f : ℕ → ℕ) (hf : n ≤ f n) :
    Computes overflowChecks (o.bind fun x => Lib.u64 overflowChecks (f x.toNat)) (f n) where
  of_lt hlt := by
    have hn : n < 2 ^ 64 := by omega
    rw [h.of_lt hn, Option.bind_some, toNat_ofNat_of_lt hn, u64_of_lt overflowChecks hlt]
  lt_of_checked hc hsome := by
    obtain ⟨y, hy⟩ := Option.isSome_iff_exists.mp hsome
    obtain ⟨x, hx, hfx⟩ := Option.bind_eq_some_iff.mp hy
    have hn := h.lt_of_checked hc (by rw [hx]; rfl)
    rw [h.of_lt hn, Option.some_inj] at hx
    rw [← hx, toNat_ofNat_of_lt hn] at hfx
    exact (u64 overflowChecks (f n)).lt_of_checked hc (by rw [hfx]; rfl)
  isSome_unchecked hc := by
    obtain ⟨x, hx⟩ := Option.isSome_iff_exists.mp (h.isSome_unchecked hc)
    rw [hx, Option.bind_some]
    exact isSome_u64 (Or.inl hc)

/-- In a build with overflow checks, what a smaller value needs does not panic either. -/
theorem isSome_mono (h : Computes overflowChecks o n) (h' : Computes overflowChecks o' n') (hle : n' ≤ n)
    (hsome : o.isSome) : o'.isSome := by
  cases hc : overflowChecks with
  | false => exact h'.isSome_unchecked hc
  | true =>
    have hlt := h.lt_of_checked hc hsome
    rw [h'.of_lt (by omega)]
    rfl

end Computes

end LbProxy.Lib
