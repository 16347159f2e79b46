import LbProxy.Lib.Bytes
import Mathlib.Tactic.Common

/-!
# Vector registers of bytes

A register of `w` lanes holds `w` bytes, and an operation works lane by lane.

* `splat`, `xor`, `and`, `or`, `cmpEq`, `cmpGtSigned`, `cmpGe`, `cmpLe` — the lane-wise operations; a comparison
  yields `0xFF` or `0x00`;
* `movemask`, `minv` — the top bits of all lanes, and the least lane;
* `load`, `store` — a block of a byte string; `none` is an access outside of it;
* `movemask_cmpEq`, `minv_cmpEq` — the two ways to ask whether two registers agree.
-/

namespace LbProxy.Lib

/-- A register of `w` bytes. -/
abbrev Lanes (w : ℕ) := Vector UInt8 w

namespace Lanes

variable {w : ℕ}

def splat (b : UInt8) : Lanes w := Vector.replicate w b

def xor (v v' : Lanes w) : Lanes w := Vector.zipWith (· ^^^ ·) v v'

def and (v v' : Lanes w) : Lanes w := Vector.zipWith (· &&& ·) v v'

def or (v v' : Lanes w) : Lanes w := Vector.zipWith (· ||| ·) v v'

/-- The lane of a comparison. -/
def mask (c : Bool) : UInt8 := if c then 0xFF else 0

/-- `v > v'`, the lanes read as signed. -/
def cmpGtSigned (v v' : Lanes w) : Lanes w := Vector.zipWith (fun x y => mask (y.toInt8 < x.toInt8)) v v'

def cmpEq (v v' : Lanes w) : Lanes w := Vector.zipWith (fun x y => mask (x == y)) v v'

def cmpGe (v v' : Lanes w) : Lanes w := Vector.zipWith (fun x y => mask (y ≤ x)) v v'

def cmpLe (v v' : Lanes w) : Lanes w := Vector.zipWith (fun x y => mask (x ≤ y)) v v'

/-- The top bits of the lanes, the first lane lowest. -/
def movemask (v : Lanes w) : BitVec 32 :=
  (BitVec.ofBoolListLE (v.toList.map fun x => decide (0x80 ≤ x))).setWidth 32

/-- The least lane. -/
def minv (v : Lanes w) : UInt8 := v.toList.foldr (fun x least => if x ≤ least then x else least) 0xFF

/-- The block of a byte string at an offset. -/
def load (w : ℕ) (s : Bytes) (p : ℕ) : Option (Lanes w) :=
  if h : p + w ≤ s.length then some ⟨((s.drop p).take w).toArray, by simp; omega⟩ else none

/-- The byte string with the block at an offset replaced. -/
def store (s : Bytes) (p : ℕ) (v : Lanes w) : Option Bytes :=
  if p + w ≤ s.length then some (s.take p ++ v.toList ++ s.drop (p + w)) else none

theorem load_eq {s : Bytes} {p : ℕ} (h : p + w ≤ s.length) :
    ∃ v, load w s p = some v ∧ v.toList = (s.drop p).take w := ⟨_, dif_pos h, rfl⟩

theorem store_eq {s : Bytes} {p : ℕ} (h : p + w ≤ s.length) (v : Lanes w) :
    store s p v = some (s.take p ++ v.toList ++ s.drop (p + w)) := if_pos h

theorem mask_eq_iff {c : Bool} : mask c = 0xFF ↔ c = true := by
  cases c <;> decide

theorem mask_top_iff {c : Bool} : 0x80 ≤ mask c ↔ c = true := by
  cases c <;> decide

/-- **All top bits of an equality mask are set exactly when the registers agree.** -/
theorem movemask_cmpEq (hw : w ≤ 32) {v v' : Lanes w} :
    movemask (cmpEq v v') = (BitVec.allOnes w).setWidth 32 ↔ v = v' := by
  have hbit : ∀ i (hi : i < w), (movemask (cmpEq v v')).getLsbD i = (v[i] == v'[i]) := by
    intro i hi
    rw [movemask, BitVec.getLsbD_setWidth, BitVec.getLsbD_ofBoolListLE, cmpEq, Vector.toList_zipWith,
      List.map_zipWith]
    simp [mask_top_iff, List.getD_eq_getElem?_getD, hi, Nat.lt_of_lt_of_le hi hw, Bool.beq_eq_decide_eq]
  have hout : ∀ i, w ≤ i → (movemask (cmpEq v v')).getLsbD i = false := by
    intro i hi
    rw [movemask, BitVec.getLsbD_setWidth, BitVec.getLsbD_ofBoolListLE, List.getD_eq_getElem?_getD,
      List.getElem?_eq_none (by simpa using hi)]
    simp
  constructor
  · intro h
    ext i hi
    have hones := congrArg (·.getLsbD i) h
    simp only [hbit i hi, BitVec.getLsbD_setWidth, BitVec.getLsbD_allOnes, hi, Nat.lt_of_lt_of_le hi hw,
      decide_true, Bool.and_true] at hones
    rw [beq_iff_eq.mp hones]
  · rintro rfl
    refine BitVec.eq_of_getLsbD_eq fun i hi32 => ?_
    rw [BitVec.getLsbD_setWidth, BitVec.getLsbD_allOnes]
    by_cases hi : i < w
    · rw [hbit i hi]
      simp [hi, hi32]
    · rw [hout i (by omega)]
      simp [hi]

/-- **The least lane of an equality mask is `0xFF` exactly when the registers agree.** -/
theorem minv_cmpEq {v v' : Lanes w} : minv (cmpEq v v') = 0xFF ↔ v = v' := by
  have hmin : ∀ l : List UInt8,
      l.foldr (fun x least => if x ≤ least then x else least) 0xFF = 0xFF ↔ ∀ x ∈ l, x = 0xFF := by
    intro l
    induction l with
    | nil => simp
    | cons x l ih =>
      rw [List.foldr_cons, List.forall_mem_cons, ← ih]
      generalize l.foldr (fun x least => if x ≤ least then x else least) (0xFF : UInt8) = least
      have hx := x.toNat_lt
      have hleast := least.toNat_lt
      split <;> rename_i h <;>
        simp only [UInt8.le_iff_toNat_le, ← UInt8.toNat_inj, UInt8.toNat_ofNat] at h ⊢ <;> omega
  rw [minv, hmin, cmpEq, Vector.toList_zipWith]
  constructor
  · intro h
    ext i hi
    have hlane := h (mask (v[i] == v'[i])) (List.mem_iff_getElem.mpr ⟨i, by simpa using hi, by simp⟩)
    rw [beq_iff_eq.mp (mask_eq_iff.mp hlane)]
  · rintro rfl x hx
    obtain ⟨i, hi, rfl⟩ := List.mem_iff_getElem.mp hx
    simp [mask_eq_iff]

end Lanes

end LbProxy.Lib
