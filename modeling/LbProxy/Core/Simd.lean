import LbProxy.Lib.Bytes
import Mathlib.Algebra.GroupWithZero.Nat

/-!
# Byte primitives of the request path (`simd.rs`)

What the vectorised primitives compute, on byte lists; `lowercaseAsciiInto` takes the length of the
caller's destination buffer and returns the slice it fills.
-/

namespace LbProxy.Core

open Lib

/-- `memchr`. -/
def findByte (needle : UInt8) (haystack : Bytes) : Option ℕ := haystack.findIdx? (· == needle)

theorem findByte_eq_some {b : UInt8} {x : Bytes} {i : ℕ} (h : findByte b x = some i) :
    i < x.length ∧ b ∉ x.take i := by
  obtain ⟨hi, -, hbefore⟩ := List.findIdx?_eq_some_iff_getElem.mp h
  refine ⟨hi, fun hmem => ?_⟩
  obtain ⟨j, hj, hjb⟩ := List.mem_iff_getElem.mp hmem
  rw [List.length_take] at hj
  rw [List.getElem_take] at hjb
  exact hbefore j (by omega) (by simpa using hjb)

theorem findByte_eq_none {b : UInt8} {x : Bytes} : findByte b x = none ↔ b ∉ x := by
  simp only [findByte, List.findIdx?_eq_none_iff, beq_eq_false_iff_ne]
  exact ⟨fun h hb => h b hb rfl, fun h y hy hyb => h (hyb ▸ hy)⟩

theorem findByte_append {b : UInt8} {a : Bytes} (h : b ∉ a) (t : Bytes) :
    findByte b (a ++ b :: t) = some a.length := by
  induction a with
  | nil => simp [findByte, List.findIdx?_cons]
  | cons c a ih =>
    have hc : (c == b) = false := beq_eq_false_iff_ne.mpr fun e => h (by simp [e])
    have ih := ih fun hm => h (List.mem_cons_of_mem _ hm)
    rw [findByte] at ih ⊢
    rw [List.cons_append, List.findIdx?_cons, hc, ih]
    rfl

/-- The text of a byte string, if it is well-formed UTF-8. -/
def validateUtf8 (bytes : Bytes) : Option Bytes := if isUtf8 bytes then some bytes else none

/-- Strip an optional `:port` suffix; a bracketed literal keeps its brackets. -/
def hostWithoutPort (host : Bytes) : Bytes :=
  if host.head? = some 91 then
    match findByte 93 host with
    | some close => host.take (close + 1)
    | none => host
  else
    match findByte 58 host with
    | some pos => host.take pos
    | none => host

/-- Lowercase into a destination of `dstLen` bytes. -/
def lowercaseAsciiInto (src : Bytes) (dstLen : ℕ) : Option Bytes :=
  if dstLen < src.length then none else some (lowercase src)

end LbProxy.Core
