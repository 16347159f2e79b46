import Mathlib.Data.List.Basic
import Mathlib.Data.List.DropRight
import Mathlib.Data.List.Infix

/-!
# Byte strings

A string is the list of its (UTF-8) bytes.  The operations are the ones the byte-string code of a
proxy is made of: ASCII case folding, searching, splitting, trimming and stripping.  All delimiters
are ASCII, so on text the byte operations agree with the character operations.
-/

namespace LbProxy.Lib

/-- A byte string; text is its UTF-8 encoding. -/
abbrev Bytes := List UInt8

/-- Membership in a list of byte strings is decided byte by byte. -/
instance lawfulBEqBytes : LawfulBEq Bytes := inferInstance

/-- The bytes of an ASCII literal. -/
def ascii (s : String) : Bytes := s.toList.map fun c => UInt8.ofNat c.toNat

/-! ## ASCII case -/

/-- `u8::to_ascii_lowercase`. -/
def toLower (b : UInt8) : UInt8 := if 65 ≤ b ∧ b ≤ 90 then b + 32 else b

/-- Lowercase every ASCII letter; every other byte passes through. -/
def lowercase (s : Bytes) : Bytes := s.map toLower

/-- Equality up to ASCII case. -/
def eqIgnoreAsciiCase (a b : Bytes) : Bool := lowercase a == lowercase b

@[simp] theorem lowercase_nil : lowercase [] = [] := rfl
@[simp] theorem lowercase_cons (b : UInt8) (s : Bytes) :
    lowercase (b :: s) = toLower b :: lowercase s := rfl
@[simp] theorem lowercase_append (s t : Bytes) : lowercase (s ++ t) = lowercase s ++ lowercase t := by
  simp [lowercase]
@[simp] theorem length_lowercase (s : Bytes) : (lowercase s).length = s.length := by simp [lowercase]

theorem toLower_toLower (b : UInt8) : toLower (toLower b) = toLower b := by
  unfold toLower
  simp only [UInt8.le_iff_toNat_le]
  split
  · rename_i h
    simp only [UInt8.toNat_ofNat] at h
    have hb : (b + 32).toNat = b.toNat + 32 := by
      rw [UInt8.toNat_add]
      have : b.toNat ≤ 90 := by simpa using h.2
      simp; omega
    rw [if_neg (by simp [hb]; omega)]
  · rfl

@[simp] theorem lowercase_lowercase (s : Bytes) : lowercase (lowercase s) = lowercase s := by
  simp [lowercase, toLower_toLower]

theorem toLower_eq_iff {b c : UInt8} (hc : ¬ (97 ≤ c ∧ c ≤ 122)) (hC : ¬ (65 ≤ c ∧ c ≤ 90)) :
    toLower b = c ↔ b = c := by
  unfold toLower
  split
  · rename_i h
    simp only [UInt8.le_iff_toNat_le, UInt8.toNat_ofNat] at *
    have hb : (b + 32).toNat = b.toNat + 32 := by
      rw [UInt8.toNat_add]
      have : b.toNat ≤ 90 := by simpa using h.2
      simp; omega
    constructor
    · intro e
      exfalso
      apply hc
      rw [← e, hb]
      simp at h ⊢; omega
    · rintro rfl
      exact absurd h hC
  · rfl

/-! ## Searching and stripping -/

/-- The suffix of `s` after the prefix `p`, if `s` starts with it. -/
def stripPrefix (p s : Bytes) : Option Bytes := if p <+: s then some (s.drop p.length) else none

/-- The prefix of `s` before the suffix `p`, if `s` ends with it. -/
def stripSuffix (p s : Bytes) : Option Bytes :=
  if p <:+ s then some (s.take (s.length - p.length)) else none

/-- `str::trim_end_matches` for one byte. -/
def trimEnd (c : UInt8) (s : Bytes) : Bytes := s.rdropWhile (· == c)

theorem stripSuffix_eq_some {p s t : Bytes} : stripSuffix p s = some t ↔ s = t ++ p := by
  unfold stripSuffix
  split
  · rename_i h
    obtain ⟨u, rfl⟩ := h
    simp [eq_comm]
  · rename_i h
    simp only [reduceCtorEq, false_iff]
    rintro rfl
    exact h (List.suffix_append t p)

theorem stripSuffix_eq_none {p s : Bytes} : stripSuffix p s = none ↔ ¬ p <:+ s := by
  unfold stripSuffix
  split <;> simp_all

theorem trimEnd_isPrefix (c : UInt8) (s : Bytes) : trimEnd c s <+: s := List.rdropWhile_prefix _ s

theorem trimEnd_not_suffix (c : UInt8) (s : Bytes) (t : Bytes) : trimEnd c s ≠ t ++ [c] := by
  intro h
  have hne : trimEnd c s ≠ [] := by simp [h]
  have hlast := List.rdropWhile_last_not (· == c) s hne
  apply hlast
  have : (trimEnd c s).getLast hne = c := by
    simp only [h]
    simp
  exact beq_iff_eq.mpr this

theorem head_trim {P : UInt8 → Bool} {s : Bytes} {b : UInt8}
    (h : b ∈ ((s.dropWhile P).rdropWhile P).head?) : P b = false := by
  obtain ⟨t, ht⟩ : ∃ t, (s.dropWhile P).rdropWhile P = b :: t := by
    cases hs : (s.dropWhile P).rdropWhile P with
    | nil => simp [hs] at h
    | cons c t =>
      simp only [hs, List.head?_cons, Option.mem_def, Option.some.injEq] at h
      exact ⟨t, by rw [h]⟩
  obtain ⟨u, hu⟩ : b :: t <+: s.dropWhile P := ht ▸ List.rdropWhile_prefix _ _
  have := List.head?_dropWhile_not P s
  rw [← hu] at this
  simpa using this

theorem last_trim {P : UInt8 → Bool} {s : Bytes} {b : UInt8}
    (h : b ∈ ((s.dropWhile P).rdropWhile P).getLast?) : P b = false := by
  have hne : (s.dropWhile P).rdropWhile P ≠ [] := by
    intro hnil
    simp [hnil] at h
  have hlast := List.rdropWhile_last_not P (s.dropWhile P) hne
  rw [List.getLast?_eq_getLast_of_ne_nil hne, Option.mem_def, Option.some.injEq] at h
  rw [h] at hlast
  simpa using hlast

theorem append_sep_inj {c : UInt8} {a b s t : Bytes} (ha : c ∉ a) (hb : c ∉ b)
    (h : a ++ c :: s = b ++ c :: t) : a = b ∧ s = t := by
  induction a generalizing b with
  | nil =>
    cases b with
    | nil => exact ⟨rfl, (List.cons.inj h).2⟩
    | cons y b => exact absurd (List.cons.inj h).1 (fun e => hb (by simp [e]))
  | cons x a ih =>
    cases b with
    | nil => exact absurd (List.cons.inj h).1 (fun e => ha (by simp [e]))
    | cons y b =>
      obtain ⟨rfl, htail⟩ := List.cons.inj h
      obtain ⟨rfl, rfl⟩ := ih (fun hc => ha (List.mem_cons_of_mem _ hc))
        (fun hc => hb (List.mem_cons_of_mem _ hc)) htail
      exact ⟨rfl, rfl⟩

/-! ## UTF-8 -/

/-- A continuation byte. -/
def isCont (b : UInt8) : Bool := 0x80 ≤ b && b ≤ 0xBF

/-- The first two bytes of a three-byte sequence (no overlong forms, no surrogates). -/
def isThree (b0 b1 : UInt8) : Bool :=
  (b0 == 0xE0 && 0xA0 ≤ b1 && b1 ≤ 0xBF) || (0xE1 ≤ b0 && b0 ≤ 0xEC && isCont b1) ||
    (b0 == 0xED && 0x80 ≤ b1 && b1 ≤ 0x9F) || (0xEE ≤ b0 && b0 ≤ 0xEF && isCont b1)

/-- The first two bytes of a four-byte sequence (no overlong forms, nothing past U+10FFFF). -/
def isFour (b0 b1 : UInt8) : Bool :=
  (b0 == 0xF0 && 0x90 ≤ b1 && b1 ≤ 0xBF) || (0xF1 ≤ b0 && b0 ≤ 0xF3 && isCont b1) ||
    (b0 == 0xF4 && 0x80 ≤ b1 && b1 ≤ 0x8F)

/-- The byte string is well-formed UTF-8. -/
def isUtf8 : Bytes → Bool
  | [] => true
  | b0 :: s =>
    if b0 < 0x80 then isUtf8 s
    else match s with
      | [] => false
      | b1 :: s1 =>
        if 0xC2 ≤ b0 && b0 ≤ 0xDF then isCont b1 && isUtf8 s1
        else match s1 with
          | [] => false
          | b2 :: s2 =>
            if isThree b0 b1 then isCont b2 && isUtf8 s2
            else match s2 with
              | [] => false
              | b3 :: s3 => isFour b0 b1 && isCont b2 && isCont b3 && isUtf8 s3

theorem isUtf8_cons_of_lt {b : UInt8} (hb : b < 0x80) (s : Bytes) : isUtf8 (b :: s) = isUtf8 s := by
  rw [isUtf8.eq_def]
  simp only [hb, if_true]

theorem isUtf8_of_ascii {s : Bytes} (h : ∀ b ∈ s, b < 0x80) : isUtf8 s = true := by
  induction s with
  | nil => rfl
  | cons b s ih =>
    rw [isUtf8_cons_of_lt (h b (by simp))]
    exact ih fun c hc => h c (List.mem_cons_of_mem _ hc)

end LbProxy.Lib
