import LbProxy.Lib.Bytes
import Mathlib.Algebra.GroupWithZero.Nat

/-!
# Text operations of the standard library, on byte strings

Splitting at a byte, searching for a substring, ASCII trimming (`trim_ascii`), Unicode trimming
(`str::trim`) and reading an unsigned 64-bit decimal (`str::parse::<u64>`).
-/

namespace LbProxy.Lib

/-! ## Splitting and searching -/

/-- `slice::split` at a byte: the pieces between the separators, at least one. -/
def splitByte (sep : UInt8) : Bytes → List Bytes
  | [] => [[]]
  | b :: s =>
    if b = sep then [] :: splitByte sep s
    else match splitByte sep s with
      | [] => [[b]]
      | piece :: pieces => (b :: piece) :: pieces

theorem splitByte_append_sep {sep : UInt8} {a : Bytes} (h : sep ∉ a) (rest : Bytes) :
    splitByte sep (a ++ sep :: rest) = a :: splitByte sep rest := by
  induction a with
  | nil => simp [splitByte]
  | cons b a ih =>
    have hb : b ≠ sep := fun e => h (by simp [e])
    rw [List.cons_append, splitByte, if_neg hb, ih fun hs => h (List.mem_cons_of_mem _ hs)]

/-- `memmem::find`: the first position at which the needle occurs. -/
def findSubslice (needle : Bytes) : Bytes → Option ℕ
  | [] => if needle = [] then some 0 else none
  | b :: s => if needle <+: b :: s then some 0 else (findSubslice needle s).map (· + 1)

theorem findSubslice_le {needle hay : Bytes} {pos : ℕ} (h : findSubslice needle hay = some pos) :
    pos + needle.length ≤ hay.length := by
  induction hay generalizing pos with
  | nil =>
    simp only [findSubslice] at h
    split at h
    · rename_i hn
      obtain rfl := Option.some.inj h
      simp [hn]
    · cases h
  | cons b s ih =>
    simp only [findSubslice] at h
    split at h
    · rename_i hn
      obtain rfl := Option.some.inj h
      simpa using hn.length_le
    · obtain ⟨pos', hpos, rfl⟩ := Option.map_eq_some_iff.mp h
      have := ih hpos
      simp only [List.length_cons]
      omega

/-- The first occurrence stays the first when more bytes follow. -/
theorem findSubslice_append {needle hay : Bytes} {pos : ℕ} (h : findSubslice needle hay = some pos)
    (more : Bytes) : findSubslice needle (hay ++ more) = some pos := by
  induction hay generalizing pos with
  | nil =>
    simp only [findSubslice] at h
    split at h
    · rename_i hn
      cases more <;> simp_all [findSubslice]
    · cases h
  | cons b s ih =>
    simp only [findSubslice] at h
    rw [List.cons_append, findSubslice]
    split at h
    · rename_i hn
      have hpre : needle <+: b :: (s ++ more) := hn.trans (List.prefix_append (b :: s) more)
      rw [if_pos hpre, h]
    · rename_i hn
      obtain ⟨pos', hpos, rfl⟩ := Option.map_eq_some_iff.mp h
      have hle := findSubslice_le hpos
      rw [if_neg, ih hpos]
      · rfl
      · -- an occurrence at the start would not reach beyond the bytes that were there
        intro hpre
        refine hn (List.prefix_of_prefix_length_le hpre (List.prefix_append (b :: s) more) ?_)
        simp only [List.length_cons]
        omega

theorem findSubslice_isSome (needle a b : Bytes) : ∃ pos, findSubslice needle (a ++ (needle ++ b)) = some pos := by
  induction a with
  | nil =>
    cases h : needle ++ b with
    | nil =>
      have hn : needle = [] := (List.append_eq_nil_iff.mp h).1
      exact ⟨0, by simp [findSubslice, hn]⟩
    | cons c s =>
      refine ⟨0, ?_⟩
      rw [List.nil_append, findSubslice, if_pos (h ▸ List.prefix_append needle b)]
  | cons c a ih =>
    obtain ⟨pos, hpos⟩ := ih
    rw [List.cons_append, findSubslice, hpos]
    split
    · exact ⟨0, rfl⟩
    · exact ⟨pos + 1, rfl⟩

/-! ## Trimming -/

/-- `u8::is_ascii_whitespace`. -/
def isAsciiWhitespace (b : UInt8) : Bool := b == 32 || b == 9 || b == 10 || b == 12 || b == 13

/-- `trim_ascii`. -/
def trimAscii (s : Bytes) : Bytes := (s.dropWhile isAsciiWhitespace).rdropWhile isAsciiWhitespace

/-- The UTF-8 encodings of the characters with the property `White_Space`. -/
def whiteSpace : List Bytes :=
  [[9], [10], [11], [12], [13], [32], [0xC2, 0x85], [0xC2, 0xA0], [0xE1, 0x9A, 0x80],
    [0xE2, 0x80, 0x80], [0xE2, 0x80, 0x81], [0xE2, 0x80, 0x82], [0xE2, 0x80, 0x83], [0xE2, 0x80, 0x84],
    [0xE2, 0x80, 0x85], [0xE2, 0x80, 0x86], [0xE2, 0x80, 0x87], [0xE2, 0x80, 0x88], [0xE2, 0x80, 0x89],
    [0xE2, 0x80, 0x8A], [0xE2, 0x80, 0xA8], [0xE2, 0x80, 0xA9], [0xE2, 0x80, 0xAF], [0xE2, 0x81, 0x9F],
    [0xE3, 0x80, 0x80]]

/-- Strip leading white space, at most `fuel` characters of it. -/
def trimStartWs : ℕ → Bytes → Bytes
  | 0, s => s
  | fuel + 1, s =>
    match whiteSpace.find? (·.isPrefixOf s) with
    | some w => trimStartWs fuel (s.drop w.length)
    | none => s

/-- Strip trailing white space, at most `fuel` characters of it. -/
def trimEndWs : ℕ → Bytes → Bytes
  | 0, s => s
  | fuel + 1, s =>
    match whiteSpace.find? (·.isSuffixOf s) with
    | some w => trimEndWs fuel (s.take (s.length - w.length))
    | none => s

/-- `str::trim`. -/
def trim (s : Bytes) : Bytes :=
  let t := trimStartWs s.length s
  trimEndWs t.length t

/-! ## Numbers -/

def isDigit (b : UInt8) : Bool := 48 ≤ b && b ≤ 57

/-- The value of a string of decimal digits. -/
def digitsValue (s : Bytes) : ℕ := s.foldl (fun n b => 10 * n + (b.toNat - 48)) 0

/-- `str::parse::<u64>`: an optional plus sign and at least one digit, below `2 ^ 64`. -/
def parseU64 (s : Bytes) : Option ℕ :=
  let digits := if s.head? = some 43 then s.drop 1 else s
  if digits ≠ [] ∧ digits.all isDigit ∧ digitsValue digits < 2 ^ 64 then some (digitsValue digits) else none

end LbProxy.Lib
