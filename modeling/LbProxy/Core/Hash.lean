import LbProxy.Lib.Bytes
import LbProxy.Lib.Mixer
import Mathlib.Algebra.GroupWithZero.Nat
import Mathlib.Data.List.SplitLengths
import Mathlib.Data.Nat.Digits.Defs

/-!
# The hasher of the host tables (`hash.rs`)

* `FxHasher.write` — the length, and then the input in chunks of eight, four, two and one byte;
* `words`, `write_eq` — the words that a write mixes in;
* `write_no_collision` — texts of one length that differ within one chunk never collide, nor do texts of different
  lengths with the same chunks as words; and two states that differ are never merged by what is written behind.
-/

namespace LbProxy.Core

open Lib Function

/-- The multiplier, which is also the first state. -/
def SEED : BitVec 64 := 0x517cc1b727220a95#64

def ROTATE : ℕ := 5

/-- The byte order of the machine. -/
inductive Endian where
  | little
  | big
  deriving DecidableEq, Repr

/-- The bytes of a word, least significant first. -/
def Endian.digits : Endian → Bytes → Bytes
  | .little, chunk => chunk
  | .big, chunk => chunk.reverse

/-- `from_ne_bytes` of an unsigned integer of at most eight bytes, widened. -/
def fromNeBytes (e : Endian) (chunk : Bytes) : BitVec 64 :=
  BitVec.ofNat 64 (Nat.ofDigits 256 ((e.digits chunk).map UInt8.toNat))

def splitFirstChunk (n : ℕ) (bytes : Bytes) : Option (Bytes × Bytes) :=
  if n ≤ bytes.length then some (bytes.take n, bytes.drop n) else none

structure FxHasher where
  hash : BitVec 64
  deriving DecidableEq, Repr

namespace FxHasher

/-- The hasher that hashing starts with. -/
def default : FxHasher := ⟨SEED⟩

def addToHash (h : FxHasher) (word : BitVec 64) : FxHasher := ⟨(h.hash.rotateLeft ROTATE ^^^ word) * SEED⟩

/-- The loop over the chunks of eight bytes. -/
def writeLoop (e : Endian) (h : FxHasher) (rest : Bytes) : FxHasher × Bytes :=
  if _h : 8 ≤ rest.length then writeLoop e (h.addToHash (fromNeBytes e (rest.take 8))) (rest.drop 8)
  else (h, rest)
termination_by rest.length
decreasing_by
  rw [List.length_drop]
  omega

/-- A chunk of the tail, if there is one. -/
def writeChunk (e : Endian) (n : ℕ) (s : FxHasher × Bytes) : FxHasher × Bytes :=
  match splitFirstChunk n s.2 with
  | some (chunk, tail) => (s.1.addToHash (fromNeBytes e chunk), tail)
  | none => s

/-- The last byte of the tail, if there is one. -/
def writeByte (s : FxHasher × Bytes) : FxHasher :=
  match s.2.head? with
  | some b => s.1.addToHash (BitVec.ofNat 64 b.toNat)
  | none => s.1

def write (e : Endian) (h : FxHasher) (bytes : Bytes) : FxHasher :=
  writeByte (writeChunk e 2 (writeChunk e 4 (writeLoop e (h.addToHash (BitVec.ofNat 64 bytes.length)) bytes)))

/-- A single integer is one word. -/
def writeU8 (h : FxHasher) (i : UInt8) : FxHasher := h.addToHash (BitVec.ofNat 64 i.toNat)

def finish (h : FxHasher) : BitVec 64 := h.hash

/-- Hash a text as the standard library does, with a byte behind it that no text contains. -/
def writeStr (e : Endian) (h : FxHasher) (text : Bytes) : FxHasher := (h.write e text).writeU8 0xff

/-! ## The words of an input -/

/-- The sizes of the chunks of a tail. -/
def tailSizes (r : ℕ) : List ℕ :=
  (if 4 ≤ r then [4] else []) ++ (if 2 ≤ r % 4 then [2] else []) ++ if r % 2 = 1 then [1] else []

/-- The sizes of the chunks of an input. -/
def chunkSizes (n : ℕ) : List ℕ := List.replicate (n / 8) 8 ++ tailSizes (n % 8)

def chunks (bytes : Bytes) : List Bytes := (chunkSizes bytes.length).splitLengths bytes

/-- The words that are mixed in: the length and the chunks. -/
def words (e : Endian) (bytes : Bytes) : List (BitVec 64) :=
  BitVec.ofNat 64 bytes.length :: (chunks bytes).map (fromNeBytes e)

theorem sum_chunkSizes (n : ℕ) : (chunkSizes n).sum = n := by
  have htail : ∀ r < 8, (tailSizes r).sum = r := by decide
  rw [chunkSizes, List.sum_append, htail _ (Nat.mod_lt _ (by omega)), List.sum_replicate_nat]
  omega

theorem mem_chunkSizes {n k : ℕ} (h : k ∈ chunkSizes n) : k ≤ 8 := by
  have htail : ∀ r < 8, ∀ k ∈ tailSizes r, k ≤ 8 := by decide
  rcases List.mem_append.mp h with h | h
  · exact (List.eq_of_mem_replicate h).le
  · exact htail _ (Nat.mod_lt _ (by omega)) k h

theorem flatten_chunks (bytes : Bytes) : (chunks bytes).flatten = bytes :=
  List.flatten_splitLengths _ _ (sum_chunkSizes _).ge

theorem length_chunks (bytes : Bytes) : (chunks bytes).map List.length = chunkSizes bytes.length :=
  List.map_splitLengths_length _ _ (sum_chunkSizes _).le

theorem chunkSizes_of_ge {n : ℕ} (h : 8 ≤ n) : chunkSizes n = 8 :: chunkSizes (n - 8) := by
  have hdiv : n / 8 = (n - 8) / 8 + 1 := by omega
  have hmod : n % 8 = (n - 8) % 8 := by omega
  rw [chunkSizes, chunkSizes, hdiv, hmod, List.replicate_succ, List.cons_append]

theorem chunkSizes_of_lt {n : ℕ} (h : n < 8) : chunkSizes n = tailSizes n := by
  rw [chunkSizes, Nat.div_eq_of_lt h, Nat.mod_eq_of_lt h]
  rfl

theorem fromNeBytes_singleton (e : Endian) (b : UInt8) : fromNeBytes e [b] = BitVec.ofNat 64 b.toNat := by
  cases e <;> simp [fromNeBytes, Endian.digits]

theorem splitLengths_append (a b : List ℕ) (bytes : Bytes) :
    (a ++ b).splitLengths bytes = a.splitLengths bytes ++ b.splitLengths (bytes.drop a.sum) := by
  induction a generalizing bytes with
  | nil => rfl
  | cons n a ih => simp [ih, List.drop_drop]

theorem writeChunk_eq (e : Endian) (n : ℕ) (h : FxHasher) (rest : Bytes) :
    writeChunk e n (h, rest) =
      ((((if n ≤ rest.length then [n] else []).splitLengths rest).map (fromNeBytes e)).foldl addToHash h,
        rest.drop (if n ≤ rest.length then n else 0)) := by
  unfold writeChunk splitFirstChunk
  by_cases hn : n ≤ rest.length <;> simp [hn]

theorem writeByte_eq (e : Endian) (h : FxHasher) {rest : Bytes} (hlen : rest.length < 2) :
    writeByte (h, rest) =
      (((if rest.length % 2 = 1 then [1] else []).splitLengths rest).map (fromNeBytes e)).foldl addToHash h := by
  match rest, hlen with
  | [], _ => rfl
  | [b], _ => simp [writeByte, fromNeBytes_singleton]

theorem writeTail_eq (e : Endian) (h : FxHasher) {rest : Bytes} (hlen : rest.length < 8) :
    writeByte (writeChunk e 2 (writeChunk e 4 (h, rest))) =
      (((tailSizes rest.length).splitLengths rest).map (fromNeBytes e)).foldl addToHash h := by
  have hfour : (rest.drop (if 4 ≤ rest.length then 4 else 0)).length = rest.length % 4 := by
    rw [List.length_drop]
    split <;> omega
  have hsum : ∀ c : Prop, [Decidable c] → ∀ n : ℕ, (if c then [n] else []).sum = if c then n else 0 := by
    intro c _ n
    split <;> simp
  rw [writeChunk_eq, writeChunk_eq, hfour, writeByte_eq e]
  · rw [tailSizes, splitLengths_append, splitLengths_append, List.map_append, List.map_append, List.foldl_append,
      List.foldl_append, List.sum_append, hsum, hsum, List.length_drop, hfour, ← List.drop_drop]
    have hlast : (rest.length % 4 - if 2 ≤ rest.length % 4 then 2 else 0) % 2 = rest.length % 2 := by split <;> omega
    rw [hlast]
  · rw [List.length_drop, hfour]
    split <;> omega

theorem writeLoop_eq (e : Endian) (h : FxHasher) (rest : Bytes) :
    writeByte (writeChunk e 2 (writeChunk e 4 (writeLoop e h rest))) =
      ((chunks rest).map (fromNeBytes e)).foldl addToHash h := by
  fun_induction writeLoop e h rest with
  | case1 h rest hge ih =>
    rw [ih, chunks, chunks, chunkSizes_of_ge hge, List.length_drop, List.splitLengths_cons, List.map_cons,
      List.foldl_cons]
  | case2 h rest hlt =>
    rw [writeTail_eq e h (not_le.mp hlt), chunks, chunkSizes_of_lt (not_le.mp hlt)]

/-- **A write mixes in the words of its input.** -/
theorem write_eq (e : Endian) (h : FxHasher) (bytes : Bytes) : h.write e bytes = (words e bytes).foldl addToHash h :=
  writeLoop_eq e _ bytes

/-! ## Collisions -/

/-- The step of the hasher as a mixer. -/
def mixer : Mixer FxHasher (BitVec 64) where
  step := addToHash
  keeps_state w s s' h := by
    have hmul := mul_injective (by decide : SEED * 0x2040003d780970bd#64 = 1#64) (congrArg FxHasher.hash h)
    have hrotate := rotateLeft_injective ROTATE (BitVec.xor_left_inj _ |>.mp hmul)
    exact congrArg FxHasher.mk hrotate
  keeps_word s w w' h := by
    have hmul := mul_injective (by decide : SEED * 0x2040003d780970bd#64 = 1#64) (congrArg FxHasher.hash h)
    exact BitVec.xor_right_inj _ |>.mp hmul

theorem write_absorb (e : Endian) (h : FxHasher) (bytes : Bytes) : h.write e bytes = mixer.absorb h (words e bytes) :=
  write_eq e h bytes

theorem finish_injective : Injective finish := fun _ _ h => congrArg FxHasher.mk h

theorem lt_of_mem_toNat (bytes : Bytes) {d : ℕ} (h : d ∈ bytes.map UInt8.toNat) : d < 256 := by
  obtain ⟨b, -, rfl⟩ := List.mem_map.mp h
  exact b.toNat_lt

theorem fromNeBytes_inj {e : Endian} {c c' : Bytes} (hlen : c.length = c'.length) (hle : c.length ≤ 8)
    (h : fromNeBytes e c = fromNeBytes e c') : c = c' := by
  have hdigits : ∀ {c : Bytes}, (e.digits c).length = c.length := fun {c} => by cases e <;> simp [Endian.digits]
  have hlt : ∀ {c : Bytes}, c.length ≤ 8 → Nat.ofDigits 256 ((e.digits c).map UInt8.toNat) < 2 ^ 64 := by
    intro c hc
    have hbound := Nat.ofDigits_lt_base_pow_length (by decide : 1 < 256) fun d => lt_of_mem_toNat (e.digits c)
    rw [List.length_map, hdigits] at hbound
    calc Nat.ofDigits 256 ((e.digits c).map UInt8.toNat) < 256 ^ c.length := hbound
      _ ≤ 256 ^ 8 := Nat.pow_le_pow_right (by decide) hc
      _ = 2 ^ 64 := by decide
  have hvalue := congrArg BitVec.toNat h
  simp only [fromNeBytes, BitVec.toNat_ofNat] at hvalue
  rw [Nat.mod_eq_of_lt (hlt hle), Nat.mod_eq_of_lt (hlt (hlen ▸ hle))] at hvalue
  have hmap := Nat.ofDigits_inj_of_len_eq (by decide) (by simp [hdigits, hlen]) (fun _ => lt_of_mem_toNat _)
    (fun _ => lt_of_mem_toNat _) hvalue
  have hbytes := List.map_injective_iff.mpr (fun _ _ => UInt8.toNat_inj.mp) hmap
  cases e with
  | little => exact hbytes
  | big => exact List.reverse_injective hbytes

/-- The words of inputs of one length that differ within one chunk differ at one position. -/
theorem differAt_words {e : Endian} {a b : Bytes} (hlen : a.length = b.length) (hne : a ≠ b) {k : ℕ}
    (hk : ∀ j ≠ k, (chunks a)[j]? = (chunks b)[j]?) : DifferAt (words e a) (words e b) (k + 1) := by
  have hsizes : (chunks a).map List.length = (chunks b).map List.length := by
    rw [length_chunks, length_chunks, hlen]
  have hcount : (chunks a).length = (chunks b).length := by simpa using congrArg List.length hsizes
  -- the chunk at `k` is there, and differs
  have hdiffer : (chunks a)[k]? ≠ (chunks b)[k]? := by
    intro heq
    have hall : chunks a = chunks b := List.ext_getElem? fun j => by
      by_cases hj : j = k
      · rw [hj, heq]
      · exact hk j hj
    exact hne (by rw [← flatten_chunks a, hall, flatten_chunks])
  refine ⟨by simp [words, hcount], ?_, ?_⟩
  · simp only [words, List.getElem?_cons_succ, List.getElem?_map]
    intro heq
    by_cases hlt : k < (chunks a).length
    · have hlt' : k < (chunks b).length := hcount ▸ hlt
      rw [List.getElem?_eq_getElem hlt, List.getElem?_eq_getElem hlt'] at heq hdiffer
      have hsame : (chunks a)[k].length = (chunks b)[k].length := by
        simpa [List.getElem?_eq_getElem hlt, List.getElem?_eq_getElem hlt'] using congrArg (·[k]?) hsizes
      have hle : (chunks a)[k].length ≤ 8 := by
        refine mem_chunkSizes (n := a.length) ?_
        rw [← length_chunks]
        exact List.mem_map.mpr ⟨_, List.getElem_mem hlt, rfl⟩
      exact hdiffer (congrArg some (fromNeBytes_inj hsame hle (Option.some.inj heq)))
    · exact hdiffer (by rw [List.getElem?_eq_none (by omega), List.getElem?_eq_none (by omega)])
  · intro j hj
    cases j with
    | zero => simp [words, hlen]
    | succ j =>
      simp only [words, List.getElem?_cons_succ, List.getElem?_map]
      rw [hk j (by omega)]

theorem writeStr_absorb (e : Endian) (h : FxHasher) (text : Bytes) :
    h.writeStr e text = mixer.absorb h (words e text ++ [0xff#64]) := by
  rw [writeStr, write_absorb, Mixer.absorb_append]
  rfl

/-- **The hasher does not collide on small differences**, from any state and in either byte order: texts whose words
differ at one position only never collide; so neither do texts of one length that differ within one chunk, nor texts of
different lengths whose chunks are the same words; and states that differ stay apart behind the same text. -/
theorem write_no_collision (e : Endian) (h : FxHasher) (a b : Bytes) :
    (∀ k, DifferAt (words e a) (words e b) k → (h.writeStr e a).finish ≠ (h.writeStr e b).finish) ∧
    (a.length = b.length → a ≠ b → (∃ k : ℕ, ∀ j ≠ k, (chunks a)[j]? = (chunks b)[j]?) →
      (h.writeStr e a).finish ≠ (h.writeStr e b).finish) ∧
    (a.length ≠ b.length → a.length < 2 ^ 64 → b.length < 2 ^ 64 →
      (chunks a).map (fromNeBytes e) = (chunks b).map (fromNeBytes e) →
        (h.writeStr e a).finish ≠ (h.writeStr e b).finish) ∧
    ∀ h' : FxHasher, h.finish ≠ h'.finish → (h.writeStr e a).finish ≠ (h'.writeStr e a).finish := by
  have hone : ∀ k, DifferAt (words e a) (words e b) k → (h.writeStr e a).finish ≠ (h.writeStr e b).finish := by
    intro k hdiffer
    rw [writeStr_absorb, writeStr_absorb, Mixer.absorb_append, Mixer.absorb_append]
    exact finish_injective.ne ((mixer.absorb_injective _).ne (mixer.absorb_ne_of_one hdiffer h))
  refine ⟨hone, ?_, ?_, ?_⟩
  · rintro hlen hne ⟨k, hk⟩
    exact hone (k + 1) (differAt_words hlen hne hk)
  · intro hlen ha hb hchunks
    refine hone 0 ⟨by simpa [words] using congrArg List.length hchunks, ?_, ?_⟩
    · intro heq
      have hword := congrArg BitVec.toNat (Option.some.inj heq)
      rw [BitVec.toNat_ofNat, BitVec.toNat_ofNat, Nat.mod_eq_of_lt ha, Nat.mod_eq_of_lt hb] at hword
      exact hlen hword
    · intro j hj
      cases j with
      | zero => exact absurd rfl hj
      | succ j => simp [words, hchunks]
  · intro h' hne
    rw [writeStr_absorb, writeStr_absorb]
    exact finish_injective.ne ((mixer.absorb_injective _).ne fun heq => hne (congrArg finish heq))

/-- One zero byte and two, and two host names that differ in their last byte. -/
theorem write_no_collision_zeros :
    (default.writeStr .little [0]).finish ≠ (default.writeStr .little [0, 0]).finish ∧
      (default.writeStr .little (ascii "api.example.com")).finish ≠
        (default.writeStr .little (ascii "api.example.con")).finish := by
  have ha : chunks (ascii "api.example.com") = [ascii "api.exam", ascii "ple.", ascii "co", ascii "m"] := by decide
  have hb : chunks (ascii "api.example.con") = [ascii "api.exam", ascii "ple.", ascii "co", ascii "n"] := by decide
  refine ⟨(write_no_collision .little default [0] [0, 0]).2.2.1 (by decide) (by decide) (by decide) (by decide),
    (write_no_collision .little default _ _).2.1 (by decide) (by decide) ⟨3, fun j hj => ?_⟩⟩
  rw [ha, hb]
  match j, hj with
  | 0, _ => rfl
  | 1, _ => rfl
  | 2, _ => rfl
  | j + 4, _ => simp

end FxHasher

end LbProxy.Core
