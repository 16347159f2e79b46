import LbProxy.Core.Lookup
import LbProxy.Lib.Lanes

/-!
# The vector paths of the byte primitives (`simd.rs`)

* `foldBiased`, `foldUnsigned` — fold the case of a block: with biased signed compares (AVX2, SSE2), and with
  unsigned ones (NEON);
* `eqBlocks`, `lowercaseBlocks` — the block loops with their scalar tails; `none` is an access outside of a slice;
* `eqIgnoreAsciiCase`, `lowercaseAsciiInto` — the dispatchers, for each target;
* `eqIgnoreAsciiCase_eq_scalar` — every path agrees with the scalar twin, and stays inside both slices;
* `lowercaseAsciiInto_eq` — every path lowercases exactly the source, and nothing past it;
* `lowercase_exact` — so the result is UTF-8 if the source is, and routing ignores the case of a host that fits.
-/

namespace LbProxy.Core.Simd

open Lib Lanes

/-! ## Blocks -/

section Blocks

variable {w : ℕ}

/-- Fold case with signed compares, so bias the range check by `0x80`. -/
def foldBiased (v : Lanes w) : Lanes w :=
  let s := Lanes.xor v (splat 0x80)
  let up := Lanes.and (cmpGtSigned s (splat ((65 ^^^ 0x80) - 1))) (cmpGtSigned (splat ((90 ^^^ 0x80) + 1)) s)
  Lanes.or v (Lanes.and up (splat 0x20))

/-- Fold case with unsigned compares. -/
def foldUnsigned (v : Lanes w) : Lanes w :=
  let up := Lanes.and (cmpGe v (splat 65)) (cmpLe v (splat 90))
  Lanes.or v (Lanes.and up (splat 0x20))

theorem forall_byte {P : UInt8 → Prop} (h : ∀ n : Fin 256, P (UInt8.ofFin n)) (b : UInt8) : P b := h b.toFin

/-- The bias makes the signed compares exact at `'@'`, `'['` and from `0x80` on. -/
theorem foldBiased_byte (b : UInt8) :
    b ||| (mask (((65 ^^^ 0x80) - 1 : UInt8).toInt8 < (b ^^^ 0x80).toInt8) &&&
      mask ((b ^^^ 0x80).toInt8 < ((90 ^^^ 0x80) + 1 : UInt8).toInt8) &&& 0x20) = toLower b := by
  revert b
  exact forall_byte (by decide +kernel)

theorem foldUnsigned_byte (b : UInt8) : b ||| (mask (65 ≤ b) &&& mask (b ≤ 90) &&& 0x20) = toLower b := by
  revert b
  exact forall_byte (by decide +kernel)

theorem toList_foldBiased (v : Lanes w) : (foldBiased v).toList = lowercase v.toList := by
  have hmap : foldBiased v = v.map toLower := by
    refine Vector.ext fun i hi => ?_
    simp only [foldBiased, Lanes.or, Lanes.and, cmpGtSigned, Lanes.xor, splat, Vector.getElem_zipWith,
      Vector.getElem_replicate, Vector.getElem_map]
    exact foldBiased_byte v[i]
  rw [hmap, Vector.toList_map, lowercase]

theorem toList_foldUnsigned (v : Lanes w) : (foldUnsigned v).toList = lowercase v.toList := by
  have hmap : foldUnsigned v = v.map toLower := by
    refine Vector.ext fun i hi => ?_
    simp only [foldUnsigned, Lanes.or, Lanes.and, cmpGe, cmpLe, splat, Vector.getElem_zipWith,
      Vector.getElem_replicate, Vector.getElem_map]
    exact foldUnsigned_byte v[i]
  rw [hmap, Vector.toList_map, lowercase]

end Blocks

/-! ## Comparison -/

/-- Portable reference implementation. -/
def eqIgnoreAsciiCaseScalar (a b : Bytes) : Bool :=
  a.length == b.length && (a.zip b).all fun x => toLower x.1 == toLower x.2

/-- `&s[i..]`; out of range is a panic. -/
def sliceFrom (s : Bytes) (i : ℕ) : Option Bytes := if i ≤ s.length then some (s.drop i) else none

/-- Compare block by block while a whole block is left, then compare the tail. -/
def eqBlocks (w : ℕ) [NeZero w] (agree : Lanes w → Lanes w → Bool) (a b : Bytes) (pa pb i : ℕ) : Option Bool :=
  if i + w ≤ a.length then do
    let va ← load w a pa
    let vb ← load w b pb
    if agree va vb then eqBlocks w agree a b (pa + w) (pb + w) (i + w) else some false
  else do
    let ta ← sliceFrom a i
    let tb ← sliceFrom b i
    some (eqIgnoreAsciiCaseScalar ta tb)
termination_by a.length - i
decreasing_by
  have := Nat.pos_of_neZero w
  omega

def eqIgnoreAsciiCaseAvx2 (a b : Bytes) : Option Bool :=
  eqBlocks 32 (fun va vb => movemask (cmpEq (foldBiased va) (foldBiased vb)) == -1) a b 0 0 0

def eqIgnoreAsciiCaseSse2 (a b : Bytes) : Option Bool :=
  eqBlocks 16 (fun va vb => movemask (cmpEq (foldBiased va) (foldBiased vb)) == 0xFFFF) a b 0 0 0

def eqIgnoreAsciiCaseNeon (a b : Bytes) : Option Bool :=
  eqBlocks 16 (fun va vb => minv (cmpEq (foldUnsigned va) (foldUnsigned vb)) == 0xFF) a b 0 0 0

/-- The targets: `avx2` is what the probe has found. -/
inductive Arch where
  | aarch64
  | x86_64 (avx2 : Bool)
  | other
  deriving DecidableEq, Repr

/-- Vectorised ASCII-case-insensitive equality. -/
def eqIgnoreAsciiCase (arch : Arch) (a b : Bytes) : Option Bool :=
  if a.length ≠ b.length then some false
  else match arch with
    | .aarch64 => eqIgnoreAsciiCaseNeon a b
    | .x86_64 true => eqIgnoreAsciiCaseAvx2 a b
    | .x86_64 false => eqIgnoreAsciiCaseSse2 a b
    | .other => some (eqIgnoreAsciiCaseScalar a b)

theorem eqIgnoreAsciiCaseScalar_eq (a b : Bytes) : eqIgnoreAsciiCaseScalar a b = Lib.eqIgnoreAsciiCase a b := by
  unfold eqIgnoreAsciiCaseScalar Lib.eqIgnoreAsciiCase
  induction a generalizing b with
  | nil => cases b <;> rfl
  | cons x a ih =>
    cases b with
    | nil => rfl
    | cons y b =>
      have := ih b
      rw [Bool.eq_iff_iff] at this ⊢
      simp only [Bool.and_eq_true, beq_iff_eq, List.length_cons, Nat.add_right_cancel_iff, List.zip_cons_cons,
        List.all_cons, lowercase_cons, List.cons.injEq] at this ⊢
      rw [← this]
      tauto

/-- **The block loop agrees with the scalar comparison of what is left**, if the test of a block asks whether the
blocks agree up to case. -/
theorem eqBlocks_eq {w : ℕ} [NeZero w] {agree : Lanes w → Lanes w → Bool}
    (hagree : ∀ va vb, agree va vb = true ↔ lowercase va.toList = lowercase vb.toList) {a b : Bytes}
    (hlen : a.length = b.length) {i : ℕ} (hi : i ≤ a.length) :
    eqBlocks w agree a b i i i = some (Lib.eqIgnoreAsciiCase (a.drop i) (b.drop i)) := by
  induction hn : a.length - i using Nat.strong_induction_on generalizing i with
  | _ n ih =>
    have hw := Nat.pos_of_neZero w
    rw [eqBlocks]
    split
    · rename_i hle
      obtain ⟨va, hva, hlistA⟩ := load_eq hle
      obtain ⟨vb, hvb, hlistB⟩ := load_eq (hlen ▸ hle)
      have hsplitA : a.drop i = va.toList ++ a.drop (i + w) := by
        rw [hlistA, ← List.drop_drop, List.take_append_drop]
      have hsplitB : b.drop i = vb.toList ++ b.drop (i + w) := by
        rw [hlistB, ← List.drop_drop, List.take_append_drop]
      simp only [hva, hvb, Option.bind_eq_bind, Option.bind_some]
      rw [hsplitA, hsplitB, Lib.eqIgnoreAsciiCase, lowercase_append, lowercase_append]
      split
      · rename_i htrue
        rw [ih (a.length - (i + w)) (by omega) hle rfl, Lib.eqIgnoreAsciiCase, (hagree va vb).mp htrue]
        congr 1
        rw [Bool.eq_iff_iff, beq_iff_eq, beq_iff_eq, List.append_cancel_left_eq]
      · rename_i hfalse
        congr 1
        symm
        rw [beq_eq_false_iff_ne]
        intro heq
        have hsame := (List.append_inj heq (by simp)).1
        exact hfalse ((hagree va vb).mpr hsame)
    · simp only [sliceFrom, if_pos hi, if_pos (hlen ▸ hi), Option.bind_eq_bind, Option.bind_some,
        eqIgnoreAsciiCaseScalar_eq]

theorem agree_x86 {w : ℕ} (hw : w ≤ 32) (va vb : Lanes w) :
    (movemask (cmpEq (foldBiased va) (foldBiased vb)) == (BitVec.allOnes w).setWidth 32) = true ↔
      lowercase va.toList = lowercase vb.toList := by
  rw [beq_iff_eq, movemask_cmpEq hw, ← Vector.toList_inj, toList_foldBiased, toList_foldBiased]

theorem agree_neon {w : ℕ} (va vb : Lanes w) :
    (minv (cmpEq (foldUnsigned va) (foldUnsigned vb)) == 0xFF) = true ↔
      lowercase va.toList = lowercase vb.toList := by
  rw [beq_iff_eq, minv_cmpEq, ← Vector.toList_inj, toList_foldUnsigned, toList_foldUnsigned]

/-- **The vectorised comparison equals the scalar one**, on every target and for all slices; no load leaves its
slice. -/
theorem eqIgnoreAsciiCase_eq_scalar (arch : Arch) (a b : Bytes) :
    eqIgnoreAsciiCase arch a b = some (eqIgnoreAsciiCaseScalar a b) := by
  unfold eqIgnoreAsciiCase
  split
  · rename_i hlen
    rw [eqIgnoreAsciiCaseScalar, beq_eq_false_iff_ne.mpr hlen, Bool.false_and]
  · rename_i hlen
    have hlen := not_not.mp hlen
    rw [eqIgnoreAsciiCaseScalar_eq]
    cases arch with
    | aarch64 => exact eqBlocks_eq agree_neon hlen (Nat.zero_le _)
    | x86_64 avx2 =>
      cases avx2 with
      | true => exact eqBlocks_eq (agree_x86 le_rfl) hlen (Nat.zero_le _)
      | false => exact eqBlocks_eq (agree_x86 (by omega)) hlen (Nat.zero_le _)
    | other => rw [← eqIgnoreAsciiCaseScalar_eq]

/-! ## Lowercasing -/

/-- Lowercase in place block by block while a whole block of the `len` bytes is left, then the tail. -/
def lowercaseBlocks (w : ℕ) [NeZero w] (fold : Lanes w → Lanes w) (len : ℕ) (buf : Bytes) (p i : ℕ) : Option Bytes :=
  if i + w ≤ len then do
    let v ← load w buf p
    let buf ← store buf p (fold v)
    lowercaseBlocks w fold len buf (p + w) (i + w)
  else do
    let tail ← sliceFrom buf i
    some (buf.take i ++ lowercase tail)
termination_by len - i
decreasing_by
  have := Nat.pos_of_neZero w
  omega

def lowercaseAsciiSse2 (buf : Bytes) : Option Bytes := lowercaseBlocks 16 foldBiased buf.length buf 0 0

def lowercaseAsciiNeon (buf : Bytes) : Option Bytes := lowercaseBlocks 16 foldUnsigned buf.length buf 0 0

/-- Lowercase ASCII bytes into `dst`: the written slice, and what `dst` holds afterwards. -/
def lowercaseAsciiInto (arch : Arch) (src dst : Bytes) : Option (Option Bytes × Bytes) :=
  if dst.length < src.length then some (none, dst)
  else do
    -- `dst[..n]` is a copy of the source
    let written ← match arch with
      | .aarch64 => lowercaseAsciiNeon src
      | .x86_64 _ => lowercaseAsciiSse2 src
      | .other => some (lowercase src)
    some (some written, written ++ dst.drop src.length)

/-- **The block loop lowercases what is left and leaves what stands before it.** -/
theorem lowercaseBlocks_eq {w : ℕ} [NeZero w] {fold : Lanes w → Lanes w}
    (hfold : ∀ v, (fold v).toList = lowercase v.toList) {buf : Bytes} {i : ℕ} (hi : i ≤ buf.length) :
    lowercaseBlocks w fold buf.length buf i i = some (buf.take i ++ lowercase (buf.drop i)) := by
  induction hn : buf.length - i using Nat.strong_induction_on generalizing i buf with
  | _ n ih =>
    have hw := Nat.pos_of_neZero w
    rw [lowercaseBlocks]
    split
    · rename_i hle
      obtain ⟨v, hv, hlist⟩ := load_eq hle
      obtain ⟨buf', hbuf'⟩ : ∃ buf', buf' = buf.take i ++ lowercase v.toList ++ buf.drop (i + w) := ⟨_, rfl⟩
      have hlen : buf'.length = buf.length := by
        rw [hbuf']
        simp
        omega
      have hfront : (buf.take i ++ lowercase v.toList).length = i + w := by
        simp
        omega
      have hrec : lowercaseBlocks w fold buf'.length buf' (i + w) (i + w) =
          some (buf'.take (i + w) ++ lowercase (buf'.drop (i + w))) :=
        ih (buf.length - (i + w)) (by omega) (by omega) (by omega)
      rw [hlen, hbuf', ← hfront, List.take_left, List.drop_left, hfront] at hrec
      simp only [hv, store_eq hle, hfold, Option.bind_eq_bind, Option.bind_some]
      rw [hrec, List.append_assoc, ← lowercase_append, hlist, ← List.drop_drop, List.take_append_drop]
    · simp only [sliceFrom, if_pos hi, Option.bind_eq_bind, Option.bind_some]

/-- **Every path lowercases exactly the source**, fails exactly when the destination is too short, and writes
nothing past the source's length. -/
theorem lowercaseAsciiInto_eq (arch : Arch) (src dst : Bytes) :
    lowercaseAsciiInto arch src dst = some
      (if dst.length < src.length then (none, dst)
        else (some (lowercase src), lowercase src ++ dst.drop src.length)) := by
  have hblocks : ∀ fold : Lanes 16 → Lanes 16, (∀ v, (fold v).toList = lowercase v.toList) →
      lowercaseBlocks 16 fold src.length src 0 0 = some (lowercase src) := by
    intro fold hfold
    have h := lowercaseBlocks_eq hfold (Nat.zero_le src.length)
    rwa [List.take_zero, List.drop_zero, List.nil_append] at h
  unfold lowercaseAsciiInto
  split
  · rfl
  · cases arch with
    | aarch64 => simp only [lowercaseAsciiNeon, hblocks _ toList_foldUnsigned, Option.bind_eq_bind, Option.bind_some]
    | x86_64 avx2 => simp only [lowercaseAsciiSse2, hblocks _ toList_foldBiased, Option.bind_eq_bind, Option.bind_some]
    | other => rfl

theorem lowercaseAsciiInto_slice (arch : Arch) (src dst : Bytes) :
    (lowercaseAsciiInto arch src dst).map (·.1) = some (Core.lowercaseAsciiInto src dst.length) := by
  rw [lowercaseAsciiInto_eq, Core.lowercaseAsciiInto, Option.map_some]
  split <;> rfl

/-! ## UTF-8 -/

theorem toLower_of_ge {b : UInt8} (h : ¬ b < 0x80) : toLower b = b := by
  revert h
  exact forall_byte (P := fun b => ¬ b < 0x80 → toLower b = b) (by decide +kernel) b

theorem toLower_lt_iff (b : UInt8) : toLower b < 0x80 ↔ b < 0x80 :=
  forall_byte (P := fun b => toLower b < 0x80 ↔ b < 0x80) (by decide +kernel) b

theorem isCont_toLower (b : UInt8) : isCont (toLower b) = isCont b :=
  forall_byte (P := fun b => isCont (toLower b) = isCont b) (by decide +kernel) b

/-- The ranges of a second byte start at `0x80` or later, so folding does not move it in or out. -/
theorem isThree_toLower (b b' : UInt8) : isThree b (toLower b') = isThree b b' := by
  by_cases h : b' < 0x80
  · have hout : ∀ {x : UInt8}, x < 0x80 → isThree b x = false := by
      intro x hx
      simp only [isThree, isCont, UInt8.lt_iff_toNat_lt, UInt8.le_iff_toNat_le, UInt8.toNat_ofNat] at hx ⊢
      simp only [Bool.or_eq_false_iff, Bool.and_eq_false_iff, decide_eq_false_iff_not]
      omega
    rw [hout h, hout ((toLower_lt_iff b').mpr h)]
  · rw [toLower_of_ge h]

theorem isFour_toLower (b b' : UInt8) : isFour b (toLower b') = isFour b b' := by
  by_cases h : b' < 0x80
  · have hout : ∀ {x : UInt8}, x < 0x80 → isFour b x = false := by
      intro x hx
      simp only [isFour, isCont, UInt8.lt_iff_toNat_lt, UInt8.le_iff_toNat_le, UInt8.toNat_ofNat] at hx ⊢
      simp only [Bool.or_eq_false_iff, Bool.and_eq_false_iff, decide_eq_false_iff_not]
      omega
    rw [hout h, hout ((toLower_lt_iff b').mpr h)]
  · rw [toLower_of_ge h]

/-- **Lowercasing keeps UTF-8 valid**: multi-byte sequences are untouched. -/
theorem isUtf8_lowercase (s : Bytes) : isUtf8 (lowercase s) = isUtf8 s := by
  fun_induction isUtf8 s with
  | case1 => rfl
  | case2 b s hb ih => rw [lowercase_cons, isUtf8_cons_of_lt ((toLower_lt_iff b).mpr hb), ih]
  | case3 b hb => simp [isUtf8, toLower_of_ge hb, hb]
  | case4 b hb b1 s htwo ih =>
    simp only [lowercase_cons, toLower_of_ge hb]
    rw [isUtf8.eq_def]
    simp only [hb, htwo, if_true, if_false, isCont_toLower, ih]
  | case5 b hb b1 htwo => simp [isUtf8, toLower_of_ge hb, hb, htwo]
  | case6 b hb b1 htwo b2 s hthree ih =>
    simp only [lowercase_cons, toLower_of_ge hb]
    rw [isUtf8.eq_def]
    simp only [hb, htwo, isThree_toLower, hthree, if_true, if_false, isCont_toLower, ih]
    rfl
  | case7 b hb b1 htwo b2 hthree => simp [isUtf8, toLower_of_ge hb, hb, htwo, isThree_toLower, hthree]
  | case8 b hb b1 htwo b2 hthree b3 s ih =>
    simp only [lowercase_cons, toLower_of_ge hb]
    rw [isUtf8.eq_def]
    simp only [hb, htwo, isThree_toLower, hthree, isFour_toLower, if_false, isCont_toLower, ih]
    rfl

/-! ## Host matching -/

theorem hostWithoutPort_lowercase (h : Bytes) : hostWithoutPort (lowercase h) = lowercase (hostWithoutPort h) := by
  have hbyte : ∀ c : UInt8, ¬ (97 ≤ c ∧ c ≤ 122) → ¬ (65 ≤ c ∧ c ≤ 90) → ∀ b, (toLower b == c) = (b == c) :=
    fun c hc hC b => by rw [Bool.eq_iff_iff, beq_iff_eq, beq_iff_eq, toLower_eq_iff hc hC]
  have hfind : ∀ c : UInt8, ¬ (97 ≤ c ∧ c ≤ 122) → ¬ (65 ≤ c ∧ c ≤ 90) →
      findByte c (lowercase h) = findByte c h := by
    intro c hc hC
    rw [findByte, lowercase, List.findIdx?_map, findByte]
    congr 1
    funext b
    exact hbyte c hc hC b
  have hhead : (lowercase h).head? = some 91 ↔ h.head? = some 91 := by
    cases h with
    | nil => rfl
    | cons b h => simp [toLower_eq_iff (b := b) (c := 91) (by decide) (by decide)]
  have htake : ∀ n, lowercase (h.take n) = (lowercase h).take n := fun n => by rw [lowercase, lowercase, List.map_take]
  unfold hostWithoutPort
  rw [hfind 93 (by decide) (by decide), hfind 58 (by decide) (by decide)]
  by_cases hb : h.head? = some 91
  · rw [if_pos hb, if_pos (hhead.mpr hb)]
    cases findByte 93 h with
    | none => rfl
    | some close => exact (htake _).symm
  · rw [if_neg hb, if_neg fun hc => hb (hhead.mp hc)]
    cases findByte 58 h with
    | none => rfl
    | some pos => exact (htake _).symm

/-- **Routing ignores the ASCII case of a host that fits the buffer.** -/
theorem lookup_ignores_case {m : PathRouter} (t : RouteTable m) {host host' : Bytes}
    (hlen : (hostWithoutPort host).length ≤ MAX_HOST_LEN) (h : lowercase host = lowercase host') (path : Bytes) :
    t.lookup (some host) path = t.lookup (some host') path := by
  have hsame : lowercase (hostWithoutPort host) = lowercase (hostWithoutPort host') := by
    rw [← hostWithoutPort_lowercase, h, hostWithoutPort_lowercase]
  have hlen' : (hostWithoutPort host').length ≤ MAX_HOST_LEN := by
    rw [← length_lowercase, ← hsame, length_lowercase]
    exact hlen
  have hnorm : RouteTable.normalizeHost host = RouteTable.normalizeHost host' := by
    rw [normalizeHost_of_le hlen, normalizeHost_of_le hlen', hsame]
  simp only [RouteTable.lookup, Option.bind_some]
  rw [hnorm]

/-- **Vectorised lowercasing is exact and keeps UTF-8 valid**; it is what `lookup` normalises a host with, and routing
ignores the ASCII case of every host that fits the stack buffer once its port is stripped. -/
theorem lowercase_exact (arch : Arch) :
    (∀ src dst : Bytes, ∃ out dst', lowercaseAsciiInto arch src dst = some (out, dst') ∧
      (out = none ↔ dst.length < src.length) ∧ (out = none → dst' = dst) ∧
      ∀ written, out = some written → written = lowercase src ∧ dst' = written ++ dst.drop src.length ∧
        (isUtf8 src = true → isUtf8 written = true)) ∧
    (∀ src dst : Bytes, (lowercaseAsciiInto arch src dst).map (·.1) = some (Core.lowercaseAsciiInto src dst.length)) ∧
    ∀ (m : PathRouter) (t : RouteTable m) (host host' path : Bytes),
      (hostWithoutPort host).length ≤ MAX_HOST_LEN → lowercase host = lowercase host' →
        t.lookup (some host) path = t.lookup (some host') path := by
  refine ⟨fun src dst => ?_, lowercaseAsciiInto_slice arch,
    fun m t host host' path hlen h => lookup_ignores_case t hlen h path⟩
  by_cases hshort : dst.length < src.length
  · exact ⟨none, dst, by rw [lowercaseAsciiInto_eq, if_pos hshort], by simpa using hshort, fun _ => rfl, by simp⟩
  · refine ⟨some (lowercase src), lowercase src ++ dst.drop src.length,
      by rw [lowercaseAsciiInto_eq, if_neg hshort], by simpa using hshort, by simp, ?_⟩
    rintro written ⟨rfl⟩
    exact ⟨rfl, rfl, fun hutf => (isUtf8_lowercase src).trans hutf⟩

/-- A table with one route, for a host of 300 letters. -/
def longHost : List RouteSpec :=
  [⟨some (List.replicate 300 97), [47], .pathPrefix, [⟨ascii "a:80", 1⟩], ⟨none⟩, ascii "r"⟩]

/-- A host past the buffer is matched with its case as it is. -/
theorem long_host_is_case_sensitive :
    ¬ ∀ (m : PathRouter) (t : RouteTable m) (host host' path : Bytes), lowercase host = lowercase host' →
      t.lookup (some host) path = t.lookup (some host') path := by
  intro h
  have hcase := h PathRouter.reference (RouteTableBuilder.buildAll PathRouter.reference longHost)
    (List.replicate 300 97) (List.replicate 300 65) [47] (by decide +kernel)
  have hlower : ((RouteTableBuilder.buildAll PathRouter.reference longHost).lookup
      (some (List.replicate 300 97)) [47]).isSome = true := by decide +kernel
  have hupper : ((RouteTableBuilder.buildAll PathRouter.reference longHost).lookup
      (some (List.replicate 300 65)) [47]).isSome = false := by decide +kernel
  rw [hcase, hupper] at hlower
  cases hlower

end LbProxy.Core.Simd
