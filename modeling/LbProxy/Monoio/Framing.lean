import LbProxy.Monoio.Heads

/-!
# What the fields of a head fold to

* `lastOf` — the last field of a kind;
* `Reads` — the framing in terms of the last fields: the host, the length, and whether the last readable
  transfer coding is chunked;
* `foldlM_requestField`, `foldlM_requestField_isSome` — the fold reads them, and fails only on a length that is none;
* `foldl_responseField` — the framing of a response in these terms, where a length that is none is passed over;
* `lastOf_suffix`, `lastOf_filter` — what is left of them when fields are dropped.
-/

namespace LbProxy.Monoio

open Lib LbProxy.Core

/-! ## The last field of a kind -/

/-- The field has this name, up to case. -/
def named (name : Bytes) (h : Bytes × Bytes) : Bool := eqIgnoreAsciiCase h.1 name

def isHost : Bytes × Bytes → Bool := named (ascii "host")

def isLength : Bytes × Bytes → Bool := named (ascii "content-length")

def isCoding : Bytes × Bytes → Bool := named (ascii "transfer-encoding")

/-- A `Transfer-Encoding` field whose value is text; the others are passed over. -/
def isReadableCoding (h : Bytes × Bytes) : Bool := isCoding h && isUtf8 h.2

/-- The last field of a kind. -/
def lastOf (p : Bytes × Bytes → Bool) (fields : List (Bytes × Bytes)) : Option (Bytes × Bytes) :=
  (fields.filter p).getLast?

@[simp] theorem lastOf_nil (p : Bytes × Bytes → Bool) : lastOf p [] = none := rfl

theorem lastOf_append (p : Bytes × Bytes → Bool) (a b : List (Bytes × Bytes)) :
    lastOf p (a ++ b) = (lastOf p b).or (lastOf p a) := by
  simp [lastOf, List.getLast?_append]

theorem lastOf_cons (p : Bytes × Bytes → Bool) (x : Bytes × Bytes) (l : List (Bytes × Bytes)) :
    lastOf p (x :: l) = (lastOf p l).or (if p x then some x else none) := by
  rw [← List.singleton_append, lastOf_append]
  congr 1
  by_cases hx : p x <;> simp [lastOf, hx]

theorem lastOf_eq_some {p : Bytes × Bytes → Bool} {l : List (Bytes × Bytes)} {x : Bytes × Bytes}
    (h : lastOf p l = some x) : x ∈ l ∧ p x = true :=
  List.mem_filter.mp (List.mem_of_getLast? h)

theorem lastOf_eq_none {p : Bytes × Bytes → Bool} {l : List (Bytes × Bytes)} :
    lastOf p l = none ↔ ∀ x ∈ l, p x = false := by
  simp [lastOf]

theorem lastOf_suffix {p : Bytes × Bytes → Bool} {v l : List (Bytes × Bytes)} (hv : v <:+ l)
    (h : ∃ x ∈ v, p x = true) : lastOf p v = lastOf p l := by
  obtain ⟨a, rfl⟩ := hv
  obtain ⟨x, hx, hpx⟩ := h
  rw [lastOf_append]
  cases hlast : lastOf p v with
  | none => simp [lastOf_eq_none.mp hlast x hx] at hpx
  | some y => rfl

theorem lastOf_filter {p keep : Bytes × Bytes → Bool} {l : List (Bytes × Bytes)}
    (h : ∀ x ∈ l, p x = true → keep x = true) : lastOf p (l.filter keep) = lastOf p l := by
  rw [lastOf, lastOf, List.filter_filter]
  congr 1
  refine List.filter_congr fun x hx => ?_
  by_cases hpx : p x
  · simp [hpx, h x hx hpx]
  · simp [hpx]

/-! ## The fold -/

/-- The framing that the fields are read as, from what was known before them. -/
structure Reads (f₀ : Framing) (fields : List (Bytes × Bytes)) (f : Framing) : Prop where
  host : f.host = (lastOf isHost fields).elim f₀.host fun h => validateUtf8 h.2
  contentLength : f.contentLength = (lastOf isLength fields).elim f₀.contentLength fun h => contentLengthOf h.2
  chunked : f.chunked = (lastOf isReadableCoding fields).elim f₀.chunked fun h => endsInChunked h.2
  lengths : ∀ h ∈ fields, isLength h = true → ∃ n, contentLengthOf h.2 = some n

theorem named_ne {a b : Bytes} {h : Bytes × Bytes} (hab : lowercase a ≠ lowercase b) (ha : named a h = true) :
    named b h = false := by
  simp only [named, eqIgnoreAsciiCase, beq_iff_eq] at ha
  simp only [named, eqIgnoreAsciiCase, ha, beq_eq_false_iff_ne]
  exact hab

theorem requestField_reads {f f' : Framing} {h : Bytes × Bytes} (hf : requestField f h = some f') :
    Reads f [h] f' := by
  unfold requestField at hf
  have hlast : ∀ p : Bytes × Bytes → Bool, lastOf p [h] = if p h then some h else none := fun p => by
    rw [lastOf_cons, lastOf_nil, Option.none_or]
  split at hf
  · rename_i hname
    have hhost : isHost h = true := hname
    have hlen : isLength h = false := named_ne (by decide) hname
    have hcod : isCoding h = false := named_ne (by decide) hname
    obtain rfl := Option.some.inj hf
    exact ⟨by simp [hlast, hhost], by simp [hlast, hlen], by simp [hlast, isReadableCoding, hcod], by simp [hlen]⟩
  · rename_i hname
    have hhost : isHost h = false := Bool.eq_false_iff.mpr hname
    split at hf
    · rename_i hname
      have hlen : isLength h = true := hname
      have hcod : isCoding h = false := named_ne (by decide) hname
      obtain ⟨n, hn, rfl⟩ := Option.map_eq_some_iff.mp hf
      exact ⟨by simp [hlast, hhost], by simp [hlast, hlen, hn], by simp [hlast, isReadableCoding, hcod],
        by simp [hn]⟩
    · rename_i hname
      have hlen : isLength h = false := Bool.eq_false_iff.mpr hname
      split at hf
      · rename_i hname
        have hcod : isCoding h = true := hname
        obtain rfl := Option.some.inj hf
        refine ⟨by simp [hlast, hhost], by simp [hlast, hlen], ?_, by simp [hlen]⟩
        by_cases hutf : isUtf8 h.2 <;> simp [hlast, isReadableCoding, hcod, hutf, transferEncoding, validateUtf8]
      · rename_i hname
        have hcod : isCoding h = false := Bool.eq_false_iff.mpr hname
        split at hf
        all_goals
          obtain rfl := Option.some.inj hf
          exact ⟨by simp [hlast, hhost], by simp [hlast, hlen], by simp [hlast, isReadableCoding, hcod],
            by simp [hlen]⟩

theorem requestField_isSome (f : Framing) {h : Bytes × Bytes}
    (hlen : isLength h = true → ∃ n, contentLengthOf h.2 = some n) : ∃ f', requestField f h = some f' := by
  unfold requestField
  split
  · exact ⟨_, rfl⟩
  · split
    · rename_i hname
      obtain ⟨n, hn⟩ := hlen hname
      exact ⟨_, by rw [hn]; rfl⟩
    · split
      · exact ⟨_, rfl⟩
      · split <;> exact ⟨_, rfl⟩

theorem Reads.cons {f₀ f₁ f : Framing} {h : Bytes × Bytes} {l : List (Bytes × Bytes)} (h1 : Reads f₀ [h] f₁)
    (h2 : Reads f₁ l f) : Reads f₀ (h :: l) f where
  host := by
    rw [h2.host, ← List.singleton_append, lastOf_append]
    cases hl : lastOf isHost l with
    | none => simpa using h1.host
    | some x => simp
  contentLength := by
    rw [h2.contentLength, ← List.singleton_append, lastOf_append]
    cases hl : lastOf isLength l with
    | none => simpa using h1.contentLength
    | some x => simp
  chunked := by
    rw [h2.chunked, ← List.singleton_append, lastOf_append]
    cases hl : lastOf isReadableCoding l with
    | none => simpa using h1.chunked
    | some x => simp
  lengths := by
    intro x hx
    rcases List.mem_cons.mp hx with rfl | hx
    · exact h1.lengths x List.mem_cons_self
    · exact h2.lengths x hx

/-- **The fold reads the last fields.** -/
theorem foldlM_requestField {fields : List (Bytes × Bytes)} {f₀ f : Framing}
    (h : fields.foldlM requestField f₀ = some f) : Reads f₀ fields f := by
  induction fields generalizing f₀ with
  | nil =>
    obtain rfl : f₀ = f := Option.some.inj h
    exact ⟨rfl, rfl, rfl, by simp⟩
  | cons x l ih =>
    rw [List.foldlM_cons] at h
    obtain ⟨f₁, h1, h2⟩ := Option.bind_eq_some_iff.mp h
    exact (requestField_reads h1).cons (ih h2)

theorem foldlM_requestField_isSome {fields : List (Bytes × Bytes)} (f₀ : Framing)
    (h : ∀ x ∈ fields, isLength x = true → ∃ n, contentLengthOf x.2 = some n) :
    ∃ f, fields.foldlM requestField f₀ = some f := by
  induction fields generalizing f₀ with
  | nil => exact ⟨f₀, rfl⟩
  | cons x l ih =>
    obtain ⟨f₁, h1⟩ := requestField_isSome f₀ (h x List.mem_cons_self)
    obtain ⟨f, hf⟩ := ih f₁ fun y hy => h y (List.mem_cons_of_mem _ hy)
    refine ⟨f, ?_⟩
    rw [List.foldlM_cons, h1]
    exact hf

/-- The framing of a head, in terms of its last fields. -/
theorem framingOf_reads {l : RequestLayout} {f : Framing} (h : framingOf l = some f) :
    Reads (Framing.init (some (l.minor : ℕ) != some 0)) (l.fields.map FieldLayout.field) f :=
  foldlM_requestField h

/-- The last `Host` field of a head, as text. -/
def lastHostOf (fields : List (Bytes × Bytes)) : Option Bytes := (valuesOf fields HOST).getLast?.bind validateUtf8

theorem lastOf_isHost_elim (fields : List (Bytes × Bytes)) :
    ((lastOf isHost fields).elim none fun h => validateUtf8 h.2) = lastHostOf fields := by
  have hfilter : fields.filter (fun f => lowercase f.1 == HOST) = fields.filter isHost := rfl
  rw [lastHostOf, valuesOf, hfilter, List.getLast?_map, lastOf]
  cases (fields.filter isHost).getLast? <;> rfl

/-! ## Responses -/

/-- Whether the last readable transfer coding is chunked. -/
def codingOf (fields : List (Bytes × Bytes)) : Bool :=
  (lastOf isReadableCoding fields).elim false fun h => endsInChunked h.2

/-- What the last length is read as. -/
def lengthOf (fields : List (Bytes × Bytes)) : Option ℕ :=
  (lastOf isLength fields).elim none fun h => contentLengthOf h.2

theorem responseField_reads (f : Framing) (h : Bytes × Bytes) :
    (responseField f h).chunked = (lastOf isReadableCoding [h]).elim f.chunked (fun h => endsInChunked h.2) ∧
      (responseField f h).contentLength = (lastOf isLength [h]).elim f.contentLength fun h => contentLengthOf h.2 := by
  have hlast : ∀ p : Bytes × Bytes → Bool, lastOf p [h] = if p h then some h else none := fun p => by
    rw [lastOf_cons, lastOf_nil, Option.none_or]
  unfold responseField
  split
  · rename_i hname
    have hlen : isLength h = true := hname
    have hcod : isCoding h = false := named_ne (by decide) hname
    simp [hlast, hlen, isReadableCoding, hcod]
  · rename_i hname
    have hlen : isLength h = false := Bool.eq_false_iff.mpr hname
    split
    · rename_i hname
      have hcod : isCoding h = true := hname
      by_cases hutf : isUtf8 h.2 <;> simp [hlast, hlen, isReadableCoding, hcod, hutf, transferEncoding, validateUtf8]
    · rename_i hname
      have hcod : isCoding h = false := Bool.eq_false_iff.mpr hname
      split <;> simp [hlast, hlen, isReadableCoding, hcod]

/-- **The fold of a response reads the last fields.** -/
theorem foldl_responseField (fields : List (Bytes × Bytes)) (f : Framing) :
    (fields.foldl responseField f).chunked =
        (lastOf isReadableCoding fields).elim f.chunked (fun h => endsInChunked h.2) ∧
      (fields.foldl responseField f).contentLength =
        (lastOf isLength fields).elim f.contentLength fun h => contentLengthOf h.2 := by
  induction fields generalizing f with
  | nil => exact ⟨rfl, rfl⟩
  | cons x l ih =>
    obtain ⟨h1, h2⟩ := responseField_reads f x
    obtain ⟨ih1, ih2⟩ := ih (responseField f x)
    have hcons : ∀ p, lastOf p (x :: l) = (lastOf p l).or (lastOf p [x]) := fun p => lastOf_append p [x] l
    rw [List.foldl_cons, ih1, ih2, h1, h2, hcons, hcons]
    refine ⟨?_, ?_⟩
    · cases lastOf isReadableCoding l <;> simp
    · cases lastOf isLength l <;> simp

end LbProxy.Monoio
