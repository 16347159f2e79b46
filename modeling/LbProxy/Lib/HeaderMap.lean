import LbProxy.Lib.Bytes
import Mathlib.Data.List.Dedup

/-!
# Header multimaps and URIs: the contract of an HTTP library

* `HeaderTypes` — header names, header values and a header multimap, as an interface;
* `HeaderTypes.Laws` — what such a library documents: names are tokens and normalised to lower case,
  text values are visible ASCII, and the multimap is determined by the values it lists per name;
* `HeaderTypes.reference` — a list-backed library that satisfies the contract;
* `UriTypes`, `UriTypes.Laws` — the parts of a URI, by their text.
-/

namespace LbProxy.Lib

/-- A `tchar`. -/
def isToken (b : UInt8) : Bool :=
  (48 ≤ b && b ≤ 57) || (65 ≤ b && b ≤ 90) || (97 ≤ b && b ≤ 122) ||
    (ascii "!#$%&'*+-.^_\x60|~").contains b

/-- Visible ASCII, space or tab. -/
def isVisible (b : UInt8) : Bool := (32 ≤ b && b ≤ 126) || b == 9

/-- The interface of a header library. -/
structure HeaderTypes where
  /-- Validate and normalise a header name. -/
  nameFromBytes : Bytes → Option Bytes
  /-- Validate a header value given as text. -/
  valueFromStr : Bytes → Option Bytes
  /-- The text of a header value. -/
  toStr : Bytes → Option Bytes
  Map : Type
  empty : Map
  /-- Replace all values of a name by one. -/
  insert : Map → Bytes → Bytes → Map
  /-- Add one value of a name behind the others. -/
  append : Map → Bytes → Bytes → Map
  /-- Delete all values of a name. -/
  remove : Map → Bytes → Map
  /-- The values of a name, in order. -/
  getAll : Map → Bytes → List Bytes
  /-- The names that have a value. -/
  keys : Map → List Bytes

namespace HeaderTypes

variable (ht : HeaderTypes)

/-- What the library documents. -/
structure Laws : Prop where
  name : ∀ n, ht.nameFromBytes n = if n ≠ [] ∧ n.all isToken then some (lowercase n) else none
  value : ∀ {v v'}, ht.valueFromStr v = some v' → v' = v
  value_visible : ∀ {v : Bytes}, v.all isVisible → ht.valueFromStr v = some v
  toStr : ∀ v, ht.toStr v = if v.all isVisible then some v else none
  getAll_empty : ∀ n, ht.getAll ht.empty n = []
  getAll_insert : ∀ m n v n', ht.getAll (ht.insert m n v) n' = if n' = n then [v] else ht.getAll m n'
  getAll_append : ∀ m n v n',
    ht.getAll (ht.append m n v) n' = if n' = n then ht.getAll m n' ++ [v] else ht.getAll m n'
  getAll_remove : ∀ m n n', ht.getAll (ht.remove m n) n' = if n' = n then [] else ht.getAll m n'
  mem_keys : ∀ m n, n ∈ ht.keys m ↔ ht.getAll m n ≠ []
  nodup_keys : ∀ m, (ht.keys m).Nodup

/-- The first value of a name. -/
def get (m : ht.Map) (n : Bytes) : Option Bytes := (ht.getAll m n).head?

/-- The map that holds a list of fields, names normalised to lower case. -/
def ofFields (fields : List (Bytes × Bytes)) : ht.Map :=
  fields.foldl (fun m f => ht.append m (lowercase f.1) f.2) ht.empty

end HeaderTypes

/-- The values of the name `n` (given in lower case) in a list of fields, in order. -/
def valuesOf (fields : List (Bytes × Bytes)) (n : Bytes) : List Bytes :=
  (fields.filter fun f => lowercase f.1 == n).map (·.2)

namespace HeaderTypes

variable {ht : HeaderTypes} (hl : ht.Laws)
include hl

theorem getAll_foldl_append (fields : List (Bytes × Bytes)) (m : ht.Map) (n : Bytes) :
    ht.getAll (fields.foldl (fun m f => ht.append m (lowercase f.1) f.2) m) n =
      ht.getAll m n ++ valuesOf fields n := by
  induction fields generalizing m with
  | nil => simp [valuesOf]
  | cons f fs ih =>
    rw [List.foldl_cons, ih, hl.getAll_append]
    by_cases h : n = lowercase f.1
    · simp [valuesOf, h]
    · rw [if_neg h]
      simp [valuesOf, Ne.symm h]

theorem getAll_ofFields (fields : List (Bytes × Bytes)) (n : Bytes) :
    ht.getAll (ht.ofFields fields) n = valuesOf fields n := by
  rw [ofFields, getAll_foldl_append hl, hl.getAll_empty, List.nil_append]

end HeaderTypes

/-! ## A list-backed header library -/

/-- The list-backed header library. -/
def HeaderTypes.reference : HeaderTypes where
  nameFromBytes n := if n ≠ [] ∧ n.all isToken then some (lowercase n) else none
  valueFromStr v := if v.all isVisible then some v else none
  toStr v := if v.all isVisible then some v else none
  Map := List (Bytes × Bytes)
  empty := []
  insert m n v := m.filter (fun f => f.1 != n) ++ [(n, v)]
  append m n v := m ++ [(n, v)]
  remove m n := m.filter fun f => f.1 != n
  getAll m n := (m.filter fun f => f.1 == n).map (·.2)
  keys m := (m.map Prod.fst).dedup

theorem filter_removed (m : List (Bytes × Bytes)) (n n' : Bytes) :
    (m.filter fun f => f.1 != n).filter (fun f => f.1 == n') =
      if n' = n then [] else m.filter fun f => f.1 == n' := by
  rw [List.filter_filter]
  by_cases h : n' = n
  · subst h
    simp
  · rw [if_neg h]
    refine List.filter_congr fun f _ => ?_
    by_cases hf : f.1 = n' <;> simp [hf, h]

theorem HeaderTypes.reference_laws : HeaderTypes.reference.Laws where
  name _ := rfl
  value {v v'} h := by
    simp only [reference] at h
    split at h
    · exact (Option.some.inj h).symm
    · cases h
  value_visible h := if_pos h
  toStr _ := rfl
  getAll_empty _ := rfl
  getAll_insert := fun (m : List (Bytes × Bytes)) n v n' => by
    simp only [reference, List.filter_append, filter_removed]
    by_cases h : n' = n
    · simp [h]
    · simp [h, Ne.symm h]
  getAll_append := fun (m : List (Bytes × Bytes)) n v n' => by
    simp only [reference, List.filter_append]
    by_cases h : n' = n
    · simp [h]
    · simp [h, Ne.symm h]
  getAll_remove := fun (m : List (Bytes × Bytes)) n n' => by
    simp only [reference, filter_removed]
    by_cases h : n' = n <;> simp [h]
  mem_keys := fun (m : List (Bytes × Bytes)) n => by
    simp [reference, List.mem_dedup]
  nodup_keys := fun (m : List (Bytes × Bytes)) => List.nodup_dedup _

/-! ## URIs -/

/-- The interface of a URI library, by the texts it takes and keeps. -/
structure UriTypes where
  /-- Validate a path with an optional query. -/
  pathAndQuery : Bytes → Option Bytes
  /-- Validate a URI; its path with the query. -/
  uri : Bytes → Option Bytes
  /-- Validate an authority. -/
  authority : Bytes → Option Bytes

/-- What the library documents. -/
structure UriTypes.Laws (ut : UriTypes) : Prop where
  /-- A path and query has no control characters. -/
  pathAndQuery_bytes : ∀ {s t}, ut.pathAndQuery s = some t → ∀ b ∈ t, b ≠ 10 ∧ b ≠ 13
  /-- An authority is kept as it is, and is visible ASCII. -/
  authority_text : ∀ {s t}, ut.authority s = some t → t = s ∧ t.all fun b => 33 ≤ b && b ≤ 126

/-- A URI library that takes plain texts only. -/
def UriTypes.reference : UriTypes where
  pathAndQuery s := if s.head? = some 47 ∧ s.all fun b => 33 ≤ b && b ≤ 126 then some s else none
  uri s := if s.head? = some 47 ∧ s.all fun b => 33 ≤ b && b ≤ 126 then some s else none
  authority s := if s ≠ [] ∧ s.all fun b => 33 ≤ b && b ≤ 126 then some s else none

theorem UriTypes.reference_laws : UriTypes.reference.Laws where
  pathAndQuery_bytes {s t} h := by
    simp only [reference] at h
    split at h
    · rename_i hs
      obtain rfl := Option.some.inj h
      intro b hb
      have hb := List.all_eq_true.mp hs.2 b hb
      constructor <;> rintro rfl <;> revert hb <;> decide
    · cases h
  authority_text {s t} h := by
    simp only [reference] at h
    split at h
    · rename_i hs
      obtain rfl := Option.some.inj h
      exact ⟨rfl, hs.2⟩
    · cases h

end LbProxy.Lib
