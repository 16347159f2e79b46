import LbProxy.Lib.Bytes

/-!
# Request targets and the URIs they are read as

* `TargetForm` — a request target by its parts: in origin form a path and a query, in absolute form also a scheme and
  an authority;
* `UriParser`, `UriParser.Laws` — a URI library that splits the targets it accepts into these parts;
* `UriParser.reference` — one that does.
-/

namespace LbProxy.Lib

/-- The parts of a URI by which a request is routed. -/
structure UriParts where
  host : Option Bytes
  path : Bytes
  query : Option Bytes
  deriving DecidableEq, Repr

/-- A request target. -/
inductive TargetForm where
  | origin (path : Bytes) (query : Option Bytes)
  | absolute (scheme authority path : Bytes) (query : Option Bytes)
  deriving DecidableEq, Repr

/-- A query with its question mark. -/
def queryText : Option Bytes → Bytes
  | some q => 63 :: q
  | none => []

/-- A byte of a scheme: a letter, a digit, or one of `+-.` -/
def isSchemeByte (b : UInt8) : Bool :=
  (48 ≤ b && b ≤ 57) || (65 ≤ b && b ≤ 90) || (97 ≤ b && b ≤ 122) || b == 43 || b == 45 || b == 46

/-- A byte of an authority: it ends at a slash, a question mark or a number sign. -/
def isAuthorityByte (b : UInt8) : Bool := b != 47 && b != 63 && b != 35

/-- The host of an authority, without the user before it and the port behind it. -/
def authorityHost (authority : Bytes) : Bytes :=
  let hostPort := authority.rtakeWhile (· != 64)
  if hostPort.head? = some 91 then hostPort.takeWhile (· != 93) ++ [93] else hostPort.takeWhile (· != 58)

namespace TargetForm

def text : TargetForm → Bytes
  | origin path query => path ++ queryText query
  | absolute scheme authority path query => scheme ++ (ascii "://" ++ (authority ++ (path ++ queryText query)))

/-- What the target is read as; an absolute URI without a path has the path `/`. -/
def uri : TargetForm → UriParts
  | origin path query => ⟨none, path, query⟩
  | absolute _ authority path query => ⟨some (authorityHost authority), if path = [] then [47] else path, query⟩

/-- The path starts with a slash, and the parts end where the next ones start. -/
def WF : TargetForm → Prop
  | origin path query => path.head? = some 47 ∧ 63 ∉ path ∧ 35 ∉ path ++ queryText query
  | absolute scheme authority path query =>
    scheme ≠ [] ∧ (∀ b ∈ scheme, isSchemeByte b) ∧ (∀ b ∈ authority, isAuthorityByte b) ∧
      (path = [] ∨ path.head? = some 47) ∧ 63 ∉ path ∧ 35 ∉ path ++ queryText query

def isOrigin : TargetForm → Bool
  | origin _ _ => true
  | absolute _ _ _ _ => false

end TargetForm

/-- A URI library, by what it reads a target as. -/
structure UriParser where
  parse : Bytes → Option UriParts

/-- A target that the library accepts is split into its parts. -/
def UriParser.Laws (up : UriParser) : Prop :=
  ∀ {form : TargetForm} {uri : UriParts}, form.WF → up.parse form.text = some uri → uri = form.uri

/-! ## A reference library -/

/-- A path and the query behind it. -/
def splitQuery (s : Bytes) : Bytes × Option Bytes :=
  (s.takeWhile (· != 63), match s.dropWhile (· != 63) with
    | _ :: q => some q
    | [] => none)

/-- Split a target at the first bytes that end its parts. -/
def UriParser.reference : UriParser where
  parse target :=
    if target.head? = some 47 then
      let (path, query) := splitQuery target
      some ⟨none, path, query⟩
    else
      match stripPrefix (ascii "://") (target.dropWhile isSchemeByte) with
      | none => none
      | some rest =>
        let (path, query) := splitQuery (rest.dropWhile isAuthorityByte)
        some ⟨some (authorityHost (rest.takeWhile isAuthorityByte)), if path = [] then [47] else path, query⟩

theorem splitQuery_queryText {path : Bytes} (h : 63 ∉ path) (query : Option Bytes) :
    splitQuery (path ++ queryText query) = (path, query) := by
  have hpath : ∀ b ∈ path, (b != 63) = true := by
    intro b hb
    rw [bne_iff_ne]
    rintro rfl
    exact h hb
  rw [splitQuery, List.takeWhile_append_of_pos hpath, List.dropWhile_append_of_pos hpath]
  cases query <;> simp [queryText]

theorem UriParser.reference_laws : UriParser.reference.Laws := by
  intro form uri hwf h
  cases form with
  | origin path query =>
    obtain ⟨hhead, hpath, -⟩ := hwf
    have htext : (path ++ queryText query).head? = some 47 := by
      rw [List.head?_append, hhead]
      rfl
    simp only [reference, TargetForm.text, if_pos htext, splitQuery_queryText hpath, Option.some.injEq] at h
    exact h.symm
  | absolute scheme authority path query =>
    obtain ⟨hne, hscheme, hauthority, hslash, hpath, -⟩ := hwf
    have hstart : ¬ (scheme ++ (ascii "://" ++ (authority ++ (path ++ queryText query)))).head? = some 47 := by
      obtain ⟨b, s, rfl⟩ := List.exists_cons_of_ne_nil hne
      intro hb
      obtain rfl : b = 47 := by simpa using hb
      exact absurd (hscheme 47 List.mem_cons_self) (by decide)
    have hcut : (scheme ++ (ascii "://" ++ (authority ++ (path ++ queryText query)))).dropWhile isSchemeByte =
        ascii "://" ++ (authority ++ (path ++ queryText query)) := by
      rw [List.dropWhile_append_of_pos hscheme]
      rfl
    have hstrip : ∀ t, stripPrefix (ascii "://") (ascii "://" ++ t) = some t := fun t => by
      rw [stripPrefix, if_pos (List.prefix_append _ _), List.drop_left]
    -- behind the authority the text is empty or starts with a byte that ends it
    have hend : (path ++ queryText query).takeWhile isAuthorityByte = [] ∧
        (path ++ queryText query).dropWhile isAuthorityByte = path ++ queryText query := by
      rcases hslash with rfl | hhead
      · cases query <;> exact ⟨rfl, rfl⟩
      · obtain ⟨t, rfl⟩ : ∃ t, path = 47 :: t := by
          cases path with
          | nil => cases hhead
          | cons b t => exact ⟨t, by simpa using hhead⟩
        exact ⟨rfl, rfl⟩
    simp only [reference, TargetForm.text, if_neg hstart, hcut, hstrip, List.takeWhile_append_of_pos hauthority,
      List.dropWhile_append_of_pos hauthority, hend.1, hend.2, List.append_nil, splitQuery_queryText hpath,
      Option.some.injEq] at h
    exact h.symm

end LbProxy.Lib
