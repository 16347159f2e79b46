import LbProxy.Lib.Text
import LbProxy.Lib.HeaderMap

/-!
# Message heads: the grammar and the contract of a head parser

* `RequestLayout`, `ResponseLayout` — a message head as it stands in the buffer, with the leniencies a
  push parser documents: leading empty lines, and bare line feeds as line ends;
* `render` — its bytes;
* `ChunkedBody` — well-formed chunked bodies;
* `HeadParser` — an interface to a parser that reports a complete head, a head that needs more bytes, or
  an error;
* `HeadParser.Laws` — what such a parser documents, in terms of the layouts.
-/

namespace LbProxy.Lib

/-! ## Layouts -/

/-- A line end. -/
inductive Eol where
  | crlf
  | lf
  deriving DecidableEq, Repr

def Eol.bytes : Eol → Bytes
  | .crlf => [13, 10]
  | .lf => [10]

/-- Optional white space within a line. -/
def isBlank (b : UInt8) : Bool := b == 32 || b == 9

/-- A byte of a field value. -/
def isFieldByte (b : UInt8) : Bool := b == 9 || (32 ≤ b && b != 127)

theorem isFieldByte_of_isBlank {b : UInt8} (h : isBlank b) : isFieldByte b := by
  simp only [isBlank, Bool.or_eq_true, beq_iff_eq] at h
  rcases h with rfl | rfl <;> decide

/-- A byte of a request target. -/
def isTargetByte (b : UInt8) : Bool := 33 ≤ b && b != 127

/-- A field line: name, colon, blanks, value, blanks, line end. -/
structure FieldLayout where
  name : Bytes
  before : Bytes
  value : Bytes
  after : Bytes
  eol : Eol
  deriving DecidableEq, Repr

namespace FieldLayout

/-- The line without its line end. -/
def line (f : FieldLayout) : Bytes := f.name ++ 58 :: (f.before ++ f.value ++ f.after)

def render (f : FieldLayout) : Bytes := f.line ++ f.eol.bytes

/-- The field as the parser reports it. -/
def field (f : FieldLayout) : Bytes × Bytes := (f.name, f.value)

/-- The name is a token, and the value is what is left without the blanks around it. -/
structure WF (f : FieldLayout) : Prop where
  name_ne : f.name ≠ []
  name_token : ∀ b ∈ f.name, isToken b
  before_blank : ∀ b ∈ f.before, isBlank b
  after_blank : ∀ b ∈ f.after, isBlank b
  value_bytes : ∀ b ∈ f.value, isFieldByte b
  value_head : ∀ b ∈ f.value.head?, isBlank b = false
  value_last : ∀ b ∈ f.value.getLast?, isBlank b = false
  after_nil : f.value = [] → f.after = []

theorem wf_iff (f : FieldLayout) :
    f.WF ↔ f.name ≠ [] ∧ f.name.all isToken = true ∧ f.before.all isBlank = true ∧ f.after.all isBlank = true ∧
      f.value.all isFieldByte = true ∧ f.value.head?.all (!isBlank ·) = true ∧
      f.value.getLast?.all (!isBlank ·) = true ∧ (f.value = [] → f.after = []) := by
  simp only [List.all_eq_true, Option.all_eq_true, Bool.not_eq_true']
  constructor
  · rintro ⟨h1, h2, h3, h4, h5, h6, h7, h8⟩
    exact ⟨h1, h2, h3, h4, h5, h6, h7, h8⟩
  · rintro ⟨h1, h2, h3, h4, h5, h6, h7, h8⟩
    exact ⟨h1, h2, h3, h4, h5, h6, h7, h8⟩

instance (f : FieldLayout) : Decidable f.WF := decidable_of_iff' _ f.wf_iff

theorem WF.colon_not_mem_name {f : FieldLayout} (h : f.WF) : 58 ∉ f.name :=
  fun hmem => absurd (h.name_token 58 hmem) (by decide)

end FieldLayout

instance neZeroMinor : NeZero 2 := ⟨by decide⟩

instance neZeroStatus : NeZero 1000 := ⟨by decide⟩

/-- A request head. -/
structure RequestLayout where
  blanks : List Eol
  method : Bytes
  target : Bytes
  minor : Fin 2
  eol : Eol
  fields : List FieldLayout
  last : Eol
  deriving DecidableEq, Repr

/-- `HTTP/1.0` or `HTTP/1.1`. -/
def versionBytes (minor : Fin 2) : Bytes := ascii "HTTP/1." ++ [48 + UInt8.ofNat minor]

def renderEols (l : List Eol) : Bytes := l.flatMap Eol.bytes

def renderFields (l : List FieldLayout) : Bytes := l.flatMap FieldLayout.render

namespace RequestLayout

/-- The request line without its line end. -/
def line (l : RequestLayout) : Bytes := l.method ++ 32 :: (l.target ++ 32 :: versionBytes l.minor)

def render (l : RequestLayout) : Bytes :=
  renderEols l.blanks ++ (l.line ++ (l.eol.bytes ++ (renderFields l.fields ++ l.last.bytes)))

structure WF (l : RequestLayout) : Prop where
  method_ne : l.method ≠ []
  method_token : ∀ b ∈ l.method, isToken b
  target_ne : l.target ≠ []
  target_bytes : ∀ b ∈ l.target, isTargetByte b
  target_utf8 : isUtf8 l.target = true
  fields_wf : ∀ f ∈ l.fields, f.WF

theorem wf_iff (l : RequestLayout) :
    l.WF ↔ l.method ≠ [] ∧ l.method.all isToken = true ∧ l.target ≠ [] ∧ l.target.all isTargetByte = true ∧
      isUtf8 l.target = true ∧ ∀ f ∈ l.fields, f.WF := by
  simp only [List.all_eq_true]
  constructor
  · rintro ⟨h1, h2, h3, h4, h5, h6⟩
    exact ⟨h1, h2, h3, h4, h5, h6⟩
  · rintro ⟨h1, h2, h3, h4, h5, h6⟩
    exact ⟨h1, h2, h3, h4, h5, h6⟩

instance (l : RequestLayout) : Decidable l.WF := decidable_of_iff' _ l.wf_iff

theorem WF.space_not_mem_method {l : RequestLayout} (h : l.WF) : 32 ∉ l.method :=
  fun hmem => absurd (h.method_token 32 hmem) (by decide)

theorem WF.space_not_mem_target {l : RequestLayout} (h : l.WF) : 32 ∉ l.target :=
  fun hmem => absurd (h.target_bytes 32 hmem) (by decide)

end RequestLayout

/-- A response head; the reason phrase may be missing together with the space before it. -/
structure ResponseLayout where
  blanks : List Eol
  minor : Fin 2
  code : Fin 1000
  reason : Option Bytes
  eol : Eol
  fields : List FieldLayout
  last : Eol
  deriving DecidableEq, Repr

/-- Three decimal digits. -/
def codeBytes (code : Fin 1000) : Bytes :=
  [48 + UInt8.ofNat (code / 100), 48 + UInt8.ofNat (code / 10 % 10), 48 + UInt8.ofNat (code % 10)]

namespace ResponseLayout

/-- The status line without its line end. -/
def line (l : ResponseLayout) : Bytes :=
  versionBytes l.minor ++ 32 :: (codeBytes l.code ++
    match l.reason with
    | some reason => 32 :: reason
    | none => [])

def render (l : ResponseLayout) : Bytes :=
  renderEols l.blanks ++ (l.line ++ (l.eol.bytes ++ (renderFields l.fields ++ l.last.bytes)))

structure WF (l : ResponseLayout) : Prop where
  reason_bytes : ∀ reason ∈ l.reason, ∀ b ∈ reason, isFieldByte b
  fields_wf : ∀ f ∈ l.fields, f.WF

theorem wf_iff (l : ResponseLayout) :
    l.WF ↔ l.reason.all (·.all isFieldByte) = true ∧ ∀ f ∈ l.fields, f.WF := by
  simp only [List.all_eq_true, Option.all_eq_true]
  constructor
  · rintro ⟨h1, h2⟩
    exact ⟨h1, h2⟩
  · rintro ⟨h1, h2⟩
    exact ⟨h1, h2⟩

instance (l : ResponseLayout) : Decidable l.WF := decidable_of_iff' _ l.wf_iff

end ResponseLayout

/-! ## Chunked bodies -/

def isHexDigit (b : UInt8) : Bool := (48 ≤ b && b ≤ 57) || (65 ≤ b && b ≤ 70) || (97 ≤ b && b ≤ 102)

/-- The value of a hexadecimal digit. -/
def hexDigitValue (b : UInt8) : ℕ :=
  if b ≤ 57 then b.toNat - 48 else if b ≤ 70 then b.toNat - 55 else b.toNat - 87

/-- The value of a string of hexadecimal digits. -/
def hexValue (s : Bytes) : ℕ := s.foldl (fun n b => 16 * n + hexDigitValue b) 0

/-- The extensions of a chunk: nothing, or text that starts with a semicolon or a blank. -/
def ChunkExt (ext : Bytes) : Prop :=
  (∀ b ∈ ext.head?, b = 59 ∨ isBlank b) ∧ ∀ b ∈ ext, isFieldByte b

/-- A chunked body: chunks with their sizes and extensions, the last chunk of size zero, trailer fields,
and an empty line. -/
inductive ChunkedBody : Bytes → Prop
  | last (zeros ext : Bytes) (trailers : List FieldLayout) (hne : zeros ≠ []) (hzeros : ∀ b ∈ zeros, b = 48)
      (hext : ChunkExt ext) (htrailers : ∀ f ∈ trailers, f.WF ∧ f.eol = .crlf) :
      ChunkedBody (zeros ++ ext ++ [13, 10] ++ renderFields trailers ++ [13, 10])
  | chunk (size ext data rest : Bytes) (hne : size ≠ []) (hsize : ∀ b ∈ size, isHexDigit b)
      (hext : ChunkExt ext) (hdata : data ≠ []) (hlen : hexValue size = data.length)
      (hrest : ChunkedBody rest) :
      ChunkedBody (size ++ ext ++ [13, 10] ++ data ++ [13, 10] ++ rest)

/-! ## The parser -/

/-- The outcome of parsing a head out of a buffer. -/
inductive HeadStatus (α : Type) where
  /-- The head is the first `len` bytes. -/
  | complete (len : ℕ) (head : α)
  /-- More bytes are needed. -/
  | incomplete
  | error
  deriving DecidableEq, Repr

/-- What the parser reports of a request head. -/
structure RawRequest where
  method : Option Bytes
  path : Option Bytes
  version : Option ℕ
  headers : List (Bytes × Bytes)
  deriving DecidableEq, Repr

/-- What the parser reports of a response head. -/
structure RawResponse where
  version : Option ℕ
  code : Option ℕ
  headers : List (Bytes × Bytes)
  deriving DecidableEq, Repr

/-- A head parser, given the number of header slots and the buffer. -/
structure HeadParser where
  request : ℕ → Bytes → HeadStatus RawRequest
  response : ℕ → Bytes → HeadStatus RawResponse

def RequestLayout.raw (l : RequestLayout) : RawRequest :=
  ⟨some l.method, some l.target, some l.minor, l.fields.map FieldLayout.field⟩

def ResponseLayout.raw (l : ResponseLayout) : RawResponse :=
  ⟨some l.minor, some l.code, l.fields.map FieldLayout.field⟩

namespace HeadParser

/-- What the parser documents. -/
structure Laws (hp : HeadParser) : Prop where
  /-- A head that fits the slots is reported, whatever follows it. -/
  request_complete : ∀ {slots : ℕ} {l : RequestLayout} (rest : Bytes), l.WF → l.fields.length ≤ slots →
    hp.request slots (l.render ++ rest) = .complete l.render.length l.raw
  /-- Nothing else is. -/
  request_sound : ∀ {slots buf n raw}, hp.request slots buf = .complete n raw →
    ∃ (l : RequestLayout) (rest : Bytes), l.WF ∧ l.fields.length ≤ slots ∧ buf = l.render ++ rest ∧
      n = l.render.length ∧ raw = l.raw
  /-- A strict prefix of a head needs more bytes. -/
  request_incomplete : ∀ {slots : ℕ} {l : RequestLayout} {p : Bytes}, l.WF → l.fields.length ≤ slots →
    p <+: l.render → p ≠ l.render → hp.request slots p = .incomplete
  response_complete : ∀ {slots : ℕ} {l : ResponseLayout} (rest : Bytes), l.WF → l.fields.length ≤ slots →
    hp.response slots (l.render ++ rest) = .complete l.render.length l.raw
  response_sound : ∀ {slots buf n raw}, hp.response slots buf = .complete n raw →
    ∃ (l : ResponseLayout) (rest : Bytes), l.WF ∧ l.fields.length ≤ slots ∧ buf = l.render ++ rest ∧
      n = l.render.length ∧ raw = l.raw
  response_incomplete : ∀ {slots : ℕ} {l : ResponseLayout} {p : Bytes}, l.WF → l.fields.length ≤ slots →
    p <+: l.render → p ≠ l.render → hp.response slots p = .incomplete

variable {hp : HeadParser} (hl : hp.Laws)
include hl

/-- A reported head stays reported when more bytes arrive. -/
theorem response_append {slots : ℕ} {buf : Bytes} {n : ℕ} {raw : RawResponse}
    (h : hp.response slots buf = .complete n raw) (more : Bytes) :
    hp.response slots (buf ++ more) = .complete n raw := by
  obtain ⟨l, rest, hwf, hlen, rfl, rfl, rfl⟩ := hl.response_sound h
  rw [List.append_assoc]
  exact hl.response_complete _ hwf hlen

theorem request_length_le {slots n : ℕ} {raw : RawRequest} {l : RequestLayout} {rest : Bytes} (hwf : l.WF)
    (h : hp.request slots (l.render ++ rest) = .complete n raw) : l.fields.length ≤ slots := by
  obtain ⟨l', rest', hwf', hlen', heq, -, -⟩ := hl.request_sound h
  -- with enough slots for both, they are reported alike
  have h1 : hp.request (max slots l.fields.length) (l.render ++ rest) = _ :=
    hl.request_complete rest hwf (le_max_right _ _)
  have h2 : hp.request (max slots l.fields.length) (l'.render ++ rest') = _ :=
    hl.request_complete rest' hwf' (hlen'.trans (le_max_left _ _))
  rw [heq, h2] at h1
  have hraw := congrArg (·.headers.length) (HeadStatus.complete.inj h1).2
  simp only [RequestLayout.raw, List.length_map] at hraw
  omega

theorem response_length_le {slots n : ℕ} {raw : RawResponse} {l : ResponseLayout} {rest : Bytes} (hwf : l.WF)
    (h : hp.response slots (l.render ++ rest) = .complete n raw) : l.fields.length ≤ slots := by
  obtain ⟨l', rest', hwf', hlen', heq, -, -⟩ := hl.response_sound h
  have h1 : hp.response (max slots l.fields.length) (l.render ++ rest) = _ :=
    hl.response_complete rest hwf (le_max_right _ _)
  have h2 : hp.response (max slots l.fields.length) (l'.render ++ rest') = _ :=
    hl.response_complete rest' hwf' (hlen'.trans (le_max_left _ _))
  rw [heq, h2] at h1
  have hraw := congrArg (·.headers.length) (HeadStatus.complete.inj h1).2
  simp only [ResponseLayout.raw, List.length_map] at hraw
  omega

end HeadParser

end LbProxy.Lib
