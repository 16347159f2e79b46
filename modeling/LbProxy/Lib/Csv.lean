import Mathlib.Data.List.Basic

/-!
# Separated records with quoted fields

* `Dialect` — the symbols with a meaning: the quote, the separator of fields and the end of a record;
* `escape`, `writeRecord` — a field is quoted, with its quotes doubled, when it holds such a symbol;
* `readFrom`, `readRecords` — the scan that reads records back: one pass that keeps whether it is inside quotes;
* `readRecords_writeRecords` — what was written is read back, for any fields.
-/

namespace LbProxy.Lib.Csv

/-- The symbols of a format of records. -/
structure Dialect (α : Type) where
  quote : α
  sep : α
  eol : α
  quote_ne_sep : quote ≠ sep
  quote_ne_eol : quote ≠ eol
  sep_ne_eol : sep ≠ eol

variable {α : Type} [DecidableEq α] (d : Dialect α)

/-- A field without a symbol that has a meaning. -/
def Plain (field : List α) : Prop := d.quote ∉ field ∧ d.sep ∉ field ∧ d.eol ∉ field

instance (field : List α) : Decidable (Plain d field) := inferInstanceAs (Decidable (_ ∧ _ ∧ _))

omit [DecidableEq α] in
theorem plain_append {d : Dialect α} {a b : List α} (ha : Plain d a) (hb : Plain d b) : Plain d (a ++ b) := by
  unfold Plain at *
  simp only [List.mem_append, not_or]
  exact ⟨⟨ha.1, hb.1⟩, ⟨ha.2.1, hb.2.1⟩, ⟨ha.2.2, hb.2.2⟩⟩

/-- The text with every quote doubled. -/
def doubled (field : List α) : List α := field.flatMap fun c => if c = d.quote then [c, c] else [c]

/-- The text of a field, in quotes unless it is plain. -/
def escape (field : List α) : List α :=
  if Plain d field then field else d.quote :: doubled d field ++ [d.quote]

/-- The text of a record. -/
def writeRecord (fields : List (List α)) : List α := [d.sep].intercalate (fields.map (escape d)) ++ [d.eol]

/-- Scan a text, inside quotes or not, behind the fields and the part of a field read so far.  The end of the text
ends the last record. -/
def readFrom (inQuotes : Bool) (fields : List (List α)) (current : List α) : List α → List (List (List α))
  | [] => [fields ++ [current]]
  | c :: cs =>
    if c = d.quote then
      match cs with
      | [] => readFrom (!inQuotes) fields current []
      | c' :: cs' =>
        if inQuotes = true ∧ c' = d.quote then readFrom true fields (current ++ [d.quote]) cs'
        else readFrom (!inQuotes) fields current (c' :: cs')
    else if c = d.sep ∧ inQuotes = false then readFrom false (fields ++ [current]) [] cs
    else if c = d.eol ∧ inQuotes = false then
      (fields ++ [current]) :: if cs = [] then [] else readFrom false [] [] cs
    else readFrom inQuotes fields (current ++ [c]) cs

/-- The records of a text. -/
def readRecords (text : List α) : List (List (List α)) := if text = [] then [] else readFrom d false [] [] text

/-! ## What the scan does -/

section Scan

variable {d : Dialect α} (inQuotes : Bool) (fields : List (List α)) (current : List α)

theorem readFrom_cons (c : α) (cs : List α) :
    readFrom d inQuotes fields current (c :: cs) =
      if c = d.quote then
        if inQuotes = true ∧ cs.head? = some d.quote then readFrom d true fields (current ++ [d.quote]) cs.tail
        else readFrom d (!inQuotes) fields current cs
      else if c = d.sep ∧ inQuotes = false then readFrom d false (fields ++ [current]) [] cs
      else if c = d.eol ∧ inQuotes = false then (fields ++ [current]) :: readRecords d cs
      else readFrom d inQuotes fields (current ++ [c]) cs := by
  cases cs with
  | nil => simp [readFrom, readRecords]
  | cons c' cs' => simp [readFrom, readRecords]

theorem readFrom_quote {cs : List α} (h : cs.head? ≠ some d.quote) :
    readFrom d inQuotes fields current (d.quote :: cs) = readFrom d (!inQuotes) fields current cs := by
  rw [readFrom_cons, if_pos rfl, if_neg fun hnext => h hnext.2]

theorem readFrom_open (cs : List α) :
    readFrom d false fields current (d.quote :: cs) = readFrom d true fields current cs := by
  rw [readFrom_cons, if_pos rfl, if_neg fun hnext => Bool.false_ne_true hnext.1]
  rfl

theorem readFrom_doubled (cs : List α) :
    readFrom d true fields current (d.quote :: d.quote :: cs) =
      readFrom d true fields (current ++ [d.quote]) cs := by
  rw [readFrom_cons, if_pos rfl, if_pos ⟨rfl, rfl⟩]
  rfl

theorem readFrom_sep (cs : List α) :
    readFrom d false fields current (d.sep :: cs) = readFrom d false (fields ++ [current]) [] cs := by
  rw [readFrom_cons, if_neg d.quote_ne_sep.symm, if_pos ⟨rfl, rfl⟩]

theorem readFrom_eol (cs : List α) :
    readFrom d false fields current (d.eol :: cs) = (fields ++ [current]) :: readRecords d cs := by
  rw [readFrom_cons, if_neg d.quote_ne_eol.symm, if_neg (fun h => d.sep_ne_eol h.1.symm), if_pos ⟨rfl, rfl⟩]

theorem readFrom_other {c : α} (hquote : c ≠ d.quote)
    (h : inQuotes = true ∨ c ≠ d.sep ∧ c ≠ d.eol) (cs : List α) :
    readFrom d inQuotes fields current (c :: cs) = readFrom d inQuotes fields (current ++ [c]) cs := by
  rw [readFrom_cons, if_neg hquote]
  rcases h with rfl | ⟨hsep, heol⟩
  · rw [if_neg (by simp), if_neg (by simp)]
  · rw [if_neg (fun h => hsep h.1), if_neg (fun h => heol h.1)]

theorem readFrom_plain {field : List α} (h : Plain d field) (rest : List α) :
    readFrom d false fields current (field ++ rest) = readFrom d false fields (current ++ field) rest := by
  induction field generalizing current with
  | nil => rw [List.append_nil, List.nil_append]
  | cons c field ih =>
    obtain ⟨hquote, hsep, heol⟩ := h
    rw [List.mem_cons, not_or] at hquote hsep heol
    rw [List.cons_append,
      readFrom_other false fields current (Ne.symm hquote.1) (Or.inr ⟨Ne.symm hsep.1, Ne.symm heol.1⟩),
      ih (current ++ [c]) ⟨hquote.2, hsep.2, heol.2⟩, List.append_assoc]
    rfl

/-- Behind the opening quote, a field with its quotes doubled is read up to its closing quote. -/
theorem readFrom_quoted (field : List α) {rest : List α} (hrest : rest.head? ≠ some d.quote) :
    readFrom d true fields current (doubled d field ++ d.quote :: rest) =
      readFrom d false fields (current ++ field) rest := by
  induction field generalizing current with
  | nil => rw [List.append_nil]; exact readFrom_quote true fields current hrest
  | cons c field ih =>
    rw [doubled, List.flatMap_cons, ← doubled, List.append_assoc]
    by_cases hc : c = d.quote
    · rw [if_pos hc, hc, List.cons_append, List.cons_append, List.nil_append, readFrom_doubled, ih, List.append_assoc]
      rfl
    · rw [if_neg hc, List.cons_append, List.nil_append, readFrom_other true fields current hc (Or.inl rfl), ih,
        List.append_assoc]
      rfl

/-- **The text of a field is read as the field**, whatever follows it but a quote. -/
theorem readFrom_escape (field : List α) {rest : List α} (hrest : rest.head? ≠ some d.quote) :
    readFrom d false fields [] (escape d field ++ rest) = readFrom d false fields field rest := by
  unfold escape
  split
  · rename_i hplain
    exact readFrom_plain fields [] hplain rest
  · rw [List.append_assoc, List.cons_append, readFrom_open]
    exact readFrom_quoted fields [] field hrest

end Scan

/-! ## Round trip -/

section RoundTrip

variable {d}

theorem escape_of_plain {field : List α} (h : Plain d field) : escape d field = field := if_pos h

/-- The text of a record, with what follows it. -/
theorem readFrom_writeRecord {fs : List (List α)} (hfs : fs ≠ []) (fields : List (List α)) (rest : List α) :
    readFrom d false fields [] (writeRecord d fs ++ rest) = (fields ++ fs) :: readRecords d rest := by
  induction fs generalizing fields with
  | nil => exact absurd rfl hfs
  | cons f fs ih =>
    cases fs with
    | nil =>
      have htext : writeRecord d [f] ++ rest = escape d f ++ d.eol :: rest := by
        simp [writeRecord, List.intercalate]
      rw [htext, readFrom_escape fields f (by simpa using d.quote_ne_eol.symm), readFrom_eol]
    | cons g fs =>
      have htext : writeRecord d (f :: g :: fs) ++ rest = escape d f ++ d.sep :: (writeRecord d (g :: fs) ++ rest) := by
        simp [writeRecord, List.intercalate]
      rw [htext, readFrom_escape fields f (by simpa using d.quote_ne_sep.symm), readFrom_sep,
        ih (List.cons_ne_nil _ _), List.append_assoc]
      rfl

theorem writeRecord_ne_nil (fs : List (List α)) : writeRecord d fs ≠ [] := by simp [writeRecord]

/-- **What was written is read back**: any fields, in any records that have some. -/
theorem readRecords_writeRecords {records : List (List (List α))} (h : ∀ fs ∈ records, fs ≠ []) :
    readRecords d (records.flatMap (writeRecord d)) = records := by
  induction records with
  | nil => rfl
  | cons fs records ih =>
    have hne : writeRecord d fs ++ records.flatMap (writeRecord d) ≠ [] :=
      List.append_ne_nil_of_left_ne_nil (writeRecord_ne_nil fs) _
    rw [List.flatMap_cons, readRecords, if_neg hne, readFrom_writeRecord (h fs (by simp)) [],
      ih fun fs hfs => h fs (List.mem_cons_of_mem _ hfs)]
    rfl

end RoundTrip

end LbProxy.Lib.Csv
