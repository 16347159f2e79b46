import LbProxy.Monoio.Hygiene

/-!
# Which fields a forwarded head keeps

* `mem_nominatedNames_iff` — the names that a head nominates are the ones that its header block lists;
* `endToEnd` — the fields that are to be forwarded; `keepsField_eq_endToEnd` — those that are;
* `hiddenFields` — the fields before the header block, which are lost;
* `forwards_fields_iff` — when exactly the end-to-end fields of a head are forwarded.
-/

namespace LbProxy.Monoio

open Lib LbProxy.Core

/-! ## Filters by name -/

theorem filter_append_eq_filter_iff {α κ : Type} [DecidableEq κ] (key : α → κ) {p q : α → Bool}
    (hp : ∀ x y, key x = key y → p x = p y) (a b : List α) :
    (a ++ b).filter p = b.filter q ↔ (∀ x ∈ a, p x = false) ∧ ∀ x ∈ b, p x = q x := by
  constructor
  · intro h
    have hfront : ∀ x ∈ a, p x = false := by
      intro x hx
      by_contra hpx
      rw [Bool.not_eq_false] at hpx
      -- the list has one more element with the key of `x` than its back
      let same := fun y => decide (key y = key x)
      have hall : ∀ l : List α, (l.filter p).countP same = l.countP same := by
        intro l
        rw [List.countP_filter]
        refine List.countP_congr fun y _ => ?_
        simp only [same, Bool.and_eq_true, decide_eq_true_eq, and_iff_left_iff_imp]
        intro hy
        rw [hp y x hy, hpx]
      have hback : (b.filter q).countP same ≤ b.countP same := List.filter_sublist.countP_le
      have hone : 0 < a.countP same := List.countP_pos_iff.mpr ⟨x, hx, by simp [same]⟩
      rw [← h, hall, List.countP_append] at hback
      omega
    refine ⟨hfront, fun x hx => ?_⟩
    have hnil : a.filter p = [] := List.filter_eq_nil_iff.mpr fun x hx => by simp [hfront x hx]
    rw [List.filter_append, hnil, List.nil_append] at h
    have hmem : x ∈ b.filter p ↔ x ∈ b.filter q := by rw [h]
    simp only [List.mem_filter, hx, true_and] at hmem
    exact Bool.eq_iff_iff.mpr hmem
  · rintro ⟨hfront, hback⟩
    have hnil : a.filter p = [] := List.filter_eq_nil_iff.mpr fun x hx => by simp [hfront x hx]
    rw [List.filter_append, hnil, List.nil_append]
    exact List.filter_congr hback

/-! ## End-to-end fields -/

theorem mem_nominatedNames_iff {l : RequestLayout} (hwf : l.WF) {n : Bytes} (hne : n ≠ []) (htoken : n.all isToken = true) :
    n ∈ nominatedNames l ↔ Listed (valuesOf (readFields l) CONNECTION) n := by
  rw [nominatedNames, connectionNominated_eq]
  exact mem_flatMap_nominatedLine_iff (fun line hline => isFieldByte_of_mem_headerLines hwf hline) hne htoken

/-- The field is end-to-end, and not one that is written anew: its name is not in the hop-by-hop set, and the
`Connection` values do not list it. -/
def endToEnd (connection : List Bytes) (h : Bytes × Bytes) : Bool :=
  lowercase h.1 ∉ HOP_BY_HOP ∧ ¬ Listed connection (lowercase h.1) ∧ lowercase h.1 ≠ HOST ∧ lowercase h.1 ≠ FORWARDED_FOR

theorem endToEnd_congr {connection : List Bytes} {x y : Bytes × Bytes} (h : lowercase x.1 = lowercase y.1) :
    endToEnd connection x = endToEnd connection y := by
  rw [endToEnd, endToEnd, h]

/-- The fields that are kept are end-to-end, by the `Connection` values of the header block. -/
theorem keepsField_eq_endToEnd {l : RequestLayout} (hwf : l.WF) {f : FieldLayout} (hf : f.WF) :
    keepsField l f.field = endToEnd (valuesOf (readFields l) CONNECTION) f.field := by
  have hne : lowercase f.name ≠ [] := by simpa [lowercase] using hf.name_ne
  have htoken : (lowercase f.name).all isToken = true := by
    rw [all_isToken_lowercase]
    exact List.all_eq_true.mpr hf.name_token
  rw [Bool.eq_iff_iff, keepsField_iff_lowercase hf.name_token, endToEnd, decide_eq_true_eq, FieldLayout.field,
    mem_nominatedNames_iff hwf hne htoken, HOST, FORWARDED_FOR]
  tauto

/-- The fields before the header block. -/
def hiddenFields (l : RequestLayout) : List FieldLayout :=
  if .crlf ∈ l.blanks ∨ l.eol = .crlf then [] else cutAt (·.eol == .lf) l.fields

theorem hiddenFields_append (l : RequestLayout) : hiddenFields l ++ visibleFields l = l.fields := by
  unfold hiddenFields visibleFields
  split
  · rfl
  · exact cutAt_append_drop _ _

/-! ## The equivalence -/

/-- The names of the fields that are appended. -/
def appendedNames (peer : Option PeerAddr) : List Bytes :=
  ascii "Host" :: ((if peer.isSome then [ascii "X-Forwarded-For"] else []) ++ [ascii "X-Forwarded-Proto"])

theorem names_addedFields (l : RequestLayout) (host : Bytes) (peer : Option PeerAddr) :
    (((addedFields l host peer).map FieldLayout.line).filterMap fieldOf).map Prod.fst = appendedNames peer := by
  have hcolon : ∀ f ∈ addedFields l host peer, (58 : UInt8) ∉ f.name := by
    intro f hf
    have hall : ∀ m ∈ [ascii "Host", ascii "X-Forwarded-For", ascii "X-Forwarded-Proto"], (58 : UInt8) ∉ m := by decide
    exact hall _ (name_addedFields peer hf)
  have hnames : ∀ fs : List FieldLayout, (∀ f ∈ fs, (58 : UInt8) ∉ f.name) →
      ((fs.map FieldLayout.line).filterMap fieldOf).map Prod.fst = fs.map FieldLayout.name := by
    intro fs hfs
    induction fs with
    | nil => rfl
    | cons f fs ih =>
      obtain ⟨v, hv⟩ := fieldOf_name (hfs f List.mem_cons_self)
      rw [List.map_cons, List.filterMap_cons_some hv, List.map_cons, List.map_cons,
        ih fun g hg => hfs g (List.mem_cons_of_mem _ hg)]
  rw [hnames _ hcolon]
  cases peer <;> rfl

/-- The fields of a forwarded head are the end-to-end fields of the request, and the appended ones behind them. -/
def ForwardsFields (out : Bytes) (fields : List (Bytes × Bytes)) (peer : Option PeerAddr) : Prop :=
  ∃ appended, appended.map Prod.fst = appendedNames peer ∧
    fieldsOf out = fields.filter (endToEnd (valuesOf fields CONNECTION)) ++ appended

/-- The request line is not copied, no end-to-end field stands before the header block, and for the fields in it the
`Connection` values of the block list what those of the request list. -/
structure KeepsFields (l : RequestLayout) : Prop where
  requestLine : ∀ line ∈ strayLines l, copiesLine (nominatedNames l) line = false
  hidden : ∀ f ∈ hiddenFields l, endToEnd (valuesOf (reported l) CONNECTION) f.field = false
  visible : ∀ f ∈ visibleFields l,
    endToEnd (valuesOf (reported l) CONNECTION) f.field = endToEnd (valuesOf (readFields l) CONNECTION) f.field

/-- A copied request line is a field of the new head that the old one does not have. -/
theorem copiedStray_eq_nil_of_fields {l : RequestLayout} (hwf : l.WF) {front back : List (Bytes × Bytes)}
    (hback : ∀ x ∈ back, ∀ b ∈ x.1, isToken b) (h : (copiedStray l).filterMap fieldOf ++ front = back) :
    copiedStray l = [] := by
  by_contra hne
  obtain ⟨line, hline⟩ := List.exists_mem_of_ne_nil _ hne
  obtain ⟨x, hx⟩ : ∃ x, fieldOf line = some x := by
    have hcopies : copiesLine (nominatedNames l) line = true := (List.mem_filter.mp hline).2
    cases hc : splitColon line with
    | none => simp [copiesLine, hc] at hcopies
    | some x => exact ⟨_, by rw [fieldOf, hc]; rfl⟩
  have hstray : x ∈ (copiedStray l).filterMap fieldOf := List.mem_filterMap.mpr ⟨line, hline, hx⟩
  have hmem : x ∈ back := by
    rw [← h]
    exact List.mem_append_left _ hstray
  exact absurd (hback x hmem 32 (space_mem_of_copiedStray hwf hstray).1) (by decide)

/-- **A forwarded head has exactly the end-to-end fields of the request if and only if the request line is not copied
like a field, and none of the fields before the header block is end-to-end or nominates one behind it.** -/
theorem forwards_fields_iff {hp : HeadParser} (hl : hp.Laws) {buf : Bytes} {h : RequestHead}
    (hparse : parseRequest hp buf = .complete h) :
    (∃ (l : RequestLayout) (rest : Bytes), l.WF ∧ l.fields.length ≤ MAX_HEADERS ∧ buf = l.render ++ rest) ∧
    ∀ (l : RequestLayout) (rest : Bytes), l.WF → l.fields.length ≤ MAX_HEADERS → buf = l.render ++ rest →
      ∀ (target host : Bytes) (peer : Option PeerAddr), (∀ b ∈ target, isLineByte b) → (∀ b ∈ host, isLineByte b) →
        (ForwardsFields (writeForwardHead buf h target host peer) (reported l) peer ↔ KeepsFields l) := by
  refine ⟨?_, ?_⟩
  · obtain ⟨l, rest, -, -, hwf, hlen, hbuf, -⟩ := parseRequest_complete hl hparse
    exact ⟨l, rest, hwf, hlen, hbuf⟩
  rintro l rest hwf hlen rfl target host peer htarget hhost
  obtain ⟨f, pos, -, -, rfl⟩ := parseRequest_layout hl hwf hlen hparse
  have hnames := names_addedFields l host peer
  have hvisible : ∀ f ∈ visibleFields l, f.WF := fun f hf => hwf.fields_wf f ((visibleFields_suffix l).subset hf)
  have hkept : (forwardedFields l).map FieldLayout.field =
      ((visibleFields l).map FieldLayout.field).filter (endToEnd (valuesOf (readFields l) CONNECTION)) := by
    rw [map_field_forwardedFields]
    refine List.filter_congr fun x hx => ?_
    obtain ⟨g, hg, rfl⟩ := List.mem_map.mp hx
    exact keepsField_eq_endToEnd hwf (hvisible g hg)
  have hreported : reported l = (hiddenFields l).map FieldLayout.field ++ (visibleFields l).map FieldLayout.field := by
    rw [reported, ← List.map_append, hiddenFields_append]
  -- without the request line, the fields before and in the block are told apart
  have hfilter := filter_append_eq_filter_iff (fun x : Bytes × Bytes => lowercase x.1)
    (p := endToEnd (valuesOf (reported l) CONNECTION)) (q := endToEnd (valuesOf (readFields l) CONNECTION))
    (fun x y hxy => endToEnd_congr hxy) ((hiddenFields l).map FieldLayout.field) ((visibleFields l).map FieldLayout.field)
  rw [← hreported, List.forall_mem_map, List.forall_mem_map] at hfilter
  rw [ForwardsFields, fieldsOf_forward hwf htarget hhost peer]
  constructor
  · rintro ⟨appended, happended, heq⟩
    have hlength : ((addedFields l host peer).map FieldLayout.line |>.filterMap fieldOf).length = appended.length := by
      rw [← List.length_map (f := Prod.fst), hnames, ← happended, List.length_map]
    rw [← List.append_assoc] at heq
    obtain ⟨heq, -⟩ := List.append_inj' heq hlength
    have hstray : copiedStray l = [] := by
      refine copiedStray_eq_nil_of_fields hwf (fun x hx => ?_) heq
      obtain ⟨g, hg, rfl⟩ := List.mem_map.mp (List.mem_of_mem_filter hx)
      exact (hwf.fields_wf g hg).name_token
    rw [hstray, List.filterMap_nil, List.nil_append, hkept] at heq
    obtain ⟨hhidden, hnominated⟩ := hfilter.mp heq.symm
    exact ⟨copiedStray_eq_nil.mp hstray, hhidden, hnominated⟩
  · rintro ⟨hline, hhidden, hnominated⟩
    refine ⟨_, hnames, ?_⟩
    rw [copiedStray_eq_nil.mpr hline, List.filterMap_nil, List.nil_append, hkept, hfilter.mpr ⟨hhidden, hnominated⟩]

/-- A request behind an empty line, whose own line ends in a bare line feed. -/
def sampleLenient : RequestLayout :=
  ⟨[.crlf], ascii "GET", ascii "/a", 1, .lf, [⟨ascii "Connection", [32], ascii "close, X-Trace", [], .lf⟩,
    ⟨ascii "X-Trace", [32], ascii "7", [], .crlf⟩, ⟨ascii "Accept", [], ascii "*/*", [32], .lf⟩], .crlf⟩

theorem sampleLenient_wf : sampleLenient.WF := by decide

theorem forwards_fields_lenient :
    parseRequest .reference sampleLenient.render =
        .complete ⟨71, ascii "GET", ascii "/a", none, .empty, true, (6, 8)⟩ ∧
      ForwardsFields
        (writeForwardHead sampleLenient.render ⟨71, ascii "GET", ascii "/a", none, .empty, true, (6, 8)⟩ (ascii "/b")
          (ascii "10.0.0.1:80") none) (reported sampleLenient) none := by
  have hparse : parseRequest .reference sampleLenient.render =
      .complete ⟨71, ascii "GET", ascii "/a", none, .empty, true, (6, 8)⟩ := by decide +kernel
  refine ⟨hparse, ((forwards_fields_iff HeadParser.reference_laws hparse).2 sampleLenient [] sampleLenient_wf (by decide)
    (by simp) _ _ _ (List.all_eq_true.mp (by decide)) (List.all_eq_true.mp (by decide))).mpr ⟨?_, ?_, ?_⟩⟩
  · decide +kernel
  · decide +kernel
  · decide +kernel

/-- The same request without the empty line. -/
def sampleBareLine : RequestLayout :=
  ⟨[], ascii "GET", ascii "/a", 1, .lf, [⟨ascii "X-Trace", [32], ascii "7", [], .crlf⟩,
    ⟨ascii "Accept", [32], ascii "*/*", [], .crlf⟩], .crlf⟩

/-- Its first field is lost. -/
theorem bare_line_loses_field :
    parseRequest .reference sampleBareLine.render =
        .complete ⟨43, ascii "GET", ascii "/a", none, .empty, false, (4, 6)⟩ ∧
      sampleBareLine.WF ∧
      ¬ ForwardsFields
        (writeForwardHead sampleBareLine.render ⟨43, ascii "GET", ascii "/a", none, .empty, false, (4, 6)⟩ (ascii "/a")
          (ascii "10.0.0.1:80") none) (reported sampleBareLine) none := by
  refine ⟨by decide +kernel, by decide, ?_⟩
  rintro ⟨appended, hnames, heq⟩
  have hcount : appended.length = 2 := by
    rw [← List.length_map (f := Prod.fst), hnames]
    rfl
  have hkept : ((reported sampleBareLine).filter
      (endToEnd (valuesOf (reported sampleBareLine) CONNECTION))).length = 2 := by decide +kernel
  have hout : (fieldsOf (writeForwardHead sampleBareLine.render
      ⟨43, ascii "GET", ascii "/a", none, .empty, false, (4, 6)⟩ (ascii "/a") (ascii "10.0.0.1:80") none)).length = 3 := by
    decide +kernel
  rw [heq, List.length_append, hkept, hcount] at hout
  omega

end LbProxy.Monoio
