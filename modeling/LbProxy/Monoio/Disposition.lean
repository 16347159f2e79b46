import LbProxy.Lib.HeadParser
import LbProxy.Lib.Tokens
import LbProxy.Monoio.Exchange
import LbProxy.Monoio.Framing
import LbProxy.Monoio.Hygiene
import LbProxy.Monoio.Reuse

/-!
# Whether a connection stays open

* `HasOption` — a `Connection` field contains this option;
* `readOptions` — the `close` and `keep-alive` options that are read, in order;
* `closeRequested_requestFields`, `closeRequested_responseFields` — the last one decides;
* `CloseDecides` — the last one that is read is what all of them say;
* `disposition_iff` — exactly then the flag follows the options, and what announced `close` is not used again.
-/

namespace LbProxy.Monoio

open Lib LbProxy.Core

/-! ## Options -/

def isConnection : Bytes × Bytes → Bool := named (ascii "connection")

/-- A `Connection` field whose value is text; the others are passed over. -/
def isReadableConnection (h : Bytes × Bytes) : Bool := isConnection h && isUtf8 h.2

/-- Some `Connection` field contains this option: a piece between commas, without the white space around it. -/
def HasOption (fields : List (Bytes × Bytes)) (option : Bytes) : Prop :=
  ∃ h ∈ fields, isConnection h = true ∧ ∃ token ∈ splitByte 44 h.2, eqIgnoreAsciiCase (trim token) option = true

instance (fields : List (Bytes × Bytes)) (option : Bytes) : Decidable (HasOption fields option) :=
  inferInstanceAs (Decidable (∃ h ∈ fields, _))

theorem exists_option_iff_element {value option : Bytes} (hvis : value.all isVisible = true) (hne : option ≠ [])
    (htoken : option.all isToken = true) (hlow : lowercase option = option) :
    (∃ token ∈ splitByte 44 value, eqIgnoreAsciiCase (trim token) option = true) ↔
      ∃ t, Element value t ∧ lowercase t = option := by
  have htrim : ∀ p ∈ splitByte 44 value, trim p = trimBlank p := by
    intro p hp
    refine trim_visible fun b hb => List.all_eq_true.mp hvis b ?_
    exact ((mem_splitByte_iff 44 value p).mp hp).subset b hb
  simp only [eqIgnoreAsciiCase, hlow, beq_iff_eq]
  constructor
  · rintro ⟨p, hp, rfl⟩
    rw [htrim p hp] at hne htoken ⊢
    have hne' : trimBlank p ≠ [] := fun h => hne (by rw [h]; rfl)
    rw [all_isToken_lowercase] at htoken
    exact ⟨trimBlank p, (exists_trimmed_iff hne' htoken).mp ⟨p, hp, rfl⟩, rfl⟩
  · rintro ⟨t, helem, rfl⟩
    obtain ⟨p, hp, rfl⟩ := (exists_trimmed_iff helem.1 helem.2.1).mpr helem
    exact ⟨p, hp, by rw [htrim p hp]⟩

/-- In visible text an option is an element of the list. -/
theorem hasOption_iff_element {fields : List (Bytes × Bytes)} {option : Bytes}
    (hvis : ∀ h ∈ fields, isConnection h = true → h.2.all isVisible = true) (hne : option ≠ [])
    (htoken : option.all isToken = true) (hlow : lowercase option = option) :
    HasOption fields option ↔ ∃ h ∈ fields, isConnection h = true ∧ ∃ t, Element h.2 t ∧ lowercase t = option := by
  refine exists_congr fun h => and_congr_right fun hmem => and_congr_right fun hname => ?_
  exact exists_option_iff_element (hvis h hmem hname) hne htoken hlow

/-! ## What is read of them -/

/-- What a token says: whether the connection closes. -/
def optionOf (token : Bytes) : Option Bool :=
  if eqIgnoreAsciiCase (trim token) (ascii "close") then some true
  else if eqIgnoreAsciiCase (trim token) (ascii "keep-alive") then some false
  else none

/-- The options that are read, in order. -/
def readOptions (fields : List (Bytes × Bytes)) : List Bool :=
  (fields.filter isReadableConnection).flatMap fun h => (splitByte 44 h.2).filterMap optionOf

/-- What the options make of the flag: the last one decides. -/
def lastOption (close : Bool) (options : List Bool) : Bool := options.getLast?.getD close

theorem lastOption_append (close : Bool) (a b : List Bool) :
    lastOption close (a ++ b) = lastOption (lastOption close a) b := by
  rw [lastOption, List.getLast?_append, Option.getD_or]
  rfl

theorem connectionToken_eq (close : Bool) (token : Bytes) :
    connectionToken close token = (optionOf token).getD close := by
  unfold connectionToken optionOf
  split
  · rfl
  · split <;> rfl

theorem foldl_connectionToken (tokens : List Bytes) (close : Bool) :
    tokens.foldl connectionToken close = lastOption close (tokens.filterMap optionOf) := by
  induction tokens generalizing close with
  | nil => rfl
  | cons token tokens ih =>
    rw [List.foldl_cons, ih, connectionToken_eq, List.filterMap_cons]
    cases optionOf token with
    | none => rfl
    | some b => exact (lastOption_append close [b] _).symm

theorem readOptions_cons (h : Bytes × Bytes) (fields : List (Bytes × Bytes)) :
    readOptions (h :: fields) = readOptions [h] ++ readOptions fields := by
  rw [← List.singleton_append, readOptions, List.filter_append, List.flatMap_append]
  rfl

theorem connectionField_eq (close : Bool) {h : Bytes × Bytes} (hname : isConnection h = true) :
    connectionField close h.2 = lastOption close (readOptions [h]) := by
  rw [connectionField, validateUtf8]
  by_cases hutf : isUtf8 h.2 = true
  · simp [hutf, readOptions, isReadableConnection, hname, foldl_connectionToken]
  · simp [hutf, readOptions, isReadableConnection, lastOption]

theorem readOptions_singleton {h : Bytes × Bytes} (hname : isConnection h = false) : readOptions [h] = [] := by
  simp [readOptions, isReadableConnection, hname]

theorem closeRequested_requestField {f f' : Framing} {h : Bytes × Bytes} (hf : requestField f h = some f') :
    f'.closeRequested = lastOption f.closeRequested (readOptions [h]) := by
  unfold requestField at hf
  split at hf
  · rename_i hname
    obtain rfl := Option.some.inj hf
    rw [readOptions_singleton (named_ne (by decide) hname)]
    rfl
  · split at hf
    · rename_i hname
      obtain ⟨n, -, rfl⟩ := Option.map_eq_some_iff.mp hf
      rw [readOptions_singleton (named_ne (by decide) hname)]
      rfl
    · split at hf
      · rename_i hname
        obtain rfl := Option.some.inj hf
        rw [readOptions_singleton (named_ne (by decide) hname)]
        rfl
      · split at hf
        · rename_i hname
          obtain rfl := Option.some.inj hf
          exact connectionField_eq _ hname
        · rename_i hname
          obtain rfl := Option.some.inj hf
          rw [readOptions_singleton (Bool.eq_false_iff.mpr hname)]
          rfl

/-- **The last option that is read decides**, in a request. -/
theorem closeRequested_requestFields {fields : List (Bytes × Bytes)} {f₀ f : Framing}
    (h : fields.foldlM requestField f₀ = some f) :
    f.closeRequested = lastOption f₀.closeRequested (readOptions fields) := by
  induction fields generalizing f₀ with
  | nil =>
    obtain rfl : f₀ = f := Option.some.inj h
    rfl
  | cons x fields ih =>
    rw [List.foldlM_cons] at h
    obtain ⟨f₁, h1, h2⟩ := Option.bind_eq_some_iff.mp h
    rw [readOptions_cons, lastOption_append, ← closeRequested_requestField h1]
    exact ih h2

theorem closeRequested_responseField (f : Framing) (h : Bytes × Bytes) :
    (responseField f h).closeRequested = lastOption f.closeRequested (readOptions [h]) := by
  unfold responseField
  split
  · rename_i hname
    rw [readOptions_singleton (named_ne (by decide) hname)]
    rfl
  · split
    · rename_i hname
      rw [readOptions_singleton (named_ne (by decide) hname)]
      rfl
    · split
      · rename_i hname
        exact connectionField_eq _ hname
      · rename_i hname
        rw [readOptions_singleton (Bool.eq_false_iff.mpr hname)]
        rfl

/-- **The last option that is read decides**, in a response. -/
theorem closeRequested_responseFields (fields : List (Bytes × Bytes)) (f : Framing) :
    (fields.foldl responseField f).closeRequested = lastOption f.closeRequested (readOptions fields) := by
  induction fields generalizing f with
  | nil => rfl
  | cons x fields ih =>
    rw [List.foldl_cons, ih, closeRequested_responseField, readOptions_cons x fields, lastOption_append]

/-! ## When the flag is what the options say -/

/-- The flag says that the connection closes if and only if the `close` option is there, or HTTP/1.0 is spoken without
the `keep-alive` option. -/
def FollowsOptions (close http10 : Bool) (fields : List (Bytes × Bytes)) : Prop :=
  close = true ↔
    HasOption fields (ascii "close") ∨ (http10 = true ∧ ¬ HasOption fields (ascii "keep-alive"))

/-- If the `close` option is there, the last option that is read is `close`, or none is read and HTTP/1.0 is spoken; if
it is not, a `keep-alive` option that is there with HTTP/1.0 is read. -/
structure CloseDecides (http10 : Bool) (fields : List (Bytes × Bytes)) : Prop where
  close : HasOption fields (ascii "close") →
    (readOptions fields).getLast? = some true ∨ (readOptions fields = [] ∧ http10 = true)
  keepAlive : ¬ HasOption fields (ascii "close") → http10 = true → HasOption fields (ascii "keep-alive") →
    false ∈ readOptions fields

theorem mem_readOptions {fields : List (Bytes × Bytes)} {b : Bool} (h : b ∈ readOptions fields) :
    HasOption fields (if b then ascii "close" else ascii "keep-alive") := by
  obtain ⟨x, hx, htokens⟩ := List.mem_flatMap.mp h
  obtain ⟨token, htoken, hoption⟩ := List.mem_filterMap.mp htokens
  obtain ⟨hmem, hread⟩ := List.mem_filter.mp hx
  refine ⟨x, hmem, (Bool.and_eq_true_iff.mp hread).1, token, htoken, ?_⟩
  unfold optionOf at hoption
  split at hoption
  · rename_i hclose
    obtain rfl := Option.some.inj hoption
    exact hclose
  · split at hoption
    · rename_i hkeep
      obtain rfl := Option.some.inj hoption
      exact hkeep
    · cases hoption

/-- **The flag follows the options exactly if `close` decides.** -/
theorem followsOptions_iff (http10 : Bool) (fields : List (Bytes × Bytes)) :
    FollowsOptions (lastOption http10 (readOptions fields)) http10 fields ↔ CloseDecides http10 fields := by
  cases hlast : (readOptions fields).getLast? with
  | none =>
    -- no option is read, and the version decides
    have hnil : readOptions fields = [] := List.getLast?_eq_none_iff.mp hlast
    rw [FollowsOptions, lastOption, hlast, Option.getD_none]
    constructor
    · intro h
      refine ⟨fun hclose => Or.inr ⟨hnil, h.mpr (Or.inl hclose)⟩, fun hno h10 hkeep => ?_⟩
      rcases h.mp h10 with hclose | ⟨-, hnk⟩
      · exact absurd hclose hno
      · exact absurd hkeep hnk
    · rintro ⟨hclose, hkeep⟩
      constructor
      · intro h10
        by_cases hc : HasOption fields (ascii "close")
        · exact Or.inl hc
        · exact Or.inr ⟨h10, fun hk => by simpa [hnil] using hkeep hc h10 hk⟩
      · rintro (hc | ⟨h10, -⟩)
        · rcases hclose hc with h | ⟨-, h10⟩
          · rw [hlast] at h
            cases h
          · exact h10
        · exact h10
  | some b =>
    have hmem : b ∈ readOptions fields := List.mem_of_getLast? hlast
    have hhas := mem_readOptions hmem
    rw [FollowsOptions, lastOption, hlast, Option.getD_some]
    cases b with
    | true =>
      exact ⟨fun _ => ⟨fun _ => Or.inl hlast, fun hno => absurd hhas hno⟩,
        fun _ => ⟨fun _ => Or.inl hhas, fun _ => rfl⟩⟩
    | false =>
      constructor
      · intro h
        refine ⟨fun hclose => ?_, fun _ _ _ => hmem⟩
        exact absurd (h.mpr (Or.inl hclose)) Bool.false_ne_true
      · rintro ⟨hclose, -⟩
        refine ⟨fun h => absurd h Bool.false_ne_true, ?_⟩
        rintro (hc | ⟨-, hnk⟩)
        · rcases hclose hc with h | ⟨h, -⟩
          · rw [hlast] at h
            cases h
          · rw [h] at hmem
            cases hmem
        · exact absurd hhas hnk

/-- If all values are text, it does unless a `keep-alive` stands behind all `close` options. -/
theorem closeDecides_iff_of_text {http10 : Bool} {fields : List (Bytes × Bytes)}
    (htext : ∀ h ∈ fields, isConnection h = true → isUtf8 h.2 = true) :
    CloseDecides http10 fields ↔ (true ∈ readOptions fields → (readOptions fields).getLast? = some true) := by
  have hread : ∀ b : Bool, b ∈ readOptions fields ↔
      HasOption fields (if b then ascii "close" else ascii "keep-alive") := by
    refine fun b => ⟨mem_readOptions, ?_⟩
    rintro ⟨x, hx, hname, token, htoken, hoption⟩
    refine List.mem_flatMap.mpr ⟨x, List.mem_filter.mpr ⟨hx, by simp [isReadableConnection, hname, htext x hx hname]⟩,
      List.mem_filterMap.mpr ⟨token, htoken, ?_⟩⟩
    cases b with
    | true => simp [optionOf, show eqIgnoreAsciiCase (trim token) (ascii "close") = true from hoption]
    | false =>
      have hkeep : lowercase (trim token) = lowercase (ascii "keep-alive") := by simpa [eqIgnoreAsciiCase] using hoption
      simp [optionOf, eqIgnoreAsciiCase, hkeep,
        show (lowercase (ascii "keep-alive") == lowercase (ascii "close")) = false by decide]
  have hclose := hread true
  have hkeep := hread false
  simp only [if_true, Bool.false_eq_true, if_false] at hclose hkeep
  constructor
  · rintro ⟨h, -⟩ hmem
    rcases h (hclose.mp hmem) with hlast | ⟨hnil, -⟩
    · exact hlast
    · simp [hnil] at hmem
  · exact fun h => ⟨fun hc => Or.inl (h (hclose.mpr hc)), fun _ _ hk => hkeep.mpr hk⟩

/-! ## Heads -/

section Heads

variable {hp : HeadParser} (hl : hp.Laws)
include hl

omit hl in
theorem closeRequested_init (minor : Fin 2) :
    (Framing.init (some (minor : ℕ) != some 0)).closeRequested = decide (minor = 0) := by
  revert minor
  decide

theorem closeRequested_parseRequest {l : RequestLayout} {rest : Bytes} {head : RequestHead} (hwf : l.WF)
    (h : parseRequest hp (l.render ++ rest) = .complete head) :
    head.closeRequested = lastOption (decide (l.minor = 0)) (readOptions (l.fields.map FieldLayout.field)) := by
  obtain ⟨raw, n, hraw⟩ : ∃ raw n, hp.request MAX_HEADERS (l.render ++ rest) = .complete n raw := by
    cases hr : hp.request MAX_HEADERS (l.render ++ rest) with
    | incomplete => simp [parseRequest, hr] at h
    | error => simp [parseRequest, hr] at h
    | complete n raw => exact ⟨raw, n, rfl⟩
  obtain ⟨f, pos, hf, -, rfl⟩ := parseRequest_layout hl hwf (HeadParser.request_length_le hl hwf hraw) h
  rw [← closeRequested_init]
  exact closeRequested_requestFields hf

theorem closeRequested_parseResponse {l : ResponseLayout} {rest method : Bytes} {head : ResponseHead} (hwf : l.WF)
    (h : parseResponse hp (l.render ++ rest) method = .complete head) :
    head.closeRequested = lastOption (decide (l.minor = 0)) (readOptions (l.fields.map FieldLayout.field)) := by
  obtain ⟨raw, hraw, -⟩ := parseResponse_eq h
  have hlen := HeadParser.response_length_le hl hwf hraw
  have hhead := h
  simp only [parseResponse, hl.response_complete rest hwf hlen, ResponseLayout.raw, Parsed.complete.injEq] at hhead
  rw [← hhead, ← closeRequested_init]
  exact closeRequested_responseFields _ _

end Heads

/-! ## Connections -/

section Connections

variable {m : PathRouter} {hp : HeadParser} {env : Env m}

/-- A round with an exchange: the connection goes on only if the request did not ask to close it. -/
theorem serveRound_of_mem {s : ConnState} {e : Exchange} (h : e ∈ exchanges (serveRound hp env s)) :
    (∃ s', serveRound hp env s = .next e s' ∧ e.request.closeRequested = false) ∨
      serveRound hp env s = .stop [e] .returned := by
  unfold serveRound at h
  split at h
  · rename_i head src buf filled hread
    have hround : serveRound hp env s = exchange hp env s src buf filled head := by simp only [serveRound, hread]
    obtain ⟨-, up, upSrc, sink, outcome, -, -, hreq, -, -, hgo⟩ := exchange_cases h
    split at hgo
    · rename_i hkeep
      obtain ⟨s', hnext, -, -⟩ := hgo
      have hclose := (Bool.and_eq_true_iff.mp (Bool.and_eq_true_iff.mp hkeep).1).1
      exact Or.inl ⟨s', hround.trans hnext, by rw [hreq]; simpa using hclose⟩
    · exact Or.inr (hround.trans hgo)
  all_goals simp [exchanges] at h

/-- **An exchange that another one follows did not ask to close the connection.** -/
theorem closeRequested_of_followed {fuel : ℕ} {s : ConnState} {pre post : List Exchange} {e e' : Exchange}
    (h : (serveLoop hp env fuel s).1 = pre ++ e :: e' :: post) : e.request.closeRequested = false := by
  induction fuel generalizing s pre with
  | zero => simp [serveLoop] at h
  | succ fuel ih =>
    rw [serveLoop] at h
    cases hround : serveRound hp env s with
    | stop done ending =>
      -- the last round has one exchange at most
      rw [hround] at h
      have hmem : e ∈ exchanges (serveRound hp env s) := by
        rw [hround, exchanges, show done = pre ++ e :: e' :: post from h]
        simp
      rcases serveRound_of_mem hmem with ⟨s', hnext, -⟩ | hstop
      · rw [hround] at hnext
        cases hnext
      · rw [hround] at hstop
        have hdone : [e] = pre ++ e :: e' :: post := by rw [← (Round.stop.inj hstop).1]; exact h
        have hlen := congrArg List.length hdone
        simp only [List.length_append, List.length_cons, List.length_nil] at hlen
        omega
    | next e₀ s' =>
      rw [hround] at h
      cases pre with
      | nil =>
        obtain ⟨rfl, -⟩ := List.cons.inj h
        have hmem : e₀ ∈ exchanges (serveRound hp env s) := by rw [hround]; exact List.mem_singleton_self _
        rcases serveRound_of_mem hmem with ⟨s', -, hclose⟩ | hstop
        · exact hclose
        · rw [hround] at hstop
          cases hstop
      | cons x pre => exact ih (List.cons.inj h).2

/-- **What is put back has not asked to close**: its response head, at the start of what the upstream delivered. -/
theorem closeRequested_of_put (hl : hp.Laws) {downstream : Conn} {e : Exchange}
    (he : e ∈ (serveConnection hp env downstream).1) {conn : Conn} (hput : e.put = some conn) :
    ∃ k up head, env.upstream k e.address = some up ∧
      parseResponse hp up.source.bytes e.request.method = .complete head ∧ head.closeRequested = false := by
  obtain ⟨k, buffered, hexchanged⟩ := serveConnection_exchanged downstream e he
  obtain ⟨up, sink, keepAlive, src, sink', outcome, hup, hresp, hreuse⟩ := hexchanged.upstream
  obtain ⟨head, src', buf, filled, down, hread, hclose, -, -⟩ := relayResponse_put hresp (hreuse conn hput).1
  obtain ⟨hparse, -, -, more, hmore, htake⟩ := readResponseHead_spec fits_start hread
  have hbytes : up.source.bytes = buf.data.take filled ++ src'.bytes := by rw [hmore, htake]; rfl
  exact ⟨k, up, head, hup, hbytes ▸ (parseResponse_append hl hparse _).1, hclose⟩

/-- **The flag follows the options exactly if `close` decides**, for the heads of requests and of responses; when it
does, a client that announced `close` sends the last request of its connection, and an upstream that did is not put
back.  In text, `close` decides if no `keep-alive` stands behind it; in visible text, the options are the elements of the
lists. -/
theorem disposition_iff (hl : hp.Laws) :
    (∀ (buf : Bytes) (head : RequestHead), parseRequest hp buf = .complete head →
      (∃ (l : RequestLayout) (rest : Bytes), l.WF ∧ buf = l.render ++ rest) ∧
      ∀ (l : RequestLayout) (rest : Bytes), l.WF → buf = l.render ++ rest →
        (FollowsOptions head.closeRequested (decide (l.minor = 0)) (l.fields.map FieldLayout.field) ↔
          CloseDecides (decide (l.minor = 0)) (l.fields.map FieldLayout.field))) ∧
    (∀ (buf method : Bytes) (head : ResponseHead), parseResponse hp buf method = .complete head →
      (∃ (l : ResponseLayout) (rest : Bytes), l.WF ∧ buf = l.render ++ rest) ∧
      ∀ (l : ResponseLayout) (rest : Bytes), l.WF → buf = l.render ++ rest →
        (FollowsOptions head.closeRequested (decide (l.minor = 0)) (l.fields.map FieldLayout.field) ↔
          CloseDecides (decide (l.minor = 0)) (l.fields.map FieldLayout.field))) ∧
    (∀ (m : PathRouter) (env : Env m) (downstream : Conn),
      (∀ pre e e' post, (serveConnection hp env downstream).1 = pre ++ e :: e' :: post →
        ∃ (l : RequestLayout) (rest : Bytes), l.WF ∧ parseRequest hp (l.render ++ rest) = .complete e.request ∧
          (CloseDecides (decide (l.minor = 0)) (l.fields.map FieldLayout.field) →
            ¬ HasOption (l.fields.map FieldLayout.field) (ascii "close"))) ∧
      ∀ e ∈ (serveConnection hp env downstream).1, ∀ conn, e.put = some conn →
        ∃ (k : ℕ) (up : Conn) (l : ResponseLayout) (rest : Bytes), env.upstream k e.address = some up ∧
          l.WF ∧ up.source.bytes = l.render ++ rest ∧
          (CloseDecides (decide (l.minor = 0)) (l.fields.map FieldLayout.field) →
            ¬ HasOption (l.fields.map FieldLayout.field) (ascii "close"))) ∧
    ∀ fields : List (Bytes × Bytes),
      ((∀ h ∈ fields, isConnection h = true → isUtf8 h.2 = true) → ∀ http10,
        (CloseDecides http10 fields ↔ (true ∈ readOptions fields → (readOptions fields).getLast? = some true))) ∧
      ((∀ h ∈ fields, isConnection h = true → h.2.all isVisible = true) → ∀ option ∈ [ascii "close", ascii "keep-alive"],
        (HasOption fields option ↔ ∃ h ∈ fields, isConnection h = true ∧ ∃ t, Element h.2 t ∧ lowercase t = option)) := by
  have hopen : ∀ {close http10 : Bool} {fields : List (Bytes × Bytes)}, close = lastOption http10 (readOptions fields) →
      close = false → CloseDecides http10 fields → ¬ HasOption fields (ascii "close") := by
    intro close http10 fields hflag hclose hdecides hoption
    have hfollows := (followsOptions_iff http10 fields).mpr hdecides
    rw [← hflag, hclose] at hfollows
    exact Bool.false_ne_true (hfollows.mpr (Or.inl hoption))
  refine ⟨fun buf head hparse => ?_, fun buf method head hparse => ?_, fun m env downstream => ⟨?_, ?_⟩,
    fun fields => ⟨fun htext http10 => closeDecides_iff_of_text htext, fun hvis option hoption => ?_⟩⟩
  · obtain ⟨l, rest, -, -, hwf, -, hbuf, -⟩ := parseRequest_complete hl hparse
    refine ⟨⟨l, rest, hwf, hbuf⟩, fun l rest hwf hbuf => ?_⟩
    rw [closeRequested_parseRequest hl hwf (hbuf ▸ hparse)]
    exact followsOptions_iff _ _
  · obtain ⟨raw, hraw, -⟩ := parseResponse_eq hparse
    obtain ⟨l, rest, hwf, -, hbuf, -⟩ := hl.response_sound hraw
    refine ⟨⟨l, rest, hwf, hbuf⟩, fun l rest hwf hbuf => ?_⟩
    rw [closeRequested_parseResponse hl hwf (hbuf ▸ hparse)]
    exact followsOptions_iff _ _
  · intro pre e e' post h
    have he : e ∈ (serveConnection hp env downstream).1 := by
      rw [h]
      simp
    obtain ⟨k, buffered, hexchanged⟩ := serveConnection_exchanged downstream e he
    obtain ⟨l, rest, -, -, hwf, -, rfl, -⟩ := parseRequest_complete hl hexchanged.parsed
    exact ⟨l, rest, hwf, hexchanged.parsed,
      hopen (closeRequested_parseRequest hl hwf hexchanged.parsed) (closeRequested_of_followed h)⟩
  · intro e he conn hput
    obtain ⟨k, up, head, hup, hparse, hclose⟩ := closeRequested_of_put hl he hput
    obtain ⟨raw, hraw, -⟩ := parseResponse_eq hparse
    obtain ⟨l, rest, hwf, -, hbuf, -⟩ := hl.response_sound hraw
    exact ⟨k, up, l, rest, hup, hwf, hbuf, hopen (closeRequested_parseResponse hl hwf (hbuf ▸ hparse)) hclose⟩
  · have hname : option ≠ [] ∧ option.all isToken = true ∧ lowercase option = option := by
      revert option
      decide
    exact hasOption_iff_element hvis hname.1 hname.2.1 hname.2.2

end Connections

/-- A request that asks to close, and then lists `keep-alive`. -/
def sampleCloseFirst : RequestLayout :=
  ⟨[], ascii "GET", ascii "/", 1, .crlf, [⟨ascii "Connection", [32], ascii "close, keep-alive", [], .crlf⟩], .crlf⟩

/-- The options the other way round. -/
def sampleCloseLast : RequestLayout :=
  ⟨[], ascii "GET", ascii "/", 1, .crlf, [⟨ascii "Connection", [32], ascii "keep-alive, Close", [], .crlf⟩], .crlf⟩

theorem disposition_iff_closeLast :
    FollowsOptions true false (sampleCloseLast.fields.map FieldLayout.field) := by
  have hparse : parseRequest .reference (sampleCloseLast.render ++ []) =
      .complete ⟨49, ascii "GET", ascii "/", none, .empty, true, (4, 5)⟩ := by decide +kernel
  refine (((disposition_iff HeadParser.reference_laws).1 _ _ hparse).2 sampleCloseLast [] (by decide) rfl).mpr
    ⟨fun _ => Or.inl (by decide +kernel), fun h => absurd ?_ h⟩
  decide +kernel

/-- The same options in a response without a body. -/
def sampleCloseFirstResponse : Source :=
  ⟨[ascii "HTTP/1.1 204 No Content\r\nConnection: close, keep-alive\r\n\r\n"], .idle, false⟩

/-- The later option overrides `close`, and the upstream that announced it is reusable. -/
theorem keepAlive_overrides_close :
    (parseRequest .reference sampleCloseFirst.render =
        .complete ⟨49, ascii "GET", ascii "/", none, .empty, false, (4, 5)⟩ ∧
      ¬ FollowsOptions false false (sampleCloseFirst.fields.map FieldLayout.field)) ∧
    relayResponse .reference sampleCloseFirstResponse ⟨[], none⟩ (ascii "GET") true =
      .done (⟨[[]], .idle, false⟩, ⟨ascii "HTTP/1.1 204 No Content\r\nConnection: keep-alive\r\n\r\n", none⟩,
        ⟨true, true⟩) := by
  refine ⟨⟨by decide +kernel, fun h => Bool.false_ne_true (h.mpr (Or.inl ?_))⟩, by decide +kernel⟩
  decide +kernel

end LbProxy.Monoio
