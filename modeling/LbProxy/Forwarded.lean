import LbProxy.Monoio.EndToEnd
import Mathlib.Algebra.Order.BigOperators.Group.List

/-!
# The forwarding headers that an upstream sees

Both ways to write `X-Forwarded-For` and `X-Forwarded-Proto` are compared with the chain of all the values that came in,
with the peer behind them.

* `fullChain` — that chain; `chainOf_eq_fullChain_iff` — when the chain with one value in it is the same;
* `forwarded_header_map_iff` — the header map keeps it if there is at most one value, and that one is text;
* `forwarded_monoio_iff` — the head that Monoio writes keeps it if there is at most one value, in the header block, and
  no `X-Forwarded-Proto` is copied;
* `forwarded_complete_iff` — both.
-/

namespace LbProxy

open Lib LbProxy.Core Monoio

/-! ## Chains -/

/-- The chain of all the values, with the peer behind them. -/
def fullChain (values : List Bytes) (peer : PeerAddr) : Bytes := (ascii ", ").intercalate (values ++ [peer.text])

theorem fullChain_nil (peer : PeerAddr) : fullChain [] peer = peer.text := List.intercalate_singleton

theorem fullChain_cons (v : Bytes) (values : List Bytes) (peer : PeerAddr) :
    fullChain (v :: values) peer = v ++ ascii ", " ++ fullChain values peer := by
  rw [fullChain, List.cons_append, List.intercalate_cons_of_ne_nil (by simp)]
  rfl

theorem length_fullChain (values : List Bytes) (peer : PeerAddr) :
    (fullChain values peer).length = (values.map fun v => v.length + 2).sum + peer.text.length := by
  have hsep : (ascii ", ").length = 2 := by decide
  induction values with
  | nil => simp [fullChain_nil]
  | cons v values ih =>
    rw [fullChain_cons, List.length_append, List.length_append, ih, hsep, List.map_cons, List.sum_cons]
    omega

theorem length_lt_length_fullChain {v w : Bytes} {values : List Bytes} {u : Bytes} (h : u ∈ v :: w :: values)
    (peer : PeerAddr) : u.length + 2 + peer.text.length < (fullChain (v :: w :: values) peer).length := by
  have hmem : ∀ {us : List Bytes}, u ∈ us → u.length + 2 ≤ (us.map fun v => v.length + 2).sum := by
    intro us hu
    exact List.single_le_sum (fun _ _ => Nat.zero_le _) _ (List.mem_map_of_mem (f := fun v : Bytes => v.length + 2) hu)
  rw [length_fullChain, List.map_cons, List.sum_cons]
  rcases List.mem_cons.mp h with rfl | h
  · rw [List.map_cons, List.sum_cons]
    omega
  · have := hmem h
    omega

/-- **The chain with one value in it is the full chain** exactly if there are no values, or it is the only one. -/
theorem chainOf_eq_fullChain_iff {existing : Option Bytes} {values : List Bytes}
    (hmem : ∀ v, existing = some v → values ≠ [] → v ∈ values) (peer : PeerAddr) :
    chainOf existing peer = fullChain values peer ↔
      (values = [] ∧ existing = none) ∨ ∃ v, values = [v] ∧ existing = some v := by
  have hone : ∀ u, chainOf (some u) peer = fullChain [u] peer := by
    intro u
    rw [fullChain_cons, fullChain_nil]
    rfl
  have hnone : chainOf none peer = fullChain [] peer := (fullChain_nil peer).symm
  -- chains of different lengths
  have hlen : ∀ {a b : List Bytes}, (fullChain a peer).length ≠ (fullChain b peer).length →
      fullChain a peer ≠ fullChain b peer := fun h heq => h (congrArg List.length heq)
  cases existing with
  | none =>
    rw [hnone]
    cases values with
    | nil => simp
    | cons v values =>
      have hne := hlen (a := []) (b := v :: values) (by simp [length_fullChain])
      simp [hne]
  | some u =>
    rw [hone]
    cases values with
    | nil =>
      have hne := hlen (a := [u]) (b := []) (by simp [length_fullChain])
      simp [hne]
    | cons v values =>
      have hu := hmem u rfl (by simp)
      cases values with
      | nil =>
        obtain rfl : u = v := by simpa using hu
        simp
      | cons w values =>
        have hlong := length_lt_length_fullChain hu peer
        have hne := hlen (a := [u]) (b := v :: w :: values) (by rw [length_fullChain [u]]; simp; omega)
        simp [hne]

/-- The upstream sees one `X-Forwarded-For` value, the chain of all that came in with the peer behind them, and one
`X-Forwarded-Proto` value. -/
def Forwarded (seen : Bytes → List Bytes) (incoming : List Bytes) (peer : PeerAddr) : Prop :=
  seen FORWARDED_FOR = [fullChain incoming peer] ∧ seen FORWARDED_PROTO = [ascii "http"]

/-! ## On a header map -/

/-- At most one value, of visible ASCII. -/
def AtMostOneText (values : List Bytes) : Prop := values = [] ∨ ∃ v, values = [v] ∧ v.all isVisible = true

theorem forwarded_header_map_iff {ht : HeaderTypes} (hl : ht.Laws) (m : ht.Map) (peer : PeerAddr) :
    Forwarded (ht.getAll (setForwardedProto ht (appendForwardedFor ht m peer) (ascii "http")))
        (ht.getAll m FORWARDED_FOR) peer ↔ AtMostOneText (ht.getAll m FORWARDED_FOR) := by
  have hproto : FORWARDED_FOR ≠ FORWARDED_PROTO := by decide
  have hget : ∀ v, (ht.get m FORWARDED_FOR).bind ht.toStr = some v ↔
      (ht.getAll m FORWARDED_FOR).head? = some v ∧ v.all isVisible = true := by
    intro v
    rw [HeaderTypes.get, Option.bind_eq_some_iff]
    constructor
    · rintro ⟨w, hw, hstr⟩
      rw [hl.toStr] at hstr
      split at hstr
      · rename_i hvis
        obtain rfl := Option.some.inj hstr
        exact ⟨hw, hvis⟩
      · cases hstr
    · rintro ⟨hv, hvis⟩
      exact ⟨v, hv, by rw [hl.toStr, if_pos hvis]⟩
  have hmem : ∀ v, (ht.get m FORWARDED_FOR).bind ht.toStr = some v → ht.getAll m FORWARDED_FOR ≠ [] →
      v ∈ ht.getAll m FORWARDED_FOR := fun v hv _ => List.mem_of_mem_head? ((hget v).mp hv).1
  simp only [Forwarded, getAll_setForwardedProto hl, getAll_appendForwardedFor hl, if_neg hproto, if_true, and_true,
    List.cons.injEq, chainOf_eq_fullChain_iff hmem, hget, AtMostOneText]
  constructor
  · rintro (⟨hnil, -⟩ | ⟨v, hv, -, hvis⟩)
    · exact Or.inl hnil
    · exact Or.inr ⟨v, hv, hvis⟩
  · rintro (hnil | ⟨v, hv, hvis⟩)
    · exact Or.inl ⟨hnil, by simp [HeaderTypes.get, hnil]⟩
    · exact Or.inr ⟨v, hv, by rw [hv]; rfl, hvis⟩

/-! ## On the lines of a head -/

/-- The `Connection` values of the header block list this name. -/
def BlockLists (l : RequestLayout) (n : Bytes) : Prop := Listed (valuesOf (readFields l) CONNECTION) n

/-- No value came in, and none is read in the header block unless it lists the name; or one came in, in the header
block, and the block does not list the name. No `X-Forwarded-Proto` of the block is copied. -/
structure KeepsChain (l : RequestLayout) : Prop where
  chain : (valuesOf (reported l) FORWARDED_FOR = [] ∧
      (valuesOf (readFields l) FORWARDED_FOR = [] ∨ BlockLists l FORWARDED_FOR)) ∨
    ∃ v, valuesOf (reported l) FORWARDED_FOR = [v] ∧
      valuesOf ((visibleFields l).map FieldLayout.field) FORWARDED_FOR = [v] ∧ ¬ BlockLists l FORWARDED_FOR
  proto : valuesOf ((visibleFields l).map FieldLayout.field) FORWARDED_PROTO = [] ∨ BlockLists l FORWARDED_PROTO

theorem valuesOf_copiedStray {l : RequestLayout} (hwf : l.WF) {n : Bytes} (hspace : 32 ∉ n) :
    valuesOf ((copiedStray l).filterMap fieldOf) n = [] := by
  rw [valuesOf, List.map_eq_nil_iff, List.filter_eq_nil_iff]
  intro x hx hn
  exact hspace (beq_iff_eq.mp hn ▸ (space_mem_of_copiedStray hwf hx).2)

/-- If the request line stands in the header block, all the fields do. -/
theorem strayLines_or_hiddenFields (l : RequestLayout) : strayLines l = [] ∨ hiddenFields l = [] := by
  by_cases h : .crlf ∈ l.blanks
  · exact Or.inr (by simp [hiddenFields, h])
  · exact Or.inl (by simp [strayLines, h])

theorem valuesOf_reported (l : RequestLayout) (n : Bytes) :
    valuesOf (reported l) n =
      valuesOf ((hiddenFields l).map FieldLayout.field) n ++ valuesOf ((visibleFields l).map FieldLayout.field) n := by
  rw [reported, ← hiddenFields_append, List.map_append, valuesOf_append]

section Monoio

variable {l : RequestLayout} (hwf : l.WF)
include hwf

theorem existingXff_eq_some_iff (v : Bytes) :
    existingXff l = some v ↔
      ¬ BlockLists l FORWARDED_FOR ∧ (valuesOf (readFields l) FORWARDED_FOR).getLast? = some v := by
  have hhop : ¬ (FORWARDED_FOR = CONNECTION ∨ FORWARDED_FOR ∈ Core.HOP_BY_HOP) := by decide
  have hnom : FORWARDED_FOR ∈ nominatedNames l ↔ BlockLists l FORWARDED_FOR :=
    mem_nominatedNames_iff hwf (by decide) (by decide)
  rw [existingXff_eq, forwardable, ← hnom]
  by_cases h : FORWARDED_FOR ∈ nominatedNames l <;> simp [hhop, h]

theorem getLast_readFields {v : Bytes} (h : (valuesOf (readFields l) FORWARDED_FOR).getLast? = some v)
    (hne : valuesOf (reported l) FORWARDED_FOR ≠ []) :
    (valuesOf ((visibleFields l).map FieldLayout.field) FORWARDED_FOR).getLast? = some v := by
  rw [readFields_eq hwf, valuesOf_append, List.getLast?_append, Option.or_eq_some_iff] at h
  refine h.resolve_right ?_
  rintro ⟨hvisible, hstray⟩
  rw [List.getLast?_eq_none_iff] at hvisible
  -- the value is that of the request line, so no field stands before it
  rcases strayLines_or_hiddenFields l with hnil | hnil
  · simp [hnil] at hstray
  · rw [valuesOf_reported, hnil, hvisible] at hne
    exact hne rfl

theorem chainOf_existingXff_iff (peer : PeerAddr) :
    chainOf (existingXff l) peer = fullChain (valuesOf (reported l) FORWARDED_FOR) peer ↔
      (valuesOf (reported l) FORWARDED_FOR = [] ∧
        (valuesOf (readFields l) FORWARDED_FOR = [] ∨ BlockLists l FORWARDED_FOR)) ∨
      ∃ v, valuesOf (reported l) FORWARDED_FOR = [v] ∧
        valuesOf ((visibleFields l).map FieldLayout.field) FORWARDED_FOR = [v] ∧ ¬ BlockLists l FORWARDED_FOR := by
  have hsome := existingXff_eq_some_iff hwf
  have hmem : ∀ v, existingXff l = some v → valuesOf (reported l) FORWARDED_FOR ≠ [] →
      v ∈ valuesOf (reported l) FORWARDED_FOR := by
    intro v hv hne
    rw [valuesOf_reported]
    exact List.mem_append_right _ (List.mem_of_getLast? (getLast_readFields hwf ((hsome v).mp hv).2 hne))
  have hnone : existingXff l = none ↔
      valuesOf (readFields l) FORWARDED_FOR = [] ∨ BlockLists l FORWARDED_FOR := by
    rw [← List.getLast?_eq_none_iff, Option.eq_none_iff_forall_ne_some, Option.eq_none_iff_forall_ne_some]
    simp only [ne_eq, hsome]
    by_cases hlists : BlockLists l FORWARDED_FOR <;> simp [hlists]
  rw [chainOf_eq_fullChain_iff hmem, hnone]
  refine or_congr_right (exists_congr fun v => and_congr_right fun hv => ?_)
  have hne : valuesOf (reported l) FORWARDED_FOR ≠ [] := by simp [hv]
  rw [hsome]
  constructor
  · rintro ⟨hlists, hlast⟩
    have hvisible := getLast_readFields hwf hlast hne
    refine ⟨?_, hlists⟩
    have hsuffix : valuesOf ((visibleFields l).map FieldLayout.field) FORWARDED_FOR <:+ [v] := by
      rw [← hv, valuesOf_reported]
      exact List.suffix_append _ _
    rcases List.suffix_cons_iff.mp hsuffix with heq | hnil
    · exact heq
    · rw [List.suffix_nil.mp hnil] at hvisible
      cases hvisible
  · rintro ⟨hvisible, hlists⟩
    refine ⟨hlists, ?_⟩
    rw [readFields_eq hwf, valuesOf_append, hvisible]
    simp

/-- **The head that Monoio writes carries the full chain and one protocol exactly if the header block keeps them.** -/
theorem forwarded_monoio_iff {target host : Bytes} (htarget : ∀ b ∈ target, isLineByte b)
    (hhost : ∀ b ∈ host, isPrintable b) (peer : PeerAddr) (f : Framing) (pos : ℕ) (rest : Bytes) :
    Forwarded (valuesOf (fieldsOf (writeForwardHead (l.render ++ rest) (headOf l f pos) target host (some peer))))
      (valuesOf (reported l) FORWARDED_FOR) peer ↔ KeepsChain l := by
  have hchain := valuesOf_forward hwf htarget hhost peer f pos rest
    (valuesOf_copiedStray hwf (n := FORWARDED_FOR) (by decide))
  have hproto := valuesOf_forward hwf htarget hhost peer f pos rest
    (valuesOf_copiedStray hwf (n := FORWARDED_PROTO) (by decide))
  have hnom : FORWARDED_PROTO ∈ nominatedNames l ↔ BlockLists l FORWARDED_PROTO :=
    mem_nominatedNames_iff hwf (by decide) (by decide)
  have hkept : forwardable (nominatedNames l) ((visibleFields l).map FieldLayout.field) FORWARDED_PROTO = [] ↔
      valuesOf ((visibleFields l).map FieldLayout.field) FORWARDED_PROTO = [] ∨ BlockLists l FORWARDED_PROTO := by
    have hhop : ¬ (FORWARDED_PROTO = CONNECTION ∨ FORWARDED_PROTO ∈ Core.HOP_BY_HOP) := by decide
    rw [forwardable, ← hnom]
    by_cases h : FORWARDED_PROTO ∈ nominatedNames l <;> simp [hhop, h]
  rw [if_neg (by decide), if_pos rfl] at hchain
  rw [if_neg (by decide), if_neg (by decide), if_pos rfl] at hproto
  rw [Forwarded, hchain, hproto, List.cons.injEq, chainOf_existingXff_iff hwf peer, List.append_left_eq_self, hkept]
  exact ⟨fun h => ⟨h.1.1, h.2⟩, fun h => ⟨⟨h.chain, rfl⟩, h.proto⟩⟩

end Monoio

/-! ## The equivalence -/

/-- **The forwarding headers are complete** on a header map exactly if at most one value came in, and that one is text;
and in the head that Monoio writes exactly if at most one came in, where the header block keeps it, and no
`X-Forwarded-Proto` is copied. -/
theorem forwarded_complete_iff {ht : HeaderTypes} (hht : ht.Laws) {hp : HeadParser} (hl : hp.Laws) :
    (∀ (m : ht.Map) (peer : PeerAddr),
      (Forwarded (ht.getAll (setForwardedProto ht (appendForwardedFor ht m peer) (ascii "http")))
        (ht.getAll m FORWARDED_FOR) peer ↔ AtMostOneText (ht.getAll m FORWARDED_FOR))) ∧
    ∀ {buf : Bytes} {h : RequestHead}, parseRequest hp buf = .complete h →
      (∃ (l : RequestLayout) (rest : Bytes), l.WF ∧ l.fields.length ≤ MAX_HEADERS ∧ buf = l.render ++ rest) ∧
      ∀ (l : RequestLayout) (rest : Bytes), l.WF → l.fields.length ≤ MAX_HEADERS → buf = l.render ++ rest →
        ∀ (target host : Bytes) (peer : PeerAddr), (∀ b ∈ target, isLineByte b) → (∀ b ∈ host, isPrintable b) →
          (Forwarded (valuesOf (fieldsOf (writeForwardHead buf h target host (some peer))))
            (valuesOf (reported l) FORWARDED_FOR) peer ↔ KeepsChain l) := by
  refine ⟨fun m peer => forwarded_header_map_iff hht m peer, ?_⟩
  intro buf h hparse
  refine ⟨?_, ?_⟩
  · obtain ⟨l, rest, -, -, hwf, hlen, hbuf, -⟩ := parseRequest_complete hl hparse
    exact ⟨l, rest, hwf, hlen, hbuf⟩
  rintro l rest hwf hlen rfl target host peer htarget hhost
  obtain ⟨f, pos, -, -, rfl⟩ := parseRequest_layout hl hwf hlen hparse
  exact forwarded_monoio_iff hwf htarget hhost peer f pos rest

/-- The address that a request comes from. -/
def sampleClient : PeerAddr := ⟨ascii "10.0.0.9", by decide, by decide +kernel⟩

/-- A request that came through one proxy before. -/
def sampleProxied : RequestLayout :=
  ⟨[], ascii "GET", ascii "/a", 1, .crlf, [⟨ascii "X-Forwarded-For", [32], ascii "10.0.0.1", [], .crlf⟩], .crlf⟩

theorem forwarded_complete_proxied :
    Forwarded (HeaderTypes.reference.getAll (setForwardedProto HeaderTypes.reference
        (appendForwardedFor HeaderTypes.reference (HeaderTypes.reference.ofFields (reported sampleProxied)) sampleClient)
        (ascii "http"))) [ascii "10.0.0.1"] sampleClient ∧
    Forwarded (valuesOf (fieldsOf (writeForwardHead sampleProxied.render
        ⟨46, ascii "GET", ascii "/a", none, .empty, false, (4, 6)⟩ (ascii "/a") (ascii "10.0.0.2:80") (some sampleClient))))
      [ascii "10.0.0.1"] sampleClient := by
  have hparse : parseRequest .reference sampleProxied.render =
      .complete ⟨46, ascii "GET", ascii "/a", none, .empty, false, (4, 6)⟩ := by decide +kernel
  have hvalues : valuesOf (reported sampleProxied) FORWARDED_FOR = [ascii "10.0.0.1"] := by decide +kernel
  obtain ⟨hmaps, hheads⟩ := forwarded_complete_iff HeaderTypes.reference_laws HeadParser.reference_laws
  have hmap := hmaps (HeaderTypes.reference.ofFields (reported sampleProxied)) sampleClient
  have hhead := (hheads hparse).2 sampleProxied [] (by decide) (by decide) (by simp)
    (ascii "/a") (ascii "10.0.0.2:80") sampleClient (List.all_eq_true.mp (by decide))
    (List.all_eq_true.mp (by decide))
  rw [HeaderTypes.getAll_ofFields HeaderTypes.reference_laws, hvalues] at hmap
  rw [hvalues] at hhead
  refine ⟨hmap.mpr (Or.inr ⟨_, rfl, by decide⟩), hhead.mpr ⟨Or.inr ⟨_, hvalues, hvalues, ?_⟩, Or.inl ?_⟩⟩
  · rw [BlockLists]
    decide +kernel
  · decide +kernel

/-- A request with two values, and a protocol of its own. -/
def sampleSpoofed : RequestLayout :=
  ⟨[], ascii "GET", ascii "/a", 1, .crlf, [⟨ascii "X-Forwarded-For", [32], ascii "10.0.0.1", [], .crlf⟩,
    ⟨ascii "X-Forwarded-For", [32], ascii "10.0.0.2", [], .crlf⟩,
    ⟨ascii "X-Forwarded-Proto", [32], ascii "https", [], .crlf⟩], .crlf⟩

/-- A value is lost on both ways, and the protocol of the client is passed on. -/
theorem spoofed_is_incomplete :
    ¬ Forwarded (HeaderTypes.reference.getAll (setForwardedProto HeaderTypes.reference
        (appendForwardedFor HeaderTypes.reference (HeaderTypes.reference.ofFields (reported sampleSpoofed)) sampleClient)
        (ascii "http"))) [ascii "10.0.0.1", ascii "10.0.0.2"] sampleClient ∧
    parseRequest .reference sampleSpoofed.render =
      .complete ⟨99, ascii "GET", ascii "/a", none, .empty, false, (4, 6)⟩ ∧
    valuesOf (fieldsOf (writeForwardHead sampleSpoofed.render
        ⟨99, ascii "GET", ascii "/a", none, .empty, false, (4, 6)⟩ (ascii "/a") (ascii "10.0.0.3:80") (some sampleClient)))
      FORWARDED_PROTO = [ascii "https", ascii "http"] ∧
    ¬ Forwarded (valuesOf (fieldsOf (writeForwardHead sampleSpoofed.render
        ⟨99, ascii "GET", ascii "/a", none, .empty, false, (4, 6)⟩ (ascii "/a") (ascii "10.0.0.3:80") (some sampleClient))))
      [ascii "10.0.0.1", ascii "10.0.0.2"] sampleClient := by
  simp only [Forwarded]
  decide +kernel

end LbProxy
