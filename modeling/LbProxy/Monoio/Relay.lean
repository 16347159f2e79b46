import LbProxy.Monoio.Server
import Mathlib.Tactic.Common

/-!
# What the relays write and what they leave unread

* `readMore_data`, `readMore_other` — a read past the filled part of the buffer;
* `relayExact_done`, `relayExact_of_enough` — exactly the bytes asked for; `relayExact_of_short` — or a failure;
* `relayUntilCloseLoop_spec` — everything that a closed stream has left;
* `relayChunkedLoop_done` — the reads up to the first one with the terminator, or everything that is left
  of a closed stream; `relayChunkedLoop_of_terminator`, `relayChunkedLoop_of_closed` — and it does return.
-/

namespace LbProxy.Monoio

open Lib LbProxy.Core

/-! ## Writes and reads -/

/-- Append to what was written. -/
def extend (dst : Sink) (bytes : Bytes) : Sink := { dst with written := dst.written ++ bytes }

theorem writeAll_eq {dst dst' : Sink} {bytes : Bytes} (h : dst.writeAll bytes = some dst') :
    dst' = extend dst bytes := by
  unfold Sink.writeAll at h
  split at h
  · exact (Option.some.inj h).symm
  · split at h
    · exact (Option.some.inj h).symm
    · cases h

theorem writeAll_of_unlimited {dst : Sink} (h : dst.limit = none) (bytes : Bytes) :
    dst.writeAll bytes = some (extend dst bytes) := by
  simp [Sink.writeAll, h, extend]

theorem extend_extend (dst : Sink) (a b : Bytes) : extend (extend dst a) b = extend dst (a ++ b) := by
  simp [extend]

theorem ofOption_writeAll {dst : Sink} (hlim : dst.limit = none) {n : ℕ} {bytes : Bytes} (h : bytes.length = n) :
    (if n > 0 then Outcome.ofOption (dst.writeAll bytes) else .done dst) = .done (extend dst bytes) := by
  split
  · rw [writeAll_of_unlimited hlim]
    rfl
  · have hnil : bytes = [] := List.eq_nil_of_length_eq_zero (by omega)
    simp [hnil, extend]

theorem readInto_front {src src' : Source} {buf buf' : Buf} {stop : ℕ} {bytes : Bytes} {h : bytes ≠ []}
    (hr : src.readInto buf 0 stop = (.data bytes h, buf', src')) :
    src.read stop = (.data bytes h, src') ∧ buf'.data.take bytes.length = bytes ∧ buf'.cap = buf.cap := by
  obtain ⟨hread, rfl⟩ := Source.readInto_data hr
  exact ⟨by simpa using hread, by simp, rfl⟩

/-- Growing keeps the filled part and leaves room for a read. -/
theorem growForRead_spec {buf : Buf} {filled : ℕ} (h : buf.Fits filled) :
    (growForRead buf filled).data.take filled = buf.data.take filled ∧
      (growForRead buf filled).Fits filled ∧ filled < (growForRead buf filled).cap := by
  obtain ⟨hf, hc⟩ := h
  have h1 : IO_BUF_INITIAL = 4096 := rfl
  have h2 : IO_BUF_SIZE = 32768 := rfl
  have hresize : ∀ n, filled < n → (buf.resize n).data.take filled = buf.data.take filled ∧
      (buf.resize n).Fits filled ∧ filled < (buf.resize n).cap := by
    intro n hn
    have hcap := buf.le_cap_resize n
    refine ⟨Buf.take_resize hf hn.le, ⟨?_, ?_⟩, by omega⟩
    · rw [Buf.length_resize]
      omega
    · rw [Buf.length_resize]
      exact hcap
  unfold growForRead
  simp only
  split
  · exact ⟨rfl, ⟨hf, hc⟩, by omega⟩
  · split
    · exact hresize _ (by omega)
    · exact hresize _ (by omega)

theorem fits_start : (Buf.withCapacity IO_BUF_INITIAL).Fits 0 := ⟨by simp, by simp [Buf.withCapacity]⟩

/-- A read past the filled part appends to it. -/
theorem readMore_data {src src' : Source} {buf buf' : Buf} {filled : ℕ} {bytes : Bytes} {h : bytes ≠ []}
    (hfit : buf.Fits filled) (hr : readMore src buf filled = (.data bytes h, buf', src')) :
    src.bytes = bytes ++ src'.bytes ∧ src'.ending = src.ending ∧ src'.ended = src.ended ∧
      buf'.data.take (filled + bytes.length) = buf.data.take filled ++ bytes ∧
      buf'.Fits (filled + bytes.length) := by
  obtain ⟨htake, hfit', -⟩ := growForRead_spec hfit
  obtain ⟨hread, rfl⟩ := Source.readInto_data hr
  obtain ⟨hbytes, hle, hend, hended⟩ := Source.bytes_read hread
  have hlen : ((growForRead buf filled).data.take filled).length = filled := by
    rw [List.length_take]
    exact min_eq_left hfit'.filled_le
  refine ⟨hbytes, hend, hended, ?_, ?_, ?_⟩
  · simp only [htake]
    rw [htake] at hlen
    rw [List.take_of_length_le]
    rw [List.length_append, hlen]
  · show filled + bytes.length ≤ ((growForRead buf filled).data.take filled ++ bytes).length
    rw [List.length_append, hlen]
  · show ((growForRead buf filled).data.take filled ++ bytes).length ≤ (growForRead buf filled).cap
    rw [List.length_append, hlen]
    have := hfit'.filled_le
    have := hfit'.length_le
    omega

theorem readMore_other {src src' : Source} {buf buf' : Buf} {filled : ℕ} {r : ReadResult}
    (hfit : buf.Fits filled) (hr : readMore src buf filled = (r, buf', src'))
    (hno : ∀ bs h, r ≠ .data bs h) :
    src.bytes = [] ∧ ((r = .zero ∧ src.ending = .closed ∧ src'.ended = true) ∨
      (r = .failed ∧ src.ending = .failed) ∨ (r = .pending ∧ src.ending = .idle)) := by
  obtain ⟨-, -, hroom⟩ := growForRead_spec hfit
  obtain ⟨hread, -⟩ := Source.readInto_other hr hno
  obtain ⟨h1, -, -, h2⟩ := Source.read_drained (by omega) hread hno
  exact ⟨h1, h2⟩

/-! ## Relaying a known number of bytes -/

theorem relayExactLoop_data {src src' : Source} {dst : Sink} {buf buf' : Buf} {remaining : ℕ}
    (hrem : remaining ≠ 0) {bytes : Bytes} {h : bytes ≠ []}
    (hr : src.readInto buf 0 (min remaining buf.data.length) = (.data bytes h, buf', src')) :
    relayExactLoop src dst buf remaining = match dst.writeAll bytes with
      | some dst' => relayExactLoop src' dst' buf' (remaining - bytes.length)
      | none => .failed := by
  rw [relayExactLoop.eq_def, dif_neg hrem]
  cases hw : dst.writeAll bytes <;> simp only [hr, (readInto_front hr).2.1, hw]

/-- **What an exact relay that returns has written.** -/
theorem relayExactLoop_done {src src' : Source} {dst dst' : Sink} {buf buf' : Buf} {remaining : ℕ}
    (h : relayExactLoop src dst buf remaining = .done (src', dst', buf')) :
    ∃ bs : Bytes, bs.length = remaining ∧ src.bytes = bs ++ src'.bytes ∧ dst' = extend dst bs ∧
      src'.ended = src.ended := by
  induction remaining using Nat.strong_induction_on generalizing src dst buf with
  | _ remaining ih =>
    by_cases hrem : remaining = 0
    · rw [relayExactLoop.eq_def, dif_pos hrem] at h
      simp only [Outcome.done.injEq, Prod.mk.injEq] at h
      obtain ⟨rfl, rfl, rfl⟩ := h
      exact ⟨[], by simp [hrem], rfl, by simp [extend], rfl⟩
    rcases hr : src.readInto buf 0 (min remaining buf.data.length) with ⟨res, buf₁, src₁⟩
    by_cases hdata : ∃ bytes h, res = .data bytes h
    · obtain ⟨bytes, hne, rfl⟩ := hdata
      obtain ⟨hread, -, -⟩ := readInto_front hr
      obtain ⟨hbytes, hle, -, hended⟩ := Source.bytes_read hread
      rw [relayExactLoop_data hrem hr] at h
      cases hw : dst.writeAll bytes with
      | none =>
        rw [hw] at h
        cases h
      | some dst₁ =>
        rw [hw] at h
        obtain rfl := writeAll_eq hw
        have hpos := List.length_pos_iff.mpr hne
        obtain ⟨bs, hlen, hb, rfl, he⟩ := ih _ (by omega) h
        refine ⟨bytes ++ bs, ?_, by rw [hbytes, hb, List.append_assoc], by rw [extend_extend],
          he.trans hended⟩
        rw [List.length_append, hlen]
        omega
    · push Not at hdata
      rw [relayExactLoop.eq_def, dif_neg hrem] at h
      simp only [hr] at h
      cases res with
      | data bytes hne => exact absurd rfl (hdata bytes hne)
      | zero => cases h
      | failed => cases h
      | pending => cases h

theorem relayExactLoop_of_enough {src : Source} {dst : Sink} {buf : Buf} {remaining : ℕ}
    (hbuf : buf.data ≠ []) (hfit : buf.data.length ≤ buf.cap) (hlim : dst.limit = none)
    (h : remaining ≤ src.bytes.length) :
    ∃ src' dst' buf', relayExactLoop src dst buf remaining = .done (src', dst', buf') ∧
      buf'.data.length ≤ buf'.cap ∧ src'.ending = src.ending := by
  induction remaining using Nat.strong_induction_on generalizing src dst buf with
  | _ remaining ih =>
    by_cases hrem : remaining = 0
    · refine ⟨src, dst, buf, ?_, hfit, rfl⟩
      rw [relayExactLoop.eq_def, dif_pos hrem]
    have hpos := List.length_pos_iff.mpr hbuf
    rcases hr : src.readInto buf 0 (min remaining buf.data.length) with ⟨res, buf₁, src₁⟩
    by_cases hdata : ∃ bytes h, res = .data bytes h
    · obtain ⟨bytes, hne, rfl⟩ := hdata
      obtain ⟨hread, hfront, hcap⟩ := readInto_front hr
      obtain ⟨hbytes, hle, hend, -⟩ := Source.bytes_read hread
      obtain ⟨-, rfl⟩ := Source.readInto_data hr
      have hbpos := List.length_pos_iff.mpr hne
      have hlen : remaining - bytes.length ≤ src₁.bytes.length := by
        rw [hbytes, List.length_append] at h
        omega
      obtain ⟨src', dst', buf', hdone, hfit', hend'⟩ := ih (remaining - bytes.length) (by omega)
        (show ({ buf with data := buf.data.take 0 ++ bytes } : Buf).data ≠ [] by simpa using hne)
        (by simp only [List.take_zero, List.nil_append]; omega)
        (show (extend dst bytes).limit = none from hlim) hlen
      refine ⟨src', dst', buf', ?_, hfit', hend'.trans hend⟩
      rw [relayExactLoop_data hrem hr, writeAll_of_unlimited hlim]
      exact hdone
    · push Not at hdata
      obtain ⟨hread, -⟩ := Source.readInto_other hr hdata
      have := (Source.read_drained (by omega) hread hdata).1
      rw [this] at h
      simp at h
      exact absurd h hrem

theorem relayExactLoop_of_short {src : Source} {dst : Sink} {buf : Buf} {remaining : ℕ} (hbuf : buf.data ≠ [])
    (hend : src.ending ≠ .idle) (h : src.bytes.length < remaining) :
    relayExactLoop src dst buf remaining = .failed := by
  induction remaining using Nat.strong_induction_on generalizing src dst buf with
  | _ remaining ih =>
    have hrem : remaining ≠ 0 := by omega
    have hpos := List.length_pos_iff.mpr hbuf
    rcases hr : src.readInto buf 0 (min remaining buf.data.length) with ⟨res, buf₁, src₁⟩
    by_cases hdata : ∃ bytes h, res = .data bytes h
    · obtain ⟨bytes, hne, rfl⟩ := hdata
      obtain ⟨hread, -, -⟩ := readInto_front hr
      obtain ⟨hbytes, hle, hend₁, -⟩ := Source.bytes_read hread
      obtain ⟨-, rfl⟩ := Source.readInto_data hr
      have hbpos := List.length_pos_iff.mpr hne
      have hlen : src₁.bytes.length < remaining - bytes.length := by
        rw [hbytes, List.length_append] at h
        omega
      rw [relayExactLoop_data hrem hr]
      cases hw : dst.writeAll bytes with
      | none => rfl
      | some dst₁ =>
        exact ih _ (by omega) (show ({ buf with data := buf.data.take 0 ++ bytes } : Buf).data ≠ [] by simpa using hne)
          (hend₁ ▸ hend) hlen
    · push Not at hdata
      obtain ⟨hread, -⟩ := Source.readInto_other hr hdata
      obtain ⟨-, -, -, hcases⟩ := Source.read_drained (by omega) hread hdata
      rw [relayExactLoop.eq_def, dif_neg hrem]
      simp only [hr]
      rcases hcases with ⟨rfl, -⟩ | ⟨rfl, -⟩ | ⟨-, hidle⟩
      · rfl
      · rfl
      · exact absurd hidle hend

theorem relayBuf_fits {buf : Buf} (hfit : buf.data.length ≤ buf.cap) :
    (relayBuf buf).data ≠ [] ∧ (relayBuf buf).data.length ≤ (relayBuf buf).cap := by
  have hpos : 0 < IO_BUF_SIZE := by decide
  unfold relayBuf
  split
  · refine ⟨?_, ?_⟩
    · rw [← List.length_pos_iff, Buf.length_resize]
      exact hpos
    · rw [Buf.length_resize]
      exact buf.le_cap_resize _
  · refine ⟨?_, hfit⟩
    rw [← List.length_pos_iff]
    omega

theorem relayExact_done {src src' : Source} {dst dst' : Sink} {buf buf' : Buf} {remaining : ℕ}
    (h : relayExact src dst buf remaining = .done (src', dst', buf')) :
    ∃ bs : Bytes, bs.length = remaining ∧ src.bytes = bs ++ src'.bytes ∧ dst' = extend dst bs ∧
      src'.ended = src.ended :=
  relayExactLoop_done h

theorem relayExact_of_enough {src : Source} {dst : Sink} {buf : Buf} {remaining : ℕ}
    (hfit : buf.data.length ≤ buf.cap) (hlim : dst.limit = none) (h : remaining ≤ src.bytes.length) :
    ∃ src' dst' buf', relayExact src dst buf remaining = .done (src', dst', buf') ∧
      buf'.data.length ≤ buf'.cap ∧ src'.ending = src.ending :=
  relayExactLoop_of_enough (relayBuf_fits hfit).1 (relayBuf_fits hfit).2 hlim h

theorem relayExact_of_short {src : Source} {dst : Sink} {buf : Buf} {remaining : ℕ}
    (hfit : buf.data.length ≤ buf.cap) (hend : src.ending ≠ .idle) (h : src.bytes.length < remaining) :
    relayExact src dst buf remaining = .failed :=
  relayExactLoop_of_short (relayBuf_fits hfit).1 hend h

/-! ## Relaying chunks -/

/-- The read contains the terminator. -/
def hasTerminator (r : Bytes) : Bool := (findSubslice terminator r).isSome

/-- The reads up to the first one that contains the terminator. -/
structure StopsAfter (reads taken rest : List Bytes) : Prop where
  split : reads = taken ++ rest
  before : ∀ r ∈ taken.dropLast, hasTerminator r = false
  last : ∃ r, taken.getLast? = some r ∧ hasTerminator r = true

theorem StopsAfter.cons {reads taken rest : List Bytes} {r : Bytes} (hr : hasTerminator r = false)
    (h : StopsAfter reads taken rest) : StopsAfter (r :: reads) (r :: taken) rest where
  split := by rw [h.split]; rfl
  before := by
    obtain ⟨l, hl, -⟩ := h.last
    have hne : taken ≠ [] := by
      rintro rfl
      simp at hl
    rw [List.dropLast_cons_of_ne_nil hne]
    intro r' hr'
    rcases List.mem_cons.mp hr' with rfl | hr'
    · exact hr
    · exact h.before r' hr'
  last := by
    obtain ⟨l, hl, ht⟩ := h.last
    exact ⟨l, by rw [List.getLast?_cons, hl]; rfl, ht⟩

theorem StopsAfter.tail {reads taken rest : List Bytes} {r : Bytes} (hr : hasTerminator r = false)
    (h : StopsAfter (r :: reads) taken rest) : ∃ taken', taken = r :: taken' ∧ StopsAfter reads taken' rest := by
  obtain ⟨l, hl, ht⟩ := h.last
  cases taken with
  | nil => simp at hl
  | cons x taken' =>
    obtain ⟨rfl, hsplit⟩ := List.cons.inj h.split
    have hne : taken' ≠ [] := by
      rintro rfl
      obtain rfl : r = l := by simpa using hl
      rw [hr] at ht
      cases ht
    refine ⟨taken', rfl, hsplit, fun r' hr' => ?_, l, ?_, ht⟩
    · exact h.before r' (by rw [List.dropLast_cons_of_ne_nil hne]; exact List.mem_cons_of_mem _ hr')
    · rwa [List.getLast?_cons_of_ne_nil hne] at hl

theorem StopsAfter.head {reads taken rest : List Bytes} {r : Bytes} (hr : hasTerminator r = true)
    (h : StopsAfter (r :: reads) taken rest) : taken = [r] ∧ rest = reads := by
  obtain ⟨l, hl, ht⟩ := h.last
  cases taken with
  | nil => simp at hl
  | cons x taken' =>
    obtain ⟨rfl, hsplit⟩ := List.cons.inj h.split
    cases taken' with
    | nil => exact ⟨rfl, hsplit.symm⟩
    | cons y l' =>
      have := h.before r (by simp)
      rw [hr] at this
      cases this

theorem relayChunkedLoop_data {src src' : Source} {dst : Sink} {buf buf' : Buf} {bytes : Bytes}
    {h : bytes ≠ []} (hr : src.readInto buf 0 buf.cap = (.data bytes h, buf', src')) :
    relayChunkedLoop src dst buf = match dst.writeAll bytes with
      | some dst' =>
        if hasTerminator bytes then .done (src', dst', buf') else relayChunkedLoop src' dst' buf'
      | none => .failed := by
  rw [relayChunkedLoop.eq_def]
  split <;> rename_i heq <;> rw [hr] at heq <;> simp only [Prod.mk.injEq, reduceCtorEq, false_and] at heq
  rename_i bytes' h' buf'' src''
  obtain ⟨hb, rfl, rfl⟩ := heq
  obtain rfl := ReadResult.data.inj hb
  rw [(readInto_front hr).2.1]
  rfl

theorem relayChunkedLoop_other {src src' : Source} {dst : Sink} {buf buf' : Buf} {r : ReadResult}
    (hr : src.readInto buf 0 buf.cap = (r, buf', src')) (hno : ∀ bs h, r ≠ .data bs h) :
    relayChunkedLoop src dst buf = match r with
      | .zero => .done (src', dst, buf')
      | .pending => .blocked
      | _ => .failed := by
  rw [relayChunkedLoop.eq_def]
  split <;> rename_i heq <;> rw [hr] at heq <;> simp only [Prod.mk.injEq] at heq <;>
    obtain ⟨rfl, rfl, rfl⟩ := heq
  · exact absurd rfl (hno _ _)
  · rfl
  · rfl
  · rfl

/-- **What a chunked relay that returns has written**: the reads up to the first one with the terminator,
or everything if there is none and the stream is closed. -/
theorem relayChunkedLoop_done {src src' : Source} {dst dst' : Sink} {buf buf' : Buf} (hcap : buf.cap ≠ 0)
    (h : relayChunkedLoop src dst buf = .done (src', dst', buf')) :
    (∃ taken rest, StopsAfter (src.reads buf.cap) taken rest ∧ dst' = extend dst taken.flatten ∧
      src'.bytes = rest.flatten ∧ src'.ended = src.ended) ∨
    ((∀ r ∈ src.reads buf.cap, hasTerminator r = false) ∧ src.ending = .closed ∧
      dst' = extend dst src.bytes ∧ src'.bytes = [] ∧ src'.ended = true) := by
  induction src, buf, hcap using Source.readLoop_induction generalizing dst with
  | data src src₁ buf buf₁ hcap hcap' bytes hne hr hread hcap₁ ih =>
    have hbytes := Source.bytes_read hread
    rw [relayChunkedLoop_data hr] at h
    cases hw : dst.writeAll bytes with
    | none =>
      rw [hw] at h
      cases h
    | some dst₁ =>
      rw [hw] at h
      obtain rfl := writeAll_eq hw
      rw [Source.reads_data hread]
      simp only at h
      by_cases ht : hasTerminator bytes = true
      · rw [if_pos ht] at h
        simp only [Outcome.done.injEq, Prod.mk.injEq] at h
        obtain ⟨rfl, rfl, rfl⟩ := h
        refine Or.inl ⟨[bytes], src₁.reads buf.cap, ⟨rfl, by simp, bytes, rfl, ht⟩, by simp, ?_, hbytes.2.2.2⟩
        exact (Source.flatten_reads hcap).symm
      · rw [if_neg ht] at h
        rw [Bool.not_eq_true] at ht
        rcases ih h with ⟨taken, rest, hs, rfl, hb, he⟩ | ⟨hno, hend, rfl, hb, he⟩
        · rw [hcap₁] at hs
          exact Or.inl ⟨bytes :: taken, rest, hs.cons ht, by rw [extend_extend, List.flatten_cons], hb,
            he.trans hbytes.2.2.2⟩
        · rw [hcap₁] at hno
          refine Or.inr ⟨?_, hbytes.2.2.1 ▸ hend, by rw [extend_extend, hbytes.1], hb, he⟩
          intro r hr'
          rcases List.mem_cons.mp hr' with rfl | hr'
          · exact ht
          · exact hno r hr'
  | other src src₁ buf buf₁ hcap res hr hdata hread =>
    obtain ⟨hnil, hnil', -, hcases⟩ := Source.read_drained hcap hread hdata
    rw [relayChunkedLoop_other hr hdata] at h
    rcases hcases with ⟨rfl, hend, hended⟩ | ⟨rfl, -⟩ | ⟨rfl, -⟩
    · simp only [Outcome.done.injEq, Prod.mk.injEq] at h
      obtain ⟨rfl, rfl, rfl⟩ := h
      refine Or.inr ⟨?_, hend, by simp [hnil, extend], hnil', hended⟩
      rw [Source.reads_other hread hdata]
      simp
    · cases h
    · cases h

theorem relayChunkedLoop_of_terminator {src : Source} {dst : Sink} {buf : Buf} (hcap : buf.cap ≠ 0)
    (hlim : dst.limit = none) {taken rest : List Bytes} (h : StopsAfter (src.reads buf.cap) taken rest) :
    ∃ src' buf', relayChunkedLoop src dst buf = .done (src', extend dst taken.flatten, buf') ∧
      src'.bytes = rest.flatten ∧ src'.ended = src.ended := by
  induction src, buf, hcap using Source.readLoop_induction generalizing dst taken with
  | data src src₁ buf buf₁ hcap hcap' bytes hne hr hread hcap₁ ih =>
    have hbytes := Source.bytes_read hread
    rw [Source.reads_data hread] at h
    rw [relayChunkedLoop_data hr, writeAll_of_unlimited hlim]
    simp only
    by_cases ht : hasTerminator bytes = true
    · obtain ⟨rfl, rfl⟩ := h.head ht
      rw [if_pos ht]
      exact ⟨src₁, buf₁, by simp, (Source.flatten_reads hcap).symm, hbytes.2.2.2⟩
    · rw [if_neg ht]
      rw [Bool.not_eq_true] at ht
      obtain ⟨taken', rfl, htail⟩ := h.tail ht
      obtain ⟨src', buf', hdone, hb, he⟩ := ih (show (extend dst bytes).limit = none from hlim)
        (hcap₁.symm ▸ htail)
      exact ⟨src', buf', by rw [hdone, extend_extend, List.flatten_cons], hb, he.trans hbytes.2.2.2⟩
  | other src src₁ buf buf₁ hcap res hr hdata hread =>
    rw [Source.reads_other hread hdata] at h
    obtain ⟨r, hr, -⟩ := h.last
    rw [(List.append_eq_nil_iff.mp h.split.symm).1] at hr
    cases hr

theorem relayChunkedLoop_of_closed {src : Source} {dst : Sink} {buf : Buf} (hcap : buf.cap ≠ 0)
    (hlim : dst.limit = none) (hend : src.ending = .closed)
    (h : ∀ r ∈ src.reads buf.cap, hasTerminator r = false) :
    ∃ src' buf', relayChunkedLoop src dst buf = .done (src', extend dst src.bytes, buf') ∧
      src'.bytes = [] ∧ src'.ended = true := by
  induction src, buf, hcap using Source.readLoop_induction generalizing dst with
  | data src src₁ buf buf₁ hcap hcap' bytes hne hr hread hcap₁ ih =>
    have hbytes := Source.bytes_read hread
    rw [Source.reads_data hread] at h
    rw [relayChunkedLoop_data hr, writeAll_of_unlimited hlim]
    simp only
    rw [if_neg (by simp [h bytes (by simp)])]
    obtain ⟨src', buf', hdone, hb, he⟩ := ih (show (extend dst bytes).limit = none from hlim)
      (hbytes.2.2.1.trans hend) fun r hr => h r (List.mem_cons_of_mem _ (hcap₁ ▸ hr))
    exact ⟨src', buf', by rw [hdone, extend_extend, ← hbytes.1], hb, he⟩
  | other src src₁ buf buf₁ hcap res hr hdata hread =>
    obtain ⟨hnil, hnil', -, hcases⟩ := Source.read_drained hcap hread hdata
    rw [relayChunkedLoop_other hr hdata]
    rcases hcases with ⟨rfl, -, he⟩ | ⟨-, hf⟩ | ⟨-, hf⟩
    · exact ⟨src₁, buf₁, by simp [hnil, extend], hnil', he⟩
    · rw [hend] at hf
      cases hf
    · rw [hend] at hf
      cases hf

/-- The capacity with which a relay reads. -/
def relayCap (buf : Buf) : ℕ := (relayBuf buf).cap

theorem relayCap_ne_zero {buf : Buf} (hfit : buf.data.length ≤ buf.cap) : relayCap buf ≠ 0 := by
  unfold relayCap relayBuf
  split
  · have : IO_BUF_SIZE ≠ 0 := by decide
    simp only [Buf.resize]
    split <;> omega
  · have : IO_BUF_SIZE ≠ 0 := by decide
    omega

/-! ## Relaying to the end of the stream -/

theorem relayUntilCloseLoop_data {src src' : Source} {dst : Sink} {buf buf' : Buf} {bytes : Bytes}
    {h : bytes ≠ []} (hr : src.readInto buf 0 buf.cap = (.data bytes h, buf', src')) :
    relayUntilCloseLoop src dst buf = match dst.writeAll bytes with
      | some dst' => relayUntilCloseLoop src' dst' buf'
      | none => .failed := by
  rw [relayUntilCloseLoop.eq_def]
  split <;> rename_i heq <;> rw [hr] at heq <;> simp only [Prod.mk.injEq, reduceCtorEq, false_and] at heq
  rename_i bytes' h' buf'' src''
  obtain ⟨hb, rfl, rfl⟩ := heq
  obtain rfl := ReadResult.data.inj hb
  have hfront := (readInto_front hr).2.1
  cases hw : dst.writeAll bytes <;> simp only [hfront, hw]

theorem relayUntilCloseLoop_other {src src' : Source} {dst : Sink} {buf buf' : Buf} {r : ReadResult}
    (hr : src.readInto buf 0 buf.cap = (r, buf', src')) (hno : ∀ bs h, r ≠ .data bs h) :
    relayUntilCloseLoop src dst buf = match r with
      | .zero => .done (src', dst, buf')
      | .pending => .blocked
      | _ => .failed := by
  rw [relayUntilCloseLoop.eq_def]
  split <;> rename_i heq <;> rw [hr] at heq <;> simp only [Prod.mk.injEq] at heq <;>
    obtain ⟨rfl, rfl, rfl⟩ := heq
  · exact absurd rfl (hno _ _)
  · rfl
  · rfl
  · rfl

/-- **A relay to the end of the stream** writes everything that a closed stream has left, and returns only then. -/
theorem relayUntilCloseLoop_spec (src : Source) (dst : Sink) {buf : Buf} (hcap : buf.cap ≠ 0) :
    (∀ src' dst' buf', relayUntilCloseLoop src dst buf = .done (src', dst', buf') →
      src.ending = .closed ∧ dst' = extend dst src.bytes) ∧
    (src.ending = .closed → dst.limit = none →
      ∃ src' buf', relayUntilCloseLoop src dst buf = .done (src', extend dst src.bytes, buf')) ∧
    (src.ending = .failed → relayUntilCloseLoop src dst buf = .failed) := by
  induction src, buf, hcap using Source.readLoop_induction generalizing dst with
  | data src src₁ buf buf₁ hcap hcap' bytes hne hr hread hcap₁ ih =>
    obtain ⟨hbytes, -, hend, -⟩ := Source.bytes_read hread
    obtain ⟨hdone, hclosed, hfailed⟩ := ih (extend dst bytes)
    rw [relayUntilCloseLoop_data hr, hbytes]
    refine ⟨fun src' dst' buf' h => ?_, fun he hlim => ?_, fun he => ?_⟩
    · cases hw : dst.writeAll bytes with
      | none =>
        rw [hw] at h
        cases h
      | some dst₁ =>
        rw [hw, writeAll_eq hw] at h
        obtain ⟨he, rfl⟩ := hdone src' dst' buf' h
        exact ⟨hend ▸ he, by rw [extend_extend]⟩
    · rw [writeAll_of_unlimited hlim]
      obtain ⟨src', buf', h⟩ := hclosed (hend.trans he) hlim
      exact ⟨src', buf', by rw [← extend_extend]; exact h⟩
    · cases hw : dst.writeAll bytes with
      | none => rfl
      | some dst₁ =>
        rw [writeAll_eq hw]
        exact hfailed (hend.trans he)
  | other src src₁ buf buf₁ hcap res hr hdata hread =>
    obtain ⟨hnil, -, -, hcases⟩ := Source.read_drained hcap hread hdata
    rw [relayUntilCloseLoop_other hr hdata, hnil]
    rcases hcases with ⟨rfl, hend, -⟩ | ⟨rfl, hend⟩ | ⟨rfl, hend⟩
    · refine ⟨fun src' dst' buf' h => ?_, fun _ _ => ⟨src₁, buf₁, by simp [extend]⟩, fun he => ?_⟩
      · simp only [Outcome.done.injEq, Prod.mk.injEq] at h
        exact ⟨hend, by rw [← h.2.1]; simp [extend]⟩
      · rw [hend] at he
        cases he
    · refine ⟨fun src' dst' buf' h => (by cases h), fun he => ?_, fun _ => rfl⟩
      rw [hend] at he
      cases he
    · refine ⟨fun src' dst' buf' h => (by cases h), fun he => ?_, fun he => ?_⟩
      all_goals
        rw [hend] at he
        cases he

/-! ## Bodies behind a head -/

/-- The bytes behind the head that are in the buffer already. -/
def bufferedBody (buf : Buf) (headLen filled : ℕ) : Bytes := (buf.data.take filled).drop headLen

theorem relayResponseBody_chunked {src : Source} {dst : Sink} {buf : Buf} {head : ResponseHead} {filled : ℕ}
    (hbody : head.body = .chunked) (hlim : dst.limit = none) :
    relayResponseBody src dst buf head filled =
      (relayChunked src (extend dst (bufferedBody buf head.headLen filled)) buf).bind
        fun (src, dst, _) => .done (src, dst) := by
  simp only [relayResponseBody, hbody, bufferedBody]
  by_cases h : filled - head.headLen > 0
  · rw [if_pos h, writeAll_of_unlimited hlim]
    rfl
  · have h0 : filled - head.headLen = 0 := by omega
    rw [if_neg h, List.drop_take, h0, List.take_zero]
    simp [extend, Outcome.bind]

end LbProxy.Monoio
