import LbProxy.Monoio.Framing
import LbProxy.Monoio.Pipeline

/-!
# The limit of a request head

* `fills` — how much is buffered after each read of the head loop;
* `readHead_limit` — a head is refused exactly if a read ends at or behind the limit, and before the end of the head;
* `Filling` — the buffer of the first head doubles, up to twice the limit;
* `fills_arrival` — the reads of one arrival;
* `head_limit_iff` — the limit is that of the head for every delivery only if the head is no longer than the limit, or
  longer than twice the limit.
-/

namespace LbProxy.Monoio

open Lib LbProxy.Core

/-- What is answered to a head that is too long. -/
def tooLarge : Bytes := errorResponse 431 (ascii "Request Header Fields Too Large")

/-! ## The reads of the head loop -/

/-- How much is buffered after each read, if the loop goes on reading. -/
def fills (src : Source) (buf : Buf) (filled : ℕ) : List ℕ :=
  match _h : readMore src buf filled with
  | (.data bytes _, buf', src') => (filled + bytes.length) :: fills src' buf' (filled + bytes.length)
  | _ => []
termination_by src.bytes.length
decreasing_by exact Source.length_lt_of_readInto _h

theorem fills_data {src src' : Source} {buf buf' : Buf} {filled : ℕ} {bytes : Bytes} {h : bytes ≠ []}
    (hread : readMore src buf filled = (.data bytes h, buf', src')) :
    fills src buf filled = (filled + bytes.length) :: fills src' buf' (filled + bytes.length) := by
  rw [fills.eq_def]
  split
  · rename_i heq
    rw [hread] at heq
    simp only [Prod.mk.injEq, ReadResult.data.injEq] at heq
    obtain ⟨rfl, rfl, rfl⟩ := heq
    rfl
  · rename_i hno
    exact absurd hread (hno _ _ _ _)

theorem le_of_mem_fills {src : Source} {buf : Buf} {filled k : ℕ} (h : k ∈ fills src buf filled) : filled ≤ k := by
  fun_induction fills src buf filled with
  | case1 src buf filled bytes hne buf₁ src₁ hread ih =>
    rcases List.mem_cons.mp h with rfl | h
    · exact Nat.le_add_right _ _
    · exact le_trans (Nat.le_add_right _ _) (ih h)
  | case2 => cases h

/-- An amount at or behind the limit, before the end of a head of length `n`. -/
def Overruns (n k : ℕ) : Prop := MAX_HEAD_SIZE ≤ k ∧ k < n

theorem not_overruns {n : ℕ} (h : n ≤ MAX_HEAD_SIZE) (k : ℕ) : ¬ Overruns n k :=
  fun hover => absurd (lt_of_le_of_lt hover.1 hover.2) (by omega)

theorem mem_fills_of_overruns {src : Source} {buf : Buf} {n k : ℕ} (hk : k ∈ 0 :: fills src buf 0)
    (hover : Overruns n k) : k ∈ fills src buf 0 := by
  refine (List.mem_cons.mp hk).resolve_left ?_
  rintro rfl
  exact absurd hover.1 (by decide)

section Limit

variable {hp : HeadParser} (hl : hp.Laws)
include hl

/-- While a stream that starts with a head is read, the head is found, refused, or there is more to read. -/
theorem checkHead_cases {l : RequestLayout} {f : Framing} (hwf : l.WF) (hlen : l.fields.length ≤ MAX_HEADERS)
    (hf : framingOf l = some f) (served : ℕ) {q t rest : Bytes} (h : q ++ t = l.render ++ rest) :
    (l.render.length ≤ q.length ∧ ∃ pos, checkHead hp served q = .head (headOf l f pos)) ∨
      (q.length < l.render.length ∧ t ≠ [] ∧
        checkHead hp served q = if MAX_HEAD_SIZE ≤ q.length then .reply tooLarge else .readMore) := by
  have hq : q <+: l.render ++ rest := h ▸ List.prefix_append q t
  rcases le_or_gt l.render.length q.length with hle | hlt
  · obtain ⟨extra, rfl⟩ := List.prefix_of_prefix_length_le (List.prefix_append l.render rest) hq hle
    obtain ⟨pos, hparse⟩ := parseRequest_of_layout hl hwf hlen hf extra
    exact Or.inl ⟨hle, pos, checkHead_of_parsed hwf served hparse⟩
  · have hpart : q <+: l.render := List.prefix_of_prefix_length_le hq (List.prefix_append l.render rest) hlt.le
    have hne : q ≠ l.render := fun heq => absurd (congrArg List.length heq) hlt.ne
    refine Or.inr ⟨hlt, ?_, checkHead_of_strictPart hl hwf hlen served hpart hne⟩
    rintro rfl
    have := congrArg List.length h
    rw [List.append_nil, List.length_append] at this
    omega

/-- **A head is refused exactly if a read ends at or behind the limit, and before the end of the head.** -/
theorem readHead_limit {l : RequestLayout} {f : Framing} (hwf : l.WF) (hlen : l.fields.length ≤ MAX_HEADERS)
    (hf : framingOf l = some f) (served : ℕ) {src : Source} {buf : Buf} {filled : ℕ} (hfit : buf.Fits filled)
    {rest : Bytes} (h : buf.data.take filled ++ src.bytes = l.render ++ rest) :
    (readHead hp served src buf filled = .reply tooLarge ∧
        ∃ k ∈ filled :: fills src buf filled, Overruns l.render.length k) ∨
      ((∃ pos src' buf' filled', readHead hp served src buf filled = .head (headOf l f pos) src' buf' filled') ∧
        ∀ k ∈ filled :: fills src buf filled, ¬ Overruns l.render.length k) := by
  induction hn : src.bytes.length using Nat.strong_induction_on generalizing src buf filled with
  | _ n ih =>
    have hlength : (buf.data.take filled).length = filled := by rw [List.length_take, min_eq_left hfit.filled_le]
    have hcheck := checkHead_cases hl hwf hlen hf served h
    rw [hlength] at hcheck
    rcases hcheck with ⟨hle, pos, hhead⟩ | ⟨hlt, hmore, hother⟩
    · -- what is buffered from now on holds the head
      refine Or.inr ⟨⟨pos, src, buf, filled, by rw [readHead_step, hhead]⟩, fun k hk hover => ?_⟩
      have hfilled : filled ≤ k := by
        rcases List.mem_cons.mp hk with rfl | hk
        · exact le_rfl
        · exact le_of_mem_fills hk
      exact absurd hover.2 (by omega)
    · by_cases hmax : MAX_HEAD_SIZE ≤ filled
      · rw [if_pos hmax] at hother
        exact Or.inl ⟨by rw [readHead_step, hother], filled, List.mem_cons_self, hmax, hlt⟩
      · rw [if_neg hmax] at hother
        rcases hread : readMore src buf filled with ⟨r, buf₁, src₁⟩
        by_cases hdata : ∃ bytes hne, r = .data bytes hne
        · obtain ⟨bytes, hne, rfl⟩ := hdata
          obtain ⟨hbytes, -, -, htake, hfit₁⟩ := readMore_data hfit hread
          have hstream : buf₁.data.take (filled + bytes.length) ++ src₁.bytes = l.render ++ rest := by
            rw [htake, List.append_assoc, ← hbytes, h]
          have hstep : readHead hp served src buf filled = readHead hp served src₁ buf₁ (filled + bytes.length) := by
            rw [readHead_step, hother]
            simp only [hread]
          rw [hstep, fills_data hread]
          rcases ih _ (hn ▸ Source.length_lt_of_readInto hread) hfit₁ hstream rfl with
            ⟨hreply, k, hk, hover⟩ | ⟨hhead, hall⟩
          · exact Or.inl ⟨hreply, k, List.mem_cons_of_mem _ hk, hover⟩
          · refine Or.inr ⟨hhead, fun k hk hover => ?_⟩
            rcases List.mem_cons.mp hk with rfl | hk
            · exact hmax hover.1
            · exact hall k hk hover
        · push Not at hdata
          exact absurd (readMore_other hfit hread hdata).1 hmore

end Limit

/-! ## The buffer of the first head -/

/-- The buffer while the first head is read: it holds what was read, and its capacity has doubled some times. -/
structure Filling (buf : Buf) (filled : ℕ) : Prop where
  length_eq : buf.data.length = filled
  length_le : buf.data.length ≤ buf.cap
  doubled : ∃ i ≤ 5, buf.cap = 2 ^ i * IO_BUF_INITIAL

theorem filling_start : Filling (Buf.withCapacity IO_BUF_INITIAL) 0 :=
  ⟨rfl, by simp [Buf.withCapacity], 0, by simp, rfl⟩

theorem Filling.fits {buf : Buf} {filled : ℕ} (h : Filling buf filled) : buf.Fits filled :=
  ⟨h.length_eq.ge, h.length_le⟩

theorem Filling.le_double {buf : Buf} {filled : ℕ} (h : Filling buf filled) : filled ≤ 2 * MAX_HEAD_SIZE := by
  obtain ⟨i, hi, hcap⟩ := h.doubled
  have hle := h.length_eq ▸ h.length_le
  have hpow : 2 ^ i ≤ 2 ^ 5 := Nat.pow_le_pow_right (by decide) hi
  simp only [IO_BUF_INITIAL, MAX_HEAD_SIZE] at *
  omega

/-- **Below the limit a buffer grows by doubling**, up to twice the limit; from half the limit on it reaches that. -/
theorem growForRead_filling {buf : Buf} {filled : ℕ} (h : Filling buf filled) (hlt : filled < MAX_HEAD_SIZE) :
    (∃ i ≤ 5, (growForRead buf filled).cap = 2 ^ i * IO_BUF_INITIAL) ∧
      (IO_BUF_SIZE < filled → (growForRead buf filled).cap = 2 * MAX_HEAD_SIZE) := by
  obtain ⟨i, hi, hdoubled⟩ := h.doubled
  have hcap : buf.cap = 2 ^ i * 4096 := hdoubled
  have hlen := h.length_eq
  have hle := h.length_le
  have hsize : IO_BUF_SIZE = 32768 := rfl
  have hinit : IO_BUF_INITIAL = 4096 := rfl
  have hmax : MAX_HEAD_SIZE = 65536 := rfl
  have hpos : 1 ≤ 2 ^ i := Nat.one_le_two_pow
  -- a capacity of more than half the limit is the limit, or already twice that
  have hbig : 2 ^ i ≤ 8 ∨ 2 ^ i = 16 ∨ 2 ^ i = 32 := by
    interval_cases i <;> simp
  have hnext : 2 ^ i ≤ 16 → i + 1 ≤ 5 := fun hle => Nat.lt_of_not_le fun hge => by
    have := Nat.pow_le_pow_right (by decide : 0 < 2) hge
    omega
  have hresize : ∀ n, (buf.resize n).cap = if n ≤ buf.cap then buf.cap else max (2 * buf.cap) n := fun _ => rfl
  unfold growForRead
  simp only
  split
  · omega
  · split
    · rw [hresize, if_pos (by omega)]
      exact ⟨⟨i, hi, hdoubled⟩, fun h => by omega⟩
    · rw [hresize]
      split
      · exact ⟨⟨i, hi, hdoubled⟩, fun h => by omega⟩
      · refine ⟨⟨i + 1, hnext (by omega), ?_⟩, fun h => by omega⟩
        rw [pow_succ, hinit]
        omega

theorem readMore_filling {src src' : Source} {buf buf' : Buf} {filled : ℕ} {bytes : Bytes} {h : bytes ≠ []}
    (hfill : Filling buf filled) (hlt : filled < MAX_HEAD_SIZE)
    (hr : readMore src buf filled = (.data bytes h, buf', src')) : Filling buf' (filled + bytes.length) := by
  obtain ⟨-, -, -, htake, hfit⟩ := readMore_data hfill.fits hr
  obtain ⟨-, rfl⟩ := Source.readInto_data hr
  obtain ⟨hgrown, hfit₀, -⟩ := growForRead_spec hfill.fits
  have hlen : ((growForRead buf filled).data.take filled ++ bytes).length = filled + bytes.length := by
    rw [List.length_append, List.length_take, min_eq_left hfit₀.filled_le]
  exact ⟨hlen, hfit.length_le, (growForRead_filling hfill hlt).1⟩

/-- A head of more than twice the limit is overrun by every delivery. -/
theorem overruns_of_long {src : Source} {buf : Buf} {filled n : ℕ} (hfill : Filling buf filled)
    (hlong : 2 * MAX_HEAD_SIZE < n) (hall : n ≤ filled + src.bytes.length) :
    ∃ k ∈ filled :: fills src buf filled, Overruns n k := by
  induction hm : src.bytes.length using Nat.strong_induction_on generalizing src buf filled with
  | _ m ih =>
    have hle := hfill.le_double
    by_cases hmax : MAX_HEAD_SIZE ≤ filled
    · exact ⟨filled, List.mem_cons_self, hmax, by omega⟩
    · rcases hread : readMore src buf filled with ⟨r, buf', src'⟩
      by_cases hdata : ∃ bytes h, r = .data bytes h
      · obtain ⟨bytes, hne, rfl⟩ := hdata
        have hbytes := congrArg List.length (readMore_data hfill.fits hread).1
        have hpos := List.length_pos_iff.mpr hne
        rw [List.length_append] at hbytes
        obtain ⟨k, hk, hover⟩ :=
          ih src'.bytes.length (by omega) (readMore_filling hfill (by omega) hread) (by omega) rfl
        exact ⟨k, List.mem_cons_of_mem _ (fills_data hread ▸ hk), hover⟩
      · push Not at hdata
        have hnil := (readMore_other hfill.fits hread hdata).1
        rw [hnil, List.length_nil] at hall
        omega

/-! ## The reads of one arrival -/

theorem read_arrival {blanks : List Bytes} (hblanks : ∀ b ∈ blanks, b = []) {a : Bytes} (ha : a ≠ [])
    (more : List Bytes) (ending : StreamEnd) (ended : Bool) {cap : ℕ} (hcap : cap ≠ 0) :
    ∃ h, (⟨blanks ++ a :: more, ending, ended⟩ : Source).read cap =
      (.data (a.take cap) h, ⟨a.drop cap :: more, ending, ended⟩) := by
  have hdrop : (blanks ++ a :: more).dropWhile (· = []) = a :: more := by
    rw [List.dropWhile_append_of_pos (by simpa using hblanks), List.dropWhile_cons_of_neg (by simpa using ha)]
  have hne : a.take cap ≠ [] := by simp [List.take_eq_nil_iff, ha, hcap]
  refine ⟨hne, ?_⟩
  unfold Source.read
  rw [dif_neg hcap]
  split
  · rename_i a' rest hd
    obtain ⟨rfl, rfl⟩ := List.cons.inj (hdrop.symm.trans hd)
    rfl
  · rename_i hd
    exact absurd (hdrop.symm.trans hd) (by simp)

theorem readMore_arrival {buf : Buf} {filled : ℕ} (hfit : buf.Fits filled) {blanks : List Bytes}
    (hblanks : ∀ b ∈ blanks, b = []) {a : Bytes} (ha : a ≠ []) (more : List Bytes) (ending : StreamEnd) (ended : Bool) :
    ∃ h buf', readMore ⟨blanks ++ a :: more, ending, ended⟩ buf filled =
      (.data (a.take ((growForRead buf filled).cap - filled)) h, buf',
        ⟨a.drop ((growForRead buf filled).cap - filled) :: more, ending, ended⟩) := by
  obtain ⟨-, -, hroom⟩ := growForRead_spec hfit
  obtain ⟨hne, hread⟩ := read_arrival hblanks ha more ending ended
    (show (growForRead buf filled).cap - filled ≠ 0 by omega)
  refine ⟨hne, ⟨(growForRead buf filled).data.take filled ++ a.take ((growForRead buf filled).cap - filled),
    (growForRead buf filled).cap⟩, ?_⟩
  simp only [readMore, Source.readInto, hread]

/-- **An arrival that stays within the limit is read to its end** before anything behind it. -/
theorem fills_arrival {buf : Buf} {filled : ℕ} (hfill : Filling buf filled) {a : Bytes}
    (hmax : filled + a.length ≤ MAX_HEAD_SIZE) (more : List Bytes) (ending : StreamEnd) (ended : Bool) :
    ∃ blanks buf', (∀ b ∈ blanks, b = []) ∧ Filling buf' (filled + a.length) ∧
      filled + a.length ∈ filled :: fills ⟨a :: more, ending, ended⟩ buf filled ∧
      ∀ k ∈ fills ⟨a :: more, ending, ended⟩ buf filled, k ≤ filled + a.length ∨
        k ∈ fills ⟨blanks ++ more, ending, ended⟩ buf' (filled + a.length) := by
  induction hm : a.length using Nat.strong_induction_on generalizing a buf filled with
  | _ m ih =>
    by_cases ha : a = []
    · subst ha
      exact ⟨[[]], buf, by simp, hm ▸ hfill, by simp [← hm], fun k hk => Or.inr (by simpa [← hm] using hk)⟩
    · have hpos := List.length_pos_iff.mpr ha
      obtain ⟨hne, buf₁, hread⟩ := readMore_arrival hfill.fits (List.forall_mem_nil _) ha more ending ended
      rw [List.nil_append] at hread
      have hfill₁ := readMore_filling hfill (by omega) hread
      -- the rest of the arrival is read from the grown buffer
      have htake := List.length_pos_iff.mpr hne
      have hsplit : (a.take ((growForRead buf filled).cap - filled)).length +
          (a.drop ((growForRead buf filled).cap - filled)).length = a.length := by
        rw [← List.length_append, List.take_append_drop]
      obtain ⟨blanks, buf', hblanks, hfill', hmem, hall⟩ :=
        ih (a.drop ((growForRead buf filled).cap - filled)).length (by omega) hfill₁ (by omega) rfl
      rw [Nat.add_assoc, hsplit] at hfill' hmem hall
      rw [fills_data hread, ← hm]
      refine ⟨blanks, buf', hblanks, hfill', List.mem_cons_of_mem _ hmem, fun k hk => ?_⟩
      rcases List.mem_cons.mp hk with rfl | hk
      · exact Or.inl (by omega)
      · exact hall k hk

/-- A delivery in two pieces. -/
def splitDelivery (n : ℕ) (s : Bytes) : Source := ⟨[s.take n, s.drop n], .idle, false⟩

theorem bytes_splitDelivery (n : ℕ) (s : Bytes) : (splitDelivery n s).bytes = s := by simp [splitDelivery, Source.bytes]

theorem limit_mem_fills {s : Bytes} (hlong : MAX_HEAD_SIZE < s.length) :
    MAX_HEAD_SIZE ∈ fills (splitDelivery MAX_HEAD_SIZE s) (Buf.withCapacity IO_BUF_INITIAL) 0 := by
  have hlen : 0 + (s.take MAX_HEAD_SIZE).length = MAX_HEAD_SIZE := by
    rw [Nat.zero_add, List.length_take, min_eq_left (by omega)]
  obtain ⟨-, -, -, -, hmem, -⟩ := fills_arrival filling_start hlen.le [s.drop MAX_HEAD_SIZE] .idle false
  rw [hlen] at hmem
  exact (List.mem_cons.mp hmem).resolve_left (by decide)

/-- Cut behind half the limit, a stream is read up to there, and then past all amounts between the limit and twice the
limit. -/
theorem not_overruns_of_mem_fills {s : Bytes} {n : ℕ} (hlong : MAX_HEAD_SIZE < n) (hdouble : n ≤ 2 * MAX_HEAD_SIZE)
    (hall : n ≤ s.length) {k : ℕ}
    (hk : k ∈ fills (splitDelivery (IO_BUF_SIZE + 1) s) (Buf.withCapacity IO_BUF_INITIAL) 0) : ¬ Overruns n k := by
  have hsize : IO_BUF_SIZE = 32768 := rfl
  have hmax : MAX_HEAD_SIZE = 65536 := rfl
  have hlen : 0 + (s.take (IO_BUF_SIZE + 1)).length = IO_BUF_SIZE + 1 := by
    rw [Nat.zero_add, List.length_take, min_eq_left (by omega)]
  obtain ⟨blanks, buf, hblanks, hfill, -, hfills⟩ :=
    fills_arrival filling_start (hlen.le.trans (by omega)) [s.drop (IO_BUF_SIZE + 1)] .idle false
  rw [hlen] at hfill hfills
  have hne : s.drop (IO_BUF_SIZE + 1) ≠ [] := by
    rw [ne_eq, List.drop_eq_nil_iff]
    omega
  -- the next read may take as much as twice the limit
  obtain ⟨hne', buf', hread⟩ := readMore_arrival hfill.fits hblanks hne [] .idle false
  have hcap := (growForRead_filling hfill (by omega)).2 (by omega)
  have hread' := fills_data hread
  rw [hcap] at hread'
  intro hover
  have hbounds : MAX_HEAD_SIZE ≤ k ∧ k < n := hover
  rcases hfills k hk with hle | hk
  · omega
  · have hge : n ≤ k := by
      have hfilled : IO_BUF_SIZE + 1 +
          ((s.drop (IO_BUF_SIZE + 1)).take (2 * MAX_HEAD_SIZE - (IO_BUF_SIZE + 1))).length ≤ k := by
        rw [hread'] at hk
        rcases List.mem_cons.mp hk with rfl | hk
        · exact le_rfl
        · exact le_of_mem_fills hk
      rw [List.length_take, List.length_drop] at hfilled
      omega
    omega

/-! ## The limit -/

section Deliveries

variable {m : PathRouter} (hp : HeadParser) (env : Env m) (l : RequestLayout)

/-- The connection accepts its first request: the head loop reports the head. -/
def Accepts (downstream : Conn) : Prop :=
  ∃ f pos src buf filled, framingOf l = some f ∧
    readHead hp 0 downstream.source (Buf.withCapacity IO_BUF_INITIAL) 0 = .head (headOf l f pos) src buf filled

/-- The connection answers its first request with status 431 and ends. -/
def Refuses (downstream : Conn) : Prop := serveConnection hp env downstream = ([], .replied tooLarge)

/-- The request is accepted if and only if its head is not longer than the limit, and otherwise refused. -/
def LimitsHead (downstream : Conn) : Prop :=
  (Accepts hp l downstream ↔ l.render.length ≤ MAX_HEAD_SIZE) ∧
    (¬ l.render.length ≤ MAX_HEAD_SIZE → Refuses hp env downstream)

variable {hp} {l}

theorem accepts_or_refuses (hl : hp.Laws) {f : Framing} (hwf : l.WF) (hlen : l.fields.length ≤ MAX_HEADERS)
    (hf : framingOf l = some f) {downstream : Conn} {rest : Bytes} (h : downstream.source.bytes = l.render ++ rest) :
    ((Refuses hp env downstream ∧ ¬ Accepts hp l downstream) ∧
        ∃ k ∈ fills downstream.source (Buf.withCapacity IO_BUF_INITIAL) 0, Overruns l.render.length k) ∨
      (Accepts hp l downstream ∧
        ∀ k ∈ fills downstream.source (Buf.withCapacity IO_BUF_INITIAL) 0, ¬ Overruns l.render.length k) := by
  have hstart : (Buf.withCapacity IO_BUF_INITIAL).data.take 0 ++ downstream.source.bytes = l.render ++ rest := h
  rcases readHead_limit hl hwf hlen hf 0 fits_start hstart with
    ⟨hreply, k, hk, hover⟩ | ⟨⟨pos, src, buf, filled, hhead⟩, hall⟩
  · refine Or.inl ⟨⟨?_, ?_⟩, k, ?_, hover⟩
    · have hround : serveRound hp env (ConnState.start downstream) = .stop [] (.replied tooLarge) := by
        simp only [serveRound, ConnState.start, hreply]
      rw [Refuses, serveConnection, show MAX_REQUESTS_PER_CONNECTION = 99999 + 1 from rfl, serveLoop, hround]
    · rintro ⟨f', pos, src, buf, filled, -, hhead⟩
      rw [hreply] at hhead
      cases hhead
    · exact mem_fills_of_overruns hk hover
  · exact Or.inr ⟨⟨f, pos, src, buf, filled, hf, hhead⟩, fun k hk => hall k (List.mem_cons_of_mem _ hk)⟩

section Limited

variable (hl : hp.Laws) {f : Framing} (hwf : l.WF) (hlen : l.fields.length ≤ MAX_HEADERS) (hf : framingOf l = some f)
include hl hwf hlen hf

/-- **One delivery of a head** is limited exactly if the head is no longer than the limit, or a read overruns it. -/
theorem limitsHead_iff {downstream : Conn} {rest : Bytes} (h : downstream.source.bytes = l.render ++ rest) :
    LimitsHead hp env l downstream ↔ l.render.length ≤ MAX_HEAD_SIZE ∨
      ∃ k ∈ fills downstream.source (Buf.withCapacity IO_BUF_INITIAL) 0, Overruns l.render.length k := by
  rcases accepts_or_refuses env hl hwf hlen hf h with ⟨⟨hrefuses, hno⟩, k, hk, hover⟩ | ⟨haccepts, hnone⟩
  · have hlong : ¬ l.render.length ≤ MAX_HEAD_SIZE := fun hle => not_overruns hle k hover
    exact ⟨fun _ => Or.inr ⟨k, hk, hover⟩,
      fun _ => ⟨⟨fun ha => absurd ha hno, fun hle => absurd hle hlong⟩, fun _ => hrefuses⟩⟩
  · constructor
    · exact fun hlimits => Or.inl (hlimits.1.mp haccepts)
    · rintro (hle | ⟨k, hk, hover⟩)
      · exact ⟨⟨fun _ => hle, fun _ => haccepts⟩, fun h => absurd hle h⟩
      · exact absurd hover (hnone k hk)

/-- Up to the limit, and beyond twice the limit, every delivery is limited. -/
theorem limitsHead_of_length {rest : Bytes}
    (hn : l.render.length ≤ MAX_HEAD_SIZE ∨ 2 * MAX_HEAD_SIZE < l.render.length) {downstream : Conn}
    (h : downstream.source.bytes = l.render ++ rest) : LimitsHead hp env l downstream := by
  rw [limitsHead_iff env hl hwf hlen hf h]
  refine hn.imp id fun hlong => ?_
  have hall : l.render.length ≤ 0 + downstream.source.bytes.length := by
    rw [h, List.length_append]
    omega
  obtain ⟨k, hk, hover⟩ := overruns_of_long filling_start hlong hall
  exact ⟨k, mem_fills_of_overruns hk hover, hover⟩

theorem refuses_splitDelivery_limit (rest : Bytes) (hlong : MAX_HEAD_SIZE < l.render.length) (sink : Sink) :
    Refuses hp env ⟨splitDelivery MAX_HEAD_SIZE (l.render ++ rest), sink⟩ ∧
      ¬ Accepts hp l ⟨splitDelivery MAX_HEAD_SIZE (l.render ++ rest), sink⟩ := by
  have hbytes : (Conn.mk (splitDelivery MAX_HEAD_SIZE (l.render ++ rest)) sink).source.bytes = l.render ++ rest :=
    bytes_splitDelivery _ _
  have hall : MAX_HEAD_SIZE < (l.render ++ rest).length := by
    rw [List.length_append]
    omega
  rcases accepts_or_refuses env hl hwf hlen hf hbytes with ⟨hrefuses, -⟩ | ⟨-, hnone⟩
  · exact hrefuses
  · exact absurd ⟨le_rfl, hlong⟩ (hnone _ (limit_mem_fills hall))

omit env in
theorem accepts_splitDelivery_half (rest : Bytes) (hlong : MAX_HEAD_SIZE < l.render.length)
    (hdouble : l.render.length ≤ 2 * MAX_HEAD_SIZE) (sink : Sink) :
    Accepts hp l ⟨splitDelivery (IO_BUF_SIZE + 1) (l.render ++ rest), sink⟩ := by
  have hstart : (Buf.withCapacity IO_BUF_INITIAL).data.take 0 ++
      (splitDelivery (IO_BUF_SIZE + 1) (l.render ++ rest)).bytes = l.render ++ rest := bytes_splitDelivery _ _
  have hall : l.render.length ≤ (l.render ++ rest).length := by simp
  rcases readHead_limit hl hwf hlen hf 0 fits_start hstart with
    ⟨-, k, hk, hover⟩ | ⟨⟨pos, src, buf, filled, hhead⟩, -⟩
  · exact absurd hover (not_overruns_of_mem_fills hlong hdouble hall (mem_fills_of_overruns hk hover))
  · exact ⟨f, pos, src, buf, filled, hf, hhead⟩

/-- **When the limit does not depend on the delivery**: one delivery of a head is limited exactly if the head is no
longer than the limit or a read ends between the limit and the end of the head; all deliveries of it are, and all are
treated alike, exactly if it is no longer than the limit or longer than twice the limit. -/
theorem head_limit_iff (rest : Bytes) :
    (∀ downstream : Conn, downstream.source.bytes = l.render ++ rest →
      (LimitsHead hp env l downstream ↔ l.render.length ≤ MAX_HEAD_SIZE ∨
        ∃ k ∈ fills downstream.source (Buf.withCapacity IO_BUF_INITIAL) 0, Overruns l.render.length k)) ∧
    ((∀ downstream : Conn, downstream.source.bytes = l.render ++ rest → LimitsHead hp env l downstream) ↔
      l.render.length ≤ MAX_HEAD_SIZE ∨ 2 * MAX_HEAD_SIZE < l.render.length) ∧
    ((∀ a b : Conn, a.source.bytes = l.render ++ rest → b.source.bytes = l.render ++ rest →
        (Accepts hp l a ↔ Accepts hp l b)) ↔
      l.render.length ≤ MAX_HEAD_SIZE ∨ 2 * MAX_HEAD_SIZE < l.render.length) := by
  have hall := fun hn {downstream : Conn} (h : downstream.source.bytes = l.render ++ rest) =>
    limitsHead_of_length env hl hwf hlen hf hn h
  refine ⟨fun downstream h => limitsHead_iff env hl hwf hlen hf h, ⟨fun h => ?_, fun hn _ h => hall hn h⟩,
    fun h => ?_, fun hn a b ha hb => ?_⟩
  · by_contra hn
    have haccepts : Accepts hp l ⟨splitDelivery (IO_BUF_SIZE + 1) (l.render ++ rest), ⟨[], none⟩⟩ :=
      accepts_splitDelivery_half hl hwf hlen hf rest (by omega) (by omega) _
    exact absurd ((h _ (bytes_splitDelivery _ _)).1.mp haccepts) (by omega)
  · by_contra hn
    have haccepts : Accepts hp l ⟨splitDelivery (IO_BUF_SIZE + 1) (l.render ++ rest), ⟨[], none⟩⟩ :=
      accepts_splitDelivery_half hl hwf hlen hf rest (by omega) (by omega) _
    exact (refuses_splitDelivery_limit env hl hwf hlen hf rest (by omega) ⟨[], none⟩).2
      ((h _ _ (bytes_splitDelivery _ _) (bytes_splitDelivery _ _)).mpr haccepts)
  · rw [(hall hn ha).1, (hall hn hb).1]

end Limited

end Deliveries

/-! ## A padded head -/

/-- A head with a field of any length. -/
def paddedHead (n : ℕ) : RequestLayout :=
  ⟨[], ascii "GET", ascii "/", 1, .crlf, [⟨ascii "X-Pad", [32], List.replicate n 97, [], .crlf⟩], .crlf⟩

theorem paddedHead_wf (n : ℕ) : (paddedHead n).WF where
  method_ne := (by decide : ascii "GET" ≠ [])
  method_token := List.all_eq_true.mp (by decide : (ascii "GET").all isToken = true)
  target_ne := (by decide : ascii "/" ≠ [])
  target_bytes := List.all_eq_true.mp (by decide : (ascii "/").all isTargetByte = true)
  target_utf8 := (by decide : isUtf8 (ascii "/") = true)
  fields_wf := by
    intro f hf
    obtain rfl := List.mem_singleton.mp hf
    have hpad : ∀ b ∈ List.replicate n (97 : UInt8), isFieldByte b ∧ isBlank b = false := by
      intro b hb
      rw [List.eq_of_mem_replicate hb]
      decide
    constructor
    · exact (by decide : ascii "X-Pad" ≠ [])
    · exact List.all_eq_true.mp (by decide : (ascii "X-Pad").all isToken = true)
    · exact List.all_eq_true.mp (by decide : List.all [32] isBlank = true)
    · exact List.forall_mem_nil _
    · exact fun b hb => (hpad b hb).1
    · exact fun b hb => (hpad b (List.mem_of_mem_head? hb)).2
    · exact fun b hb => (hpad b (List.mem_of_getLast? hb)).2
    · exact fun _ => rfl

theorem length_paddedHead (n : ℕ) : (paddedHead n).render.length = n + 27 := by
  have hline : (ascii "GET").length = 3 ∧ (ascii "/").length = 1 ∧ (versionBytes 1).length = 8 ∧
      (ascii "X-Pad").length = 5 := by decide
  simp only [paddedHead, RequestLayout.render, RequestLayout.line, renderEols, renderFields, FieldLayout.render,
    FieldLayout.line, Eol.bytes, List.flatMap_cons, List.flatMap_nil, List.length_append, List.length_cons,
    List.length_nil, List.length_replicate, hline]
  omega

theorem framingOf_paddedHead (n : ℕ) : ∃ f, framingOf (paddedHead n) = some f := by
  refine foldlM_requestField_isSome _ fun x hx hlength => ?_
  obtain rfl := List.mem_singleton.mp hx
  have hname : isLength (ascii "X-Pad", List.replicate n 97) = false :=
    (by decide : eqIgnoreAsciiCase (ascii "X-Pad") (ascii "content-length") = false)
  exact absurd (hname.symm.trans hlength) (by decide)

/-- A short head is limited, cut in the middle and with the next request behind it. -/
theorem head_limit_iff_short :
    LimitsHead .reference emptyEnv (paddedHead 0)
      ⟨splitDelivery 7 ((paddedHead 0).render ++ ascii "GET"), ⟨[], none⟩⟩ :=
  (head_limit_iff emptyEnv HeadParser.reference_laws (paddedHead_wf 0) (by decide) (framingOf_paddedHead 0).choose_spec
    (ascii "GET")).2.1.mpr (Or.inl (by rw [length_paddedHead]; decide)) _ (bytes_splitDelivery _ _)

/-- A head of 65563 bytes is refused when it is cut at the limit, and accepted when it is cut behind 32769 bytes. -/
theorem long_head_accepted :
    Refuses .reference emptyEnv ⟨splitDelivery 65536 (paddedHead 65536).render, ⟨[], none⟩⟩ ∧
      Accepts .reference (paddedHead 65536) ⟨splitDelivery 32769 (paddedHead 65536).render, ⟨[], none⟩⟩ ∧
      ¬ LimitsHead .reference emptyEnv (paddedHead 65536)
        ⟨splitDelivery 32769 (paddedHead 65536).render, ⟨[], none⟩⟩ := by
  obtain ⟨f, hf⟩ := framingOf_paddedHead 65536
  have hlen : (paddedHead 65536).render.length = 65563 := length_paddedHead 65536
  have hmax : MAX_HEAD_SIZE = 65536 := rfl
  have hfields : (paddedHead 65536).fields.length ≤ MAX_HEADERS := (by decide : 1 ≤ MAX_HEADERS)
  have hrefuses := (refuses_splitDelivery_limit emptyEnv HeadParser.reference_laws (paddedHead_wf 65536) hfields hf []
    (by omega) ⟨[], none⟩).1
  have haccepts := accepts_splitDelivery_half HeadParser.reference_laws (paddedHead_wf 65536) hfields hf [] (by omega)
    (by omega) ⟨[], none⟩
  rw [List.append_nil] at hrefuses haccepts
  refine ⟨hrefuses, haccepts, fun hlimits => ?_⟩
  have := hlimits.1.mp haccepts
  omega

end LbProxy.Monoio
