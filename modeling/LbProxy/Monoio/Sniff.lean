import LbProxy.Lib.HeadParser
import LbProxy.Monoio.Http2
import LbProxy.Monoio.Relay
import LbProxy.Monoio.Exchange

/-!
# Sniffing the protocol

* `detectH2_eq_true_iff`, `detectH2_eq_none_iff` — what the buffered bytes say of the preface;
* `readHead_decides` — the head loop decides on a part of the stream if there is more to read whenever it reads on;
* `readHead_upgrade`, `exists_upgrade` — the first head loop hands over exactly the streams that start with it, and
  nothing is lost;
* `readHead_congr` — it never asks the parser for a part of the preface;
* `serveLoop_not_upgraded` — behind the first request nothing is handed over;
* `sniffing_lossless` — a connection is handed to HTTP/2 exactly if its stream starts with the preface, and all of the
  stream is read there.
-/

namespace LbProxy.Monoio

open Lib LbProxy.Core

/-! ## The preface -/

/-- The start of the preface, without all of it. -/
def PartOfPreface (b : Bytes) : Prop := b <+: H2_PREFACE ∧ b ≠ H2_PREFACE

/-- **What the buffered bytes say of the preface.** -/
theorem detectH2_eq (b : Bytes) :
    detectH2 b = if H2_PREFACE <+: b then some true else if b <+: H2_PREFACE then none else some false := by
  unfold detectH2
  rcases lt_or_ge b.length H2_PREFACE.length with hlt | hge
  · have hno : ¬ H2_PREFACE <+: b := fun h => absurd h.length_le (by omega)
    simp only [min_eq_left hlt.le, List.take_length, ne_eq, ← List.prefix_iff_eq_take, if_neg hno, ite_not,
      if_neg (show ¬ b.length ≥ H2_PREFACE.length by omega)]
  · have htake : b.take H2_PREFACE.length = H2_PREFACE ↔ H2_PREFACE <+: b := by
      rw [List.prefix_iff_eq_take]
      exact eq_comm
    simp only [min_eq_right hge, List.take_length, ne_eq, htake, ite_not, if_pos hge]
    by_cases hpre : H2_PREFACE <+: b
    · simp only [if_pos hpre]
    · have hno : ¬ b <+: H2_PREFACE := by
        intro h
        rw [h.eq_of_length_le hge] at hpre
        exact hpre (List.prefix_refl _)
      simp only [if_neg hpre, if_neg hno]

theorem detectH2_eq_true_iff (b : Bytes) : detectH2 b = some true ↔ H2_PREFACE <+: b := by
  rw [detectH2_eq]
  by_cases h1 : H2_PREFACE <+: b <;> by_cases h2 : b <+: H2_PREFACE <;> simp [h1, h2]

theorem detectH2_eq_none_iff (b : Bytes) : detectH2 b = none ↔ PartOfPreface b := by
  rw [detectH2_eq, PartOfPreface]
  by_cases h1 : H2_PREFACE <+: b
  · have hpart : ¬ (b <+: H2_PREFACE ∧ b ≠ H2_PREFACE) := fun h => h.2 (h.1.eq_of_length_le h1.length_le)
    simp [h1, hpart]
  · have hne : b ≠ H2_PREFACE := by
      rintro rfl
      exact h1 (List.prefix_refl _)
    simp [h1, hne]

section Sniff

variable {hp : HeadParser}

theorem checkHead_upgrade_iff (b : Bytes) : checkHead hp 0 b = .upgrade ↔ H2_PREFACE <+: b := by
  rw [← detectH2_eq_true_iff]
  unfold checkHead
  split
  · rename_i hnil
    rw [List.eq_nil_of_length_eq_zero hnil]
    decide
  · simp only [if_true]
    split
    · rename_i h
      simp only [h]
    · rename_i h
      simp [h]
    · rename_i h
      rw [h]
      constructor
      · intro hcheck
        split at hcheck
        · cases hcheck
        · cases hcheck
        · split at hcheck <;> cases hcheck
      · intro heq
        cases heq

theorem checkHead_of_partOfPreface {b : Bytes} (h : PartOfPreface b) : checkHead hp 0 b = .readMore := by
  rw [← detectH2_eq_none_iff] at h
  unfold checkHead
  split
  · rfl
  · simp only [if_true, h]

theorem readHead_step (served : ℕ) (src : Source) (buf : Buf) (filled : ℕ) :
    readHead hp served src buf filled =
      match checkHead hp served (buf.data.take filled) with
      | .head h => .head h src buf filled
      | .upgrade => .upgrade (buf.data.take filled) src
      | .reply response => .reply response
      | .readMore =>
        match readMore src buf filled with
        | (.data bytes _, buf', src') => readHead hp served src' buf' (filled + bytes.length)
        | (.zero, _, _) => .closed
        | (.failed, _, _) => .failed
        | (.pending, _, _) => .blocked := by
  rw [readHead.eq_def]
  cases checkHead hp served (buf.data.take filled) with
  | readMore =>
    simp only
    rcases readMore src buf filled with ⟨r, buf', src'⟩
    cases r <;> rfl
  | _ => rfl

/-- **What the head loop comes to**: if there is more to read whenever it reads on, it decides, on a part of the stream. -/
theorem readHead_decides {served : ℕ} {s : Bytes}
    (hmore : ∀ q t, q ++ t = s → checkHead hp served q = .readMore → t ≠ []) {src : Source} {buf : Buf} {filled : ℕ}
    (hfit : buf.Fits filled) (h : buf.data.take filled ++ src.bytes = s) :
    ∃ src' buf' filled', readHead hp served src buf filled = readHead hp served src' buf' filled' ∧
      buf'.Fits filled' ∧ buf'.data.take filled' ++ src'.bytes = s ∧
      checkHead hp served (buf'.data.take filled') ≠ .readMore := by
  induction hn : src.bytes.length using Nat.strong_induction_on generalizing src buf filled with
  | _ n ih =>
    by_cases hcheck : checkHead hp served (buf.data.take filled) = .readMore
    · rcases hread : readMore src buf filled with ⟨r, buf₁, src₁⟩
      by_cases hdata : ∃ bytes hne, r = .data bytes hne
      · obtain ⟨bytes, hne, rfl⟩ := hdata
        obtain ⟨hbytes, -, -, htake, hfit₁⟩ := readMore_data hfit hread
        have hstream : buf₁.data.take (filled + bytes.length) ++ src₁.bytes = s := by
          rw [htake, List.append_assoc, ← hbytes, h]
        obtain ⟨src', buf', filled', hsame, hdecided⟩ := ih _ (hn ▸ Source.length_lt_of_readInto hread) hfit₁ hstream rfl
        refine ⟨src', buf', filled', ?_, hdecided⟩
        rw [← hsame, readHead_step, hcheck]
        simp only [hread]
      · -- a drained stream has nothing more
        push Not at hdata
        exact absurd (readMore_other hfit hread hdata).1 (hmore _ _ h hcheck)
    · exact ⟨src, buf, filled, rfl, hfit, h, hcheck⟩

/-- A stream that is handed over starts with the preface, and nothing of it is lost. -/
theorem readHead_upgrade {src src' : Source} {buf : Buf} {filled : ℕ} (hfit : buf.Fits filled) {buffered : Bytes}
    (h : readHead hp 0 src buf filled = .upgrade buffered src') :
    H2_PREFACE <+: buffered ∧ buffered ++ src'.bytes = buf.data.take filled ++ src.bytes := by
  fun_induction readHead hp 0 src buf filled with
  | case2 src buf filled hcheck =>
    obtain ⟨rfl, rfl⟩ := HeadOutcome.upgrade.inj h
    exact ⟨(checkHead_upgrade_iff _).mp hcheck, rfl⟩
  | case4 src buf filled hcheck bytes hne buf₁ src₁ hread ih =>
    obtain ⟨hbytes, -, -, htake, hfit₁⟩ := readMore_data hfit hread
    obtain ⟨hpre, hwhole⟩ := ih hfit₁ h
    refine ⟨hpre, hwhole.trans ?_⟩
    rw [htake, hbytes, List.append_assoc]
  | _ => cases h

theorem checkHead_of_preface {b t : Bytes} (h : H2_PREFACE <+: b ++ t) :
    checkHead hp 0 b = .upgrade ∨ checkHead hp 0 b = .readMore ∧ t ≠ [] := by
  rcases List.prefix_or_prefix_of_prefix h (List.prefix_append b t) with hpre | hpre
  · exact Or.inl ((checkHead_upgrade_iff b).mpr hpre)
  · by_cases heq : b = H2_PREFACE
    · exact Or.inl ((checkHead_upgrade_iff b).mpr (heq ▸ List.prefix_refl _))
    · refine Or.inr ⟨checkHead_of_partOfPreface ⟨hpre, heq⟩, ?_⟩
      rintro rfl
      rw [List.append_nil] at h
      exact heq (hpre.eq_of_length_le h.length_le)

/-- A stream that starts with the preface is handed over, however it is cut. -/
theorem exists_upgrade {src : Source} {buf : Buf} {filled : ℕ} (hfit : buf.Fits filled)
    (h : H2_PREFACE <+: buf.data.take filled ++ src.bytes) :
    ∃ buffered src', readHead hp 0 src buf filled = .upgrade buffered src' := by
  have hmore : ∀ q t, q ++ t = buf.data.take filled ++ src.bytes → checkHead hp 0 q = .readMore → t ≠ [] := by
    intro q t hq hcheck
    have hpre : checkHead hp 0 q = .upgrade ∨ _ := checkHead_of_preface (hq ▸ h)
    rw [hcheck] at hpre
    exact (hpre.resolve_left (by simp)).2
  obtain ⟨src', buf', filled', hsame, -, hstream, hdecided⟩ := readHead_decides hmore hfit rfl
  have hup : checkHead hp 0 (buf'.data.take filled') = .upgrade :=
    (checkHead_of_preface (hstream ▸ h)).resolve_right fun hno => hdecided hno.1
  exact ⟨_, _, by rw [hsame, readHead_step, hup]⟩

theorem checkHead_congr {hp' : HeadParser} (hagree : ∀ b, ¬ PartOfPreface b → parseRequest hp' b = parseRequest hp b)
    (b : Bytes) : checkHead hp' 0 b = checkHead hp 0 b := by
  by_cases hpart : PartOfPreface b
  · rw [checkHead_of_partOfPreface hpart, checkHead_of_partOfPreface hpart]
  · simp only [checkHead, hagree b hpart]

/-- **The first head loop never asks the parser for a part of the preface**: what it would say there does not matter. -/
theorem readHead_congr {hp' : HeadParser} (hagree : ∀ b, ¬ PartOfPreface b → parseRequest hp' b = parseRequest hp b)
    (src : Source) (buf : Buf) (filled : ℕ) : readHead hp' 0 src buf filled = readHead hp 0 src buf filled := by
  fun_induction readHead hp 0 src buf filled with
  | case1 src buf filled head hc => rw [readHead_step, checkHead_congr hagree, hc]
  | case2 src buf filled hc => rw [readHead_step, checkHead_congr hagree, hc]
  | case3 src buf filled response hc => rw [readHead_step, checkHead_congr hagree, hc]
  | case4 src buf filled hc bytes hne buf₁ src₁ hread ih =>
    rw [readHead_step, checkHead_congr hagree, hc]
    simp only [hread, ih]
  | case5 src buf filled hc buf₁ src₁ hread =>
    rw [readHead_step, checkHead_congr hagree, hc]
    simp only [hread]
  | case6 src buf filled hc buf₁ src₁ hread =>
    rw [readHead_step, checkHead_congr hagree, hc]
    simp only [hread]
  | case7 src buf filled hc buf₁ src₁ hread =>
    rw [readHead_step, checkHead_congr hagree, hc]
    simp only [hread]

/-! ## Behind the first request -/

theorem checkHead_ne_upgrade {served : ℕ} (hserved : served ≠ 0) (b : Bytes) : checkHead hp served b ≠ .upgrade := by
  simp only [checkHead, if_neg hserved]
  split
  · simp
  · split
    · simp
    · simp
    · split <;> simp

theorem readHead_ne_upgrade {served : ℕ} (hserved : served ≠ 0) {src src' : Source} {buf : Buf} {filled : ℕ}
    {buffered : Bytes} : readHead hp served src buf filled ≠ .upgrade buffered src' := by
  fun_induction readHead hp served src buf filled with
  | case2 src buf filled hc => exact absurd hc (checkHead_ne_upgrade hserved _)
  | case4 src buf filled hc bytes hne buf₁ src₁ hread ih => exact ih
  | _ => simp

variable {m : PathRouter} {env : Env m}

theorem exchange_not_upgraded {s : ConnState} {src : Source} {buf : Buf} {filled : ℕ} {head : RequestHead}
    {done : List Exchange} {buffered : Bytes} {src' : Source} :
    exchange hp env s src buf filled head ≠ .stop done (.upgraded buffered src') := by
  intro h
  simp only [exchange] at h
  repeat' split at h
  all_goals cases h

theorem served_of_exchange {s s' : ConnState} {src : Source} {buf : Buf} {filled : ℕ} {head : RequestHead} {e : Exchange}
    (h : exchange hp env s src buf filled head = .next e s') : s'.served = s.served + 1 := by
  have hmem : e ∈ exchanges (exchange hp env s src buf filled head) := by
    rw [h]
    exact List.mem_singleton_self e
  obtain ⟨_, _, _, _, _, -, -, -, -, -, hgo⟩ := exchange_cases hmem
  split at hgo
  · obtain ⟨s'', hnext, -, hserved⟩ := hgo
    rw [h] at hnext
    obtain ⟨-, rfl⟩ := Round.next.inj hnext
    exact hserved
  · rw [h] at hgo
    cases hgo

theorem served_of_serveRound {s s' : ConnState} {e : Exchange} (h : serveRound hp env s = .next e s') :
    s'.served = s.served + 1 := by
  unfold serveRound at h
  split at h
  · exact served_of_exchange h
  all_goals cases h

theorem serveRound_upgraded_iff {s : ConnState} {done : List Exchange} {buffered : Bytes} {src : Source} :
    serveRound hp env s = .stop done (.upgraded buffered src) ↔
      done = [] ∧ readHead hp s.served s.downstream.source s.buf s.filled = .upgrade buffered src := by
  unfold serveRound
  constructor
  · intro h
    split at h
    · exact absurd h exchange_not_upgraded
    · rename_i hread
      obtain ⟨rfl, hend⟩ := Round.stop.inj h
      obtain ⟨rfl, rfl⟩ := ServeEnd.upgraded.inj hend
      exact ⟨rfl, hread⟩
    all_goals cases h
  · rintro ⟨rfl, hread⟩
    rw [hread]

theorem serveLoop_not_upgraded {fuel : ℕ} {s : ConnState} (hserved : s.served ≠ 0) {buffered : Bytes} {src : Source} :
    (serveLoop hp env fuel s).2 ≠ .upgraded buffered src := by
  induction fuel generalizing s with
  | zero => simp [serveLoop]
  | succ fuel ih =>
    rw [serveLoop]
    split
    · rename_i done ending hround
      rintro rfl
      exact readHead_ne_upgrade hserved (serveRound_upgraded_iff.mp hround).2
    · rename_i e s' hround
      have hserved' : s'.served ≠ 0 := by rw [served_of_serveRound hround]; omega
      exact ih hserved'

/-- **The serve loop hands a connection over exactly if its first head loop does**, before any exchange. -/
theorem serveLoop_upgraded_iff {fuel : ℕ} {s : ConnState} {done : List Exchange} {buffered : Bytes} {src : Source} :
    serveLoop hp env (fuel + 1) s = (done, .upgraded buffered src) ↔
      done = [] ∧ readHead hp s.served s.downstream.source s.buf s.filled = .upgrade buffered src := by
  rw [← serveRound_upgraded_iff, serveLoop]
  split
  · rename_i done' ending hround
    rw [hround, Prod.mk.injEq, Round.stop.injEq]
  · rename_i e s' hround
    have hserved : s'.served ≠ 0 := by rw [served_of_serveRound hround]; omega
    rw [hround]
    constructor
    · intro h
      exact absurd (congrArg Prod.snd h) (serveLoop_not_upgraded hserved)
    · intro h
      cases h

theorem serveConnection_upgraded_iff {downstream : Conn} {done : List Exchange} {buffered : Bytes} {src : Source} :
    serveConnection hp env downstream = (done, .upgraded buffered src) ↔
      done = [] ∧ readHead hp 0 downstream.source (Buf.withCapacity IO_BUF_INITIAL) 0 = .upgrade buffered src :=
  serveLoop_upgraded_iff

end Sniff

/-! ## The stream as HTTP/2 reads it -/

/-- **Sniffing is lossless**, however the stream is cut: a connection is handed to HTTP/2 exactly if its stream starts
with the preface, no part of the preface is parsed as a request, and reads of any sizes then deliver the stream from its
first byte on. -/
theorem sniffing_lossless {m : PathRouter} (hp : HeadParser) (env : Env m) (downstream : Conn) :
    ((∃ done buffered src, serveConnection hp env downstream = (done, .upgraded buffered src)) ↔
      H2_PREFACE <+: downstream.source.bytes) ∧
    (∀ hp' : HeadParser, (∀ b, ¬ PartOfPreface b → parseRequest hp' b = parseRequest hp b) →
      readHead hp' 0 downstream.source (Buf.withCapacity IO_BUF_INITIAL) 0 =
        readHead hp 0 downstream.source (Buf.withCapacity IO_BUF_INITIAL) 0) ∧
    ∀ done buffered src, serveConnection hp env downstream = (done, .upgraded buffered src) →
      done = [] ∧ ∀ {σ : Type} (R : Reader σ) (inner : σ), R.unread inner = src.bytes →
        ∀ sizes : List ℕ, (∀ remaining ∈ sizes, remaining ≠ 0) →
          ((PrefixedIo.reader R).deliver sizes (.new buffered inner)).1 <+: downstream.source.bytes ∧
          (downstream.source.bytes.length ≤ sizes.length →
            ((PrefixedIo.reader R).deliver sizes (.new buffered inner)).1 = downstream.source.bytes) := by
  refine ⟨⟨?_, ?_⟩, fun hp' hagree => readHead_congr hagree _ _ _, ?_⟩
  · rintro ⟨done, buffered, src, h⟩
    obtain ⟨hpre, hwhole⟩ := readHead_upgrade fits_start (serveConnection_upgraded_iff.mp h).2
    rw [List.take_zero, List.nil_append] at hwhole
    rw [← hwhole]
    exact hpre.trans (List.prefix_append _ _)
  · intro h
    have hpre : H2_PREFACE <+: (Buf.withCapacity IO_BUF_INITIAL).data.take 0 ++ downstream.source.bytes := by simpa using h
    obtain ⟨buffered, src, hread⟩ : ∃ buffered src, readHead hp 0 downstream.source _ 0 = .upgrade buffered src :=
      exists_upgrade fits_start hpre
    exact ⟨[], buffered, src, serveConnection_upgraded_iff.mpr ⟨rfl, hread⟩⟩
  · intro done buffered src h
    obtain ⟨hdone, hread⟩ := serveConnection_upgraded_iff.mp h
    obtain ⟨-, hwhole⟩ := readHead_upgrade fits_start hread
    rw [List.take_zero, List.nil_append] at hwhole
    refine ⟨hdone, fun R inner hinner sizes hsizes => ?_⟩
    obtain ⟨hdelivered, hall⟩ := (PrefixedIo.reader R).deliver_spec hsizes (.new buffered inner)
    have hunread : (PrefixedIo.reader R).unread (.new buffered inner) = downstream.source.bytes := by
      rw [← hwhole, ← hinner]
      rfl
    rw [hunread] at hdelivered hall
    refine ⟨⟨_, hdelivered⟩, fun hlen => ?_⟩
    rw [hall hlen, List.append_nil] at hdelivered
    exact hdelivered

/-- A worker without routes. -/
def emptyEnv : Env PathRouter.reference where
  table _ := RouteTableBuilder.buildAll _ []
  ticket k := k
  upstream _ _ := none
  peer := .sample
  forwardedHeaders := true

/-- A connection that opens with the preface in three pieces, the first frame behind it. -/
def sampleUpgrade : Conn :=
  ⟨⟨[ascii "P", ascii "RI * HTTP/2.0\r\n\r", ascii "\nSM\r\n\r\n" ++ [0, 0, 0], [4, 0, 0, 0, 0, 0]], .idle, false⟩, ⟨[], none⟩⟩

theorem sniffing_lossless_pieces :
    ∃ done buffered src, serveConnection .reference emptyEnv sampleUpgrade = (done, .upgraded buffered src) ∧
      ((PrefixedIo.reader Source.reader).deliver (List.replicate 40 7) (.new buffered src)).1 =
        sampleUpgrade.source.bytes := by
  obtain ⟨hiff, -, hlossless⟩ := sniffing_lossless .reference emptyEnv sampleUpgrade
  obtain ⟨done, buffered, src, h⟩ := hiff.mpr (by decide)
  refine ⟨done, buffered, src, h, ?_⟩
  have hsizes : ∀ remaining ∈ List.replicate 40 7, remaining ≠ 0 := by decide
  exact ((hlossless done buffered src h).2 Source.reader src rfl _ hsizes).2 (by decide)

end LbProxy.Monoio
