import LbProxy.Monoio.Exchange

/-!
# Reads that never complete

A read waits forever if its peer keeps the connection open and sends nothing more.

* `readHead_blocked`, `relayRequestBody_readsFrom`, `relayResponse_blocked` — so does what is built from reads;
* `exchange_blocked` — an exchange waits forever only for a silent client or a silent upstream.
-/

namespace LbProxy.Monoio

open Lib LbProxy.Core Outcome

variable {hp : HeadParser}

/-! ## Heads -/

theorem readHead_ending {served : ℕ} {src src' : Source} {buf buf' : Buf} {filled filled' : ℕ} {head : RequestHead}
    (h : readHead hp served src buf filled = .head head src' buf' filled') : src'.ending = src.ending := by
  fun_induction readHead hp served src buf filled with
  | case1 src buf filled head' hcheck =>
    obtain ⟨-, rfl, -⟩ := HeadOutcome.head.inj h
    rfl
  | case4 src buf filled hcheck bytes hne buf₁ src₁ hread ih => rw [ih h, Source.ending_of_readInto hread]
  | _ => cases h

theorem readResponseHead_blocked {method : Bytes} {src : Source} {buf : Buf} {filled : ℕ}
    (h : readResponseHead hp method src buf filled = .blocked) : src.ending = .idle := by
  fun_induction readResponseHead hp method src buf filled with
  | case3 src buf filled parsed hparsed bytes hne buf₁ src₁ hread ih => rw [← Source.ending_of_readInto hread, ih h]
  | case6 src buf filled parsed hparsed buf₁ src₁ hread => exact Source.readInto_pending hread
  | _ => cases h

theorem readResponseHead_ending {method : Bytes} {src src' : Source} {buf buf' : Buf} {filled filled' : ℕ}
    {head : ResponseHead} (h : readResponseHead hp method src buf filled = .head head src' buf' filled') :
    src'.ending = src.ending := by
  fun_induction readResponseHead hp method src buf filled with
  | case1 src buf filled parsed head' hparsed =>
    obtain ⟨-, rfl, -⟩ := ResponseOutcome.head.inj h
    rfl
  | case3 src buf filled parsed hparsed bytes hne buf₁ src₁ hread ih => rw [ih h, Source.ending_of_readInto hread]
  | _ => cases h

/-! ## Bodies -/

theorem relayExactLoop_readsFrom (src : Source) (dst : Sink) (buf : Buf) (remaining : ℕ) :
    ReadsFrom src.ending (·.1) (relayExactLoop src dst buf remaining) := by
  fun_induction relayExactLoop src dst buf remaining with
  | case1 src dst buf => exact rfl
  | case2 src dst buf remaining hrem want bytes hne buf₁ src₁ hread dst₁ hwrite ih =>
    rwa [Source.ending_of_readInto hread] at ih
  | case6 src dst buf remaining hrem want buf₁ src₁ hread => exact Source.readInto_pending hread
  | _ => trivial

theorem relayChunkedLoop_readsFrom (src : Source) (dst : Sink) (buf : Buf) :
    ReadsFrom src.ending (·.1) (relayChunkedLoop src dst buf) := by
  fun_induction relayChunkedLoop src dst buf with
  | case1 src dst buf bytes hne buf₁ src₁ hread saw dst₁ hwrite hsaw => exact Source.ending_of_readInto hread
  | case2 src dst buf bytes hne buf₁ src₁ hread saw dst₁ hwrite hsaw ih =>
    rwa [Source.ending_of_readInto hread] at ih
  | case4 src dst buf buf₁ src₁ hread => exact Source.ending_of_readInto hread
  | case6 src dst buf buf₁ src₁ hread => exact Source.readInto_pending hread
  | _ => trivial

theorem relayUntilCloseLoop_readsFrom (src : Source) (dst : Sink) (buf : Buf) :
    ReadsFrom src.ending (·.1) (relayUntilCloseLoop src dst buf) := by
  fun_induction relayUntilCloseLoop src dst buf with
  | case1 src dst buf bytes hne buf₁ src₁ hread dst₁ hwrite ih => rwa [Source.ending_of_readInto hread] at ih
  | case3 src dst buf buf₁ src₁ hread => exact Source.ending_of_readInto hread
  | case5 src dst buf buf₁ src₁ hread => exact Source.readInto_pending hread
  | _ => trivial

theorem readsFrom_first_write {β : Type} {ending : StreamEnd} {source : β → Source} {dst : Sink} {n : ℕ} {bytes : Bytes}
    {f : Sink → Outcome β} (hf : ∀ dst, ReadsFrom ending source (f dst)) :
    ReadsFrom ending source ((if n > 0 then ofOption (dst.writeAll bytes) else .done dst).bind f) := by
  split
  · exact ReadsFrom.ofOption_bind hf
  · exact hf dst

theorem relayRequestBody_readsFrom (src : Source) (dst : Sink) (buf : Buf) (head : RequestHead) (filled : ℕ) :
    ReadsFrom src.ending (·.1) (relayRequestBody src dst buf head filled) := by
  unfold relayRequestBody
  simp only
  split
  · exact rfl
  · refine readsFrom_first_write fun dst => ?_
    split
    · exact (relayExactLoop_readsFrom src dst (relayBuf buf) _).bind fun _ h => h
    · exact rfl
  · exact readsFrom_first_write fun dst => (relayChunkedLoop_readsFrom src dst (relayBuf buf)).bind fun _ h => h
  · exact rfl

theorem relayResponseBody_readsFrom (src : Source) (dst : Sink) (buf : Buf) (head : ResponseHead) (filled : ℕ) :
    ReadsFrom src.ending (·.1) (relayResponseBody src dst buf head filled) := by
  unfold relayResponseBody
  simp only
  split
  · exact rfl
  · refine readsFrom_first_write fun dst => ?_
    split
    · exact (relayExactLoop_readsFrom src dst (relayBuf buf) _).bind fun _ h => h
    · exact rfl
  · exact readsFrom_first_write fun dst => (relayChunkedLoop_readsFrom src dst (relayBuf buf)).bind fun _ h => h
  · exact readsFrom_first_write fun dst => (relayUntilCloseLoop_readsFrom src dst (relayBuf buf)).bind fun _ h => h

/-! ## One exchange -/

theorem relayResponse_blocked {upstream : Source} {downstream : Sink} {method : Bytes} {keepAlive : Bool}
    (h : relayResponse hp upstream downstream method keepAlive = .blocked) : upstream.ending = .idle := by
  unfold relayResponse at h
  split at h
  · cases h
  · cases h
  · cases h
  · rename_i hread
    exact readResponseHead_blocked hread
  · rename_i head src buf filled hread
    simp only at h
    split at h
    · cases h
    · rename_i dst hwrite
      rw [← readResponseHead_ending hread]
      have hbody := relayResponseBody_readsFrom src dst buf head filled
      cases hrelay : relayResponseBody src dst buf head filled with
      | done r => rw [hrelay] at h; cases h
      | failed => rw [hrelay] at h; cases h
      | blocked =>
        rw [hrelay] at hbody
        exact hbody

variable {m : PathRouter} {env : Env m} {s : ConnState} {src : Source} {buf : Buf} {filled : ℕ} {head : RequestHead}

/-- **An exchange waits forever only for a silent client or a silent upstream**, and has reported nothing then. -/
theorem exchange_blocked {done : List Exchange} (h : exchange hp env s src buf filled head = .stop done .blocked) :
    done = [] ∧ (src.ending = .idle ∨
      ∃ address up, env.upstream s.served address = some up ∧ up.source.ending = .idle) := by
  unfold exchange at h
  simp only at h
  split at h
  · cases h
  split at h
  · cases h
  split at h
  · cases h
  rename_i upstream hup
  split at h
  · cases h
  rename_i dst hwrite
  have hbody := relayRequestBody_readsFrom src dst buf head filled
  split at h
  · cases h
  · rename_i hrelay
    rw [hrelay] at hbody
    cases h
    exact ⟨rfl, .inl hbody⟩
  · rename_i src' dst' buf' leftover hrelay
    split at h
    · cases h
    · rename_i hresponse
      cases h
      exact ⟨rfl, .inr ⟨_, upstream, hup, relayResponse_blocked hresponse⟩⟩
    · split at h <;> cases h

end LbProxy.Monoio
