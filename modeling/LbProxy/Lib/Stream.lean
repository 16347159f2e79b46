import LbProxy.Lib.Bytes

/-!
# Byte streams

* `Source` — what a peer sends, as the arrivals in which it becomes readable, and how it ends;
* `Source.read` — one read: some of the next arrival, end of stream, an error, or nothing yet;
* `Source.reads` — what the successive reads of a loop return;
* `Sink` — what was written to a peer, and how much it takes before a write fails;
* `Buf` — a growable buffer that is moved into a read and back: reading at an offset keeps the bytes
  before it and sets the length behind the bytes that were read;
* `Source.readLoop_induction` — induction over the rounds of a loop that reads into the front of its buffer;
* `Reader` — anything that is read piece by piece; `Reader.deliver_spec` — what a sequence of reads delivers;
* `Outcome` — what an operation on streams does: it returns, fails, or waits forever;
* `Outcome.ReadsFrom` — it waits forever only if the stream that it reads from goes silent.
-/

namespace LbProxy.Lib

/-- How a stream ends behind its last byte. -/
inductive StreamEnd where
  /-- The peer keeps the connection open and sends nothing more. -/
  | idle
  | closed
  | failed
  deriving DecidableEq, Repr

/-- What a peer sends. -/
structure Source where
  arrivals : List Bytes
  ending : StreamEnd
  /-- End of stream was reported to the reader. -/
  ended : Bool
  deriving DecidableEq, Repr

/-- The result of a read. -/
inductive ReadResult where
  | data (bytes : Bytes) (nonempty : bytes ≠ [])
  /-- Zero bytes. -/
  | zero
  | failed
  | pending

namespace Source

/-- The bytes that were not read yet. -/
def bytes (s : Source) : Bytes := s.arrivals.flatten

/-- Read at most `cap` bytes. -/
def read (s : Source) (cap : ℕ) : ReadResult × Source :=
  if hcap : cap = 0 then (.zero, s)
  else match h : s.arrivals.dropWhile (· = []) with
    | a :: rest =>
      have hne : a.take cap ≠ [] := by
        have ha : ¬ decide (a = []) = true := by
          have := List.head_dropWhile_not (fun x : Bytes => decide (x = [])) (l := s.arrivals) (by simp [h])
          simpa [h] using this
        intro hnil
        rw [List.take_eq_nil_iff] at hnil
        simp [hcap] at hnil
        exact ha (by simpa using hnil)
      (.data (a.take cap) hne, { s with arrivals := a.drop cap :: rest })
    | [] =>
      match s.ending with
      | .closed => (.zero, { s with arrivals := [], ended := true })
      | .failed => (.failed, { s with arrivals := [] })
      | .idle => (.pending, { s with arrivals := [] })

end Source

/-- What was written to a peer; a write that does not fit the limit fails. -/
structure Sink where
  written : Bytes
  limit : Option ℕ
  deriving DecidableEq, Repr

/-- Write all bytes; `none` is a failed write. -/
def Sink.writeAll (s : Sink) (bytes : Bytes) : Option Sink :=
  match s.limit with
  | none => some { s with written := s.written ++ bytes }
  | some n => if s.written.length + bytes.length ≤ n then some { s with written := s.written ++ bytes } else none

/-- A connection. -/
structure Conn where
  source : Source
  sink : Sink
  deriving DecidableEq, Repr

/-- A growable buffer: its initialised bytes and its capacity. -/
structure Buf where
  data : Bytes
  cap : ℕ
  deriving DecidableEq, Repr

namespace Buf

def withCapacity (cap : ℕ) : Buf := ⟨[], cap⟩

/-- `Vec::resize` with zeros; a growing vector at least doubles. -/
def resize (b : Buf) (n : ℕ) : Buf :=
  ⟨b.data.take n ++ List.replicate (n - b.data.length) 0, if n ≤ b.cap then b.cap else max (2 * b.cap) n⟩

/-- `copy_within(from..to, 0)`. -/
def copyToFront (b : Buf) (start stop : ℕ) : Buf :=
  { b with data := (b.data.take stop).drop start ++ b.data.drop (stop - start) }

/-- The filled part of the buffer is initialised, and the buffer holds its bytes. -/
structure Fits (buf : Buf) (filled : ℕ) : Prop where
  filled_le : filled ≤ buf.data.length
  length_le : buf.data.length ≤ buf.cap

theorem length_resize (buf : Buf) (n : ℕ) : (buf.resize n).data.length = n := by
  simp only [Buf.resize, List.length_append, List.length_take, List.length_replicate]
  omega

theorem le_cap_resize (buf : Buf) (n : ℕ) : n ≤ (buf.resize n).cap := by
  simp only [Buf.resize]
  split <;> omega

theorem take_resize {buf : Buf} {n filled : ℕ} (h : filled ≤ buf.data.length) (hn : filled ≤ n) :
    (buf.resize n).data.take filled = buf.data.take filled := by
  simp only [Buf.resize]
  rw [List.take_append_of_le_length (by rw [List.length_take]; omega), List.take_take, min_eq_left hn]

end Buf

/-- Read into the bytes `start..stop` of a buffer. -/
def Source.readInto (s : Source) (b : Buf) (start stop : ℕ) : ReadResult × Buf × Source :=
  match s.read (stop - start) with
  | (.data bytes h, s') => (.data bytes h, { b with data := b.data.take start ++ bytes }, s')
  | (.zero, s') => (.zero, { b with data := b.data.take start }, s')
  | (r, s') => (r, b, s')

/-- What an operation on streams does. -/
inductive Outcome (α : Type) where
  | done (a : α)
  | failed
  | blocked
  deriving DecidableEq, Repr

namespace Outcome

def bind {α β : Type} (x : Outcome α) (f : α → Outcome β) : Outcome β :=
  match x with
  | .done a => f a
  | .failed => .failed
  | .blocked => .blocked

def ofOption {α : Type} : Option α → Outcome α
  | some a => .done a
  | none => .failed

theorem bind_eq_done {α β : Type} {x : Outcome α} {f : α → Outcome β} {b : β} :
    x.bind f = .done b ↔ ∃ a, x = .done a ∧ f a = .done b := by
  cases x <;> simp [bind]

/-- An operation that reads from a stream which ends so: it leaves the end as it is, and it waits forever only if the
stream goes silent. -/
def ReadsFrom {α : Type} (ending : StreamEnd) (source : α → Source) : Outcome α → Prop
  | .done a => (source a).ending = ending
  | .failed => True
  | .blocked => ending = .idle

/-- Operations that read from a stream one after the other are one that does. -/
theorem ReadsFrom.bind {α β : Type} {ending : StreamEnd} {source : α → Source} {source' : β → Source} {x : Outcome α}
    {f : α → Outcome β} (hx : ReadsFrom ending source x)
    (hf : ∀ a, (source a).ending = ending → ReadsFrom ending source' (f a)) : ReadsFrom ending source' (x.bind f) := by
  cases x with
  | done a => exact hf a hx
  | failed => trivial
  | blocked => exact hx

theorem ReadsFrom.ofOption_bind {α β : Type} {ending : StreamEnd} {source : β → Source} {x : Option α}
    {f : α → Outcome β} (hf : ∀ a, ReadsFrom ending source (f a)) : ReadsFrom ending source ((ofOption x).bind f) := by
  cases x with
  | some a => exact hf a
  | none => trivial

end Outcome

/-! ## What a read takes -/

namespace Source

theorem flatten_dropWhile_nil (l : List Bytes) : (l.dropWhile (· = [])).flatten = l.flatten := by
  induction l with
  | nil => rfl
  | cons a l ih =>
    by_cases ha : a = []
    · simp [ha, ih]
    · simp [ha]

theorem bytes_read {s s' : Source} {cap : ℕ} {bs : Bytes} {h : bs ≠ []}
    (hr : s.read cap = (.data bs h, s')) :
    s.bytes = bs ++ s'.bytes ∧ bs.length ≤ cap ∧ s'.ending = s.ending ∧ s'.ended = s.ended := by
  unfold read at hr
  split at hr
  · simp at hr
  · split at hr
    · rename_i a rest hd
      simp only [Prod.mk.injEq, ReadResult.data.injEq] at hr
      obtain ⟨rfl, rfl⟩ := hr
      refine ⟨?_, by rw [List.length_take]; omega, rfl, rfl⟩
      rw [bytes, ← flatten_dropWhile_nil, hd]
      show a ++ rest.flatten = a.take cap ++ (a.drop cap ++ rest.flatten)
      rw [← List.append_assoc, List.take_append_drop]
    · split at hr <;> simp at hr

theorem read_drained {s s' : Source} {cap : ℕ} {r : ReadResult} (hcap : cap ≠ 0)
    (hr : s.read cap = (r, s')) (hno : ∀ bs h, r ≠ .data bs h) :
    s.bytes = [] ∧ s'.bytes = [] ∧ s'.ending = s.ending ∧
      ((r = .zero ∧ s.ending = .closed ∧ s'.ended = true) ∨ (r = .failed ∧ s.ending = .failed) ∨
        (r = .pending ∧ s.ending = .idle)) := by
  unfold read at hr
  rw [dif_neg hcap] at hr
  split at hr
  · simp only [Prod.mk.injEq] at hr
    exact absurd hr.1.symm (hno _ _)
  · rename_i hd
    have hnil : s.bytes = [] := by
      rw [bytes, ← flatten_dropWhile_nil, hd]
      rfl
    split at hr <;> rename_i hend <;> simp only [Prod.mk.injEq] at hr <;> obtain ⟨rfl, rfl⟩ := hr
    · exact ⟨hnil, rfl, rfl, Or.inl ⟨rfl, hend, rfl⟩⟩
    · exact ⟨hnil, rfl, rfl, Or.inr (Or.inl ⟨rfl, hend⟩)⟩
    · exact ⟨hnil, rfl, rfl, Or.inr (Or.inr ⟨rfl, hend⟩)⟩

theorem readInto_data {s s' : Source} {b b' : Buf} {start stop : ℕ} {bs : Bytes} {h : bs ≠ []}
    (hr : s.readInto b start stop = (.data bs h, b', s')) :
    s.read (stop - start) = (.data bs h, s') ∧ b' = { b with data := b.data.take start ++ bs } := by
  unfold readInto at hr
  split at hr
  · rename_i bs' h' s'' hread
    simp only [Prod.mk.injEq, ReadResult.data.injEq] at hr
    obtain ⟨rfl, rfl, rfl⟩ := hr
    exact ⟨hread, rfl⟩
  · simp at hr
  · rename_i r s'' hnd hnz hread
    simp only [Prod.mk.injEq] at hr
    obtain ⟨rfl, rfl, rfl⟩ := hr
    exact (hnd _ _ rfl).elim

theorem readInto_other {s s' : Source} {b b' : Buf} {start stop : ℕ} {r : ReadResult}
    (hr : s.readInto b start stop = (r, b', s')) (hno : ∀ bs h, r ≠ .data bs h) :
    s.read (stop - start) = (r, s') ∧ b'.cap = b.cap := by
  unfold readInto at hr
  split at hr
  · simp only [Prod.mk.injEq] at hr
    exact absurd hr.1.symm (hno _ _)
  · rename_i s'' hread
    simp only [Prod.mk.injEq] at hr
    obtain ⟨rfl, rfl, rfl⟩ := hr
    exact ⟨hread, rfl⟩
  · rename_i r' s'' _ _ hread
    simp only [Prod.mk.injEq] at hr
    obtain ⟨rfl, rfl, rfl⟩ := hr
    exact ⟨hread, rfl⟩

/-- Only a stream that goes silent leaves a read waiting. -/
theorem readInto_pending {s s' : Source} {b b' : Buf} {start stop : ℕ}
    (hr : s.readInto b start stop = (.pending, b', s')) : s.ending = .idle := by
  have hread := (readInto_other hr (by simp)).1
  have hcap : stop - start ≠ 0 := by
    intro hzero
    rw [hzero, read, dif_pos rfl] at hread
    cases hread
  rcases (read_drained hcap hread (by simp)).2.2.2 with ⟨h, -⟩ | ⟨h, -⟩ | ⟨-, hidle⟩
  · cases h
  · cases h
  · exact hidle

theorem ending_read (s : Source) (cap : ℕ) : (s.read cap).2.ending = s.ending := by
  unfold read
  split
  · rfl
  · split
    · rfl
    · split <;> rfl

theorem ending_of_readInto {s s' : Source} {b b' : Buf} {start stop : ℕ} {r : ReadResult}
    (hr : s.readInto b start stop = (r, b', s')) : s'.ending = s.ending := by
  have hread := ending_read s (stop - start)
  unfold readInto at hr
  split at hr
  all_goals
    rename_i heq
    rw [heq] at hread
    obtain ⟨-, -, rfl⟩ := Prod.mk.inj hr |>.imp_right Prod.mk.inj
    exact hread

theorem length_lt_of_read {s s' : Source} {cap : ℕ} {bs : Bytes} {h : bs ≠ []}
    (hr : s.read cap = (.data bs h, s')) : s'.bytes.length < s.bytes.length := by
  obtain ⟨hbytes, -⟩ := bytes_read hr
  have := List.length_pos_iff.mpr h
  rw [hbytes, List.length_append]
  omega

theorem length_lt_of_readInto {s s' : Source} {b b' : Buf} {start stop : ℕ} {bs : Bytes} {h : bs ≠ []}
    (hr : s.readInto b start stop = (.data bs h, b', s')) : s'.bytes.length < s.bytes.length :=
  length_lt_of_read (readInto_data hr).1

/-- **Induction over a loop that reads into the front of its buffer**: a round that reads some bytes leaves less to
read, and the last round reads none. -/
theorem readLoop_induction {motive : (s : Source) → (b : Buf) → b.cap ≠ 0 → Prop}
    (data : ∀ (s s' : Source) (b b' : Buf) (hcap : b.cap ≠ 0) (hcap' : b'.cap ≠ 0) (bs : Bytes) (h : bs ≠ []),
      s.readInto b 0 b.cap = (.data bs h, b', s') → s.read b.cap = (.data bs h, s') → b'.cap = b.cap →
        motive s' b' hcap' → motive s b hcap)
    (other : ∀ (s s' : Source) (b b' : Buf) (hcap : b.cap ≠ 0) (r : ReadResult),
      s.readInto b 0 b.cap = (r, b', s') → (∀ bs h, r ≠ .data bs h) → s.read b.cap = (r, s') → motive s b hcap)
    (s : Source) (b : Buf) (hcap : b.cap ≠ 0) : motive s b hcap := by
  induction hn : s.bytes.length using Nat.strong_induction_on generalizing s b with
  | _ n ih =>
    rcases hr : s.readInto b 0 b.cap with ⟨r, b', s'⟩
    by_cases hdata : ∃ bs h, r = .data bs h
    · obtain ⟨bs, h, rfl⟩ := hdata
      obtain ⟨hread, hb'⟩ := readInto_data hr
      rw [Nat.sub_zero] at hread
      have hcap' : b'.cap = b.cap := by rw [hb']
      exact data s s' b b' hcap (hcap' ▸ hcap) bs h hr hread hcap'
        (ih _ (hn ▸ length_lt_of_read hread) s' b' (hcap' ▸ hcap) rfl)
    · push Not at hdata
      obtain ⟨hread, -⟩ := readInto_other hr hdata
      rw [Nat.sub_zero] at hread
      exact other s s' b b' hcap r hr hdata hread

/-! ## The reads of a loop -/

/-- What successive reads of at most `cap` bytes return. -/
def reads (s : Source) (cap : ℕ) : List Bytes :=
  match _h : s.read cap with
  | (.data bs _, s') => bs :: reads s' cap
  | _ => []
termination_by s.bytes.length
decreasing_by exact length_lt_of_read _h

theorem reads_data {s s' : Source} {cap : ℕ} {bs : Bytes} {h : bs ≠ []}
    (hr : s.read cap = (.data bs h, s')) : s.reads cap = bs :: s'.reads cap := by
  rw [reads.eq_def]
  split
  · rename_i bs' h' s'' heq
    rw [hr] at heq
    simp only [Prod.mk.injEq, ReadResult.data.injEq] at heq
    obtain ⟨rfl, rfl⟩ := heq
    rfl
  · rename_i hno
    exact absurd hr (hno _ _ _)

theorem reads_other {s s' : Source} {cap : ℕ} {r : ReadResult} (hr : s.read cap = (r, s'))
    (hno : ∀ bs h, r ≠ .data bs h) : s.reads cap = [] := by
  rw [reads.eq_def]
  split
  · rename_i bs h s'' heq
    rw [hr] at heq
    simp only [Prod.mk.injEq] at heq
    exact absurd heq.1 (hno _ _)
  · rfl

theorem flatten_reads {s : Source} {cap : ℕ} (hcap : cap ≠ 0) : (s.reads cap).flatten = s.bytes := by
  induction hn : s.bytes.length using Nat.strong_induction_on generalizing s with
  | _ n ih =>
    rcases hread : s.read cap with ⟨res, s'⟩
    by_cases hdata : ∃ bs h, res = .data bs h
    · obtain ⟨bs, h, rfl⟩ := hdata
      rw [reads_data hread, List.flatten_cons, ih _ (hn ▸ length_lt_of_read hread) rfl,
        (bytes_read hread).1]
    · push Not at hdata
      rw [reads_other hread hdata, (read_drained hcap hread hdata).1]
      rfl

end Source

/-! ## Readers -/

/-- A zero-length read, or the bytes that were read. -/
def ReadResult.ofBytes (bytes : Bytes) : ReadResult := if h : bytes = [] then .zero else .data bytes h

/-- Something that is read piece by piece: each read takes its bytes from the front of what is still unread, and yields
none only when that is empty. -/
structure Reader (σ : Type) where
  read : σ → ℕ → ReadResult × σ
  unread : σ → Bytes
  data : ∀ {s s' : σ} {cap : ℕ} {bs : Bytes} {h : bs ≠ []}, read s cap = (.data bs h, s') → unread s = bs ++ unread s'
  other : ∀ {s s' : σ} {cap : ℕ} {r : ReadResult}, cap ≠ 0 → read s cap = (r, s') → (∀ bs h, r ≠ .data bs h) →
    unread s = [] ∧ unread s' = []

/-- A stream is read so. -/
def Source.reader : Reader Source where
  read := Source.read
  unread := Source.bytes
  data h := (Source.bytes_read h).1
  other hcap h hno := ⟨(Source.read_drained hcap h hno).1, (Source.read_drained hcap h hno).2.1⟩

namespace Reader

variable {σ : Type} (R : Reader σ)

/-- The bytes that reads of these sizes deliver, and the reader behind them. -/
def deliver : List ℕ → σ → Bytes × σ
  | [], s => ([], s)
  | cap :: sizes, s =>
    match R.read s cap with
    | (.data bs _, s') => (bs ++ (deliver sizes s').1, (deliver sizes s').2)
    | (_, s') => deliver sizes s'

theorem deliver_data {s s' : σ} {cap : ℕ} {bs : Bytes} {h : bs ≠ []} (hr : R.read s cap = (.data bs h, s'))
    (sizes : List ℕ) : R.deliver (cap :: sizes) s = (bs ++ (R.deliver sizes s').1, (R.deliver sizes s').2) := by
  rw [deliver, hr]

theorem deliver_other {s s' : σ} {cap : ℕ} {r : ReadResult} (hr : R.read s cap = (r, s'))
    (hno : ∀ bs h, r ≠ .data bs h) (sizes : List ℕ) : R.deliver (cap :: sizes) s = R.deliver sizes s' := by
  rw [deliver, hr]
  cases r with
  | data bs h => exact absurd rfl (hno bs h)
  | zero => rfl
  | failed => rfl
  | pending => rfl

/-- **Reads deliver what was unread**, each byte once and in order, and all of it if there are as many reads as bytes. -/
theorem deliver_spec {sizes : List ℕ} (hsizes : ∀ cap ∈ sizes, cap ≠ 0) (s : σ) :
    (R.deliver sizes s).1 ++ R.unread (R.deliver sizes s).2 = R.unread s ∧
      ((R.unread s).length ≤ sizes.length → R.unread (R.deliver sizes s).2 = []) := by
  induction sizes generalizing s with
  | nil =>
    refine ⟨rfl, fun h => ?_⟩
    exact List.eq_nil_of_length_eq_zero (Nat.le_zero.mp h)
  | cons cap sizes ih =>
    have ih := ih fun c hc => hsizes c (List.mem_cons_of_mem _ hc)
    rcases hr : R.read s cap with ⟨r, s'⟩
    by_cases hdata : ∃ bs h, r = .data bs h
    · obtain ⟨bs, h, rfl⟩ := hdata
      have hunread := R.data hr
      obtain ⟨hwhole, hall⟩ := ih s'
      rw [R.deliver_data hr, hunread]
      refine ⟨by rw [List.append_assoc, hwhole], fun hlen => hall ?_⟩
      -- a read takes one byte at least
      have hpos := List.length_pos_iff.mpr h
      rw [List.length_append, List.length_cons] at hlen
      omega
    · push Not at hdata
      obtain ⟨hnil, hnil'⟩ := R.other (hsizes cap List.mem_cons_self) hr hdata
      obtain ⟨hwhole, hall⟩ := ih s'
      rw [R.deliver_other hr hdata, hnil]
      exact ⟨hwhole.trans hnil', fun _ => hall (by simp [hnil'])⟩

end Reader

end LbProxy.Lib
