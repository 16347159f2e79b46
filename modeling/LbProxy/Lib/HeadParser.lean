import LbProxy.Lib.Head
import Mathlib.Tactic.Common
import Mathlib.Tactic.IntervalCases

/-!
# A reference head parser

* `Codec` — a push parser and what it parses: it finds every encoding whatever follows it, finds nothing
  else, and asks for more on strict prefixes of an encoding;
* codecs compose: `Codec.seq`, `Codec.map`, `Codec.guard`, and `Codec.many` for repetitions that are told
  from what follows them by their first byte;
* `HeadParser.reference` — a parser of message heads put together from codecs, and
  `HeadParser.reference_laws`: it is a head parser as documented.
-/

namespace LbProxy.Lib

/-- The result of a push parser. -/
inductive Res (α : Type) where
  | ok (a : α) (rest : Bytes)
  | more
  | bad

namespace Res

variable {α β : Type}

def bind (x : Res α) (f : α → Bytes → Res β) : Res β :=
  match x with
  | .ok a rest => f a rest
  | .more => .more
  | .bad => .bad

def map (f : α → β) (x : Res α) : Res β := x.bind fun a rest => .ok (f a) rest

@[simp] theorem ok_bind (a : α) (rest : Bytes) (f : α → Bytes → Res β) : (ok a rest).bind f = f a rest := rfl
@[simp] theorem more_bind (f : α → Bytes → Res β) : (more : Res α).bind f = more := rfl
@[simp] theorem map_ok (f : α → β) (a : α) (rest : Bytes) : (ok a rest).map f = ok (f a) rest := rfl
@[simp] theorem map_more (f : α → β) : (more : Res α).map f = more := rfl

theorem bind_eq_ok {x : Res α} {f : α → Bytes → Res β} {b : β} {rest : Bytes}
    (h : x.bind f = .ok b rest) : ∃ a r, x = .ok a r ∧ f a r = .ok b rest := by
  cases x with
  | ok a r => exact ⟨a, r, rfl, h⟩
  | more => cases h
  | bad => cases h

theorem map_eq_ok {f : α → β} {x : Res α} {b : β} {rest : Bytes} (h : x.map f = .ok b rest) :
    ∃ a, x = .ok a rest ∧ f a = b := by
  obtain ⟨a, r, hx, hb⟩ := bind_eq_ok h
  simp only [ok.injEq] at hb
  obtain ⟨rfl, rfl⟩ := hb
  exact ⟨a, hx, rfl⟩

end Res

/-! ## Codecs -/

/-- The parser `p` finds exactly the encodings `r a` of the values `a` with `C a`. -/
structure Codec {α : Type} (p : Bytes → Res α) (C : α → Prop) (r : α → Bytes) : Prop where
  complete : ∀ {a : α} (rest : Bytes), C a → p (r a ++ rest) = .ok a rest
  incomplete : ∀ {a : α} {q : Bytes}, C a → q <+: r a → q ≠ r a → p q = .more
  sound : ∀ {s : Bytes} {a : α} {rest : Bytes}, p s = .ok a rest → C a ∧ s = r a ++ rest

theorem prefix_append_cases {q a b : Bytes} (h : q <+: a ++ b) (hne : q ≠ a ++ b) :
    (q <+: a ∧ q ≠ a) ∨ ∃ t, q = a ++ t ∧ t <+: b ∧ t ≠ b := by
  by_cases hq : q <+: a ∧ q ≠ a
  · exact .inl hq
  · have ha : a <+: q := by
      rcases List.prefix_or_prefix_of_prefix h (List.prefix_append a b) with h1 | h1
      · have : q = a := by
          by_contra hqa
          exact hq ⟨h1, hqa⟩
        rw [this]
      · exact h1
    obtain ⟨t, rfl⟩ := ha
    exact .inr ⟨t, rfl, (List.prefix_append_right_inj a).mp h, fun ht => hne (by rw [ht])⟩

namespace Codec

variable {α β : Type} {p : Bytes → Res α} {C : α → Prop} {r : α → Bytes}
variable {q : Bytes → Res β} {D : β → Prop} {t : β → Bytes}

/-- One parser after the other. -/
theorem seq (hp : Codec p C r) (hq : Codec q D t) :
    Codec (fun s => (p s).bind fun a rest => (q rest).map fun b => (a, b))
      (fun x => C x.1 ∧ D x.2) (fun x => r x.1 ++ t x.2) where
  complete := by
    rintro ⟨a, b⟩ rest ⟨ha, hb⟩
    simp only [List.append_assoc, hp.complete _ ha, Res.ok_bind, hq.complete _ hb, Res.map_ok]
  incomplete := by
    rintro ⟨a, b⟩ s ⟨ha, hb⟩ hpre hne
    rcases prefix_append_cases hpre hne with ⟨h1, h2⟩ | ⟨u, rfl, h1, h2⟩
    · simp only [hp.incomplete ha h1 h2, Res.more_bind]
    · simp only [hp.complete _ ha, Res.ok_bind, hq.incomplete hb h1 h2, Res.map_more]
  sound := by
    rintro s ⟨a, b⟩ rest h
    obtain ⟨a', r', h1, h2⟩ := Res.bind_eq_ok h
    obtain ⟨b', h3, h4⟩ := Res.map_eq_ok h2
    simp only [Prod.mk.injEq] at h4
    obtain ⟨rfl, rfl⟩ := h4
    obtain ⟨ha, rfl⟩ := hp.sound h1
    obtain ⟨hb, rfl⟩ := hq.sound h3
    exact ⟨⟨ha, hb⟩, (List.append_assoc ..).symm⟩

/-- Another view of the same encodings. -/
theorem map (hp : Codec p C r) (f : α → β) (hf : ∀ a, C a → D (f a) ∧ t (f a) = r a)
    (hsurj : ∀ b, D b → ∃ a, C a ∧ f a = b) : Codec (fun s => (p s).map f) D t where
  complete := by
    intro b rest hb
    obtain ⟨a, ha, rfl⟩ := hsurj b hb
    simp only [(hf a ha).2, hp.complete _ ha, Res.map_ok]
  incomplete := by
    intro b s hb hpre hne
    obtain ⟨a, ha, rfl⟩ := hsurj b hb
    rw [(hf a ha).2] at hpre hne
    simp only [hp.incomplete ha hpre hne, Res.map_more]
  sound := by
    intro s b rest h
    obtain ⟨a, ha, rfl⟩ := Res.map_eq_ok h
    obtain ⟨hc, rfl⟩ := hp.sound ha
    exact ⟨(hf a hc).1, by rw [(hf a hc).2]⟩

/-- Refuse some of the values. -/
theorem guard (hp : Codec p C r) (c : α → Bool) :
    Codec (fun s => (p s).bind fun a rest => if c a then .ok a rest else .bad) (fun a => C a ∧ c a = true) r where
  complete := by
    rintro a rest ⟨ha, hc⟩
    simp only [hp.complete _ ha, Res.ok_bind, hc, if_true]
  incomplete := by
    rintro a s ⟨ha, -⟩ hpre hne
    simp only [hp.incomplete ha hpre hne, Res.more_bind]
  sound := by
    intro s a rest h
    obtain ⟨a', r', h1, h2⟩ := Res.bind_eq_ok h
    split at h2
    · rename_i hc
      simp only [Res.ok.injEq] at h2
      obtain ⟨rfl, rfl⟩ := h2
      obtain ⟨ha, hs⟩ := hp.sound h1
      exact ⟨⟨ha, hc⟩, hs⟩
    · cases h2

end Codec

/-! ## Repetition -/

section Many

variable {α β : Type} (item : Bytes → Res α) (start : UInt8 → Bool) (stop : Bytes → Res β)

/-- At most `n` items, then `stop`; the next byte tells whether an item starts there. -/
def many : ℕ → Bytes → Res (List α × β)
  | _, [] => .more
  | 0, b :: s => if start b then .bad else (stop (b :: s)).map fun z => ([], z)
  | n + 1, b :: s =>
    if start b then (item (b :: s)).bind fun a rest => (many n rest).map fun x => (a :: x.1, x.2)
    else (stop (b :: s)).map fun z => ([], z)

variable {item start stop} {C : α → Prop} {r : α → Bytes} {D : β → Prop} {t : β → Bytes}

/-- The first byte tells items from what stops them. -/
structure Starts (start : UInt8 → Bool) (C : α → Prop) (r : α → Bytes) (D : β → Prop) (t : β → Bytes) : Prop where
  item : ∀ a, C a → ∃ b s, r a = b :: s ∧ start b = true
  stop : ∀ z, D z → ∃ b s, t z = b :: s ∧ start b = false

theorem many_of_stop {b : UInt8} (hb : start b = false) (n : ℕ) (s : Bytes) :
    many item start stop n (b :: s) = (stop (b :: s)).map fun z => ([], z) := by
  cases n <;> simp only [many, hb, Bool.false_eq_true, if_false]

theorem many_of_start {b : UInt8} (hb : start b = true) (n : ℕ) (s : Bytes) :
    many item start stop (n + 1) (b :: s) =
      (item (b :: s)).bind fun a rest => (many item start stop n rest).map fun x => (a :: x.1, x.2) := by
  simp only [many, hb, if_true]

variable (hi : Codec item C r) (hs : Codec stop D t) (hst : Starts start C r D t)
include hi hs hst

theorem many_complete {n : ℕ} {l : List α} {z : β} (rest : Bytes) (hn : l.length ≤ n) (hl : ∀ a ∈ l, C a)
    (hz : D z) : many item start stop n (l.flatMap r ++ t z ++ rest) = .ok (l, z) rest := by
  induction l generalizing n with
  | nil =>
    obtain ⟨b, s, hb, hstart⟩ := hst.stop z hz
    have := hs.complete rest hz
    rw [List.flatMap_nil, List.nil_append]
    rw [hb, List.cons_append] at this ⊢
    rw [many_of_stop hstart, this, Res.map_ok]
  | cons a l ih =>
    obtain ⟨b, s, hb, hstart⟩ := hst.item a (hl a List.mem_cons_self)
    obtain ⟨n, rfl⟩ : ∃ k, n = k + 1 := ⟨n - 1, by simp only [List.length_cons] at hn; omega⟩
    have h1 := hi.complete (l.flatMap r ++ t z ++ rest) (hl a List.mem_cons_self)
    have h2 := ih (by simpa using hn) fun x hx => hl x (List.mem_cons_of_mem _ hx)
    rw [List.flatMap_cons, List.append_assoc, List.append_assoc, ← List.append_assoc (l.flatMap r)]
    rw [hb, List.cons_append] at h1 ⊢
    rw [many_of_start hstart, h1, Res.ok_bind, h2, Res.map_ok]

/-- Either bound will do: the number of items, or of bytes that are there. -/
theorem many_incomplete {n : ℕ} {l : List α} {z : β} {q : Bytes} (hn : l.length ≤ n ∨ q.length ≤ n)
    (hl : ∀ a ∈ l, C a) (hz : D z) (hpre : q <+: l.flatMap r ++ t z) (hne : q ≠ l.flatMap r ++ t z) :
    many item start stop n q = .more := by
  induction l generalizing n q with
  | nil =>
    rw [List.flatMap_nil, List.nil_append] at hpre hne
    cases q with
    | nil => cases n <;> rfl
    | cons c q =>
      obtain ⟨b, s, hb, hstart⟩ := hst.stop z hz
      have hc : c = b := (List.cons_prefix_cons.mp (hb ▸ hpre)).1
      rw [many_of_stop (hc ▸ hstart), hs.incomplete hz hpre hne, Res.map_more]
  | cons a l ih =>
    cases q with
    | nil => cases n <;> rfl
    | cons c q =>
      have ha := hl a List.mem_cons_self
      obtain ⟨b, s, hb, hstart⟩ := hst.item a ha
      rw [List.flatMap_cons, List.append_assoc] at hpre hne
      have hc : c = b := by
        rw [hb, List.cons_append] at hpre
        exact (List.cons_prefix_cons.mp hpre).1
      obtain ⟨n, rfl⟩ : ∃ k, n = k + 1 := ⟨n - 1, by simp only [List.length_cons] at hn; omega⟩
      rw [many_of_start (hc ▸ hstart)]
      rcases prefix_append_cases hpre hne with ⟨h1, h2⟩ | ⟨u, hu, h1, h2⟩
      · rw [hi.incomplete ha h1 h2, Res.more_bind]
      · have hlen : (c :: q).length = (r a).length + u.length := by rw [hu, List.length_append]
        have hn' : l.length ≤ n ∨ u.length ≤ n := by
          rw [hb] at hlen
          simp only [List.length_cons] at hn hlen
          omega
        rw [hu, hi.complete _ ha, Res.ok_bind,
          ih hn' (fun x hx => hl x (List.mem_cons_of_mem _ hx)) h1 h2, Res.map_more]

omit hi hst in
theorem map_stop_sound {u : Bytes} {l : List α} {z : β} {rest : Bytes}
    (h : ((stop u).map fun z => (([] : List α), z)) = .ok (l, z) rest) : l = [] ∧ D z ∧ u = t z ++ rest := by
  obtain ⟨z', hz, hlz⟩ := Res.map_eq_ok h
  simp only [Prod.mk.injEq] at hlz
  obtain ⟨rfl, rfl⟩ := hlz
  obtain ⟨hD, hu⟩ := hs.sound hz
  exact ⟨rfl, hD, hu⟩

omit hst in
theorem many_sound {n : ℕ} {s : Bytes} {l : List α} {z : β} {rest : Bytes}
    (h : many item start stop n s = .ok (l, z) rest) :
    l.length ≤ n ∧ (∀ a ∈ l, C a) ∧ D z ∧ s = l.flatMap r ++ t z ++ rest := by
  induction n generalizing s l with
  | zero =>
    cases s with
    | nil => cases h
    | cons b s =>
      simp only [many] at h
      split at h
      · cases h
      · obtain ⟨rfl, hz, hu⟩ := map_stop_sound hs h
        exact ⟨le_rfl, by simp, hz, hu⟩
  | succ n ih =>
    cases s with
    | nil => cases h
    | cons b s =>
      simp only [many] at h
      split at h
      · obtain ⟨a, rest', h1, h2⟩ := Res.bind_eq_ok h
        obtain ⟨⟨l', z'⟩, h3, h4⟩ := Res.map_eq_ok h2
        simp only [Prod.mk.injEq] at h4
        obtain ⟨rfl, rfl⟩ := h4
        obtain ⟨ha, hbs⟩ := hi.sound h1
        obtain ⟨hlen, hl, hz, rfl⟩ := ih h3
        refine ⟨by simpa using hlen, ?_, hz, ?_⟩
        · intro x hx
          rcases List.mem_cons.mp hx with rfl | hx
          · exact ha
          · exact hl x hx
        · rw [hbs, List.flatMap_cons]
          simp only [List.append_assoc]
      · obtain ⟨rfl, hz, hu⟩ := map_stop_sound hs h
        exact ⟨Nat.zero_le _, by simp, hz, hu⟩

/-- A bounded number of items. -/
theorem Codec.many (n : ℕ) : Codec (many item start stop n) (fun x => x.1.length ≤ n ∧ (∀ a ∈ x.1, C a) ∧ D x.2)
    (fun x => x.1.flatMap r ++ t x.2) where
  complete := fun rest ⟨hn, hl, hz⟩ => many_complete hi hs hst rest hn hl hz
  incomplete := fun ⟨hn, hl, hz⟩ hpre hne => many_incomplete hi hs hst (.inl hn) hl hz hpre hne
  sound := fun h =>
    have ⟨hn, hl, hz, heq⟩ := many_sound hi hs h
    ⟨⟨hn, hl, hz⟩, heq⟩

omit hi hs in
theorem length_le_flatMap {l : List α} (hl : ∀ a ∈ l, C a) : l.length ≤ (l.flatMap r).length := by
  induction l with
  | nil => exact Nat.zero_le _
  | cons a l ih =>
    obtain ⟨b, s, hb, -⟩ := hst.item a (hl a List.mem_cons_self)
    have := ih fun x hx => hl x (List.mem_cons_of_mem _ hx)
    simp only [List.flatMap_cons, hb, List.length_append, List.length_cons]
    omega

/-- Any number of items: there are no more than bytes. -/
theorem Codec.manyUnbounded : Codec (fun s => LbProxy.Lib.many item start stop s.length s)
    (fun x => (∀ a ∈ x.1, C a) ∧ D x.2) (fun x => x.1.flatMap r ++ t x.2) where
  complete := by
    rintro ⟨l, z⟩ rest ⟨hl, hz⟩
    have hlen : l.length ≤ (l.flatMap r).length := length_le_flatMap hst hl
    refine many_complete hi hs hst rest ?_ hl hz
    simp only [List.length_append]
    omega
  incomplete := fun ⟨hl, hz⟩ hpre hne => many_incomplete hi hs hst (.inr le_rfl) hl hz hpre hne
  sound := fun h =>
    have ⟨_, hl, hz, heq⟩ := many_sound hi hs h
    ⟨⟨hl, hz⟩, heq⟩

end Many

/-! ## Alternatives -/

section Alt

variable {α β : Type} {p : Bytes → Res α} {C : α → Prop} {r : α → Bytes}
variable {q : Bytes → Res β} {D : β → Prop} {t : β → Bytes} {start : UInt8 → Bool}

/-- One of two parsers; the next byte tells which. -/
def alt (start : UInt8 → Bool) (p : Bytes → Res α) (q : Bytes → Res β) : Bytes → Res (α ⊕ β)
  | [] => .more
  | b :: s => if start b then (p (b :: s)).map .inl else (q (b :: s)).map .inr

theorem Codec.alt (hp : Codec p C r) (hq : Codec q D t) (hst : Starts start C r D t) :
    Codec (alt start p q) (Sum.elim C D) (Sum.elim r t) where
  complete := by
    rintro (a | z) rest h
    · obtain ⟨b, s, hb, hstart⟩ := hst.item a h
      have := hp.complete rest h
      simp only [Sum.elim_inl, hb, List.cons_append] at this ⊢
      simp only [LbProxy.Lib.alt, hstart, if_true, this, Res.map_ok]
    · obtain ⟨b, s, hb, hstart⟩ := hst.stop z h
      have := hq.complete rest h
      simp only [Sum.elim_inr, hb, List.cons_append] at this ⊢
      simp only [LbProxy.Lib.alt, hstart, Bool.false_eq_true, if_false, this, Res.map_ok]
  incomplete := by
    rintro (a | z) u h hpre hne
    · cases u with
      | nil => rfl
      | cons c u =>
        obtain ⟨b, s, hb, hstart⟩ := hst.item a h
        simp only [Sum.elim_inl] at hpre hne
        have hc : c = b := (List.cons_prefix_cons.mp (hb ▸ hpre)).1
        simp only [LbProxy.Lib.alt, hc ▸ hstart, if_true, hp.incomplete h hpre hne, Res.map_more]
    · cases u with
      | nil => rfl
      | cons c u =>
        obtain ⟨b, s, hb, hstart⟩ := hst.stop z h
        simp only [Sum.elim_inr] at hpre hne
        have hc : c = b := (List.cons_prefix_cons.mp (hb ▸ hpre)).1
        simp only [LbProxy.Lib.alt, hc ▸ hstart, Bool.false_eq_true, if_false, hq.incomplete h hpre hne,
          Res.map_more]
  sound := by
    intro s x rest h
    cases s with
    | nil => cases h
    | cons b s =>
      simp only [LbProxy.Lib.alt] at h
      split at h
      · obtain ⟨a, ha, rfl⟩ := Res.map_eq_ok h
        exact hp.sound ha
      · obtain ⟨z, hz, rfl⟩ := Res.map_eq_ok h
        exact hq.sound hz

end Alt

/-! ## The pieces of a head -/

/-- A fixed string. -/
def literal : Bytes → Bytes → Res Unit
  | [], s => .ok () s
  | _ :: _, [] => .more
  | c :: w, b :: s => if b = c then literal w s else .bad

theorem literal_codec (w : Bytes) : Codec (literal w) (fun _ => True) (fun _ => w) where
  complete := by
    intro _ rest _
    induction w with
    | nil => rfl
    | cons c w ih => simpa only [List.cons_append, literal, if_true] using ih
  incomplete := by
    intro _ q _ hpre hne
    induction w generalizing q with
    | nil => exact absurd (List.prefix_nil.mp hpre) hne
    | cons c w ih =>
      cases q with
      | nil => rfl
      | cons b q =>
        obtain ⟨rfl, hq⟩ := List.cons_prefix_cons.mp hpre
        simpa only [literal, if_true] using ih hq fun h => hne (by rw [h])
  sound := by
    intro s _ rest h
    refine ⟨trivial, ?_⟩
    induction w generalizing s with
    | nil =>
      simp only [literal, Res.ok.injEq] at h
      exact h.2
    | cons c w ih =>
      cases s with
      | nil => cases h
      | cons b s =>
        simp only [literal] at h
        split at h
        · rename_i hb
          rw [hb, ih h, List.cons_append]
        · cases h

/-- One byte of a class. -/
def byte (P : UInt8 → Bool) : Bytes → Res UInt8
  | [] => .more
  | b :: s => if P b then .ok b s else .bad

theorem byte_codec (P : UInt8 → Bool) : Codec (byte P) (fun b => P b = true) (fun b => [b]) where
  complete := by
    intro b rest hb
    simp only [List.singleton_append, byte, hb, if_true]
  incomplete := by
    intro b q _ hpre hne
    cases q with
    | nil => rfl
    | cons c q =>
      obtain ⟨rfl, hq⟩ := List.cons_prefix_cons.mp hpre
      exact absurd (by rw [List.prefix_nil.mp hq]) hne
  sound := by
    intro s b rest h
    cases s with
    | nil => cases h
    | cons c s =>
      simp only [byte] at h
      split at h
      · rename_i hc
        simp only [Res.ok.injEq] at h
        obtain ⟨rfl, rfl⟩ := h
        exact ⟨hc, rfl⟩
      · cases h

/-- A line end. -/
def eol (s : Bytes) : Res Eol :=
  (alt (· == 10) (literal [10]) (literal [13, 10]) s).map (Sum.elim (fun _ => .lf) (fun _ => .crlf))

theorem eol_codec : Codec eol (fun _ => True) Eol.bytes := by
  refine ((literal_codec [10]).alt (literal_codec [13, 10])
    ⟨fun _ _ => ⟨10, [], rfl, by decide⟩, fun _ _ => ⟨13, [10], rfl, by decide⟩⟩).map _ ?_ ?_
  · rintro (_ | _) _ <;> exact ⟨trivial, rfl⟩
  · rintro (_ | _) _
    · exact ⟨.inr (), trivial, rfl⟩
    · exact ⟨.inl (), trivial, rfl⟩

/-- The first byte of a line end. -/
def isEolStart (b : UInt8) : Bool := b == 10 || b == 13

theorem Eol.bytes_start (e : Eol) : ∃ b s, e.bytes = b :: s ∧ isEolStart b = true := by
  cases e with
  | crlf => exact ⟨13, [10], rfl, by decide⟩
  | lf => exact ⟨10, [], rfl, by decide⟩

/-- Bytes of a class, and then `stop`. -/
def bytesThen {β : Type} (P : UInt8 → Bool) (stop : Bytes → Res β) (s : Bytes) : Res (Bytes × β) :=
  many (byte P) P stop s.length s

theorem bytesThen_codec {β : Type} {stop : Bytes → Res β} {D : β → Prop} {t : β → Bytes} (P : UInt8 → Bool)
    (hs : Codec stop D t) (hstart : ∀ z, D z → ∃ b s, t z = b :: s ∧ P b = false) :
    Codec (bytesThen P stop) (fun x => (∀ b ∈ x.1, P b = true) ∧ D x.2) (fun x => x.1 ++ t x.2) := by
  have h := Codec.manyUnbounded (byte_codec P) hs ⟨fun b hb => ⟨b, [], rfl, hb⟩, hstart⟩
  simp only [List.flatMap_singleton'] at h
  exact h

/-- The version of a head. -/
def version (s : Bytes) : Res (Fin 2) :=
  ((literal (ascii "HTTP/1.") s).bind fun u rest => (byte (fun b => b == 48 || b == 49) rest).map fun b => (u, b)).map
    fun x => if x.2 = 48 then 0 else 1

theorem version_codec : Codec version (fun _ => True) versionBytes := by
  refine ((literal_codec (ascii "HTTP/1.")).seq (byte_codec fun b => b == 48 || b == 49)).map _ ?_ ?_
  · rintro ⟨_, b⟩ ⟨-, hb⟩
    simp only [Bool.or_eq_true, beq_iff_eq] at hb
    rcases hb with rfl | rfl <;> exact ⟨trivial, rfl⟩
  · intro minor _
    rcases (by omega : minor = 0 ∨ minor = 1) with rfl | rfl
    · exact ⟨((), 48), ⟨trivial, by decide⟩, by decide⟩
    · exact ⟨((), 49), ⟨trivial, by decide⟩, by decide⟩

/-- The blanks before a value, the value, and the blanks after it. -/
def trimBlanks (raw : Bytes) : Bytes × Bytes × Bytes :=
  (raw.takeWhile isBlank, (raw.dropWhile isBlank).rdropWhile isBlank, (raw.dropWhile isBlank).rtakeWhile isBlank)

/-- A field line. -/
def fieldLine (s : Bytes) : Res FieldLayout :=
  (((bytesThen isToken (literal [58]) s).bind fun x rest => if !x.1.isEmpty then .ok x rest else .bad).bind
    fun x rest => (bytesThen isFieldByte eol rest).map fun y => (x, y)).map fun x =>
      ⟨x.1.1, (trimBlanks x.2.1).1, (trimBlanks x.2.1).2.1, (trimBlanks x.2.1).2.2, x.2.2⟩

theorem trimBlanks_append (raw : Bytes) :
    (trimBlanks raw).1 ++ (trimBlanks raw).2.1 ++ (trimBlanks raw).2.2 = raw := by
  unfold trimBlanks
  rw [List.append_assoc, List.rdropWhile_append_rtakeWhile, List.takeWhile_append_dropWhile]

theorem trimBlanks_eq {before value after : Bytes} (hb : ∀ b ∈ before, isBlank b) (ha : ∀ b ∈ after, isBlank b)
    (hhead : ∀ b ∈ value.head?, isBlank b = false) (hlast : ∀ b ∈ value.getLast?, isBlank b = false)
    (hnil : value = [] → after = []) : trimBlanks (before ++ value ++ after) = (before, value, after) := by
  have hstop : (value ++ after).takeWhile isBlank = [] ∧ (value ++ after).dropWhile isBlank = value ++ after := by
    cases value with
    | nil => simp [hnil rfl]
    | cons b v =>
      have : isBlank b = false := hhead b rfl
      simp [this]
  have hself : value.rdropWhile isBlank = value := by
    rw [List.rdropWhile_eq_self_iff]
    intro hne
    simp [hlast _ (List.getLast?_eq_getLast_of_ne_nil hne)]
  have hback : (value ++ after).rdropWhile isBlank = value := by
    rw [List.rdropWhile, List.reverse_append, List.dropWhile_append_of_pos (by simpa using ha)]
    exact hself
  have hafter : (value ++ after).rtakeWhile isBlank = after := by
    have h : (value ++ after).rdropWhile isBlank ++ (value ++ after).rtakeWhile isBlank = value ++ after :=
      List.rdropWhile_append_rtakeWhile
    rw [hback] at h
    exact List.append_cancel_left h
  unfold trimBlanks
  rw [List.append_assoc, List.takeWhile_append_of_pos hb, List.dropWhile_append_of_pos hb, hstop.1, hstop.2, hback,
    hafter, List.append_nil]

theorem fieldLine_codec : Codec fieldLine FieldLayout.WF FieldLayout.render := by
  have hname := bytesThen_codec isToken (literal_codec [58]) fun _ _ => ⟨58, [], rfl, by decide⟩
  have hvalue := bytesThen_codec isFieldByte eol_codec fun e _ => by
    cases e with
    | crlf => exact ⟨13, [10], rfl, by decide⟩
    | lf => exact ⟨10, [], rfl, by decide⟩
  refine ((hname.guard fun x => !x.1.isEmpty).seq hvalue).map _ ?_ ?_
  · rintro ⟨⟨name, _⟩, raw, e⟩ ⟨⟨⟨htoken, -⟩, hne⟩, hraw, -⟩
    have happ := trimBlanks_append raw
    have hmem : ∀ b ∈ (trimBlanks raw).2.1, b ∈ raw := by
      intro b hb
      rw [← happ]
      simp [hb]
    refine ⟨⟨by simpa using hne, htoken, fun b hb => List.mem_takeWhile_imp hb, fun b hb => List.mem_rtakeWhile_imp hb,
      fun b hb => hraw b (hmem b hb), fun b hb => head_trim hb, fun b hb => last_trim hb, ?_⟩, ?_⟩
    · intro h
      -- nothing but blanks is left, and the first of it is none
      have hall : ∀ b ∈ raw.dropWhile isBlank, isBlank b := List.rdropWhile_eq_nil_iff.mp h
      have hnil : raw.dropWhile isBlank = [] := by
        cases hd : raw.dropWhile isBlank with
        | nil => rfl
        | cons b s =>
          have := List.head?_dropWhile_not isBlank raw
          simp only [hd, List.head?_cons] at this
          exact absurd (hall b (by simp [hd])) (by simpa using this)
      show (raw.dropWhile isBlank).rtakeWhile isBlank = []
      rw [hnil, List.rtakeWhile_nil]
    · show name ++ 58 :: _ ++ e.bytes = (name ++ [58]) ++ (raw ++ e.bytes)
      rw [happ]
      simp
  · intro f hf
    refine ⟨((f.name, ()), (f.before ++ f.value ++ f.after, f.eol)), ⟨⟨⟨hf.name_token, trivial⟩, ?_⟩, ?_, trivial⟩, ?_⟩
    · simpa using hf.name_ne
    · intro b hb
      rcases List.mem_append.mp hb with hb | hb
      · rcases List.mem_append.mp hb with hb | hb
        · exact isFieldByte_of_isBlank (hf.before_blank b hb)
        · exact hf.value_bytes b hb
      · exact isFieldByte_of_isBlank (hf.after_blank b hb)
    · simp only [trimBlanks_eq hf.before_blank hf.after_blank hf.value_head hf.value_last hf.after_nil]

/-- The field lines and the empty line. -/
def fieldLines (slots : ℕ) (s : Bytes) : Res (List FieldLayout × Eol) := many fieldLine isToken eol slots s

theorem fieldLines_codec (slots : ℕ) : Codec (fieldLines slots)
    (fun x => x.1.length ≤ slots ∧ (∀ f ∈ x.1, f.WF) ∧ True) (fun x => renderFields x.1 ++ x.2.bytes) := by
  refine Codec.many fieldLine_codec eol_codec ⟨?_, ?_⟩ slots
  · intro f hf
    cases hn : f.name with
    | nil => exact absurd hn hf.name_ne
    | cons b s =>
      refine ⟨b, _, by simp only [FieldLayout.render, FieldLayout.line, hn, List.cons_append]; rfl, ?_⟩
      exact hf.name_token b (by simp [hn])
  · rintro (_ | _) _
    · exact ⟨13, [10], rfl, by decide⟩
    · exact ⟨10, [], rfl, by decide⟩

/-! ## The parser -/

/-- The empty lines before a head, and the head. -/
def withBlanks {β : Type} (p : Bytes → Res β) (s : Bytes) : Res (List Eol × β) := many eol isEolStart p s.length s

theorem withBlanks_codec {β : Type} {p : Bytes → Res β} {D : β → Prop} {t : β → Bytes} (hp : Codec p D t)
    (hstart : ∀ z, D z → ∃ b s, t z = b :: s ∧ isEolStart b = false) :
    Codec (withBlanks p) (fun x => (∀ a ∈ x.1, True) ∧ D x.2) (fun x => renderEols x.1 ++ t x.2) :=
  Codec.manyUnbounded eol_codec hp ⟨fun e _ => e.bytes_start, hstart⟩

/-- A non-empty method and the space after it. -/
def methodPart (s : Bytes) : Res (Bytes × Unit) :=
  (bytesThen isToken (literal [32]) s).bind fun x rest => if !x.1.isEmpty then .ok x rest else .bad

/-- A non-empty target and the space after it. -/
def targetPart (s : Bytes) : Res (Bytes × Unit) :=
  (bytesThen isTargetByte (literal [32]) s).bind fun x rest =>
    if !x.1.isEmpty && isUtf8 x.1 then .ok x rest else .bad

/-- The version, the line end, the fields and the empty line. -/
def requestTail (slots : ℕ) (s : Bytes) : Res ((Fin 2 × Eol) × (List FieldLayout × Eol)) :=
  ((version s).bind fun a rest => (eol rest).map fun b => (a, b)).bind fun a rest =>
    (fieldLines slots rest).map fun b => (a, b)

/-- A request head without the empty lines before it. -/
def requestCore (slots : ℕ) (s : Bytes) :
    Res ((Bytes × Unit) × (Bytes × Unit) × (Fin 2 × Eol) × (List FieldLayout × Eol)) :=
  (methodPart s).bind fun a rest =>
    ((targetPart rest).bind fun a rest => (requestTail slots rest).map fun b => (a, b)).map fun b => (a, b)

/-- A request head. -/
def requestHead (slots : ℕ) (s : Bytes) : Res RequestLayout :=
  (withBlanks (requestCore slots) s).map fun x =>
    ⟨x.1, x.2.1.1, x.2.2.1.1, x.2.2.2.1.1, x.2.2.2.1.2, x.2.2.2.2.1, x.2.2.2.2.2⟩

theorem isEolStart_of_isToken {b : UInt8} (h : isToken b) : isEolStart b = false := by
  simp only [isEolStart, Bool.or_eq_false_iff, beq_eq_false_iff_ne]
  constructor <;> rintro rfl <;> revert h <;> decide

theorem requestHead_codec (slots : ℕ) : Codec (requestHead slots)
    (fun l => l.fields.length ≤ slots ∧ l.WF) RequestLayout.render := by
  have hmethod := (bytesThen_codec isToken (literal_codec [32]) fun _ _ => ⟨32, [], rfl, by decide⟩).guard
    fun x => !x.1.isEmpty
  have htarget := (bytesThen_codec isTargetByte (literal_codec [32]) fun _ _ => ⟨32, [], rfl, by decide⟩).guard
    fun x => !x.1.isEmpty && isUtf8 x.1
  have htail := (version_codec.seq eol_codec).seq (fieldLines_codec slots)
  refine (withBlanks_codec (hmethod.seq (htarget.seq htail)) ?_).map _ ?_ ?_
  · rintro ⟨⟨m, _⟩, y⟩ ⟨⟨⟨htoken, -⟩, hne⟩, -⟩
    cases m with
    | nil => simp at hne
    | cons b m =>
      refine ⟨b, _, by simp only [List.cons_append]; rfl, ?_⟩
      exact isEolStart_of_isToken (htoken b List.mem_cons_self)
  · rintro ⟨blanks, ⟨m, _⟩, ⟨t, _⟩, ⟨v, e⟩, fs, last⟩
      ⟨-, ⟨⟨hm, -⟩, hmne⟩, ⟨⟨ht, -⟩, htne⟩, -, hlen, hfs, -⟩
    simp only [Bool.and_eq_true, Bool.not_eq_true', List.isEmpty_eq_false_iff] at hmne htne
    refine ⟨⟨hlen, ⟨hmne, hm, htne.1, ht, htne.2, hfs⟩⟩, ?_⟩
    simp only [RequestLayout.render, RequestLayout.line, List.append_assoc, List.cons_append, List.nil_append]
  · rintro l ⟨hlen, hwf⟩
    refine ⟨⟨l.blanks, (l.method, ()), (l.target, ()), (l.minor, l.eol), l.fields, l.last⟩,
      ⟨fun _ _ => trivial, ⟨⟨hwf.method_token, trivial⟩, ?_⟩, ⟨⟨hwf.target_bytes, trivial⟩, ?_⟩,
        ⟨trivial, trivial⟩, hlen, hwf.fields_wf, trivial⟩, rfl⟩
    · simpa using hwf.method_ne
    · simp [hwf.target_ne, hwf.target_utf8]

/-- Three digits. -/
def statusCode (s : Bytes) : Res (Fin 1000) :=
  ((byte isDigit s).bind fun a rest =>
    ((byte isDigit rest).bind fun a rest => (byte isDigit rest).map fun b => (a, b)).map fun b => (a, b)).map
      fun x => Fin.ofNat 1000 (100 * (x.1.toNat - 48) + 10 * (x.2.1.toNat - 48) + (x.2.2.toNat - 48))

theorem statusCode_codec : Codec statusCode (fun _ => True) codeBytes := by
  have hdigit := byte_codec isDigit
  have hrange : ∀ {b : UInt8}, isDigit b = true → 48 ≤ b.toNat ∧ b.toNat ≤ 57 := by
    intro b hb
    simpa [isDigit, UInt8.le_iff_toNat_le] using hb
  have hbyte : ∀ {b : UInt8} {n : ℕ}, isDigit b = true → n = b.toNat - 48 → 48 + UInt8.ofNat n = b := by
    intro b n hb hn
    have := hrange hb
    apply UInt8.toNat_inj.mp
    simp only [UInt8.toNat_add, UInt8.toNat_ofNat', UInt8.toNat_ofNat]
    omega
  refine (hdigit.seq (hdigit.seq hdigit)).map _ ?_ ?_
  · rintro ⟨a, b, c⟩ ⟨ha, hb, hc⟩
    refine ⟨trivial, ?_⟩
    have ha' : 48 ≤ a.toNat ∧ a.toNat ≤ 57 := hrange ha
    have hb' : 48 ≤ b.toNat ∧ b.toNat ≤ 57 := hrange hb
    have hc' : 48 ≤ c.toNat ∧ c.toNat ≤ 57 := hrange hc
    have hval : ((Fin.ofNat 1000 (100 * (a.toNat - 48) + 10 * (b.toNat - 48) + (c.toNat - 48)) : Fin 1000) : ℕ) =
        100 * (a.toNat - 48) + 10 * (b.toNat - 48) + (c.toNat - 48) := by
      rw [Fin.val_ofNat]
      omega
    simp only [codeBytes, hval, List.cons_append, List.nil_append, List.cons.injEq, and_true]
    exact ⟨hbyte ha (by omega), hbyte hb (by omega), hbyte hc (by omega)⟩
  · intro code _
    have hlt := code.isLt
    have hdig : ∀ n < 10, isDigit (48 + UInt8.ofNat n) = true ∧ (48 + UInt8.ofNat n).toNat - 48 = n := by decide
    have h1 := hdig (code / 100) (by omega)
    have h2 := hdig (code / 10 % 10) (by omega)
    have h3 := hdig (code % 10) (by omega)
    refine ⟨⟨48 + UInt8.ofNat (code / 100), 48 + UInt8.ofNat (code / 10 % 10), 48 + UInt8.ofNat (code % 10)⟩,
      ⟨h1.1, h2.1, h3.1⟩, ?_⟩
    simp only [h1.2, h2.2, h3.2]
    apply Fin.ext
    rw [Fin.val_ofNat]
    omega

/-- The reason phrase and the space before it, if there, and the line end. -/
def reasonPart (s : Bytes) : Res (Option Bytes × Eol) :=
  (alt (· == 32)
    (fun s => (literal [32] s).bind fun a rest => (bytesThen isFieldByte eol rest).map fun b => (a, b)) eol s).map
      (Sum.elim (fun x => (some x.2.1, x.2.2)) fun e => (none, e))

/-- What stands between the status code and the fields. -/
def reasonBytes (x : Option Bytes × Eol) : Bytes :=
  (match x.1 with
    | some reason => 32 :: reason
    | none => []) ++ x.2.bytes

theorem reasonPart_codec : Codec reasonPart (fun x => ∀ reason ∈ x.1, ∀ b ∈ reason, isFieldByte b) reasonBytes := by
  have hreason := bytesThen_codec isFieldByte eol_codec fun e _ => by
    cases e with
    | crlf => exact ⟨13, [10], rfl, by decide⟩
    | lf => exact ⟨10, [], rfl, by decide⟩
  refine (((literal_codec [32]).seq hreason).alt eol_codec ⟨?_, ?_⟩).map _ ?_ ?_
  · intro x _
    exact ⟨32, _, rfl, by decide⟩
  · rintro (_ | _) _
    · exact ⟨13, [10], rfl, by decide⟩
    · exact ⟨10, [], rfl, by decide⟩
  · rintro (⟨_, reason, e⟩ | e) h
    · obtain ⟨-, hbytes, -⟩ := h
      refine ⟨?_, rfl⟩
      rintro _ ⟨⟩
      exact hbytes
    · refine ⟨?_, rfl⟩
      rintro _ ⟨⟩
  · rintro ⟨_ | reason, e⟩ h
    · exact ⟨.inr e, trivial, rfl⟩
    · exact ⟨.inl ((), reason, e), ⟨trivial, h reason rfl, trivial⟩, rfl⟩

/-- The version, a space, the status code and the reason. -/
def statusLine (s : Bytes) : Res ((Fin 2 × Unit) × Fin 1000 × (Option Bytes × Eol)) :=
  ((version s).bind fun a rest => (literal [32] rest).map fun b => (a, b)).bind fun a rest =>
    ((statusCode rest).bind fun a rest => (reasonPart rest).map fun b => (a, b)).map fun b => (a, b)

/-- A response head without the empty lines before it. -/
def responseCore (slots : ℕ) (s : Bytes) :
    Res (((Fin 2 × Unit) × Fin 1000 × (Option Bytes × Eol)) × (List FieldLayout × Eol)) :=
  (statusLine s).bind fun a rest => (fieldLines slots rest).map fun b => (a, b)

/-- A response head. -/
def responseHead (slots : ℕ) (s : Bytes) : Res ResponseLayout :=
  (withBlanks (responseCore slots) s).map fun x =>
    ⟨x.1, x.2.1.1.1, x.2.1.2.1, x.2.1.2.2.1, x.2.1.2.2.2, x.2.2.1, x.2.2.2⟩

theorem responseHead_codec (slots : ℕ) : Codec (responseHead slots)
    (fun l => l.fields.length ≤ slots ∧ l.WF) ResponseLayout.render := by
  have hline := (version_codec.seq (literal_codec [32])).seq (statusCode_codec.seq reasonPart_codec)
  refine (withBlanks_codec (hline.seq (fieldLines_codec slots)) ?_).map _ ?_ ?_
  · intro x _
    exact ⟨72, _, rfl, by decide⟩
  · rintro ⟨blanks, ⟨⟨v, _⟩, c, reason, e⟩, fs, last⟩ ⟨-, ⟨-, -, hreason⟩, hlen, hfs, -⟩
    refine ⟨⟨hlen, ⟨hreason, hfs⟩⟩, ?_⟩
    cases reason <;>
      simp only [ResponseLayout.render, ResponseLayout.line, reasonBytes, List.append_assoc, List.cons_append,
        List.nil_append]
  · rintro l ⟨hlen, hwf⟩
    exact ⟨⟨l.blanks, ((l.minor, ()), l.code, l.reason, l.eol), l.fields, l.last⟩,
      ⟨fun _ _ => trivial, ⟨⟨trivial, trivial⟩, trivial, hwf.reason_bytes⟩, hlen, hwf.fields_wf, trivial⟩, rfl⟩

/-- What a push parser reports. -/
def Res.status {α β : Type} (raw : α → β) (s : Bytes) : Res α → HeadStatus β
  | .ok a rest => .complete (s.length - rest.length) (raw a)
  | .more => .incomplete
  | .bad => .error

theorem Res.status_eq_complete {α β : Type} {raw : α → β} {s : Bytes} {x : Res α} {n : ℕ} {b : β}
    (h : x.status raw s = .complete n b) : ∃ a rest, x = .ok a rest ∧ n = s.length - rest.length ∧ b = raw a := by
  cases x with
  | ok a rest =>
    simp only [Res.status, HeadStatus.complete.injEq] at h
    exact ⟨a, rest, rfl, h.1.symm, h.2.symm⟩
  | more => cases h
  | bad => cases h

namespace HeadParser

/-- A head parser put together from the pieces. -/
def reference : HeadParser where
  request slots s := (requestHead slots s).status RequestLayout.raw s
  response slots s := (responseHead slots s).status ResponseLayout.raw s

/-- **The reference parser does what a head parser documents.** -/
theorem reference_laws : reference.Laws where
  request_complete := by
    intro slots l rest hwf hlen
    have h := (requestHead_codec slots).complete rest ⟨hlen, hwf⟩
    simp only [reference, h, Res.status, List.length_append, Nat.add_sub_cancel]
  request_sound := by
    intro slots buf n raw h
    obtain ⟨l, rest, h1, rfl, rfl⟩ := Res.status_eq_complete h
    obtain ⟨⟨hlen, hwf⟩, rfl⟩ := (requestHead_codec slots).sound h1
    exact ⟨l, rest, hwf, hlen, rfl, by simp, rfl⟩
  request_incomplete := by
    intro slots l q hwf hlen hpre hne
    have h := (requestHead_codec slots).incomplete ⟨hlen, hwf⟩ hpre hne
    simp only [reference, h, Res.status]
  response_complete := by
    intro slots l rest hwf hlen
    have h := (responseHead_codec slots).complete rest ⟨hlen, hwf⟩
    simp only [reference, h, Res.status, List.length_append, Nat.add_sub_cancel]
  response_sound := by
    intro slots buf n raw h
    obtain ⟨l, rest, h1, rfl, rfl⟩ := Res.status_eq_complete h
    obtain ⟨⟨hlen, hwf⟩, rfl⟩ := (responseHead_codec slots).sound h1
    exact ⟨l, rest, hwf, hlen, rfl, by simp, rfl⟩
  response_incomplete := by
    intro slots l q hwf hlen hpre hne
    have h := (responseHead_codec slots).incomplete ⟨hlen, hwf⟩ hpre hne
    simp only [reference, h, Res.status]

-- the blanks around the value are not part of it, and the bytes behind the head are left alone
example : reference.request 1 (ascii "GET /a HTTP/1.1\r\nHost: b \r\n\r\nrest") =
    .complete 29 ⟨some (ascii "GET"), some (ascii "/a"), some 1, [(ascii "Host", ascii "b")]⟩ := by decide +kernel

end HeadParser

end LbProxy.Lib
