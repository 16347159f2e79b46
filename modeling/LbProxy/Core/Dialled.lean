import LbProxy.Core.EndpointStore
import LbProxy.Lib.SocketAddr

/-!
# Dialling a resolved endpoint (`gateway.rs`, `target.rs`)

`resolve` writes the address and the port of a ready endpoint into one text, which `socket_addr` parses.

* `BackendEndpoint.socketAddr` — the socket address of an endpoint;
* `readNumber_displayNat` — a port is read back from its text;
* `resolved_dialled_iff` — the text is read back as the address and the port exactly for IPv4.
-/

namespace LbProxy.Core

open Lib

/-- The address as a `SocketAddr`, for data planes that dial directly. -/
def BackendEndpoint.socketAddr (e : BackendEndpoint) : Option SocketAddr := parseSocketAddr e.address

/-! ## Ports as text -/

open AddrParser

theorem toDigit_ofDigit {c : Char} (hc : c.isDigit) : toDigit 10 (UInt8.ofNat c.toNat) = some (c.toNat - 48) := by
  simp only [Char.isDigit, Bool.and_eq_true, decide_eq_true_eq, ge_iff_le, UInt32.le_iff_toNat_le] at hc
  have h0 : 48 ≤ c.toNat := hc.1
  have h9 : c.toNat ≤ 57 := hc.2
  have hval : (UInt8.ofNat c.toNat).toNat = c.toNat := by simp; omega
  unfold toDigit
  have hrange : (48 : UInt8) ≤ UInt8.ofNat c.toNat ∧ UInt8.ofNat c.toNat ≤ 57 := by
    simp only [UInt8.le_iff_toNat_le, hval]
    exact ⟨h0, h9⟩
  rw [if_pos hrange, hval]
  simp only [Option.filter_some, ite_eq_left_iff]
  intro h
  simp at h
  omega

theorem digits_map {l : List Char} (hl : ∀ c ∈ l, c.isDigit) :
    (∀ b ∈ l.map (fun c => UInt8.ofNat c.toNat), (toDigit 10 b).isSome = true) ∧
      digitsIn 10 (l.map fun c => UInt8.ofNat c.toNat) = Nat.ofDigitChars 10 l 0 := by
  refine ⟨fun b hb => ?_, ?_⟩
  · obtain ⟨c, hc, rfl⟩ := List.mem_map.mp hb
    rw [toDigit_ofDigit (hl c hc)]
    rfl
  · have hfold : ∀ n, (l.map fun c => UInt8.ofNat c.toNat).foldl (fun n b => 10 * n + (toDigit 10 b).getD 0) n =
        Nat.ofDigitChars 10 l n := by
      induction l with
      | nil => simp
      | cons c l ih =>
        intro n
        rw [List.map_cons, List.foldl_cons, toDigit_ofDigit (hl c (by simp)), Nat.ofDigitChars_cons,
          ih fun d hd => hl d (List.mem_cons_of_mem _ hd)]
        rfl
    exact hfold 0

/-- **A port is read back from its text.** -/
theorem readNumber_displayNat {n : ℕ} (h : n < 65536) :
    readNumber 10 none true 65536 (displayNat n) = some (n, []) := by
  have hdigits : ∀ c ∈ Nat.toDigits 10 n, c.isDigit := fun c hc => Nat.isDigit_of_mem_toDigits (by omega) (by omega) hc
  obtain ⟨hall, hvalue⟩ := digits_map hdigits
  rw [Nat.ofDigitChars_ten_toDigits] at hvalue
  have hall : ∀ b ∈ displayNat n, (toDigit 10 b).isSome = true := hall
  have hvalue : digitsIn 10 (displayNat n) = n := hvalue
  have hne : displayNat n ≠ [] := by simp [displayNat]
  have htake : (displayNat n).takeWhile (fun b => (toDigit 10 b).isSome) = displayNat n :=
    List.takeWhile_eq_self_iff.mpr hall
  have hdrop : (displayNat n).dropWhile (fun b => (toDigit 10 b).isSome) = [] := List.dropWhile_eq_nil_iff.mpr hall
  simp [readNumber, htake, hdrop, hvalue, hne, h]

/-! ## Resolved endpoints -/

/-- **A resolved endpoint can be dialled exactly if its address is an IPv4 one.** -/
theorem resolved_dialled_iff (st : ClusterState) (routeNs : Bytes) (backend : BackendRef) {eps : List ReadyEndpoint}
    (heps : st.endpoints.lookup (backend.ns.getD routeNs, backend.name) = some eps) {e : ReadyEndpoint} (he : e ∈ eps)
    (hbackend : e.port = backend.port.getD 80) (hport : 1 ≤ e.port ∧ e.port ≤ 65535) {ip : IpAddr}
    (hip : parseIpAddr e.address = some ip) :
    backend.endpointAt e.address ∈ st.resolve routeNs backend ∧
      ((backend.endpointAt e.address).socketAddr = some (.new ip (UInt16.ofNat e.port.toNat)) ↔ ip.isIpv4 = true) := by
  refine ⟨?_, ?_⟩
  · have hany : (eps.any fun e => e.port = backend.port.getD 80) = true :=
      List.any_eq_true.mpr ⟨e, he, by simpa using hbackend⟩
    simp only [ClusterState.resolve, heps, hany, if_true]
    refine List.mem_map.mpr ⟨e, List.mem_filter.mpr ⟨he, by simpa using hbackend⟩, ?_⟩
    rw [BackendRef.endpointAt, hbackend]
  · have htext : (backend.endpointAt e.address).address = e.address ++ 58 :: displayNat e.port.toNat := by
      have hnat : e.port.natAbs = e.port.toNat := by omega
      rw [BackendRef.endpointAt, ← hbackend, displayInt, if_neg (by omega), hnat, List.append_assoc]
      rfl
    have hparsed := parseSocketAddr_append hip (readNumber_displayNat (by omega : e.port.toNat < 65536))
    rw [BackendEndpoint.socketAddr, htext, hparsed]
    cases ip.isIpv4 <;> simp

/-- The state after one slice of the Service `svc`, with one ready address on port 80. -/
def oneSlice (address : String) : ClusterState :=
  (watchEndpointslices ⟨∅, ∅⟩ (.apply (sampleSlice (ascii "svc-1") (ascii "svc") (ascii address)))).1

theorem resolved_dialled_iff_v4 :
    (⟨ascii "svc", none, none, none⟩ : BackendRef).endpointAt (ascii "10.0.0.1") ∈
        (oneSlice "10.0.0.1").resolve (ascii "default") ⟨ascii "svc", none, none, none⟩ ∧
      (((⟨ascii "svc", none, none, none⟩ : BackendRef).endpointAt (ascii "10.0.0.1")).socketAddr =
        some (.new (.v4 10 0 0 1) (UInt16.ofNat (80 : ℤ).toNat)) ↔ (IpAddr.v4 10 0 0 1).isIpv4 = true) :=
  resolved_dialled_iff (oneSlice "10.0.0.1") (ascii "default") ⟨ascii "svc", none, none, none⟩
    (by decide +kernel : _ = some [⟨ascii "10.0.0.1", 80⟩]) (List.mem_singleton.mpr rfl) (by decide) (by decide)
    (by decide +kernel)

/-- A slice carries an IPv6 address without brackets, and the endpoint made of it has no socket address. -/
theorem ipv6_endpoint_not_dialled :
    ¬ ∀ (st : ClusterState) (routeNs : Bytes) (backend : BackendRef) (eps : List ReadyEndpoint) (e : ReadyEndpoint)
      (ip : IpAddr), st.endpoints.lookup (backend.ns.getD routeNs, backend.name) = some eps → e ∈ eps →
        e.port = backend.port.getD 80 → 1 ≤ e.port ∧ e.port ≤ 65535 → parseIpAddr e.address = some ip →
          (backend.endpointAt e.address).socketAddr = some (.new ip (UInt16.ofNat e.port.toNat)) := by
  intro h
  have hip : parseIpAddr (ascii "fd00::1") = some (.v6 #v[0xFD00, 0, 0, 0, 0, 0, 0, 1]) := by decide +kernel
  have hdial := h (oneSlice "fd00::1") (ascii "default") ⟨ascii "svc", none, none, none⟩ [⟨ascii "fd00::1", 80⟩]
    ⟨ascii "fd00::1", 80⟩ _ (by decide +kernel) (by decide) (by decide) (by decide) hip
  have hnone : ((⟨ascii "svc", none, none, none⟩ : BackendRef).endpointAt (ascii "fd00::1")).socketAddr = none := by
    decide +kernel
  rw [hnone] at hdial
  cases hdial

end LbProxy.Core
