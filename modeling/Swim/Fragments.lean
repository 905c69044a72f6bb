import Swim.Protocol

/-!
# Swim.Fragments

`UdpPack.unpack` on any bytes at all: datagrams from anyone, and connections that were cut.

* `split_total`      — from six bytes on every step before the signature tolerates every length.
* `split_incomplete` — a datagram without its end has too short a payload.
* `safe_iff`         — so `unpack` raises nothing and accepts no fragment, exactly from six bytes
  on: a shorter prefix has another length than its mask, and the strict `zip` raises.
* `lost_short`       — a connection closed before its sixth byte is one way to get there.
-/

namespace Swim

theorem length_slice (data : Bytes) (start stop : Nat) :
    (slice data start stop).length = min stop data.length - start := by
  rw [slice, List.length_drop, List.length_take]

theorem slice_of_append (a b : Bytes) {start stop : Nat} (h : stop ≤ a.length) :
    slice (a ++ b) start stop = slice a start stop := by
  rw [slice, slice, List.take_append_of_le_length h]

theorem unpackPrefix_total {p : Bytes} (h : p.length = 6) : ∃ lens, unpackPrefix p = .ok lens := by
  obtain ⟨a, b, c, d, e, f, rfl⟩ : ∃ a b c d e f, p = [a, b, c, d, e, f] := by
    match p, h with
    | [a, b, c, d, e, f], _ => exact ⟨a, b, c, d, e, f, rfl⟩
  exact ⟨_, rfl⟩

namespace UdpPack

variable {hmac : Bytes → Bytes → String → Bytes} {P : UdpPack} {data d pickled : Bytes}
  {sig : Signature}

theorem split_short (h : data.length < 6) : P.split data = .error .value := by
  have hlen : (slice data 0 6).length ≠ P.prefixXor.length := by
    rw [length_slice, P.size]
    omega
  rw [split, xorPrefix, if_neg hlen]
  rfl

/-- Six bytes are a prefix, and whatever lengths it declares, the slices are compared with them. -/
theorem split_total (h : 6 ≤ data.length) : ∃ parts, P.split data = .ok parts := by
  have hlen : (slice data 0 6).length = 6 := by
    rw [length_slice]
    omega
  obtain ⟨q, hq, hqlen, -⟩ := @xorPrefix_ok P _ hlen
  obtain ⟨⟨saltLen, digestLen, dataLen⟩, hun⟩ := unpackPrefix_total hqlen
  simp only [split, hq, hun, bind, Except.bind, pure, Except.pure]
  split
  · exact ⟨_, rfl⟩
  · exact ⟨_, rfl⟩

/-- Without its end a datagram has too short a payload. -/
theorem split_incomplete (h : P.frame sig pickled = .ok data) (hne : pickled ≠ [])
    (hd : d <+: data) (hlt : d.length < data.length) (h6 : 6 ≤ d.length) :
    P.split d = .ok none := by
  rw [frame] at h
  cases hpre : packPrefix sig.salt.length sig.digest.length pickled.length with
  | error e => rw [hpre] at h; cases h
  | ok p =>
    obtain ⟨hp, hun⟩ := packPrefix_ok hpre
    obtain ⟨q, hq, hqlen, hback⟩ := @xorPrefix_ok P p hp
    rw [hpre] at h
    simp only [bind, Except.bind, hq, pure, Except.pure] at h
    have hdata : data = q ++ (sig.salt ++ (sig.digest ++ pickled)) := (Except.ok.inj h).symm
    obtain ⟨rest, hrest⟩ := hd
    -- the prefix is whole, as are the lengths it declares
    have h0 : slice d 0 6 = q := by
      rw [← slice_of_append d rest h6, hrest, hdata]
      exact slice_append [] q _ rfl (by rw [hqlen])
    have hlen : data.length = 6 + sig.salt.length + sig.digest.length + pickled.length := by
      rw [hdata]
      simp only [List.length_append, hqlen]
      omega
    have hpos := List.length_pos_iff.mpr hne
    have hshort : (slice d (6 + sig.salt.length + sig.digest.length)
        (6 + sig.salt.length + sig.digest.length + pickled.length)).length ≠ pickled.length := by
      rw [length_slice]
      omega
    simp only [split, h0, hback, hun, bind, Except.bind, pure, Except.pure]
    exact if_pos (Or.inr hshort)

/-- `unpack` raises nothing, and gives nothing for what is a datagram without its end. -/
structure Safe (hmac : Bytes → Bytes → String → Bytes) (P : UdpPack) (dumps : Packet → Bytes)
    (loads : Bytes → Except PyError (Option Packet)) (d : Bytes) : Prop where
  returns : ∃ o, P.unpack hmac loads d = .ok o
  fragment : ∀ packet salt data, P.pack hmac dumps packet salt = .ok data → d <+: data →
    d ≠ data → P.unpack hmac loads d = .ok none

theorem unpack_of_split_none {loads : Bytes → Except PyError (Option Packet)}
    (h : P.split d = .ok none) : P.unpack hmac loads d = .ok none := by
  simp only [unpack, loaded, h, bind, Except.bind, pure, Except.pure]

theorem unpack_total {loads : Bytes → Except PyError (Option Packet)}
    (hloads : ∀ x, P.loaded hmac d = .ok (some x) → ∃ packet, loads x = .ok (some packet))
    (h : 6 ≤ d.length) : ∃ o, P.unpack hmac loads d = .ok o := by
  obtain ⟨parts, hs⟩ := @split_total P d h
  obtain ⟨o, ho⟩ : ∃ o, P.loaded hmac d = .ok o := by
    simp only [loaded, hs, bind, Except.bind, pure, Except.pure]
    cases parts with
    | none => exact ⟨_, rfl⟩
    | some p =>
      dsimp only
      split
      · exact ⟨_, rfl⟩
      · exact ⟨_, rfl⟩
  cases o with
  | none => exact ⟨none, by simp only [unpack, ho, bind, Except.bind, pure, Except.pure]⟩
  | some x =>
    obtain ⟨packet, hx⟩ := hloads x ho
    exact ⟨some packet, by simp only [unpack, ho, hx, bind, Except.bind, pure, Except.pure]⟩

/-- **Robustness.** For every datagram whose verified payload, if it has one, is loaded as a packet
(`unpack` asserts that what `pickle.loads` returns is a `Packet`): `unpack` is safe exactly from six
bytes on. -/
theorem safe_iff (hmac : Bytes → Bytes → String → Bytes) (P : UdpPack) (dumps : Packet → Bytes)
    (loads : Bytes → Except PyError (Option Packet)) (d : Bytes)
    (hdumps : ∀ packet, dumps packet ≠ [])
    (hloads : ∀ x, P.loaded hmac d = .ok (some x) → ∃ packet, loads x = .ok (some packet)) :
    P.Safe hmac dumps loads d ↔ 6 ≤ d.length := by
  constructor
  · intro h
    by_contra hshort
    obtain ⟨o, ho⟩ := h.returns
    have hs := @split_short P d (by omega)
    simp only [unpack, loaded, hs, bind, Except.bind] at ho
    cases ho
  · intro h6
    refine ⟨unpack_total hloads h6, fun packet salt data hpack hd hne => unpack_of_split_none ?_⟩
    obtain ⟨rest, hrest⟩ := hd
    have hlt : d.length < data.length := by
      have hlen := congrArg List.length hrest
      rw [List.length_append] at hlen
      have hpos : rest.length ≠ 0 := by
        intro hz
        rw [List.length_eq_zero_iff.mp hz, List.append_nil] at hrest
        exact hne hrest
      omega
    exact split_incomplete hpack (hdumps packet) ⟨rest, hrest⟩ hlt h6

open Receiver (pingPacket pingLoads)

theorem safe_iff_pinged : ∃ data, swimPack.frame ⟨pingSalt, pingDigest⟩ pingPickled = .ok data ∧
    (swimPack.Safe pingHmac (fun _ => pingPickled) pingLoads data ↔ 6 ≤ data.length) := by
  obtain ⟨data, hdata⟩ : ∃ data, swimPack.frame ⟨pingSalt, pingDigest⟩ pingPickled = .ok data :=
    ⟨_, rfl⟩
  have hs := split_frame hdata rfl
  refine ⟨data, hdata, safe_iff pingHmac swimPack (fun _ => pingPickled) pingLoads data
    (fun _ => List.cons_ne_nil _ _) ?_⟩
  intro x hx
  obtain ⟨sig, hsx, -⟩ := loaded_eq_some.mp hx
  cases hs.symm.trans hsx
  exact ⟨pingPacket, if_pos rfl⟩

/-- A connection that is closed without an error before its sixth byte: `handle_packet` gets data
for which `unpack` raises. -/
theorem lost_short (loads : Bytes → Except PyError (Option Packet)) (R : Receiver) (c : Connection)
    (h : (R.buf c).length < 6) :
    R.buf c ∈ (R.connectionLost c false).running ∧
      P.unpack hmac loads (R.buf c) = .error .value := by
  refine ⟨List.mem_append_right _ (List.mem_singleton_self _), ?_⟩
  simp only [unpack, loaded, split_short h, bind, Except.bind]

/-- No data at all raises. -/
theorem not_safe : ¬ ∀ (hmac : Bytes → Bytes → String → Bytes) (P : UdpPack)
    (dumps : Packet → Bytes) (loads : Bytes → Except PyError (Option Packet)) (d : Bytes),
    (∀ packet, dumps packet ≠ []) →
      (∀ x, P.loaded hmac d = .ok (some x) → ∃ packet, loads x = .ok (some packet)) →
        P.Safe hmac dumps loads d := by
  intro h
  have hs := @split_short swimPack [] (by decide)
  have hsafe := h pingHmac swimPack (fun _ => pingPickled) pingLoads []
    (fun _ => List.cons_ne_nil _ _) (by
      intro x hx
      obtain ⟨sig, hsx, -⟩ := loaded_eq_some.mp hx
      rw [hs] at hsx; cases hsx)
  obtain ⟨o, ho⟩ := hsafe.returns
  simp only [unpack, loaded, hs, bind, Except.bind] at ho
  cases ho

end UdpPack
end Swim
