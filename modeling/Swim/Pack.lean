import Swim.Sign
import Swim.Packet

/-!
# Swim.Pack

`swimprotocol.udp.pack.UdpPack`: signed datagrams.

`pickle` is a parameter: `dumps` is total, and `loads` may raise or give an object that is not a
packet (`none`).

* `packPrefix`, `unpackPrefix` — the `struct.Struct('!BBI')`.
* `frame` — the part of `pack` after signing.
* `split` — the part of `unpack` before the verification; `loaded` — the payload it passes to
  `pickle.loads`, if any.
* `split_frame_append`, `unpack_pack` — what `pack` makes is unpacked to the packet, whatever bytes
  follow.
* `binds_iff` — the datagrams for which a verified payload is one that was signed.
-/

namespace Swim

/-- `data[start:stop]`. -/
def slice (data : Bytes) (start stop : Nat) : Bytes := (data.take stop).drop start

theorem slice_append (a b c : Bytes) {start stop : Nat} (ha : a.length = start)
    (hb : start + b.length = stop) : slice (a ++ (b ++ c)) start stop = b := by
  subst ha hb
  rw [slice, List.take_length_add_append, List.drop_left, List.take_left]

/-- `struct.Struct('!BBI').pack`. -/
def packPrefix (saltLen digestLen dataLen : Nat) : Except PyError Bytes :=
  if saltLen < 256 ∧ digestLen < 256 ∧ dataLen < 2 ^ 32 then
    .ok [.ofNat saltLen, .ofNat digestLen, .ofNat (dataLen / 2 ^ 24), .ofNat (dataLen / 2 ^ 16),
      .ofNat (dataLen / 2 ^ 8), .ofNat dataLen]
  else .error .struct

/-- `struct.Struct('!BBI').unpack`. -/
def unpackPrefix : Bytes → Except PyError (Nat × Nat × Nat)
  | [a, b, c, d, e, f] =>
    .ok (a.toNat, b.toNat, c.toNat * 2 ^ 24 + d.toNat * 2 ^ 16 + e.toNat * 2 ^ 8 + f.toNat)
  | _ => .error .struct

theorem packPrefix_ok {a b n : Nat} {p : Bytes} (h : packPrefix a b n = .ok p) :
    p.length = 6 ∧ unpackPrefix p = .ok (a, b, n) := by
  unfold packPrefix at h
  split at h
  · rename_i hlt
    cases h
    refine ⟨rfl, ?_⟩
    simp only [unpackPrefix, UInt8.toNat_ofNat', Except.ok.injEq, Prod.mk.injEq]
    omega
  · cases h

/-- `__init__` checks the size of `prefix_xor`. -/
structure UdpPack where
  signatures : Signatures
  prefixXor : Bytes
  size : prefixXor.length = 6

namespace UdpPack

/-- `zip` is strict: it raises for a prefix of another length. -/
def xorPrefix (P : UdpPack) (pre : Bytes) : Except PyError Bytes :=
  if pre.length = P.prefixXor.length then .ok (List.zipWith (· ^^^ ·) pre P.prefixXor)
  else .error .value

def frame (P : UdpPack) (sig : Signature) (pickled : Bytes) : Except PyError Bytes := do
  let pre ← packPrefix sig.salt.length sig.digest.length pickled.length
  let pre ← P.xorPrefix pre
  return pre ++ (sig.salt ++ (sig.digest ++ pickled))

/-- The signature and the payload, unless the lengths in the prefix are wrong. -/
def split (P : UdpPack) (data : Bytes) : Except PyError (Option (Signature × Bytes)) := do
  let pre ← P.xorPrefix (slice data 0 6)
  match unpackPrefix pre with
  | .error _ => return none
  | .ok (saltLen, digestLen, dataLen) =>
    let digestStart := 6 + saltLen
    let dataStart := digestStart + digestLen
    let dataEnd := dataStart + dataLen
    let salt := slice data 6 digestStart
    let digest := slice data digestStart dataStart
    let pickled := slice data dataStart dataEnd
    if digest.length ≠ P.signatures.digestSize ∨ pickled.length ≠ dataLen then return none
    else return some (⟨salt, digest⟩, pickled)

section

variable (hmac : Bytes → Bytes → String → Bytes)

/-- `salt` is the random salt `sign` takes. -/
def pack (P : UdpPack) (dumps : Packet → Bytes) (packet : Packet) (salt : Bytes) :
    Except PyError Bytes :=
  let pickled := dumps packet
  P.frame (P.signatures.sign hmac salt pickled) pickled

/-- What `unpack` passes to `pickle.loads`. -/
def loaded (P : UdpPack) (data : Bytes) : Except PyError (Option Bytes) := do
  match ← P.split data with
  | none => return none
  | some (sig, pickled) =>
    if P.signatures.verify hmac pickled sig then return some pickled else return none

def unpack (P : UdpPack) (loads : Bytes → Except PyError (Option Packet)) (data : Bytes) :
    Except PyError (Option Packet) := do
  match ← P.loaded hmac data with
  | none => return none
  | some pickled =>
    match ← loads pickled with
    | none => .error .assertion
    | some packet => return some packet

end

/-! ## Round trip -/

variable {hmac : Bytes → Bytes → String → Bytes} {P : UdpPack}

theorem xor_xor_cancel (a b : UInt8) : a ^^^ b ^^^ b = a := by
  rw [UInt8.xor_assoc, UInt8.xor_self, UInt8.xor_zero]

theorem zipWith_xor_cancel {p k : Bytes} (h : p.length = k.length) :
    List.zipWith (· ^^^ ·) (List.zipWith (· ^^^ ·) p k) k = p := by
  induction p generalizing k with
  | nil => rfl
  | cons a p ih =>
    cases k with
    | nil => cases h
    | cons b k =>
      rw [List.zipWith_cons_cons, List.zipWith_cons_cons, xor_xor_cancel,
        ih (Nat.succ.inj h)]

theorem xorPrefix_ok {p : Bytes} (h : p.length = 6) :
    ∃ q, P.xorPrefix p = .ok q ∧ q.length = 6 ∧ P.xorPrefix q = .ok p := by
  have hlen : p.length = P.prefixXor.length := h.trans P.size.symm
  have hq : (List.zipWith (· ^^^ ·) p P.prefixXor).length = 6 := by
    rw [List.length_zipWith, P.size, h, min_self]
  refine ⟨_, if_pos hlen, hq, ?_⟩
  rw [xorPrefix, if_pos (hq.trans P.size.symm), zipWith_xor_cancel hlen]

/-- Splitting what `frame` made gives back its parts, whatever the signature is and whatever
follows. -/
theorem split_frame_append {sig : Signature} {pickled data : Bytes}
    (h : P.frame sig pickled = .ok data) (hd : sig.digest.length = P.signatures.digestSize)
    (extra : Bytes) : P.split (data ++ extra) = .ok (some (sig, pickled)) := by
  rw [frame] at h
  cases hpre : packPrefix sig.salt.length sig.digest.length pickled.length with
  | error e => rw [hpre] at h; cases h
  | ok p =>
    obtain ⟨hp, hun⟩ := packPrefix_ok hpre
    obtain ⟨q, hq, hqlen, hback⟩ := @xorPrefix_ok P p hp
    have hdata : data ++ extra = q ++ (sig.salt ++ (sig.digest ++ (pickled ++ extra))) := by
      rw [hpre] at h
      simp only [bind, Except.bind, hq, pure, Except.pure] at h
      rw [← Except.ok.inj h, List.append_assoc, List.append_assoc, List.append_assoc]
    rw [hdata]
    have h0 : slice (q ++ (sig.salt ++ (sig.digest ++ (pickled ++ extra)))) 0 6 = q :=
      slice_append [] q _ rfl (by rw [hqlen])
    have h1 : slice (q ++ (sig.salt ++ (sig.digest ++ (pickled ++ extra)))) 6
        (6 + sig.salt.length) = sig.salt := slice_append q sig.salt _ hqlen rfl
    have h2 : slice (q ++ (sig.salt ++ (sig.digest ++ (pickled ++ extra))))
        (6 + sig.salt.length) (6 + sig.salt.length + sig.digest.length) = sig.digest := by
      rw [← List.append_assoc]
      exact slice_append _ sig.digest _ (by rw [List.length_append, hqlen]) rfl
    have h3 : slice (q ++ (sig.salt ++ (sig.digest ++ (pickled ++ extra))))
        (6 + sig.salt.length + sig.digest.length)
        (6 + sig.salt.length + sig.digest.length + pickled.length) = pickled := by
      rw [← List.append_assoc, ← List.append_assoc]
      exact slice_append _ pickled _
        (by rw [List.length_append, List.length_append, hqlen]) rfl
    simp only [split, h0, hback, hun, h1, h2, h3, bind, Except.bind, pure, Except.pure]
    exact if_neg (by simp [hd])

theorem split_frame {sig : Signature} {pickled data : Bytes}
    (h : P.frame sig pickled = .ok data) (hd : sig.digest.length = P.signatures.digestSize) :
    P.split data = .ok (some (sig, pickled)) := by
  rw [← split_frame_append h hd [], List.append_nil]

theorem frame_ok {sig : Signature} {pickled : Bytes} (hsalt : sig.salt.length < 256)
    (hdigest : sig.digest.length < 256) (hpickled : pickled.length < 2 ^ 32) :
    ∃ data, P.frame sig pickled = .ok data := by
  have hpre : ∃ p, packPrefix sig.salt.length sig.digest.length pickled.length = .ok p :=
    ⟨_, if_pos ⟨hsalt, hdigest, hpickled⟩⟩
  obtain ⟨p, hpre⟩ := hpre
  obtain ⟨q, hq, -⟩ := @xorPrefix_ok P p (packPrefix_ok hpre).1
  rw [frame, hpre]
  simp only [bind, Except.bind, hq]
  exact ⟨_, rfl⟩

/-- A packed packet is unpacked to itself by every holder of the same signatures, also when bytes
follow. -/
theorem unpack_pack {dumps : Packet → Bytes} {loads : Bytes → Except PyError (Option Packet)}
    {packet : Packet} {salt data : Bytes} (h : P.pack hmac dumps packet salt = .ok data)
    (hd : (P.signatures.sign hmac salt (dumps packet)).digest.length = P.signatures.digestSize)
    (hl : loads (dumps packet) = .ok (some packet)) (extra : Bytes) :
    P.unpack hmac loads (data ++ extra) = .ok (some packet) := by
  have hs := split_frame_append h hd extra
  simp only [unpack, loaded, hs, bind, Except.bind, pure, Except.pure, Signatures.verify_sign,
    if_true, hl]

/-! ## What a verified payload is -/

def Available (hmac : Bytes → Bytes → String → Bytes) (P : UdpPack) (history : Set Signing)
    (data : Bytes) : Prop :=
  ∀ sig pickled, P.split data = .ok (some (sig, pickled)) →
    ∃ h ∈ history, sig.digest = (h.signature hmac).digest

/-- Whatever holders of the secret have signed, the payload loaded from a datagram with one of
their digests was signed, under the version of the receiver. -/
def Binds (hmac : Bytes → Bytes → String → Bytes) (P : UdpPack) (versions : Set Bytes)
    (data : Bytes) : Prop :=
  ∀ history : Set Signing, (∀ h ∈ history, h.Honest P.signatures versions) →
    P.Available hmac history data → ∀ x, P.loaded hmac data = .ok (some x) →
      ∃ h ∈ history, h.signer.version = P.signatures.version ∧ h.data = x

theorem loaded_eq_some {data x : Bytes} : P.loaded hmac data = .ok (some x) ↔
    ∃ sig, P.split data = .ok (some (sig, x)) ∧ P.signatures.verify hmac x sig = true := by
  cases hs : P.split data with
  | error e => simp [loaded, hs, bind, Except.bind]
  | ok parts =>
    cases parts with
    | none => simp [loaded, hs, bind, Except.bind, pure, Except.pure]
    | some p =>
      obtain ⟨sig, y⟩ := p
      simp only [loaded, hs, bind, Except.bind, pure, Except.pure, Except.ok.injEq,
        Option.some.injEq, Prod.mk.injEq]
      constructor
      · intro h
        split at h
        · rename_i hv
          cases h
          exact ⟨sig, ⟨rfl, rfl⟩, hv⟩
        · cases h
      · rintro ⟨_, ⟨rfl, rfl⟩, hv⟩
        rw [if_pos hv]

/-- The version, salt and payload of a verified datagram start with a version in use only as the
receiver and `sign` would split them. -/
def OneSplit (P : UdpPack) (versions : Set Bytes) (sig : Signature) (x : Bytes) : Prop :=
  ∀ u ∈ versions, u <+: P.signatures.version ++ sig.salt ++ x →
    u.length + 16 ≤ (P.signatures.version ++ sig.salt ++ x).length →
      u = P.signatures.version ∧ sig.salt.length = 16

/-- **Signatures bind payloads** for exactly the datagrams whose salt has sixteen bytes and whose
signed bytes no other version in use could have signed. -/
theorem binds_iff (hmac : Bytes → Bytes → String → Bytes) (P : UdpPack) (versions : Set Bytes)
    (data : Bytes)
    (hinj : Function.Injective fun x => hmac P.signatures.secret x P.signatures.hashName) :
    P.Binds hmac versions data ↔ ∀ sig x, P.split data = .ok (some (sig, x)) →
      P.signatures.verify hmac x sig = true → P.OneSplit versions sig x := by
  constructor
  · intro h sig x hs hv u hu hpre hlen
    obtain ⟨rest, hrest⟩ := hpre
    -- the holder who runs `u` and signed the same bytes, split after sixteen bytes of salt
    let signing : Signing := ⟨{ P.signatures with version := u }, rest.take 16, rest.drop 16⟩
    have hrlen : 16 ≤ rest.length := by
      rw [← hrest, List.length_append] at hlen
      omega
    have hhonest : signing.Honest P.signatures versions :=
      ⟨⟨rfl, rfl⟩, hu, by rw [List.length_take]; omega⟩
    have hdigest : sig.digest = (signing.signature hmac).digest := by
      rw [Signatures.verify, beq_iff_eq] at hv
      rw [hv, ← hrest]
      show _ = hmac P.signatures.secret (u ++ rest.take 16 ++ rest.drop 16) _
      rw [List.append_assoc, List.take_append_drop]
    have havail : P.Available hmac {signing} data := by
      intro sig' x' hs'
      cases hs.symm.trans hs'
      exact ⟨signing, rfl, hdigest⟩
    obtain ⟨g, hg, hversion, hdata⟩ := h {signing} (by rintro g rfl; exact hhonest) havail x
      (loaded_eq_some.mpr ⟨sig, hs, hv⟩)
    cases hg
    have hversion' : u = P.signatures.version := hversion
    have hdata' : rest.drop 16 = x := hdata
    refine ⟨hversion', ?_⟩
    have htotal := congrArg List.length hrest
    have hxlen := congrArg List.length hdata'
    rw [hversion'] at htotal
    simp only [List.length_append, List.length_drop] at htotal hxlen
    omega
  · intro h history hhonest havail x hx
    obtain ⟨sig, hs, hv⟩ := loaded_eq_some.mp hx
    obtain ⟨g, hg, hdigest⟩ := havail sig x hs
    have hgood := hhonest g hg
    have hbytes := Signing.bytes_eq hinj hgood.shares hv hdigest
    have hlen := congrArg List.length hbytes
    simp only [List.length_append, hgood.salt] at hlen
    obtain ⟨hu, hsalt⟩ := h sig x hs hv g.signer.version hgood.version
      ⟨g.salt ++ g.data, by rw [hbytes, List.append_assoc]⟩
      (by simp only [List.length_append]; omega)
    refine ⟨g, hg, hu, ?_⟩
    rw [← hu, List.append_assoc, List.append_assoc] at hbytes
    have hrest := List.append_cancel_left hbytes
    exact (List.append_inj hrest (hsalt.trans hgood.salt.symm)).2.symm

/-! ## A moved boundary -/

/-- The pickle of a `Ping` from a node `a`. -/
def pingPickled : Bytes :=
  [128, 5, 149, 102, 0, 0, 0, 0, 0, 0, 0, 140, 19, 115, 119, 105, 109, 112, 114, 111, 116, 111,
    99, 111, 108, 46, 112, 97, 99, 107, 101, 116, 148, 140, 4, 80, 105, 110, 103, 148, 147, 148,
    41, 129, 148, 125, 148, 140, 6, 115, 111, 117, 114, 99, 101, 148, 104, 0, 140, 6, 83, 111,
    117, 114, 99, 101, 148, 147, 148, 41, 129, 148, 125, 148, 40, 140, 4, 110, 97, 109, 101, 148,
    140, 1, 97, 148, 140, 8, 118, 97, 108, 105, 100, 105, 116, 121, 148, 67, 8, 0, 0, 0, 0, 0, 0,
    0, 0, 148, 117, 98, 115, 98, 46]

def pingSalt : Bytes := [0, 1, 2, 3, 4, 5, 6, 7, 8, 9, 10, 11, 12, 13, 14, 15]

/-- Its HMAC-SHA256 under the secret `swim`. -/
def pingDigest : Bytes :=
  [66, 79, 92, 203, 175, 64, 205, 74, 122, 161, 245, 177, 181, 123, 166, 116, 168, 155, 157, 147,
    76, 164, 179, 146, 143, 3, 71, 225, 109, 129, 18, 231]

/-- An injective digest that is the real one on the signed bytes. -/
def pingHmac (_secret msg : Bytes) (_hashName : String) : Bytes :=
  if msg = version ++ pingSalt ++ pingPickled then pingDigest else List.replicate 33 0 ++ msg

/-- The datagram format of a cluster with the secret `swim`. -/
def swimPack : UdpPack where
  signatures := .init (fun _ => 32) [115, 119, 105, 109] "sha256" true
  prefixXor := [83, 87, 73, 77, 63, 33]
  size := rfl

theorem pingHmac_injective (secret : Bytes) (hashName : String) :
    Function.Injective fun x => pingHmac secret x hashName := by
  intro x y hxy
  have hlong : ∀ z : Bytes, pingDigest ≠ List.replicate 33 0 ++ z := by
    intro z hz
    have hlen := congrArg List.length hz
    rw [List.length_append, List.length_replicate] at hlen
    have hd : pingDigest.length = 32 := rfl
    omega
  simp only [pingHmac] at hxy
  split at hxy
  · split at hxy
    · rename_i hx hy; exact hx.trans hy.symm
    · exact absurd hxy (hlong y)
  · split at hxy
    · exact absurd hxy.symm (hlong x)
    · exact List.append_cancel_left hxy

theorem binds_iff_pinged :
    ∃ data, swimPack.frame ⟨pingSalt, pingDigest⟩ pingPickled = .ok data ∧
      (swimPack.Binds pingHmac {version} data ↔
        ∀ sig x, swimPack.split data = .ok (some (sig, x)) →
          swimPack.signatures.verify pingHmac x sig = true → swimPack.OneSplit {version} sig x) :=
  ⟨_, rfl, binds_iff pingHmac swimPack {version} _ (pingHmac_injective _ _)⟩

/-- The first byte of the signed payload is declared to be the last byte of the salt. -/
theorem not_binds : ¬ ∀ (hmac : Bytes → Bytes → String → Bytes) (P : UdpPack)
    (versions : Set Bytes) (data : Bytes),
    Function.Injective (fun x => hmac P.signatures.secret x P.signatures.hashName) →
      P.Binds hmac versions data := by
  intro h
  obtain ⟨data, hdata⟩ : ∃ data, swimPack.frame ⟨pingSalt ++ pingPickled.take 1, pingDigest⟩
      (pingPickled.drop 1) = .ok data := ⟨_, rfl⟩
  have hs := split_frame hdata rfl
  let signing : Signing := ⟨swimPack.signatures, pingSalt, pingPickled⟩
  have hdigest : pingDigest = (signing.signature pingHmac).digest := rfl
  have hverify : swimPack.signatures.verify pingHmac (pingPickled.drop 1)
      ⟨pingSalt ++ pingPickled.take 1, pingDigest⟩ = true := rfl
  obtain ⟨g, hg, -, hx⟩ := h pingHmac swimPack {version} data (pingHmac_injective _ _) {signing}
    (by rintro g rfl; exact ⟨⟨rfl, rfl⟩, rfl, rfl⟩)
    (by
      intro sig x hsx
      cases hs.symm.trans hsx
      exact ⟨signing, rfl, hdigest⟩)
    _ (loaded_eq_some.mpr ⟨_, hs, hverify⟩)
  cases hg
  exact absurd (congrArg List.length hx) (by decide)

end UdpPack

end Swim
