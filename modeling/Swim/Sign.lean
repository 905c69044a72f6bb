import Swim.Basic
import Mathlib.Data.Set.Basic
import Mathlib.Data.List.TakeDrop

/-!
# Swim.Sign

`swimprotocol.sign`: salted digests of byte strings.

The keyed digest `hmac.digest(secret, msg, hash_name)` and the digest sizes of `hashlib` are
parameters, and so is the random salt. The field `salt_len` of the source is never read: `sign`
always takes sixteen random bytes.

* `verify_sign` — what was signed verifies.
* `Signing` — a call of `sign`; `Signing.Shares` says that its caller holds the same secret.
* `resplit` — under an injective digest, a signed message with another salt and payload is the
  signed one, or the boundaries have moved.
-/

namespace Swim

/-- `__version__.encode('ascii')`. -/
def version : Bytes := [48, 46, 54, 46, 51]

structure Signature where
  salt : Bytes
  digest : Bytes
  deriving DecidableEq

structure Signatures where
  secret : Bytes
  hashName : String
  digestSize : Nat
  version : Bytes

namespace Signatures

/-- `__init__`, for a secret that is a byte string. -/
def init (digestSize : String → Nat) (secret : Bytes) (hashName : String) (checkVersion : Bool) :
    Signatures where
  secret := secret
  hashName := hashName
  digestSize := digestSize hashName
  version := if checkVersion then Swim.version else []

variable (hmac : Bytes → Bytes → String → Bytes)

/-- `salt` is the value of `secrets.token_bytes(16)`. -/
def sign (S : Signatures) (salt data : Bytes) : Signature :=
  let saltedData := S.version ++ salt ++ data
  ⟨salt, hmac S.secret saltedData S.hashName⟩

def verify (S : Signatures) (data : Bytes) (sig : Signature) : Bool :=
  let saltedData := S.version ++ sig.salt ++ data
  sig.digest == hmac S.secret saltedData S.hashName

theorem verify_sign (S : Signatures) (salt data : Bytes) :
    S.verify hmac data (S.sign hmac salt data) = true := by
  rw [verify, sign, beq_self_eq_true]

structure Shares (S T : Signatures) : Prop where
  secret : T.secret = S.secret
  hashName : T.hashName = S.hashName

end Signatures

structure Signing where
  signer : Signatures
  salt : Bytes
  data : Bytes

namespace Signing

variable {hmac : Bytes → Bytes → String → Bytes} {S : Signatures} {h : Signing}

def signature (hmac : Bytes → Bytes → String → Bytes) (h : Signing) : Signature :=
  h.signer.sign hmac h.salt h.data

/-- A call by a holder of the secret of `S` that runs one of the given versions. -/
structure Honest (S : Signatures) (versions : Set Bytes) (h : Signing) : Prop where
  shares : S.Shares h.signer
  version : h.signer.version ∈ versions
  salt : h.salt.length = 16

/-- Under an injective digest, a signature that verifies and has the digest of a signing has the
signing's bytes: only the boundaries between version, salt and data may have moved. -/
theorem bytes_eq (hinj : Function.Injective fun x => hmac S.secret x S.hashName)
    (hshares : S.Shares h.signer) {sig : Signature} {x : Bytes} (hv : S.verify hmac x sig = true)
    (hd : sig.digest = (h.signature hmac).digest) :
    S.version ++ sig.salt ++ x = h.signer.version ++ h.salt ++ h.data := by
  rw [Signatures.verify, beq_iff_eq, hd, signature, Signatures.sign, hshares.secret,
    hshares.hashName] at hv
  exact (hinj hv).symm

end Signing

end Swim
