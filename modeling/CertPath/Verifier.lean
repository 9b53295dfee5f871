import CertPath.RevocationList
import CertPath.Signature.Ecdsa
import CertPath.Signature.Ed25519
import CertPath.Signature.Rsa

namespace CertPath

/-- Why a signature does not hold: it was not made with the key, or it could not be checked. -/
inductive SignatureFailure
  | mismatch
  | other (p : SignatureProblem)
  deriving DecidableEq, Repr

def SignatureFailure.text : SignatureFailure → String
  | mismatch => "signature does not match key"
  | other p => p.text

structure Verifier where
  certificate : Certificate → Bytes → Except SignatureFailure Unit
  revocationList : RevocationList → Bytes → Except SignatureFailure Unit

namespace Signature

def families : List (String × List String) :=
  [("1.2.840.113549.1.1.", ["1.2.840.113549.1.1.1", "1.2.840.113549.1.1.10"]),
    ("1.2.840.10045.4.", ["1.2.840.10045.2.1"])]

def own : List String := ["1.3.101.112", "1.3.101.113"]

/-- Whether a key of type `key` can have made a signature of algorithm `signature`. What belongs to
no known family is let pass. -/
def fits (signature key : String) : Bool :=
  match families.find? fun f ↦ f.1.toList.isPrefixOf signature.toList with
  | some f => f.2.contains key
  | none => !own.contains signature || key = signature

def curveOf (a : Algorithm) : Option Ecdsa.Curve := do
  let e ← a.parameters
  if e.body = Der.Oid.curveP256.octets then some Ecdsa.p256
  else if e.body = Der.Oid.curveP384.octets then some Ecdsa.p384
  else none

def check (algorithm : Der.Oid) (key : Algorithm) : Option (Bytes → Bytes → Bytes → Bool) :=
  if algorithm = Der.Oid.sha1WithRsa ∨ algorithm = Der.Oid.sha1WithRsaLegacy then
    some (Rsa.verify Rsa.sha1)
  else if algorithm = Der.Oid.sha256WithRsa then some (Rsa.verify Rsa.sha256)
  else if algorithm = Der.Oid.sha384WithRsa then some (Rsa.verify Rsa.sha384)
  else if algorithm = Der.Oid.sha512WithRsa then some (Rsa.verify Rsa.sha512)
  else if algorithm = Der.Oid.ecdsaWithSha256 then
    (curveOf key).map fun c ↦ c.verify Digest.sha256
  else if algorithm = Der.Oid.ecdsaWithSha384 then
    (curveOf key).map fun c ↦ c.verify Digest.sha384
  else if algorithm = Der.Oid.ed25519 then some Ed25519.verify
  else none

def verify (s : Signed) (key : Bytes) : Except SignatureFailure Unit :=
  match PublicKeyInfo.decode key with
  | none => .error (.other .publicKey)
  | some (k, _) =>
    if fits s.algorithm.oid.text k.algorithm.oid.text then
      match check s.algorithm.oid k.algorithm with
      | none => .error (.other .unsupportedAlgorithm)
      | some f => if f k.key s.content s.signature then .ok () else .error .mismatch
    else .error .mismatch

end Signature

def Verifier.standard : Verifier where
  certificate c key :=
    match Certificate.decodeSigned c.der with
    | none => .error (.other .certificate)
    | some ((s, _), _) => Signature.verify s key
  revocationList l key :=
    match RevocationList.decodeSigned l.der with
    | none => .error (.other .revocationList)
    | some ((s, _), _) => Signature.verify s key

end CertPath
