import CertPath.DistinguishedName
import CertPath.Error
import CertPath.Extension
import CertPath.KeyUsage
import CertPath.Signed
import CertPath.Der.Time

namespace CertPath

structure CertificateBody where
  serial : Bytes
  issuer : DistinguishedName
  notBefore : Int
  notAfter : Int
  subject : DistinguishedName
  publicKey : PublicKeyInfo
  extensions : List Extension
  deriving DecidableEq, Repr

namespace CertificateBody

def skipVersion (s : Bytes) : Option Bytes := do
  let (e, r) ← Der.element s
  if e.number ≠ 0 then some s
  else if e.cls ≠ .context then none
  else
    let _ ← Der.unsigned32 e.body
    some r

/-- A unique identifier, a bit string with tag `number`, may be missing. Its bits do not matter. -/
def skipIdentifier (number : Nat) (s : Bytes) : Option Bytes :=
  if s = [] then some s
  else do
    let (e, r) ← Der.element s
    if e.number ≠ number then some s
    else if e.cls ≠ .context || e.body = [] then none
    else some r

def validity (s : Bytes) : Option ((Int × Int) × Bytes) := do
  let (body, rest) ← Der.sequence s
  let (start, r) ← Der.time body
  let (stop, _) ← Der.time r
  some ((start, stop), rest)

def decode (s : Bytes) : Option ((Bytes × CertificateBody) × Bytes) := do
  let (body, rest) ← Der.sequence s
  let r ← skipVersion body
  let (serial, r) ← Der.integerBody r
  let (_, r) ← Algorithm.decode r
  let (issuer, r) ← DistinguishedName.decode r
  let ((notBefore, notAfter), r) ← validity r
  let (subject, r) ← DistinguishedName.decode r
  let (publicKey, r) ← PublicKeyInfo.decode r
  let r ← skipIdentifier 1 r
  let r ← skipIdentifier 2 r
  let extensions ← Extension.decodeTail 3 r
  some ((Bytes.before s rest,
    ⟨serial, issuer, notBefore, notAfter, subject, publicKey, extensions⟩), rest)

end CertificateBody

/-- A certificate, known by its encoding. Two certificates with the same encoding are the same. -/
structure Certificate where
  der : Bytes
  subject : DistinguishedName
  issuer : DistinguishedName
  serial : Bytes
  notBefore : Int
  notAfter : Int
  publicKey : Bytes
  keyUsage : Option KeyUsage
  extensions : List Extension
  deriving DecidableEq, Repr, Inhabited

namespace Certificate

def decodeSigned (s : Bytes) : Option ((Signed × CertificateBody) × Bytes) :=
  Signed.decode CertificateBody.decode s

/-- Reads the key usage. It must not be given twice, and must be readable if given. -/
def readKeyUsage (es : List Extension) : Option (Option KeyUsage) := do
  match ← Extension.unique es Der.Oid.keyUsage with
  | none => some none
  | some e => (KeyUsage.decode e.value).map some

def ofDer (input : Bytes) : Except TrustError Certificate :=
  match decodeSigned input with
  | none => .error (.der .certificate)
  | some ((_, body), rest) =>
    match readKeyUsage body.extensions with
    | none => .error (.parse body.subject.oneline .keyUsage)
    | some keyUsage =>
      .ok {
        der := Bytes.before input rest
        subject := body.subject
        issuer := body.issuer
        serial := body.serial
        notBefore := body.notBefore
        notAfter := body.notAfter
        publicKey := body.publicKey.raw
        keyUsage := keyUsage
        extensions := body.extensions
      }

def serialHex (c : Certificate) : String := c.serial.trimZeros.colonHex

def extensionValue (c : Certificate) (oid : String) : Option Bytes :=
  (c.extensions.find? (·.oid.text = oid)).map (·.value)

def criticalExtensions (c : Certificate) : List String :=
  ((c.extensions.filter (·.critical)).map (·.oid.text)).eraseDups.mergeSort fun a b ↦ !decide (b < a)

def hasCriticalExtension (c : Certificate) (oid : String) : Bool := c.criticalExtensions.contains oid

def shortName (c : Certificate) : String :=
  (["CN", "O", "OU"].findSome? c.subject.value?).getD "Unknown"

def signing (c : Certificate) : Bool :=
  c.keyUsage.any (·.contains (KeyUsage.digitalSignature ||| KeyUsage.keyEncipherment))

def nonRepudiation (c : Certificate) : Bool := c.keyUsage.any (·.contains KeyUsage.nonRepudiation)

def display (c : Certificate) : String :=
  c.subject.oneline ++ " (serial " ++ c.serialHex ++ ")"

end Certificate

end CertPath
