import CertPath.Pem

namespace CertPath

structure RevokedEntry where
  serial : Bytes
  reason : String
  deriving DecidableEq, Repr

namespace RevokedEntry

def reasons : List (Nat × String) :=
  [(1, "keyCompromise"), (2, "cACompromise"), (3, "affiliationChanged"), (4, "superseded"),
    (5, "cessationOfOperation"), (6, "certificateHold"), (8, "removeFromCRL"),
    (9, "privilegeWithdrawn"), (10, "aACompromise")]

def reasonName (code : Nat) : String := (reasons.lookup code).getD "unspecified"

def reasonCode (value : Bytes) : Option Nat := do
  let (e, _) ← Der.numbered 10 value
  if Bytes.toNat e.body < Nat.pow 2 64 then some (Bytes.toNat e.body) else none

def reasonOf (es : List Extension) : String :=
  match es.find? (·.oid = Der.Oid.reasonCode) with
  | none => reasonName 0
  | some e => reasonName ((reasonCode e.value).getD 0)

/-- Extensions that cannot be read count as missing. -/
def decode (s : Bytes) : Option (RevokedEntry × Bytes) := do
  let (body, rest) ← Der.sequence s
  let (serial, r) ← Der.integerBody body
  let (_, r) ← Der.time r
  let es := (Extension.decodeList r).elim [] (·.1)
  some (⟨serial, reasonOf es⟩, rest)

def decodeList (s : Bytes) : Option (List RevokedEntry × Bytes) := do
  let (body, rest) ← Der.sequence s
  let es ← Der.all decode body
  some (es, rest)

end RevokedEntry

structure RevocationBody where
  issuer : DistinguishedName
  thisUpdate : Int
  nextUpdate : Option Int
  entries : List RevokedEntry
  deriving DecidableEq, Repr

namespace RevocationBody

def nextTime (s : Bytes) : Option (Option Int × Bytes) :=
  if s = [] then some (none, s)
  else do
    let (e, _) ← Der.element s
    if e.number = 23 ∨ e.number = 24 then (Der.time s).map fun p ↦ (some p.1, p.2)
    else some (none, s)

def decode (s : Bytes) : Option ((Bytes × RevocationBody) × Bytes) := do
  let (body, rest) ← Der.sequence s
  let r := (Der.unsigned32 body).elim body (·.2)
  let (_, r) ← Algorithm.decode r
  let (issuer, r) ← DistinguishedName.decode r
  let (thisUpdate, r) ← Der.time r
  let (nextUpdate, r) ← nextTime r
  let (entries, r) := (RevokedEntry.decodeList r).getD ([], r)
  let _ ← Extension.decodeTail 0 r
  some ((Bytes.before s rest, ⟨issuer, thisUpdate, nextUpdate, entries⟩), rest)

end RevocationBody

/-- A revocation list, known by its encoding. -/
structure RevocationList where
  der : Bytes
  issuer : DistinguishedName
  thisUpdate : Int
  nextUpdate : Option Int
  entries : List RevokedEntry
  deriving DecidableEq, Repr, Inhabited

namespace RevocationList

def decodeSigned (s : Bytes) : Option ((Signed × RevocationBody) × Bytes) :=
  Signed.decode RevocationBody.decode s

def ofDer (input : Bytes) : Except TrustError RevocationList :=
  match decodeSigned input with
  | none => .error (.der .revocationList)
  | some ((_, body), rest) =>
    .ok ⟨Bytes.before input rest, body.issuer, body.thisUpdate, body.nextUpdate, body.entries⟩

def armoured (input : Bytes) : Except TrustError (List Bytes) :=
  Pem.contents ["X509 CRL"] .noRevocationList input

def parse (input : Bytes) : Except TrustError RevocationList :=
  if Pem.looksArmoured input then do
    match ← armoured input with
    | [] => .error (.pem .noRevocationList)
    | b :: _ => ofDer b
  else ofDer input

def serials (l : RevocationList) : List Bytes := (l.entries.map (·.serial.trimZeros)).eraseDups

def size (l : RevocationList) : Nat := l.serials.length

def isEmpty (l : RevocationList) : Bool := l.serials.isEmpty

/-- The reason for which a serial number is revoked. Leading zeros do not count, and of several
entries with one serial number the last does. -/
def reason? (l : RevocationList) (serial : Bytes) : Option String :=
  (l.entries.reverse.find? (·.serial.trimZeros = serial.trimZeros)).map (·.reason)

def revokes (l : RevocationList) (serial : Bytes) : Bool := serial.trimZeros ∈ l.serials

def lists (l : RevocationList) (c : Certificate) : Option String :=
  if l.issuer.raw = c.issuer.raw then l.reason? c.serial else none

end RevocationList

end CertPath
