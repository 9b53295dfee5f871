import CertPath.Der.Primitive

namespace CertPath

structure Algorithm where
  oid : Der.Oid
  parameters : Option Der.Element
  deriving DecidableEq, Repr

def Algorithm.decode (s : Bytes) : Option (Algorithm × Bytes) := do
  let (body, rest) ← Der.sequence s
  let (oid, r) ← Der.oid body
  if r = [] then some (⟨oid, none⟩, rest)
  else
    let (e, _) ← Der.element r
    some (⟨oid, some e⟩, rest)

/-- A public key with its algorithm. The encoding ends where the key ends, even if the enclosing
element goes on. -/
structure PublicKeyInfo where
  raw : Bytes
  algorithm : Algorithm
  key : Bytes
  deriving DecidableEq, Repr

def PublicKeyInfo.decode (s : Bytes) : Option (PublicKeyInfo × Bytes) := do
  let (body, rest) ← Der.sequence s
  let (algorithm, r) ← Algorithm.decode body
  let (key, r) ← Der.bitString r
  let whole := Bytes.before s rest
  some (⟨whole.take (whole.length - r.length), algorithm, key⟩, rest)

structure Signed where
  content : Bytes
  algorithm : Algorithm
  signature : Bytes
  deriving DecidableEq, Repr

def Signed.decode {α : Type} (content : Bytes → Option ((Bytes × α) × Bytes)) (s : Bytes) :
    Option ((Signed × α) × Bytes) := do
  let (body, rest) ← Der.sequence s
  let ((raw, a), r) ← content body
  let (algorithm, r) ← Algorithm.decode r
  let (signature, _) ← Der.bitString r
  some ((⟨raw, algorithm, signature⟩, a), rest)

end CertPath
