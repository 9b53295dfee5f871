import CertPath.Der.Primitive

namespace CertPath

structure KeyUsage where
  bits : UInt16
  deriving DecidableEq, Repr

namespace KeyUsage

def digitalSignature : UInt16 := 1
def nonRepudiation : UInt16 := 2
def keyEncipherment : UInt16 := 4

def purposes : List String :=
  ["digitalSignature", "nonRepudiation", "keyEncipherment", "dataEncipherment", "keyAgreement",
    "keyCertSign", "cRLSign", "encipherOnly", "decipherOnly"]

def contains (u : KeyUsage) (mask : UInt16) : Bool := u.bits &&& mask = mask

def names (u : KeyUsage) : List String :=
  (purposes.zipIdx.filter fun p ↦ u.bits.toNat.testBit p.2).map (·.1)

def mirrored (x : UInt8) : Nat :=
  (List.range 8).foldr (fun i n ↦ (if x.toNat.testBit (7 - i) then Nat.pow 2 i else 0) + n) 0

/-- Bit `n` of a bit string is bit `n` of the number; bits from the sixteenth on are dropped. -/
def ofBitString (b : Bytes) : KeyUsage :=
  ⟨UInt16.ofNat (b.foldr (fun x n ↦ n * 256 + mirrored x) 0)⟩

def decode (value : Bytes) : Option KeyUsage := (Der.namedBits value).map fun p ↦ ofBitString p.1

end KeyUsage

end CertPath
