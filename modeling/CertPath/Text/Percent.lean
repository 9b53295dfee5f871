import CertPath.Text.Utf8

namespace CertPath.Percent

/-- Writes controls, characters beyond ASCII and those in `set` as octets in upper-case hex. -/
def encode (set : List Char) (s : List Char) : List Char :=
  s.flatMap fun c ↦
    if c.toNat < 0x20 || 0x7F ≤ c.toNat || c ∈ set then
      (Utf8.encodeChar c).flatMap fun x ↦ '%' :: Bytes.upperPair x
    else [c]

def hexValue (x : UInt8) : Option Nat :=
  let n := x.toNat
  if 48 ≤ n ∧ n ≤ 57 then some (n - 48)
  else if 65 ≤ n ∧ n ≤ 70 then some (n - 55)
  else if 97 ≤ n ∧ n ≤ 102 then some (n - 87)
  else none

def decodeBytes : Bytes → Bytes
  | 37 :: a :: b :: r =>
    match hexValue a, hexValue b with
    | some h, some l => UInt8.ofNat (16 * h + l) :: decodeBytes r
    | _, _ => 37 :: decodeBytes (a :: b :: r)
  | x :: r => x :: decodeBytes r
  | [] => []

def octets (s : List Char) : Bytes := decodeBytes (Utf8.encode s)

def decode (s : List Char) : List Char := Utf8.decodeLossy (octets s)

end CertPath.Percent
