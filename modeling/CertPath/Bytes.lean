namespace CertPath

abbrev Bytes := List UInt8

namespace Bytes

def hexDigit (ten : Nat) (n : Nat) : Char :=
  if n < 10 then Char.ofNat (48 + n) else Char.ofNat (ten + (n - 10))

def hex (b : Bytes) : String :=
  String.ofList (b.flatMap fun x ↦ [hexDigit 97 (x.toNat / 16), hexDigit 97 (x.toNat % 16)])

def upperPair (x : UInt8) : List Char :=
  [hexDigit 65 (x.toNat / 16), hexDigit 65 (x.toNat % 16)]

def colonChars : Bytes → List Char
  | [] => []
  | [x] => upperPair x
  | x :: y :: r => upperPair x ++ ':' :: colonChars (y :: r)

/-- Upper-case hex with a colon between octets, as in `AB:CD`. -/
def colonHex (b : Bytes) : String := String.ofList b.colonChars

/-- Drops leading zero octets, but never the last octet. -/
def trimZeros : Bytes → Bytes
  | [] => []
  | [x] => [x]
  | x :: y :: r => if x = 0 then trimZeros (y :: r) else x :: y :: r

def toNat (b : Bytes) : Nat := b.foldl (fun n x ↦ 256 * n + x.toNat) 0

def ofNat (len n : Nat) : Bytes :=
  (List.range len).reverse.map fun i ↦ UInt8.ofNat (n / Nat.pow 256 i)

-- Without it each definition that asks would hold its own proof that octets compare lawfully.
instance (b : Bytes) (bs : List Bytes) : Decidable (b ∈ bs) := inferInstance

def before (s rest : Bytes) : Bytes := s.take (s.length - rest.length)

end Bytes

end CertPath
