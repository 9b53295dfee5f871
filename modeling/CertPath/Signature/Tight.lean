import CertPath.Bytes

namespace CertPath.Signature

/-- An element of the tag octet `tag`, whose length is written in the shortest way and is below
2 ^ 16. -/
def tight (tag : UInt8) : Bytes → Option (Bytes × Bytes)
  | t :: n :: r =>
    if t ≠ tag then none
    else
      let cut := fun (k : Nat) (r : Bytes) ↦
        if r.length < k then none else some (r.take k, r.drop k)
      if n.toNat < 0x80 then cut n.toNat r
      else
        match n.toNat, r with
        | 0x81, a :: r => if a.toNat < 0x80 then none else cut a.toNat r
        | 0x82, a :: b :: r => if a = 0 then none else cut (a.toNat * 256 + b.toNat) r
        | _, _ => none
  | _ => none

def positive (s : Bytes) : Option (Bytes × Bytes) := do
  let (body, r) ← tight 0x02 s
  match body with
  | [] => none
  | 0 :: x :: b => if x.toNat < 0x80 then none else some (x :: b, r)
  | x :: b => if x = 0 || 0x80 ≤ x.toNat then none else some (x :: b, r)

def positivePair (s : Bytes) : Option (Bytes × Bytes) := do
  let (body, rest) ← tight 0x30 s
  let (x, r) ← positive body
  let (y, r) ← positive r
  if r = [] ∧ rest = [] then some (x, y) else none

end CertPath.Signature
