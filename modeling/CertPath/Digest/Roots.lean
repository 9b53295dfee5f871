namespace CertPath.Digest

def floorRoot (k n bits : Nat) : Nat :=
  (List.range bits).foldr (fun i r ↦ if Nat.pow (r + Nat.pow 2 i) k ≤ n then r + Nat.pow 2 i else r) 0

def isPrime (n : Nat) : Bool := 2 ≤ n && (List.range n).all fun d ↦ d < 2 || n % d ≠ 0

def primes : List Nat := (List.range 410).filter isPrime

/-- The first `w` bits after the point of the `k`-th root of `n`. -/
def rootFraction (w k n : Nat) : BitVec w := BitVec.ofNat w (floorRoot k (n * Nat.pow 2 (w * k)) (w + 8))

end CertPath.Digest
