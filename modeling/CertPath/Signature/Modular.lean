namespace CertPath.Signature

def powMod (b e m : Nat) : Nat :=
  (List.range (e.log2 + 1)).foldr
    (fun i x ↦ if e.testBit i then x * x % m * b % m else x * x % m) (1 % m)

def inverse (x p : Nat) : Nat := powMod x (p - 2) p

def subMod (x y m : Nat) : Nat := (x % m + (m - y % m)) % m

/-- Adds `x` to itself `k` times in a group written additively, by doubling along the bits. -/
def scale {α : Type} (add : α → α → α) (zero : α) (k : Nat) (x : α) : α :=
  (List.range (k.log2 + 1)).foldr
    (fun i y ↦ if k.testBit i then add (add y y) x else add y y) zero

end CertPath.Signature
